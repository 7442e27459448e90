import DolTranslator.Gqr.Soundness

/-!
# The known constants are true in every run

* `Stable`, `solve_stable`   the analysis ends in a solution of its equations;
* `Bindable`   the keys that it can bind;
* `Inv`   the invariant of a run: what is known at its place is true, for the pass
  that rewrites and for the analysis;
* `constants_sound`   the main result.
-/

set_option linter.unusedSectionVars false

namespace DolTranslator.Gqr
open Dataflow Transition

/-! ## the solution of the equations -/

variable {m : Constants} {ins : IrInstruction} {b : Nat}

section
variable {f : IrFunction} {cfg : IrCfg} {entryConstants : Constants} {masks : Nat → Option Nat}

/-- a visit of any block changes nothing -/
def Stable (f : IrFunction) (cfg : IrCfg) (entryConstants : Constants)
    (masks : Nat → Option Nat) (st : FlowState) : Prop :=
  ∀ b < f.blocks.length, (visitBlock f cfg entryConstants masks b (st, false)).2 = false

variable {st : FlowState}

theorem visitBlock_unchanged {st' : FlowState} {changed : Bool}
    (h : visitBlock f cfg entryConstants masks b (st, changed) = (st', false)) :
    st' = st ∧ changed = false ∧ (visitBlock f cfg entryConstants masks b (st, false)).2 = false := by
  unfold visitBlock at h ⊢
  cases hmerged : mergedInput cfg entryConstants st b with
  | none =>
    simp only [hmerged] at h ⊢
    obtain ⟨h1, h2⟩ := Prod.mk.inj h
    exact ⟨h1.symm, h2, trivial⟩
  | some newInput =>
    simp only [hmerged] at h ⊢
    obtain ⟨h1, h2⟩ := Prod.mk.inj h
    simp only [Bool.or_eq_false_iff, Bool.not_eq_false', Bool.and_eq_true] at h2
    obtain ⟨hc, ⟨hin, hout⟩, hinit⟩ := h2
    simp only [hin, hout, hinit, if_true] at h1
    exact ⟨h1.symm, hc, by rw [hin, hout, hinit]; rfl⟩

theorem round_unchanged {st' : FlowState}
    (h : roundOver f cfg entryConstants masks st = (st', false)) :
    st' = st ∧ Stable f cfg entryConstants masks st := by
  suffices hs : ∀ (l : List Nat) (work : FlowState × Bool),
      l.foldl (fun work b => visitBlock f cfg entryConstants masks b work) work = (st', false) →
      work.1 = st' ∧ work.2 = false ∧
        ∀ b ∈ l, (visitBlock f cfg entryConstants masks b (st', false)).2 = false by
    obtain ⟨h1, -, h3⟩ := hs _ _ h
    have h1 : st = st' := h1
    subst h1
    exact ⟨rfl, fun b hb => h3 b (List.mem_range.mpr hb)⟩
  intro l
  induction l with
  | nil =>
    intro work h
    obtain rfl : work = (st', false) := h
    exact ⟨rfl, rfl, fun b hb => by cases hb⟩
  | cons b l ih =>
    intro work h
    obtain ⟨h1, h2, h3⟩ := ih _ h
    obtain ⟨e1, e2, e3⟩ := visitBlock_unchanged
      (Prod.ext h1 h2 : visitBlock f cfg entryConstants masks b (work.1, work.2) = (st', false))
    rw [← e1] at e3
    exact ⟨e1.symm, e2, fun x hx => by
      rcases List.mem_cons.mp hx with rfl | hx
      · exact e3
      · exact h3 x hx⟩

theorem solve_stable {fuel : Nat} {st0 : FlowState}
    (h : solve f cfg entryConstants masks fuel st0 = some st) :
    Stable f cfg entryConstants masks st := by
  induction fuel generalizing st0 with
  | zero => cases h
  | succ fuel ih =>
    simp only [solve] at h
    split at h
    · exact ih h
    · rename_i hr
      obtain rfl := Option.some.inj h
      have hround : roundOver f cfg entryConstants masks st0 =
          ((roundOver f cfg entryConstants masks st0).1, false) :=
        Prod.ext rfl (Bool.eq_false_iff.mpr hr)
      obtain ⟨e, hs⟩ := round_unchanged hround
      rwa [e]

theorem Stable.equations (h : Stable f cfg entryConstants masks st)
    (hb : b < f.blocks.length) {newInput : Constants}
    (hm : mergedInput cfg entryConstants st b = some newInput) :
    (∀ k, (st.input.getD b ∅).lookup k = newInput.lookup k) ∧
    (∀ k, (st.output.getD b ∅).lookup k =
      (transferAll masks (some (outputOf f st)) (f.body b) newInput).lookup k) ∧
    st.outputInitialized.getD b false = true := by
  have hv := h b hb
  simp only [visitBlock, hm, Bool.false_or, Bool.not_eq_false', Bool.and_eq_true] at hv
  obtain ⟨⟨hin, hout⟩, hinit⟩ := hv
  exact ⟨(ConstantMap.same_iff _ _).mp hin, (ConstantMap.same_iff _ _).mp hout, hinit⟩

variable (cfg entryConstants) in
theorem mergedInput_entry (st : FlowState) : ∃ newInput,
    mergedInput cfg entryConstants st cfg.entry = some newInput ∧
      ∀ k v, newInput.lookup k = some v → entryConstants.lookup k = some v := by
  refine ⟨_, if_pos rfl, fun k v h => ?_⟩
  exact ((ConstantMap.lookup_meet _ _ _ _).mp h).1

variable (entryConstants) in
theorem mergedInput_edge {p : Nat} (hp : p ∈ cfg.predecessors b)
    (hinit : st.outputInitialized.getD p false = true) : ∃ newInput,
    mergedInput cfg entryConstants st b = some newInput ∧
      ∀ k v, newInput.lookup k = some v → (st.output.getD p ∅).lookup k = some v := by
  have hmem : st.output.getD p ∅ ∈ ((cfg.predecessors b).filter
      fun p => st.outputInitialized.getD p false).map fun p => st.output.getD p ∅ :=
    List.mem_map.mpr ⟨p, List.mem_filter.mpr ⟨hp, hinit⟩, rfl⟩
  simp only [mergedInput]
  split
  · refine ⟨_, rfl, fun k v h => ?_⟩
    exact ((ConstantMap.lookup_meet _ _ _ _).mp h).2 _ hmem
  · split
    · rename_i hnil
      rw [hnil] at hmem
      cases hmem
    · rename_i first rest hcons
      rw [hcons] at hmem
      refine ⟨_, rfl, fun k v h => ?_⟩
      obtain ⟨h1, h2⟩ := (ConstantMap.lookup_meet _ _ _ _).mp h
      rcases List.mem_cons.mp hmem with e | hmem
      · rw [e, h1]
      · exact h2 _ hmem

/-! ## keys of the maps -/

/-- the keys that the analysis can bind -/
def Bindable (f : IrFunction) (m : Constants) : Prop :=
  ∀ k v, m.lookup k = some v → (∃ i < 8, k = gqrName i) ∨ BindsConstant f k

theorem Bindable.of_lookup {m' : Constants} (h : Bindable f m)
    (hl : ∀ k v, m'.lookup k = some v → m.lookup k = some v) : Bindable f m' :=
  fun k v hk => h k v (hl k v hk)

theorem Bindable.assign (h : Bindable f m) {k : String} {c : Option Word}
    (hk : c ≠ none → (∃ i < 8, k = gqrName i) ∨ BindsConstant f k) : Bindable f (m.assign k c) := by
  intro k' v hl
  by_cases e : k' = k
  · subst e
    rw [ConstantMap.lookup_assign] at hl
    exact hk (by rw [hl]; exact fun e => by cases e)
  · rw [ConstantMap.lookup_assign_ne _ _ e] at hl
    exact h k' v hl

theorem Bindable.transfer (h : Bindable f m)
    (hins : ∃ b ∈ f.blocks, ins ∈ b.instructions)
    (out : Option (String → Option Constants)) : Bindable f (transfer masks out ins m) := by
  cases ins with
  | assign d v => exact h.assign fun _ => Or.inr (mem_binds hins rfl)
  | binary d l r op => exact h.assign fun _ => Or.inr (mem_binds hins rfl)
  | phi d sources => exact h.assign fun _ => Or.inr (mem_binds hins rfl)
  | load d a n => exact h.assign fun hc => absurd rfl hc
  | call d target args tail =>
    simp only [Gqr.transfer]
    split
    · intro k v hk
      obtain ⟨k', hkey, -⟩ := ConstantMap.lookup_rekey _ _ hk
      obtain ⟨-, i, hi, e⟩ := gqrKey_eq_some.mp (Option.filter_eq_some_iff.mp hkey).1
      exact Or.inl ⟨i, hi, e⟩
    · split
      · exact h
      · exact h.assign fun hc => absurd rfl hc
  | indirectCall d target args =>
    intro k v hk
    simp [Gqr.transfer] at hk
  | _ => exact h

theorem Bindable.transferAll (masks : Nat → Option Nat)
    (out : Option (String → Option Constants)) (body : List IrInstruction)
    (hbody : ∀ ins ∈ body, ∃ b ∈ f.blocks, ins ∈ b.instructions)
    (h : Bindable f m) : Bindable f (transferAll masks out body m) := by
  induction body generalizing m with
  | nil => exact h
  | cons ins body ih =>
    exact ih (fun i hi => hbody i (List.mem_cons_of_mem _ hi))
      (h.transfer (hbody ins List.mem_cons_self) out)

theorem mem_body (h : ins ∈ f.body b) :
    ∃ blk ∈ f.blocks, ins ∈ blk.instructions := by
  unfold IrFunction.body at h
  split at h
  · rename_i blk hb
    exact ⟨blk, List.mem_of_getElem? hb, h⟩
  · cases h

/-- all outputs bind bindable keys -/
def OutputsBindable (f : IrFunction) (st : FlowState) : Prop :=
  ∀ p, Bindable f (st.output.getD p ∅)

theorem visitBlock_bindable (he : Bindable f entryConstants) {work : FlowState × Bool}
    (h : OutputsBindable f work.1) :
    OutputsBindable f (visitBlock f cfg entryConstants masks b work).1 := by
  unfold visitBlock
  cases hm : mergedInput cfg entryConstants work.1 b with
  | none =>
    simp only [hm]
    exact h
  | some newInput =>
    have hnew : Bindable f newInput := by
      simp only [mergedInput] at hm
      split at hm
      · obtain rfl := Option.some.inj hm
        exact he.of_lookup fun k v hk => ((ConstantMap.lookup_meet _ _ _ _).mp hk).1
      · split at hm
        · cases hm
        · rename_i first rest hcons
          obtain rfl := Option.some.inj hm
          have hfirst : first ∈ first :: rest := List.mem_cons_self
          rw [← hcons] at hfirst
          obtain ⟨p, -, rfl⟩ := List.mem_map.mp hfirst
          exact (h p).of_lookup fun k v hk => ((ConstantMap.lookup_meet _ _ _ _).mp hk).1
    have hstate := hnew.transferAll masks (some (outputOf f work.1)) (f.body b)
      fun _ => mem_body
    have hset : ∀ p, Bindable f ((work.1.output.set b
        (transferAll masks (some (outputOf f work.1)) (f.body b) newInput)).getD p ∅) := by
      intro p
      rw [List.getD_eq_getElem?_getD, List.getElem?_set]
      split
      · split
        · exact hstate
        · exact fun k v hk => by simp at hk
      · rw [← List.getD_eq_getElem?_getD]
        exact h p
    intro p
    simp only [hm]
    split
    · exact h p
    · exact hset p

theorem solve_bindable (he : Bindable f entryConstants) {fuel : Nat} {st0 : FlowState}
    (h0 : OutputsBindable f st0) (h : solve f cfg entryConstants masks fuel st0 = some st) :
    OutputsBindable f st := by
  have hround : ∀ st, OutputsBindable f st →
      OutputsBindable f (roundOver f cfg entryConstants masks st).1 := by
    intro st hst
    suffices hs : ∀ (l : List Nat) (work : FlowState × Bool), OutputsBindable f work.1 →
        OutputsBindable f (l.foldl
          (fun work b => visitBlock f cfg entryConstants masks b work) work).1 from hs _ _ hst
    intro l
    induction l with
    | nil => exact fun work h => h
    | cons b l ih => exact fun work h => ih _ (visitBlock_bindable he h)
  induction fuel generalizing st0 with
  | zero => cases h
  | succ fuel ih =>
    simp only [solve] at h
    split at h
    · exact ih (hround _ h0) h
    · obtain rfl := Option.some.inj h
      exact hround _ h0

end

/-! ## runs -/

theorem transferAll_succ {masks : Nat → Option Nat} {out : Option (String → Option Constants)}
    {body : List IrInstruction} {i : Nat} (h : body[i]? = some ins)
    (m : Constants) : transferAll masks out (body.take (i + 1)) m =
      transfer masks out ins (transferAll masks out (body.take i) m) := by
  rw [transferAll, List.take_add_one, h, List.foldl_append]
  rfl

theorem transfer_terminator {masks : Nat → Option Nat}
    {out : Option (String → Option Constants)}
    (h : ins.isTerminator = true) (m : Constants) : transfer masks out ins m = m := by
  cases ins <;> first | rfl | cases h

theorem transferAll_terminators {masks : Nat → Option Nat}
    {out : Option (String → Option Constants)} {body : List IrInstruction} {i : Nat}
    (h : ∀ ins ∈ body.drop i, ins.isTerminator = true) (m : Constants) :
    transferAll masks out body m = transferAll masks out (body.take i) m := by
  have hdrop : ∀ (l : List IrInstruction) m, (∀ ins ∈ l, ins.isTerminator = true) →
      transferAll masks out l m = m := by
    intro l
    induction l with
    | nil => exact fun m _ => rfl
    | cons ins l ih =>
      intro m hl
      show transferAll masks out l (transfer masks out ins m) = m
      rw [transfer_terminator (hl ins List.mem_cons_self),
        ih m fun x hx => hl x (List.mem_cons_of_mem _ hx)]
  conv_lhs => rw [← List.take_append_drop i body]
  rw [transferAll, List.foldl_append]
  exact hdrop _ _ h

def constantsAt (f : IrFunction) (entryConstants : Constants) (masks : Nat → Option Nat)
    (b i : Nat) : Option Constants :=
  (constantFlow f entryConstants masks).map fun flow =>
    transferAll masks none ((f.body b).take i) (flow.getD b ∅)

section
variable {V W : Type} {env : Env V W} {word : Word → V} {f : IrFunction} {cfg : IrCfg}
  {entryConstants : Constants} {masks : Nat → Option Nat} {st : FlowState}

theorem labelIndex_labelOf (hf : f.WellFormed) {p : Nat} (hp : p < f.blocks.length) :
    f.labelIndex (f.labelOf p) = some p := by
  have hlabel : f.labelOf p = f.blocks[p].label := by
    rw [IrFunction.labelOf, List.getElem?_eq_getElem hp]
  refine List.findIdx?_eq_some_iff_getElem.mpr ⟨hp, ?_, fun j hj => ?_⟩
  · simp [sameLabel, hlabel]
  · intro hsame
    have hlt : j < f.blocks.length := hj.trans hp
    have hj' : j < (f.blocks.map fun b => foldCase b.label).length := by simpa using hlt
    have hp' : p < (f.blocks.map fun b => foldCase b.label).length := by simpa using hp
    have e : (f.blocks.map fun b => foldCase b.label)[j] =
        (f.blocks.map fun b => foldCase b.label)[p] := by
      simpa [sameLabel, hlabel] using hsame
    have := hf.labels.getElem_inj_iff.mp e
    omega

theorem outputOf_congr {a b : String} (h : sameLabel a b = true) :
    outputOf f st a = outputOf f st b := by
  have e : (fun blk : IrBasicBlock => sameLabel blk.label a) =
      fun blk => sameLabel blk.label b := by
    funext blk
    simp only [sameLabel, beq_iff_eq] at h ⊢
    rw [h]
  rw [outputOf, outputOf, IrFunction.labelIndex, IrFunction.labelIndex, e]

/-- **The invariant of a run.** -/
structure Inv (f : IrFunction) (cfg : IrCfg) (entryConstants : Constants)
    (masks : Nat → Option Nat) (word : Word → V) (st : FlowState)
    (c : Config (TracedState V W)) : Prop where
  inside : c.Inside f
  rewriting : (transferAll masks none ((f.body c.block).take c.index)
    (st.input.getD c.block ∅)).Holds (Value f word c.state)
  analysis : ∃ newInput, mergedInput cfg entryConstants st c.block = some newInput ∧
    (transferAll masks (some (outputOf f st)) ((f.body c.block).take c.index) newInput).Holds
      (Value f word c.state)
  phis : PhiFacts f word (outputOf f st) c.state

theorem Inv.enter (hs : Stable f cfg entryConstants masks st)
    (hb : b < f.blocks.length) {newInput : Constants}
    (hm : mergedInput cfg entryConstants st b = some newInput) {t : TracedState V W}
    (hv : newInput.Holds (Value f word t)) (hp : PhiFacts f word (outputOf f st) t) :
    Inv f cfg entryConstants masks word st ⟨b, 0, t⟩ := by
  refine ⟨.start hb t, ?_, ⟨newInput, hm, hv⟩, hp⟩
  exact hv.of_lookup fun k v hk => ((hs.equations hb hm).1 k).symm.trans hk

/-- **One accounted step of a run.** -/
theorem Inv.advance (hf : f.WellFormed) (hc : IrCfg.build f = some cfg) (hw : Words env word)
    (hcal : CalleesPreserve env masks) (hs : Stable f cfg entryConstants masks st)
    {c c' : Config (TracedState V W)} (h : Inv f cfg entryConstants masks word st c)
    (ha : Machine.AtStep f (Accounted f env word) c)
    (hstep : (tracedMachine env).advance f (arrive f) c = some c') :
    Inv f cfg entryConstants masks word st c' := by
  have hin' := hf.advance_inside (tracedMachine_transfers env) hc h.inside hstep
  obtain ⟨newInput, hm, hanalysis⟩ := h.analysis
  obtain ⟨ins, hins, -, rfl⟩ | ⟨next, hsucc, hlt, rfl, hdrop⟩ :=
    hf.advance_cases (tracedMachine_transfers env) hc h.inside hstep
  · have hmem : ∃ b ∈ f.blocks, ins ∈ b.instructions := mem_body (List.mem_of_getElem? hins)
    have hacc := ha ins hins
    refine ⟨hin', ?_, ⟨newInput, hm, ?_⟩, h.phis.labels, h.phis.keys, h.phis.arrival⟩
    · rw [transferAll_succ hins]
      exact transfer_sound h.rewriting hw hcal hmem (fun _ ho => by cases ho) hacc
    · rw [transferAll_succ hins]
      exact transfer_sound hanalysis hw hcal hmem
        (fun _ ho => (Option.some.inj ho) ▸ h.phis) hacc
  · obtain ⟨-, hout, hinit⟩ := hs.equations h.inside.block hm
    rw [← transferAll_terminators hdrop] at hanalysis
    have hpred : c.block ∈ cfg.predecessors next := by
      refine (IrCfg.mem_predecessors cfg next c.block).mpr ⟨?_, hsucc⟩
      rw [IrCfg.build, if_pos hf.labels, Option.map_eq_some_iff] at hc
      obtain ⟨entry, -, rfl⟩ := hc
      exact h.inside.block
    have hval : Value f word (arrive f c.block next c.state) = Value f word c.state := rfl
    obtain ⟨newInput', hm', hle⟩ := mergedInput_edge entryConstants hpred hinit
    refine Inv.enter hs hlt hm' ?_ ⟨h.phis.labels, h.phis.keys, ?_⟩
    · rw [hval]
      exact hanalysis.of_lookup fun k v hk => (hout k).symm.trans (hle k v hk)
    · intro label old harr m hlabel k v hk
      obtain ⟨rfl, rfl⟩ := Prod.mk.inj (Option.some.inj harr)
      rw [outputOf, labelIndex_labelOf hf h.inside.block, Option.map_some] at hlabel
      rw [← Option.some.inj hlabel, hout k] at hk
      rcases hanalysis k v hk with ⟨i, hi, e, -⟩ | ⟨hn, -, hold⟩
      · exact Or.inl ⟨i, hi, e⟩
      · exact Or.inr ⟨hn, hold⟩

theorem unknown_sound (hf : f.WellFormed) (hc : IrCfg.build f = some cfg) (hw : Words env word)
    (hcal : CalleesPreserve env masks) {start c : Config (TracedState V W)}
    (h0 : start.index = 0) (hin : start.Inside f)
    (hr : Reaches ((tracedMachine env).advance f (arrive f))
      (Machine.AtStep f (Accounted f env word)) start c) :
    c.Inside f ∧ (transferAll masks none ((f.body c.block).take c.index) ∅).Holds
      (Value f word c.state) := by
  refine hr.invariant (I := fun c => c.Inside f ∧
    (transferAll masks none ((f.body c.block).take c.index) ∅).Holds (Value f word c.state))
    ⟨hin, ?_⟩ fun c c' ⟨hi, hm⟩ ha hstep => ?_
  · rw [h0]
    exact ConstantMap.Holds.empty
  · have hin' := hf.advance_inside (tracedMachine_transfers env) hc hi hstep
    obtain ⟨ins, hins, -, rfl⟩ | ⟨next, -, -, rfl, -⟩ :=
      hf.advance_cases (tracedMachine_transfers env) hc hi hstep
    · refine ⟨hin', ?_⟩
      rw [transferAll_succ hins]
      exact transfer_sound hm hw hcal (mem_body (List.mem_of_getElem? hins))
        (fun _ ho => by cases ho) (ha ins hins)
    · exact ⟨hin', ConstantMap.Holds.empty⟩

theorem initialFlow_bindable : OutputsBindable f (initialFlow f) := by
  intro p k v hk
  have e : (initialFlow f).output.getD p ∅ = ∅ := by
    rw [List.getD_eq_getElem?_getD]
    simp only [initialFlow, List.getElem?_replicate]
    split <;> rfl
  rw [e] at hk
  simp at hk

/-- the index argument of a paired-single helper, in the state -/
def IndexArgument (env : Env V W) (word : Word → V) (t : TracedState V W) (index : Nat) :
    IrInstruction → Prop
  | .call _ target arguments _ => ∃ position x, psqIndexArgument target = some position ∧
      arguments[position]? = some x ∧ IsWord word env t x (BitVec.ofNat 32 index)
  | .resolvedPsqLoad _ _ _ _ _ i _ _ | .resolvedPsqStore _ _ _ _ _ i _ _ => i = index
  | _ => False

theorem knownAccess_sound (hw : Words env word) {t : TracedState V W}
    (hm : m.Holds (Value f word t)) (ha : Accounted f env word ins t)
    {index : Nat} {gqr : Word} (h : knownAccess m ins = some (index, gqr)) :
    IndexArgument env word t index ins ∧ (index < 8 → t.cells (gqrName index) = word gqr) := by
  have hcell : ∀ {i : Nat}, m.lookup (gqrName i) = some gqr → i < 8 →
      t.cells (gqrName i) = word gqr := by
    intro i hl hi
    rcases hm _ _ hl with ⟨-, -, -, hc⟩ | ⟨hn, -, -⟩
    · exact hc
    · rw [gqrKey_gqrName hi] at hn
      cases hn
  cases ins with
  | resolvedPsqLoad d r a o w i known guard | resolvedPsqStore r a o s w i known guard =>
    cases known with
    | some g => cases h
    | none =>
      obtain ⟨g, hg, e⟩ := Option.map_eq_some_iff.mp h
      obtain ⟨rfl, rfl⟩ := Prod.mk.inj e
      exact ⟨rfl, hcell hg⟩
  | call d target args tail =>
    obtain ⟨position, hpos, h⟩ := Option.bind_eq_some_iff.mp h
    obtain ⟨x, hx, h⟩ := Option.bind_eq_some_iff.mp h
    obtain ⟨idx, hidx, h⟩ := Option.bind_eq_some_iff.mp h
    split at h
    · rename_i hlt
      obtain ⟨g, hg, e⟩ := Option.map_eq_some_iff.mp h
      obtain ⟨rfl, rfl⟩ := Prod.mk.inj e
      refine ⟨⟨position, x, hpos, hx, ?_⟩, fun _ => hcell hg hlt⟩
      rw [BitVec.ofNat_toNat, BitVec.setWidth_eq]
      exact tryValue_sound hw hm (ha.1 _ hpos _ hx) hidx
    · cases h
  | _ => cases h

/-- **What is known about a GQR is true.**  In every run of accounted steps from an entry state with
the entry constants, a constant that the pass gives a GQR at a place is what the GQR holds there,
and every access that is rewritten reads the GQR value it is rewritten for. -/
theorem constants_sound (hf : f.WellFormed) (hw : Words env word)
    (hcal : CalleesPreserve env masks) {start : TracedState V W} (harr : start.arrival = none)
    (hentry : ∀ k v, entryConstants.lookup k = some v →
      ∃ i < 8, k = gqrName i ∧ start.cells k = word v)
    {b : Nat} (hb : f.labelIndex f.entryLabel = some b) {c : Config (TracedState V W)}
    (hr : Reaches ((tracedMachine env).advance f (arrive f))
      (Machine.AtStep f (Accounted f env word)) ⟨b, 0, start⟩ c) :
    ∃ m, constantsAt f entryConstants masks c.block c.index = some m ∧
      (∀ i < 8, ∀ v, m.lookup (gqrName i) = some v → c.state.cells (gqrName i) = word v) ∧
      ∀ ins ∈ (f.body c.block)[c.index]?, Accounted f env word ins c.state →
        ∀ index gqr, knownAccess m ins = some (index, gqr) →
          IndexArgument env word c.state index ins ∧
            (index < 8 → c.state.cells (gqrName index) = word gqr) := by
  obtain ⟨cfg, hc⟩ : ∃ cfg, IrCfg.build f = some cfg := by
    rw [IrCfg.build, if_pos hf.labels, hb]
    exact ⟨_, rfl⟩
  have hcfg : cfg.entry = b := by
    rw [IrCfg.build, if_pos hf.labels, hb] at hc
    cases hc
    rfl
  have hlt := f.labelIndex_lt_length hb
  suffices hs : ∃ flow, constantFlow f entryConstants masks = some flow ∧
      (transferAll masks none ((f.body c.block).take c.index)
        (flow.getD c.block ∅)).Holds (Value f word c.state) by
    obtain ⟨flow, hflow, hm⟩ := hs
    refine ⟨_, by rw [constantsAt, hflow]; rfl, fun i hi v hl => ?_, fun ins _ ha index gqr hk =>
      knownAccess_sound hw hm ha hk⟩
    rcases hm _ _ hl with ⟨-, -, -, hcell⟩ | ⟨hn, -, -⟩
    · exact hcell
    · rw [gqrKey_gqrName hi] at hn
      cases hn
  rw [constantFlow, hc, Option.map_some]
  cases hsolve : solve f cfg entryConstants masks (iterationLimit f) (initialFlow f) with
  | none =>
    refine ⟨_, rfl, ?_⟩
    have e : (List.replicate f.blocks.length (∅ : Constants)).getD c.block ∅ = ∅ := by
      rw [List.getD_eq_getElem?_getD, List.getElem?_replicate]
      split <;> rfl
    simp only [e]
    exact (unknown_sound hf hc hw hcal rfl (.start hlt start) hr).2
  | some st =>
    have hstable := solve_stable hsolve
    have hbind : Bindable f entryConstants := fun k v hk => by
      obtain ⟨i, hi, e, -⟩ := hentry k v hk
      exact Or.inl ⟨i, hi, e⟩
    have hkeys := solve_bindable hbind initialFlow_bindable hsolve
    obtain ⟨newInput, hm, hle⟩ := mergedInput_entry cfg entryConstants st
    rw [hcfg] at hm
    have hinv : Inv f cfg entryConstants masks word st c := by
      refine hr.invariant (Inv.enter hstable hlt hm (fun k v hk => ?_) ⟨fun _ _ => outputOf_congr,
        fun label m hm k v hk => ?_, fun label old h => ?_⟩) fun c c' h ha hstep =>
          h.advance hf hc hw hcal hstable ha hstep
      · obtain ⟨i, hi, e, hcell⟩ := hentry k v (hle k v hk)
        exact Or.inl ⟨i, hi, e, hcell⟩
      · obtain ⟨p, -, rfl⟩ := Option.map_eq_some_iff.mp hm
        exact hkeys p k v hk
      · rw [harr] at h
        cases h
    exact ⟨_, rfl, hinv.rewriting⟩

end

/-! ## an entry block that is a loop head -/

/-- `for (;;) { gqr1 = r5; if (c) r5 = 5; else { f1 = psq_l(r4, gqr1); r5 = 5; } }` -/
def entryPhi : IrFunction where
  name := "entryPhi"
  entryLabel := "head"
  blocks := [
    ⟨"head", [.phi "r5_1" [("left", "r5_2"), ("right", "r5_3")],
      .assign "gqr1_1" (.register "r5_1"), .branch "beq" "left" "right" "cr0"]⟩,
    ⟨"left", [.assign "r5_2" (.imm 5), .jump "head"]⟩,
    ⟨"right", [.call "f1_1" "PPC_PsqL" [.register "r4", .imm 0, .imm 1] false,
      .assign "r5_3" (.imm 5), .jump "head"]⟩]

def entryPhiStart : TracedState Word Unit :=
  ⟨fun x => if x = "r5" then 7 else 0, fun _ => 0, (), none⟩

theorem entryPhi_wellFormed : entryPhi.WellFormed :=
  ⟨by decide +kernel, by decide +kernel, by decide, by decide⟩

theorem wordEnv_calleesPreserve (masks : Nat → Option Nat) : CalleesPreserve wordEnv masks :=
  fun _ _ _ _ _ _ _ _ _ _ _ _ => rfl

def entryPhiAccess : Config (TracedState Word Unit) :=
  ⟨2, 0, arrive entryPhi 0 2
    ((entryPhiStart.step wordEnv (.phi "r5_1" [("left", "r5_2"), ("right", "r5_3")])).1.step
      wordEnv (.assign "gqr1_1" (.register "r5_1"))).1⟩

/-- the phi of the entry block takes the constant of its back edges, although the first time
through it stands for the value at function entry -/
theorem entryPhi_constant_false : entryPhi.WellFormed ∧
    Reaches ((tracedMachine wordEnv).advance entryPhi (arrive entryPhi)) (fun _ => True)
      ⟨0, 0, entryPhiStart⟩ entryPhiAccess ∧
    (constantsAt entryPhi ∅ (fun _ => none) 2 0).bind (AList.lookup "gqr1") = some 5 ∧
    entryPhiAccess.state.cells "gqr1" = 7 :=
  ⟨entryPhi_wellFormed, .of_after (show after _ 3 _ = _ from rfl) fun _ _ _ _ => trivial,
    by decide +kernel, by decide +kernel⟩

/-- the access is rewritten for that constant -/
example : ((specialize entryPhi ∅ (fun _ => none) false false).map fun g => (g.body 2)[0]?) =
    some (some (.call "f1_1" "PPC_PsqLKnown_00000005" [.register "r4", .imm 0, .imm 1] false)) := by
  decide +kernel

/-! ## a loop over a known GQR -/

/-- `gqr1 = 5; do f1 = psq_l(r4, gqr1); while (c);` -/
def knownLoop : IrFunction where
  name := "knownLoop"
  entryLabel := "entry"
  blocks := [
    ⟨"entry", [.assign "gqr1_1" (.imm 5), .jump "loop"]⟩,
    ⟨"loop", [.call "f1_1" "PPC_PsqL" [.register "r4", .imm 0, .imm 1] false,
      .branch "beq" "loop" "exit" "cr0"]⟩,
    ⟨"exit", [.ret none]⟩]

def knownLoopAccess : Config (TracedState Word Unit) :=
  ⟨1, 0, arrive knownLoop 0 1
    (entryPhiStart.step wordEnv (.assign "gqr1_1" (.imm 5))).1⟩

theorem knownLoop_reaches :
    Reaches ((tracedMachine wordEnv).advance knownLoop (arrive knownLoop))
      (Machine.AtStep knownLoop (Accounted knownLoop wordEnv id)) ⟨0, 0, entryPhiStart⟩
      knownLoopAccess := by
  refine .of_after (show after _ 2 _ = _ from rfl) fun k hk u hu => ?_
  have hcase : k = 0 ∨ k = 1 := by omega
  rcases hcase with rfl | rfl
  · obtain rfl := Option.some.inj hu
    rintro ins ⟨⟩
    refine ⟨fun key hkey => ?_, fun x hx => by cases hx⟩
    have e : gqrKey "gqr1_1" = some "gqr1" := by decide +kernel
    rw [e] at hkey
    obtain rfl := Option.some.inj hkey
    decide +kernel
  · obtain rfl := Option.some.inj hu
    rintro ins ⟨⟩
    exact fun x hx => by cases hx

theorem constants_sound_knownLoop :
    ∃ m, constantsAt knownLoop ∅ (fun _ => none) 1 0 = some m ∧
      (∀ i < 8, ∀ v, m.lookup (gqrName i) = some v →
        knownLoopAccess.state.cells (gqrName i) = v) ∧
      ∀ ins ∈ (knownLoop.body 1)[0]?, Accounted knownLoop wordEnv id ins knownLoopAccess.state →
        ∀ index gqr, knownAccess m ins = some (index, gqr) →
          IndexArgument wordEnv id knownLoopAccess.state index ins ∧
            (index < 8 → knownLoopAccess.state.cells (gqrName index) = gqr) :=
  constants_sound ⟨by decide +kernel, by decide +kernel, by decide, by decide⟩
    wordEnv_words (wordEnv_calleesPreserve _) rfl (fun k v h => by simp at h)
    (show knownLoop.labelIndex "entry" = some 0 by decide +kernel) knownLoop_reaches

end DolTranslator.Gqr
