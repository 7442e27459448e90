import DolTranslator.Gqr.ConstantPropagation

/-!
# One step keeps the known constants true

* `Value`   what a binding says: about the cell of a GQR, or about the last definition of
  another name;
* `phiConstant_sound`  a phi that is folded has the constant;
* `transfer_sound`   one accounted step keeps every binding true.
-/

set_option linter.unusedSectionVars false

namespace DolTranslator.Gqr
open Dataflow

section
variable {V W : Type} {env : Env V W} {word : Word → V} {f : IrFunction}
  {masks : Nat → Option Nat}

/-! ## what a binding says -/

/-- a GQR key is about the cell, any other key about the last definition of the name -/
def Value (f : IrFunction) (word : Word → V) (t : TracedState V W) (k : String) (v : Word) : Prop :=
  (∃ i < 8, k = gqrName i ∧ t.cells k = word v) ∨
    (gqrKey k = none ∧ BindsConstant f k ∧ t.named k = word v)

theorem gqrKey_foldCase (name : String) : gqrKey (foldCase name) = gqrKey name := by
  cases h : gqrKey name with
  | some key =>
    obtain ⟨hk, hi⟩ := gqrKey_eq_some.mp h
    rw [gqrKey_eq_some, strip_foldCase, foldCase_foldCase]
    exact ⟨hk, hi⟩
  | none =>
    cases h' : gqrKey (foldCase name) with
    | none => rfl
    | some key =>
      obtain ⟨hk, hi⟩ := gqrKey_eq_some.mp h'
      rw [strip_foldCase, foldCase_foldCase] at hk
      rw [gqrKey_eq_some.mpr ⟨hk, hi⟩] at h
      cases h

theorem cellOf_of_foldCase {name : String} {i : Nat} (hi : i < 8) (h : foldCase name = gqrName i) :
    cellOf name = gqrName i := by
  have hu : '_' ∉ name.toList := by
    intro hm
    have : '_' ∈ (gqrName i).toList := by
      rw [← h, toList_foldCase]
      exact List.mem_map.mpr ⟨'_', hm, by decide⟩
    interval_cases i <;> exact absurd this (by decide +kernel)
  have hb : registerBase name = name := by
    unfold registerBase
    rcases registerBaseChars_cases name.toList with e | ⟨front, digits, hname, -, -⟩
    · rw [e, String.ofList_toList]
    · rw [hname] at hu
      exact absurd (List.mem_append_right _ List.mem_cons_self) hu
  have hcpu : isCpuRegister name = true := by
    have hn : isNumberedRegister "gqr" 4 4 8 (gqrName i) = true := by
      interval_cases i <;> decide +kernel
    simp [isCpuRegister, hb, h, hn]
  rw [cellOf, if_pos hcpu, hb, h]

variable {v : Word}

theorem tryValue_sound (hw : Words env word) {t : TracedState V W} {m : Constants}
    (hm : m.Holds (Value f word t)) {value : IrValue} (hcur : Current f t value)
    (h : tryValue m value = some v) : IsWord word env t value v := by
  cases value with
  | imm c =>
    cases h
    exact hw.imm c
  | register name =>
    show t.cells (cellOf name) = word v
    rcases hm _ _ h with ⟨i, hi, hk, hc⟩ | ⟨-, hb, hn⟩
    · rw [cellOf_of_foldCase hi hk, ← hk, hc]
    · rw [← hcur name List.mem_cons_self hb, hn]

/-! ## one step -/

variable {k : String}

theorem Value.define {t t' : TracedState V W} {regs : String → V} {names : List String}
    {results : List V} (h : Value f word t k v)
    (hcells : t'.cells = assignAll regs (names.map cellOf) results)
    (hregs : ∀ i < 8, k = gqrName i → regs k = t.cells k)
    (hnamed : t'.named = assignAll t.named (names.map foldCase) results)
    (hg : ∀ d ∈ names, gqrKey d ≠ some k) (hk : gqrKey k = none → ∀ d ∈ names, foldCase d ≠ k) :
    Value f word t' k v := by
  rcases h with ⟨i, hi, rfl, hc⟩ | ⟨hn, hb, hv⟩
  · refine Or.inl ⟨i, hi, rfl, ?_⟩
    rw [hcells, assignAll_of_notMem, hregs i hi rfl, hc]
    intro hmem
    obtain ⟨d, hd, hcell⟩ := List.mem_map.mp hmem
    exact hg d hd (cellOf_eq_gqrName hi hcell)
  · refine Or.inr ⟨hn, hb, ?_⟩
    rw [hnamed, assignAll_of_notMem, hv]
    intro hmem
    obtain ⟨d, hd, hfold⟩ := List.mem_map.mp hmem
    exact hk hn d hd hfold

variable {d : String}

theorem Value.defined {t' : TracedState V W}
    (hb : BindsConstant f (foldCase d)) (hp : PlainKey d) (hcells : t'.cells (cellOf d) = word v)
    (hnamed : t'.named (foldCase d) = word v) : Value f word t' (foldCase d) v := by
  cases hk : gqrKey d with
  | none => exact Or.inr ⟨by rw [gqrKey_foldCase, hk], hb, hnamed⟩
  | some key =>
    obtain ⟨-, i, hi, rfl⟩ := gqrKey_eq_some.mp hk
    have hfold := hp _ hk
    refine Or.inl ⟨i, hi, hfold, ?_⟩
    rw [hfold, ← cellOf_of_foldCase hi hfold, hcells]

/-- what a step needs to know about the outputs of the predecessors -/
structure PhiFacts (f : IrFunction) (word : Word → V) (out : String → Option Constants)
    (t : TracedState V W) : Prop where
  labels : ∀ a b, sameLabel a b = true → out a = out b
  keys : ∀ label m, out label = some m → ∀ k v, m.lookup k = some v →
    (∃ i < 8, k = gqrName i) ∨ BindsConstant f k
  arrival : ∀ label old, t.arrival = some (label, old) → ∀ m, out label = some m →
    ∀ k v, m.lookup k = some v → (∃ i < 8, k = gqrName i) ∨ (gqrKey k = none ∧ old k = word v)

theorem phiConstant_eq_some {out : String → Option Constants} {sources : List (String × String)}
    (h : phiConstant out sources = some v) :
    ∀ s ∈ sources, ∃ m, out s.1 = some m ∧ m.lookup (foldCase s.2) = some v := by
  have hall : ∀ s ∈ sources, ((out s.1).bind fun m => m.lookup (foldCase s.2)) = some v := by
    unfold phiConstant at h
    split at h
    · cases h
    · rename_i first rest hl
      split at h
      · rename_i hrest
        intro s hs
        have hmem : ((out s.1).bind fun m => m.lookup (foldCase s.2)) ∈ first :: rest := by
          rw [← hl]
          exact List.mem_map_of_mem hs
        rcases List.mem_cons.mp hmem with e | hmem
        · rw [e, h]
        · rw [of_decide_eq_true (List.all_eq_true.mp hrest _ hmem), h]
      · cases h
  exact fun s hs => Option.bind_eq_some_iff.mp (hall s hs)

theorem phiConstant_sound {out : String → Option Constants} {t : TracedState V W}
    {sources : List (String × String)} (hp : PhiFacts f word out t)
    (ha : Accounted f env word (.phi d sources) t) (h : phiConstant out sources = some v) :
    gqrKey d = none ∧ phiNamed t d sources = word v := by
  obtain ⟨hversion, hgqr, hsource⟩ := ha
  have hall := phiConstant_eq_some h
  have hno : ∀ s ∈ sources, ¬∃ i < 8, foldCase s.2 = gqrName i := by
    rintro s hs ⟨i, hi, hk⟩
    have hkey : gqrKey s.2 = some (gqrName i) := by
      rw [← gqrKey_foldCase, hk, gqrKey_gqrName hi]
    exact hversion s hs _ hkey hk
  obtain ⟨label, old, harr, s, hs, hlabel⟩ | ⟨s, hs, hnever⟩ := hsource
  · -- the source of the predecessor just left
    have htaken : ∀ s ∈ sources, sameLabel s.1 label = true →
        gqrKey s.2 = none ∧ old (foldCase s.2) = word v := by
      intro s hs hlabel
      obtain ⟨m, hm, hlook⟩ := hall s hs
      rw [hp.labels _ _ hlabel] at hm
      rcases hp.arrival _ _ harr _ hm _ _ hlook with hi | ⟨hk, hold⟩
      · exact absurd hi (hno s hs)
      · exact ⟨by rw [← gqrKey_foldCase, hk], hold⟩
    refine ⟨?_, ?_⟩
    · cases hd : gqrKey d with
      | none => rfl
      | some key =>
        have := hgqr (by rw [hd]; rfl) s hs
        rw [(htaken s hs hlabel).1] at this
        cases this
    · cases hfind : sources.find? fun s => sameLabel s.1 label with
      | none => exact absurd hlabel (List.find?_eq_none.mp hfind s hs)
      | some s' =>
        have hpred := List.find?_some hfind
        simp only [phiNamed, harr, hfind]
        exact (htaken s' (List.mem_of_find?_eq_some hfind) hpred).2
  · -- a source that is never constant: the pass does not fold the phi
    obtain ⟨m, hm, hlook⟩ := hall s hs
    rcases hp.keys _ _ hm _ _ hlook with hi | hb
    · exact absurd hi (hno s hs)
    · exact absurd hb hnever

variable {ins : IrInstruction}

theorem mem_binds (hins : ∃ b ∈ f.blocks, ins ∈ b.instructions)
    (h : constantKey ins = some k) : BindsConstant f k := by
  obtain ⟨b, hb, hi⟩ := hins
  exact ⟨b, hb, ins, hi, h⟩

theorem Value.step {t : TracedState V W}
    (h : Value f word t k v) (hphi : ins.isPhi = false)
    (hregs : ∀ i < 8, k = gqrName i → (execute env (fun x => t.cells (cellOf x)) t.cells t.world
      ins).regs k = t.cells k)
    (hg : ∀ d ∈ ins.definitions, gqrKey d ≠ some k)
    (hk : gqrKey k = none → ∀ d ∈ ins.definitions, foldCase d ≠ k) :
    Value f word (t.step env ins).1 k v := by
  exact h.define (t.step_cells env ins) hregs (t.step_named env hphi) hg hk

theorem gqrKey_ne_of_plain (hp : PlainKey d) (h : k ≠ foldCase d) :
    gqrKey d ≠ some k := by
  intro e
  exact h (hp k e).symm

variable (env) in
theorem step_defined (t : TracedState V W) {r : V}
    (hphi : ins.isPhi = false) (hd : ins.definitions = [d])
    (hr : (execute env (fun x => t.cells (cellOf x)) t.cells t.world ins).results = [r]) :
    (t.step env ins).1.cells (cellOf d) = r ∧ (t.step env ins).1.named (foldCase d) = r := by
  rw [t.step_cells, t.step_named env hphi, hd, hr, List.map_singleton, List.map_singleton,
    assignAll_cons, assignAll_cons, assignAll_nil, assignAll_nil]
  exact ⟨Function.update_self .., Function.update_self ..⟩

section
variable {t : TracedState V W} {m : Constants} (hm : m.Holds (Value f word t))
include hm

theorem assign_sound (hw : Words env word) {value : IrValue}
    (hb : BindsConstant f ((gqrKey d).getD (foldCase d)))
    (ha : Accounted f env word (.assign d value) t) :
    (m.assign ((gqrKey d).getD (foldCase d)) (tryValue m value)).Holds
      (Value f word (t.step env (.assign d value)).1) := by
  obtain ⟨hcell, hcur⟩ := ha
  obtain ⟨hcells, hnamed⟩ := step_defined env t
    (show (IrInstruction.assign d value).isPhi = false from rfl) rfl rfl
  refine hm.assign (fun c hc => ?_) fun k c hk hl hv => ?_
  · have hval := tryValue_sound hw hm hcur hc
    cases hkey : gqrKey d with
    | none =>
      rw [hkey] at hb
      exact Or.inr ⟨by rw [Option.getD_none, gqrKey_foldCase, hkey], hb, hnamed.trans hval⟩
    | some key =>
      obtain ⟨-, i, hi, rfl⟩ := gqrKey_eq_some.mp hkey
      rw [hcell _ hkey] at hcells
      exact Or.inl ⟨i, hi, rfl, hcells.trans hval⟩
  · refine hv.step rfl (fun _ _ _ => rfl) (fun x hx => ?_) fun hn x hx => ?_
    · rw [List.mem_singleton.mp hx]
      intro e
      rw [e] at hk
      exact hk rfl
    · rw [List.mem_singleton.mp hx]
      rintro rfl
      rw [gqrKey_foldCase] at hn
      rw [hn] at hk
      exact hk rfl

theorem define_sound {c? : Option Word}
    (hphi : ins.isPhi = false) (hd : ins.definitions = [d]) (hplain : PlainKey d)
    (hregs : ∀ i < 8, (execute env (fun x => t.cells (cellOf x)) t.cells t.world ins).regs
      (gqrName i) = t.cells (gqrName i))
    (hc : ∀ c, c? = some c → BindsConstant f (foldCase d) ∧
      (execute env (fun x => t.cells (cellOf x)) t.cells t.world ins).results = [word c]) :
    (m.assign (foldCase d) c?).Holds (Value f word (t.step env ins).1) := by
  refine hm.assign (fun c hcc => ?_) fun k c hk _ hv => ?_
  · obtain ⟨hb, hr⟩ := hc c hcc
    obtain ⟨hcells, hnamed⟩ := step_defined env t hphi hd hr
    exact Value.defined hb hplain hcells hnamed
  · refine hv.step hphi (fun i hi e => ?_) (fun x hx => ?_) fun _ x hx => ?_
    · rw [e, hregs i hi]
    · rw [hd] at hx
      rw [List.mem_singleton.mp hx]
      exact gqrKey_ne_of_plain hplain hk
    · rw [hd] at hx
      rw [List.mem_singleton.mp hx]
      exact hk.symm

theorem binary_sound (hw : Words env word) {op : String} {l r : IrValue}
    (hb : BindsConstant f (foldCase d)) (ha : Accounted f env word (.binary d l r op) t) :
    (m.assign (foldCase d)
      ((tryValue m l).bind fun a => (tryValue m r).bind fun b => tryBinary op a b)).Holds
      (Value f word (t.step env (.binary d l r op)).1) := by
  obtain ⟨hplain, hl, hr, hop⟩ := ha
  refine define_sound hm rfl rfl hplain (fun _ _ => rfl) fun c hc => ⟨hb, ?_⟩
  obtain ⟨a, ha, hc⟩ := Option.bind_eq_some_iff.mp hc
  obtain ⟨b, hb, hc⟩ := Option.bind_eq_some_iff.mp hc
  have hla := tryValue_sound hw hm hl ha
  have hrb := tryValue_sound hw hm hr hb
  have hval := hw.binary _ _ _ _ (hop _ _ _ hla hrb hc)
  rw [IsWord] at hla hrb
  simp only [execute]
  rw [hla, hrb, hval]

theorem phi_sound {predecessorOut : Option (String → Option Constants)}
    {sources : List (String × String)} (hb : BindsConstant f (foldCase d))
    (hp : ∀ out ∈ predecessorOut, PhiFacts f word out t)
    (ha : Accounted f env word (.phi d sources) t) :
    (m.assign (foldCase d) (predecessorOut.bind fun out => phiConstant out sources)).Holds
      (Value f word (t.step env (.phi d sources)).1) := by
  have hnamed : (t.step env (.phi d sources)).1.named =
      Function.update t.named (foldCase d) (phiNamed t d sources) := rfl
  refine hm.assign (fun c hc => ?_) fun k c hk _ hv => ?_
  · obtain ⟨out, hout, hc⟩ := Option.bind_eq_some_iff.mp hc
    obtain ⟨hd, hval⟩ := phiConstant_sound (hp out hout) ha hc
    refine Or.inr ⟨by rw [gqrKey_foldCase, hd], hb, ?_⟩
    rw [hnamed, Function.update_self, hval]
  · rcases hv with ⟨i, hi, rfl, hc⟩ | ⟨hn, hb, hc⟩
    · exact Or.inl ⟨i, hi, rfl, hc⟩
    · exact Or.inr ⟨hn, hb, by rw [hnamed, Function.update_of_ne hk, hc]⟩

theorem call_sound (hcal : CalleesPreserve env masks) {target : String} {args : List IrValue}
    {tail : Bool} (ha : Accounted f env word (.call d target args tail) t) :
    (transfer masks none (.call d target args tail) m).Holds
      (Value f word (t.step env (.call d target args tail)).1) := by
  have hdefs : (IrInstruction.call d target args tail).definitions =
      if isNullOrWhiteSpace d then [] else [d] := rfl
  obtain ⟨-, ha⟩ := ha
  simp only [transfer]
  split at ha
  · -- a guest call keeps the GQRs outside the mask of the callee
    rename_i hguest
    rw [if_pos hguest]
    intro k c hk
    obtain ⟨k', hkey, hlook⟩ := ConstantMap.lookup_rekey _ _ hk
    obtain ⟨hkey, hbit⟩ := Option.filter_eq_some_iff.mp hkey
    rcases hm _ _ hlook with ⟨i, hi, rfl, hc⟩ | ⟨hn, -, -⟩
    · rw [gqrKey_gqrName hi] at hkey
      obtain rfl := Option.some.inj hkey
      have hv : Value f word t (gqrName i) c := Or.inl ⟨i, hi, rfl, hc⟩
      have hbit' : (writeMask masks target).testBit i = false := by
        rw [gqrIndex_gqrName hi] at hbit
        simpa using hbit
      refine hv.step rfl (fun j hj e => ?_) (fun x hx => ?_) fun hn => ?_
      · obtain ⟨a, ha, hmask⟩ : ∃ a, parseAddressOrDecimal target = some a ∧
            masks a = some (writeMask masks target) := by
          unfold writeMask at hbit' ⊢
          cases hb : (parseAddressOrDecimal target).bind masks with
          | none =>
            rw [hb] at hbit'
            exact absurd hbit' (by interval_cases i <;> decide)
          | some mask => exact Option.bind_eq_some_iff.mp hb
        exact hcal target a _ hguest ha hmask i hi hbit' _ _ _
      · rw [hdefs] at hx
        rcases ha with hb | hnone
        · rw [if_pos hb] at hx
          cases hx
        · split at hx
          · cases hx
          · rw [List.mem_singleton.mp hx, hnone]
            exact fun e => by cases e
      · rw [gqrKey_gqrName hi] at hn
        cases hn
    · rw [hn] at hkey
      cases hkey
  · rename_i hguest
    rw [if_neg hguest]
    obtain ⟨hd, hregs⟩ := ha
    split
    · rename_i hblank
      rw [if_pos hblank] at hdefs
      refine hm.mono fun k c _ hv => hv.step rfl (fun i hi e => ?_) (fun x hx => ?_) fun _ x hx => ?_
      · rw [e]
        exact hregs i hi
      · rw [hdefs] at hx
        cases hx
      · rw [hdefs] at hx
        cases hx
    · rename_i hblank
      rw [if_neg hblank] at hdefs
      exact define_sound hm rfl hdefs (hd.resolve_left hblank) hregs fun c hc => by cases hc

theorem skip_sound (hphi : ins.isPhi = false)
    (hregs : (execute env (fun x => t.cells (cellOf x)) t.cells t.world ins).regs = t.cells)
    (ha : ∀ x ∈ ins.definitions, gqrKey x = none ∧ ¬MayBeConstant f x) :
    m.Holds (Value f word (t.step env ins).1) := by
  refine hm.mono fun k c _ hv => ?_
  rcases hv with ⟨i, hi, rfl, hc⟩ | ⟨hn, hb, hc⟩
  · have hv : Value f word t (gqrName i) c := Or.inl ⟨i, hi, rfl, hc⟩
    refine hv.step hphi (fun _ _ _ => by rw [hregs]) (fun x hx e => ?_) fun hn => ?_
    · rw [(ha x hx).1] at e
      cases e
    · rw [gqrKey_gqrName hi] at hn
      cases hn
  · have hv : Value f word t k c := Or.inr ⟨hn, hb, hc⟩
    refine hv.step hphi (fun _ _ _ => by rw [hregs]) (fun x hx e => ?_) fun _ x hx e => ?_
    · rw [(ha x hx).1] at e
      cases e
    · refine (ha x hx).2 ?_
      rwa [MayBeConstant, e]

/-- **One accounted step keeps what is known true.** -/
theorem transfer_sound (hw : Words env word) (hcal : CalleesPreserve env masks)
    {predecessorOut : Option (String → Option Constants)}
    (hins : ∃ b ∈ f.blocks, ins ∈ b.instructions)
    (hp : ∀ out ∈ predecessorOut, PhiFacts f word out t) (ha : Accounted f env word ins t) :
    (transfer masks predecessorOut ins m).Holds (Value f word (t.step env ins).1) := by
  cases ins with
  | assign d value => exact assign_sound hm hw (mem_binds hins rfl) ha
  | binary d l r op => exact binary_sound hm hw (mem_binds hins rfl) ha
  | phi d sources => exact phi_sound hm (mem_binds hins rfl) hp ha
  | load d a n =>
    exact define_sound hm rfl rfl ha (fun _ _ => rfl) fun c hc => by cases hc
  | call d target args tail => exact call_sound hm hcal ha
  | indirectCall d target args => exact ConstantMap.Holds.empty
  | _ => exact skip_sound hm rfl rfl ha

end

end

end DolTranslator.Gqr
