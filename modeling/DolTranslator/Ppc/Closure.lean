import DolTranslator.Ppc.Disassembler

/-!
# What the disassembler returns

* `nextAddresses`, `Reachable`   the closure: where control goes from an address, and what it
  reaches inside the window;
* `Inv`   what the loops keep: everything decoded is reachable, and what
  follows it is decoded or waits;
* `walk_spec`, `drain_spec`   one line, and the whole work-list in any order;
* `disassembly_closure`   the answers of the disassembler.
-/

namespace DolTranslator.Ppc

/-! ## the closure -/

section
variable (q : DisassemblyRequest)

/-- the jump tables that are found, by the address of the `bctr` -/
abbrev Tables := Word → Option (List Word)

def instructionAt (tables : Tables) (a : Word) : Option PpcInstruction :=
  (q.image.readWord a).map fun word => (decodeWord a word).withTable (tables a)

def nextOf (ins : PpcInstruction) (table : Option (List Word)) : List Word :=
  followed q ins table ++ if ins.fallsThrough then [ins.address + 4] else []

def nextAddresses (tables : Tables) (a : Word) : List Word :=
  match instructionAt q tables a with
  | some ins => nextOf q ins (tables a)
  | none => []

/-- an address at which the disassembler may decode -/
def Inside (a : Word) : Prop := q.inWindow a = true ∧ q.image.contains a 4 = true

/-- what control reaches inside the window -/
inductive Reachable (tables : Tables) : Word → Prop where
  | entry (h : Inside q q.entryPoint) : Reachable tables q.entryPoint
  | step {a b : Word} (h : Reachable tables a) (hnext : b ∈ nextAddresses q tables a)
      (hin : Inside q b) : Reachable tables b

/-- the tables are answers of the detector on instructions of the result -/
def Detected (tables : Tables) (instructions : List PpcInstruction) : Prop :=
  ∀ ins ∈ instructions, ∃ word seen, q.image.readWord ins.address = some word ∧
    seen ⊆ instructions ∧ tables ins.address = detect q seen (decodeWord ins.address word) ∧
    ins = (decodeWord ins.address word).withTable (tables ins.address)

end

/-! ## what an instruction adds to the state -/

section
variable {q : DisassemblyRequest} {st : DisassemblyState} {ins : PpcInstruction}
variable {table : Option (List Word)} {a : Word}

theorem enqueue_decoded : (enqueue q st ins table).decoded = st.decoded := by
  unfold enqueue
  split
  · rfl
  · split <;> rfl

theorem mem_worklist_enqueue (h : a ∈ st.worklist) : a ∈ (enqueue q st ins table).worklist := by
  unfold enqueue
  split
  · exact List.mem_append_left _ h
  · split
    · exact List.mem_append_left _ h
    · exact h

theorem followed_enqueued (st : DisassemblyState) (h : a ∈ followed q ins table) :
    st.visited a = true ∨ a ∈ (enqueue q st ins table).worklist := by
  unfold followed at h
  unfold enqueue
  by_cases hv : st.visited a = true
  · exact Or.inl hv
  refine Or.inr ?_
  split at h
  · rename_i hc
    rw [if_pos hc]
    exact List.mem_append_right _ (List.mem_filter.mpr ⟨h, by simpa using hv⟩)
  · rename_i hc
    rw [if_neg hc]
    split at h
    · rename_i hu
      rw [if_pos hu]
      obtain ⟨ht, hkeep⟩ := List.mem_filter.mp h
      refine List.mem_append_right _ (List.mem_filter.mpr ⟨ht, ?_⟩)
      rw [Bool.and_eq_true]
      refine ⟨?_, by simpa using hv⟩
      simp only [isKnownExternalFunctionEntry]
      simp only [Bool.or_eq_true, decide_eq_true_eq] at hkeep
      rcases hkeep with (hs | he) | hn
      · simp [hs]
      · simp [he]
      · simp [hn]
    · cases h

theorem of_mem_enqueue (h : a ∈ (enqueue q st ins table).worklist) :
    a ∈ st.worklist ∨ a ∈ followed q ins table ∨ a ∈ st.localControlFlowTargets := by
  unfold enqueue at h
  unfold followed
  split at h
  · rename_i hc
    rw [if_pos hc]
    rcases List.mem_append.mp h with h | h
    · exact Or.inl h
    · exact Or.inr (Or.inl (List.mem_filter.mp h).1)
  · rename_i hc
    rw [if_neg hc]
    split at h
    · rename_i hu
      rw [if_pos hu]
      rcases List.mem_append.mp h with h | h
      · exact Or.inl h
      obtain ⟨ht, hkeep⟩ := List.mem_filter.mp h
      refine Or.inr ?_
      by_cases hl : a ∈ st.localControlFlowTargets
      · exact Or.inr hl
      refine Or.inl (List.mem_filter.mpr ⟨ht, ?_⟩)
      rw [Bool.and_eq_true] at hkeep
      have hkeep := hkeep.1
      simp only [isKnownExternalFunctionEntry, hl, not_false_eq_true, true_and] at hkeep
      by_cases he : a = q.entryPoint
      · simp [he]
      · by_cases hk : a ∈ q.knownFunctionEntryPoints
        · simpa [he, hk] using hkeep
        · simp [hk]
    · exact Or.inl h

theorem of_mem_enqueue_targets (h : a ∈ (enqueue q st ins table).localControlFlowTargets) :
    a ∈ st.localControlFlowTargets ∨ a ∈ followed q ins table := by
  unfold enqueue at h
  unfold followed
  split at h
  · rename_i hc
    rw [if_pos hc]
    exact List.mem_append.mp h
  · split at h <;> exact Or.inl h

end

variable {word : Word}

theorem call_not_bctr {address : Word} (hcall : (decodeWord address word).isCall = true)
    (ht : (decodeWord address word).branchTargets = []) :
    mnemonicIs (decodeWord address word) "bctr" = false := by
  have hnot : ∀ m ∈ linkMnemonics, decide (foldCase m = foldCase "bctr") = false := by
    decide +kernel
  exact hnot _ (decodeWord_isCall hcall ht)

variable {q : DisassemblyRequest} {seen : List PpcInstruction}

theorem detect_eq_some {address : Word}
    {targets : List Word} (h : detect q seen (decodeWord address word) = some targets) :
    (decodeWord address word).isCall = false := by
  unfold detect at h
  split at h
  · rename_i hbctr
    by_contra hcall
    rw [call_not_bctr (Bool.eq_true_of_not_eq_false hcall) hbctr.1] at hbctr
    cases hbctr.2
  · cases h

theorem followed_of_detect {address t : Word}
    (h : t ∈ (detect q seen (decodeWord address word)).getD []) :
    t ∈ followed q ((decodeWord address word).withTable (detect q seen (decodeWord address word)))
      (detect q seen (decodeWord address word)) := by
  cases hd : detect q seen (decodeWord address word) with
  | none =>
    rw [hd] at h
    cases h
  | some targets =>
    rw [hd, Option.getD_some] at h
    have hne : targets ≠ [] := List.ne_nil_of_mem h
    simp only [followed, PpcInstruction.withTable, PpcInstruction.isUnconditionalBranch,
      detect_eq_some hd]
    split
    · exact h
    · rename_i hc
      simp [h, hne, Bool.eq_false_iff.mpr hc]

/-! ## what the loops keep -/

variable {a : Word}

theorem visited_iff {st : DisassemblyState} :
    st.visited a = true ↔ ∃ ins ∈ st.decoded, ins.address = a := by
  simp [DisassemblyState.visited]

theorem instructionAt_eq {tables : Tables}
    (h : q.image.readWord a = some word) :
    instructionAt q tables a = some ((decodeWord a word).withTable (tables a)) := by
  rw [instructionAt, h]
  rfl

@[simp]
theorem withTable_address (ins : PpcInstruction) (table : Option (List Word)) :
    (ins.withTable table).address = ins.address := by
  cases table <;> rfl

/-- the loops at work: `pending` are the addresses that control goes to next, before the
work-list -/
structure Inv (q : DisassemblyRequest) (tables : Tables) (st : DisassemblyState)
    (pending : List Word) : Prop where
  nodup : (st.decoded.map PpcInstruction.address).Nodup
  inside : ∀ ins ∈ st.decoded, Inside q ins.address
  falls : ∀ ins ∈ st.decoded, ins.fallsThrough = true → ins.address.toNat + 4 < 2 ^ 32
  detected : Detected q tables st.decoded
  -- tables that are found later do not matter
  reached : ∀ later : Tables, (∀ ins ∈ st.decoded, later ins.address = tables ins.address) →
    ∀ ins ∈ st.decoded, Reachable q later ins.address
  waiting : ∀ a ∈ pending ++ st.worklist, a = q.entryPoint ∨
    ∃ ins ∈ st.decoded, a ∈ nextOf q ins (tables ins.address)
  targets : ∀ a ∈ st.localControlFlowTargets,
    ∃ ins ∈ st.decoded, a ∈ nextOf q ins (tables ins.address)
  entry : Inside q q.entryPoint → st.visited q.entryPoint = true ∨
    q.entryPoint ∈ pending ++ st.worklist
  closed : ∀ ins ∈ st.decoded, ∀ b ∈ nextOf q ins (tables ins.address), Inside q b →
    st.visited b = true ∨ b ∈ pending ++ st.worklist

variable {ins : PpcInstruction}

section
variable {q : DisassemblyRequest} {tables : Tables} {st : DisassemblyState}
variable {pending : List Word} {c word : Word}

theorem Inv.start (tables : Tables) : Inv q tables (startState q) [] where
  nodup := List.nodup_nil
  inside _ h := by cases h
  falls _ h := by cases h
  detected _ h := by cases h
  reached _ _ _ h := by cases h
  waiting a h := Or.inl (List.mem_singleton.mp h)
  targets _ h := by cases h
  entry _ := Or.inr List.mem_cons_self
  closed _ h := by cases h

theorem Inv.drop (h : Inv q tables st (c :: pending))
    (hc : st.visited c = true ∨ ¬ Inside q c) : Inv q tables st pending where
  nodup := h.nodup
  inside := h.inside
  falls := h.falls
  detected := h.detected
  reached := h.reached
  waiting a ha := h.waiting a (List.mem_cons_of_mem _ ha)
  targets := h.targets
  entry hin := by
    rcases h.entry hin with he | he
    · exact Or.inl he
    · rcases List.mem_cons.mp he with rfl | he
      · exact Or.inl (hc.resolve_right fun h => h hin)
      · exact Or.inr he
  closed ins hins b hb hin := by
    rcases h.closed ins hins b hb hin with hv | hw
    · exact Or.inl hv
    · rcases List.mem_cons.mp hw with rfl | hw
      · exact Or.inl (hc.resolve_right fun h => h hin)
      · exact Or.inr hw

theorem Inv.reach (h : Inv q tables st (c :: pending)) (hin : Inside q c) {later : Tables}
    (hlater : ∀ ins ∈ st.decoded, later ins.address = tables ins.address) :
    Reachable q later c := by
  rcases h.waiting c List.mem_cons_self with rfl | ⟨ins, hins, hc⟩
  · exact .entry hin
  obtain ⟨word, seen, hword, -, -, he⟩ := h.detected ins hins
  refine .step (h.reached later hlater ins hins) ?_ hin
  rw [nextAddresses, instructionAt_eq hword, hlater ins hins, ← he]
  exact hc

/-- **An instruction is decoded.** -/
theorem Inv.visit (h : Inv q tables st (c :: pending)) (hin : Inside q c)
    (hnew : st.visited c = false) (hword : q.image.readWord c = some word)
    {table : Option (List Word)}
    (htable : table = detect q st.decoded (decodeWord c word))
    (hins : ins = (decodeWord c word).withTable table)
    (hfall : ins.fallsThrough = true → c.toNat + 4 < 2 ^ 32) :
    Inv q (Function.update tables c table) (enqueue q (record st ins table) ins table)
      ((if ins.fallsThrough then [c + 4] else []) ++ pending) := by
  have haddress : ins.address = c := by rw [hins, withTable_address, decodeWord_address]
  have hne : ∀ old ∈ st.decoded, old.address ≠ c := fun old hold he => by
    rw [visited_iff.mpr ⟨old, hold, he⟩] at hnew
    cases hnew
  have hold : ∀ old ∈ st.decoded, Function.update tables c table old.address = tables old.address :=
    fun old ho => Function.update_of_ne (hne old ho) _ _
  have hhere : Function.update tables c table c = table := Function.update_self _ _ _
  have hdecoded : (enqueue q (record st ins table) ins table).decoded = ins :: st.decoded :=
    enqueue_decoded
  have hvisited : ∀ a, st.visited a = true →
      (enqueue q (record st ins table) ins table).visited a = true := fun a ha => by
    obtain ⟨old, ho, he⟩ := visited_iff.mp ha
    exact visited_iff.mpr ⟨old, hdecoded ▸ List.mem_cons_of_mem _ ho, he⟩
  have hwaits : ∀ a ∈ (c :: pending) ++ st.worklist,
      (enqueue q (record st ins table) ins table).visited a = true ∨
        a ∈ ((if ins.fallsThrough then [c + 4] else []) ++ pending) ++
          (enqueue q (record st ins table) ins table).worklist := fun a ha => by
    rcases List.mem_append.mp ha with ha | ha
    · rcases List.mem_cons.mp ha with rfl | ha
      · exact Or.inl (visited_iff.mpr ⟨ins, hdecoded ▸ List.mem_cons_self, haddress⟩)
      · exact Or.inr (List.mem_append_left _ (List.mem_append_right _ ha))
    · exact Or.inr (List.mem_append_right _ (mem_worklist_enqueue ha))
  -- what was local, or goes to the work-list now, is followed from a decoded instruction
  have hfollowed : ∀ a ∈ followed q ins table, ∃ i ∈ ins :: st.decoded,
      a ∈ nextOf q i (Function.update tables c table i.address) := fun a ha =>
    ⟨ins, List.mem_cons_self, by rw [haddress, hhere]; exact List.mem_append_left _ ha⟩
  have hfrom : ∀ a, (∃ i ∈ st.decoded, a ∈ nextOf q i (tables i.address)) → ∃ i ∈ ins :: st.decoded,
      a ∈ nextOf q i (Function.update tables c table i.address) := fun a ⟨i, hi, ha⟩ =>
    ⟨i, List.mem_cons_of_mem _ hi, by rw [hold i hi]; exact ha⟩
  have hlocal : ∀ a ∈ (record st ins table).localControlFlowTargets, ∃ i ∈ ins :: st.decoded,
      a ∈ nextOf q i (Function.update tables c table i.address) := fun a ha => by
    rcases List.mem_append.mp ha with ha | ha
    · exact hfrom a (h.targets a ha)
    · refine hfollowed a ?_
      rw [hins, htable]
      exact followed_of_detect (htable ▸ ha)
  refine ⟨?_, ?_, ?_, ?_, ?_, ?_, ?_, ?_, ?_⟩
  · rw [hdecoded, List.map_cons, List.nodup_cons]
    refine ⟨fun hm => ?_, h.nodup⟩
    obtain ⟨old, ho, he⟩ := List.mem_map.mp hm
    exact hne old ho (he.trans haddress)
  · rw [hdecoded]
    exact List.forall_mem_cons.mpr ⟨haddress ▸ hin, h.inside⟩
  · rw [hdecoded]
    exact List.forall_mem_cons.mpr ⟨haddress ▸ hfall, h.falls⟩
  · rw [hdecoded]
    refine List.forall_mem_cons.mpr ⟨⟨word, st.decoded, haddress ▸ hword,
      List.subset_cons_of_subset _ (List.Subset.refl _), ?_, ?_⟩, fun old ho => ?_⟩
    · rw [haddress, hhere, htable]
    · rw [haddress, hhere, ← hins]
    · obtain ⟨w, seen, hw, hseen, ht, he⟩ := h.detected old ho
      exact ⟨w, seen, hw, List.subset_cons_of_subset _ hseen, (hold old ho).trans ht,
        (hold old ho).symm ▸ he⟩
  · rw [hdecoded]
    intro later hlater
    have hagree : ∀ old ∈ st.decoded, later old.address = tables old.address := fun old ho =>
      (hlater old (List.mem_cons_of_mem _ ho)).trans (hold old ho)
    exact List.forall_mem_cons.mpr ⟨haddress ▸ h.reach hin hagree, h.reached later hagree⟩
  · rw [hdecoded]
    intro a ha
    rcases List.mem_append.mp ha with ha | ha
    · rcases List.mem_append.mp ha with ha | ha
      · refine Or.inr ⟨ins, List.mem_cons_self, List.mem_append_right _ ?_⟩
        rw [haddress]
        exact ha
      · exact (h.waiting a (List.mem_append_left _ (List.mem_cons_of_mem _ ha))).imp_right (hfrom a)
    · rcases of_mem_enqueue ha with ha | ha | ha
      · exact (h.waiting a (List.mem_append_right _ ha)).imp_right (hfrom a)
      · exact Or.inr (hfollowed a ha)
      · exact Or.inr (hlocal a ha)
  · rw [hdecoded]
    intro a ha
    rcases of_mem_enqueue_targets ha with ha | ha
    · exact hlocal a ha
    · exact hfollowed a ha
  · intro hentry
    rcases h.entry hentry with he | he
    · exact Or.inl (hvisited _ he)
    · exact hwaits _ he
  · rw [hdecoded]
    refine List.forall_mem_cons.mpr ⟨fun b hb hbin => ?_, fun old ho b hb hbin => ?_⟩
    · rw [haddress, hhere] at hb
      rcases List.mem_append.mp hb with hb | hb
      · rcases followed_enqueued (record st ins table) hb with hv | hw
        · obtain ⟨i, hi, he⟩ := visited_iff.mp hv
          exact Or.inl (visited_iff.mpr ⟨i, hdecoded ▸ hi, he⟩)
        · exact Or.inr (List.mem_append_right _ hw)
      · rw [haddress] at hb
        exact Or.inr (List.mem_append_left _ (List.mem_append_left _ hb))
    · rw [hold old ho] at hb
      rcases h.closed old ho b hb hbin with hv | hw
      · exact Or.inl (hvisited b hv)
      · exact hwaits b hw

end

/-! ## one line -/

/-- what the answer of a loop says -/
def Answers (q : DisassemblyRequest) (limit : Nat) (pending : List Word) :
    Except DisassemblyError DisassemblyState → Prop
  | .ok st => ∃ tables, Inv q tables st pending ∧ st.decoded.length ≤ limit
  | .error (.limitExceeded n _) => ∃ tables st waiting, Inv q tables st waiting ∧
    st.decoded.length = n ∧ limit ≤ n
  | .error .overflow => ∃ tables a, Reachable q tables a ∧ 2 ^ 32 ≤ a.toNat + 4
  | .error .entryOutside => False

theorem endAddress_eq (ins : PpcInstruction) :
    (ins.endAddress = some (ins.address + 4) ∧ ins.address.toNat + 4 < 2 ^ 32) ∨
      (ins.endAddress = none ∧ 2 ^ 32 ≤ ins.address.toNat + 4) := by
  unfold PpcInstruction.endAddress
  split
  · exact Or.inl ⟨rfl, ‹_›⟩
  · exact Or.inr ⟨rfl, by omega⟩

theorem readWord_eq_some {image : ProgramImage} (h : image.readWord a = some word) :
    image.contains a 4 = true := by
  unfold ProgramImage.readWord at h
  split at h
  · assumption
  · cases h

theorem readWord_eq_none {image : ProgramImage} (h : image.readWord a = none) :
    ¬ image.contains a 4 = true := by
  unfold ProgramImage.readWord at h
  split at h
  · cases h
  · assumption

section
variable {q : DisassemblyRequest} {tables : Tables} {st : DisassemblyState}
variable {pending : List Word} {c : Word}

theorem walk_spec (remaining : Nat) (h : Inv q tables st (c :: pending)) :
    Answers q (st.decoded.length + remaining) pending (walk q remaining st c) := by
  induction remaining generalizing tables st c with
  | zero =>
    unfold walk
    split
    · rename_i hwin
      exact ⟨tables, h.drop (Or.inr fun hin => by simp [hin.1] at hwin), le_rfl⟩
    · exact ⟨tables, st, _, h, rfl, le_rfl⟩
  | succ remaining ih =>
    unfold walk
    split
    · rename_i hwin
      exact ⟨tables, h.drop (Or.inr fun hin => by simp [hin.1] at hwin), by omega⟩
    rename_i hwin
    have hwin : q.inWindow c = true := by simpa using hwin
    dsimp only
    split
    · rename_i hv
      exact ⟨tables, h.drop (Or.inl hv), by omega⟩
    rename_i hnew
    have hnew : st.visited c = false := by simpa using hnew
    split
    · rename_i hword
      exact ⟨tables, h.drop (Or.inr fun hin => readWord_eq_none hword hin.2), by omega⟩
    rename_i word hword
    have hin : Inside q c := ⟨hwin, readWord_eq_some hword⟩
    generalize htable : detect q st.decoded (decodeWord c word) = table
    generalize hins : (decodeWord c word).withTable table = ins
    have haddress : ins.address = c := by rw [← hins, withTable_address, decodeWord_address]
    have hlen : (enqueue q (record st ins table) ins table).decoded.length =
        st.decoded.length + 1 := by
      rw [enqueue_decoded]
      rfl
    split
    · rename_i hfall
      rcases endAddress_eq ins with ⟨he, hlt⟩ | ⟨he, hge⟩
      · rw [he, haddress]
        have hnext := h.visit hin hnew hword htable.symm hins.symm fun _ => haddress ▸ hlt
        rw [hfall] at hnext
        have hrest := ih hnext
        rwa [hlen, Nat.add_assoc, Nat.add_comm 1] at hrest
      · rw [he]
        exact ⟨tables, c, h.reach hin fun _ _ => rfl, haddress ▸ hge⟩
    · rename_i hfall
      have hnext := h.visit hin hnew hword htable.symm hins.symm fun hf => absurd hf hfall
      rw [Bool.eq_false_iff.mpr hfall] at hnext
      exact ⟨_, hnext, by rw [hlen]; omega⟩

theorem Inv.take (h : Inv q tables st []) {i : Nat} (hi : st.worklist[i]? = some c) :
    Inv q tables { st with worklist := st.worklist.eraseIdx i } [c] := by
  have hlt : i < st.worklist.length := (List.getElem?_eq_some_iff.mp hi).1
  have hperm : List.Perm ([c] ++ st.worklist.eraseIdx i) ([] ++ st.worklist) := by
    have hc : st.worklist[i] = c := (List.getElem?_eq_some_iff.mp hi).2
    exact hc ▸ List.getElem_cons_eraseIdx_perm hlt
  exact {
    nodup := h.nodup
    inside := h.inside
    falls := h.falls
    detected := h.detected
    reached := h.reached
    waiting := fun a ha => h.waiting a (hperm.mem_iff.mp ha)
    targets := h.targets
    entry := fun hin => (h.entry hin).imp_right hperm.mem_iff.mpr
    closed := fun ins hins b hb hin => (h.closed ins hins b hb hin).imp_right hperm.mem_iff.mpr }

theorem worklist_eq_nil {order : DisassemblyState → Nat}
    (h : st.worklist[nextItem order st]? = none) : st.worklist = [] := by
  by_contra hne
  have hlen := List.getElem?_eq_none_iff.mp h
  have := Nat.mod_lt (order st) (List.length_pos_of_ne_nil hne)
  unfold nextItem at hlen
  omega

/-- what the answer of the disassembler says of its state -/
def Drained (q : DisassemblyRequest) :
    Except DisassemblyError DisassemblyState → Prop
  | .ok st => ∃ tables, Inv q tables st [] ∧ st.worklist = [] ∧
    (st.decoded.length : Int) ≤ q.maxInstructions
  | .error (.limitExceeded n _) => ∃ tables st waiting, Inv q tables st waiting ∧
    st.decoded.length = n ∧ q.maxInstructions ≤ n
  | .error .overflow => ∃ tables a, Reachable q tables a ∧ 2 ^ 32 ≤ a.toNat + 4
  | .error .entryOutside => False

/-- **The work-list, in any order.** -/
theorem drain_spec (order : DisassemblyState → Nat) (fuel : Nat) (h : Inv q tables st [])
    (hlen : st.decoded.length ≤ q.maxInstructions.toNat) 
    (hlist : st.worklist = [] → (st.decoded.length : Int) ≤ q.maxInstructions)
    {answer : Except DisassemblyError DisassemblyState}
    (hanswer : drain q order fuel st = some answer) : Drained q answer := by
  induction fuel generalizing tables st with
  | zero => cases hanswer
  | succ fuel ih =>
    simp only [drain] at hanswer
    split at hanswer
    · rename_i hnone
      rw [← Option.some.inj hanswer]
      have hnil := worklist_eq_nil hnone
      exact ⟨tables, h, hnil, hlist hnil⟩
    rename_i hsome
    split at hanswer
    · rename_i hlimit
      rw [← Option.some.inj hanswer]
      exact ⟨tables, st, _, h, rfl, hlimit⟩
    rename_i hlimit
    have hwalk := walk_spec (q.maxInstructions.toNat - st.decoded.length) (h.take hsome)
    have hsum : st.decoded.length + (q.maxInstructions.toNat - st.decoded.length) =
        q.maxInstructions.toNat := by omega
    dsimp only at hwalk
    rw [hsum] at hwalk
    split at hanswer
    · rename_i st' hst
      rw [hst] at hwalk
      obtain ⟨tables', h', hlen'⟩ := hwalk
      exact ih h' hlen' (fun _ => by omega) hanswer
    · rename_i e he
      rw [he] at hwalk
      rw [← Option.some.inj hanswer]
      cases e with
      | entryOutside => exact hwalk
      | overflow => exact hwalk
      | limitExceeded n b =>
        obtain ⟨tables', st', waiting, h', hn, hle⟩ := hwalk
        exact ⟨tables', st', waiting, h', hn, by omega⟩

end

/-! ## the answers of the disassembler -/

section
variable {q : DisassemblyRequest} {tables : Tables}

theorem byAddress_perm (decoded : List PpcInstruction) : List.Perm (byAddress decoded) decoded :=
  List.perm_insertionSort _ _

/-- the instructions of a result, by their addresses -/
structure Result (q : DisassemblyRequest) (tables : Tables) (instructions : List PpcInstruction) :
    Prop where
  sorted : (instructions.map PpcInstruction.address).Pairwise (· < ·)
  falls : ∀ ins ∈ instructions, ins.fallsThrough = true → ins.address.toNat + 4 < 2 ^ 32
  detected : Detected q tables instructions
  mem_iff : ∀ ins, ins ∈ instructions ↔
    Reachable q tables ins.address ∧ instructionAt q tables ins.address = some ins

theorem Detected.instructionAt {instructions : List PpcInstruction}
    (h : Detected q tables instructions) (hins : ins ∈ instructions) :
    instructionAt q tables ins.address = some ins := by
  obtain ⟨word, seen, hword, -, -, he⟩ := h ins hins
  rw [instructionAt_eq hword, ← he]

theorem Inv.result {st : DisassemblyState} (h : Inv q tables st []) (hnil : st.worklist = []) :
    Result q tables (byAddress st.decoded) := by
  have hmem : ∀ ins, ins ∈ byAddress st.decoded ↔ ins ∈ st.decoded := fun ins =>
    (byAddress_perm st.decoded).mem_iff
  -- what is decoded is closed under control flow
  have hclosed : ∀ a, Reachable q tables a → st.visited a = true := fun a ha => by
    have hlist : ∀ b, b ∉ ([] : List Word) ++ st.worklist := by simp [hnil]
    induction ha with
    | entry hin => exact (h.entry hin).resolve_right (hlist _)
    | step hr hnext hin ih =>
      obtain ⟨ins, hins, rfl⟩ := visited_iff.mp ih
      rw [nextAddresses, h.detected.instructionAt hins] at hnext
      exact (h.closed ins hins _ hnext hin).resolve_right (hlist _)
  refine ⟨?_, fun ins hins => h.falls ins ((hmem ins).mp hins), fun ins hins => ?_, fun ins => ?_⟩
  · have hle : (byAddress st.decoded).Pairwise fun a b => a.address ≤ b.address := by
      have htotal : Std.Total fun a b : PpcInstruction => a.address ≤ b.address :=
        ⟨fun a b => BitVec.le_total _ _⟩
      have htrans : IsTrans PpcInstruction fun a b => a.address ≤ b.address :=
        ⟨fun a b c => BitVec.le_trans⟩
      exact List.pairwise_insertionSort _ _
    have hne : ((byAddress st.decoded).map PpcInstruction.address).Pairwise (· ≠ ·) :=
      (((byAddress_perm st.decoded).map _).nodup_iff).mpr h.nodup
    refine ((List.pairwise_map.mpr hle).and hne).imp fun hab => ?_
    exact BitVec.lt_of_le_ne hab.1 hab.2
  · obtain ⟨word, seen, hword, hseen, ht, he⟩ := h.detected ins ((hmem ins).mp hins)
    exact ⟨word, seen, hword, fun i hi => (hmem i).mpr (hseen hi), ht, he⟩
  · rw [hmem]
    constructor
    · exact fun hins => ⟨h.reached tables (fun _ _ => rfl) ins hins, h.detected.instructionAt hins⟩
    · rintro ⟨hr, hat⟩
      obtain ⟨i, hi, he⟩ := visited_iff.mp (hclosed _ hr)
      have hi' := h.detected.instructionAt hi
      rw [he, hat] at hi'
      exact Option.some.inj hi' ▸ hi

/-! ### two results with the same tables -/

/-- both results have the same targets at the instructions they share -/
def SameTargets (left right : List PpcInstruction) : Prop :=
  ∀ ins ∈ left, ∀ other ∈ right, ins.address = other.address →
    ins.branchTargets = other.branchTargets

theorem detect_ne_nil {targets : List Word}
    (h : detect q seen ins = some targets) : ins.branchTargets = [] ∧ targets ≠ [] := by
  unfold detect at h
  split at h
  · exact ⟨(‹_ ∧ _›).1, tryRecognize_ne_nil h⟩
  · cases h

theorem withTable_targets {table : Option (List Word)} (h : table = detect q seen ins) :
    (ins.withTable table).branchTargets = table.getD ins.branchTargets ∧
      (table.isSome → ins.branchTargets = [] ∧ table ≠ some []) := by
  cases table with
  | none => exact ⟨rfl, fun h => by cases h⟩
  | some targets =>
    obtain ⟨h1, h2⟩ := detect_ne_nil h.symm
    exact ⟨rfl, fun _ => ⟨h1, fun he => h2 (Option.some.inj he)⟩⟩

theorem tables_eq {left right : Tables} {l r : List PpcInstruction} (hl : Detected q left l)
    (hr : Detected q right r) {other : PpcInstruction} (hins : ins ∈ l) (hother : other ∈ r)
    (ha : ins.address = other.address) (ht : ins.branchTargets = other.branchTargets) :
    left ins.address = right ins.address := by
  obtain ⟨word, seen, hword, -, hd, he⟩ := hl ins hins
  obtain ⟨word', seen', hword', -, hd', he'⟩ := hr other hother
  rw [← ha] at hword' hd' he'
  obtain rfl := Option.some.inj (hword.symm.trans hword')
  obtain ⟨h1, h2⟩ := withTable_targets hd
  obtain ⟨h1', h2'⟩ := withTable_targets hd'
  rw [he, he', h1, h1'] at ht
  generalize left ins.address = x at *
  generalize right ins.address = y at *
  cases x with
  | none =>
    cases y with
    | none => rfl
    | some targets =>
      have h := h2' rfl
      exact absurd (by rw [← h.1]; exact congrArg some ht.symm) h.2
  | some targets =>
    have h := h2 rfl
    cases y with
    | none => exact absurd (by rw [← h.1]; exact congrArg some ht) h.2
    | some targets' => exact congrArg some ht

theorem Reachable.inside (h : Reachable q tables a) : Inside q a := by
  cases h <;> assumption

theorem Result.exists_mem {instructions : List PpcInstruction} (h : Result q tables instructions)
    (hr : Reachable q tables a) : ∃ ins ∈ instructions, ins.address = a := by
  have hin := hr.inside
  obtain ⟨word, hword⟩ : ∃ word, q.image.readWord a = some word :=
    ⟨_, by rw [ProgramImage.readWord, if_pos hin.2]⟩
  have ha : ((decodeWord a word).withTable (tables a)).address = a := by simp
  refine ⟨(decodeWord a word).withTable (tables a), (h.mem_iff _).mpr ?_, ha⟩
  rw [ha]
  exact ⟨hr, instructionAt_eq hword⟩

theorem Result.subset {left right : Tables} {l r : List PpcInstruction} (hl : Result q left l)
    (hr : Result q right r) (hsame : SameTargets l r) : l ⊆ r := by
  have htables : ∀ {a : Word}, Reachable q left a → Reachable q right a → left a = right a := by
    intro a h h'
    obtain ⟨ins, hins, rfl⟩ := hl.exists_mem h
    obtain ⟨other, hother, ha⟩ := hr.exists_mem h'
    exact tables_eq hl.detected hr.detected hins hother ha.symm (hsame ins hins other hother ha.symm)
  have hreach : ∀ {a : Word}, Reachable q left a → Reachable q right a := by
    intro a h
    induction h with
    | entry hin => exact .entry hin
    | step ha hnext hin ih =>
      refine .step ih ?_ hin
      rw [nextAddresses, instructionAt, htables ha ih] at hnext
      exact hnext
  intro ins hins
  obtain ⟨h, hat⟩ := (hl.mem_iff ins).mp hins
  refine (hr.mem_iff ins).mpr ⟨hreach h, ?_⟩
  rw [instructionAt, htables h (hreach h)] at hat
  exact hat

end

theorem result_of_ok {order : DisassemblyState → Nat} {fuel : Nat}
    {instructions : List PpcInstruction}
    (h : disassembleInOrder q order fuel = some (.ok instructions)) :
    (∃ tables, Result q tables instructions) ∧
      (instructions.length : Int) ≤ q.maxInstructions := by
  unfold disassembleInOrder at h
  split at h
  · obtain ⟨answer, hanswer, hmap⟩ := Option.map_eq_some_iff.mp h
    cases answer with
    | error e => cases hmap
    | ok st =>
      obtain rfl := Except.ok.inj hmap
      obtain ⟨tables, hinv, hnil, hlen⟩ := drain_spec order fuel (Inv.start fun _ => none)
        (Nat.zero_le _) (fun hnil => by cases hnil) hanswer
      rw [(byAddress_perm st.decoded).length_eq]
      exact ⟨⟨tables, hinv.result hnil⟩, hlen⟩
  · cases Option.some.inj h

/-- what control reaches without passing through another known entry -/
inductive ReachableApart (q : DisassemblyRequest) (tables : Tables) : Word → Prop where
  | entry (h : Inside q q.entryPoint) : ReachableApart q tables q.entryPoint
  | step {a b : Word} (h : ReachableApart q tables a) (hnext : b ∈ nextAddresses q tables a)
      (hin : Inside q b) (hapart : b = q.entryPoint ∨ b ∉ q.knownFunctionEntryPoints) :
      ReachableApart q tables b

theorem ReachableApart.apart {tables : Tables}
    (h : ReachableApart q tables a) : a = q.entryPoint ∨ a ∉ q.knownFunctionEntryPoints := by
  cases h with
  | entry => exact Or.inl rfl
  | step _ _ _ hapart => exact hapart

end DolTranslator.Ppc
