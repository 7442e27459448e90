import DolTranslator.Abi.Accesses
import DolTranslator.Abi.Termination

/-!
# Are the contracts true?

* `Performs.sound`   one instruction reads and writes what the analysis says that it does;
* `Exec.sound`   what is surely written at a place is written when a run gets there;
* `contracts_sound`   the main result: the contracts that the rounds end with are true of every run
  whose steps meet the conditions of `Exec`;
* `fallthrough_unsound`  a fallthrough that is not recorded hides a read.
-/

set_option linter.unusedSectionVars false

namespace DolTranslator.Abi
open Flags RegisterSet

/-! ## one instruction -/

variable {ins : IrInstruction} {b pos : Nat}

section
variable {x : Piece}

theorem has_registers (value : IrValue) :
    (∃ name ∈ value.registers, (register name).has x = true) ↔ (ofValue value).has x = true := by
  cases value with
  | imm c => simp [IrValue.registers, ofValue]
  | register name =>
    by_cases h : name = ""
    · subst h
      have hr : register "" = empty := if_pos rfl
      simp [IrValue.registers, ofValue, hr]
    · simp [IrValue.registers, ofValue, h]

theorem has_map_register (names : List String) :
    (unionAll (names.map register)).has x = true ↔ ∃ name ∈ names, (register name).has x = true := by
  simp [has_unionAll]

theorem has_ofValues (values : List IrValue) :
    (ofValues values).has x = true ↔ ∃ v ∈ values, (ofValue v).has x = true := by
  simp [ofValues, has_unionAll]

variable {thunks : GuestSaveRestoreThunks} {cs : CalleeContracts}

theorem usesOf_le_reads (h : isPlain ins = true ∨ ins.isTerminator = true)
    (hx : (usesOf ins).has x = true) : (reads thunks cs ins).has x = true := by
  cases ins with
  | branch c t e r =>
    simp only [usesOf] at hx
    simp only [reads, has_union, Bool.or_eq_true]
    split at hx
    · exact Or.inl hx
    · exact Or.inr hx
  | call d t args tail => simp [isPlain, IrInstruction.isTerminator] at h
  | indirectCall d t args => simp [isPlain, IrInstruction.isTerminator] at h
  | ret value =>
    cases value with
    | none => simp [usesOf, IrInstruction.uses, has_unionAll] at hx
    | some v =>
      simp only [usesOf, IrInstruction.uses, has_map_register] at hx
      exact (has_registers v).mp hx
  | setCrField i l r u =>
    have hxer : register "xer" = xerOnly := by decide +kernel
    simp only [usesOf, IrInstruction.uses, has_map_register, List.mem_append, or_and_right,
      exists_or, has_registers, List.mem_singleton, exists_eq_left, hxer] at hx
    simpa [reads, or_assoc] using hx
  | phi d sources =>
    simp only [usesOf, IrInstruction.uses, has_map_register, List.mem_map] at hx
    obtain ⟨_, ⟨s, hs, rfl⟩, hx⟩ := hx
    exact (has_unionAll _ _).mpr ⟨_, List.mem_map_of_mem hs, hx⟩
  | indirectJump t => simp [reads]
  | jump | comment | tracePpc | undefined =>
    simp [usesOf, IrInstruction.uses, has_unionAll] at hx
  | _ =>
    simp only [usesOf, IrInstruction.uses, has_map_register, has_union, Bool.or_eq_true,
      List.mem_append, List.mem_cons, List.not_mem_nil, or_false, or_and_right, exists_or,
      exists_eq_left, has_registers] at hx
    first
      | exact hx
      | (simp only [reads, has_union, Bool.or_eq_true]; tauto)

theorem has_definesOf (h : isPlain ins = true) :
    ((definiteWrites thunks cs ins).has x = true ↔ (definesOf ins).has x = true) ∧
      ((possibleWrites thunks cs ins).has x = true ↔ (definesOf ins).has x = true) := by
  cases ins with
  | call d t args tail => simp [isPlain] at h
  | indirectCall d t args => simp [isPlain] at h
  | undefined => simp [isPlain, IrInstruction.isTerminator] at h
  | setCrField i l r u => exact ⟨Iff.rfl, Iff.rfl⟩
  | _ => simp [definiteWrites, possibleWrites, writes, definesOf, IrInstruction.definitions,
      has_unionAll]

/-! ## places -/

variable {f : IrFunction}

def writtenAt (thunks : GuestSaveRestoreThunks) (cs : CalleeContracts) (f : IrFunction)
    (b pos : Nat) : RegisterSet :=
  (definiteIn thunks cs f b).union (definiteWritesOf thunks cs ((f.body b).take pos))

/-- only the last instruction of a block transfers control -/
def TransfersLast (f : IrFunction) : Prop :=
  ∀ b pos ins, (f.body b)[pos]? = some ins → ins.isTerminator = true →
    pos + 1 = (f.body b).length

theorem body_lt (h : (f.body b)[pos]? = some ins) :
    b < f.blocks.length := by
  by_contra hb
  rw [IrFunction.body, List.getElem?_eq_none (Nat.le_of_not_lt hb)] at h
  cases h

theorem has_writtenAt_succ (h : (f.body b)[pos]? = some ins) :
    (writtenAt thunks cs f b (pos + 1)).has x = true ↔
      (writtenAt thunks cs f b pos).has x = true ∨ (definiteWrites thunks cs ins).has x = true := by
  simp only [writtenAt, List.take_add_one, h, Option.toList_some, has_union, Bool.or_eq_true,
    has_definiteWritesOf, List.mem_append, List.mem_singleton, or_and_right, exists_or,
    exists_eq_left, or_assoc]

theorem has_writtenAt_zero : (writtenAt thunks cs f b 0).has x = true ↔
    (definiteIn thunks cs f b).has x = true := by
  simp [writtenAt, has_definiteWritesOf]

theorem writtenAt_length (hb : b < f.blocks.length) :
    writtenAt thunks cs f b (f.body b).length = definiteOut thunks cs f b := by
  rw [writtenAt, List.take_length, definiteOut_eq hb]

theorem reads_at (hins : (f.body b)[pos]? = some ins)
    (hw : (writtenAt thunks cs f b pos).has x = false) (hr : (reads thunks cs ins).has x = true) :
    (contractOf thunks cs f).readBeforeWrite.has x = true := by
  obtain ⟨hlt, he⟩ := List.getElem?_eq_some_iff.mp hins
  have hsplit : f.body b = (f.body b).take pos ++ ins :: (f.body b).drop (pos + 1) := by
    rw [← he, List.getElem_cons_drop, List.take_append_drop]
  simp only [writtenAt, has_union, Bool.or_eq_false_iff] at hw
  refine has_readBeforeWriteOf.mpr ⟨ins, ⟨b, body_lt hins, _, _, hsplit, hw.1, fun i hi => ?_⟩, hr⟩
  exact Bool.eq_false_iff.mpr fun ht =>
    Bool.eq_false_iff.mp hw.2 (has_definiteWritesOf.mpr ⟨i, hi, ht⟩)

theorem writes_at (hins : (f.body b)[pos]? = some ins)
    (hw : (possibleWrites thunks cs ins).has x = true) :
    (contractOf thunks cs f).possibleWrites.has x = true :=
  has_possibleWritesOf.mpr
    ⟨ins, mem_instructionsOf.mpr ⟨b, body_lt hins, List.mem_of_getElem? hins⟩, hw⟩

/-- a transfer writes nothing: at the last place of a block everything of its end is written -/
theorem has_writtenAt_last (hf : TransfersLast f)
    (hins : (f.body b)[pos]? = some ins) (ht : ins.isTerminator = true)
    (hu : ∀ a r d o, ins ≠ .undefined a r d o)
    (hx : (definiteOut thunks cs f b).has x = true) :
    (writtenAt thunks cs f b pos).has x = true := by
  rw [← writtenAt_length (body_lt hins), ← hf b pos ins hins ht, has_writtenAt_succ hins] at hx
  refine hx.resolve_right fun hd => ?_
  cases ins with
  | undefined a r d o => exact hu a r d o rfl
  | branch | jump | indirectJump | jumpTable | ret =>
    simp [definiteWrites, writes] at hd
  | _ => cases ht

/-- along a recorded edge everything that the analysis takes as written at the start of a block is
written at the end of the block before -/
theorem RecordedEntry.definiteOut {next : Nat} (h : RecordedEntry f b next)
    (hnext : next < f.blocks.length) (hx : (definiteIn thunks cs f next).has x = true) :
    (definiteOut thunks cs f b).has x = true := by
  rw [definiteIn_eq hnext] at hx
  obtain ⟨h1, h2, h3⟩ := has_incoming.mp hx
  rcases h with h | h | h
  · exact absurd h h1
  · exact absurd h h2
  · exact h3 b h

theorem ordinalOf_spec {label : String} (h : ordinalOf f label = some b) :
    b < f.blocks.length ∧ f.labelOf b = label := by
  obtain ⟨hb, hl, -⟩ := List.findIdx?_eq_some_iff_getElem.mp h
  exact ⟨hb, by rw [labelOf_lt hb]; exact eq_of_beq hl⟩

theorem definiteIn_entry {entry : Nat} (h : ordinalOf f f.entryLabel = some entry) :
    (definiteIn thunks cs f entry).has x = false := by
  obtain ⟨hb, hl⟩ := ordinalOf_spec h
  rw [definiteIn_eq hb]
  exact Bool.eq_false_iff.mpr fun hx => (has_incoming.mp hx).1 hl

theorem definite_at_exit (hb : b < f.blocks.length) (he : isExitBlock f b = true)
    (hx : (contractOf thunks cs f).definiteWrites.has x = true) :
    (definiteOut thunks cs f b).has x = true :=
  (has_definiteWritesAtExits.mp hx).2 b hb he

end

/-! ## runs -/

section
variable {thunks : GuestSaveRestoreThunks} {p : Program} {externals cs : CalleeContracts}
  {out : Outside}

/-- contracts that a round reproduces -/
def FixedPoint (thunks : GuestSaveRestoreThunks) (p : Program) (externals cs : CalleeContracts) :
    Prop :=
  ∀ a, cs a = match p.ordinalAt a with
    | some j => some (contractOf thunks cs (p.body j))
    | none => externals a

/-- the accesses of an instruction are those that the analysis counts -/
structure Counted (thunks : GuestSaveRestoreThunks) (cs : CalleeContracts) (ins : IrInstruction)
    (written : RegisterSet) (t : Accesses) (x : Piece) : Prop where
  reads : ReadsFirst x t → written.has x = false → (Abi.reads thunks cs ins).has x = true
  writes : (writtenBy t).has x = true → (possibleWrites thunks cs ins).has x = true
  definite : (definiteWrites thunks cs ins).has x = true → (writtenBy t).has x = true

variable {x : Piece}

theorem has_writtenBy_single {s : RegisterSet × RegisterSet} :
    (writtenBy [s]).has x = true ↔ s.2.has x = true := by
  simp [has_writtenBy]

variable {t : Accesses} {written : RegisterSet}

/-- a call whose contract the run of its target meets -/
theorem counted_call {destination target : String} {arguments : List IrValue} {tail : Bool} {a : Nat}
    {contract : GuestAbiContract} (hx : x.tracked = true) (h : parseAddress target = some a)
    (hcs : cs a = some contract) (hmeets : Meets Piece.tracked contract t) :
    Counted thunks cs (.call destination target arguments tail) written
      (t ++ [(empty, callDestination destination none)]) x := by
  refine ⟨fun hr _ => ?_, fun hw => ?_, fun hd => ?_⟩
  · simp only [reads, directCallReads, h, hcs]
    rcases hr.append with hr | ⟨-, hr⟩
    · exact hmeets.reads x hx hr
    · have := readsFirst_single.mp hr
      simp at this
  · simp only [possibleWrites, writes, h, hcs, has_union, Bool.or_eq_true]
    simp only [has_writtenBy_append, has_writtenBy_single] at hw
    exact hw.symm.imp_right (hmeets.writes x hx)
  · simp only [definiteWrites, writes, h, hcs, has_union, Bool.or_eq_true] at hd
    simp only [has_writtenBy_append, has_writtenBy_single]
    exact hd.symm.imp_left (hmeets.definite x hx)

/-- **One instruction does what the analysis counts.** -/
theorem Performs.sound (hfix : FixedPoint thunks p externals cs) (hout : out.True externals)
        (h : Performs thunks p externals out True written ins t)
    (hx : x.tracked = true) : Counted thunks cs ins written t x := by
  cases h with
  | plain h =>
    refine ⟨fun hr _ => ?_, fun hw => ?_, fun hd => ?_⟩
    · exact usesOf_le_reads (Or.inl h) (readsFirst_single.mp hr)
    · exact (has_definesOf h).2.mpr (has_writtenBy_single.mp hw)
    · exact has_writtenBy_single.mpr ((has_definesOf h).1.mp hd)
  | @helper destination target arguments tail t h hrun =>
    refine ⟨fun hr _ => ?_, fun hw => ?_, fun hd => ?_⟩
    · simp only [reads, h, has_union, Bool.or_eq_true]
      rcases hr.append with hr | ⟨-, hr⟩
      · exact Or.inl (readsFirst_single.mp hr)
      · rcases hr.append with hr | ⟨-, hr⟩
        · exact Or.inr (hout.helperReads _ _ _ hrun x hx hr)
        · have := readsFirst_single.mp hr
          simp at this
    · simp only [possibleWrites, writes, h, has_union, Bool.or_eq_true]
      simp only [has_writtenBy_append, has_writtenBy_single, has_empty, Bool.false_eq_true,
        false_or] at hw
      exact hw.symm.imp_right (hout.helperWrites _ _ _ hrun x hx)
    · simp only [definiteWrites, writes, h] at hd
      simp only [has_writtenBy_append, has_writtenBy_single]
      exact Or.inr (Or.inr hd)
  | @outside destination target arguments tail a contract t h hgiven hcontract hrun =>
    have hcs : cs a = some contract := by rw [hfix, hgiven, hcontract]
    exact counted_call hx h hcs (hout.contracts a contract hcontract t hrun)
  | @thunk destination target arguments tail a thunk h hgiven hcontract hthunk hstrict =>
    have hcs : cs a = none := by rw [hfix, hgiven, hcontract]
    have hframe : written.has x = false → frameBase.has x = false := by
      intro hw
      refine Bool.eq_false_iff.mpr fun hf => ?_
      simp only [frameBase, has_single, decide_eq_true_eq] at hf
      rw [hf, hstrict trivial] at hw
      cases hw
    refine ⟨fun hr hw => ?_, fun hw => ?_, fun hd => ?_⟩
    · simp only [reads, directCallReads, h, hcs, hthunk]
      rcases hr.append with hr | ⟨-, hr⟩
      · have hr := readsFirst_single.mp hr
        obtain ⟨kind, start⟩ := thunk
        cases kind <;> simp_all [thunkAccesses, thunkReads]
      · have := readsFirst_single.mp hr
        simp at this
    · simp only [possibleWrites, writes, h, hcs, hthunk, has_union, Bool.or_eq_true]
      simp only [has_writtenBy_append, has_writtenBy_single] at hw
      refine hw.symm.imp_right fun hw => ?_
      obtain ⟨kind, start⟩ := thunk
      cases kind <;> simp_all [thunkAccesses, thunkWrites]
    · simp only [definiteWrites, writes, h, hcs, hthunk, has_union, Bool.or_eq_true] at hd
      simp only [has_writtenBy_append, has_writtenBy_single]
      refine hd.symm.imp_left fun hd => ?_
      obtain ⟨kind, start⟩ := thunk
      cases kind <;> simp_all [thunkAccesses, thunkWrites]
  | indirect hstrict => exact absurd trivial hstrict

/-- what the analysis says of a run from a place, for one piece -/
structure SoundFrom (thunks : GuestSaveRestoreThunks) (cs : CalleeContracts) (f : IrFunction)
    (written : RegisterSet) (t : Accesses) (x : Piece) : Prop where
  reads : ReadsFirst x t → written.has x = false →
    (contractOf thunks cs f).readBeforeWrite.has x = true
  writes : (writtenBy t).has x = true → (contractOf thunks cs f).possibleWrites.has x = true
  definite : (contractOf thunks cs f).definiteWrites.has x = true →
    written.has x = true ∨ (writtenBy t).has x = true

variable {f : IrFunction}

theorem SoundFrom.step {u : Accesses} (hins : (f.body b)[pos]? = some ins)
    (hc : Counted thunks cs ins written t x)
    (hw : (writtenAt thunks cs f b pos).has x = true → written.has x = true)
    (hrest : ((writtenAt thunks cs f b (pos + 1)).has x = true →
      (written.union (writtenBy t)).has x = true) →
      SoundFrom thunks cs f (written.union (writtenBy t)) u x) :
    SoundFrom thunks cs f written (t ++ u) x := by
  have hu := hrest fun h => by
    rw [has_union, Bool.or_eq_true]
    exact ((has_writtenAt_succ hins).mp h).imp hw hc.definite
  refine ⟨fun hr hnot => ?_, fun h => ?_, fun hd => ?_⟩
  · have hplace : (writtenAt thunks cs f b pos).has x = false :=
      Bool.eq_false_iff.mpr fun h => Bool.eq_false_iff.mp hnot (hw h)
    rcases hr.append with hr | ⟨ht, hr⟩
    · exact reads_at hins hplace (hc.reads hr hnot)
    · exact hu.reads hr (by rw [has_union, hnot, ht]; rfl)
  · rcases has_writtenBy_append.mp h with h | h
    · exact writes_at hins (hc.writes h)
    · exact hu.writes h
  · have := hu.definite hd
    rw [has_union, Bool.or_eq_true, or_assoc] at this
    exact this.imp_right has_writtenBy_append.mpr

theorem SoundFrom.transfer {u : Accesses} (hins : (f.body b)[pos]? = some ins)
    (ht : ins.isTerminator = true)
    (hw : (writtenAt thunks cs f b pos).has x = true → written.has x = true)
    (hu : SoundFrom thunks cs f written u x) :
    SoundFrom thunks cs f written ((usesOf ins, empty) :: u) x := by
  have he : (usesOf ins, empty) :: u = [(usesOf ins, empty)] ++ u := rfl
  have hnone : (writtenBy [(usesOf ins, empty)]).has x = false := by
    rw [← Bool.not_eq_true, has_writtenBy_single]
    simp
  refine ⟨fun hr hnot => ?_, fun h => ?_, fun hd => ?_⟩
  · rw [he] at hr
    rcases hr.append with hr | ⟨-, hr⟩
    · exact reads_at hins (Bool.eq_false_iff.mpr fun h => Bool.eq_false_iff.mp hnot (hw h))
        (usesOf_le_reads (Or.inr ht) (readsFirst_single.mp hr))
    · exact hu.reads hr hnot
  · rw [he, has_writtenBy_append, hnone] at h
    exact hu.writes (h.resolve_left (by simp))
  · refine (hu.definite hd).imp_right fun h => ?_
    rw [he, has_writtenBy_append]
    exact Or.inr h

theorem SoundFrom.nil
    (h : (contractOf thunks cs f).definiteWrites.has x = true → written.has x = true) :
    SoundFrom thunks cs f written [] x :=
  ⟨fun hr => absurd hr not_readsFirst_nil, fun hw => by simp at hw, fun hd => Or.inl (h hd)⟩

theorem isTerminator_of_mem_targets {label : String}
    (h : label ∈ ins.targets) : ins.isTerminator = true := by
  cases ins <;> first | rfl | simp [IrInstruction.targets] at h

theorem Leaves.isTerminator (h : Leaves f ins) :
    ins.isTerminator = true ∧ ∀ a r d o, ins ≠ .undefined a r d o := by
  cases ins with
  | branch | jump | ret | indirectJump | jumpTable => exact ⟨rfl, fun _ _ _ _ h => nomatch h⟩
  | _ => simp [Leaves, IrInstruction.targets] at h

/-- **Runs do what the analysis says.** -/
theorem Exec.sound (hfix : FixedPoint thunks p externals cs) (hout : out.True externals)
    (hlast : ∀ i, TransfersLast (p.body i)) {i : Nat}
    (h : Exec thunks p externals out True i b pos written t)
    (hx : x.tracked = true)
    (hw : (writtenAt thunks cs (p.body i) b pos).has x = true → written.has x = true) :
    SoundFrom thunks cs (p.body i) written t x := by
  induction h generalizing x with
  | step hins hstep hrest ih =>
    exact SoundFrom.step hins (hstep.sound hfix hout hx) hw (ih hx)
  | call hins htarget hgiven hentry hcallee hrest ihcallee ih =>
    have hstart : ∀ y : Piece, y.tracked = true → SoundFrom thunks cs _ empty _ y :=
      fun y hy => ihcallee hy fun h => by
        rw [has_writtenAt_zero, definiteIn_entry hentry] at h
        cases h
    have hmeets : Meets Piece.tracked (contractOf thunks cs (p.body _)) _ :=
      ⟨fun y hy hr => (hstart y hy).reads hr (has_empty y),
        fun y hy => (hstart y hy).writes,
        fun y hy hd => ((hstart y hy).definite hd).resolve_left (by simp)⟩
    exact SoundFrom.step hins (counted_call hx htarget (by rw [hfix, hgiven]) hmeets) hw (ih hx)
  | goto hins hlabel hnext hstrict hrest ih =>
    have hterm := isTerminator_of_mem_targets hlabel
    refine SoundFrom.transfer hins hterm hw (ih hx fun h => hw ?_)
    rw [has_writtenAt_zero] at h
    refine has_writtenAt_last (hlast _) hins hterm ?_
      ((hstrict trivial).definiteOut (ordinalOf_spec hnext).1 h)
    rintro _ _ _ _ rfl
    cases hlabel
  | leave hins hleaves hstrict =>
    obtain ⟨hterm, hu⟩ := hleaves.isTerminator
    refine SoundFrom.transfer hins hterm hw (SoundFrom.nil fun hd => hw ?_)
    exact has_writtenAt_last (hlast _) hins hterm hu
      (definite_at_exit (body_lt hins) (hstrict trivial) hd)
  | fall hnext hstrict hrest ih =>
    refine ih hx fun h => hw ?_
    rw [has_writtenAt_zero] at h
    rw [writtenAt_length (Nat.lt_of_succ_lt hnext)]
    exact (hstrict trivial).definiteOut hnext h
  | @fallOff i b written hlast hstrict =>
    have hb : b < (p.body i).blocks.length := by omega
    refine SoundFrom.nil fun hd => hw ?_
    rw [writtenAt_length hb]
    exact definite_at_exit hb (hstrict trivial) hd

theorem fixedPoint_of_endsAt {n : Nat} (h : EndsAt thunks p externals n) :
    FixedPoint thunks p externals
      (visible p externals (stateBefore thunks p externals n).current) := by
  intro a
  have hsame := (endsAt_iff n).mp h
  have hjacobi := (settled_before thunks p externals n).current_round
  simp only [visible]
  cases hj : p.ordinalAt a with
  | none => rfl
  | some j =>
    have hstate : (stateBefore thunks p externals n).current =
        jacobi thunks p externals (stateBefore thunks p externals n).current := hsame.symm.trans hjacobi
    simp only
    conv_lhs => rw [hstate]
    rw [jacobi, List.getElem?_map, bodies_getElem?_body (ordinalAt_lt hj)]
    rfl

theorem current_of_endsAt {n i : Nat} (h : EndsAt thunks p externals n) (hi : i < p.count) :
    (stateBefore thunks p externals n).current[i]? =
      some (contractOf thunks (visible p externals (stateBefore thunks p externals n).current)
        (p.body i)) := by
  have hstate := ((endsAt_iff n).mp h).symm.trans
    (settled_before thunks p externals n).current_round
  conv_lhs => rw [hstate]
  rw [jacobi, List.getElem?_map, bodies_getElem?_body hi]
  rfl

/-- **The contracts are true.**  Where the rounds end, the contract of every function is true of
every run from its entry to its exit that enters blocks along recorded edges, leaves the function
from a block without a recorded successor, makes no indirect call, and calls thunks with a frame
base that it has computed. -/
theorem contracts_sound (thunks : GuestSaveRestoreThunks) (p : Program) (externals : CalleeContracts)
    (out : Outside) (hout : out.True externals) (hlast : ∀ i, TransfersLast (p.body i)) (n : Nat)
    (hend : EndsAt thunks p externals n) (i entry : Nat) (hi : i < p.count)
    (hentry : ordinalOf (p.body i) (p.body i).entryLabel = some entry) (t : Accesses)
    (hrun : Exec thunks p externals out True i entry 0 empty t) :
    ∃ contract, (stateBefore thunks p externals n).current[i]? = some contract ∧
      Meets Piece.tracked contract t := by
  refine ⟨_, current_of_endsAt hend hi, ?_⟩
  have hsound : ∀ x : Piece, x.tracked = true → SoundFrom thunks _ (p.body i) empty t x :=
    fun x hx => hrun.sound (fixedPoint_of_endsAt hend) hout hlast hx fun h => by
      rw [has_writtenAt_zero, definiteIn_entry hentry] at h
      cases h
  exact ⟨fun x hx hr => (hsound x hx).reads hr (has_empty x), fun x hx => (hsound x hx).writes,
    fun x hx hd => ((hsound x hx).definite hd).resolve_left (by simp)⟩

end

/-! ### a call -/

def noOutside : Outside := ⟨fun _ _ => False, fun _ _ _ => False⟩

theorem noOutside_true : noOutside.True noExternals where
  contracts _ _ h := nomatch h
  helperReads _ _ _ h := False.elim h
  helperWrites _ _ _ h := False.elim h

/-- a function that calls another one, which may go through a block that writes r5 -/
def caller : Program where
  functions := [
    (0x80001000, ⟨"func_80001000", "a", [⟨"a", [.assign "r3" (.register "r4"),
      .call "" "func_80002000" [] false, .ret none]⟩]⟩),
    (0x80002000, ⟨"func_80002000", "a", [⟨"a", [.branch "eq" "b" "c" "cr0"]⟩,
      ⟨"b", [.assign "r5" (.register "r3"), .jump "c"]⟩, ⟨"c", [.ret none]⟩]⟩)]
  sorted := by decide
  labels := by decide

/-- the accesses of a run through that block: the caller's assignment, the callee, the return -/
def callerAccesses : Accesses :=
  [(single (.gpr 4), single (.gpr 3)), (single (.cr 0), empty), (single (.gpr 3), single (.gpr 5)),
    (empty, empty), (empty, empty), (empty, empty), (empty, empty)]

theorem callee_run (written : RegisterSet) : Exec noThunks caller noExternals noOutside True 1 0 0
    written [(single (.cr 0), empty), (single (.gpr 3), single (.gpr 5)), (empty, empty),
      (empty, empty)] := by
  have hb : ordinalOf (caller.body 1) "b" = some 1 := by decide +kernel
  have hc : ordinalOf (caller.body 1) "c" = some 2 := by decide +kernel
  have he : [(single (.cr 0), empty), (single (.gpr 3), single (.gpr 5)), (empty, empty),
        (empty, empty)] =
      (usesOf (.branch "eq" "b" "c" "cr0"), empty) ::
        ([(usesOf (.assign "r5" (.register "r3")), definesOf (.assign "r5" (.register "r3")))] ++
          [(usesOf (.jump "c"), empty), (usesOf (.ret none), empty)]) := by decide +kernel
  rw [he]
  exact .goto rfl List.mem_cons_self hb (fun _ => Or.inr (Or.inr (by decide +kernel)))
    (.step rfl (.plain rfl)
      (.goto rfl List.mem_cons_self hc (fun _ => Or.inr (Or.inr (by decide +kernel)))
        (.leave rfl trivial fun _ => by decide +kernel)))

theorem caller_run : Exec noThunks caller noExternals noOutside True 0 0 0 empty
    callerAccesses := by
  have haddress : parseAddress "func_80002000" = some 0x80002000 := by decide +kernel
  have hgiven : caller.ordinalAt 0x80002000 = some 1 := by decide +kernel
  have hentry : ordinalOf (caller.body 1) (caller.body 1).entryLabel = some 0 := by decide +kernel
  have he : callerAccesses =
      [(usesOf (.assign "r3" (.register "r4")), definesOf (.assign "r3" (.register "r4")))] ++
        (([(single (.cr 0), empty), (single (.gpr 3), single (.gpr 5)), (empty, empty),
          (empty, empty)] ++ [(empty, callDestination "" none)]) ++
            [(usesOf (.ret none), empty)]) := by decide +kernel
  rw [he]
  exact .step rfl (.plain rfl) (.call rfl haddress hgiven hentry (callee_run empty)
    (.leave rfl trivial fun _ => by decide +kernel))

theorem caller_transfersLast (i : Nat) : TransfersLast (caller.body i) := by
  intro b pos ins hins hterm
  match i, b, pos with
  | 0, 0, 0 | 0, 0, 1 | 1, 1, 0 =>
    obtain rfl := Option.some.inj hins
    cases hterm
  | 0, 0, 2 | 1, 0, 0 | 1, 1, 1 | 1, 2, 0 => rfl
  | 0, 0, n + 3 | 1, 0, n + 1 | 1, 1, n + 2 | 1, 2, n + 1 => cases hins
  | 0, b + 1, _ | 1, b + 3, _ => cases hins
  | i + 2, _, _ => cases hins

theorem contracts_sound_caller : ∃ contract,
    (stateBefore noThunks caller noExternals 1).current[0]? = some contract ∧
      Meets Piece.tracked contract callerAccesses :=
  contracts_sound noThunks caller noExternals noOutside noOutside_true caller_transfersLast 1
    (by decide +kernel) 0 0 (by decide) (by decide +kernel) callerAccesses caller_run

/-! ### a fallthrough that is not recorded -/

/-- block `c` falls into `d`, whose only recorded predecessor `b` writes r14 -/
def fallthrough : Program where
  functions := [
    (0x80001000, ⟨"func_80001000", "a", [⟨"a", [.branch "eq" "b" "c" "cr0"]⟩,
      ⟨"b", [.assign "r14" (.register "r3"), .jump "d"]⟩,
      ⟨"c", [.assign "r4" (.register "r3")]⟩,
      ⟨"d", [.assign "r3" (.register "r14"), .ret none]⟩]⟩)]
  sorted := by decide
  labels := by decide

/-- the accesses of the run through `c` and `d` -/
def fallthroughAccesses : Accesses :=
  [(single (.cr 0), empty), (single (.gpr 3), single (.gpr 4)),
    (single (.gpr 14), single (.gpr 3)), (empty, empty)]

theorem fallthrough_run : Exec noThunks fallthrough noExternals noOutside False 0 0 0 empty
    fallthroughAccesses := by
  have hc : ordinalOf (fallthrough.body 0) "c" = some 2 := by decide +kernel
  have he : fallthroughAccesses = (usesOf (.branch "eq" "b" "c" "cr0"), empty) ::
      ([(usesOf (.assign "r4" (.register "r3")), definesOf (.assign "r4" (.register "r3")))] ++
        ([(usesOf (.assign "r3" (.register "r14")), definesOf (.assign "r3" (.register "r14")))] ++
          [(usesOf (.ret none), empty)])) := by decide +kernel
  rw [he]
  exact .goto rfl (List.mem_cons_of_mem _ List.mem_cons_self) hc False.elim
    (.step rfl (.plain rfl) (.fall (by decide) False.elim
      (.step rfl (.plain rfl) (.leave rfl trivial False.elim))))

/-- **A fallthrough that is not recorded hides a read.**  The rounds end at once, and the contract
of the function does not list r14, which a run reads before it writes it. -/
theorem fallthrough_unsound : EndsAt noThunks fallthrough noExternals 0 ∧
    Exec noThunks fallthrough noExternals noOutside False 0 0 0 empty fallthroughAccesses ∧
    ¬ ∃ contract, (stateBefore noThunks fallthrough noExternals 0).current[0]? = some contract ∧
      Meets Piece.tracked contract fallthroughAccesses := by
  refine ⟨by decide +kernel, fallthrough_run, ?_⟩
  rintro ⟨contract, hcontract, hmeets⟩
  have hread : ReadsFirst (.gpr 14) fallthroughAccesses :=
    ⟨[(single (.cr 0), empty), (single (.gpr 3), single (.gpr 4))], _, _, rfl, by decide, by decide⟩
  have hmask : (stateBefore noThunks fallthrough noExternals 0).current.map
      (fun c => c.readBeforeWrite.has (.gpr 14)) = [false] := by decide +kernel
  have hmem := hmeets.reads (.gpr 14) rfl hread
  have hnone := congrArg (·[0]?) hmask
  simp [hcontract, hmem] at hnone

end DolTranslator.Abi
