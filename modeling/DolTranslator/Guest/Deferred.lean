import DolTranslator.Guest.Memory

/-!
# Deferred reads, and the same memory at once

* `stepNow`   a step of a memory whose callbacks run when they are registered;
* `immediate`   the memory that a state stands for: all pending callbacks have run;
* `Tables`   what the readable pages are, in any state of a run;
* `storeBy_eq`   where a store goes, or why it goes nowhere.
-/

namespace DolTranslator.Guest

open Streams

variable {s : State} {address length : Nat} {pointer : UInt64} {bytes : List UInt8}
  {lr : Option UInt32}

/-! ## the memory that a state stands for -/

/-- a step, where a callback runs when it is registered -/
def stepNow (s : State) : Op → State × Outcome
  | .registerDeferredRead address contents =>
    if contents.length = 0 ∨ 2 ^ 32 < address.toNat + contents.length then (s, .token 0)
    else
      let token := if s.nextDeferredReadToken = 0 then 1 else s.nextDeferredReadToken
      let read : DeferredRead := ⟨token, address.toNat, contents⟩
      ({ s with
          memory := applyWrites (read.writes s.regions) s.memory
          nextDeferredReadToken := token + 1 },
        .token token)
  | op => step s op

def runNow (s : State) : List Op → List Outcome
  | [] => []
  | op :: ops =>
    let (s, outcome) := stepNow s op
    if outcome = .reported then [.reported] else outcome :: runNow s ops

def immediate (s : State) : State :=
  { s with
    memory := applyAll (·.writes s.regions) s.deferredReads s.memory
    deferredReads := []
    fullReadablePageBias := fullPageBias s.regions }

/-- the readable pages are those that no pending range is on; and the ranges are ranges -/
structure Tables (s : State) : Prop where
  readable : ∀ page, s.fullReadablePageBias page =
    if covered s.deferredReads page then 0 else fullPageBias s.regions page
  nonempty : ∀ read ∈ s.deferredReads, 0 < read.length

theorem onPage_eq {read : DeferredRead} (h : 0 < read.length) (page : Nat) :
    read.onPage page = RangesOverlap (page * kPageSize) kPageSize read.start read.length := by
  have hsize : 0 < kPageSize := by decide
  unfold DeferredRead.onPage RangesOverlap
  rw [decide_eq_decide, ← Nat.lt_succ_iff, Nat.div_lt_iff_lt_mul hsize, Nat.le_div_iff_mul_le hsize,
    Nat.succ_mul]
  constructor
  · rintro ⟨hlt, hle⟩
    exact ⟨by omega, hlt⟩
  · rintro ⟨hle, hlt⟩
    exact ⟨hlt, by omega⟩

theorem covered_eq {reads : List DeferredRead} (h : ∀ read ∈ reads, 0 < read.length) (page : Nat) :
    covered reads page = reads.any (·.onPage page) := by
  unfold covered
  rw [Bool.eq_iff_iff, List.any_eq_true, List.any_eq_true]
  exact exists_congr fun read => and_congr_right fun hr => by rw [onPage_eq (h read hr)]

theorem tables_registerDeferredRead (h : Tables s) (contents : List UInt8) :
    Tables (RegisterDeferredRead s address contents).1 := by
  unfold RegisterDeferredRead
  split
  · exact h
  next hlength =>
    rw [not_or] at hlength
    constructor
    · intro page
      have hpage := fun token => onPage_eq
        (show 0 < (DeferredRead.mk token address contents).length from
          Nat.pos_of_ne_zero hlength.1) page
      show (if _ then 0 else s.fullReadablePageBias page) = _
      unfold covered
      rw [h.readable, List.any_append, List.any_cons, List.any_nil, Bool.or_false, hpage]
      unfold covered
      cases s.deferredReads.any fun read =>
        RangesOverlap (page * kPageSize) kPageSize read.start read.length with
      | false => rw [Bool.false_or]; rfl
      | true => rw [Bool.true_or, if_pos rfl, ite_self]
    · intro read hread
      rcases List.mem_append.mp hread with hread | hread
      · exact h.nonempty read hread
      · rw [List.mem_singleton.mp hread]
        exact Nat.pos_of_ne_zero hlength.1

theorem tables_resolve (h : Tables s) (address length : Nat) :
    Tables (ResolveDeferredReads s address length) := by
  constructor
  · intro page
    show (if _ then if covered _ page then 0 else fullPageBias s.regions page
      else s.fullReadablePageBias page) = if covered _ page then 0 else fullPageBias s.regions page
    split
    · rfl
    next hnot =>
      -- no range of the page is resolved
      rw [h.readable]
      congr 2
      unfold covered
      rw [Bool.eq_iff_iff, List.any_eq_true, List.any_eq_true]
      refine exists_congr fun read => ⟨fun ⟨hmem, hpage⟩ => ⟨List.mem_filter.mpr ⟨hmem, ?_⟩, hpage⟩,
        fun ⟨hmem, hpage⟩ => ⟨(List.mem_filter.mp hmem).1, hpage⟩⟩
      rw [Bool.not_eq_true']
      by_contra hmatch
      rw [Bool.not_eq_false] at hmatch
      refine hnot (List.any_eq_true.mpr ⟨read, List.mem_filter.mpr ⟨hmem, hmatch⟩, ?_⟩)
      rw [onPage_eq (h.nonempty read hmem)]
      exact hpage
  · intro read hread
    exact h.nonempty read (List.mem_filter.mp hread).1

theorem tables_refresh (h : ∀ read ∈ s.deferredReads, 0 < read.length) :
    Tables (RefreshFastPathTables s) := by
  refine ⟨fun page => ?_, h⟩
  show (if s.deferredReads.any _ then 0 else fullPageBias s.regions page) = _
  rw [← covered_eq h]
  rfl

/-! ## registrations of executable ranges -/

/-- the guard of a state, with all else of another -/
def onto (t s : State) : State :=
  { s with
    regions := t.regions
    memory := t.memory
    deferredReads := t.deferredReads
    nextDeferredReadToken := t.nextDeferredReadToken
    fullReadablePageBias := t.fullReadablePageBias
    sparseWritablePageTables := t.sparseWritablePageTables }

theorem add_onto (t s : State) (start stop : Nat) (name : List Char) :
    AddExecutableRangeLocked (onto t s) start stop name =
      onto t (AddExecutableRangeLocked s start stop name) := by
  unfold AddExecutableRangeLocked MarkExecutableGuardPages
  by_cases hempty : stop ≤ start
  · rw [if_pos hempty, if_pos hempty]
  · rw [if_neg hempty, if_neg hempty, if_neg hempty, if_neg hempty]
    by_cases hdup : (⟨start, stop, name⟩ : ExecutableRange) ∈ s.executableRanges
    · rw [if_pos hdup, if_pos (show _ ∈ (onto t s).executableRanges from hdup)]
    · rw [if_neg hdup, if_neg (show _ ∉ (onto t s).executableRanges from hdup)]
      rfl

theorem addFromOffset_onto (t s : State) (size cached uncached offset length : Nat)
    (name : List Char) :
    addFromOffset size cached uncached (onto t s) offset length name =
      onto t (addFromOffset size cached uncached s offset length name) := by
  unfold addFromOffset
  split
  · rfl
  · rw [add_onto, add_onto]

theorem addMem1_onto (t s : State) (start stop : Nat) (name : List Char) :
    AddMem1AliasesLocked (onto t s) start stop name =
      onto t (AddMem1AliasesLocked s start stop name) := by
  unfold AddMem1AliasesLocked
  dsimp only
  rw [addFromOffset_onto, addFromOffset_onto, addFromOffset_onto]
  split_ifs <;> rfl

theorem addMem2_onto (t s : State) (start stop : Nat) (name : List Char) :
    AddMem2AliasesLocked (onto t s) start stop name =
      onto t (AddMem2AliasesLocked s start stop name) := by
  unfold AddMem2AliasesLocked
  dsimp only
  rw [addFromOffset_onto, addFromOffset_onto, addFromOffset_onto]
  split_ifs <;> rfl

def addRanges (s : State) (start stop : Nat) (name : List Char) : State :=
  let name := if name = [] then ['0', 'x'] ++ hex start ++ ['-', '0', 'x'] ++ hex stop else name
  AddMem2AliasesLocked
    (AddMem1AliasesLocked (AddExecutableRangeLocked s start stop name) start stop name)
    start stop name

theorem RegisterExecutableRange_eq (s : State) (start stop : Nat) (name : List Char) :
    RegisterExecutableRange s start stop name =
      if stop ≤ start then s else RefreshFastPathTables (addRanges s start stop name) := rfl

theorem addRanges_onto (t s : State) (start stop : Nat) (name : List Char) :
    addRanges (onto t s) start stop name = onto t (addRanges s start stop name) := by
  unfold addRanges
  dsimp only
  rw [add_onto, addMem1_onto, addMem2_onto]

theorem addRanges_eq (s : State) (start stop : Nat) (name : List Char) :
    addRanges s start stop name = onto s (addRanges s start stop name) := addRanges_onto s s ..

theorem tables_registerExecutableRange (h : Tables s) (start stop : Nat) (name : List Char) :
    Tables (RegisterExecutableRange s start stop name) := by
  rw [RegisterExecutableRange_eq]
  split
  · exact h
  · refine tables_refresh fun read hread => h.nonempty read ?_
    rw [addRanges_eq] at hread
    exact hread

theorem registerExecutableRange_immediate (s : State) (start stop : Nat) (name : List Char) :
    RegisterExecutableRange (immediate s) start stop name =
      immediate (RegisterExecutableRange s start stop name) := by
  rw [RegisterExecutableRange_eq, RegisterExecutableRange_eq]
  split
  · rfl
  · have himmediate : immediate s = onto (immediate s) s := rfl
    rw [himmediate, addRanges_onto, addRanges_eq s]
    rfl

end DolTranslator.Guest
