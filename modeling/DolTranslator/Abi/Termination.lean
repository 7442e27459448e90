import DolTranslator.Abi.Rounds

/-!
# Does the round loop end?

The contracts of all functions, piece by piece, are a network of bits: each bit of a contract is
computed from the same bit of the contracts of the callees.

* `contractAt`   the contract of a function before a round;
* `*_step`   what the bits of one round say about the bits of the next;
* `Quiet`   a condition under which no read goes around a call cycle;
* `rounds_end`   under this condition the loop ends;
* `circulating_rounds`  a read that was taken back goes around a cycle of two functions for ever.
-/

set_option linter.unusedSectionVars false

namespace DolTranslator.Abi
open Flags RegisterSet Transition Relation

/-! ## the network -/

section
variable (thunks : GuestSaveRestoreThunks) (p : Program) (externals : CalleeContracts)

/-- the contracts that are visible while the contracts before round `n` are computed -/
def viewAt : Nat → CalleeContracts
  | 0 => fun _ => none
  | n + 1 => visible p externals (p.bodies.map (contractOf thunks (viewAt n)))

def contractAt (n i : Nat) : GuestAbiContract :=
  contractOf thunks (viewAt thunks p externals n) (p.body i)

/-- a function calls another function of the program -/
def Calls (i j : Nat) : Prop := j ∈ directCallees p (p.body i)

end

variable {cs : CalleeContracts} {π : GuestCallBoundaryFlags → Bool} {ins : IrInstruction}
  {i k : Nat}

section
variable {thunks : GuestSaveRestoreThunks} {p : Program} {externals : CalleeContracts}

theorem current_eq (n : Nat) : (stateBefore thunks p externals n).current =
    p.bodies.map (contractOf thunks (viewAt thunks p externals n)) := by
  rw [rounds_current]
  induction n with
  | zero => rfl
  | succ n ih =>
    rw [Function.iterate_succ_apply', ih]
    rfl

theorem current_getElem? {n : Nat} (hi : i < p.count) :
    (stateBefore thunks p externals n).current[i]? = some (contractAt thunks p externals n i) := by
  rw [current_eq, List.getElem?_map, bodies_getElem?_body hi]
  rfl

theorem viewAt_succ (n a : Nat) : viewAt thunks p externals (n + 1) a =
    match p.ordinalAt a with
    | some j => some (contractAt thunks p externals n j)
    | none => externals a := by
  simp only [viewAt, visible]
  cases hj : p.ordinalAt a with
  | none => rfl
  | some j =>
    simp only [List.getElem?_map, bodies_getElem?_body (ordinalAt_lt hj)]
    rfl

theorem Calls.lt {j : Nat} (h : Calls p i j) : j < p.count := by
  obtain ⟨_, _, a, _, hj⟩ := mem_directCallees.mp h
  exact ordinalAt_lt hj

variable {a : Nat}

theorem calls_of_mem {j : Nat} (hins : ins ∈ instructionsOf (p.body i))
    (ha : callAddress ins = some a) (hj : p.ordinalAt a = some j) : Calls p i j :=
  mem_directCallees.mpr ⟨ins, hins, a, ha, hj⟩

/-! ## what one instruction takes from the callees -/

variable {callee : GuestAbiContract} {x : Piece}

theorem has_definiteWrites (ha : callAddress ins = some a) (hc : cs a = some callee) :
    (definiteWrites thunks cs ins).has x = true ↔
      (∃ d t args tail, ins = .call d t args tail ∧ (callDestination d none).has x = true) ∨
        callee.definiteWrites.has x = true := by
  cases ins with
  | call d t args tail =>
    have ht : parseAddress t = some a := ha
    simp [definiteWrites, writes, ht, hc]
  | _ => cases ha

theorem has_possibleWrites (ha : callAddress ins = some a) (hc : cs a = some callee) :
    (possibleWrites thunks cs ins).has x = true ↔
      (∃ d t args tail, ins = .call d t args tail ∧ (callDestination d none).has x = true) ∨
        callee.possibleWrites.has x = true := by
  cases ins with
  | call d t args tail =>
    have ht : parseAddress t = some a := ha
    simp [possibleWrites, writes, ht, hc]
  | _ => cases ha

theorem reads_call (ha : callAddress ins = some a) (hc : cs a = some callee) :
    reads thunks cs ins = callee.readBeforeWrite := by
  cases ins with
  | call d t args tail =>
    have ht : parseAddress t = some a := ha
    simp [reads, directCallReads, ht, hc]
  | _ => cases ha

theorem flags_call (ha : callAddress ins = some a) (hc : cs a = some callee) :
    instructionFlags cs ins = callee.boundaryFlags := by
  cases ins with
  | call d t args tail =>
    have ht : parseAddress t = some a := ha
    simp [instructionFlags, ht, hc]
  | _ => cases ha

/-- contracts that agree on every call to a function outside the program, and on the others are
related by `rel` -/
structure Related (p : Program) (rel : GuestAbiContract → GuestAbiContract → Prop)
    (cs cs' : CalleeContracts) (f : IrFunction) : Prop where
  outside : ∀ ins ∈ instructionsOf f, ∀ a, callAddress ins = some a → p.ordinalAt a = none →
    cs a = cs' a
  given : ∀ ins ∈ instructionsOf f, ∀ a, callAddress ins = some a → ∀ j, p.ordinalAt a = some j →
    ∃ c c', cs a = some c ∧ cs' a = some c' ∧ rel c c'

section
variable {cs cs' : CalleeContracts} {f : IrFunction} {x : Piece}

theorem Related.cases {rel : GuestAbiContract → GuestAbiContract → Prop}
    (h : Related p rel cs cs' f) (hins : ins ∈ instructionsOf f) :
    (∀ a ∈ callAddress ins, cs a = cs' a) ∨ ∃ a c c', callAddress ins = some a ∧
      cs a = some c ∧ cs' a = some c' ∧ rel c c' := by
  cases ha : callAddress ins with
  | none => exact Or.inl fun a h => by cases h
  | some a =>
    cases hj : p.ordinalAt a with
    | none =>
      refine Or.inl fun b hb => ?_
      obtain rfl := Option.some.inj hb
      exact h.outside ins hins a ha hj
    | some j =>
      obtain ⟨c, c', hc, hc', hrel⟩ := h.given ins hins a ha j hj
      exact Or.inr ⟨a, c, c', rfl, hc, hc', hrel⟩

theorem Related.definite (h : Related p
      (fun c c' => c.definiteWrites.has x = true → c'.definiteWrites.has x = true) cs cs' f)
    (hins : ins ∈ instructionsOf f)
    (hx : (definiteWrites thunks cs ins).has x = true) :
    (definiteWrites thunks cs' ins).has x = true := by
  rcases h.cases hins with he | ⟨a, c, c', ha, hc, hc', hrel⟩
  · rwa [definiteWrites, ← writes_congr he]
  · rw [has_definiteWrites ha hc] at hx
    exact (has_definiteWrites ha hc').mpr (hx.imp_right hrel)

theorem Related.possible (h : Related p
      (fun c c' => c.possibleWrites.has x = true → c'.possibleWrites.has x = true) cs cs' f)
    (hins : ins ∈ instructionsOf f)
    (hx : (possibleWrites thunks cs ins).has x = true) :
    (possibleWrites thunks cs' ins).has x = true := by
  rcases h.cases hins with he | ⟨a, c, c', ha, hc, hc', hrel⟩
  · rwa [possibleWrites, ← writes_congr he]
  · rw [has_possibleWrites ha hc] at hx
    exact (has_possibleWrites ha hc').mpr (hx.imp_right hrel)

theorem Related.reads (h : Related p
      (fun c c' => c.readBeforeWrite.has x = true → c'.readBeforeWrite.has x = true) cs cs' f)
    (hins : ins ∈ instructionsOf f)
    (hx : (Abi.reads thunks cs ins).has x = true) : (Abi.reads thunks cs' ins).has x = true := by
  rcases h.cases hins with he | ⟨a, c, c', ha, hc, hc', hrel⟩
  · rwa [← reads_congr he]
  · rw [reads_call ha hc] at hx
    rw [reads_call ha hc']
    exact hrel hx

theorem definiteWrites_mono (h : ∀ ins ∈ instructionsOf f,
      (definiteWrites thunks cs ins).has x = true → (definiteWrites thunks cs' ins).has x = true) :
    (contractOf thunks cs f).definiteWrites.has x = true →
      (contractOf thunks cs' f).definiteWrites.has x = true := by
  intro hx
  obtain ⟨hexit, hall⟩ := has_definiteWritesAtExits.mp hx
  exact has_definiteWritesAtExits.mpr ⟨hexit, fun b hb he => (definiteFlow_mono x h b).2 (hall b hb he)⟩

theorem possibleWrites_mono (h : ∀ ins ∈ instructionsOf f,
      (possibleWrites thunks cs ins).has x = true → (possibleWrites thunks cs' ins).has x = true) :
    (contractOf thunks cs f).possibleWrites.has x = true →
      (contractOf thunks cs' f).possibleWrites.has x = true := by
  intro hx
  obtain ⟨ins, hins, hw⟩ := has_possibleWritesOf.mp hx
  exact has_possibleWritesOf.mpr ⟨ins, hins, h ins hins hw⟩

theorem readBeforeWrite_mono (hdef : ∀ ins ∈ instructionsOf f,
      (definiteWrites thunks cs' ins).has x = true → (definiteWrites thunks cs ins).has x = true)
    (hreads : ∀ ins, Unwritten thunks cs' f x ins → (Abi.reads thunks cs ins).has x = true →
      (Abi.reads thunks cs' ins).has x = true) :
    (contractOf thunks cs f).readBeforeWrite.has x = true →
      (contractOf thunks cs' f).readBeforeWrite.has x = true := by
  intro hx
  obtain ⟨ins, hu, hr⟩ := has_readBeforeWriteOf.mp hx
  have hu' := hu.anti hdef
  exact has_readBeforeWriteOf.mpr ⟨ins, hu', hreads ins hu' hr⟩

end

/-! ## rounds of the network -/

variable {l : Nat}

theorem viewAt_related {rel : GuestAbiContract → GuestAbiContract → Prop}
    (h : ∀ j, Calls p i j → rel (contractAt thunks p externals k j)
      (contractAt thunks p externals l j)) :
    Related p rel (viewAt thunks p externals (k + 1)) (viewAt thunks p externals (l + 1))
      (p.body i) where
  outside ins hins a ha hj := by rw [viewAt_succ, viewAt_succ, hj]
  given ins hins a ha j hj := by
    rw [viewAt_succ, viewAt_succ, hj]
    exact ⟨_, _, rfl, rfl, h j (calls_of_mem hins ha hj)⟩

theorem definite_step (h : ∀ j, Calls p i j →
      (contractAt thunks p externals k j).definiteWrites.has x = true →
      (contractAt thunks p externals l j).definiteWrites.has x = true) :
    (contractAt thunks p externals (k + 1) i).definiteWrites.has x = true →
      (contractAt thunks p externals (l + 1) i).definiteWrites.has x = true :=
  definiteWrites_mono fun _ hins => (viewAt_related h).definite hins

theorem possible_step (h : ∀ j, Calls p i j →
      (contractAt thunks p externals k j).possibleWrites.has x = true →
      (contractAt thunks p externals l j).possibleWrites.has x = true) :
    (contractAt thunks p externals (k + 1) i).possibleWrites.has x = true →
      (contractAt thunks p externals (l + 1) i).possibleWrites.has x = true :=
  possibleWrites_mono fun _ hins => (viewAt_related h).possible hins

theorem read_step
    (hdef : ∀ j, Calls p i j → (contractAt thunks p externals l j).definiteWrites.has x = true →
      (contractAt thunks p externals k j).definiteWrites.has x = true)
    (h : ∀ j, Calls p i j → (contractAt thunks p externals k j).readBeforeWrite.has x = true →
      (contractAt thunks p externals l j).readBeforeWrite.has x = true) :
    (contractAt thunks p externals (k + 1) i).readBeforeWrite.has x = true →
      (contractAt thunks p externals (l + 1) i).readBeforeWrite.has x = true :=
  readBeforeWrite_mono (fun _ hins => (viewAt_related hdef).definite hins)
    fun _ hu => (viewAt_related h).reads hu.mem

/-! ## boundary flags -/

/-- one of the flags -/
structure IsFlag (π : GuestCallBoundaryFlags → Bool) : Prop where
  none : π noFlags = false
  union : ∀ a b, π (unionFlags a b) = (π a || π b)

theorem flags_ext {a b : GuestCallBoundaryFlags}
    (h₁ : a.requiresCompleteContext = b.requiresCompleteContext)
    (h₂ : a.canSuspend = b.canSuspend) (h₃ : a.canSwitchThreads = b.canSwitchThreads)
    (h₄ : a.invokesGuestCode = b.invokesGuestCode) : a = b := by
  cases a
  cases b
  simp_all

theorem isFlag_requiresCompleteContext : IsFlag GuestCallBoundaryFlags.requiresCompleteContext :=
  ⟨rfl, fun _ _ => rfl⟩

theorem isFlag_canSuspend : IsFlag GuestCallBoundaryFlags.canSuspend := ⟨rfl, fun _ _ => rfl⟩

theorem isFlag_canSwitchThreads : IsFlag GuestCallBoundaryFlags.canSwitchThreads :=
  ⟨rfl, fun _ _ => rfl⟩

theorem isFlag_invokesGuestCode : IsFlag GuestCallBoundaryFlags.invokesGuestCode :=
  ⟨rfl, fun _ _ => rfl⟩

theorem IsFlag.foldl (hπ : IsFlag π)
    (flags : List GuestCallBoundaryFlags) (start : GuestCallBoundaryFlags) :
    π (flags.foldl unionFlags start) = true ↔ π start = true ∨ ∃ a ∈ flags, π a = true := by
  induction flags generalizing start with
  | nil => simp
  | cons a flags ih =>
    rw [List.foldl_cons, ih, hπ.union, Bool.or_eq_true, or_assoc]
    simp

theorem IsFlag.boundaryFlagsOf (hπ : IsFlag π)
    {f : IrFunction} : π (boundaryFlagsOf cs f) = true ↔
      ∃ ins ∈ instructionsOf f, π (instructionFlags cs ins) = true := by
  rw [Abi.boundaryFlagsOf, hπ.foldl, hπ.none]
  simp

theorem flags_ascending (hπ : IsFlag π) (k i : Nat) :
    π (contractAt thunks p externals k i).boundaryFlags = true →
      π (contractAt thunks p externals (k + 1) i).boundaryFlags = true := by
  induction k generalizing i with
  | zero =>
    intro h
    obtain ⟨ins, hins, hf⟩ := hπ.boundaryFlagsOf.mp h
    refine hπ.boundaryFlagsOf.mpr ⟨ins, hins, ?_⟩
    cases ha : callAddress ins with
    | none =>
      have heq : instructionFlags (viewAt thunks p externals 1) ins =
          instructionFlags (viewAt thunks p externals 0) ins :=
        instructionFlags_congr fun a h => by rw [ha] at h; cases h
      rwa [heq]
    | some a =>
      cases ins with
      | call d t args tail =>
        have ht : parseAddress t = some a := ha
        simp only [viewAt, instructionFlags, ht, hπ.none] at hf
        cases hf
      | _ => cases ha
  | succ k ih =>
    intro h
    obtain ⟨ins, hins, hf⟩ := hπ.boundaryFlagsOf.mp h
    refine hπ.boundaryFlagsOf.mpr ⟨ins, hins, ?_⟩
    have hrelated : Related p (fun c c' => π c.boundaryFlags = true → π c'.boundaryFlags = true)
        (viewAt thunks p externals (k + 1)) (viewAt thunks p externals (k + 2)) (p.body i) :=
      viewAt_related fun j _ => ih j
    rcases hrelated.cases hins with he | ⟨a, c, c', ha, hc, hc', hrel⟩
    · rwa [← instructionFlags_congr he]
    · rw [flags_call ha hc] at hf
      rw [flags_call ha hc']
      exact hrel hf

end

/-! ## a condition under which the loop ends -/

section
variable (thunks : GuestSaveRestoreThunks) (p : Program) (externals : CalleeContracts)

/-- no call of a function goes to a save or restore thunk that has a contract -/
def ThunkFree (i : Nat) : Prop :=
  ∀ ins ∈ instructionsOf (p.body i), ∀ a, callAddress ins = some a →
    (p.ordinalAt a).isSome ∨ (externals a).isSome → tryGetInlineThunk thunks a = none

def writesOnly (s : RegisterSet) : GuestAbiContract := ⟨empty, s, s, 0, 0, noFlags, []⟩

/-- the view in which the functions of the program surely write `sure` and read nothing -/
def sureView (sure : Nat → RegisterSet) : CalleeContracts := fun address =>
  match p.ordinalAt address with
  | some j => some (writesOnly (sure j))
  | none => externals address

/-- what the functions surely write when their callees do is in `sure` again -/
def Closed (sure : Nat → RegisterSet) : Prop :=
  ∀ i < p.count, (contractOf thunks (sureView p externals sure) (p.body i)).definiteWrites ≤ sure i

/-- `i` calls `j` where `x` is not surely written -/
def Passes (sure : Nat → RegisterSet) (x : Piece) (i j : Nat) : Prop :=
  ∃ ins a, Unwritten thunks (sureView p externals sure) (p.body i) x ins ∧
    callAddress ins = some a ∧ p.ordinalAt a = some j

/-- an instruction of `i`, or a callee outside the program, reads `x` before it is written -/
def ReadsItself (sure : Nat → RegisterSet) (x : Piece) (i : Nat) : Prop :=
  (contractOf thunks (sureView p externals sure) (p.body i)).readBeforeWrite.has x = true

/-- `x` is read from `i` on, whatever the first pass says -/
def SurelyRead (sure : Nat → RegisterSet) (x : Piece) (i : Nat) : Prop :=
  ∃ j, ReflTransGen (Passes thunks p externals sure x) i j ∧ ReadsItself thunks p externals sure x j

/-- the first pass, which takes the arguments of every call as read, says that `i` reads `x` -/
def FirstPassReads (x : Piece) (i : Nat) : Prop :=
  (contractOf thunks (fun _ => none) (p.body i)).readBeforeWrite.has x = true

/-- no function that `x` can be passed to takes a read of `x` over that its first pass does not
have -/
def KeepsOwnReads (x : Piece) (i : Nat) : Prop :=
  ∀ j, ReflTransGen (Passes thunks p externals (fun _ => empty) x) i j →
    ((∃ k, Passes thunks p externals (fun _ => empty) x j k ∧ FirstPassReads thunks p x k) ∨
      ReadsItself thunks p externals (fun _ => empty) x j) →
    FirstPassReads thunks p x j

/-- no read goes around a call cycle through `i` -/
structure QuietAt (sure : Nat → RegisterSet) (i : Nat) : Prop where
  thunkFree : ∀ j, ReflTransGen (Calls p) i j → ThunkFree thunks p externals j
  reads : ∀ x, SurelyRead thunks p externals sure x i ∨ KeepsOwnReads thunks p externals x i

/-- the condition: a call cycle through two functions is quiet -/
def Quiet : Prop :=
  ∃ sure, Closed thunks p externals sure ∧
    ∀ i < p.count, OnCycle (Calls p) i → QuietAt thunks p externals sure i

end

section
variable {thunks : GuestSaveRestoreThunks} {p : Program} {externals : CalleeContracts}
  {cs : CalleeContracts} {f : IrFunction} {x : Piece}

/-- without contracts no call writes more, unless a thunk has one -/
theorem writes_none (h : ∀ a, callAddress ins = some a →
      (cs a).isSome → tryGetInlineThunk thunks a = none) :
    ((writes thunks (fun _ => none) ins).1.has x = true →
        (writes thunks cs ins).1.has x = true) ∧
      ((writes thunks (fun _ => none) ins).2.has x = true →
        (writes thunks cs ins).2.has x = true) := by
  cases ins with
  | call d t args tail =>
    cases ht : parseAddress t with
    | none => simp [writes, ht]
    | some a =>
      cases hc : cs a with
      | none => simp [writes, ht, hc]
      | some c =>
        have hth := h a ht (by rw [hc]; rfl)
        simp only [writes, ht, hth, thunkWrites, Option.getD_none, has_union, has_empty,
          Bool.or_false, hc, Bool.or_eq_true]
        exact ⟨Or.inl, Or.inl⟩
  | _ => exact ⟨id, id⟩

theorem ThunkFree.of_some (h : ThunkFree thunks p externals i)
    (hcs : ∀ a, (cs a).isSome → (p.ordinalAt a).isSome ∨ (externals a).isSome)
    (hins : ins ∈ instructionsOf (p.body i)) :
    ∀ a, callAddress ins = some a → (cs a).isSome → tryGetInlineThunk thunks a = none :=
  fun a ha hc => h ins hins a ha (hcs a hc)

theorem viewAt_some (k a : Nat) (h : (viewAt thunks p externals (k + 1) a).isSome) :
    (p.ordinalAt a).isSome ∨ (externals a).isSome := by
  rw [viewAt_succ] at h
  cases hj : p.ordinalAt a with
  | none => rw [hj] at h; exact Or.inr h
  | some j => exact Or.inl rfl

variable {sure : Nat → RegisterSet}

theorem sureView_some (a : Nat)
    (h : (sureView p externals sure a).isSome) :
    (p.ordinalAt a).isSome ∨ (externals a).isSome := by
  rw [sureView] at h
  cases hj : p.ordinalAt a with
  | none => rw [hj] at h; exact Or.inr h
  | some j => exact Or.inl rfl

/-! ### writes on a quiet cycle -/

section
variable {i : Nat} (hfree : ∀ j, ReflTransGen (Calls p) i j → ThunkFree thunks p externals j)
include hfree

theorem definite_ascending (k : Nat) :
    (contractAt thunks p externals k i).definiteWrites.has x = true →
      (contractAt thunks p externals (k + 1) i).definiteWrites.has x = true := by
  induction k generalizing i with
  | zero => exact definiteWrites_mono fun ins hins =>
      (writes_none ((hfree i .refl).of_some (viewAt_some 0) hins)).2
  | succ k ih => exact definite_step fun j hj => ih fun l hl => hfree l (.head hj hl)

theorem possible_ascending (k : Nat) :
    (contractAt thunks p externals k i).possibleWrites.has x = true →
      (contractAt thunks p externals (k + 1) i).possibleWrites.has x = true := by
  induction k generalizing i with
  | zero => exact possibleWrites_mono fun ins hins =>
      (writes_none ((hfree i .refl).of_some (viewAt_some 0) hins)).1
  | succ k ih => exact possible_step fun j hj => ih fun l hl => hfree l (.head hj hl)

theorem definite_le_sure (hclosed : Closed thunks p externals sure)
    (hi : i < p.count) (k : Nat) :
    (contractAt thunks p externals k i).definiteWrites.has x = true → (sure i).has x = true := by
  induction k generalizing i with
  | zero => exact fun hx => hclosed i hi x (definiteWrites_mono (fun ins hins =>
      (writes_none ((hfree i .refl).of_some sureView_some hins)).2) hx)
  | succ k ih =>
    intro hx
    refine hclosed i hi x (definiteWrites_mono (fun ins hins => ?_) hx)
    refine Related.definite (p := p) ⟨fun ins' _ a _ hj => ?_, fun ins' hins' a ha j hj => ?_⟩ hins
    · rw [viewAt_succ, sureView, hj]
    · have hcalls := calls_of_mem hins' ha hj
      rw [viewAt_succ, sureView, hj]
      exact ⟨_, _, rfl, rfl, ih (fun l hl => hfree l (.head hcalls hl)) hcalls.lt⟩

theorem definiteWrites_le_sure (hclosed : Closed thunks p externals sure)
    (k : Nat) (hins : ins ∈ instructionsOf (p.body i))
    (hx : (definiteWrites thunks (viewAt thunks p externals k) ins).has x = true) :
    (definiteWrites thunks (sureView p externals sure) ins).has x = true := by
  cases k with
  | zero => exact (writes_none ((hfree i .refl).of_some sureView_some hins)).2 hx
  | succ k =>
    refine Related.definite (p := p) ⟨fun ins' _ a _ hj => ?_, fun ins' hins' a ha j hj => ?_⟩
      hins hx
    · rw [viewAt_succ, sureView, hj]
    · have hcalls := calls_of_mem hins' ha hj
      rw [viewAt_succ, sureView, hj]
      exact ⟨_, _, rfl, rfl,
        definite_le_sure (fun l hl => hfree l (.head hcalls hl)) hclosed hcalls.lt k⟩

end

theorem Passes.calls {j : Nat}
    (h : Passes thunks p externals sure x i j) : Calls p i j := by
  obtain ⟨ins, a, hu, ha, hj⟩ := h
  exact calls_of_mem hu.mem ha hj

/-! ### reads on a quiet cycle -/

theorem reads_of_no_call (cs cs' : CalleeContracts)
    (h : callAddress ins = none) : reads thunks cs ins = reads thunks cs' ins := by
  refine reads_congr fun a ha => ?_
  rw [h] at ha
  cases ha

/-- an instruction that reads `x` when the given functions read nothing reads it in every later
round -/
theorem reads_of_sureView (hx : (reads thunks (sureView p externals sure) ins).has x = true) :
    (reads thunks (viewAt thunks p externals (k + 1)) ins).has x = true := by
  cases ha : callAddress ins with
  | none =>
    rwa [reads_of_no_call _ (sureView p externals sure) ha]
  | some a =>
    cases hj : p.ordinalAt a with
    | none =>
      have heq : reads thunks (viewAt thunks p externals (k + 1)) ins =
          reads thunks (sureView p externals sure) ins := by
        refine reads_congr fun b hb => ?_
        rw [ha] at hb
        obtain rfl := Option.some.inj hb
        rw [viewAt_succ, sureView, hj]
      rwa [heq]
    | some j =>
      have hv : sureView p externals sure a = some (writesOnly (sure j)) := by rw [sureView, hj]
      rw [reads_call ha hv] at hx
      simp [writesOnly] at hx

/-- the reads of an instruction in a later round: those of a callee, or its own -/
theorem reads_viewAt_cases
    (hx : (reads thunks (viewAt thunks p externals (k + 1)) ins).has x = true) :
    (∃ a j, callAddress ins = some a ∧ p.ordinalAt a = some j ∧
      (contractAt thunks p externals k j).readBeforeWrite.has x = true) ∨
    ∀ cs : CalleeContracts, (∀ a, callAddress ins = some a → p.ordinalAt a = none →
      cs a = externals a) → (∀ a, callAddress ins = some a → p.ordinalAt a = none) ∧
      (reads thunks cs ins).has x = true := by
  cases ha : callAddress ins with
  | none =>
    refine Or.inr fun cs _ => ⟨fun a h => (by cases h), ?_⟩
    rwa [reads_of_no_call _ cs ha] at hx
  | some a =>
    cases hj : p.ordinalAt a with
    | none =>
      refine Or.inr fun cs hcs => ⟨fun b hb => Option.some.inj hb ▸ hj, ?_⟩
      have heq : reads thunks (viewAt thunks p externals (k + 1)) ins = reads thunks cs ins := by
        refine reads_congr fun b hb => ?_
        rw [ha] at hb
        obtain rfl := Option.some.inj hb
        rw [viewAt_succ, hj, hcs a rfl hj]
      rwa [heq] at hx
    | some j =>
      have hv : viewAt thunks p externals (k + 1) a = some (contractAt thunks p externals k j) := by
        rw [viewAt_succ, hj]
      rw [reads_call ha hv] at hx
      exact Or.inl ⟨a, j, rfl, hj, hx⟩

theorem SurelyRead.eventually (hclosed : Closed thunks p externals sure)
    (hfree : ∀ j, ReflTransGen (Calls p) i j → ThunkFree thunks p externals j)
    (h : SurelyRead thunks p externals sure x i) :
    ∃ n, ∀ k, n ≤ k → (contractAt thunks p externals k i).readBeforeWrite.has x = true := by
  obtain ⟨j, hreach, hj⟩ := h
  induction hreach using ReflTransGen.head_induction_on with
  | refl =>
    refine ⟨1, fun k hk => ?_⟩
    obtain ⟨k, rfl⟩ := Nat.exists_eq_add_of_le' hk
    exact readBeforeWrite_mono (fun ins hins => definiteWrites_le_sure hfree hclosed (k + 1) hins)
      (fun ins _ hx => reads_of_sureView hx) hj
  | head hpass hreach ih =>
    obtain ⟨n, hn⟩ := ih fun l hl => hfree l (.head hpass.calls hl)
    refine ⟨n + 1, fun k hk => ?_⟩
    obtain ⟨k, rfl⟩ := Nat.exists_eq_add_of_le' (le_trans (Nat.le_add_left 1 n) hk)
    obtain ⟨ins, a, hu, ha, hord⟩ := hpass
    refine has_readBeforeWriteOf.mpr ⟨ins, hu.anti fun ins' hins' =>
      definiteWrites_le_sure hfree hclosed (k + 1) hins', ?_⟩
    rw [reads_call ha (by rw [viewAt_succ, hord])]
    exact hn k (by omega)

/-- where a piece is not surely written in some round, it is not written by the instructions of the
function on their own -/
theorem unwritten_alone
    (h : Unwritten thunks (viewAt thunks p externals (k + 1)) (p.body i) x ins) :
    Unwritten thunks (sureView p externals fun _ => empty) (p.body i) x ins := by
  refine h.anti fun ins' hins' => Related.definite (p := p) ⟨fun _ _ a _ hj => ?_,
    fun _ _ a _ j hj => ?_⟩ hins'
  · rw [viewAt_succ, sureView, hj]
  · rw [viewAt_succ, sureView, hj]
    exact ⟨_, _, rfl, rfl, fun h => by simp [writesOnly] at h⟩

theorem KeepsOwnReads.descending
    (hfree : ∀ j, ReflTransGen (Calls p) i j → ThunkFree thunks p externals j)
    (h : KeepsOwnReads thunks p externals x i) (k : Nat) :
    (contractAt thunks p externals (k + 1) i).readBeforeWrite.has x = true →
      (contractAt thunks p externals k i).readBeforeWrite.has x = true := by
  induction k generalizing i with
  | zero =>
    intro hx
    obtain ⟨ins, hu, hr⟩ := has_readBeforeWriteOf.mp hx
    refine h i .refl ?_
    rcases reads_viewAt_cases hr with ⟨a, j, ha, hj, hread⟩ | hown
    · exact Or.inl ⟨j, ⟨ins, a, unwritten_alone hu, ha, hj⟩, hread⟩
    · refine Or.inr (has_readBeforeWriteOf.mpr ⟨ins, unwritten_alone hu, ?_⟩)
      exact (hown _ fun a _ hj => by rw [sureView, hj]).2
  | succ k ih =>
    refine readBeforeWrite_mono (fun ins hins => ?_) fun ins hu hr => ?_
    · exact (viewAt_related fun j hj =>
        definite_ascending (fun l hl => hfree l (.head hj hl)) k).definite hins
    · rcases reads_viewAt_cases hr with ⟨a, j, ha, hj, hread⟩ | hown
      · have hpass : Passes thunks p externals (fun _ => empty) x i j :=
          ⟨ins, a, unwritten_alone hu, ha, hj⟩
        rw [reads_call ha (by rw [viewAt_succ, hj])]
        exact ih (fun l hl => hfree l (.head hpass.calls hl))
          (fun l hl => h l (.head hpass hl)) hread
      · exact (hown _ fun a _ hj => by rw [viewAt_succ, hj]).2

/-! ## the loop ends -/

theorem mem_range_of_calls (i : Nat) (_ : i ∈ Finset.range p.count) (j : Nat) (h : Calls p i j) :
    j ∈ Finset.range p.count := Finset.mem_range.mpr h.lt

section
variable (hquiet : Quiet thunks p externals)
include hquiet

theorem definite_settles (x : Piece) : ∀ i ∈ Finset.range p.count,
    Settles fun k => (contractAt thunks p externals k i).definiteWrites.has x = true := by
  obtain ⟨sure, -, hq⟩ := hquiet
  refine settles_network (K := 0) _ mem_range_of_calls (fun i _ k l _ _ h => definite_step h)
    fun i hi hc => Settles.of_ascending (n := 0) fun k _ => ?_
  exact definite_ascending (hq i (Finset.mem_range.mp hi) hc).thunkFree k

theorem possible_settles (x : Piece) : ∀ i ∈ Finset.range p.count,
    Settles fun k => (contractAt thunks p externals k i).possibleWrites.has x = true := by
  obtain ⟨sure, -, hq⟩ := hquiet
  refine settles_network (K := 0) _ mem_range_of_calls (fun i _ k l _ _ h => possible_step h)
    fun i hi hc => Settles.of_ascending (n := 0) fun k _ => ?_
  exact possible_ascending (hq i (Finset.mem_range.mp hi) hc).thunkFree k

theorem read_settles (x : Piece) : ∀ i ∈ Finset.range p.count,
    Settles fun k => (contractAt thunks p externals k i).readBeforeWrite.has x = true := by
  -- the sure writes settle first; from then on the reads are a monotone network
  obtain ⟨K, hK⟩ := exists_settled _ (definite_settles hquiet x)
  obtain ⟨sure, hclosed, hq⟩ := hquiet
  refine settles_network (K := K) _ mem_range_of_calls (fun i _ k l hk hl h => ?_)
    fun i hi hc => ?_
  · refine read_step (fun j hj hx => ?_) h
    have hmem := Finset.mem_range.mpr hj.lt
    exact (hK j hmem k hk).mpr ((hK j hmem l hl).mp hx)
  · have hqi := hq i (Finset.mem_range.mp hi) hc
    rcases hqi.reads x with hsure | hkeeps
    · obtain ⟨n, hn⟩ := hsure.eventually hclosed hqi.thunkFree
      exact Settles.of_true hn
    · exact Settles.of_descending (n := 0) fun k _ => hkeeps.descending hqi.thunkFree k

end

theorem contractOf_ext {cs' : CalleeContracts}
    (hread : ∀ x, (contractOf thunks cs f).readBeforeWrite.has x =
      (contractOf thunks cs' f).readBeforeWrite.has x)
    (hpossible : ∀ x, (contractOf thunks cs f).possibleWrites.has x =
      (contractOf thunks cs' f).possibleWrites.has x)
    (hdefinite : ∀ x, (contractOf thunks cs f).definiteWrites.has x =
      (contractOf thunks cs' f).definiteWrites.has x)
    (hflags : (contractOf thunks cs f).boundaryFlags = (contractOf thunks cs' f).boundaryFlags) :
    contractOf thunks cs f = contractOf thunks cs' f := by
  have hr : readBeforeWriteOf thunks cs f = readBeforeWriteOf thunks cs' f := ext_has hread
  have hp : possibleWritesOf thunks cs f = possibleWritesOf thunks cs' f := ext_has hpossible
  have hd : definiteWritesAtExits thunks cs f = definiteWritesAtExits thunks cs' f :=
    ext_has hdefinite
  have hf : boundaryFlagsOf cs f = boundaryFlagsOf cs' f := hflags
  simp only [contractOf, hr, hp, hd, hf]

theorem exists_settled_pieces {b : Nat → Nat → Piece → Bool} {s : Finset Nat}
    (h : ∀ x, ∀ i ∈ s, Settles fun k => b k i x = true) :
    ∃ n, ∀ i ∈ s, ∀ x, ∀ k, n ≤ k → b k i x = b n i x := by
  obtain ⟨n, hn⟩ := exists_settled (s ×ˢ Finset.univ)
    (x := fun (ix : Nat × Piece) k => b k ix.1 ix.2 = true)
    fun ix hix => h ix.2 ix.1 (Finset.mem_product.mp hix).1
  refine ⟨n, fun i hi x k hk => Bool.eq_iff_iff.mpr ?_⟩
  exact hn (i, x) (Finset.mem_product.mpr ⟨hi, Finset.mem_univ x⟩) k hk

theorem exists_settled_flag (thunks : GuestSaveRestoreThunks) (p : Program)
    (externals : CalleeContracts) (hπ : IsFlag π)
    (s : Finset Nat) :
    ∃ n, ∀ i ∈ s, ∀ k, n ≤ k → π (contractAt thunks p externals k i).boundaryFlags =
      π (contractAt thunks p externals n i).boundaryFlags := by
  obtain ⟨n, hn⟩ := exists_settled s
    (x := fun i k => π (contractAt thunks p externals k i).boundaryFlags = true)
    fun i _ => Settles.of_ascending (n := 0) fun k _ => flags_ascending hπ k i
  exact ⟨n, fun i hi k hk => Bool.eq_iff_iff.mpr (hn i hi k hk)⟩

/-- **The round loop ends.**  When every call cycle through two functions is quiet, some round
changes no contract. -/
theorem rounds_end (h : Quiet thunks p externals) : ∃ n, EndsAt thunks p externals n := by
  obtain ⟨n₁, h₁⟩ := exists_settled_pieces (read_settles h)
  obtain ⟨n₂, h₂⟩ := exists_settled_pieces (possible_settles h)
  obtain ⟨n₃, h₃⟩ := exists_settled_pieces (definite_settles h)
  obtain ⟨m₁, g₁⟩ := exists_settled_flag thunks p externals
    isFlag_requiresCompleteContext (Finset.range p.count)
  obtain ⟨m₂, g₂⟩ := exists_settled_flag thunks p externals
    isFlag_canSuspend (Finset.range p.count)
  obtain ⟨m₃, g₃⟩ := exists_settled_flag thunks p externals
    isFlag_canSwitchThreads (Finset.range p.count)
  obtain ⟨m₄, g₄⟩ := exists_settled_flag thunks p externals
    isFlag_invokesGuestCode (Finset.range p.count)
  let n := n₁ + n₂ + n₃ + m₁ + m₂ + m₃ + m₄
  refine ⟨n, (endsAt_iff n).mpr (List.ext_getElem? fun i => ?_)⟩
  by_cases hi : i < p.count
  · rw [current_getElem? hi, current_getElem? hi]
    have hm := Finset.mem_range.mpr hi
    refine congrArg some (contractOf_ext (fun x => ?_) (fun x => ?_) (fun x => ?_) ?_)
    · exact (h₁ i hm x (n + 1) (by omega)).trans (h₁ i hm x n (by omega)).symm
    · exact (h₂ i hm x (n + 1) (by omega)).trans (h₂ i hm x n (by omega)).symm
    · exact (h₃ i hm x (n + 1) (by omega)).trans (h₃ i hm x n (by omega)).symm
    · have e₁ := (g₁ i hm (n + 1) (by omega)).trans (g₁ i hm n (by omega)).symm
      have e₂ := (g₂ i hm (n + 1) (by omega)).trans (g₂ i hm n (by omega)).symm
      have e₃ := (g₃ i hm (n + 1) (by omega)).trans (g₃ i hm n (by omega)).symm
      have e₄ := (g₄ i hm (n + 1) (by omega)).trans (g₄ i hm n (by omega)).symm
      exact flags_ext e₁ e₂ e₃ e₄
  · have hlen : ∀ m, (stateBefore thunks p externals m).current.length ≤ i := fun m => by
      rw [(settled_before thunks p externals m).length]
      omega
    rw [List.getElem?_eq_none (hlen _), List.getElem?_eq_none (hlen _)]

end

/-! ### two functions that call each other -/

def noThunks : GuestSaveRestoreThunks := ⟨none, none, none, none⟩

def noExternals : CalleeContracts := fun _ => none

/-- two functions that call each other with r3, which both of them read -/
def evenOdd : Program where
  functions := [
    (0x80001000, ⟨"func_80001000", "a", [⟨"a", [.assign "r4" (.register "r3"),
      .call "" "func_80002000" [.register "r3"] false, .ret none]⟩]⟩),
    (0x80002000, ⟨"func_80002000", "a", [⟨"a", [.assign "r4" (.register "r3"),
      .call "" "func_80001000" [.register "r3"] false, .ret none]⟩]⟩)]
  sorted := by decide
  labels := by decide

theorem evenOdd_quiet : Quiet noThunks evenOdd noExternals := by
  have hbody : ∀ i < evenOdd.count,
      (contractOf noThunks (fun _ => none) (evenOdd.body i)).readBeforeWrite = single (.gpr 3) ∧
      (contractOf noThunks (sureView evenOdd noExternals fun _ => empty)
        (evenOdd.body i)).readBeforeWrite = single (.gpr 3) ∧
      (contractOf noThunks (sureView evenOdd noExternals fun _ => single (.gpr 4))
        (evenOdd.body i)).readBeforeWrite = single (.gpr 3) ∧
      (contractOf noThunks (sureView evenOdd noExternals fun _ => single (.gpr 4))
        (evenOdd.body i)).definiteWrites = single (.gpr 4) := by
    decide +kernel
  refine ⟨fun _ => single (.gpr 4), fun i hi => (hbody i hi).2.2.2.le, fun i hi _ =>
    ⟨fun j _ ins _ a _ _ => rfl, fun x => ?_⟩⟩
  by_cases hx : x = .gpr 3
  · refine Or.inl ⟨i, .refl, ?_⟩
    rw [ReadsItself, (hbody i hi).2.2.1, has_single]
    exact decide_eq_true hx
  · refine Or.inr fun j hj htakes => ?_
    have hjlt : j < evenOdd.count := by
      rcases hj.cases_tail with rfl | ⟨_, -, hpass⟩
      · exact hi
      · exact hpass.calls.lt
    have hnot : (single (.gpr 3)).has x ≠ true := by simpa using hx
    rcases htakes with ⟨k, hpass, hk⟩ | hown
    · rw [FirstPassReads, (hbody k hpass.calls.lt).1] at hk
      exact absurd hk hnot
    · rw [ReadsItself, (hbody j hjlt).2.1] at hown
      exact absurd hown hnot

theorem rounds_end_evenOdd : ∃ n, EndsAt noThunks evenOdd noExternals n :=
  rounds_end evenOdd_quiet

/-! ### a read that circulates -/

def abiCallArguments : List IrValue :=
  ["r3", "r4", "r5", "r6", "r7", "r8", "r9", "r10", "f1", "f2", "f3", "f4", "f5", "f6", "f7",
    "f8", "f9", "f10", "f11", "f12", "f13"].map .register

/-- a lifted `bl` -/
def lifted (returnAddress : Int) (target : String) : List IrInstruction :=
  [.assign "lr" (.imm returnAddress), .call "" target abiCallArguments false]

/-- the first function calls the second, which calls it back, and then the third, which writes r14;
after that it reads r14 -/
def circulating : Program where
  functions := [
    (0x80001000, ⟨"func_80001000", "a", [⟨"a", lifted 0x80001004 "func_80002000" ++
      lifted 0x80001008 "func_80003000" ++ [.assign "r3" (.register "r14"), .ret none]⟩]⟩),
    (0x80002000, ⟨"func_80002000", "a", [⟨"a", lifted 0x80002004 "func_80001000" ++
      [.ret none]⟩]⟩),
    (0x80003000, ⟨"func_80003000", "a", [⟨"a", [.assign "r14" (.register "r3"), .ret none]⟩]⟩)]
  sorted := by decide
  labels := by decide

/-- a contract about GPRs, with the floating-point arguments and LR of a function that calls -/
def gprContract (reads written : BitVec 32) (calls : Bool) (targets : List Nat) :
    GuestAbiContract where
  readBeforeWrite := { empty with gpr := reads, fpr := if calls then 0x3FFE else 0 }
  possibleWrites := { empty with gpr := written, lr := calls }
  definiteWrites := { empty with gpr := written, lr := calls }
  gprReturnMask := written &&& returnGprs
  fprReturnMask := 0
  boundaryFlags := noFlags
  directCallTargets := targets

def circulatingContracts (first second firstWritten secondWritten : BitVec 32) :
    List GuestAbiContract :=
  [gprContract first firstWritten true [0x80002000, 0x80003000],
    gprContract second secondWritten true [0x80001000], gprContract 8 0x4000 false []]

/-- the contracts before round `n`: from the third on, the read of r14 is with the first function
and the second in turn -/
def circulatingAt : Nat → List GuestAbiContract
  | 0 => circulatingContracts 0x47F8 0x7F8 8 0
  | 1 => circulatingContracts 0x7F8 0x47F8 0x4008 8
  | n + 2 => if n % 2 = 0 then circulatingContracts 0x47F8 0x7F8 0x4008 0x4008
    else circulatingContracts 0x7F8 0x47F8 0x4008 0x4008

theorem circulating_current (n : Nat) :
    (stateBefore noThunks circulating noExternals n).current = circulatingAt n := by
  rw [rounds_current]
  have hfirst : firstPass noThunks circulating = circulatingAt 0 := by decide +kernel
  have h₀ : jacobi noThunks circulating noExternals (circulatingAt 0) = circulatingAt 1 := by
    decide +kernel
  have h₁ : jacobi noThunks circulating noExternals (circulatingAt 1) = circulatingAt 2 := by
    decide +kernel
  have h₂ : jacobi noThunks circulating noExternals (circulatingAt 2) = circulatingAt 3 := by
    decide +kernel
  have h₃ : jacobi noThunks circulating noExternals (circulatingAt 3) = circulatingAt 2 := by
    decide +kernel
  induction n with
  | zero => exact hfirst
  | succ n ih =>
    rw [Function.iterate_succ_apply', ih]
    match n with
    | 0 => exact h₀
    | 1 => exact h₁
    | n + 2 =>
      rcases Nat.mod_two_eq_zero_or_one n with hn | hn
      · have e : circulatingAt (n + 2) = circulatingAt 2 := by simp [circulatingAt, hn]
        have e' : circulatingAt (n + 2 + 1) = circulatingAt 3 := by
          simp [circulatingAt, show (n + 1) % 2 = 1 by omega]
        rw [e, e', h₂]
      · have e : circulatingAt (n + 2) = circulatingAt 3 := by simp [circulatingAt, hn]
        have e' : circulatingAt (n + 2 + 1) = circulatingAt 2 := by
          simp [circulatingAt, show (n + 1) % 2 = 0 by omega]
        rw [e, e', h₃]

/-- **The loop need not end.** -/
theorem circulating_rounds : ¬ ∃ n, EndsAt noThunks circulating noExternals n := by
  rintro ⟨n, hn⟩
  rw [endsAt_iff, circulating_current, circulating_current] at hn
  have hreads : ∀ n, ((circulatingAt n).map fun c => c.readBeforeWrite.gpr) =
      [if n % 2 = 0 then 0x47F8 else 0x7F8, if n % 2 = 0 then 0x7F8 else 0x47F8, 8] := by
    intro n
    match n with
    | 0 => rfl
    | 1 => rfl
    | n + 2 =>
      rcases Nat.mod_two_eq_zero_or_one n with h | h
      · simp [circulatingAt, circulatingContracts, gprContract, h]
      · simp [circulatingAt, circulatingContracts, gprContract, h]
  have h := congrArg (List.map fun c => c.readBeforeWrite.gpr) hn
  rw [hreads, hreads] at h
  rcases Nat.mod_two_eq_zero_or_one n with hn | hn
  · simp [hn, show (n + 1) % 2 = 1 by omega] at h
  · simp [hn, show (n + 1) % 2 = 0 by omega] at h

end DolTranslator.Abi
