import DolTranslator.Abi.Contracts

/-!
# Rounds over the functions of a program

`GuestAbiInterproceduralAnalyzer.Analyze` computes the contract of every function without callee
contracts, and then again with the contracts of the round before, until a round changes nothing.  A
function none of whose callees changed is skipped.

* `Program`   the functions by ascending address, with distinct labels in each;
* `round`   one round, and whether it changed a contract;
* `rounds_current`   skipping saves work only: each round computes every contract anew (`jacobi`).
-/

set_option linter.unusedSectionVars false

namespace DolTranslator.Abi
open RegisterSet

structure Program where
  functions : List (Nat × IrFunction)
  sorted : (functions.map Prod.fst).Pairwise (· < ·)
  labels : ∀ p ∈ functions, (p.2.blocks.map IrBasicBlock.label).Nodup

namespace Program

def count (p : Program) : Nat := p.functions.length

def bodies (p : Program) : List IrFunction := p.functions.map Prod.snd

def body (p : Program) (i : Nat) : IrFunction := p.bodies.getD i ⟨"", "", []⟩

/-- `ordinals` -/
def ordinalAt (p : Program) (address : Nat) : Option Nat :=
  p.functions.findIdx? fun entry => entry.1 == address

end Program

def callAddress : IrInstruction → Option Nat
  | .call _ target _ _ => parseAddress target
  | _ => none

/-- `CollectDirectCallees` -/
def directCallees (p : Program) (f : IrFunction) : List Nat :=
  (instructionsOf f).filterMap fun ins => (callAddress ins).bind p.ordinalAt

/-- the contracts and the functions to analyse again, by ordinal -/
structure RoundState where
  current : List GuestAbiContract
  pending : List Bool
deriving DecidableEq, Repr

section
variable (thunks : GuestSaveRestoreThunks) (p : Program) (externals : CalleeContracts)

/-- `visible` -/
def visible (current : List GuestAbiContract) : CalleeContracts := fun address =>
  match p.ordinalAt address with
  | some i => current[i]?
  | none => externals address

/-- the new contract of a function, when it is analysed and not equivalent to the old one -/
def roundResult (st : RoundState) (i : Nat) : Option GuestAbiContract :=
  match p.bodies[i]?, st.pending[i]? with
  | some body, some true =>
    let next := contractOf thunks (visible p externals st.current) body
    if st.current[i]? = some next then none else some next
  | _, _ => none

def round (st : RoundState) : RoundState × Bool :=
  (⟨st.current.mapIdx fun i contract => (roundResult thunks p externals st i).getD contract,
    p.bodies.map fun caller => (directCallees p caller).any fun callee =>
      (roundResult thunks p externals st callee).isSome⟩,
    (List.range p.count).any fun i => (roundResult thunks p externals st i).isSome)

def firstPass : List GuestAbiContract := p.bodies.map (contractOf thunks fun _ => none)

def startState : RoundState := ⟨firstPass thunks p, List.replicate p.count true⟩

/-- the state before round `n` -/
def stateBefore : Nat → RoundState
  | 0 => startState thunks p
  | n + 1 => (round thunks p externals (stateBefore n)).1

/-- round `n` changes no contract, and the loop ends -/
def EndsAt (n : Nat) : Prop :=
  (round thunks p externals (stateBefore thunks p externals n)).2 = false

instance (n : Nat) : Decidable (EndsAt thunks p externals n) :=
  inferInstanceAs (Decidable (_ = false))

def jacobi (current : List GuestAbiContract) : List GuestAbiContract :=
  p.bodies.map (contractOf thunks (visible p externals current))

end

/-! ## a contract depends on the contracts of the callees -/

section
variable {thunks : GuestSaveRestoreThunks} {cs cs' : CalleeContracts} {f : IrFunction}

theorem reads_congr {ins : IrInstruction} (h : ∀ a ∈ callAddress ins, cs a = cs' a) :
    reads thunks cs ins = reads thunks cs' ins := by
  cases ins with
  | call d target args tail =>
    simp only [reads]
    cases ht : parseAddress target with
    | none => rfl
    | some a => simp only [directCallReads, h a (by simp [callAddress, ht])]
  | ret value => cases value <;> rfl
  | _ => rfl

theorem writes_congr {ins : IrInstruction} (h : ∀ a ∈ callAddress ins, cs a = cs' a) :
    writes thunks cs ins = writes thunks cs' ins := by
  cases ins with
  | call d target args tail =>
    simp only [writes]
    cases ht : parseAddress target with
    | none => rfl
    | some a => simp only [h a (by simp [callAddress, ht])]
  | _ => rfl

theorem instructionFlags_congr {ins : IrInstruction} (h : ∀ a ∈ callAddress ins, cs a = cs' a) :
    instructionFlags cs ins = instructionFlags cs' ins := by
  cases ins with
  | call d target args tail =>
    simp only [instructionFlags]
    cases ht : parseAddress target with
    | none => rfl
    | some a => simp only [h a (by simp [callAddress, ht])]
  | _ => rfl

theorem contractOf_congr (h : ∀ ins ∈ instructionsOf f, ∀ a ∈ callAddress ins, cs a = cs' a) :
    contractOf thunks cs f = contractOf thunks cs' f := by
  have hreads : ∀ ins ∈ instructionsOf f, reads thunks cs ins = reads thunks cs' ins :=
    fun ins hins => reads_congr (h ins hins)
  have hdef : ∀ ins ∈ instructionsOf f,
      definiteWrites thunks cs ins = definiteWrites thunks cs' ins :=
    fun ins hins => congrArg Prod.snd (writes_congr (h ins hins))
  have hposs : ∀ ins ∈ instructionsOf f,
      possibleWrites thunks cs ins = possibleWrites thunks cs' ins :=
    fun ins hins => congrArg Prod.fst (writes_congr (h ins hins))
  have hout : ∀ b, (definiteOut thunks cs f b) = definiteOut thunks cs' f b := fun b =>
    ext_has fun x => Bool.eq_iff_iff.mpr
      ⟨(definiteFlow_mono x (fun i hi => (hdef i hi ▸ id)) b).2,
        (definiteFlow_mono x (fun i hi => (hdef i hi ▸ id)) b).2⟩
  have hunwritten : ∀ x ins, Unwritten thunks cs f x ins ↔ Unwritten thunks cs' f x ins :=
    fun x ins => ⟨Unwritten.anti fun i hi => (hdef i hi ▸ id),
      Unwritten.anti fun i hi => (hdef i hi ▸ id)⟩
  have hpossible : possibleWritesOf thunks cs f = possibleWritesOf thunks cs' f := by
    rw [possibleWritesOf, possibleWritesOf, List.map_congr_left hposs]
  have hread : readBeforeWriteOf thunks cs f = readBeforeWriteOf thunks cs' f := by
    refine ext_has fun x => Bool.eq_iff_iff.mpr ?_
    rw [has_readBeforeWriteOf, has_readBeforeWriteOf]
    constructor
    · rintro ⟨ins, hu, hr⟩
      exact ⟨ins, (hunwritten x ins).mp hu, hreads ins hu.mem ▸ hr⟩
    · rintro ⟨ins, hu, hr⟩
      exact ⟨ins, (hunwritten x ins).mpr hu, (hreads ins hu.mem).symm ▸ hr⟩
  have hdefinite : definiteWritesAtExits thunks cs f = definiteWritesAtExits thunks cs' f := by
    refine ext_has fun x => Bool.eq_iff_iff.mpr ?_
    rw [has_definiteWritesAtExits, has_definiteWritesAtExits]
    simp only [hout]
  have hflags : boundaryFlagsOf cs f = boundaryFlagsOf cs' f := by
    rw [boundaryFlagsOf, boundaryFlagsOf,
      List.map_congr_left fun ins hins => instructionFlags_congr (h ins hins)]
  simp only [contractOf, hread, hpossible, hdefinite, hflags]

end

/-! ## skipping -/

section
variable {thunks : GuestSaveRestoreThunks} {p : Program} {externals : CalleeContracts}

theorem mem_directCallees {f : IrFunction} {j : Nat} : j ∈ directCallees p f ↔
    ∃ ins ∈ instructionsOf f, ∃ a, callAddress ins = some a ∧ p.ordinalAt a = some j := by
  simp [directCallees, Option.bind_eq_some_iff]

theorem ordinalAt_lt {a j : Nat} (h : p.ordinalAt a = some j) : j < p.count :=
  (List.findIdx?_eq_some_iff_getElem.mp h).1

theorem contractOf_visible {current current' : List GuestAbiContract} {f : IrFunction}
    (h : ∀ j ∈ directCallees p f, current[j]? = current'[j]?) :
    contractOf thunks (visible p externals current) f =
      contractOf thunks (visible p externals current') f := by
  refine contractOf_congr fun ins hins a ha => ?_
  simp only [visible]
  cases hj : p.ordinalAt a with
  | none => rfl
  | some j => exact h j (mem_directCallees.mpr ⟨ins, hins, a, ha, hj⟩)

/-- what the loop keeps: a function that is not pending has the contract of this round already -/
structure RoundState.Settled (thunks : GuestSaveRestoreThunks) (p : Program)
    (externals : CalleeContracts) (st : RoundState) : Prop where
  length : st.current.length = p.count
  pending_length : st.pending.length = p.count
  skipped : ∀ i (hi : i < p.count), st.pending[i]? = some false → st.current[i]? =
    some (contractOf thunks (visible p externals st.current) (p.functions[i]).2)

theorem bodies_getElem? {i : Nat} (hi : i < p.count) :
    p.bodies[i]? = some (p.functions[i]).2 := by
  rw [Program.bodies, List.getElem?_map, List.getElem?_eq_getElem hi]
  rfl

theorem bodies_getElem?_body {i : Nat} (hi : i < p.count) : p.bodies[i]? = some (p.body i) := by
  rw [Program.body, List.getD_eq_getElem?_getD, bodies_getElem? hi]
  rfl

theorem RoundState.Settled.result {st : RoundState} (h : st.Settled thunks p externals) {i : Nat}
    (hi : i < p.count) (hc : i < st.current.length) :
    some ((roundResult thunks p externals st i).getD st.current[i]) =
      some (contractOf thunks (visible p externals st.current) (p.functions[i]).2) := by
  have hp : i < st.pending.length := h.pending_length.symm ▸ hi
  have hpend : st.pending[i]? = some st.pending[i] := List.getElem?_eq_getElem hp
  rw [roundResult, bodies_getElem? hi, hpend]
  cases hb : st.pending[i] with
  | true =>
    simp only
    split
    · rename_i he
      rw [Option.getD_none, ← List.getElem?_eq_getElem hc, he]
    · rfl
  | false =>
    rw [hb] at hpend
    have := h.skipped i hi hpend
    rw [List.getElem?_eq_getElem hc] at this
    exact this

theorem RoundState.Settled.current_round {st : RoundState} (h : st.Settled thunks p externals) :
    (round thunks p externals st).1.current = jacobi thunks p externals st.current := by
  refine List.ext_getElem? fun i => ?_
  simp only [round, jacobi, List.getElem?_mapIdx, List.getElem?_map]
  by_cases hi : i < p.count
  · rw [List.getElem?_eq_getElem (h.length.symm ▸ hi), bodies_getElem? hi]
    exact h.result hi _
  · have h1 : st.current[i]? = none := List.getElem?_eq_none (by rw [h.length]; omega)
    have h2 : p.bodies[i]? = none := List.getElem?_eq_none (by
      rw [Program.bodies, List.length_map]
      exact Nat.le_of_not_lt hi)
    rw [h1, h2]
    rfl

theorem RoundState.Settled.round {st : RoundState} (h : st.Settled thunks p externals) :
    (round thunks p externals st).1.Settled thunks p externals := by
  have hcur := h.current_round
  refine ⟨by rw [hcur, jacobi, List.length_map]; simp [Program.bodies, Program.count],
    by simp [Abi.round, Program.bodies, Program.count], fun i hi hpend => ?_⟩
  have hpend' : ∀ j ∈ directCallees p (p.functions[i]).2,
      roundResult thunks p externals st j = none := by
    simp only [Abi.round, List.getElem?_map, bodies_getElem? hi, Option.map_some,
      Option.some.injEq, List.any_eq_false] at hpend
    exact fun j hj => by simpa using hpend j hj
  have hsame : ∀ j ∈ directCallees p (p.functions[i]).2,
      st.current[j]? = (Abi.round thunks p externals st).1.current[j]? := by
    intro j hj
    simp only [Abi.round, List.getElem?_mapIdx, hpend' j hj, Option.getD_none]
    cases st.current[j]? <;> rfl
  rw [← contractOf_visible hsame, hcur, jacobi, List.getElem?_map, bodies_getElem? hi]
  rfl

theorem settled_start : (startState thunks p).Settled thunks p externals :=
  ⟨by simp [startState, firstPass, Program.bodies, Program.count], by simp [startState],
    fun i hi h => by simp [startState, hi] at h⟩

theorem settled_before (thunks : GuestSaveRestoreThunks) (p : Program)
    (externals : CalleeContracts) (n : Nat) :
    (stateBefore thunks p externals n).Settled thunks p externals := by
  induction n with
  | zero => exact settled_start
  | succ n ih => exact ih.round

/-- **Every round computes every contract anew.** -/
theorem rounds_current (n : Nat) : (stateBefore thunks p externals n).current =
    (jacobi thunks p externals)^[n] (firstPass thunks p) := by
  induction n with
  | zero => rfl
  | succ n ih =>
    rw [Function.iterate_succ_apply', ← ih]
    exact (settled_before thunks p externals n).current_round

theorem endsAt_iff (n : Nat) : EndsAt thunks p externals n ↔
    (stateBefore thunks p externals (n + 1)).current = (stateBefore thunks p externals n).current := by
  have h := settled_before thunks p externals n
  rw [EndsAt, stateBefore]
  generalize stateBefore thunks p externals n = st at h
  have hupdated : (round thunks p externals st).2 = false ↔
      ∀ i < p.count, roundResult thunks p externals st i = none := by
    simp [round]
  rw [hupdated]
  constructor
  · intro hnone
    refine List.ext_getElem? fun i => ?_
    simp only [round, List.getElem?_mapIdx]
    by_cases hi : i < p.count
    · rw [hnone i hi]
      cases st.current[i]? <;> rfl
    · rw [List.getElem?_eq_none (by rw [h.length]; omega)]
      rfl
  · intro hsame i hi
    have hc : i < st.current.length := h.length.symm ▸ hi
    have hres := congrArg (·[i]?) hsame
    simp only [round, List.getElem?_mapIdx, List.getElem?_eq_getElem hc, Option.map_some,
      Option.some.injEq] at hres
    cases hr : roundResult thunks p externals st i with
    | none => rfl
    | some next =>
      rw [hr, Option.getD_some] at hres
      simp only [roundResult] at hr
      split at hr
      · split at hr
        · cases hr
        · rename_i hne
          obtain rfl := Option.some.inj hr
          exact absurd (by rw [List.getElem?_eq_getElem hc, hres]) hne
      · cases hr

end

end DolTranslator.Abi
