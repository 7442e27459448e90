import DolTranslator.Abi.HelperEffects
import DolTranslator.Dataflow.Sweeps

/-!
# Guest ABI contracts

What a translated function reads before it writes it, may write, and surely writes, from its IR and
the contracts of the functions that it calls.

* `reads`, `writes`   one instruction;
* `definiteFlow`   what is surely written at the start and the end of each block;
* `contractOf`   the contract of a function whose block labels are distinct.
-/

namespace DolTranslator.Abi
open Flags RegisterSet

/-- the read, possible-write and definite-write masks of a contract are one set each -/
structure GuestAbiContract where
  readBeforeWrite : RegisterSet
  possibleWrites : RegisterSet
  definiteWrites : RegisterSet
  gprReturnMask : BitVec 32
  fprReturnMask : BitVec 32
  boundaryFlags : GuestCallBoundaryFlags
  directCallTargets : List Nat
deriving DecidableEq, Repr

/-- the contracts that calls are resolved with; none at all in the first pass -/
abbrev CalleeContracts := Nat → Option GuestAbiContract

/-! ## save and restore thunks -/

structure ThunkRange where
  baseAddress : Nat
  firstRegister : Nat
  lastRegister : Nat
deriving DecidableEq, Repr

structure GuestSaveRestoreThunks where
  saveGpr : Option ThunkRange
  restGpr : Option ThunkRange
  saveFpr : Option ThunkRange
  restFpr : Option ThunkRange
deriving DecidableEq, Repr

inductive InlineThunkKind where
  | saveGpr
  | restGpr
  | saveFpr
  | restFpr
deriving DecidableEq, Repr

/-- the first register that the entry at an address saves or restores -/
def tryRange (candidate : Nat) : Option ThunkRange → Option Nat
  | none => none
  | some range =>
    let lastAddress := range.baseAddress + (range.lastRegister - range.firstRegister) * 4
    if candidate < range.baseAddress ∨ lastAddress < candidate ∨
        (candidate - range.baseAddress) % 4 ≠ 0 then none
    else some (range.firstRegister + (candidate - range.baseAddress) / 4)

def tryGetInlineThunk (thunks : GuestSaveRestoreThunks) (address : Nat) :
    Option (InlineThunkKind × Nat) :=
  (tryRange address thunks.saveGpr).map (.saveGpr, ·) <|>
  (tryRange address thunks.restGpr).map (.restGpr, ·) <|>
  (tryRange address thunks.saveFpr).map (.saveFpr, ·) <|>
  (tryRange address thunks.restFpr).map (.restFpr, ·)

def thunkReads : Option (InlineThunkKind × Nat) → Option RegisterSet
  | some (.saveGpr, start) => some (rangeToTop true start)
  | some (.saveFpr, start) => some (rangeToTop false start)
  | _ => none

def thunkWrites : Option (InlineThunkKind × Nat) → Option RegisterSet
  | some (.restGpr, start) => some (rangeToTop true start)
  | some (.restFpr, start) => some (rangeToTop false start)
  | _ => none

/-! ## one instruction -/

def containsText (text pattern : String) : Bool :=
  text.toList.tails.any (pattern.toList.isPrefixOf ·)

/-- the special registers that the text of a condition mentions -/
def specialRegistersInRawExpression (expression : String) : RegisterSet :=
  let mentions := containsText expression
  { empty with
    cr := if mentions "ctx->cr" || mentions "GetCRBit(ctx" then .allOnes 8 else 0
    xer := mentions "ctx->xer"
    ctr := mentions "ctx->ctr"
    lr := mentions "ctx->lr"
    fpscr := mentions "ctx->fpscr"
    hid := (if mentions "ctx->hid0" then 1 else 0) ||| (if mentions "ctx->hid1" then 2 else 0) |||
      (if mentions "ctx->hid2" then 4 else 0) }

/-- `AddValue` -/
def ofValue : IrValue → RegisterSet
  | .register name => register name
  | .imm _ => empty

def ofValues (values : List IrValue) : RegisterSet := unionAll (values.map ofValue)

def ofAccessGqr (i : Nat) (knownGqr : Option Nat) (guardKnownGqr : Bool) : RegisterSet :=
  if knownGqr.isNone || guardKnownGqr then ofGqr i else empty

/-- what a call writes to its destination; the packed CR only for a helper that changes no field,
since helpers return all of CR and change the fields that their effect names -/
def callDestination (destination : String) (effect : Option GuestHelperEffect) : RegisterSet :=
  if (register destination).cr = .allOnes 8 ∧ (effect.map fun e => e.writes.cr) ≠ some 0 then empty
  else register destination

section
variable (thunks : GuestSaveRestoreThunks) (calleeContracts : CalleeContracts)

/-- what a direct call reads: the contract of the callee when there is one, else the registers
that a save thunk stores, else the arguments -/
def directCallReads (target : Nat) (arguments : List IrValue) : RegisterSet :=
  match calleeContracts target with
  | some callee => callee.readBeforeWrite
  | none => (thunkReads (tryGetInlineThunk thunks target)).getD (ofValues arguments)

def reads : IrInstruction → RegisterSet
  | .assign _ value => ofValue value
  | .binary _ left right _ => (ofValue left).union (ofValue right)
  | .load _ address _ => register address.base
  | .store address source _ => (register address.base).union (ofValue source)
  | .resolveGuestMemoryRange _ base .. => ofValue base
  | .resolvedLoad _ _ originalAddress .. => register originalAddress.base
  | .resolvedStore _ originalAddress _ source _ =>
    (register originalAddress.base).union (ofValue source)
  | .resolvedPsqLoad _ _ originalAddress _ _ i knownGqr guardKnownGqr =>
    (ofValue originalAddress).union (ofAccessGqr i knownGqr guardKnownGqr)
  | .resolvedPsqStore _ originalAddress _ source _ i knownGqr guardKnownGqr =>
    ((ofValue originalAddress).union (ofValue source)).union (ofAccessGqr i knownGqr guardKnownGqr)
  | .resolvedLoadPair _ _ _ first second .. => (register first.base).union (register second.base)
  | .resolvedStorePair _ first second _ firstSource secondSource .. =>
    ((register first.base).union (register second.base)).union
      ((ofValue firstSource).union (ofValue secondSource))
  | .call _ target arguments _ =>
    match parseAddress target with
    | some address => directCallReads thunks calleeContracts address arguments
    | none => (ofValues arguments).union (helperEffect target arguments).reads
  | .indirectCall _ target arguments => ((ofValue target).union (ofValues arguments)).union full
  | .indirectJump target => (ofValue target).union full
  -- an integer comparison copies XER.SO into the field
  | .setCrField _ left right _ => ((ofValue left).union (ofValue right)).union xerOnly
  | .phi _ sources => unionAll (sources.map fun source => register source.2)
  | .branch _ _ _ conditionRegister =>
    (register conditionRegister).union (specialRegistersInRawExpression conditionRegister)
  | .jumpTable selector _ => register selector
  | .ret (some value) => ofValue value
  | _ => empty

/-- the possible and the definite writes of an instruction -/
def writes : IrInstruction → RegisterSet × RegisterSet
  | .assign destination _ | .binary destination _ _ _ | .load destination _ _
  | .resolveGuestMemoryRange destination .. | .resolvedLoad destination ..
  | .resolvedPsqLoad destination .. | .phi destination _ =>
    (register destination, register destination)
  | .resolvedLoadPair first second .. =>
    ((register first).union (register second), (register first).union (register second))
  | .call destination target arguments _ =>
    match parseAddress target with
    | some address =>
      let shared := callDestination destination none
      match calleeContracts address with
      | some callee => (shared.union callee.possibleWrites, shared.union callee.definiteWrites)
      | none =>
        let thunk := (thunkWrites (tryGetInlineThunk thunks address)).getD empty
        (shared.union thunk, shared.union thunk)
    | none =>
      let effect := helperEffect target arguments
      let shared := callDestination destination (some effect)
      (shared.union effect.writes, shared)
  | .indirectCall destination .. =>
    ((register destination).union full, (register destination).union full)
  | .setCrField fieldIndex .. =>
    let field := { empty with cr := singleBit 8 (fieldIndex % 32) }
    (field, field)
  | .undefined .. => (full, full)
  | _ => (empty, empty)

def possibleWrites (ins : IrInstruction) : RegisterSet := (writes thunks calleeContracts ins).1

def definiteWrites (ins : IrInstruction) : RegisterSet := (writes thunks calleeContracts ins).2

def instructionFlags : IrInstruction → GuestCallBoundaryFlags
  | .call _ target arguments _ =>
    match parseAddress target with
    | some address =>
      match calleeContracts address with
      | some callee => callee.boundaryFlags
      | none => noFlags
    | none => (helperEffect target arguments).boundaryFlags
  | .indirectCall .. | .indirectJump _ | .undefined .. => requiresCompleteContext
  | _ => noFlags

def directCallTarget : IrInstruction → Option Nat
  | .call _ target _ _ =>
    (parseAddress target).filter fun address => (tryGetInlineThunk thunks address).isNone
  | _ => none

end

/-! ## blocks -/

def successorLabels (block : IrBasicBlock) : List String :=
  match block.instructions.getLast? with
  | some (.branch _ trueLabel falseLabel _) => [trueLabel, falseLabel]
  | some (.jump label) => [label]
  | _ => []

/-- `ordinals` -/
def ordinalOf (f : IrFunction) (label : String) : Option Nat :=
  f.blocks.findIdx? fun block => block.label == label

def successors (f : IrFunction) (b : Nat) : List Nat :=
  match f.blocks[b]? with
  | some block => (successorLabels block).filterMap (ordinalOf f)
  | none => []

def predecessors (f : IrFunction) (b : Nat) : List Nat :=
  (List.range f.blocks.length).flatMap fun p => (successors f p).filterMap fun s =>
    if s = b then some p else none

section
variable (thunks : GuestSaveRestoreThunks) (calleeContracts : CalleeContracts) (f : IrFunction)

def definiteWritesOf (body : List IrInstruction) : RegisterSet :=
  body.foldl (fun set ins => set.union (definiteWrites thunks calleeContracts ins)) empty

abbrev BlockSets := RegisterSet × RegisterSet

def incoming (sets : Nat → BlockSets) (b : Nat) : RegisterSet :=
  if f.labelOf b = f.entryLabel then empty
  else
    match predecessors f b with
    | [] => empty
    | first :: rest => rest.foldl (fun set p => set.intersect (sets p).2) (sets first).2

def definiteEquations (b : Nat) (sets : Nat → BlockSets) : BlockSets :=
  (incoming f sets b,
    (incoming f sets b).union (definiteWritesOf thunks calleeContracts (f.body b)))

def sweepLimit : Nat := f.blocks.length * (2 * height) + 1

def definiteFlow : List BlockSets :=
  (Dataflow.solve (definiteEquations thunks calleeContracts f) (List.range f.blocks.length)
    (sweepLimit f) (List.replicate f.blocks.length ⊥)).getD []

def definiteIn (b : Nat) : RegisterSet :=
  (Dataflow.valueAt (definiteFlow thunks calleeContracts f) b).1

def definiteOut (b : Nat) : RegisterSet :=
  (Dataflow.valueAt (definiteFlow thunks calleeContracts f) b).2

/-- what a list of instructions reads that is not in `written` by then -/
def readsUnwritten : List IrInstruction → RegisterSet → RegisterSet
  | [], _ => empty
  | ins :: rest, written => ((reads thunks calleeContracts ins).except written).union
      (readsUnwritten rest (written.union (definiteWrites thunks calleeContracts ins)))

def readBeforeWriteOf : RegisterSet :=
  unionAll <| (List.range f.blocks.length).map fun b =>
    readsUnwritten thunks calleeContracts (f.body b) (definiteIn thunks calleeContracts f b)

def instructionsOf : List IrInstruction := f.blocks.flatMap IrBasicBlock.instructions

def possibleWritesOf : RegisterSet :=
  unionAll ((instructionsOf f).map (possibleWrites thunks calleeContracts))

def isExitBlock (b : Nat) : Bool := (successors f b).isEmpty

/-- what every block without a successor has written at its end -/
def definiteWritesAtExits : RegisterSet :=
  match (List.range f.blocks.length).filter (isExitBlock f) with
  | [] => empty
  | first :: rest => rest.foldl
      (fun set b => set.intersect (definiteOut thunks calleeContracts f b))
      (definiteOut thunks calleeContracts f first)

def boundaryFlagsOf : GuestCallBoundaryFlags :=
  ((instructionsOf f).map (instructionFlags calleeContracts)).foldl unionFlags noFlags

/-- the direct call targets, sorted and without repetition -/
def directCallTargetsOf : List Nat :=
  ((instructionsOf f).filterMap (directCallTarget thunks)).dedup.insertionSort (· ≤ ·)

/-- r3 and r4 -/
def returnGprs : BitVec 32 := 0x18

/-- f1 -/
def returnFprs : BitVec 32 := 0x2

def contractOf : GuestAbiContract where
  readBeforeWrite := readBeforeWriteOf thunks calleeContracts f
  possibleWrites := possibleWritesOf thunks calleeContracts f
  definiteWrites := definiteWritesAtExits thunks calleeContracts f
  gprReturnMask := (possibleWritesOf thunks calleeContracts f).gpr &&& returnGprs
  fprReturnMask := (possibleWritesOf thunks calleeContracts f).fpr &&& returnFprs
  boundaryFlags := boundaryFlagsOf calleeContracts f
  directCallTargets := directCallTargetsOf thunks f

end

end DolTranslator.Abi

/-!
## The contract of a function, piece by piece

* `definiteFlow_spec`       the sweeps end, in the least solution of the equations;
* `definiteFlow_mono`       a piece that more instructions surely write is surely written at more
  places, whatever happens to the other pieces;
* `has_readBeforeWriteOf`, `has_possibleWritesOf`, `has_definiteWritesAtExits`
  which pieces are in a contract.
-/

set_option linter.unusedSectionVars false

namespace DolTranslator.Abi
open Dataflow RegisterSet

/-! ## sets of a block -/

theorem has_foldl_intersect {ι : Type} (l : List ι) (g : ι → RegisterSet) (s : RegisterSet)
    (x : Piece) : (l.foldl (fun set p => set.intersect (g p)) s).has x = true ↔
      s.has x = true ∧ ∀ p ∈ l, (g p).has x = true := by
  induction l generalizing s with
  | nil => simp
  | cons p l ih =>
    rw [List.foldl_cons, ih, has_intersect, Bool.and_eq_true, and_assoc]
    simp

theorem pair_rank_strictMono : StrictMono fun p : BlockSets => p.1.rank + p.2.rank := by
  intro p q hpq
  rcases Prod.lt_iff.mp hpq with ⟨h1, h2⟩ | ⟨h1, h2⟩
  · exact Nat.add_lt_add_of_lt_of_le (rank_strictMono h1) (rank_strictMono.monotone h2)
  · exact Nat.add_lt_add_of_le_of_lt (rank_strictMono.monotone h1) (rank_strictMono h2)

section
variable {thunks : GuestSaveRestoreThunks} {cs cs' : CalleeContracts} {f : IrFunction}

theorem has_incoming {sets : Nat → BlockSets} {b : Nat} {x : Piece} :
    (incoming f sets b).has x = true ↔ f.labelOf b ≠ f.entryLabel ∧ predecessors f b ≠ [] ∧
      ∀ p ∈ predecessors f b, (sets p).2.has x = true := by
  unfold incoming
  split
  · rename_i h
    simp [h]
  · rename_i h
    cases hp : predecessors f b with
    | nil => simp
    | cons first rest => simp [has_foldl_intersect, h]

theorem has_foldl_definite (body : List IrInstruction) (s : RegisterSet) (x : Piece) :
    (body.foldl (fun set ins => set.union (definiteWrites thunks cs ins)) s).has x = true ↔
      s.has x = true ∨ ∃ ins ∈ body, (definiteWrites thunks cs ins).has x = true := by
  induction body generalizing s with
  | nil => simp
  | cons ins body ih =>
    rw [List.foldl_cons, ih, has_union, Bool.or_eq_true, or_assoc]
    simp

theorem has_definiteWritesOf {body : List IrInstruction} {x : Piece} :
    (definiteWritesOf thunks cs body).has x = true ↔
      ∃ ins ∈ body, (definiteWrites thunks cs ins).has x = true := by
  rw [definiteWritesOf, has_foldl_definite, has_empty]
  simp

/-! ## the equations -/

theorem definiteEquations_mono : MonotoneEquations (definiteEquations thunks cs f) := by
  intro b v w h
  have hin : incoming f v b ≤ incoming f w b := by
    intro x hx
    obtain ⟨h1, h2, h3⟩ := has_incoming.mp hx
    exact has_incoming.mpr ⟨h1, h2, fun p hp => (h p).2 x (h3 p hp)⟩
  refine ⟨hin, fun x hx => ?_⟩
  simp only [definiteEquations, has_union, Bool.or_eq_true] at hx ⊢
  exact hx.imp_left (hin x)

/-- **The sweeps end in the least solution of the equations.** -/
theorem definiteFlow_spec (thunks : GuestSaveRestoreThunks) (cs : CalleeContracts)
    (f : IrFunction) :
    (∀ b < f.blocks.length, definiteEquations thunks cs f b
        (valueAt (definiteFlow thunks cs f)) = valueAt (definiteFlow thunks cs f) b) ∧
    ∀ other : Nat → BlockSets,
      (∀ b < f.blocks.length, definiteEquations thunks cs f b other ≤ other b) →
      ∀ b, valueAt (definiteFlow thunks cs f) b ≤ other b := by
  have horder : ∀ b ∈ List.range f.blocks.length, b < f.blocks.length := fun b hb =>
    List.mem_range.mp hb
  have hbound : ∀ p : BlockSets, p.1.rank + p.2.rank ≤ 2 * height := fun p => by
    have h1 := rank_le_height p.1
    have h2 := rank_le_height p.2
    omega
  have hmono : MonotoneEquations (definiteEquations thunks cs f) := definiteEquations_mono
  obtain ⟨result, hresult⟩ := Option.isSome_iff_exists.mp
    (solve_replicate_isSome hmono pair_rank_strictMono hbound horder)
  have hflow : definiteFlow thunks cs f = result := by
    rw [definiteFlow, sweepLimit, hresult]
    rfl
  rw [hflow]
  exact ⟨fun b hb => solve_fixed hresult b (List.mem_range.mpr hb), fun other hother =>
    solve_le hmono horder (fun b hb => hother b (horder b hb)) hresult⟩

theorem definiteIn_eq {b : Nat} (hb : b < f.blocks.length) :
    definiteIn thunks cs f b = incoming f (valueAt (definiteFlow thunks cs f)) b :=
  (congrArg Prod.fst ((definiteFlow_spec thunks cs f).1 b hb)).symm

theorem definiteOut_eq {b : Nat} (hb : b < f.blocks.length) :
    definiteOut thunks cs f b =
      (definiteIn thunks cs f b).union (definiteWritesOf thunks cs (f.body b)) := by
  rw [definiteIn_eq hb]
  exact (congrArg Prod.snd ((definiteFlow_spec thunks cs f).1 b hb)).symm

theorem labelOf_lt {b : Nat} (hb : b < f.blocks.length) : f.labelOf b = f.blocks[b].label := by
  rw [IrFunction.labelOf, List.getElem?_eq_getElem hb]

theorem mem_instructionsOf {ins : IrInstruction} :
    ins ∈ instructionsOf f ↔ ∃ b < f.blocks.length, ins ∈ f.body b := by
  simp only [instructionsOf, List.mem_flatMap, List.mem_iff_getElem (l := f.blocks)]
  constructor
  · rintro ⟨block, ⟨b, hb, rfl⟩, hins⟩
    exact ⟨b, hb, by rwa [f.body_eq hb]⟩
  · rintro ⟨b, hb, hins⟩
    exact ⟨_, ⟨b, hb, rfl⟩, by rwa [f.body_eq hb] at hins⟩

/-- **What is surely written, for one piece.**  The other pieces do not matter: the solution under
`cs'` on the piece `x` and everything on the others solves the equations under `cs`. -/
theorem definiteFlow_mono (x : Piece) (h : ∀ ins ∈ instructionsOf f,
      (definiteWrites thunks cs ins).has x = true → (definiteWrites thunks cs' ins).has x = true)
    (b : Nat) : ((definiteIn thunks cs f b).has x = true → (definiteIn thunks cs' f b).has x = true) ∧
      ((definiteOut thunks cs f b).has x = true → (definiteOut thunks cs' f b).has x = true) := by
  let others : RegisterSet := full.except (single x)
  have hothers : ∀ y, others.has y = true ↔ y ≠ x := by
    intro y
    simp [others]
  let other (b : Nat) : BlockSets :=
    ((definiteIn thunks cs' f b).union others, (definiteOut thunks cs' f b).union others)
  have hle := (definiteFlow_spec thunks cs f).2 other fun b hb => ?_
  · have hx : others.has x = false := by simp [others]
    obtain ⟨hin, hout⟩ := hle b
    constructor
    · intro hb
      simpa [other, hx] using hin x hb
    · intro hb
      simpa [other, hx] using hout x hb
  · have hin : ∀ y, (incoming f other b).has y = true →
        ((definiteIn thunks cs' f b).union others).has y = true := by
      intro y hy
      by_cases hyx : y = x
      · obtain ⟨h1, h2, h3⟩ := has_incoming.mp hy
        rw [has_union, Bool.or_eq_true, definiteIn_eq hb]
        refine Or.inl (has_incoming.mpr ⟨h1, h2, fun p hp => ?_⟩)
        have hp := h3 p hp
        simp only [other, has_union, Bool.or_eq_true, hothers] at hp
        exact hp.resolve_right fun hne => hne hyx
      · rw [has_union, (hothers y).mpr hyx, Bool.or_true]
    refine ⟨hin, fun y hy => ?_⟩
    simp only [definiteEquations, has_union, Bool.or_eq_true, has_definiteWritesOf] at hy
    simp only [other, has_union, Bool.or_eq_true, hothers, definiteOut_eq hb, has_definiteWritesOf]
    by_cases hyx : y = x
    · subst hyx
      refine Or.inl (hy.imp (fun hy => ?_) fun ⟨ins, hins, hw⟩ => ?_)
      · simpa [hothers] using hin y hy
      · exact ⟨ins, hins, h ins (mem_instructionsOf.mpr ⟨b, hb, hins⟩) hw⟩
    · exact Or.inr hyx

/-! ## the masks -/

/-- an instruction of the function stands where a piece is not surely written -/
def Unwritten (thunks : GuestSaveRestoreThunks) (cs : CalleeContracts) (f : IrFunction)
    (x : Piece) (ins : IrInstruction) : Prop :=
  ∃ b < f.blocks.length, ∃ before rest, f.body b = before ++ ins :: rest ∧
    (definiteIn thunks cs f b).has x = false ∧
    ∀ ins' ∈ before, (definiteWrites thunks cs ins').has x = false

theorem Unwritten.mem {x : Piece} {ins : IrInstruction} (h : Unwritten thunks cs f x ins) :
    ins ∈ instructionsOf f := by
  obtain ⟨b, hb, before, rest, hbody, -⟩ := h
  exact mem_instructionsOf.mpr ⟨b, hb, by rw [hbody]; simp⟩

theorem Unwritten.anti {x : Piece} {ins : IrInstruction} (h : ∀ ins ∈ instructionsOf f,
      (definiteWrites thunks cs ins).has x = true → (definiteWrites thunks cs' ins).has x = true)
    (hu : Unwritten thunks cs' f x ins) : Unwritten thunks cs f x ins := by
  obtain ⟨b, hb, before, rest, hbody, hin, hbefore⟩ := hu
  refine ⟨b, hb, before, rest, hbody, ?_, fun ins' hins' => ?_⟩
  · exact Bool.eq_false_iff.mpr fun ht =>
      Bool.eq_false_iff.mp hin ((definiteFlow_mono x h b).1 ht)
  · have hmem : ins' ∈ instructionsOf f :=
      mem_instructionsOf.mpr ⟨b, hb, by rw [hbody]; exact List.mem_append_left _ hins'⟩
    exact Bool.eq_false_iff.mpr fun ht =>
      Bool.eq_false_iff.mp (hbefore ins' hins') (h ins' hmem ht)

theorem has_readsUnwritten {body : List IrInstruction} {written : RegisterSet} {x : Piece} :
    (readsUnwritten thunks cs body written).has x = true ↔
      ∃ before ins rest, body = before ++ ins :: rest ∧ (reads thunks cs ins).has x = true ∧
        written.has x = false ∧ ∀ ins' ∈ before, (definiteWrites thunks cs ins').has x = false := by
  induction body generalizing written with
  | nil => simp [readsUnwritten]
  | cons ins body ih =>
    simp only [readsUnwritten, has_union, has_except, Bool.or_eq_true, Bool.and_eq_true,
      Bool.not_eq_true', ih, Bool.or_eq_false_iff]
    constructor
    · rintro (⟨hr, hw⟩ | ⟨before, ins', rest, rfl, hr, ⟨hw, hd⟩, hb⟩)
      · exact ⟨[], ins, body, rfl, hr, hw, fun _ h => by cases h⟩
      · refine ⟨ins :: before, ins', rest, rfl, hr, hw, fun i hi => ?_⟩
        rcases List.mem_cons.mp hi with rfl | hi
        · exact hd
        · exact hb i hi
    · rintro ⟨before, ins', rest, hbody, hr, hw, hb⟩
      cases before with
      | nil =>
        obtain ⟨rfl, rfl⟩ := List.cons.inj hbody
        exact Or.inl ⟨hr, hw⟩
      | cons i before =>
        obtain ⟨rfl, rfl⟩ := List.cons.inj hbody
        exact Or.inr ⟨before, ins', rest, rfl, hr, ⟨hw, hb _ List.mem_cons_self⟩,
          fun j hj => hb j (List.mem_cons_of_mem _ hj)⟩

/-- a piece is read before it is written where an instruction reads it that stands where it is not
surely written -/
theorem has_readBeforeWriteOf {x : Piece} : (readBeforeWriteOf thunks cs f).has x = true ↔
    ∃ ins, Unwritten thunks cs f x ins ∧ (reads thunks cs ins).has x = true := by
  simp only [readBeforeWriteOf, has_unionAll, List.mem_map, List.mem_range, Unwritten]
  constructor
  · rintro ⟨_, ⟨b, hb, rfl⟩, h⟩
    obtain ⟨before, ins, rest, hbody, hr, hw, hd⟩ := has_readsUnwritten.mp h
    exact ⟨ins, ⟨b, hb, before, rest, hbody, hw, hd⟩, hr⟩
  · rintro ⟨ins, ⟨b, hb, before, rest, hbody, hw, hd⟩, hr⟩
    exact ⟨_, ⟨b, hb, rfl⟩, has_readsUnwritten.mpr ⟨before, ins, rest, hbody, hr, hw, hd⟩⟩

theorem has_possibleWritesOf {x : Piece} : (possibleWritesOf thunks cs f).has x = true ↔
    ∃ ins ∈ instructionsOf f, (possibleWrites thunks cs ins).has x = true := by
  simp [possibleWritesOf, has_unionAll]

theorem has_definiteWritesAtExits {x : Piece} :
    (definiteWritesAtExits thunks cs f).has x = true ↔
      (∃ b < f.blocks.length, isExitBlock f b = true) ∧
        ∀ b < f.blocks.length, isExitBlock f b = true →
          (definiteOut thunks cs f b).has x = true := by
  have hmem : ∀ b, b ∈ (List.range f.blocks.length).filter (isExitBlock f) ↔
      b < f.blocks.length ∧ isExitBlock f b = true := by simp
  unfold definiteWritesAtExits
  cases hexits : (List.range f.blocks.length).filter (isExitBlock f) with
  | nil =>
    rw [hexits] at hmem
    simp only [has_empty, Bool.false_eq_true, false_iff, not_and]
    rintro ⟨b, hb, he⟩
    cases (hmem b).mpr ⟨hb, he⟩
  | cons first rest =>
    rw [hexits] at hmem
    simp only [has_foldl_intersect]
    constructor
    · rintro ⟨h1, h2⟩
      refine ⟨⟨first, (hmem first).mp List.mem_cons_self⟩, fun b hb he => ?_⟩
      rcases List.mem_cons.mp ((hmem b).mpr ⟨hb, he⟩) with rfl | hr
      · exact h1
      · exact h2 b hr
    · rintro ⟨-, h⟩
      have hall : ∀ b ∈ first :: rest, (definiteOut thunks cs f b).has x = true := fun b hb =>
        h b ((hmem b).mp hb).1 ((hmem b).mp hb).2
      exact ⟨hall first List.mem_cons_self, fun b hb => hall b (List.mem_cons_of_mem _ hb)⟩

end

end DolTranslator.Abi
