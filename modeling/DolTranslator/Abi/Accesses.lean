import DolTranslator.Abi.Rounds

/-!
# What a run reads and writes

The accesses of a run to architectural state.  An instruction first reads a set and then writes one;
a run is the list of these pairs, those of the callees included.

* `usesOf`, `definesOf`   an instruction that runs in its function alone: the registers of its
  operands and destinations, the condition text, XER and the CR field of a comparison;
* `Performs`   an instruction with all that happens until the next one, except a call of
  another function of the program;
* `Exec`   a run of a function from a place to its exit; with `strict`, one whose
  steps all meet the conditions that `RecordedEntry` and the constructors name.
-/

set_option linter.unusedSectionVars false

namespace DolTranslator.Abi
open RegisterSet

def Piece.tracked : Piece → Bool
  | .gpr _ | .fpr _ | .cr _ | .xer | .ctr | .lr => true
  | .fpscr | .gqr _ | .hid _ => false

/-! ## lists of accesses -/

abbrev Accesses := List (RegisterSet × RegisterSet)

def writtenBy (t : Accesses) : RegisterSet := unionAll (t.map Prod.snd)

/-- a piece is read before it is written -/
def ReadsFirst (x : Piece) (t : Accesses) : Prop :=
  ∃ before s rest, t = before ++ s :: rest ∧ s.1.has x = true ∧ (writtenBy before).has x = false

theorem has_writtenBy {t : Accesses} {x : Piece} :
    (writtenBy t).has x = true ↔ ∃ s ∈ t, s.2.has x = true := by
  simp only [writtenBy, has_unionAll, List.mem_map]
  constructor
  · rintro ⟨_, ⟨s, hs, rfl⟩, hx⟩
    exact ⟨s, hs, hx⟩
  · rintro ⟨s, hs, hx⟩
    exact ⟨_, ⟨s, hs, rfl⟩, hx⟩

@[simp] theorem has_writtenBy_nil {x : Piece} : (writtenBy []).has x = false := has_empty x

theorem has_writtenBy_append {t u : Accesses} {x : Piece} : (writtenBy (t ++ u)).has x = true ↔
    (writtenBy t).has x = true ∨ (writtenBy u).has x = true := by
  simp only [has_writtenBy, List.mem_append, or_and_right, exists_or]

theorem ReadsFirst.append {t u : Accesses} {x : Piece} (h : ReadsFirst x (t ++ u)) :
    ReadsFirst x t ∨ (writtenBy t).has x = false ∧ ReadsFirst x u := by
  obtain ⟨before, s, rest, he, hs, hb⟩ := h
  rcases List.append_eq_append_iff.mp he with ⟨m, rfl, hu⟩ | ⟨m, rfl, hm⟩
  · refine Or.inr ⟨?_, m, s, rest, hu, hs, ?_⟩
    · exact Bool.eq_false_iff.mpr fun ht =>
        Bool.eq_false_iff.mp hb (has_writtenBy_append.mpr (Or.inl ht))
    · exact Bool.eq_false_iff.mpr fun ht =>
        Bool.eq_false_iff.mp hb (has_writtenBy_append.mpr (Or.inr ht))
  · cases m with
    | nil =>
      refine Or.inr ⟨by simpa using hb, [], s, rest, by simpa using hm.symm, hs,
        has_writtenBy_nil⟩
    | cons a m =>
      obtain ⟨rfl, rfl⟩ := List.cons.inj hm
      exact Or.inl ⟨before, s, m, rfl, hs, hb⟩

theorem readsFirst_single {s : RegisterSet × RegisterSet} {x : Piece} :
    ReadsFirst x [s] ↔ s.1.has x = true := by
  constructor
  · rintro ⟨before, s', rest, he, hs, -⟩
    cases before with
    | nil =>
      obtain ⟨rfl, -⟩ := List.cons.inj he
      exact hs
    | cons a before => simp at he
  · exact fun h => ⟨[], s, [], rfl, h, has_writtenBy_nil⟩

theorem not_readsFirst_nil {x : Piece} : ¬ ReadsFirst x [] := by
  rintro ⟨before, s, rest, he, -⟩
  simp at he

/-- a contract that is true of a run, for the pieces that count -/
structure Meets (counts : Piece → Bool) (contract : GuestAbiContract) (t : Accesses) : Prop where
  reads : ∀ x, counts x = true → ReadsFirst x t → contract.readBeforeWrite.has x = true
  writes : ∀ x, counts x = true → (writtenBy t).has x = true →
    contract.possibleWrites.has x = true
  definite : ∀ x, counts x = true → contract.definiteWrites.has x = true →
    (writtenBy t).has x = true

/-! ## one instruction -/

/-- calls and control transfers are not `plain` -/
def isPlain (ins : IrInstruction) : Bool :=
  !ins.isTerminator && match ins with
    | .call .. | .indirectCall .. => false
    | _ => true

/-- the state that an instruction reads -/
def usesOf : IrInstruction → RegisterSet
  | .branch _ _ _ conditionRegister =>
    if isRegisterName conditionRegister then register conditionRegister
    else specialRegistersInRawExpression conditionRegister
  | .resolvedPsqLoad _ _ originalAddress _ _ i knownGqr guardKnownGqr =>
    (unionAll (originalAddress.registers.map register)).union
      (ofAccessGqr i knownGqr guardKnownGqr)
  | .resolvedPsqStore _ originalAddress _ source _ i knownGqr guardKnownGqr =>
    (unionAll ((originalAddress.registers ++ source.registers).map register)).union
      (ofAccessGqr i knownGqr guardKnownGqr)
  | ins => unionAll (ins.uses.map register)

def definesOf : IrInstruction → RegisterSet
  | .setCrField fieldIndex .. => { empty with cr := singleBit 8 (fieldIndex % 32) }
  | ins => unionAll (ins.definitions.map register)

/-- the runs of code outside the program: functions with a contract, and runtime helpers -/
structure Outside where
  function : Nat → Accesses → Prop
  helper : String → List IrValue → Accesses → Prop

/-- the contracts are true of the functions outside the program -/
def Outside.Contracts (out : Outside) (counts : Piece → Bool) (externals : CalleeContracts) :
    Prop :=
  ∀ a contract, externals a = some contract → ∀ t, out.function a t → Meets counts contract t

/-- the contracts and the catalog are true of the code outside the program -/
structure Outside.True (out : Outside) (externals : CalleeContracts) : Prop where
  contracts : out.Contracts Piece.tracked externals
  helperReads : ∀ target arguments t, out.helper target arguments t → ∀ x, x.tracked = true →
    ReadsFirst x t → (helperEffect target arguments).reads.has x = true
  helperWrites : ∀ target arguments t, out.helper target arguments t → ∀ x, x.tracked = true →
    (writtenBy t).has x = true → (helperEffect target arguments).writes.has x = true

scoped instance neZero_gprs : NeZero 32 := ⟨by decide⟩

/-- r11, the frame base of the save and restore thunks -/
def frameBase : RegisterSet := single (.gpr 11)

def thunkAccesses : InlineThunkKind × Nat → RegisterSet × RegisterSet
  | (.saveGpr, start) => (frameBase.union (rangeToTop true start), empty)
  | (.saveFpr, start) => (frameBase.union (rangeToTop false start), empty)
  | (.restGpr, start) => (frameBase, rangeToTop true start)
  | (.restFpr, start) => (frameBase, rangeToTop false start)

section
variable (thunks : GuestSaveRestoreThunks) (p : Program) (externals : CalleeContracts)
  (out : Outside) (strict : Prop)

/-- an instruction and its accesses, when the run has written `written` before -/
inductive Performs (written : RegisterSet) : IrInstruction → Accesses → Prop where
  | plain {ins : IrInstruction} (h : isPlain ins = true) :
      Performs written ins [(usesOf ins, definesOf ins)]
  | helper {destination target : String} {arguments : List IrValue} {tail : Bool} {t : Accesses}
      (h : parseAddress target = none) (hrun : out.helper target arguments t) :
      Performs written (.call destination target arguments tail)
        ([(ofValues arguments, empty)] ++ (t ++
          [(empty, callDestination destination (some (helperEffect target arguments)))]))
  | outside {destination target : String} {arguments : List IrValue} {tail : Bool} {a : Nat}
      {contract : GuestAbiContract} {t : Accesses} (h : parseAddress target = some a)
      (hgiven : p.ordinalAt a = none) (hcontract : externals a = some contract)
      (hrun : out.function a t) :
      Performs written (.call destination target arguments tail)
        (t ++ [(empty, callDestination destination none)])
  | thunk {destination target : String} {arguments : List IrValue} {tail : Bool} {a : Nat}
      {thunk : InlineThunkKind × Nat} (h : parseAddress target = some a)
      (hgiven : p.ordinalAt a = none) (hcontract : externals a = none)
      (hthunk : tryGetInlineThunk thunks a = some thunk)
      -- the frame base is a value that this run has computed
      (hstrict : strict → written.has (.gpr 11) = true) :
      Performs written (.call destination target arguments tail)
        ([thunkAccesses thunk] ++ [(empty, callDestination destination none)])
  | indirect {destination : String} {target : IrValue} {arguments : List IrValue} {t : Accesses}
      -- nothing is known about the callee
      (hstrict : ¬ strict) :
      Performs written (.indirectCall destination target arguments)
        ([((ofValue target).union (ofValues arguments), empty)] ++
          (t ++ [(empty, register destination)]))

/-- the edge from `b` to `next` is recorded, or nothing is assumed about what is written at the
start of `next` -/
def RecordedEntry (f : IrFunction) (b next : Nat) : Prop :=
  f.labelOf next = f.entryLabel ∨ predecessors f next = [] ∨ b ∈ predecessors f next

/-- a transfer that leaves the function: a return, a dispatch, a label outside the function -/
def Leaves (f : IrFunction) : IrInstruction → Prop
  | .ret _ | .indirectJump _ | .jumpTable .. => True
  | ins => ∃ label ∈ ins.targets, ordinalOf f label = none

/-- a run of function `i` from a place to its exit, when it has written `written` before -/
inductive Exec : Nat → Nat → Nat → RegisterSet → Accesses → Prop where
  | step {i b pos : Nat} {written : RegisterSet} {ins : IrInstruction} {t u : Accesses}
      (hins : ((p.body i).body b)[pos]? = some ins)
      (hstep : Performs thunks p externals out strict written ins t)
      (hrest : Exec i b (pos + 1) (written.union (writtenBy t)) u) :
      Exec i b pos written (t ++ u)
  | call {i b pos a j entry : Nat} {written : RegisterSet} {destination target : String}
      {arguments : List IrValue} {tail : Bool} {t u : Accesses}
      (hins : ((p.body i).body b)[pos]? = some (.call destination target arguments tail))
      (htarget : parseAddress target = some a) (hgiven : p.ordinalAt a = some j)
      (hentry : ordinalOf (p.body j) (p.body j).entryLabel = some entry)
      (hcallee : Exec j entry 0 empty t)
      (hrest : Exec i b (pos + 1)
        (written.union (writtenBy (t ++ [(empty, callDestination destination none)]))) u) :
      Exec i b pos written ((t ++ [(empty, callDestination destination none)]) ++ u)
  | goto {i b pos next : Nat} {written : RegisterSet} {ins : IrInstruction} {label : String}
      {u : Accesses} (hins : ((p.body i).body b)[pos]? = some ins) (hlabel : label ∈ ins.targets)
      (hnext : ordinalOf (p.body i) label = some next)
      (hstrict : strict → RecordedEntry (p.body i) b next)
      (hrest : Exec i next 0 written u) :
      Exec i b pos written ((usesOf ins, empty) :: u)
  | leave {i b pos : Nat} {written : RegisterSet} {ins : IrInstruction}
      (hins : ((p.body i).body b)[pos]? = some ins) (hleaves : Leaves (p.body i) ins)
      (hstrict : strict → isExitBlock (p.body i) b = true) :
      Exec i b pos written [(usesOf ins, empty)]
  | fall {i b : Nat} {written : RegisterSet} {u : Accesses}
      (hnext : b + 1 < (p.body i).blocks.length)
      (hstrict : strict → RecordedEntry (p.body i) b (b + 1))
      (hrest : Exec i (b + 1) 0 written u) :
      Exec i b ((p.body i).body b).length written u
  | fallOff {i b : Nat} {written : RegisterSet} (hlast : b + 1 = (p.body i).blocks.length)
      (hstrict : strict → isExitBlock (p.body i) b = true) :
      Exec i b ((p.body i).body b).length written []

end

end DolTranslator.Abi
