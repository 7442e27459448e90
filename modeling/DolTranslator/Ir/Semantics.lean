import DolTranslator.Ir.Nodes

/-!
# Meaning of the IR

An `Env` says what the IR leaves to the runtime: the operators, memory, calls, the decision of a
branch.  Values `V` and the rest of the machine `W` are arbitrary.

* `execute`   one instruction, reading its operands through `read` and everything the runtime
  reads on its own (a callee, a helper, a condition text) through the registers `regs`;
* `transfer`  where a control instruction goes;
* `runBody`   the instructions of a block, for any kind of state.

`read` and `regs` are two arguments because a renamed function reads its operands under version
names, while a callee still sees the architectural registers.
-/

namespace DolTranslator

/-- what an instruction does that is visible outside the registers -/
inductive Event (V : Type) where
  | load (sizeBytes : Nat) (address value : V)
  | store (sizeBytes : Nat) (address value : V)
  | call (target : String) (arguments : List V)
  | indirectCall (target : V) (arguments : List V)
deriving DecidableEq, Repr

/-- where control goes after an instruction -/
inductive Flow (V : Type) where
  | next
  | goto (label : String)
  | ret (value : Option V)
  | indirect (target : V)
  | noCase (selector : V)
  | trap
deriving DecidableEq, Repr

/-- the runtime under the IR -/
structure Env (V W : Type) where
  imm : Int → V
  binary : String → V → V → V
  effectiveAddress : V → Int → V
  load : Nat → V → W → V × W
  store : Nat → V → V → W → W
  compare : Bool → V → V → V → V
  resolve : V → Int → Int → Bool → Bool → W → V
  resolvedLoad : Nat → Int → V → V → W → V × W
  resolvedStore : Nat → Int → V → V → V → W → W
  resolvedPsqLoad : Nat → Nat → Option Nat → Bool → Int → V → V → (String → V) → W → V × W
  resolvedPsqStore : Nat → Nat → Option Nat → Bool → Int → V → V → V → (String → V) → W → W
  call : String → List V → (String → V) → W → V × (String → V) × W
  indirectCall : V → List V → (String → V) → W → V × (String → V) × W
  condition : String → String → (String → V) → W → Bool
  selectCase : V → List Nat → Option Nat

/-- the outcome of one instruction: values for its destinations in order, the registers and the
world with what the runtime changed on its own, and the events -/
structure Effect (V W : Type) where
  results : List V
  regs : String → V
  world : W
  events : List (Event V)

section
variable {V W : Type}

def IrValue.eval (env : Env V W) (read : String → V) : IrValue → V
  | .register name => read name
  | .imm value => env.imm value

def IrAddress.eval (env : Env V W) (read : String → V) (address : IrAddress) : V :=
  env.effectiveAddress (read address.base) address.offset

/-- the effect of an instruction that stays in its block -/
def execute (env : Env V W) (read regs : String → V) (world : W) : IrInstruction → Effect V W
  | .assign _ value => ⟨[value.eval env read], regs, world, []⟩
  | .binary _ left right op => ⟨[env.binary op (left.eval env read) (right.eval env read)],
      regs, world, []⟩
  | .load _ address size =>
    let ea := address.eval env read
    let r := env.load size ea world
    ⟨[r.1], regs, r.2, [.load size ea r.1]⟩
  | .store address source size =>
    let ea := address.eval env read
    let v := source.eval env read
    ⟨[], regs, env.store size ea v world, [.store size ea v]⟩
  | .resolveGuestMemoryRange _ base minOffset length needsRead needsWrite =>
    ⟨[env.resolve (base.eval env read) minOffset length needsRead needsWrite world],
      regs, world, []⟩
  | .resolvedLoad _ range address rangeOffset size =>
    let ea := address.eval env read
    let r := env.resolvedLoad size rangeOffset (read range) ea world
    ⟨[r.1], regs, r.2, [.load size ea r.1]⟩
  | .resolvedStore range address rangeOffset source size =>
    let ea := address.eval env read
    let v := source.eval env read
    ⟨[], regs, env.resolvedStore size rangeOffset (read range) ea v world, [.store size ea v]⟩
  | .resolvedPsqLoad _ range address rangeOffset w i knownGqr guardKnownGqr =>
    let r := env.resolvedPsqLoad w i knownGqr guardKnownGqr rangeOffset (read range)
      (address.eval env read) regs world
    ⟨[r.1], regs, r.2, []⟩
  | .resolvedPsqStore range address rangeOffset source w i knownGqr guardKnownGqr =>
    ⟨[], regs, env.resolvedPsqStore w i knownGqr guardKnownGqr rangeOffset (read range)
      (address.eval env read) (source.eval env read) regs world, []⟩
  | .resolvedLoadPair _ _ range first second rangeOffset size descending =>
    let firstOffset := if descending then rangeOffset + size else rangeOffset
    let secondOffset := if descending then rangeOffset else rangeOffset + size
    let ea₁ := first.eval env read
    let ea₂ := second.eval env read
    let r₁ := env.resolvedLoad size firstOffset (read range) ea₁ world
    let r₂ := env.resolvedLoad size secondOffset (read range) ea₂ r₁.2
    ⟨[r₁.1, r₂.1], regs, r₂.2, [.load size ea₁ r₁.1, .load size ea₂ r₂.1]⟩
  | .resolvedStorePair range first second rangeOffset firstSource secondSource size descending =>
    let firstOffset := if descending then rangeOffset + size else rangeOffset
    let secondOffset := if descending then rangeOffset else rangeOffset + size
    let ea₁ := first.eval env read
    let ea₂ := second.eval env read
    let v₁ := firstSource.eval env read
    let v₂ := secondSource.eval env read
    ⟨[], regs, env.resolvedStore size secondOffset (read range) ea₂ v₂
      (env.resolvedStore size firstOffset (read range) ea₁ v₁ world),
      [.store size ea₁ v₁, .store size ea₂ v₂]⟩
  | .call destination target arguments _ =>
    let args := arguments.map (IrValue.eval env read)
    let r := env.call target args regs world
    ⟨if isNullOrWhiteSpace destination then [] else [r.1], r.2.1, r.2.2, [.call target args]⟩
  | .indirectCall destination target arguments =>
    let callee := target.eval env read
    let args := arguments.map (IrValue.eval env read)
    let r := env.indirectCall callee args regs world
    ⟨if isNullOrWhiteSpace destination then [] else [r.1], r.2.1, r.2.2,
      [.indirectCall callee args]⟩
  | .setCrField _ left right isUnsigned =>
    ⟨[env.compare isUnsigned (left.eval env read) (right.eval env read) (regs "xer")],
      regs, world, []⟩
  | _ => ⟨[], regs, world, []⟩

/-- where an instruction sends control -/
def transfer (env : Env V W) (read regs : String → V) (world : W) : IrInstruction → Flow V
  | .branch condition trueLabel falseLabel conditionRegister =>
    if env.condition condition (stripNumericSuffix conditionRegister) regs world then
      .goto trueLabel
    else .goto falseLabel
  | .jump label => .goto label
  | .jumpTable selector cases =>
    match env.selectCase (read selector) (cases.map IrJumpTableCase.targetAddress) with
    | some k =>
      match cases[k]? with
      | some c => .goto c.targetLabel
      | none => .noCase (read selector)
    | none => .noCase (read selector)
  | .indirectJump target => .indirect (target.eval env read)
  | .ret value => .ret (value.map (IrValue.eval env read))
  | .undefined .. => .trap
  | _ => .next

def assignAll (regs : String → V) : List String → List V → (String → V)
  | name :: names, v :: vs => assignAll (Function.update regs name v) names vs
  | _, _ => regs

@[simp] theorem assignAll_nil (regs : String → V) (vs : List V) :
    assignAll regs [] vs = regs := rfl

@[simp] theorem assignAll_nil_right (regs : String → V) (names : List String) :
    assignAll regs names [] = regs := by
  cases names <;> rfl

theorem assignAll_cons (regs : String → V) (name : String) (names : List String) (v : V)
    (vs : List V) : assignAll regs (name :: names) (v :: vs) =
      assignAll (Function.update regs name v) names vs := rfl

theorem assignAll_of_notMem (regs : String → V) (names : List String) (vs : List V) (x : String)
    (h : x ∉ names) : assignAll regs names vs x = regs x := by
  induction names generalizing regs vs with
  | nil => rfl
  | cons name names ih =>
    cases vs with
    | nil => rfl
    | cons v vs =>
      have hx : x ≠ name := fun e => h (e ▸ List.mem_cons_self)
      rw [assignAll_cons, ih _ _ (fun e => h (List.mem_cons_of_mem _ e)),
        Function.update_of_ne hx]

end

/-! ## blocks -/

section
variable {σ V : Type}

/-- what one executed instruction leaves in the log: the values of its operands, its events -/
abbrev LogEntry (V : Type) := List V × List (Event V)

/-- a kind of machine: how it reads operands, executes, and transfers control -/
structure Machine (σ V : Type) where
  operandValues : IrInstruction → σ → List V
  step : IrInstruction → σ → σ × List (Event V)
  flow : IrInstruction → σ → Flow V

/-- run instructions until one leaves the block -/
def Machine.runBody (m : Machine σ V) : List IrInstruction → σ → σ × List (LogEntry V) × Flow V
  | [], s => (s, [], .next)
  | ins :: rest, s =>
    match m.flow ins s with
    | .next =>
      let r := m.step ins s
      let t := m.runBody rest r.1
      (t.1, (m.operandValues ins s, r.2) :: t.2.1, t.2.2)
    | flow => (s, [(m.operandValues ins s, [])], flow)

end

def IrValue.names : IrValue → List String
  | .register name => [name]
  | .imm _ => []

/-- the registers an instruction reads as operands; the registers that the runtime reads on its
own (`xer` for a compare, `gqr` for a quantised access, the condition register of a branch) are
not among them -/
def IrInstruction.operands : IrInstruction → List String
  | assign _ value => value.names
  | binary _ left right _ | setCrField _ left right _ => left.names ++ right.names
  | load _ address _ => [address.base]
  | store address source _ => address.base :: source.names
  | resolveGuestMemoryRange _ base .. => base.names
  | resolvedLoad _ range address .. => [range, address.base]
  | resolvedStore range address _ source _ => range :: address.base :: source.names
  | resolvedPsqLoad _ range address .. => range :: address.names
  | resolvedPsqStore range address _ source .. => range :: (address.names ++ source.names)
  | resolvedLoadPair _ _ range first second .. => [range, first.base, second.base]
  | resolvedStorePair range first second _ firstSource secondSource .. =>
    range :: first.base :: second.base :: (firstSource.names ++ secondSource.names)
  | call _ _ arguments _ => arguments.flatMap IrValue.names
  | indirectCall _ target arguments => target.names ++ arguments.flatMap IrValue.names
  | indirectJump target => target.names
  | jumpTable selector _ => [selector]
  | ret (some value) => value.names
  | _ => []

section
variable {V W : Type} (env : Env V W)

theorem IrValue.eval_congr {read read' : String → V} {value : IrValue}
    (h : ∀ x ∈ value.names, read x = read' x) : value.eval env read = value.eval env read' := by
  cases value with
  | register name => exact h name List.mem_cons_self
  | imm c => rfl

theorem IrValue.map_eval_congr {read read' : String → V} {values : List IrValue}
    (h : ∀ x ∈ values.flatMap IrValue.names, read x = read' x) :
    values.map (IrValue.eval env read) = values.map (IrValue.eval env read') := by
  refine List.map_congr_left fun v hv => eval_congr env fun x hx => ?_
  exact h x (List.mem_flatMap.mpr ⟨v, hv, hx⟩)

/-- an instruction reads nothing but its operands through `read` -/
theorem execute_congr {read read' : String → V} (regs : String → V) (world : W)
    {ins : IrInstruction} (h : ∀ x ∈ ins.operands, read x = read' x) :
    execute env read regs world ins = execute env read' regs world ins := by
  cases ins with
  | assign d v => simp only [execute, IrValue.eval_congr env h]
  | binary d l r op | setCrField i l r u =>
    simp only [execute, IrValue.eval_congr env fun x hx => h x (List.mem_append_left _ hx),
      IrValue.eval_congr env fun x hx => h x (List.mem_append_right _ hx)]
  | load d a n => simp only [execute, IrAddress.eval, h a.base List.mem_cons_self]
  | store a v n =>
    simp only [execute, IrAddress.eval, h a.base List.mem_cons_self,
      IrValue.eval_congr env fun x hx => h x (List.mem_cons_of_mem _ hx)]
  | resolveGuestMemoryRange d b => simp only [execute, IrValue.eval_congr env h]
  | resolvedLoad d r a =>
    simp only [execute, IrAddress.eval, h r (by simp [IrInstruction.operands]),
      h a.base (by simp [IrInstruction.operands])]
  | resolvedStore r a o v n =>
    simp only [execute, IrAddress.eval, h r (by simp [IrInstruction.operands]),
      h a.base (by simp [IrInstruction.operands]),
      IrValue.eval_congr env fun x (hx : x ∈ v.names) => h x (by simp [IrInstruction.operands, hx])]
  | resolvedPsqLoad d r a =>
    simp only [execute, h r (by simp [IrInstruction.operands]),
      IrValue.eval_congr env fun x (hx : x ∈ a.names) => h x (by simp [IrInstruction.operands, hx])]
  | resolvedPsqStore r a o v =>
    simp only [execute, h r (by simp [IrInstruction.operands]),
      IrValue.eval_congr env fun x (hx : x ∈ a.names) => h x (by simp [IrInstruction.operands, hx]),
      IrValue.eval_congr env fun x (hx : x ∈ v.names) => h x (by simp [IrInstruction.operands, hx])]
  | resolvedLoadPair d e r a b =>
    simp only [execute, IrAddress.eval, h r (by simp [IrInstruction.operands]),
      h a.base (by simp [IrInstruction.operands]), h b.base (by simp [IrInstruction.operands])]
  | resolvedStorePair r a b o v w n =>
    simp only [execute, IrAddress.eval, h r (by simp [IrInstruction.operands]),
      h a.base (by simp [IrInstruction.operands]), h b.base (by simp [IrInstruction.operands]),
      IrValue.eval_congr env fun x (hx : x ∈ v.names) => h x (by simp [IrInstruction.operands, hx]),
      IrValue.eval_congr env fun x (hx : x ∈ w.names) => h x (by simp [IrInstruction.operands, hx])]
  | call d t args tail => simp only [execute, IrValue.map_eval_congr env h]
  | indirectCall d t args =>
    simp only [execute, IrValue.eval_congr env fun x hx => h x (List.mem_append_left _ hx),
      IrValue.map_eval_congr env fun x hx => h x (List.mem_append_right _ hx)]
  | _ => rfl

theorem transfer_congr {read read' : String → V} (regs : String → V) (world : W)
    {ins : IrInstruction} (h : ∀ x ∈ ins.operands, read x = read' x) :
    transfer env read regs world ins = transfer env read' regs world ins := by
  cases ins with
  | jumpTable sel cases => simp only [transfer, h sel List.mem_cons_self]
  | indirectJump t => simp only [transfer, IrValue.eval_congr env h]
  | ret v =>
    cases v with
    | none => rfl
    | some v => simp only [transfer, Option.map_some, IrValue.eval_congr env h]
  | _ => rfl

end

section
variable {V W : Type}

/-- registers and world -/
@[ext] structure State (V W : Type) where
  regs : String → V
  world : W

def State.step (env : Env V W) (ins : IrInstruction) (s : State V W) :
    State V W × List (Event V) :=
  let e := execute env s.regs s.regs s.world ins
  (⟨assignAll e.regs ins.definitions e.results, e.world⟩, e.events)

def plainMachine (env : Env V W) : Machine (State V W) V where
  operandValues ins s := ins.operands.map s.regs
  step ins s := s.step env ins
  flow ins s := transfer env s.regs s.regs s.world ins

end

end DolTranslator
