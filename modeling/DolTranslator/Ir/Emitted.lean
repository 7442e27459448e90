import DolTranslator.Ir.Names
import DolTranslator.Ir.Steps
import DolTranslator.Runtime.Integer

/-!
# The machine of the emitted code

Emitted code has no versions: every name of an architectural register is an access to one cell of
the CPU context (`cellOf`), any other name is a local variable, and a phi emits nothing.

* `emittedMachine`   executes the IR on the cells;
* `Words`   the operators of the runtime on 32-bit words.
-/

namespace DolTranslator

/-! ## cells -/

/-- the characters before the first `_`, when only digits follow it -/
def registerBaseChars (name : List Char) : List Char :=
  match name.span (· ≠ '_') with
  | (front, '_' :: digits) => if digits ≠ [] ∧ digits.all Char.isDigit then front else name
  | _ => name

def registerBase (name : String) : String := String.ofList (registerBaseChars name.toList)

def specialRegisters : List String :=
  ["lr", "cr", "ctr", "xer", "msr", "srr0", "srr1", "hid0", "hid1", "hid2"]

def isCpuRegister (name : String) : Bool :=
  let base := registerBase name
  isNumberedRegister "r" 2 3 32 base || isNumberedRegister "f" 2 3 32 base ||
    isNumberedRegister "cr" 3 3 8 (foldCase base) ||
    isNumberedRegister "gqr" 4 4 8 (foldCase base) || specialRegisters.contains (foldCase base)

def cellOf (name : String) : String :=
  if isCpuRegister name then foldCase (registerBase name) else name

theorem registerBaseChars_cases (cs : List Char) : registerBaseChars cs = cs ∨
    ∃ front digits, cs = front ++ '_' :: digits ∧ (∀ c ∈ digits, c.isDigit = true) ∧
      registerBaseChars cs = front := by
  unfold registerBaseChars
  split
  · rename_i front digits hs
    rw [List.span_eq_takeWhile_dropWhile] at hs
    obtain ⟨hfront, hrest⟩ := Prod.mk.inj hs
    split
    · rename_i hd
      refine Or.inr ⟨front, digits, ?_, List.all_eq_true.mp hd.2, rfl⟩
      rw [← hfront, ← hrest, List.takeWhile_append_dropWhile]
    · exact Or.inl rfl
  · exact Or.inl rfl

theorem registerBaseChars_of_not_mem {cs : List Char} (h : '_' ∉ cs) :
    registerBaseChars cs = cs := by
  rcases registerBaseChars_cases cs with e | ⟨front, digits, hcs, -, -⟩
  · exact e
  · rw [hcs] at h
    simp at h

theorem registerBaseChars_idem (cs : List Char) :
    registerBaseChars (registerBaseChars cs) = registerBaseChars cs := by
  by_cases h : registerBaseChars cs = cs
  · rw [h, h]
  · have hfront : registerBaseChars cs = cs.takeWhile (· ≠ '_') := by
      unfold registerBaseChars at h ⊢
      rw [List.span_eq_takeWhile_dropWhile] at h ⊢
      grind
    refine registerBaseChars_of_not_mem fun hmem => ?_
    rw [hfront] at hmem
    simpa using List.mem_takeWhile_imp hmem

theorem strip_eq_registerBase {name : String} (h : registerBase name ≠ "")
    (hn : '_' ∉ (registerBase name).toList) : stripNumericSuffix name = registerBase name := by
  unfold registerBase at h hn ⊢
  rw [String.toList_ofList] at hn
  rcases registerBaseChars_cases name.toList with e | ⟨front, digits, hname, hd, e⟩
  · rw [e] at hn ⊢
    rw [stripNumericSuffix, stripChars_of_no_underscore hn]
  · rw [e] at h ⊢
    have hf : front ≠ [] := by
      rintro rfl
      exact h rfl
    rw [stripNumericSuffix, hname, stripChars_append hf hd]

/-! ## the machine -/

section
variable {V W : Type}

def State.emittedStep (env : Env V W) (ins : IrInstruction) (s : State V W) :
    State V W × List (Event V) :=
  let e := execute env (fun x => s.regs (cellOf x)) s.regs s.world ins
  (⟨assignAll e.regs (ins.definitions.map cellOf) e.results, e.world⟩, e.events)

theorem State.emittedStep_assign (env : Env V W) (d : String) (value : IrValue) (s : State V W) :
    s.emittedStep env (.assign d value) =
      (⟨Function.update s.regs (cellOf d) (value.eval env fun x => s.regs (cellOf x)), s.world⟩,
        []) := by
  simp only [State.emittedStep, execute, IrInstruction.definitions, List.map_cons, List.map_nil,
    assignAll_cons, assignAll_nil]

def emittedMachine (env : Env V W) : Machine (State V W) V where
  operandValues ins s := ins.operands.map fun x => s.regs (cellOf x)
  step ins s := s.emittedStep env ins
  flow ins s := transfer env (fun x => s.regs (cellOf x)) s.regs s.world ins

theorem emittedMachine_transfers (env : Env V W) : (emittedMachine env).Transfers :=
  ⟨fun ins s => transfer_eq_next env _ s.regs s.world ins,
    fun _ s _ h => mem_targets_of_goto env _ s.regs s.world h⟩

/-- constants and operators of the runtime, on the words among its values -/
structure Words (env : Env V W) (word : Word → V) : Prop where
  imm : ∀ c, env.imm c = word (BitVec.ofInt 32 c)
  binary : ∀ op a b c, runtimeBinary op a b = some c → env.binary op (word a) (word b) = word c

end

/-- a runtime on words alone: memory holds zeros, calls return zero and change nothing -/
def wordEnv : Env Word Unit where
  imm c := BitVec.ofInt 32 c
  binary op a b := (runtimeBinary op a b).getD 0
  effectiveAddress base offset := base + BitVec.ofInt 32 offset
  load _ _ _ := (0, ())
  store _ _ _ _ := ()
  compare _ _ _ _ := 0
  resolve _ _ _ _ _ _ := 0
  resolvedLoad _ _ _ _ _ := (0, ())
  resolvedStore _ _ _ _ _ _ := ()
  resolvedPsqLoad _ _ _ _ _ _ _ _ _ := (0, ())
  resolvedPsqStore _ _ _ _ _ _ _ _ _ _ := ()
  call _ _ regs _ := (0, regs, ())
  indirectCall _ _ regs _ := (0, regs, ())
  condition _ _ _ _ := false
  selectCase _ _ := none

theorem wordEnv_words : Words wordEnv id :=
  ⟨fun _ => rfl, fun op a b c h => by show (runtimeBinary op a b).getD 0 = c; rw [h]; rfl⟩

end DolTranslator

/-!
## Executions from states that agree off some registers

Two register files that agree off a set `D` of names.  An instruction that does not look at `D`
does the same from both:

* `Ignores`         a call does not look at `D`: it leaves each name of `D` alone, or sets it to the
  same value from both;
* `RuntimeIgnores`  what the other instructions read on their own is not in `D`;
* `execute_agree`   one instruction.
-/

namespace DolTranslator

section
variable {V W : Type}

def AgreeOff (D : String → Prop) (regs regs' : String → V) : Prop := ∀ x, ¬D x → regs x = regs' x

/-- a call, as a function of the registers, from two register files -/
def Ignores (D : String → Prop) (run : (String → V) → V × (String → V) × W)
    (regs regs' : String → V) : Prop :=
  (run regs).1 = (run regs').1 ∧ (run regs).2.2 = (run regs').2.2 ∧
    ∀ x, (run regs).2.1 x = (run regs').2.1 x ∨
      (D x ∧ (run regs).2.1 x = regs x ∧ (run regs').2.1 x = regs' x)

/-- the quantised accesses and the compare do not look at `D` -/
structure RuntimeIgnores (env : Env V W) (D : String → Prop) : Prop where
  psqLoad : ∀ w i gqr guard offset range address regs regs' world, AgreeOff D regs regs' →
    env.resolvedPsqLoad w i gqr guard offset range address regs world =
      env.resolvedPsqLoad w i gqr guard offset range address regs' world
  psqStore : ∀ w i gqr guard offset range address source regs regs' world, AgreeOff D regs regs' →
    env.resolvedPsqStore w i gqr guard offset range address source regs world =
      env.resolvedPsqStore w i gqr guard offset range address source regs' world
  xer : ¬D "xer"

/-- the call that an instruction makes does not look at `D` -/
def CallIgnores (env : Env V W) (D : String → Prop) (read regs regs' : String → V) (world : W) :
    IrInstruction → Prop
  | .call _ target arguments _ =>
    Ignores D (fun r => env.call target (arguments.map (IrValue.eval env read)) r world) regs regs'
  | .indirectCall _ target arguments =>
    Ignores D (fun r => env.indirectCall (target.eval env read)
      (arguments.map (IrValue.eval env read)) r world) regs regs'
  | _ => True

/-- **One instruction that does not look at `D`.** -/
theorem execute_agree {env : Env V W} {D : String → Prop} (hrt : RuntimeIgnores env D)
    {read read' regs regs' : String → V} {world : W} {ins : IrInstruction}
    (hregs : AgreeOff D regs regs') (hread : ∀ x ∈ ins.operands, read x = read' x)
    (hcall : CallIgnores env D read regs regs' world ins) :
    (execute env read regs world ins).results = (execute env read' regs' world ins).results ∧
    (execute env read regs world ins).world = (execute env read' regs' world ins).world ∧
    (execute env read regs world ins).events = (execute env read' regs' world ins).events ∧
    ∀ x, (execute env read regs world ins).regs x = (execute env read' regs' world ins).regs x ∨
      (D x ∧ (execute env read regs world ins).regs x = regs x ∧
        (execute env read' regs' world ins).regs x = regs' x) := by
  rw [← execute_congr env regs' world hread]
  have hsame : ∀ x, regs x = regs' x ∨ (D x ∧ regs x = regs x ∧ regs' x = regs' x) := by
    intro x
    by_cases hD : D x
    · exact Or.inr ⟨hD, rfl, rfl⟩
    · exact Or.inl (hregs x hD)
  cases ins with
  | call d t args tail | indirectCall d t args =>
    obtain ⟨h1, h2, h3⟩ := hcall
    refine ⟨?_, h2, rfl, h3⟩
    simp only [execute]
    rw [h1]
  | resolvedPsqLoad d r a o w i g b =>
    have h := hrt.psqLoad w i g b o (read r) (a.eval env read) regs regs' world hregs
    exact ⟨by simp only [execute, h], by simp only [execute, h], rfl, hsame⟩
  | resolvedPsqStore r a o s w i g b =>
    have h := hrt.psqStore w i g b o (read r) (a.eval env read) (s.eval env read) regs regs' world
      hregs
    exact ⟨rfl, by simp only [execute, h], rfl, hsame⟩
  | setCrField i l r u =>
    exact ⟨by simp only [execute, hregs "xer" hrt.xer], rfl, rfl, hsame⟩
  | _ => exact ⟨rfl, rfl, rfl, hsame⟩

theorem assignAll_agree {regs regs' : String → V} {names : List String} {results : List V}
    {x : String} (h : regs x = regs' x ∨ (x ∈ names ∧ names.length ≤ results.length)) :
    assignAll regs names results x = assignAll regs' names results x := by
  induction names generalizing regs regs' results with
  | nil =>
    rcases h with h | ⟨hx, -⟩
    · exact h
    · cases hx
  | cons name names ih =>
    cases results with
    | nil =>
      rcases h with h | ⟨-, hlen⟩
      · exact h
      · cases hlen
    | cons v results =>
      rw [assignAll_cons, assignAll_cons]
      refine ih ?_
      by_cases hx : x = name
      · left
        rw [hx, Function.update_self, Function.update_self]
      · rw [Function.update_of_ne hx, Function.update_of_ne hx]
        rcases h with h | ⟨hmem, hlen⟩
        · exact Or.inl h
        · refine Or.inr ⟨(List.mem_cons.mp hmem).resolve_left hx, ?_⟩
          simpa using hlen

theorem definitions_length (env : Env V W) (read regs : String → V) (world : W)
    {ins : IrInstruction} (h : ins.isPhi = false) :
    ins.definitions.length ≤ (execute env read regs world ins).results.length := by
  cases ins with
  | phi d s => cases h
  | call d t args tail | indirectCall d t args =>
    simp only [IrInstruction.definitions, execute]
    split <;> simp
  | _ => simp [IrInstruction.definitions, execute]

end

end DolTranslator
