import DolTranslator.Abi.Contracts
import DolTranslator.Psq.TagLaw

/-!
# Nonvolatile float registers

A function publishes which of `f14` .. `f31` it may write; one that may write none is registered as
preserving them all.

* `FunctionNonvolatileFprWriteMask`   the destinations of some kinds of instructions;
* `LeafStackPreservedFprMask`   the registers with a save, a restore and the return in this
  order;
* `Restored`   on every path the value at the entry is back in the register;
* `published_right`   when the mask covers the body.
-/

namespace DolTranslator.Nonvolatile
open Abi Paired

/-! ## the published mask -/

def nonvolatileFprMask (name : String) (r : Fin 32) : Bool :=
  decide (14 ≤ r.val) && floatBit name == some r

/-- `TryParseNonvolatileFpr` -/
def parsesAsNonvolatileFpr (name : String) (r : Fin 32) : Bool :=
  match registerBaseChars name.toList with
  | first :: index =>
    first.toLower == 'f' && decide (14 ≤ r.val) && parseDecimal (String.ofList index) == some r.val
  | [] => false

def leafStackSavedFprName (r : Fin 32) : String :=
  "leaf_stack_saved_f" ++ toString r.val ++ "_entry"

def instructions (f : IrFunction) : List IrInstruction :=
  f.blocks.flatMap IrBasicBlock.instructions

section
variable (thunks : GuestSaveRestoreThunks)

def inlineRestoreNonvolatileFprMask (target : String) (r : Fin 32) : Bool :=
  match (parseAddress target).bind (tryGetInlineThunk thunks) with
  | some (.restFpr, start) => decide (max 14 start ≤ r.val)
  | _ => false

def instructionNonvolatileFprWriteMask (r : Fin 32) : IrInstruction → Bool
  | .assign d _ | .binary d .. | .load d .. | .indirectCall d .. | .phi d _ =>
    nonvolatileFprMask d r
  | .call d target .. => inlineRestoreNonvolatileFprMask thunks target r || nonvolatileFprMask d r
  | _ => false

def functionNonvolatileFprWriteMask (f : IrFunction) (r : Fin 32) : Bool :=
  (instructions f).any (instructionNonvolatileFprWriteMask thunks r)

def tlsContextStateHelpers : List String :=
  ["ppc_fcmp", "ppc_pscmpo0", "ppc_pscmpo1", "ppc_pscmpu0", "ppc_pscmpu1", "ppc_stwcx", "ppc_mcrxr",
    "ppc_mcrfs", "ppc_lswi", "ppc_lswx", "ppc_stswi", "ppc_stswx", "ossystemcall"]

def functionEligibleForLeafRegisterCache (f : IrFunction) : Bool :=
  (instructions f).all fun
    | .indirectCall .. | .indirectJump _ | .jumpTable .. => false
    | .call _ target .. =>
      match parseAddress target with
      | some address => (tryGetInlineThunk thunks address).isSome
      | none => !isGuestCallTarget target && !tlsContextStateHelpers.contains (foldCase target)
    | _ => true

def isReturn : IrInstruction → Bool
  | .ret _ => true
  | _ => false

def isSave (r : Fin 32) : IrInstruction → Bool
  | .assign d (.register x) => parsesAsNonvolatileFpr x r && sameLabel d (leafStackSavedFprName r)
  | _ => false

def isRestore (r : Fin 32) : IrInstruction → Bool
  | .assign d (.register x) => parsesAsNonvolatileFpr d r && sameLabel x (leafStackSavedFprName r)
  | _ => false

/-- an index into the instructions of all blocks; a dictionary keeps the last one -/
def lastIndex (f : IrFunction) (p : String → IrInstruction → Bool) : Option Nat :=
  let all := f.blocks.flatMap fun block => block.instructions.map (block.label, ·)
  (all.zipIdx.filter fun x => p x.1.1 x.1.2).getLast?.map Prod.snd

def leafStackPreservedFprMask (f : IrFunction) (r : Fin 32) : Bool :=
  functionEligibleForLeafRegisterCache thunks f && (instructions f).countP isReturn == 1 &&
    match lastIndex f fun label ins => sameLabel label f.entryLabel && isSave r ins,
        lastIndex f fun _ ins => isRestore r ins, lastIndex f fun _ ins => isReturn ins with
    | some save, some restore, some ret => decide (save < restore ∧ restore < ret)
    | _, _, _ => false

def publishedFprMask (f : IrFunction) (r : Fin 32) : Bool :=
  functionNonvolatileFprWriteMask thunks f r && !leafStackPreservedFprMask thunks f r

/-! ## what the body does -/

def assigned : IrInstruction → List String
  | .phi .. => []
  | ins => ins.definitions

def among (names : List String) (r : Fin 32) : Bool := names.any (floatBit · == some r)

def restoresInline (r : Fin 32) : IrInstruction → Bool
  | .call _ target .. => inlineRestoreNonvolatileFprMask thunks target r
  | _ => false

def mayWriteFpr (r : Fin 32) (ins : IrInstruction) : Bool :=
  among (assigned ins) r || restoresInline thunks r ins

/-- the destinations that only the lowering of ranges introduces -/
def loweredDestinations : IrInstruction → List String
  | .resolveGuestMemoryRange d .. | .resolvedLoad d .. | .resolvedPsqLoad d .. => [d]
  | .resolvedLoadPair d e .. => [d, e]
  | _ => []

/-- the register is a destination of lowered loads, and of nothing else -/
structure OnlyLowered (f : IrFunction) (r : Fin 32) : Prop where
  lowered : ∃ ins ∈ instructions f, among (loweredDestinations ins) r = true
  only : ∀ ins ∈ instructions f, (among ins.definitions r || restoresInline thunks r ins) = true →
    among (loweredDestinations ins) r = true

/-- in the order of the text, a function without guest calls saves the register in its first block,
then restores it, then comes its one return -/
structure InOrder (f : IrFunction) (r : Fin 32) : Prop where
  eligible : functionEligibleForLeafRegisterCache thunks f = true
  single : (instructions f).countP isReturn = 1
  order : ∃ save restore ret,
    lastIndex f (fun label ins => sameLabel label f.entryLabel && isSave r ins) = some save ∧
    lastIndex f (fun _ ins => isRestore r ins) = some restore ∧
    lastIndex f (fun _ ins => isReturn ins) = some ret ∧ save < restore ∧ restore < ret

/-- whether the register and the saved local still hold the value at the entry -/
structure Held where
  register : Bool
  saved : Bool

def Held.step (r : Fin 32) (held : Held) : IrInstruction → Held
  | .assign d (.register x) =>
    let value := if cellOf x = fprName r then held.register
      else if cellOf x = leafStackSavedFprName r then held.saved else false
    ⟨if cellOf d = fprName r then value else held.register,
      if cellOf d = leafStackSavedFprName r then value else held.saved⟩
  | ins => ⟨held.register && !mayWriteFpr thunks r ins,
      held.saved && !(assigned ins).any (cellOf · == leafStackSavedFprName r)⟩

/-- the places on the paths from the entry, with what is still held there -/
inductive Reach (f : IrFunction) (r : Fin 32) : Nat → Nat → Held → Prop
  | entry {b : Nat} (h : f.labelIndex f.entryLabel = some b) : Reach f r b 0 ⟨true, false⟩
  | next {b i : Nat} {held : Held} {ins : IrInstruction} (h : Reach f r b i held)
      (at_ : (f.body b)[i]? = some ins) (inside : ins.isTerminator = false) :
      Reach f r b (i + 1) (held.step thunks r ins)
  | jump {b i b' : Nat} {held : Held} {ins : IrInstruction} {label : String}
      (h : Reach f r b i held) (at_ : (f.body b)[i]? = some ins) (target : label ∈ ins.targets)
      (block : f.labelIndex label = some b') : Reach f r b' 0 held
  | fall {b i : Nat} {held : Held} (h : Reach f r b i held) (at_ : (f.body b)[i]? = none) :
      Reach f r (b + 1) 0 held

/-- no step of the function follows -/
def Left {V W : Type} (env : Env V W) (f : IrFunction) (c : Config (State V W)) : Prop :=
  (emittedMachine env).advance f (fun _ _ s => s) c = none

def Restored (f : IrFunction) (r : Fin 32) : Prop :=
  ∀ b i held, Reach thunks f r b i held →
    (∃ (V W : Type) (env : Env V W) (s : State V W), Left env f ⟨b, i, s⟩) → held.register = true

/-- a call leaves the saved locals alone, and the nonvolatile registers unless it is of a thunk -/
structure CalleesPreserve {V W : Type} (env : Env V W) (r : Fin 32) : Prop where
  call : ∀ target arguments regs world, inlineRestoreNonvolatileFprMask thunks target r = false →
    (env.call target arguments regs world).2.1 (fprName r) = regs (fprName r)
  callSaved : ∀ target arguments regs world,
    (env.call target arguments regs world).2.1 (leafStackSavedFprName r) =
      regs (leafStackSavedFprName r)
  indirectCall : ∀ target arguments regs world x, x ∈ [fprName r, leafStackSavedFprName r] →
    (env.indirectCall target arguments regs world).2.1 x = regs x

/-- the function leaves the register as it was -/
def Preserves (f : IrFunction) (r : Fin 32) : Prop :=
  ∀ (V W : Type) (env : Env V W), CalleesPreserve thunks env r →
    ∀ (b : Nat) (s : State V W) (c : Config (State V W)), f.labelIndex f.entryLabel = some b →
      Relation.ReflTransGen
        (fun c c' => (emittedMachine env).advance f (fun _ _ s => s) c = some c') ⟨b, 0, s⟩ c →
      Left env f c → c.state.regs (fprName r) = s.regs (fprName r)

/-- the mask names every register that is written and not restored, and the others are preserved -/
structure PublishedRight (f : IrFunction) : Prop where
  covers : ∀ r : Fin 32, 14 ≤ r.val → (∃ ins ∈ instructions f, mayWriteFpr thunks r ins = true) →
    ¬Restored thunks f r → publishedFprMask thunks f r = true
  preserves : ∀ r : Fin 32, 14 ≤ r.val → publishedFprMask thunks f r = false → Preserves thunks f r

end

theorem isNumberedRegister_digits {text base : String} {low high bound : Nat}
    (h : isNumberedRegister text low high bound base = true) :
    ∃ digits, base.toList = text.toList ++ digits ∧ ∀ c ∈ digits, c.isDigit = true := by
  simp only [isNumberedRegister, Bool.and_eq_true, List.isPrefixOf_iff_prefix] at h
  obtain ⟨⟨-, digits, hdigits⟩, hvalue⟩ := h
  refine ⟨digits, hdigits.symm, ?_⟩
  rw [← hdigits, List.drop_left, decimalValue] at hvalue
  split_ifs at hvalue with hall
  exact List.all_eq_true.mp hall.2

theorem toLower_of_isDigit {c : Char} (h : c.isDigit = true) : c.toLower = c := by
  rcases toLower_cases c with hc | ⟨n, hn, rfl, -⟩
  · exact hc
  · revert h
    interval_cases n <;> decide

theorem floatBit_of_cellOf {r : Fin 32} {d : String} (h : cellOf d = fprName r) :
    floatBit d = some r := by
  have hname : ∀ r : Fin 32, isCpuRegister (fprName r) = true ∧
      (fprName r).toList.head? = some 'f' ∧ floatBit (fprName r) = some r ∧
      isNumberedRegister "cr" 3 3 8 (fprName r) = false ∧
      isNumberedRegister "gqr" 4 4 8 (fprName r) = false ∧
      specialRegisters.contains (fprName r) = false := by decide +kernel
  obtain ⟨hcpu, hhead, hbit, hcr, hgqr, hspecial⟩ := hname r
  unfold cellOf at h
  split_ifs at h with hd
  · simp only [isCpuRegister, h, hcr, hgqr, hspecial, Bool.or_false, Bool.or_eq_true] at hd
    have hlist := congrArg String.toList h
    rw [toList_foldCase] at hlist
    rcases hd with hd | hd <;> obtain ⟨digits, hbase, hdigits⟩ := isNumberedRegister_digits hd
    · rw [← hlist, hbase] at hhead
      exact absurd hhead (by simp)
    · rw [hbase, List.map_append, List.map_congr_left fun c hc => toLower_of_isDigit (hdigits c hc),
        List.map_id'] at hlist
      rw [← floatBit_base, ← hbit, ← String.toList_inj.mp (hbase.trans hlist)]
  · rw [h, hcpu] at hd
    exact absurd rfl hd

/-! ## paths and runs -/

section
variable {thunks : GuestSaveRestoreThunks} {f : IrFunction} {r : Fin 32}

theorem mem_instructions {b i : Nat} {ins : IrInstruction} (h : (f.body b)[i]? = some ins) :
    ins ∈ instructions f := by
  have hmem := List.mem_of_getElem? h
  unfold IrFunction.body at hmem
  split at hmem
  · exact List.mem_flatMap.mpr ⟨_, List.mem_of_getElem? ‹_›, hmem⟩
  · cases hmem

theorem restored_of_unwritten (h : ∀ ins ∈ instructions f, mayWriteFpr thunks r ins = false) :
    Restored thunks f r := by
  intro b i held hreach hleft
  clear hleft
  induction hreach with
  | entry => rfl
  | next _ hins _ ih =>
    have hw := h _ (mem_instructions hins)
    unfold Held.step
    split
    · rename_i d _ _
      have hd : cellOf d ≠ fprName r := fun hd => by
        simp [mayWriteFpr, among, assigned, IrInstruction.definitions, floatBit_of_cellOf hd] at hw
      dsimp only
      rw [if_neg hd]
      exact ih
    · simp [ih, hw]
  | jump _ _ _ _ ih | fall _ _ ih => exact ih

variable {V W : Type} {env : Env V W}

/-- what is held has the value at the entry -/
structure Held.True (r : Fin 32) (held : Held) (v : V) (s : State V W) : Prop where
  register : held.register = true → s.regs (fprName r) = v
  saved : held.saved = true → s.regs (leafStackSavedFprName r) = v

theorem emittedStep_of_notMem {x : String} {ins : IrInstruction} (s : State V W)
    (hcall : ∀ d target arguments tail values, ins = .call d target arguments tail →
      (env.call target values s.regs s.world).2.1 x = s.regs x)
    (hindirect : ∀ d target arguments value values, ins = .indirectCall d target arguments →
      (env.indirectCall value values s.regs s.world).2.1 x = s.regs x)
    (hx : (assigned ins).any (cellOf · == x) = false) :
    (s.emittedStep env ins).1.regs x = s.regs x := by
  have hregs : (execute env (fun x => s.regs (cellOf x)) s.regs s.world ins).regs x = s.regs x := by
    cases ins with
    | call d target arguments tail => exact hcall _ _ _ _ _ rfl
    | indirectCall d target arguments => exact hindirect _ _ _ _ _ rfl
    | _ => rfl
  have hphi : assigned ins = ins.definitions ∨ ∃ d sources, ins = .phi d sources := by
    cases ins <;> first | exact .inr ⟨_, _, rfl⟩ | exact .inl rfl
  rcases hphi with hassigned | ⟨d, sources, rfl⟩
  · rw [State.emittedStep]
    dsimp only
    rw [assignAll_of_notMem, hregs]
    simpa [hassigned] using hx
  · rfl

theorem Held.True.step (hcalls : CalleesPreserve thunks env r) {held : Held} {v : V}
    {s : State V W} (h : held.True r v s) (ins : IrInstruction) :
    (held.step thunks r ins).True r v (s.emittedStep env ins).1 := by
  unfold Held.step
  split
  · rename_i d x
    have hvalue : (if cellOf x = fprName r then held.register
        else if cellOf x = leafStackSavedFprName r then held.saved else false) = true →
        s.regs (cellOf x) = v := by
      split_ifs with hreg hsaved
      · exact hreg ▸ h.register
      · exact hsaved ▸ h.saved
      · exact nofun
    have hupdate {y : String} {old : Bool} (hold : old = true → s.regs y = v) :
        (if cellOf d = y then if cellOf x = fprName r then held.register
          else if cellOf x = leafStackSavedFprName r then held.saved else false else old) = true →
        Function.update s.regs (cellOf d) (s.regs (cellOf x)) y = v := by
      by_cases hd : cellOf d = y
      · rw [if_pos hd, hd, Function.update_self]
        exact hvalue
      · rw [if_neg hd, Function.update_of_ne (Ne.symm hd)]
        exact hold
    rw [State.emittedStep_assign]
    constructor <;> dsimp only [IrValue.eval]
    · exact hupdate h.register
    · exact hupdate h.saved
  · constructor <;> intro hheld <;> rw [Bool.and_eq_true, Bool.not_eq_true'] at hheld
    · obtain ⟨hw, hthunk⟩ := Bool.or_eq_false_iff.mp hheld.2
      have hcells : (assigned ins).any (cellOf · == fprName r) = false :=
        List.any_eq_false.mpr fun d hd hcell => List.any_eq_false.mp hw d hd
          (beq_iff_eq.mpr (floatBit_of_cellOf (beq_iff_eq.mp hcell)))
      refine (emittedStep_of_notMem s ?_ ?_ hcells).trans (h.register hheld.1)
      · rintro d target arguments tail values rfl
        exact hcalls.call _ _ _ _ hthunk
      · exact fun _ _ _ _ _ _ => hcalls.indirectCall _ _ _ _ _ List.mem_cons_self
    · refine (emittedStep_of_notMem s ?_ ?_ hheld.2).trans (h.saved hheld.1)
      · exact fun _ _ _ _ _ _ => hcalls.callSaved _ _ _ _
      · exact fun _ _ _ _ _ _ => hcalls.indirectCall _ _ _ _ _ (by simp)

theorem reach_step (hcalls : CalleesPreserve thunks env r) {c c' : Config (State V W)} {v : V}
    (h : ∃ held, Reach thunks f r c.block c.index held ∧ held.True r v c.state)
    (hstep : (emittedMachine env).advance f (fun _ _ s => s) c = some c') :
    ∃ held, Reach thunks f r c'.block c'.index held ∧ held.True r v c'.state := by
  obtain ⟨held, hreach, htrue⟩ := h
  unfold Machine.advance at hstep
  split at hstep
  · rename_i hend
    obtain ⟨next, hnext, rfl⟩ := Option.map_eq_some_iff.mp hstep
    simp only [IrFunction.nextBlock, Option.ite_none_right_eq_some, Option.some.injEq] at hnext
    exact ⟨held, hnext.2 ▸ hreach.fall hend, htrue⟩
  · rename_i ins hins
    split at hstep
    · rename_i hflow
      obtain rfl := Option.some.inj hstep
      exact ⟨_, hreach.next hins (((emittedMachine_transfers env).next ins c.state).mp hflow),
        htrue.step hcalls ins⟩
    · obtain ⟨next, hnext, rfl⟩ := Option.map_eq_some_iff.mp hstep
      cases hflow : (emittedMachine env).flow ins c.state with
      | goto label =>
        rw [hflow] at hnext
        exact ⟨held, hreach.jump hins ((emittedMachine_transfers env).goto _ _ _ hflow) hnext,
          htrue⟩
      | next => exact absurd hflow ‹_›
      | _ => rw [hflow] at hnext; cases hnext

theorem preserves_of_restored (h : Restored thunks f r) : Preserves thunks f r := by
  intro V W env hcalls b s c hentry hrun hleft
  have hheld : ∃ held, Reach thunks f r c.block c.index held ∧
      held.True r (s.regs (fprName r)) c.state := by
    clear hleft
    induction hrun with
    | refl => exact ⟨_, .entry hentry, fun _ => rfl, nofun⟩
    | tail _ hstep ih => exact reach_step hcalls ih hstep
  obtain ⟨held, hreach, htrue⟩ := hheld
  exact htrue.register (h _ _ _ hreach ⟨V, W, env, c.state, hleft⟩)

/-! ## the mask -/

theorem destined_of_mayWriteFpr {ins : IrInstruction} (h : mayWriteFpr thunks r ins = true) :
    (among ins.definitions r || restoresInline thunks r ins) = true := by
  cases ins with
  | phi => cases h
  | _ => exact h

theorem destined_cases (hr : 14 ≤ r.val) {ins : IrInstruction}
    (h : (among ins.definitions r || restoresInline thunks r ins) = true) :
    instructionNonvolatileFprWriteMask thunks r ins = true ∨
      among (loweredDestinations ins) r = true := by
  cases ins with
  | setCrField fieldIndex =>
    simp only [among, restoresInline, IrInstruction.definitions, List.any_cons, List.any_nil,
      Bool.or_false, beq_iff_eq] at h
    obtain ⟨⟨rest, hrest⟩, -⟩ := floatBit_cons h
    exact absurd hrest (by simp)
  | call d target | indirectCall d target =>
    simp only [among, IrInstruction.definitions] at h
    split_ifs at h <;>
      simp_all [restoresInline, instructionNonvolatileFprWriteMask, nonvolatileFprMask, or_comm]
  | _ =>
    simp_all [among, restoresInline, IrInstruction.definitions, loweredDestinations,
      instructionNonvolatileFprWriteMask, nonvolatileFprMask]

/-- a lowered instruction is of no kind that the mask lists -/
theorem unlisted_of_onlyLowered (h : OnlyLowered thunks f r) :
    functionNonvolatileFprWriteMask thunks f r = false := by
  refine List.any_eq_false.mpr fun ins hins hlisted => ?_
  have hblank {d : String} (hd : floatBit d = some r) : isNullOrWhiteSpace d = false := by
    obtain ⟨⟨rest, hrest⟩, -⟩ := floatBit_cons hd
    simp [isNullOrWhiteSpace, hrest, Char.isWhitespace]
  have hlowered := h.only ins hins
  cases ins <;>
    simp_all [instructionNonvolatileFprWriteMask, nonvolatileFprMask, among, restoresInline,
      IrInstruction.definitions, loweredDestinations]

theorem leafStackPreservedFprMask_iff :
    leafStackPreservedFprMask thunks f r = true ↔ InOrder thunks f r := by
  unfold leafStackPreservedFprMask
  rw [Bool.and_eq_true, Bool.and_eq_true, beq_iff_eq]
  constructor
  · rintro ⟨⟨heligible, hsingle⟩, horder⟩
    split at horder
    · exact ⟨heligible, hsingle, _, _, _, ‹_›, ‹_›, ‹_›, of_decide_eq_true horder⟩
    · cases horder
  · rintro ⟨heligible, hsingle, save, restore, ret, hsave, hrestore, hret, horder⟩
    refine ⟨⟨heligible, hsingle⟩, ?_⟩
    rw [hsave, hrestore, hret]
    exact decide_eq_true horder

/-- **The published mask covers the body** when every register that only the lowering of ranges
writes, and every one with a save, a restore and the return in this order, is restored. -/
theorem published_right (thunks : GuestSaveRestoreThunks) (f : IrFunction) :
    PublishedRight thunks f ↔ ∀ r : Fin 32, 14 ≤ r.val →
      OnlyLowered thunks f r ∨ InOrder thunks f r → Restored thunks f r := by
  constructor
  · intro h r hr hcases
    by_contra hlost
    have hwritten : ∃ ins ∈ instructions f, mayWriteFpr thunks r ins = true := by
      by_contra hno
      exact hlost (restored_of_unwritten fun ins hins =>
        Bool.eq_false_iff.mpr fun hw => hno ⟨ins, hins, hw⟩)
    have hpublished := h.covers r hr hwritten hlost
    rw [publishedFprMask, Bool.and_eq_true, Bool.not_eq_true'] at hpublished
    rcases hcases with honly | horder
    · rw [unlisted_of_onlyLowered honly] at hpublished
      cases hpublished.1
    · rw [leafStackPreservedFprMask_iff.mpr horder] at hpublished
      cases hpublished.2
  · intro h
    have hcovers (r : Fin 32) (hr : 14 ≤ r.val)
        (hwritten : ∃ ins ∈ instructions f, mayWriteFpr thunks r ins = true)
        (hlost : ¬Restored thunks f r) : publishedFprMask thunks f r = true := by
      obtain ⟨ins, hins, hw⟩ := hwritten
      have hlisted : functionNonvolatileFprWriteMask thunks f r = true := by
        by_contra hno
        have hlowered (x : IrInstruction) (hx : x ∈ instructions f)
            (hdestined : (among x.definitions r || restoresInline thunks r x) = true) :
            among (loweredDestinations x) r = true :=
          (destined_cases hr hdestined).resolve_left fun hlist =>
            hno (List.any_eq_true.mpr ⟨x, hx, hlist⟩)
        exact hlost (h r hr (.inl ⟨⟨ins, hins, hlowered ins hins (destined_of_mayWriteFpr hw)⟩,
          hlowered⟩))
      rw [publishedFprMask, hlisted, Bool.true_and, Bool.not_eq_true']
      exact Bool.eq_false_iff.mpr fun hleaf =>
        hlost (h r hr (.inr (leafStackPreservedFprMask_iff.mp hleaf)))
    refine ⟨hcovers, fun r hr hout => preserves_of_restored ?_⟩
    by_contra hlost
    refine hlost (restored_of_unwritten fun ins hins => Bool.eq_false_iff.mpr fun hw => ?_)
    rw [hcovers r hr ⟨ins, hins, hw⟩ hlost] at hout
    cases hout

end

/-- two loads that are lowered to one range -/
def lowered : IrFunction := ⟨"lowered", "a", [⟨"a",
  [.resolveGuestMemoryRange "range" (.register "r3") 0 16 true false,
    .resolvedLoad "f14" "range" ⟨"r3", 0⟩ 0 8, .resolvedLoad "f15" "range" ⟨"r3", 8⟩ 8 8,
    .ret none]⟩]⟩

def onesEnv : Env Word Unit := { wordEnv with resolvedLoad := fun _ _ _ _ _ => (1, ()) }

theorem lowered_unpublished : ¬∀ thunks f, PublishedRight thunks f := by
  intro hall
  have h := (hall ⟨none, none, none, none⟩ lowered).preserves 14 (by decide) (by decide +kernel)
    Word Unit onesEnv ⟨fun _ _ _ _ _ => rfl, fun _ _ _ _ => rfl, fun _ _ _ _ _ _ => rfl⟩ 0
    ⟨fun _ => 0, ()⟩ ⟨0, 3, _⟩ (by decide +kernel)
    (.tail (.tail (.tail .refl rfl) rfl) rfl) rfl
  exact absurd h (by decide +kernel)

end DolTranslator.Nonvolatile
