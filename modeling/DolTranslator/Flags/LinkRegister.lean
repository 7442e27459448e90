import DolTranslator.Flags.Contracts
import DolTranslator.Ir.Emitted

set_option linter.unusedSectionVars false

/-!
# Dropping the store of a return address

`bl` is lifted to `lr = return address` and a call.  The emitter drops the store when the contract
of the callee says that it does not read LR.

* `suppressedLrStores`   the stores that are dropped;
* `Stale`   the dropped store is the last write of LR;
* `Quiet`   the step does not read LR, and does not leave the function with it;
* `dropLrStores_preserves`   where no step reads a stale LR, the run is the same, LR included.
-/

namespace DolTranslator.Flags
open Transition

def isLinkRegister (name : String) : Bool := foldCase (registerBase name) == "lr"

/-- `lr = constant` before a call whose callee ignores LR -/
def suppressedLrStores (f : IrFunction) (policy : CallPolicy) (b i : Nat) : Bool :=
  !hasOutOfBandLocalEntry f policy &&
    match (f.body b)[i]?, (f.body b)[i + 1]? with
    | some (.assign destination (.imm _)), some (.call _ target _ _) =>
      isLinkRegister destination && calleeIgnoresLinkRegister policy target
    | _, _ => false

def dropLrStores (f : IrFunction) (policy : CallPolicy) : IrFunction :=
  skipInstructions f (suppressedLrStores f policy)

/-! ## runs of the function with all its stores -/

section
variable {V W : Type} (env : Env V W) (f : IrFunction) (policy : CallPolicy)

/-- a name is LR -/
abbrev IsLr (x : String) : Prop := x = "lr"

/-- the call of an instruction, as a function of the registers -/
def callOf (s : State V W) : IrInstruction → Option ((String → V) → V × (String → V) × W)
  | .call _ target arguments _ => some fun regs =>
    env.call target (arguments.map (IrValue.eval env fun x => s.regs (cellOf x))) regs s.world
  | .indirectCall _ target arguments => some fun regs =>
    env.indirectCall (target.eval env fun x => s.regs (cellOf x))
      (arguments.map (IrValue.eval env fun x => s.regs (cellOf x))) regs s.world
  | _ => none

/-- the instruction writes LR itself, or its callee does: what LR then holds does not depend on
what it held -/
def WritesLr (ins : IrInstruction) (s : State V W) : Prop :=
  (ins.isPhi = false ∧ ∃ d ∈ ins.definitions, cellOf d = "lr") ∨
    ∃ run ∈ callOf env s ins, ∀ v,
      (run (Function.update s.regs "lr" v)).2.1 "lr" = (run s.regs).2.1 "lr"

/-- a place in a run, and whether the last write of LR is a store that is dropped -/
abbrev LrPlace (V W : Type) := Config (State V W) × Prop

def Stale (c : Config (State V W)) (stale : Prop) : Prop :=
  match (f.body c.block)[c.index]? with
  | none => stale
  | some ins => suppressedLrStores f policy c.block c.index = true ∨
      (stale ∧ ¬WritesLr env ins c.state)

def lrStep (p : LrPlace V W) : Option (LrPlace V W) :=
  ((emittedMachine env).advance f (fun _ _ s => s) p.1).map fun c =>
    (c, Stale env f policy p.1 p.2)

/-- the step reads LR neither as an operand nor as the register of a condition, its callee does not
look at LR (a call that follows a dropped store is approved by its contract), and the step does not
leave the function -/
def Quiet (c : Config (State V W)) : Prop :=
  ((emittedMachine env).advance f (fun _ _ s => s) c).isSome ∧
    ∀ ins ∈ (f.body c.block)[c.index]?,
      (∀ x ∈ ins.operands, cellOf x ≠ "lr") ∧
      (∀ t a b r, ins = .branch t a b r → foldCase (stripNumericSuffix r) ≠ "lr") ∧
      ((∃ d t a tail, ins = .call d t a tail ∧ calleeIgnoresLinkRegister policy t = true) ∨
        ∀ run ∈ callOf env c.state ins, ∀ v, Ignores IsLr run c.state.regs
          (Function.update c.state.regs "lr" v))

/-- LR is not read while it is stale -/
def LrUnread (p : LrPlace V W) : Prop := p.2 → Quiet env f policy p.1

/-- the contracts are true of the callees -/
def ContractsTrue : Prop :=
  ∀ target a contract, parseAddress target = some a →
    policy.modOverridableCallTargets.contains a = false →
    policy.guestAbiContracts a = some contract → contract.readsLrBeforeWrite = false →
    contract.boundaryFlags.escaping = false →
    ∀ arguments world regs v, Ignores IsLr (fun r => env.call target arguments r world) regs
      (Function.update regs "lr" v)

/-- the quantised accesses, the compare and the conditions on other registers do not look at LR -/
structure RuntimeIgnoresLr : Prop extends RuntimeIgnores env IsLr where
  condition : ∀ text base regs regs' world, foldCase base ≠ "lr" → AgreeOff IsLr regs regs' →
    env.condition text base regs world = env.condition text base regs' world

end

/-! ## the two runs side by side -/

theorem cellOf_linkRegister {d : String} (h : isLinkRegister d = true) : cellOf d = "lr" := by
  have hfold : foldCase (registerBase d) = "lr" := by simpa [isLinkRegister] using h
  have hcpu : isCpuRegister d = true := by
    simp [isCpuRegister, hfold, specialRegisters]
  rw [cellOf, if_pos hcpu, hfold]

theorem suppressed_shape {f : IrFunction} {policy : CallPolicy} {b i : Nat}
    (h : suppressedLrStores f policy b i = true) :
    ∃ d n, (f.body b)[i]? = some (.assign d (.imm n)) ∧ cellOf d = "lr" := by
  unfold suppressedLrStores at h
  rw [Bool.and_eq_true] at h
  obtain ⟨-, h⟩ := h
  split at h
  · rename_i d n _ _ _ _ hi _
    rw [Bool.and_eq_true] at h
    exact ⟨d, n, hi, cellOf_linkRegister h.1⟩
  · cases h

section
variable {V W : Type} {env : Env V W} {f : IrFunction} {policy : CallPolicy}

theorem agreeOff_lr_eq {regs regs' : String → V} (h : AgreeOff IsLr regs regs') :
    regs' = Function.update regs "lr" ( regs' "lr") := by
  funext x
  by_cases hx : x = "lr"
  · rw [hx, Function.update_self]
  · rw [Function.update_of_ne hx, h x hx]

theorem contract_ignores (hcon : ContractsTrue env policy) {target : String}
    (h : calleeIgnoresLinkRegister policy target = true) (arguments : List V) (world : W)
    (regs : String → V) (v : V) :
    Ignores IsLr (fun r => env.call target arguments r world) regs (Function.update regs "lr" v) := by
  unfold calleeIgnoresLinkRegister at h
  cases ha : parseAddress target with
  | none => simp [ha] at h
  | some a =>
    simp only [ha] at h
    split at h
    · cases h
    · rename_i hno
      have hmod : policy.modOverridableCallTargets.contains a = false := by
        simp only [Bool.or_eq_true, not_or] at hno
        exact Bool.eq_false_iff.mpr hno.1.1
      cases hc : policy.guestAbiContracts a with
      | none => simp [hc] at h
      | some contract =>
        simp only [hc, Bool.and_eq_true, Bool.not_eq_true'] at h
        exact hcon target a contract ha hmod hc h.1 h.2 arguments world regs v

theorem not_writesLr_of_terminator {ins : IrInstruction} (h : ins.isTerminator = true)
    (s : State V W) : ¬WritesLr env ins s := by
  rintro (⟨-, d, hd, -⟩ | ⟨run, hrun, -⟩)
  · cases ins <;> first | exact absurd h Bool.false_ne_true | cases hd
  · cases ins <;> first | exact absurd h Bool.false_ne_true | cases hrun

section
variable (hrt : RuntimeIgnoresLr env) (hcon : ContractsTrue env policy) {c : Config (State V W)}
  {ins : IrInstruction} (hins : (f.body c.block)[c.index]? = some ins) (hq : Quiet env f policy c)
  {s' : State V W} (hw : c.state.world = s'.world) (hregs : AgreeOff IsLr c.state.regs s'.regs)
include hrt hcon hins hq hw hregs

theorem quiet_flow : (emittedMachine env).flow ins s' = (emittedMachine env).flow ins c.state := by
  obtain ⟨hread, hcond, -⟩ := hq.2 ins hins
  have hops : ∀ x ∈ ins.operands, s'.regs (cellOf x) = c.state.regs (cellOf x) :=
    fun x hx => (hregs _ (hread x hx)).symm
  show transfer env _ s'.regs s'.world ins = transfer env _ c.state.regs c.state.world ins
  rw [transfer_congr env s'.regs s'.world hops, ← hw]
  cases ins with
  | branch t a b r =>
    simp only [transfer]
    rw [hrt.condition t _ _ _ c.state.world (hcond t a b r rfl) hregs]
  | _ => rfl

theorem quiet_call : CallIgnores env IsLr (fun x => c.state.regs (cellOf x)) c.state.regs s'.regs
    c.state.world ins := by
  rw [agreeOff_lr_eq hregs]
  obtain ⟨-, -, hcall⟩ := hq.2 ins hins
  rcases hcall with ⟨d, t, a, tail, rfl, happ⟩ | hcall
  · exact contract_ignores hcon happ _ _ _ _
  · cases ins with
    | call d t a tail => exact hcall _ rfl _
    | indirectCall d t a => exact hcall _ rfl _
    | _ => exact trivial

theorem quiet_step :
    ((emittedMachine env).step ins s').2 = ((emittedMachine env).step ins c.state).2 ∧
    ((emittedMachine env).step ins c.state).1.world = ((emittedMachine env).step ins s').1.world ∧
    AgreeOff IsLr ((emittedMachine env).step ins c.state).1.regs
      ((emittedMachine env).step ins s').1.regs ∧
    (WritesLr env ins c.state → ((emittedMachine env).step ins c.state).1.regs "lr" =
      ((emittedMachine env).step ins s').1.regs "lr") := by
  obtain ⟨hread, -, -⟩ := hq.2 ins hins
  have hops : ∀ x ∈ ins.operands, c.state.regs (cellOf x) = s'.regs (cellOf x) :=
    fun x hx => hregs _ (hread x hx)
  obtain ⟨h1, h2, h3, h4⟩ := execute_agree hrt.toRuntimeIgnores hregs hops
    (quiet_call hrt hcon hins hq hw hregs)
  simp only [emittedMachine, State.emittedStep]
  rw [← hw]
  refine ⟨h3.symm, h2, fun x hx => ?_, fun hwrite => ?_⟩
  · rw [← h1]
    exact assignAll_agree (Or.inl ((h4 x).resolve_right fun h => hx h.1))
  · rw [← h1]
    rcases hwrite with ⟨hphi, d, hd, hcell⟩ | ⟨run, hrun, hset⟩
    · refine assignAll_agree (Or.inr ⟨List.mem_map.mpr ⟨d, hd, hcell⟩, ?_⟩)
      rw [List.length_map]
      exact definitions_length env _ _ _ hphi
    · refine assignAll_agree (Or.inl ?_)
      have hset' := hset ( s'.regs "lr")
      rw [← agreeOff_lr_eq hregs] at hset'
      rw [← execute_congr env s'.regs c.state.world hops]
      cases ins with
      | call d t a tail | indirectCall d t a =>
        obtain rfl := Option.some.inj hrun
        exact hset'.symm
      | _ => cases hrun

end

/-- the kept and the dropped run are at one place, and differ at most in a stale LR -/
structure Aligned (p : LrPlace V W) (c' : Config (State V W)) : Prop where
  block : c'.block = p.1.block
  index : c'.index = p.1.index
  world : p.1.state.world = c'.state.world
  regs : AgreeOff IsLr p.1.state.regs c'.state.regs
  fresh : ¬p.2 → p.1.state.regs "lr" = c'.state.regs "lr"

theorem Aligned.eq {p : LrPlace V W} {c' : Config (State V W)} (h : Aligned p c') (hp : ¬p.2) :
    c' = p.1 := by
  refine Config.ext h.block h.index (State.ext ?_ h.world.symm)
  funext x
  by_cases hx : x = "lr"
  · rw [hx]
    exact (h.fresh hp).symm
  · exact (h.regs x hx).symm

theorem Aligned.refl (c : Config (State V W)) (stale : Prop) : Aligned (c, stale) c :=
  ⟨rfl, rfl, rfl, fun _ _ => rfl, fun _ => rfl⟩

theorem dropLrStores_nextBlock (b : Nat) (flow : Flow V) :
    (dropLrStores f policy).nextBlock b flow = f.nextBlock b flow :=
  skipInstructions_nextBlock f _ b flow

/-- **One step of both runs.** -/
theorem Aligned.step (hrt : RuntimeIgnoresLr env) (hcon : ContractsTrue env policy)
    {p t : LrPlace V W} {c' : Config (State V W)} (h : Aligned p c')
    (hp : LrUnread env f policy p) (hstep : lrStep env f policy p = some t) :
    ∃ t', (emittedMachine env).advance (dropLrStores f policy) (fun _ _ s => s) c' = some t' ∧
      Aligned t t' := by
  obtain ⟨next, hadv, rfl⟩ := Option.map_eq_some_iff.mp hstep
  have hget := skipInstructions_getElem f (suppressedLrStores f policy) p.1.block p.1.index
  by_cases hsup : suppressedLrStores f policy p.1.block p.1.index = true
  · -- the dropped store: only the kept run writes LR, which is stale from here on
    obtain ⟨d, n, hins, hcell⟩ := suppressed_shape hsup
    rw [hins, Option.map_some, if_pos hsup] at hget
    simp only [Machine.advance, hins] at hadv
    obtain rfl := Option.some.inj hadv
    refine ⟨⟨c'.block, c'.index + 1, c'.state⟩, ?_, ?_⟩
    · simp only [Machine.advance, dropLrStores, h.block, h.index, hget]
      rfl
    · have hstale : Stale env f policy p.1 p.2 := by
        simp only [Stale, hins]
        exact Or.inl hsup
      have hregs : ((emittedMachine env).step (.assign d (.imm n)) p.1.state).1 =
          ⟨Function.update p.1.state.regs "lr" (env.imm n), p.1.state.world⟩ := by
        show (p.1.state.emittedStep env (.assign d (.imm n))).1 = _
        rw [State.emittedStep_assign, hcell]
        simp only [IrValue.eval]
      rw [hregs]
      refine ⟨h.block, by rw [h.index], h.world, fun x hx => ?_, fun hn => absurd hstale hn⟩
      show Function.update p.1.state.regs "lr" (env.imm n) x = c'.state.regs x
      rw [Function.update_of_ne hx]
      exact h.regs x hx
  · have hbody : ((dropLrStores f policy).body c'.block)[c'.index]? =
        (f.body p.1.block)[p.1.index]? := by
      rw [h.block, h.index, dropLrStores, hget]
      simp [hsup]
    by_cases hstale : p.2
    · have hq := hp hstale
      cases hins : (f.body p.1.block)[p.1.index]? with
      | none =>
        simp only [Machine.advance, hins, Machine.leave, Option.map_eq_some_iff] at hadv
        obtain ⟨b, hb, rfl⟩ := hadv
        refine ⟨⟨b, 0, c'.state⟩, ?_, rfl, rfl, h.world, h.regs, fun hn => ?_⟩
        · simp only [Machine.advance, hbody, hins, Machine.leave, dropLrStores_nextBlock]
          rw [h.block, hb, Option.map_some]
        · exact absurd (by simpa only [Stale, hins] using hstale) hn
      | some ins =>
        have hflow := quiet_flow hrt hcon hins hq h.world h.regs
        obtain ⟨-, hworld, hregs, hwrite⟩ := quiet_step hrt hcon hins hq h.world h.regs
        have hfresh : ¬Stale env f policy p.1 p.2 → WritesLr env ins p.1.state := by
          intro hn
          simp only [Stale, hins, hsup] at hn
          by_contra hw
          exact hn (Or.inr ⟨hstale, hw⟩)
        cases hf : (emittedMachine env).flow ins p.1.state with
        | next =>
          rw [hf] at hflow
          simp only [Machine.advance, hins, hf] at hadv
          obtain rfl := Option.some.inj hadv
          refine ⟨⟨c'.block, c'.index + 1, ((emittedMachine env).step ins c'.state).1⟩, ?_,
            h.block, by rw [h.index], hworld, hregs, fun hn => hwrite (hfresh hn)⟩
          simp only [Machine.advance, hbody, hins, hflow]
        | goto label =>
          rw [hf] at hflow
          simp only [Machine.advance, hins, hf, Machine.leave, Option.map_eq_some_iff] at hadv
          obtain ⟨b, hb, rfl⟩ := hadv
          refine ⟨⟨b, 0, c'.state⟩, ?_, rfl, rfl, h.world, h.regs, fun hn => ?_⟩
          · simp only [Machine.advance, hbody, hins, hflow, Machine.leave, dropLrStores_nextBlock]
            rw [h.block, hb, Option.map_some]
          · refine absurd (hfresh hn) (not_writesLr_of_terminator ?_ _)
            by_contra ht
            have := ((emittedMachine_transfers env).next ins p.1.state).mpr
              (Bool.eq_false_iff.mpr ht)
            rw [hf] at this
            cases this
        | _ => simp [Machine.advance, hins, hf, Machine.leave, IrFunction.nextBlock] at hadv
    · -- LR is the same in both runs, so they are at the same configuration
      obtain rfl := h.eq hstale
      refine ⟨next, ?_, .refl _ _⟩
      rw [← hadv]
      simp only [Machine.advance, hbody, Machine.leave, dropLrStores_nextBlock]

/-- **Dropping the stores is invisible where no step reads a stale LR.**  The run without the stores
goes through the same places with the same world and registers, LR excepted only while it is stale;
every instruction reads the same operands, goes the same way and does the same calls, loads and
stores; and where the run leaves the function LR is the same. -/
theorem dropLrStores_preserves (hrt : RuntimeIgnoresLr env) (hcon : ContractsTrue env policy)
    {start c : Config (State V W)} {stale : Prop}
    (hr : Reaches (lrStep env f policy) (LrUnread env f policy) (start, False) (c, stale)) :
    ∃ c', Reaches ((emittedMachine env).advance (dropLrStores f policy) (fun _ _ s => s))
        (fun _ => True) start c' ∧
      c'.block = c.block ∧ c'.index = c.index ∧ c'.state.world = c.state.world ∧
      (∀ x, x ≠ "lr" → c'.state.regs x = c.state.regs x) ∧ (¬stale → c'.state = c.state) ∧
      (LrUnread env f policy (c, stale) →
        (∀ ins ∈ (f.body c.block)[c.index]?,
          suppressedLrStores f policy c.block c.index = false →
          (emittedMachine env).operandValues ins c'.state =
            (emittedMachine env).operandValues ins c.state ∧
          (emittedMachine env).flow ins c'.state = (emittedMachine env).flow ins c.state ∧
          ((emittedMachine env).step ins c'.state).2 =
            ((emittedMachine env).step ins c.state).2) ∧
        ((emittedMachine env).advance f (fun _ _ s => s) c = none → c'.state = c.state)) := by
  obtain ⟨c', hreach, h⟩ := hr.simulate (Aligned.refl start False)
    fun p c' t h hp hs => h.step hrt hcon hp hs
  have heq : ¬stale → c'.state = c.state := fun hn => by rw [h.eq hn]
  refine ⟨c', hreach, h.block, h.index, h.world.symm, fun x hx => (h.regs x hx).symm, heq,
    fun hunread => ⟨fun ins hins _ => ?_, fun hnone => ?_⟩⟩
  · by_cases hs : stale
    · have hq := hunread hs
      have hflow := quiet_flow hrt hcon hins hq h.world h.regs
      obtain ⟨hevents, -, -, -⟩ := quiet_step hrt hcon hins hq h.world h.regs
      refine ⟨List.map_congr_left fun x hx => ?_, hflow, hevents⟩
      exact (h.regs _ ((hq.2 ins hins).1 x hx)).symm
    · rw [heq hs]
      exact ⟨rfl, rfl, rfl⟩
  · refine heq fun hs => ?_
    have hsome := (hunread hs).1
    rw [hnone] at hsome
    cases hsome

end

/-! ## reading LR after the call -/

def leafPolicy : CallPolicy where
  guestAbiContracts a :=
    if a = 0x80002000 then some ⟨0, false, false, ⟨false, false, false, false⟩⟩ else none
  modOverridableCallTargets := []
  nonReturningCallTargets := []
  lrContinuationCallTargets := []

theorem wordEnv_ignoresLr : RuntimeIgnoresLr wordEnv where
  psqLoad _ _ _ _ _ _ _ _ _ _ _ := rfl
  psqStore _ _ _ _ _ _ _ _ _ _ _ _ := rfl
  xer := by decide
  condition _ _ _ _ _ _ _ := rfl

theorem wordEnv_contractsTrue (policy : CallPolicy) : ContractsTrue wordEnv policy := by
  intro target a contract _ _ _ _ _ arguments world regs v
  refine ⟨rfl, rfl, fun x => ?_⟩
  show regs x = Function.update regs "lr" v x ∨ _
  by_cases hx : x = "lr"
  · exact Or.inr ⟨hx, rfl, rfl⟩
  · exact Or.inl (Function.update_of_ne hx _ _).symm

/-- `bl leaf; mflr r0; blr` -/
def mflrAfterCall : IrFunction where
  name := "mflrAfterCall"
  entryLabel := "0x80001000"
  blocks := [⟨"0x80001000", [.assign "lr" (.imm (-0x7FFFEFFC)), .call "" "0x80002000" [] false,
    .assign "r0" (.register "lr"), .ret none]⟩]

def zeroState : State Word Unit := ⟨fun _ => 0, ()⟩

/-- the function itself reads the return address that is not stored -/
theorem mflrAfterCall_not_preserved :
    RuntimeIgnoresLr wordEnv ∧ ContractsTrue wordEnv leafPolicy ∧
    suppressedLrStores mflrAfterCall leafPolicy 0 0 = true ∧
    (after ((emittedMachine wordEnv).advance mflrAfterCall fun _ _ s => s) 3
      ⟨0, 0, zeroState⟩).map (fun c => c.state.regs "r0") = some 0x80001004 ∧
    (after ((emittedMachine wordEnv).advance (dropLrStores mflrAfterCall leafPolicy)
      fun _ _ s => s) 3 ⟨0, 0, zeroState⟩).map (fun c => c.state.regs "r0") = some 0 :=
  ⟨wordEnv_ignoresLr, wordEnv_contractsTrue _, by decide +kernel, by decide +kernel,
    by decide +kernel⟩

/-- `bl leaf; mtlr r0; blr` -/
def mtlrAfterCall : IrFunction where
  name := "mtlrAfterCall"
  entryLabel := "0x80001000"
  blocks := [⟨"0x80001000", [.assign "lr" (.imm (-0x7FFFEFFC)), .call "" "0x80002000" [] false,
    .assign "lr" (.register "r0"), .ret none]⟩]

theorem mtlrAfterCall_quiet_call (s : State Word Unit) :
    Quiet wordEnv mtlrAfterCall leafPolicy ⟨0, 1, s⟩ := by
  refine ⟨rfl, fun ins hins => ?_⟩
  obtain rfl := Option.some.inj hins
  refine ⟨fun x hx => (by cases hx), fun t a b r h => (by cases h), Or.inl ?_⟩
  exact ⟨_, _, _, _, rfl, by decide +kernel⟩

theorem mtlrAfterCall_quiet_restore (s : State Word Unit) :
    Quiet wordEnv mtlrAfterCall leafPolicy ⟨0, 2, s⟩ := by
  refine ⟨rfl, fun ins hins => ?_⟩
  obtain rfl := Option.some.inj hins
  refine ⟨fun x hx => ?_, fun t a b r h => (by cases h), Or.inr fun run h => (by cases h)⟩
  obtain rfl := List.mem_singleton.mp hx
  decide +kernel

/-- with LR restored from a register the two runs agree at the return -/
theorem dropLrStores_preserves_mtlr :
    ∃ c', Reaches ((emittedMachine wordEnv).advance (dropLrStores mtlrAfterCall leafPolicy)
        (fun _ _ s => s)) (fun _ => True) ⟨0, 0, zeroState⟩ c' ∧ c'.block = 0 ∧ c'.index = 3 := by
  have hr : Reaches (lrStep wordEnv mtlrAfterCall leafPolicy)
      (LrUnread wordEnv mtlrAfterCall leafPolicy) (⟨0, 0, zeroState⟩, False) _ := .refl
  have hr := ((hr.step False.elim rfl).step (fun _ => mtlrAfterCall_quiet_call _) rfl).step
    (fun _ => mtlrAfterCall_quiet_restore _) rfl
  obtain ⟨c', h, hb, hi, -⟩ :=
    dropLrStores_preserves wordEnv_ignoresLr (wordEnv_contractsTrue leafPolicy) hr
  exact ⟨c', h, hb, hi⟩

end DolTranslator.Flags
