import DolTranslator.Abi.HelperEffects
import DolTranslator.Gqr.ConstantPropagation
import DolTranslator.Psq.PairedTags

/-!
# Hoisted GQRs

The emitter reads the GQRs of the paired-single accesses into locals at the start of a body, and
reads them again behind the instructions that may have written them.

* `collectHoistableGqrIndices`   the GQRs that get a local;
* `hoistedGqrReloads`   the locals that are read again behind an instruction;
* `mayWrite`   what the text of an instruction can do to the context;
* `Step`   a run through the emitted body, with the jumps that it takes past
  the end of an instruction;
* `hoisted_fresh`   the locals are right, as long as these jumps leave the GQRs alone.
-/

namespace DolTranslator.Gqr
open Abi Flags Paired

/-! ## the emitter -/

/-- `TryGetGenericGqrPsqSite`: the GQR that the helper reads, and its address argument -/
def genericGqrPsqSite : IrInstruction → Option (Fin 8 × IrValue)
  | .call _ target arguments _ =>
    let spelled (plain guarded : String) : Bool :=
      sameLabel target plain || (dropPrefixFolded guarded target.toList).isSome
    let isLoad := spelled "PPC_PsqL" "ppc_psqlknownguarded_"
    let isStore := spelled "PPC_PsqSt" "ppc_psqstknownguarded_"
    let widthArgument := if isLoad then 1 else 2
    if isLoad || isStore then
      match constantArgument arguments widthArgument,
          constantArgument arguments (widthArgument + 1), arguments.head? with
      | some w, some i, some address =>
        if h : (w = 0 ∨ w = 1) ∧ 0 ≤ i ∧ i ≤ 7 then some (⟨i.toNat, by omega⟩, address) else none
      | _, _, _ => none
    else none
  | _ => none

/-- `stack` says which addresses are resolved to the frame -/
def collectHoistableGqrIndices (stack : IrValue → Bool) (f : IrFunction) : List (Fin 8) :=
  (f.blocks.flatMap IrBasicBlock.instructions).filterMap fun ins =>
    ((genericGqrPsqSite ins).filter fun site => !stack site.2).map Prod.fst

def helperCallCanWriteGqrs (target : String) (arguments : List IrValue) : Bool :=
  if sameLabel target "PPC_WriteSpr" then
    match constantArgument arguments 0 with
    | some spr => decide (912 ≤ spr ∧ spr ≤ 919)
    | none => true
  else (helperEffect target arguments).boundaryFlags.escaping

/-- `EmitHoistedGqrReloads`, for one GQR -/
def hoistedGqrReloads (calleeWriteMasks : Nat → Option Nat) (ins : IrInstruction) (i : Fin 8) :
    Bool :=
  match ins with
  | .assign destination _ | .phi destination _ => (gqrKey destination).map gqrIndex == some i.val
  | .call _ target arguments _ =>
    if (parseAddressOrDecimal target).isSome then (writeMask calleeWriteMasks target).testBit i
    else helperCallCanWriteGqrs target arguments
  | .indirectCall .. => true
  | _ => false

/-- of the helpers in the catalog, `PPC_WriteSpr` writes a GQR, and a system call runs the guest -/
def helperWrites (target : String) (arguments : List IrValue) (i : Fin 8) : Bool :=
  if sameLabel target "PPC_WriteSpr" then
    match constantArgument arguments 0 with
    | some spr => decide (spr = 912 + i.val)
    | none => true
  else if isKnownGqrForm target then false
  else if (lookupFolded constantEffectHelpers target).isSome then sameLabel target "OSSystemCall"
  else (lookupFolded argumentDependentHelpers target).isNone

/-- a GQR among the destinations, which the text of a phi does not write -/
def namesGqr (ins : IrInstruction) (i : Fin 8) : Bool :=
  !ins.isPhi && ins.definitions.any fun d => (gqrKey d).map gqrIndex == some i.val

/-- what the text of an instruction may write, when the masks are true of the callees -/
def mayWrite (calleeWriteMasks : Nat → Option Nat) (ins : IrInstruction) (i : Fin 8) : Bool :=
  namesGqr ins i ||
    match ins with
    | .call _ target arguments _ =>
      if (parseAddressOrDecimal target).isSome then (writeMask calleeWriteMasks target).testBit i
      else helperWrites target arguments i
    | .indirectCall .. => true
    | _ => false

/-! ## runs -/

/-- a place in the emitted body, with `ctx->gqr` and the locals -/
structure HoistPoint where
  block : Nat
  index : Nat
  gqr : Fin 8 → Word
  locals : Fin 8 → Word

/-- how control goes on: behind an instruction, through the link register, behind a `setjmp` that a
`longjmp` has reached, or along an edge, which may have a safe point -/
inductive Passage
  | next
  | resume
  | landing
  | edge
  | safePoint

section
variable (e : Emission) (f : IrFunction) (cfg : IrCfg) (calleeWriteMasks : Nat → Option Nat)
  (hoisted : List (Fin 8))

def HoistPoint.instruction (p : HoistPoint) : Option IrInstruction := (f.body p.block)[p.index]?

def reload (ins : IrInstruction) (gqr locals : Fin 8 → Word) : Fin 8 → Word := fun i =>
  if i ∈ hoisted ∧ hoistedGqrReloads calleeWriteMasks ins i = true then gqr i else locals i

/-- the labels of `EmitLocalLrContinuationDispatch`: the blocks, and the traced instructions -/
def continuation (address b i : Nat) : Prop :=
  i = 0 ∧ parseAddress (f.labelOf b) = some address ∨
    ∃ disassembly rawHex, (f.body b)[i]? = some (.tracePpc address disassembly rawHex)

/-- a call that the emitter dispatches behind -/
def resumes (b i : Nat) : IrInstruction → Prop
  | .call _ target _ _ => ∃ address ∈ parseAddress target,
      resumesThroughLinkRegister e f b i address = true
  | _ => False

def callsSetjmp : IrInstruction → Prop
  | .call _ target _ _ => ∃ address ∈ parseAddress target, e.setjmp address = true
  | _ => False

inductive Step : Passage → HoistPoint → HoistPoint → Prop
  | execute {p : HoistPoint} {ins : IrInstruction} {gqr : Fin 8 → Word}
      (at_ : p.instruction f = some ins) (emitted : e.suppressed p.block p.index = false)
      (stays : leaves e f p.block p.index ins = false)
      (writes : ∀ i, mayWrite calleeWriteMasks ins i = false → gqr i = p.gqr i) :
      Step .next p ⟨p.block, p.index + 1, gqr, reload calleeWriteMasks hoisted ins gqr p.locals⟩
  | suppressed {p : HoistPoint} {ins : IrInstruction} (at_ : p.instruction f = some ins)
      (suppressed : e.suppressed p.block p.index = true) :
      Step .next p { p with index := p.index + 1 }
  | dispatch {p : HoistPoint} {ins : IrInstruction} {gqr : Fin 8 → Word} {address b i : Nat}
      (at_ : p.instruction f = some ins) (resumes : resumes e f p.block p.index ins)
      (label : continuation f address b i)
      (writes : ∀ i, mayWrite calleeWriteMasks ins i = false → gqr i = p.gqr i) :
      Step .resume p ⟨b, i, gqr, p.locals⟩
  | landing {p : HoistPoint} {ins : IrInstruction} {gqr : Fin 8 → Word} {b i : Nat}
      (at_ : (f.body b)[i]? = some ins) (setjmp : callsSetjmp e ins) :
      Step .landing p ⟨b, i + 1, gqr, reload calleeWriteMasks hoisted ins gqr p.locals⟩
  | edge {p : HoistPoint} {b : Nat} (done : ∀ ins ∈ (f.body p.block).drop p.index, ins.isTerminator)
      (next : b ∈ cfg.successors p.block) : Step .edge p ⟨b, 0, p.gqr, p.locals⟩
  | safePoint {p : HoistPoint} {b : Nat} {gqr : Fin 8 → Word}
      (done : ∀ ins ∈ (f.body p.block).drop p.index, ins.isTerminator)
      (next : b ∈ cfg.successors p.block) (back : b ≤ p.block) :
      Step .safePoint p ⟨b, 0, gqr, p.locals⟩

/-- the local of every hoisted GQR holds it -/
def Fresh (p : HoistPoint) : Prop := ∀ i ∈ hoisted, p.locals i = p.gqr i

/-- what a step has to leave alone: a GQR that an instruction names as its destination in any other
way than `mtspr` does, and every hoisted one where control goes on elsewhere -/
def Spares (p q : HoistPoint) : Passage → Prop
  | .next => ∀ ins ∈ p.instruction f, ∀ i ∈ hoisted, namesGqr ins i = true →
      hoistedGqrReloads calleeWriteMasks ins i = false → q.gqr i = p.gqr i
  | .edge => True
  | .resume | .safePoint => ∀ i ∈ hoisted, q.gqr i = p.gqr i
  | .landing => ∀ ins ∈ (f.body q.block)[q.index - 1]?, ∀ i ∈ hoisted,
      hoistedGqrReloads calleeWriteMasks ins i = false → q.gqr i = p.gqr i

end

/-! ## the locals are fresh -/

section
variable {e : Emission} {f : IrFunction} {cfg : IrCfg} {calleeWriteMasks : Nat → Option Nat}
  {hoisted : List (Fin 8)}

theorem helperCallCanWriteGqrs_of_writes {target : String} {arguments : List IrValue} {i : Fin 8}
    (h : helperWrites target arguments i = true) :
    helperCallCanWriteGqrs target arguments = true := by
  unfold helperWrites at h
  unfold helperCallCanWriteGqrs
  split_ifs at h ⊢ with hspr hknown hconst
  · split at h
    · have := of_decide_eq_true h
      exact decide_eq_true (by omega)
    · rfl
  · -- a system call is in the catalog as one that runs the guest
    have hkey : foldCase target = foldCase "OSSystemCall" := eq_of_beq h
    have hentry : lookupFolded constantEffectHelpers target =
        some (completeEffect ⟨false, true, true, true⟩) := by
      rw [lookupFolded, hkey]
      decide +kernel
    rw [helperEffect, if_neg hknown, hentry]
    rfl
  · rw [helperEffect, if_neg hknown, Option.not_isSome_iff_eq_none.mp hconst,
      Option.isNone_iff_eq_none.mp h]
    rfl

theorem reloads_of_mayWrite {ins : IrInstruction} {i : Fin 8}
    (h : mayWrite calleeWriteMasks ins i = true) (hnames : namesGqr ins i = false) :
    hoistedGqrReloads calleeWriteMasks ins i = true := by
  cases ins with
  | call d target arguments tail =>
    simp only [mayWrite, hnames, Bool.false_or, hoistedGqrReloads] at h ⊢
    split_ifs at h ⊢ with hguest
    · exact h
    · exact helperCallCanWriteGqrs_of_writes h
  | indirectCall => rfl
  | _ => simp [mayWrite, hnames] at h

/-- a reloaded local is fresh, and so is one whose GQR did not change -/
theorem reload_eq {ins : IrInstruction} {gqr locals : Fin 8 → Word} {i : Fin 8} (hi : i ∈ hoisted)
    (h : hoistedGqrReloads calleeWriteMasks ins i = false → gqr i = locals i) :
    reload calleeWriteMasks hoisted ins gqr locals i = gqr i := by
  unfold reload
  split_ifs with hreload
  · rfl
  · exact (h (by simpa [hi] using hreload)).symm

theorem fresh_step {c : Passage} {p q : HoistPoint}
    (h : Step e f cfg calleeWriteMasks hoisted c p q)
    (hspares : Spares f calleeWriteMasks hoisted p q c) (hp : Fresh hoisted p) :
    Fresh hoisted q := by
  intro i hi
  cases h with
  | @execute p ins gqr hins hemitted hstays hwrites =>
    refine reload_eq hi fun hreload => ?_
    rw [hp i hi]
    cases hnames : namesGqr ins i with
    | true => exact hspares ins hins i hi hnames hreload
    | false =>
      refine hwrites i (Bool.eq_false_iff.mpr fun hmay => ?_)
      rw [reloads_of_mayWrite hmay hnames] at hreload
      cases hreload
  | suppressed => exact hp i hi
  | dispatch => exact (hp i hi).trans (hspares i hi).symm
  | @landing p ins gqr b n hins hsetjmp =>
    refine reload_eq hi fun hreload => ?_
    rw [hp i hi]
    exact hspares ins hins i hi hreload
  | edge => exact hp i hi
  | safePoint => exact (hp i hi).trans (hspares i hi).symm

theorem fresh_run {start p : HoistPoint} (hstart : start.locals = start.gqr)
    (hrun : Relation.ReflTransGen (fun p q => ∃ c, Step e f cfg calleeWriteMasks hoisted c p q ∧
      Spares f calleeWriteMasks hoisted p q c) start p) : Fresh hoisted p := by
  induction hrun with
  | refl => exact fun i _ => congrFun hstart i
  | tail _ hstep ih =>
    obtain ⟨c, hstep, hspares⟩ := hstep
    exact fresh_step hstep hspares ih

/-- **A hoisted local is never stale**, in a run that leaves the GQRs alone wherever it goes on
without reading them again. -/
theorem hoisted_fresh (stack : IrValue → Bool) {start p : HoistPoint}
    (hstart : start.locals = start.gqr)
    (hrun : Relation.ReflTransGen (fun p q => ∃ c,
      Step e f cfg calleeWriteMasks (collectHoistableGqrIndices stack f) c p q ∧
        Spares f calleeWriteMasks (collectHoistableGqrIndices stack f) p q c) start p)
    {i : Fin 8} {address : IrValue}
    (hsite : (p.instruction f).bind genericGqrPsqSite = some (i, address))
    (haddress : stack address = false) : p.locals i = p.gqr i := by
  obtain ⟨ins, hins, hsite⟩ := Option.bind_eq_some_iff.mp hsite
  refine fresh_run hstart hrun i (List.mem_filterMap.mpr ⟨ins, ?_, by simp [hsite, haddress]⟩)
  have hmem := List.mem_of_getElem? hins
  unfold IrFunction.body at hmem
  split at hmem
  · rename_i blk hblk
    exact List.mem_flatMap.mpr ⟨blk, List.mem_of_getElem? hblk, hmem⟩
  · cases hmem

end

/-! ## runs on fixed functions -/

def throughLr : Emission :=
  ⟨fun _ => none, fun _ => false, fun _ => false, fun _ => false, fun _ => false,
    (· == 0x80002000), fun _ => false, true, fun _ _ => false, fun _ _ => false⟩

def psqLoad : IrInstruction :=
  .call "f1" "PPC_PsqL" [.register "r3", .imm 0, .imm 0] false

/-- the callee goes on at the access -/
def resumed : IrFunction := ⟨"resumed", "0x80001000", [⟨"0x80001000",
  [.call "" "0x80002000" [] false, .tracePpc 0x80001004 "" "", psqLoad, .ret none]⟩]⟩

theorem resumed_stale : ¬∀ (e : Emission) (f : IrFunction) (cfg : IrCfg)
    (calleeWriteMasks : Nat → Option Nat) (stack : IrValue → Bool) (start p : HoistPoint),
    IrCfg.build f = some cfg → start.block = cfg.entry → start.index = 0 →
    start.locals = start.gqr →
    Relation.ReflTransGen (fun p q => ∃ c, Step e f cfg calleeWriteMasks
      (collectHoistableGqrIndices stack f) c p q) start p →
    ∀ i address, (p.instruction f).bind genericGqrPsqSite = some (i, address) →
      stack address = false → p.locals i = p.gqr i := by
  intro hall
  have hlabel : continuation resumed 0x80001004 0 1 := .inr ⟨"", "", rfl⟩
  have hjump : Step throughLr resumed ⟨1, 0, [[]]⟩ (fun _ => none)
      (collectHoistableGqrIndices (fun _ => false) resumed) .resume
      ⟨0, 0, fun _ => 0, fun _ => 0⟩ ⟨0, 1, fun _ => 7, fun _ => 0⟩ :=
    .dispatch rfl ⟨0x80002000, by decide +kernel, by decide +kernel⟩
      hlabel fun i hi => absurd hi (by revert i; decide +kernel)
  have htrace : Step throughLr resumed ⟨1, 0, [[]]⟩ (fun _ => none)
      (collectHoistableGqrIndices (fun _ => false) resumed) .next
      ⟨0, 1, fun _ => 7, fun _ => 0⟩ ⟨0, 2, fun _ => 7, _⟩ :=
    .execute rfl rfl (by decide +kernel) fun _ _ => rfl
  have h := hall throughLr resumed ⟨1, 0, [[]]⟩ (fun _ => none) (fun _ => false) _ _
    (by decide +kernel) rfl rfl rfl (.tail (.single ⟨_, hjump⟩) ⟨_, htrace⟩) 0 (.register "r3")
    (by decide +kernel) rfl
  exact absurd h (by decide +kernel)

/-- a GQR is set in front of the access -/
def moved : IrFunction := ⟨"moved", "a", [⟨"a", [.assign "gqr0" (.imm 7), psqLoad, .ret none]⟩]⟩

theorem hoisted_fresh_moved : reload (fun _ => none)
    (collectHoistableGqrIndices (fun _ => false) moved) (.assign "gqr0" (.imm 7))
    (fun i => if i = 0 then 7 else 0) (fun _ => 0) 0 = 7 := by
  have hstep : Step throughLr moved ⟨1, 0, [[]]⟩ (fun _ => none)
      (collectHoistableGqrIndices (fun _ => false) moved) .next
      ⟨0, 0, fun _ => 0, fun _ => 0⟩ ⟨0, 1, fun i => if i = 0 then 7 else 0, _⟩ :=
    .execute rfl rfl (by decide +kernel) (by decide +kernel)
  have hsite : ((moved.body 0)[1]?).bind genericGqrPsqSite = some (0, .register "r3") := by
    decide +kernel
  refine (hoisted_fresh (fun _ => false) rfl (.single ⟨_, hstep, ?_⟩) hsite rfl).trans rfl
  rintro _ ⟨⟩ i -
  revert i
  decide +kernel

end DolTranslator.Gqr
