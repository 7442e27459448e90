import DolTranslator.Abi.Liveness
import DolTranslator.Abi.Soundness

/-!
# Is every output of a call reported?

* `LiveRun`   a run of a function from a place on, cut off anywhere or up to an exit; with
  `strict`, one whose steps meet the conditions `Seen` and `SeenTransfer`;
* `LiveRun.live`   state that such a run needs is live at its start;
* `outputs_sound`   the main result: what a callee may write and the run after the call needs is
  among the reported outputs;
* `carry_not_reported` a helper that reads XER on its own.
-/

set_option linter.unusedSectionVars false

namespace DolTranslator.Abi
open Dataflow RegisterSet

/-! ## the equations -/

section
variable {cs : CalleeContracts} {f : IrFunction} {exitLive : RegisterSet}

theorem transferInstruction_mono (ins : IrInstruction) {live live' : RegisterSet}
    (h : live ≤ live') : transferInstruction cs ins live ≤ transferInstruction cs ins live' := by
  intro x hx
  unfold transferInstruction at hx ⊢
  split at hx
  · simp only [has_except, has_union, Bool.and_eq_true, Bool.or_eq_true] at hx ⊢
    exact ⟨hx.1.imp_left fun hl => ⟨h x hl.1, hl.2⟩, hx.2⟩
  · simp only [has_except, has_union, Bool.and_eq_true, Bool.or_eq_true] at hx ⊢
    exact hx.imp_left fun hl => ⟨h x hl.1, hl.2⟩

theorem transferBlock_mono (body : List IrInstruction) {live live' : RegisterSet}
    (h : live ≤ live') : transferBlock cs body live ≤ transferBlock cs body live' := by
  induction body with
  | nil => exact h
  | cons ins body ih => exact transferInstruction_mono ins ih

theorem liveEquations_mono : MonotoneEquations (liveEquations cs f exitLive) := by
  intro b v w h
  have hout : (liveEquations cs f exitLive b v).1 ≤ (liveEquations cs f exitLive b w).1 := by
    simp only [liveEquations]
    split
    · exact le_rfl
    · intro x hx
      obtain ⟨s, hs, hx⟩ := (has_unionAll _ _).mp hx
      obtain ⟨j, hj, rfl⟩ := List.mem_map.mp hs
      exact (has_unionAll _ _).mpr ⟨_, List.mem_map_of_mem hj, (h j).2 x hx⟩
  exact ⟨hout, transferBlock_mono _ hout⟩

theorem liveFlow_spec (cs : CalleeContracts) (f : IrFunction) (exitLive : RegisterSet) {b : Nat}
    (hb : b < f.blocks.length) : liveEquations cs f exitLive b
      (valueAt (liveFlow cs f exitLive)) = valueAt (liveFlow cs f exitLive) b := by
  have horder : ∀ b ∈ (List.range f.blocks.length).reverse, b < f.blocks.length := fun b hb =>
    List.mem_range.mp (List.mem_reverse.mp hb)
  have hbound : ∀ p : BlockSets, p.1.rank + p.2.rank ≤ 2 * height := fun p => by
    have h1 := rank_le_height p.1
    have h2 := rank_le_height p.2
    omega
  have hmono : MonotoneEquations (liveEquations cs f exitLive) := liveEquations_mono
  obtain ⟨result, hresult⟩ := Option.isSome_iff_exists.mp
    (solve_replicate_isSome hmono pair_rank_strictMono hbound horder)
  have hflow : liveFlow cs f exitLive = result := by
    rw [liveFlow, sweepLimit, hresult]
    rfl
  rw [hflow]
  exact solve_fixed hresult b (List.mem_reverse.mpr (List.mem_range.mpr hb))

theorem liveOut_exit {b : Nat} (hb : b < f.blocks.length) (h : liveSuccessors f b = []) :
    liveOut cs f exitLive b = exitLive := by
  have := congrArg Prod.fst (liveFlow_spec cs f exitLive hb)
  simp only [liveEquations, h, List.isEmpty_nil, if_true] at this
  exact this.symm

theorem liveOut_succ {b s : Nat} (hb : b < f.blocks.length) (h : s ∈ liveSuccessors f b)
    {x : Piece} (hx : (liveIn cs f exitLive s).has x = true) :
    (liveOut cs f exitLive b).has x = true := by
  have hne : (liveSuccessors f b).isEmpty = false := by
    cases hl : liveSuccessors f b with
    | nil => rw [hl] at h; cases h
    | cons a l => rfl
  have := congrArg Prod.fst (liveFlow_spec cs f exitLive hb)
  simp only [liveEquations, hne, Bool.false_eq_true, if_false] at this
  rw [liveOut, ← this]
  exact (has_unionAll _ _).mpr ⟨_, List.mem_map_of_mem h, hx⟩

theorem liveIn_eq {b : Nat} (hb : b < f.blocks.length) :
    liveIn cs f exitLive b = transferBlock cs (f.body b) (liveOut cs f exitLive b) := by
  have h := liveFlow_spec cs f exitLive hb
  have h1 := congrArg Prod.fst h
  have h2 := congrArg Prod.snd h
  simp only [liveEquations] at h1 h2
  rw [liveIn, liveOut, ← h2, ← h1]

def liveAt (cs : CalleeContracts) (f : IrFunction) (exitLive : RegisterSet) (b pos : Nat) :
    RegisterSet :=
  transferBlock cs ((f.body b).drop pos) (liveOut cs f exitLive b)

theorem liveAt_step {b pos : Nat} {ins : IrInstruction} (h : (f.body b)[pos]? = some ins) :
    liveAt cs f exitLive b pos =
      transferInstruction cs ins (liveAt cs f exitLive b (pos + 1)) := by
  obtain ⟨hlt, he⟩ := List.getElem?_eq_some_iff.mp h
  rw [liveAt, List.drop_eq_getElem_cons hlt, he]
  rfl

theorem liveAt_length (b : Nat) :
    liveAt cs f exitLive b (f.body b).length = liveOut cs f exitLive b := by
  rw [liveAt, List.drop_length]
  rfl

theorem liveAt_zero {b : Nat} (hb : b < f.blocks.length) :
    liveAt cs f exitLive b 0 = liveIn cs f exitLive b := by
  rw [liveAt, List.drop_zero, liveIn_eq hb]

end

/-! ## runs -/

/-- the state that calls return: GPRs, FPRs, CR fields, XER, CTR, LR and GQRs -/
def Piece.returned : Piece → Bool
  | .gqr _ => true
  | x => x.tracked

def noFunctions : Program := ⟨[], by decide, by simp⟩

section
variable (cs : CalleeContracts) (written : RegisterSet)

/-- conditions on an instruction of the run, when `written` is written since the call:

* state that a helper or a thunk reads beside its arguments is in `written`;
* a destination is what the instruction writes: no packed CR, no temporary named after a register;
* a call writes no destination that its callee reads -/
def Seen (ins : IrInstruction) (t : Accesses) : Prop :=
  match ins with
  | .call destination target arguments _ =>
    match parseAddress target with
    | none => hardwareRegister destination ≤
          callDestination destination (some (helperEffect target arguments)) ∧
        ∀ x, x.returned = true → ReadsFirst x t → (ofValues arguments).has x = true ∨
          written.has x = true
    | some a => hardwareRegister destination ≤ callDestination destination none ∧
      match cs a with
      | some contract => ∀ x, (hardwareRegister destination).has x = true →
          contract.readBeforeWrite.has x = true → written.has x = true
      | none => ∀ x, x.returned = true → ReadsFirst x t → (ofValues arguments).has x = true ∨
          written.has x = true
  | ins => ∀ name ∈ ins.definitions, hardwareRegister name ≤ register name

/-- the registers that the text of a condition mentions are in `written` -/
def SeenTransfer : IrInstruction → Prop
  | .branch _ _ _ conditionRegister => isRegisterName conditionRegister = true ∨
      ∀ x, (specialRegistersInRawExpression conditionRegister).has x = true →
        written.has x = true
  | _ => True

end

/-- a block that does not end in a transfer -/
def FallsThrough (body : List IrInstruction) : Prop :=
  ∀ ins, body.getLast? = some ins → ins.isTerminator = false

section
variable (thunks : GuestSaveRestoreThunks) (f : IrFunction) (cs : CalleeContracts) (out : Outside)
  (strict : Prop)

/-- a run of a function from a place on, when `written` is written since the call; the flag says
whether it has reached an exit -/
inductive LiveRun : Nat → Nat → RegisterSet → Accesses → Bool → Prop where
  | cut {b pos : Nat} {written : RegisterSet} : LiveRun b pos written [] false
  | step {b pos : Nat} {written : RegisterSet} {ins : IrInstruction} {t u : Accesses}
      {exited : Bool} (hins : (f.body b)[pos]? = some ins)
      (hstep : Performs thunks noFunctions cs out False written ins t)
      (hstrict : strict → Seen cs written ins t)
      (hrest : LiveRun b (pos + 1) (written.union (writtenBy t)) u exited) :
      LiveRun b pos written (t ++ u) exited
  | goto {b pos next : Nat} {written : RegisterSet} {ins : IrInstruction} {label : String}
      {u : Accesses} {exited : Bool} (hins : (f.body b)[pos]? = some ins)
      (hlabel : label ∈ ins.targets) (hnext : ordinalOf f label = some next)
      (hstrict : strict → SeenTransfer written ins)
      (hrest : LiveRun next 0 written u exited) :
      LiveRun b pos written ((usesOf ins, empty) :: u) exited
  | leave {b pos : Nat} {written : RegisterSet} {ins : IrInstruction}
      (hins : (f.body b)[pos]? = some ins) (hleaves : Leaves f ins)
      (hstrict : strict → SeenTransfer written ins ∧ liveSuccessors f b = []) :
      LiveRun b pos written [(usesOf ins, empty)] true
  | fall {b : Nat} {written : RegisterSet} {u : Accesses} {exited : Bool}
      (hnext : b + 1 < f.blocks.length) (hend : FallsThrough (f.body b))
      (hrest : LiveRun (b + 1) 0 written u exited) :
      LiveRun b (f.body b).length written u exited
  | fallOff {b : Nat} {written : RegisterSet} (hlast : b + 1 = f.blocks.length)
      (hend : FallsThrough (f.body b)) : LiveRun b (f.body b).length written [] true

end

/-- a run needs a piece: it reads it before it writes it, or ends without writing it where it is
observed -/
def Needs (exitLive : RegisterSet) (x : Piece) (t : Accesses) (exited : Bool) : Prop :=
  ReadsFirst x t ∨ exited = true ∧ exitLive.has x = true ∧ (writtenBy t).has x = false

theorem Needs.append {exitLive : RegisterSet} {x : Piece} {t u : Accesses} {exited : Bool}
    (h : Needs exitLive x (t ++ u) exited) :
    ReadsFirst x t ∨ (writtenBy t).has x = false ∧ Needs exitLive x u exited := by
  rcases h with h | ⟨he, hx, hw⟩
  · exact h.append.imp_right fun h => ⟨h.1, Or.inl h.2⟩
  · have hsplit := has_writtenBy_append (t := t) (u := u) (x := x)
    rw [hw] at hsplit
    have hnot : ¬ ((writtenBy t).has x = true ∨ (writtenBy u).has x = true) := fun h => by
      cases hsplit.mpr h
    rw [not_or, Bool.not_eq_true, Bool.not_eq_true] at hnot
    exact Or.inr ⟨hnot.1, Or.inr ⟨he, hx, hnot.2⟩⟩

/-! ## one instruction -/

section
variable {x : Piece} {cs : CalleeContracts} {f : IrFunction} {out : Outside}
  {thunks : GuestSaveRestoreThunks}

theorem ofValue_le_liveValue (value : IrValue) : ofValue value ≤ liveValue value := by
  cases value with
  | register name => exact register_le_hardwareRegister name
  | imm c => exact le_rfl

theorem ofValues_le_liveValues (values : List IrValue) : ofValues values ≤ liveValues values := by
  intro x hx
  obtain ⟨v, hv, hx⟩ := (has_ofValues values).mp hx
  exact (has_unionAll _ _).mpr ⟨_, List.mem_map_of_mem hv, ofValue_le_liveValue v x hx⟩

theorem usesOf_le_liveReads {ins : IrInstruction} (h : isPlain ins = true ∨
      ins.isTerminator = true ∧ ∀ c t e r, ins = .branch c t e r → isRegisterName r = true)
    (hx : (usesOf ins).has x = true) : (liveReads ins).has x = true := by
  have hreg : ∀ name, (register name).has x = true → (hardwareRegister name).has x = true :=
    fun name => register_le_hardwareRegister name x
  have hval : ∀ v, (ofValue v).has x = true → (liveValue v).has x = true :=
    fun v => ofValue_le_liveValue v x
  have hread : (usesOf ins).has x = true →
      (reads ⟨none, none, none, none⟩ (fun _ => none) ins).has x = true :=
    usesOf_le_reads (h.imp_right And.left)
  cases ins with
  | branch c t e r =>
    have hr : isRegisterName r = true := by
      rcases h with h | ⟨-, h⟩
      · simp [isPlain, IrInstruction.isTerminator] at h
      · exact h c t e r rfl
    rw [usesOf, if_pos hr] at hx
    exact hreg r hx
  | call d t args tail => simp [isPlain, IrInstruction.isTerminator] at h
  | indirectCall d t args => simp [isPlain, IrInstruction.isTerminator] at h
  | ret value =>
    cases value with
    | none => simp [usesOf, IrInstruction.uses, has_unionAll] at hx
    | some v => exact hval v (hread hx)
  | phi d sources =>
    obtain ⟨_, hmem, hx⟩ := (has_unionAll _ _).mp (hread hx)
    obtain ⟨s, hs, rfl⟩ := List.mem_map.mp hmem
    exact (has_unionAll _ _).mpr ⟨_, List.mem_map_of_mem hs, hreg _ hx⟩
  | _ =>
    have hr := hread hx
    simp only [reads, liveReads, has_union, Bool.or_eq_true] at hr ⊢
    grind

theorem liveWrites_le_definesOf {ins : IrInstruction} (h : isPlain ins = true)
    (hnames : ∀ name ∈ ins.definitions, hardwareRegister name ≤ register name)
    (hx : (liveWrites ins).has x = true) : (definesOf ins).has x = true := by
  have hreg : ∀ name ∈ ins.definitions, (hardwareRegister name).has x = true →
      (unionAll (ins.definitions.map register)).has x = true := fun name hn hx =>
    (has_map_register _).mpr ⟨name, hn, hnames name hn x hx⟩
  cases ins with
  | call d t args tail => simp [isPlain] at h
  | indirectCall d t args => simp [isPlain] at h
  | undefined => simp [isPlain, IrInstruction.isTerminator] at h
  | setCrField i l r u => exact hx
  | resolvedLoadPair d e r a b o s g =>
    simp only [liveWrites, has_union, Bool.or_eq_true] at hx
    rcases hx with hx | hx
    · exact hreg d List.mem_cons_self hx
    · exact hreg e (List.mem_cons_of_mem _ List.mem_cons_self) hx
  | assign | binary | load | resolveGuestMemoryRange | resolvedLoad | resolvedPsqLoad | phi =>
    exact hreg _ List.mem_cons_self hx
  | _ => simp [liveWrites] at hx

/-- **One instruction.**  What it reads is live before it, and so is what is live after it and not
written by it. -/
theorem Seen.transfer (hcontracts : out.Contracts Piece.returned cs) {written : RegisterSet}
    {ins : IrInstruction} {t : Accesses} {live : RegisterSet}
    (hstep : Performs thunks noFunctions cs out False written ins t)
    (hseen : Seen cs written ins t) (hknown : ∀ d target args, ins ≠ .indirectCall d target args)
    (hx : x.returned = true) (hnot : written.has x = false)
    (h : ReadsFirst x t ∨ (writtenBy t).has x = false ∧ live.has x = true) :
    (transferInstruction cs ins live).has x = true := by
  cases hstep with
  | plain hp =>
    have htransfer : transferInstruction cs ins live =
        (live.except (liveWrites ins)).union (liveReads ins) := by
      cases ins with
      | call d t args tail => simp [isPlain] at hp
      | _ => rfl
    rw [htransfer, has_union, has_except, Bool.or_eq_true, Bool.and_eq_true, Bool.not_eq_true']
    rcases h with h | ⟨hw, hl⟩
    · exact Or.inr (usesOf_le_liveReads (Or.inl hp) (readsFirst_single.mp h))
    · refine Or.inl ⟨hl, Bool.eq_false_iff.mpr fun hk => Bool.eq_false_iff.mp hw ?_⟩
      refine has_writtenBy_single.mpr (liveWrites_le_definesOf hp ?_ hk)
      cases ins with
      | call d t args tail => simp [isPlain] at hp
      | _ => exact hseen
  | @helper destination target arguments tail t hparse hrun =>
    simp only [Seen, hparse] at hseen
    have htransfer : transferInstruction cs (.call destination target arguments tail) live =
        (live.except (hardwareRegister destination)).union (liveValues arguments) := by
      simp [transferInstruction, resolvedContract, hparse, liveWrites, liveReads]
    rw [htransfer, has_union, has_except, Bool.or_eq_true, Bool.and_eq_true, Bool.not_eq_true']
    rcases h with h | ⟨hw, hl⟩
    · rcases hseen.2 x hx h with h | h
      · exact Or.inr (ofValues_le_liveValues arguments x h)
      · rw [hnot] at h
        cases h
    · refine Or.inl ⟨hl, Bool.eq_false_iff.mpr fun hk => Bool.eq_false_iff.mp hw ?_⟩
      simp only [has_writtenBy_append, has_writtenBy_single]
      exact Or.inr (Or.inr (hseen.1 x hk))
  | @outside destination target arguments tail a contract t hparse hgiven hcontract hrun =>
    simp only [Seen, hparse, hcontract] at hseen
    have hmeets := hcontracts a contract hcontract t hrun
    have htransfer : transferInstruction cs (.call destination target arguments tail) live =
        ((live.except contract.definiteWrites).union (callInputs destination contract)).except
          (hardwareRegister destination) := by
      simp [transferInstruction, resolvedContract, hparse, hcontract]
    rw [htransfer]
    simp only [has_except, has_union, Bool.and_eq_true, Bool.or_eq_true, Bool.not_eq_true']
    have hinputs : contract.readBeforeWrite.has x = true →
        (callInputs destination contract).has x = true := by
      intro hr
      unfold callInputs
      split
      · rw [has_union, hr, Bool.true_or]
      · exact hr
    rcases h with h | ⟨hw, hl⟩
    · rcases h.append with h | ⟨-, h⟩
      · have hr := hmeets.reads x hx h
        refine ⟨Or.inr (hinputs hr), Bool.eq_false_iff.mpr fun hk => ?_⟩
        have := hseen.2 x hk hr
        rw [hnot] at this
        cases this
      · have := readsFirst_single.mp h
        simp at this
    · have hnone : ¬ ((writtenBy t).has x = true ∨
          (callDestination destination none).has x = true) := by
        intro hw'
        refine Bool.eq_false_iff.mp hw ?_
        simpa only [has_writtenBy_append, has_writtenBy_single] using hw'
      refine ⟨Or.inl ⟨hl, Bool.eq_false_iff.mpr fun hd => hnone (Or.inl ?_)⟩,
        Bool.eq_false_iff.mpr fun hk => hnone (Or.inr (hseen.1 x hk))⟩
      exact hmeets.definite x hx hd
  | @thunk destination target arguments tail a thunk hparse hgiven hcontract hthunk hstrict =>
    simp only [Seen, hparse, hcontract] at hseen
    have htransfer : transferInstruction cs (.call destination target arguments tail) live =
        (live.except (hardwareRegister destination)).union (liveValues arguments) := by
      simp [transferInstruction, resolvedContract, hparse, hcontract, liveWrites, liveReads]
    rw [htransfer, has_union, has_except, Bool.or_eq_true, Bool.and_eq_true, Bool.not_eq_true']
    rcases h with h | ⟨hw, hl⟩
    · rcases hseen.2 x hx h with h | h
      · exact Or.inr (ofValues_le_liveValues arguments x h)
      · rw [hnot] at h
        cases h
    · refine Or.inl ⟨hl, Bool.eq_false_iff.mpr fun hk => Bool.eq_false_iff.mp hw ?_⟩
      simp only [has_writtenBy_append, has_writtenBy_single]
      exact Or.inr (hseen.1 x hk)
  | indirect hstrict => exact absurd rfl (hknown _ _ _)

/-- a transfer: what it reads is live before it, and what is live after the block -/
theorem SeenTransfer.transfer {written : RegisterSet} {ins : IrInstruction} {live : RegisterSet}
    (hseen : SeenTransfer written ins) (hterm : ins.isTerminator = true)
    (hdefined : ∀ a r d o, ins ≠ .undefined a r d o) (hnot : written.has x = false)
    (h : (usesOf ins).has x = true ∨ live.has x = true) :
    (transferInstruction cs ins live).has x = true := by
  have htransfer : transferInstruction cs ins live =
      (live.except (liveWrites ins)).union (liveReads ins) := by
    cases ins with
    | call d t args tail => cases hterm
    | _ => rfl
  have hnone : (liveWrites ins).has x = false := by
    cases ins with
    | undefined a r d o => exact absurd rfl (hdefined a r d o)
    | branch | jump | ret | indirectJump | jumpTable => simp [liveWrites]
    | _ => cases hterm
  rw [htransfer, has_union, has_except, hnone, Bool.or_eq_true, Bool.and_eq_true]
  rcases h with h | h
  · right
    cases ins with
    | branch c t e r =>
      rcases hseen with hr | hr
      · exact usesOf_le_liveReads (Or.inr ⟨rfl, by rintro _ _ _ _ ⟨⟩; exact hr⟩) h
      · by_cases hname : isRegisterName r = true
        · exact usesOf_le_liveReads (Or.inr ⟨rfl, by rintro _ _ _ _ ⟨⟩; exact hname⟩) h
        · rw [usesOf, if_neg hname] at h
          rw [hr x h] at hnot
          cases hnot
    | _ => exact usesOf_le_liveReads (Or.inr ⟨hterm, by rintro _ _ _ _ ⟨⟩⟩) h
  · exact Or.inl ⟨h, rfl⟩

/-! ## runs -/

theorem mem_liveSuccessors (hf : TransfersLast f) {b pos next : Nat} {ins : IrInstruction}
    {label : String} (hins : (f.body b)[pos]? = some ins) (hlabel : label ∈ ins.targets)
    (hknown : ∀ s cases, ins ≠ .jumpTable s cases) (hnext : ordinalOf f label = some next) :
    next ∈ liveSuccessors f b := by
  have hlast : (f.body b).getLast? = some ins := by
    rw [List.getLast?_eq_getElem?, ← hf b pos ins hins (isTerminator_of_mem_targets hlabel),
      Nat.add_sub_cancel, hins]
  rw [liveSuccessors, hlast]
  cases ins with
  | branch c t e r =>
    simp only [IrInstruction.targets, List.mem_cons, List.not_mem_nil, or_false] at hlabel
    rcases hlabel with rfl | rfl
    · simp [hnext]
    · simp [hnext]
  | jump l =>
    obtain rfl := List.mem_singleton.mp hlabel
    simp [hnext]
  | jumpTable s cases => exact absurd rfl (hknown s cases)
  | _ => simp [IrInstruction.targets] at hlabel

theorem liveSuccessors_fall {b : Nat} (h : FallsThrough (f.body b)) :
    liveSuccessors f b = if b + 1 < f.blocks.length then [b + 1] else [] := by
  rw [liveSuccessors]
  cases hlast : (f.body b).getLast? with
  | none => rfl
  | some ins =>
    have hterm := h ins hlast
    cases ins <;> first | rfl | cases hterm

theorem canDeconstruct_known (h : canDeconstructWithoutContext f = true) {b pos : Nat}
    {ins : IrInstruction} (hins : (f.body b)[pos]? = some ins) :
    IrInstruction.hasUnknownTarget ins = false := by
  have := List.all_eq_true.mp h ins
    (mem_instructionsOf.mpr ⟨b, body_lt hins, List.mem_of_getElem? hins⟩)
  simp only [Bool.and_eq_true, Bool.not_eq_true'] at this
  exact this.1.1

/-- **Needed state is live.** -/
theorem LiveRun.live (hcontracts : out.Contracts Piece.returned cs) (hf : TransfersLast f)
    (hknown : canDeconstructWithoutContext f = true) {exitLive : RegisterSet} {b pos : Nat}
    {written : RegisterSet} {t : Accesses} {exited : Bool}
    (h : LiveRun thunks f cs out True b pos written t exited) (hx : x.returned = true)
    (hb : b < f.blocks.length) (hnot : written.has x = false)
    (hneeds : Needs exitLive x t exited) : (liveAt cs f exitLive b pos).has x = true := by
  induction h with
  | cut =>
    rcases hneeds with h | ⟨h, -⟩
    · exact absurd h not_readsFirst_nil
    · cases h
  | @step b pos written ins t u exited hins hstep hstrict hrest ih =>
    rw [liveAt_step hins]
    refine (hstrict trivial).transfer hcontracts hstep ?_ hx hnot ?_
    · rintro d target args rfl
      cases canDeconstruct_known hknown hins
    · rcases hneeds.append with h | ⟨hw, hu⟩
      · exact Or.inl h
      · exact Or.inr ⟨hw, ih hb (by rw [has_union, hnot, hw]; rfl) hu⟩
  | @goto b pos next written ins label u exited hins hlabel hnext hstrict hrest ih =>
    have hterm := isTerminator_of_mem_targets hlabel
    have hnextlt := (ordinalOf_spec hnext).1
    rw [liveAt_step hins, hf b pos ins hins hterm, liveAt_length]
    refine (hstrict trivial).transfer hterm ?_ hnot ?_
    · rintro _ _ _ _ rfl
      cases hlabel
    · have hcons : (usesOf ins, empty) :: u = [(usesOf ins, empty)] ++ u := rfl
      rw [hcons] at hneeds
      rcases hneeds.append with h | ⟨-, h⟩
      · exact Or.inl (readsFirst_single.mp h)
      · have hlive := ih hnextlt hnot h
        rw [liveAt_zero hnextlt] at hlive
        refine Or.inr (liveOut_succ hb (mem_liveSuccessors hf hins hlabel ?_ hnext) hlive)
        rintro s cases rfl
        cases canDeconstruct_known hknown hins
  | @leave b pos written ins hins hleaves hstrict =>
    obtain ⟨hterm, hdefined⟩ := hleaves.isTerminator
    rw [liveAt_step hins, hf b pos ins hins hterm, liveAt_length]
    refine (hstrict trivial).1.transfer hterm hdefined hnot ?_
    rcases hneeds with h | ⟨-, h, -⟩
    · exact Or.inl (readsFirst_single.mp h)
    · rw [liveOut_exit hb (hstrict trivial).2]
      exact Or.inr h
  | @fall b written u exited hnext hend hrest ih =>
    have hlive := ih hnext hnot hneeds
    rw [liveAt_zero hnext] at hlive
    rw [liveAt_length]
    refine liveOut_succ hb ?_ hlive
    rw [liveSuccessors_fall hend, if_pos hnext]
    exact List.mem_cons_self
  | @fallOff b written hlast hend =>
    rw [liveAt_length, liveOut_exit hb]
    · rcases hneeds with h | ⟨-, h, -⟩
      · exact absurd h not_readsFirst_nil
      · exact h
    · rw [liveSuccessors_fall hend, if_neg (by omega)]

theorem mem_numberSites {sites : List GuestCallSiteStateContract}
    {site : GuestCallSiteStateContract} (h : site ∈ sites) :
    ∃ ordinal, { site with callOrdinal := ordinal } ∈ numberSites sites := by
  obtain ⟨i, hi⟩ := List.mem_iff_getElem?.mp h
  have hnumbered : (numberSites sites)[i]? = some { site with
      callOrdinal := (sites.take i).countP fun other =>
        other.blockLabel == site.blockLabel && other.target == site.target } := by
    rw [numberSites, List.getElem?_mapIdx, hi, Option.map_some]
  exact ⟨_, List.mem_of_getElem? hnumbered⟩

theorem mem_directCalls {exitLive : RegisterSet} {b pos : Nat} {ins : IrInstruction}
    {site : GuestCallSiteStateContract} (hins : (f.body b)[pos]? = some ins)
    (hsite : callSite cs f exitLive b pos ins = some site) :
    ∃ ordinal, { site with callOrdinal := ordinal } ∈ (analyzeLiveness f cs exitLive).directCalls := by
  have hmem : site ∈ ((List.range f.blocks.length).flatMap
      (callSitesOf cs f exitLive)).insertionSort fun left right => siteBefore left right := by
    rw [List.mem_insertionSort, List.mem_flatMap]
    refine ⟨b, List.mem_range.mpr (body_lt hins), ?_⟩
    rw [callSitesOf, List.mem_filterMap]
    refine ⟨some site, List.mem_iff_getElem?.mpr ⟨pos, ?_⟩, rfl⟩
    rw [List.getElem?_mapIdx, hins, Option.map_some, hsite]
  exact mem_numberSites hmem

/-- **Every output is reported.**  State that the callee of a direct call may write and that the run
after the call needs is among the outputs of the call. -/
theorem outputs_sound (thunks : GuestSaveRestoreThunks) (f : IrFunction) (cs : CalleeContracts)
    (exitLive : RegisterSet) (out : Outside) (hcontracts : out.Contracts Piece.returned cs)
    (hlast : TransfersLast f) (hknown : canDeconstructWithoutContext f = true) (b pos : Nat)
    (destination target : String) (arguments : List IrValue) (tail : Bool) (a : Nat)
    (contract : GuestAbiContract)
    (hins : (f.body b)[pos]? = some (.call destination target arguments tail))
    (htarget : parseAddress target = some a) (hcontract : cs a = some contract) (t : Accesses)
    (exited : Bool) (hrun : LiveRun thunks f cs out True b (pos + 1) empty t exited) (x : Piece)
    (hx : x.returned = true) (hwrites : contract.possibleWrites.has x = true)
    (hneeds : Needs exitLive x t exited) :
    ∃ site ∈ (analyzeLiveness f cs exitLive).directCalls, site.blockLabel = f.labelOf b ∧
      site.instructionIndex = pos ∧ site.target = a ∧ site.outputs.has x = true := by
  have hlive := hrun.live hcontracts hlast hknown hx (body_lt hins) (has_empty x) hneeds
  have hsite : callSite cs f exitLive b pos (.call destination target arguments tail) =
      some ⟨f.labelOf b, pos, 0, a, callInputs destination contract,
        (liveAfter cs f exitLive b pos).intersect contract.possibleWrites,
        liveAfter cs f exitLive b pos⟩ := by
    simp [callSite, htarget, hcontract]
  obtain ⟨ordinal, hmem⟩ := mem_directCalls hins hsite
  refine ⟨_, hmem, rfl, rfl, rfl, ?_⟩
  rw [has_intersect, hwrites, Bool.and_true]
  exact hlive

end

/-! ### a carry after a call -/

def writesXer : GuestAbiContract := writesOnly xerOnly

/-- the contracts of one function, at 0x80002000 -/
def xerContracts : CalleeContracts := fun a => if a = 0x80002000 then some writesXer else none

/-- the function writes XER, and `PPC_GetCarry` reads it -/
def xerOutside : Outside where
  function a t := a = 0x80002000 ∧ t = [(empty, xerOnly)]
  helper target _ t := target = "PPC_GetCarry" ∧ t = [(xerOnly, empty)]

theorem meets_writesOnly (counts : Piece → Bool) (s : RegisterSet) :
    Meets counts (writesOnly s) [(empty, s)] := by
  refine ⟨fun x _ hr => ?_, fun x _ hw => ?_, fun x _ hd => ?_⟩
  · have := readsFirst_single.mp hr
    simp at this
  · exact has_writtenBy_single.mp hw
  · exact has_writtenBy_single.mpr hd

theorem xerOutside_contracts : xerOutside.Contracts Piece.returned xerContracts := by
  rintro a contract hcontract t ⟨rfl, rfl⟩
  obtain rfl := Option.some.inj hcontract
  exact meets_writesOnly _ _

/-- a call, and then an addition that takes the carry -/
def carryAfterCall : IrFunction := ⟨"func_80001000", "a", [⟨"a",
  [.call "" "func_80002000" [] false, .call "r4" "PPC_GetCarry" [] false,
    .binary "r3" (.register "r3") (.register "r4") "add", .ret none]⟩]⟩

def carryAccesses : Accesses :=
  [(empty, empty), (xerOnly, empty), (empty, single (.gpr 4))]

theorem carry_run : LiveRun noThunks carryAfterCall xerContracts xerOutside False 0 1 empty
    carryAccesses false := by
  have he : carryAccesses = ([(ofValues [], empty)] ++ ([(xerOnly, empty)] ++
      [(empty, callDestination "r4" (some (helperEffect "PPC_GetCarry" [])))])) ++ [] := by
    decide +kernel
  rw [he]
  exact .step rfl (.helper (by decide +kernel) ⟨rfl, rfl⟩) False.elim .cut

/-- **A helper that reads XER on its own is not seen.**  The callee writes XER, `PPC_GetCarry` reads
it next, and no output of the call is reported. -/
theorem carry_not_reported : xerOutside.Contracts Piece.returned xerContracts ∧
    canDeconstructWithoutContext carryAfterCall = true ∧ xerContracts 0x80002000 = some writesXer ∧
    writesXer.possibleWrites.has .xer = true ∧
    LiveRun noThunks carryAfterCall xerContracts xerOutside False 0 1 empty carryAccesses false ∧
    Needs (single (.gpr 3)) .xer carryAccesses false ∧
    (analyzeLiveness carryAfterCall xerContracts (single (.gpr 3))).directCalls.map
      GuestCallSiteStateContract.outputs = [empty] :=
  ⟨xerOutside_contracts, by decide +kernel, rfl, rfl, carry_run,
    Or.inl ⟨[(empty, empty)], _, _, rfl, rfl, rfl⟩, by decide +kernel⟩

/-! ### a result after a call -/

/-- the callee writes r3, and the caller returns it -/
def resultContracts : CalleeContracts := fun a =>
  if a = 0x80002000 then some (writesOnly (single (.gpr 3))) else none

def resultOutside : Outside where
  function a t := a = 0x80002000 ∧ t = [(empty, single (.gpr 3))]
  helper _ _ _ := False

theorem resultOutside_contracts : resultOutside.Contracts Piece.returned resultContracts := by
  rintro a contract hcontract t ⟨rfl, rfl⟩
  obtain rfl := Option.some.inj hcontract
  exact meets_writesOnly _ _

/-- the result of the call is stored, in a block that the call's block falls into -/
def storesResult : IrFunction := ⟨"func_80001000", "a",
  [⟨"a", [.call "" "func_80002000" [] false]⟩,
    ⟨"b", [.store ⟨"r4", 0⟩ (.register "r3") 4, .ret none]⟩]⟩

theorem storesResult_transfersLast : TransfersLast storesResult := by
  intro b pos ins hins hterm
  match b, pos with
  | 0, 0 | 1, 0 =>
    obtain rfl := Option.some.inj hins
    cases hterm
  | 1, 1 => rfl
  | 0, n + 1 | 1, n + 2 => cases hins
  | b + 2, _ => cases hins

theorem storesResult_run : LiveRun noThunks storesResult resultContracts resultOutside True 0 1 empty
    [((single (.gpr 4)).union (single (.gpr 3)), empty), (empty, empty)] true := by
  have hfalls : FallsThrough (storesResult.body 0) := by
    intro ins hlast
    obtain rfl := Option.some.inj hlast
    rfl
  have he : [((single (.gpr 4)).union (single (.gpr 3)), empty), (empty, empty)] =
      [(usesOf (.store ⟨"r4", 0⟩ (.register "r3") 4),
        definesOf (.store ⟨"r4", 0⟩ (.register "r3") 4))] ++ [(usesOf (.ret none), empty)] := by
    decide +kernel
  rw [he]
  exact .fall (by decide) hfalls (.step rfl (.plain rfl) (fun _ name hname => by cases hname)
    (.leave rfl trivial fun _ => ⟨trivial, rfl⟩))

theorem outputs_sound_storesResult :
    ∃ site ∈ (analyzeLiveness storesResult resultContracts empty).directCalls,
      site.blockLabel = storesResult.labelOf 0 ∧ site.instructionIndex = 0 ∧
      site.target = 0x80002000 ∧ site.outputs.has (.gpr 3) = true :=
  outputs_sound noThunks storesResult resultContracts empty resultOutside resultOutside_contracts
    storesResult_transfersLast (by decide +kernel) 0 0 "" "func_80002000" [] false 0x80002000
    (writesOnly (single (.gpr 3))) rfl (by decide +kernel) rfl _ true storesResult_run (.gpr 3) rfl
    (by decide) (Or.inl ⟨[], _, _, rfl, by decide, has_writtenBy_nil⟩)

end DolTranslator.Abi
