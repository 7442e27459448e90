import DolTranslator.Gqr.ConstantPropagation

/-!
# Relocated addresses

In a relocatable module an access through a base whose value is known is emitted with the address
that its target has after loading.

* `updateKnownUIntConstants`   the constants of a block, by full name and by base name;
* `remapAddress`   the address that an access is emitted with, if it is replaced;
* `Tracked`   an instruction changes a register that is read later only where the
  tracker sees it;
* `remap_right`   in a run of such steps, a base that is replaced has its value.
-/

namespace DolTranslator.Linked
open Dataflow Gqr

/-! ## the tracker -/

def tryGetUIntConstant (constants : Constants) : IrValue → Option Word
  | .imm value => some (BitVec.ofInt 32 value)
  | .register name => constants.lookup (foldCase name)

def tryEvaluateUIntBinary (op : String) (left right : Word) : Option Word :=
  if op ∈ ["add", "sub", "and", "or", "xor", "shl", "shr", "rotl"] then tryBinary op left right
  else none

def trackedDestination : IrInstruction → Option String
  | .assign destination _ | .binary destination .. | .load destination .. | .call destination ..
  | .indirectCall destination .. => some destination
  | _ => none

def trackedValue (constants : Constants) : IrInstruction → Option Word
  | .assign _ value => tryGetUIntConstant constants value
  | .binary _ left right op => (tryGetUIntConstant constants left).bind fun l =>
      (tryGetUIntConstant constants right).bind fun r => tryEvaluateUIntBinary op l r
  | _ => none

/-- a destination is filed under its name, and under its name without the version -/
def keys (destination : String) : List String :=
  [foldCase destination, foldCase (registerBase destination)]

def updateKnownUIntConstants (constants : Constants) (ins : IrInstruction) : Constants :=
  match trackedDestination ins with
  | none => constants
  | some d => (keys d).foldl (fun m k => m.assign k (trackedValue constants ins)) constants

/-- `localConstants` in front of an instruction; a suppressed one is tracked as well -/
def constantsAt (f : IrFunction) (b i : Nat) : Constants :=
  ((f.body b).take i).foldl updateKnownUIntConstants ∅

/-! ## the replaced accesses -/

structure LinkedAddressRemap where
  linkBase : Nat
  guestBase : Nat
  codeSize : Nat

def knownBase (constants : Constants) (base : String) : Option Word :=
  (constants.lookup (foldCase base)).or (constants.lookup (foldCase (registerBase base)))

def remapAddress (remap : Option LinkedAddressRemap) (constants : Constants) (address : IrAddress) :
    Option Nat :=
  remap.bind fun remap => (knownBase constants address.base).bind fun base =>
    let effective := (base + BitVec.ofInt 32 address.offset).toNat
    if remap.linkBase ≤ effective ∧ effective < remap.linkBase + remap.codeSize then
      some (remap.guestBase + (effective - remap.linkBase))
    else none

/-- the addresses that `EmitInstruction` hands to `RemapAddress` -/
def remappedAddresses : IrInstruction → List IrAddress
  | .load _ address _ | .store address _ _ | .resolvedLoad _ _ address _ _
  | .resolvedStore _ address _ _ _ => [address]
  | .resolveGuestMemoryRange _ (.register base) minOffset _ _ _ => [⟨base, minOffset⟩]
  | .resolvedLoadPair _ _ _ first second _ _ _ | .resolvedStorePair _ first second _ _ _ _ _ =>
    [first, second]
  | _ => []

/-! ## runs -/

section
variable {V W : Type} (env : Env V W) (word : Word → V) (f : IrFunction)
  (suppressed : Nat → Nat → Bool)

/-- how a run goes on: with an instruction, past a suppressed one, or where control arrives from
elsewhere, at the start of a block or through the link register at a label inside one -/
inductive Passage
  | execute (ins : IrInstruction)
  | skip (ins : IrInstruction)
  | arrive

inductive Step : Passage → Config (State V W) → Config (State V W) → Prop
  | execute {c : Config (State V W)} {ins : IrInstruction}
      (at_ : (f.body c.block)[c.index]? = some ins) (emitted : suppressed c.block c.index = false) :
      Step (.execute ins) c ⟨c.block, c.index + 1, (c.state.emittedStep env ins).1⟩
  | skip {c : Config (State V W)} {ins : IrInstruction}
      (at_ : (f.body c.block)[c.index]? = some ins) (omitted : suppressed c.block c.index = true) :
      Step (.skip ins) c { c with index := c.index + 1 }
  | arrive {c : Config (State V W)} {b i : Nat} (s : State V W)
      (label : i = 0 ∨ ∃ address disassembly rawHex,
        (f.body b)[i]? = some (.tracePpc address disassembly rawHex)) : Step .arrive c ⟨b, i, s⟩

def readsFrom (b i : Nat) : List String := ((f.body b).drop i).flatMap IrInstruction.operands

/-- no instruction of a list files `x` under the name `key` -/
def Unfiled (body : List IrInstruction) (key : String) : Prop :=
  ∀ ins ∈ body, ∀ d ∈ trackedDestination ins, key ∉ keys d

/-- names that share a key share a register, a folded operator is defined in C++, and a register
that is read later changes only where the tracker sees it, under the newest name that it knows -/
structure Tracked (b i : Nat) (ins : IrInstruction) (s s' : State V W) : Prop where
  shared : ∀ x ∈ readsFrom f b (i + 1), ∀ d ∈ trackedDestination ins,
    foldCase (registerBase x) ∈ keys d → cellOf d = cellOf x
  defined : ∀ d left right op, ins = .binary d left right op → ∀ l r v,
    left.eval env (fun x => s.regs (cellOf x)) = word l →
    right.eval env (fun x => s.regs (cellOf x)) = word r →
    tryEvaluateUIntBinary op l r = some v → runtimeBinary op l r = some v
  kept : ∀ x ∈ readsFrom f b (i + 1), s'.regs (cellOf x) = s.regs (cellOf x) ∨
    ∃ d ∈ trackedDestination ins, foldCase x ∈ keys d ∨
      foldCase (registerBase x) ∈ keys d ∧ Unfiled ((f.body b).take i) (foldCase x)

/-- what a step has to meet; nothing is known of a name that is read from where control arrives on,
or behind a suppressed instruction that files it -/
def Meets (c c' : Config (State V W)) : Passage → Prop
  | .execute ins => Tracked env word f c.block c.index ins c.state c'.state
  | .skip ins => ∀ x ∈ readsFrom f c.block (c.index + 1),
      Unfiled [ins] (foldCase (registerBase x))
  | .arrive => ∀ x ∈ readsFrom f c'.block c'.index,
      Unfiled ((f.body c'.block).take c'.index) (foldCase (registerBase x))

/-- what is known of a name that is read later is true -/
def Right (c : Config (State V W)) : Prop :=
  ∀ x ∈ readsFrom f c.block c.index, ∀ v,
    knownBase (constantsAt f c.block c.index) x = some v → c.state.regs (cellOf x) = word v

end

/-! ## keys -/

theorem registerBaseChars_map_toLower (cs : List Char) :
    registerBaseChars (cs.map Char.toLower) = (registerBaseChars cs).map Char.toLower := by
  unfold registerBaseChars
  rw [span_map_toLower]
  rcases hspan : cs.span (· ≠ '_') with ⟨front, _ | ⟨u, digits⟩⟩
  · rfl
  · obtain rfl := span_underscore hspan
    show (if _ then _ else _) = List.map Char.toLower (if _ then _ else _)
    simp only [all_isDigit_map_toLower, ne_eq, List.map_eq_nil_iff,
      apply_ite (List.map Char.toLower)]

theorem registerBase_foldCase (x : String) :
    registerBase (foldCase x) = foldCase (registerBase x) := by
  rw [registerBase, toList_foldCase, registerBaseChars_map_toLower, foldCase, registerBase,
    String.toList_ofList]

theorem keys_base {x d : String} (h : foldCase x ∈ keys d) :
    foldCase (registerBase x) ∈ keys d := by
  have hidem : registerBase (registerBase d) = registerBase d := by
    rw [registerBase, registerBase, String.toList_ofList, registerBaseChars_idem]
  refine List.mem_cons_of_mem _ (List.mem_singleton.mpr ?_)
  rcases List.mem_cons.mp h with h | h
  · rw [← registerBase_foldCase, h, registerBase_foldCase]
  · rw [← registerBase_foldCase, List.mem_singleton.mp h, registerBase_foldCase, hidem]

theorem lookup_update (m : Constants) (ins : IrInstruction) (k : String) :
    (updateKnownUIntConstants m ins).lookup k =
      if ∃ d ∈ trackedDestination ins, k ∈ keys d then trackedValue m ins else m.lookup k := by
  unfold updateKnownUIntConstants
  cases htracked : trackedDestination ins with
  | none => simp
  | some d =>
    simp only [keys, List.foldl_cons, List.foldl_nil, Option.mem_some_iff, exists_eq_left',
      List.mem_cons, List.not_mem_nil, or_false]
    split_ifs with hk
    · by_cases hbase : k = foldCase (registerBase d)
      · rw [hbase, ConstantMap.lookup_assign]
      · rw [ConstantMap.lookup_assign_ne _ _ hbase, hk.resolve_right hbase,
          ConstantMap.lookup_assign]
    · rw [ConstantMap.lookup_assign_ne _ _ fun e => hk (.inr e),
        ConstantMap.lookup_assign_ne _ _ fun e => hk (.inl e)]

theorem lookup_of_unfiled {body : List IrInstruction} {k : String} (h : Unfiled body k)
    (m : Constants) : (body.foldl updateKnownUIntConstants m).lookup k = m.lookup k := by
  induction body generalizing m with
  | nil => rfl
  | cons ins body ih =>
    rw [List.foldl_cons, ih fun x hx => h x (List.mem_cons_of_mem _ hx), lookup_update,
      if_neg fun ⟨d, hd, hk⟩ => h ins List.mem_cons_self d hd hk]

theorem Unfiled.of_base {body : List IrInstruction} {x : String}
    (h : Unfiled body (foldCase (registerBase x))) : Unfiled body (foldCase x) :=
  fun ins hins d hd hk => h ins hins d hd (keys_base hk)

/-! ## the constants are right -/

section
variable {V W : Type} {env : Env V W} {word : Word → V} {f : IrFunction}
  {suppressed : Nat → Nat → Bool}

theorem constantsAt_succ {b i : Nat} {ins : IrInstruction} (h : (f.body b)[i]? = some ins) :
    constantsAt f b (i + 1) = updateKnownUIntConstants (constantsAt f b i) ins := by
  rw [constantsAt, List.take_add_one, h, List.foldl_append]
  rfl

theorem readsFrom_succ {b i : Nat} {ins : IrInstruction} (h : (f.body b)[i]? = some ins) :
    readsFrom f b i = ins.operands ++ readsFrom f b (i + 1) := by
  obtain ⟨hlt, rfl⟩ := List.getElem?_eq_some_iff.mp h
  rw [readsFrom, List.drop_eq_getElem_cons hlt, List.flatMap_cons]
  rfl

theorem tryGetUIntConstant_eval (hw : Words env word) {m : Constants} {s : State V W}
    {value : IrValue} {v : Word} (h : tryGetUIntConstant m value = some v)
    (hright : ∀ x ∈ value.names, ∀ v, knownBase m x = some v → s.regs (cellOf x) = word v) :
    value.eval env (fun x => s.regs (cellOf x)) = word v := by
  cases value with
  | imm c =>
    cases h
    exact hw.imm c
  | register name =>
    refine hright name List.mem_cons_self v ?_
    rw [knownBase, show m.lookup (foldCase name) = some v from h]
    rfl

theorem trackedValue_eval (hw : Words env word) {m : Constants} {s : State V W} {b i : Nat}
    {ins : IrInstruction} {d : String} {v : Word} (hd : d ∈ trackedDestination ins)
    (h : trackedValue m ins = some v)
    (hright : ∀ x ∈ ins.operands, ∀ v, knownBase m x = some v → s.regs (cellOf x) = word v)
    (htracked : Tracked env word f b i ins s (s.emittedStep env ins).1) :
    (s.emittedStep env ins).1.regs (cellOf d) = word v := by
  cases ins with
  | assign d' value =>
    cases hd
    rw [State.emittedStep_assign]
    dsimp only
    rw [Function.update_self]
    exact tryGetUIntConstant_eval hw h hright
  | binary d' left right op =>
    cases hd
    obtain ⟨l, hl, hbind⟩ := Option.bind_eq_some_iff.mp h
    obtain ⟨r, hr, hv⟩ := Option.bind_eq_some_iff.mp hbind
    have hleft := tryGetUIntConstant_eval hw hl fun x hx => hright x (List.mem_append_left _ hx)
    have hright := tryGetUIntConstant_eval hw hr fun x hx => hright x (List.mem_append_right _ hx)
    have hop := htracked.defined d left right op rfl l r v hleft hright hv
    simp only [State.emittedStep, execute, IrInstruction.definitions, List.map_cons, List.map_nil,
      assignAll_cons, assignAll_nil, Function.update_self]
    rw [hleft, hright, hw.binary op l r v hop]
  | _ => cases h

theorem right_step (hw : Words env word) {p : Passage} {c c' : Config (State V W)}
    (h : Step env f suppressed p c c') (hmeets : Meets env word f c c' p)
    (hc : Right word f c) : Right word f c' := by
  intro x hx v hv
  cases h with
  | @execute c ins hins =>
    have htracked : Tracked env word f c.block c.index ins c.state _ := hmeets
    have hreads := readsFrom_succ hins
    have hold (y : String) (hy : y ∈ ins.operands ++ readsFrom f c.block (c.index + 1)) (v : Word)
        (hv : knownBase (constantsAt f c.block c.index) y = some v) :
        c.state.regs (cellOf y) = word v := hc y (hreads ▸ hy) v hv
    have hnew (d : String) (hd : d ∈ trackedDestination ins)
        (hbase : foldCase (registerBase x) ∈ keys d)
        (h : trackedValue (constantsAt f c.block c.index) ins = some v) :
        (c.state.emittedStep env ins).1.regs (cellOf x) = word v := by
      rw [← htracked.shared x hx d hd hbase]
      exact trackedValue_eval hw hd h (fun y hy => hold y (List.mem_append_left _ hy)) htracked
    have hsame (hno : ¬∃ d ∈ trackedDestination ins, foldCase x ∈ keys d ∨
        foldCase (registerBase x) ∈ keys d ∧ Unfiled ((f.body c.block).take c.index) (foldCase x))
        (h : knownBase (constantsAt f c.block c.index) x = some v) :
        (c.state.emittedStep env ins).1.regs (cellOf x) = word v :=
      ((htracked.kept x hx).resolve_right hno).trans (hold x (List.mem_append_right _ hx) v h)
    rw [constantsAt_succ hins, knownBase, lookup_update, lookup_update] at hv
    by_cases hfull : ∃ d ∈ trackedDestination ins, foldCase x ∈ keys d
    · obtain ⟨d, hd, hk⟩ := hfull
      rw [if_pos ⟨d, hd, hk⟩, if_pos ⟨d, hd, keys_base hk⟩, Option.or_self] at hv
      exact hnew d hd (keys_base hk) hv
    · rw [if_neg hfull] at hv
      by_cases hbase : ∃ d ∈ trackedDestination ins, foldCase (registerBase x) ∈ keys d
      · -- an older constant under the full name is found first
        obtain ⟨d, hd, hk⟩ := hbase
        rw [if_pos ⟨d, hd, hk⟩] at hv
        cases hl : (constantsAt f c.block c.index).lookup (foldCase x) with
        | none => exact hnew d hd hk (by rwa [hl, Option.none_or] at hv)
        | some w =>
          refine hsame (fun ⟨d, hd, h⟩ => h.elim (fun hk => hfull ⟨d, hd, hk⟩) fun ⟨_, hu⟩ => ?_) ?_
          · rw [constantsAt, lookup_of_unfiled hu] at hl
            cases hl
          · rw [knownBase, hl]
            rwa [hl] at hv
      · rw [if_neg hbase] at hv
        exact hsame (fun ⟨d, hd, h⟩ => h.elim (fun hk => hfull ⟨d, hd, hk⟩)
          fun ⟨hk, _⟩ => hbase ⟨d, hd, hk⟩) hv
  | @skip c ins hins =>
    have hunfiled : Unfiled [ins] (foldCase (registerBase x)) := hmeets x hx
    refine hc x (readsFrom_succ hins ▸ List.mem_append_right _ hx) v ?_
    rw [constantsAt_succ hins, knownBase, lookup_update, lookup_update] at hv
    rwa [if_neg fun ⟨d, hd, hk⟩ => hunfiled.of_base ins List.mem_cons_self d hd hk,
      if_neg fun ⟨d, hd, hk⟩ => hunfiled ins List.mem_cons_self d hd hk] at hv
  | @arrive c b i s _ =>
    have hunfiled : Unfiled ((f.body b).take i) (foldCase (registerBase x)) := hmeets x hx
    rw [knownBase, constantsAt, lookup_of_unfiled hunfiled,
      lookup_of_unfiled hunfiled.of_base] at hv
    cases hv

theorem base_mem_operands {ins : IrInstruction} {address : IrAddress}
    (h : address ∈ remappedAddresses ins) : address.base ∈ ins.operands := by
  cases ins with
  | resolveGuestMemoryRange d base =>
    cases base with
    | register name =>
      rw [List.mem_singleton.mp h]
      exact List.mem_cons_self
    | imm => cases h
  | _ => simp_all [remappedAddresses, IrInstruction.operands] <;> aesop

/-- **An access is replaced only where its base has the value that it is replaced for**, in a run
in which every register that is read later changes where the tracker sees it. -/
theorem remap_right (hw : Words env word) {start c : Config (State V W)} (hstart : start.index = 0)
    (hrun : Relation.ReflTransGen (fun c c' => ∃ p, Step env f suppressed p c c' ∧
      Meets env word f c c' p) start c)
    {ins : IrInstruction} (hins : (f.body c.block)[c.index]? = some ins)
    {remap : Option LinkedAddressRemap} {address : IrAddress}
    (haddress : address ∈ remappedAddresses ins)
    (h : (remapAddress remap (constantsAt f c.block c.index) address).isSome) :
    ∃ base, knownBase (constantsAt f c.block c.index) address.base = some base ∧
      c.state.regs (cellOf address.base) = word base := by
  have hright : Right word f c := by
    clear hins h
    induction hrun with
    | refl =>
      intro x _ v hv
      rw [hstart] at hv
      cases hv
    | tail _ hstep ih =>
      obtain ⟨p, hstep, hmeets⟩ := hstep
      exact right_step hw hstep hmeets ih
  obtain ⟨target, htarget⟩ := Option.isSome_iff_exists.mp h
  obtain ⟨_, -, htarget⟩ := Option.bind_eq_some_iff.mp htarget
  obtain ⟨base, hbase, -⟩ := Option.bind_eq_some_iff.mp htarget
  refine ⟨base, hbase, hright _ ?_ base hbase⟩
  rw [readsFrom_succ hins]
  exact List.mem_append_left _ (base_mem_operands haddress)

end

/-! ## runs on fixed functions -/

/-- every call clears `r3` -/
def clearingEnv : Env Word Unit :=
  { wordEnv with call := fun _ _ regs _ => (0, Function.update regs "r3" 0, ()) }

def zeros : State Word Unit := ⟨fun _ => 0, ()⟩

def linkedModule : LinkedAddressRemap := ⟨0x80500000, 0x80700000, 0x1000⟩

/-- a string load into the base register -/
def stringLoad : IrFunction := ⟨"stringLoad", "a", [⟨"a",
  [.assign "r3" (.imm 0x80500000), .call "" "PPC_Lswi" [.imm 3, .register "r4", .imm 4] false,
    .load "r5" ⟨"r3", 8⟩ 4]⟩]⟩

theorem stringLoad_wrong : ¬∀ (env : Env Word Unit) (f : IrFunction)
    (start c : Config (State Word Unit)) (remap : Option LinkedAddressRemap), Words env id →
    start.index = 0 →
    Relation.ReflTransGen (fun c c' => ∃ p, Step env f (fun _ _ => false) p c c') start c →
    ∀ ins ∈ (f.body c.block)[c.index]?, ∀ address ∈ remappedAddresses ins,
      (remapAddress remap (constantsAt f c.block c.index) address).isSome →
      ∃ base, knownBase (constantsAt f c.block c.index) address.base = some base ∧
        c.state.regs (cellOf address.base) = base := by
  intro hall
  have h := hall clearingEnv stringLoad ⟨0, 0, zeros⟩ _ (some linkedModule)
    ⟨wordEnv_words.imm, wordEnv_words.binary⟩ rfl
    (.tail (.single ⟨_, .execute rfl rfl⟩) ⟨_, .execute rfl rfl⟩) _ rfl ⟨"r3", 8⟩
    (by decide) (by decide +kernel)
  obtain ⟨base, hbase, hregs⟩ := h
  have hknown : knownBase (constantsAt stringLoad 0 2) "r3" = some 0x80500000 := by decide +kernel
  rw [Option.some.inj (hbase.symm.trans hknown)] at hregs
  exact absurd hregs (by decide +kernel)

/-- the base register is loaded right before the access -/
def constantLoad : IrFunction := ⟨"constantLoad", "a", [⟨"a",
  [.assign "r3_1" (.imm 0x80500000), .load "r5_1" ⟨"r3_1", 8⟩ 4]⟩]⟩

theorem remap_right_constantLoad :
    (zeros.emittedStep wordEnv (.assign "r3_1" (.imm 0x80500000))).1.regs "r3" = 0x80500000 := by
  have hmeets : Meets wordEnv id constantLoad ⟨0, 0, zeros⟩
      ⟨0, 1, (zeros.emittedStep wordEnv (.assign "r3_1" (.imm 0x80500000))).1⟩
      (.execute (.assign "r3_1" (.imm 0x80500000))) := by
    refine ⟨fun x hx d hd _ => ?_, fun _ _ _ _ h => (by cases h),
      fun x hx => .inr ⟨_, rfl, .inl ?_⟩⟩
    · rw [List.mem_singleton.mp hx, Option.some.inj hd.symm]
    · rw [List.mem_singleton.mp hx]
      decide +kernel
  have hstep : Step wordEnv constantLoad (fun _ _ => false) (.execute _) ⟨0, 0, zeros⟩ _ :=
    .execute rfl rfl
  have haddress : (⟨"r3_1", 8⟩ : IrAddress) ∈ remappedAddresses (.load "r5_1" ⟨"r3_1", 8⟩ 4) :=
    List.mem_cons_self
  have hremapped : (remapAddress (some linkedModule) (constantsAt constantLoad 0 1)
      ⟨"r3_1", 8⟩).isSome := by decide +kernel
  obtain ⟨base, hbase, hregs⟩ := remap_right wordEnv_words rfl (.single ⟨_, hstep, hmeets⟩) rfl
    haddress hremapped
  have hknown : knownBase (constantsAt constantLoad 0 1) "r3_1" = some 0x80500000 := by
    decide +kernel
  rw [hknown] at hbase
  rw [show "r3" = cellOf "r3_1" by decide +kernel]
  exact hregs.trans (Option.some.inj hbase).symm

end DolTranslator.Linked
