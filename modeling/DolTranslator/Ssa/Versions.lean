import DolTranslator.Ir.Names
import DolTranslator.Ssa.Phis

/-!
# Versions and what renaming does to one block

* `strip_versionName`, `versionName_inj`   a version name determines its variable and number;
* `NameOf`   the name a variable is read under: its current version, or the version of the
  implicit parameter when there is none;
* `Rep`   the stacks of the renamer, with the implicit parameter split off the bottom;
* `RenamedBody`   a renamed instruction list, and `renameInstructions_spec`.
-/

set_option linter.unusedSectionVars false

namespace DolTranslator.Ssa

/-! ## version names -/

theorem toList_versionName (base : String) (id : Nat) :
    (versionName base id).toList = base.toList ++ '_' :: (toString id).toList := by
  simp [versionName]

theorem strip_versionName {base : String} (h : base ≠ "") (id : Nat) :
    stripNumericSuffix (versionName base id) = base := by
  have hne : base.toList ≠ [] := fun e => h (String.toList_inj.mp (by simpa using e))
  rw [stripNumericSuffix, toList_versionName,
    stripChars_append hne fun c hc => isDigit_of_mem_toString hc, String.ofList_toList]

variable {x : String}

theorem versionName_inj {y : String} (hx : x ≠ "") (hy : y ≠ "") {k m : Nat}
    (h : versionName x k = versionName y m) : x = y ∧ k = m := by
  have hxy : x = y := by rw [← strip_versionName hx k, h, strip_versionName hy m]
  subst hxy
  refine ⟨rfl, toString_inj (String.toList_inj.mp ?_)⟩
  have hl := congrArg String.toList h
  rw [toList_versionName, toList_versionName] at hl
  simpa using hl

theorem versionName_not_blank (x : String) (k : Nat) :
    isNullOrWhiteSpace (versionName x k) = false := by
  rw [isNullOrWhiteSpace, toList_versionName, List.all_append]
  have : ('_' : Char).isWhitespace = false := by decide
  simp [this]

/-- the names of a function: spelled without a version, and told apart by the dictionaries -/
structure Vocabulary (N : String → Prop) : Prop where
  nonempty : ∀ x, N x → x ≠ ""
  base : ∀ x, N x → stripNumericSuffix x = x
  case : ∀ x y, N x → N y → foldCase x = foldCase y → x = y

def IsVersion (x t : String) : Prop := ∃ k, t = versionName x k

variable {t : String}

theorem IsVersion.strip {N : String → Prop} (hN : Vocabulary N) (hx : N x)
    (h : IsVersion x t) : stripNumericSuffix t = x := by
  obtain ⟨k, rfl⟩ := h
  exact strip_versionName (hN.nonempty x hx) k

/-! ## names of the operands -/

def conditionReads : IrInstruction → List String
  | .branch _ _ _ conditionRegister =>
    if isRegisterName conditionRegister then [conditionRegister] else []
  | _ => []

def renamedReads (ins : IrInstruction) : List String := ins.operands ++ conditionReads ins

def mapValue (ρ : String → String) : IrValue → IrValue
  | .register name => .register (ρ name)
  | .imm c => .imm c

/-- rename the reads of an instruction by `ρ` and its destination by `δ` -/
def mapNames (ρ δ : String → String) : IrInstruction → IrInstruction
  | .assign d v => .assign (δ d) (mapValue ρ v)
  | .binary d l r op => .binary (δ d) (mapValue ρ l) (mapValue ρ r) op
  | .load d a n => .load (δ d) ⟨ρ a.base, a.offset⟩ n
  | .store a v n => .store ⟨ρ a.base, a.offset⟩ (mapValue ρ v) n
  | .call d t args tail =>
    .call (if isNullOrWhiteSpace d then "" else δ d) t (args.map (mapValue ρ)) tail
  | .indirectCall d t args =>
    .indirectCall (if isNullOrWhiteSpace d then "" else δ d) (mapValue ρ t)
      (args.map (mapValue ρ))
  | .setCrField i l r u => .setCrField i (mapValue ρ l) (mapValue ρ r) u
  | .branch c t e r => .branch c t e (if isRegisterName r then ρ r else r)
  | .indirectJump t => .indirectJump (mapValue ρ t)
  | .jumpTable sel cases => .jumpTable (ρ sel) cases
  | .ret (some v) => .ret (some (mapValue ρ v))
  | ins => ins

/-- the instructions that the lifter produces: phis and range accesses come from later passes -/
def isLifted : IrInstruction → Bool
  | .phi .. | .resolveGuestMemoryRange .. | .resolvedLoad .. | .resolvedStore ..
  | .resolvedPsqLoad .. | .resolvedPsqStore .. | .resolvedLoadPair ..
  | .resolvedStorePair .. => false
  | _ => true

/-- the current version of each variable; none where no definition reaches -/
abbrev VersionMap := String → Option String

/-- `t` is the name under which `x` is read -/
def NameOf (imp : VersionMap) (ver : VersionMap) (x t : String) : Prop :=
  ver x = some t ∨ (ver x = none ∧ imp x = some t)

def Extended (imp imp' : VersionMap) : Prop := ∀ x t, imp x = some t → imp' x = some t

theorem Extended.refl (imp : VersionMap) : Extended imp imp := fun _ _ h => h

theorem Extended.trans {a b c : VersionMap} (h₁ : Extended a b) (h₂ : Extended b c) :
    Extended a c := fun x t h => h₂ x t (h₁ x t h)

variable {imp imp' ver : VersionMap}

theorem NameOf.mono (h : NameOf imp ver x t)
    (he : Extended imp imp') : NameOf imp' ver x t :=
  h.imp id fun h => ⟨h.1, he x t h.2⟩

def nameIn (imp ver : VersionMap) (x : String) : String := ((ver x).or (imp x)).getD ""

theorem NameOf.eq (h : NameOf imp ver x t) :
    t = nameIn imp ver x := by
  rcases h with h | ⟨h, h'⟩
  · simp [nameIn, h]
  · simp [nameIn, h, h']

/-! ## the stacks -/

abbrev Stacks := String → List String

def Stacks.top (E : Stacks) : VersionMap := fun x => (E x).head?

def Stacks.push (E : Stacks) (x t : String) : Stacks := Function.update E x (t :: E x)

def Stacks.pushAll (E : Stacks) (pops : List (String × String)) : Stacks :=
  pops.foldl (fun E p => E.push p.1 p.2) E

theorem Stacks.pushAll_append (E : Stacks) (a b : List (String × String)) :
    E.pushAll (a ++ b) = (E.pushAll a).pushAll b := List.foldl_append

theorem Stacks.top_push (E : Stacks) (x t : String) :
    (E.push x t).top = Function.update E.top x (some t) := by
  funext y
  by_cases h : y = x
  · subst h
    simp [Stacks.top, Stacks.push]
  · simp [Stacks.top, Stacks.push, Function.update_of_ne h]

/-- the renamer's stacks are the explicit definitions over the implicit parameter; the names
issued for definitions are versions below the counter, and no implicit parameter is one of them -/
structure Rep (N : String → Prop) (E : Stacks) (imp : VersionMap) (issued : String → Prop)
    (s : RenameState) : Prop where
  rows : ∀ x, N x → s.versionStacks (foldCase x) = E x ++ (imp x).toList
  top : ∀ x t, N x → t ∈ E x → issued t ∧ IsVersion x t
  issuedOf : ∀ t, issued t → ∃ x k, N x ∧ t = versionName x k ∧ k < s.nextVersions (foldCase x)
  impOf : ∀ x t, N x → imp x = some t →
    ∃ k, t = versionName x k ∧ k < s.nextVersions (foldCase x)
  disjoint : ∀ x t, N x → imp x = some t → ¬ issued t

section
variable {N : String → Prop} (hN : Vocabulary N)
include hN

theorem key_ne {y : String} (hx : N x) (hy : N y) (h : y ≠ x) : foldCase y ≠ foldCase x :=
  fun e => h (hN.case y x hy hx e)

theorem newVersion_fst (hx : N x) (s : RenameState) :
    (newVersion x s).1 = versionName x (s.nextVersions (foldCase x)) := by
  simp only [newVersion, hN.base x hx]

theorem newVersion_rows (hx : N x) (s : RenameState) :
    (newVersion x s).2.versionStacks (foldCase x) =
      (newVersion x s).1 :: s.versionStacks (foldCase x) := by
  simp only [newVersion, hN.base x hx, Function.update_self]

theorem newVersion_rows_ne {y : String} (hx : N x) (hy : N y) (h : y ≠ x) (s : RenameState) :
    (newVersion x s).2.versionStacks (foldCase y) = s.versionStacks (foldCase y) := by
  simp only [newVersion, hN.base x hx]
  exact Function.update_of_ne (key_ne hN hx hy h) _ _

theorem newVersion_next (hx : N x) (s : RenameState) :
    (newVersion x s).2.nextVersions (foldCase x) = s.nextVersions (foldCase x) + 1 := by
  simp only [newVersion, hN.base x hx, Function.update_self]

theorem newVersion_next_le (s : RenameState) (key : String) :
    s.nextVersions key ≤ (newVersion x s).2.nextVersions key := by
  simp only [newVersion]
  by_cases h : key = foldCase (stripNumericSuffix x)
  · subst h
    rw [Function.update_self]
    exact Nat.le_succ _
  · rw [Function.update_of_ne h]

variable {s : RenameState} {E : Stacks}

/-- a new version is none of the names issued so far -/
theorem newVersion_fresh {issued : String → Prop}
    (h : Rep N E imp issued s) (hx : N x) :
    ¬ issued (newVersion x s).1 ∧ ∀ y, N y → imp y ≠ some (newVersion x s).1 := by
  rw [newVersion_fst hN hx]
  constructor
  · intro hi
    obtain ⟨y, k, hy, he, hk⟩ := h.issuedOf _ hi
    obtain ⟨rfl, rfl⟩ := versionName_inj (hN.nonempty x hx) (hN.nonempty y hy) he
    exact absurd hk (lt_irrefl _)
  · intro y hy hi
    obtain ⟨k, he, hk⟩ := h.impOf y _ hy hi
    obtain ⟨rfl, rfl⟩ := versionName_inj (hN.nonempty x hx) (hN.nonempty y hy) he
    exact absurd hk (lt_irrefl _)

theorem Rep.define {issued : String → Prop}
    (h : Rep N E imp issued s) (hx : N x) :
    Rep N (E.push x (newVersion x s).1) imp (fun t => issued t ∨ t = (newVersion x s).1)
      (newVersion x s).2 := by
  obtain ⟨hf1, hf2⟩ := newVersion_fresh hN h hx
  refine ⟨fun y hy => ?_, fun y t hy ht => ?_, fun t ht => ?_, fun y t hy ht => ?_,
    fun y t hy ht hi => ?_⟩
  · by_cases hyx : y = x
    · subst hyx
      rw [newVersion_rows hN hx, h.rows y hy]
      simp [Stacks.push]
    · rw [newVersion_rows_ne hN hx hy hyx, h.rows y hy]
      simp [Stacks.push, Function.update_of_ne hyx]
  · by_cases hyx : y = x
    · subst hyx
      simp only [Stacks.push, Function.update_self, List.mem_cons] at ht
      rcases ht with rfl | ht
      · exact ⟨Or.inr rfl, _, newVersion_fst hN hx s⟩
      · exact (h.top y t hy ht).imp Or.inl id
    · rw [Stacks.push, Function.update_of_ne hyx] at ht
      exact (h.top y t hy ht).imp Or.inl id
  · rcases ht with ht | rfl
    · obtain ⟨y, k, hy, he, hk⟩ := h.issuedOf t ht
      exact ⟨y, k, hy, he, hk.trans_le (newVersion_next_le hN s _)⟩
    · refine ⟨x, _, hx, newVersion_fst hN hx s, ?_⟩
      rw [newVersion_next hN hx]
      exact Nat.lt_succ_self _
  · obtain ⟨k, he, hk⟩ := h.impOf y t hy ht
    exact ⟨k, he, hk.trans_le (newVersion_next_le hN s _)⟩
  · rcases hi with hi | rfl
    · exact h.disjoint y t hy ht hi
    · exact hf2 y hy ht

theorem currentVersion_spec {issued : String → Prop}
    (h : Rep N E imp issued s) (hx : N x) :
    ∃ imp', Extended imp imp' ∧ Rep N E imp' issued (currentVersion x s).2 ∧
      NameOf imp' E.top x (currentVersion x s).1 := by
  have hrow := h.rows x hx
  cases hst : s.versionStacks (foldCase x) with
  | cons t rest =>
    rw [hst] at hrow
    refine ⟨imp, Extended.refl imp, by simpa [currentVersion, hst] using h, ?_⟩
    simp only [currentVersion, hst, NameOf, Stacks.top]
    cases hE : E x with
    | nil =>
      rw [hE, List.nil_append] at hrow
      cases hi : imp x with
      | none => rw [hi] at hrow; cases hrow
      | some u =>
        rw [hi, Option.toList_some] at hrow
        cases hrow
        exact Or.inr ⟨rfl, rfl⟩
    | cons u us =>
      rw [hE, List.cons_append] at hrow
      cases hrow
      exact Or.inl rfl
  | nil =>
    rw [hst] at hrow
    obtain ⟨hE, hi⟩ := List.append_eq_nil_iff.mp hrow.symm
    obtain ⟨hf1, hf2⟩ := newVersion_fresh hN h hx
    have hcur : currentVersion x s = newVersion x s := by simp only [currentVersion, hst]
    rw [hcur]
    have hnone : imp x = none := by
      cases hix : imp x with
      | none => rfl
      | some u => rw [hix] at hi; cases hi
    refine ⟨Function.update imp x (some (newVersion x s).1), fun y t ht => ?_,
      ⟨fun y hy => ?_, h.top, fun t ht => ?_, fun y t hy ht => ?_, fun y t hy ht => ?_⟩,
      Or.inr ⟨by simp [Stacks.top, hE], by simp⟩⟩
    · have hyx : y ≠ x := by
        rintro rfl
        rw [hnone] at ht
        cases ht
      rw [Function.update_of_ne hyx]
      exact ht
    · by_cases hyx : y = x
      · subst hyx
        rw [newVersion_rows hN hx, hst, hE, Function.update_self]
        rfl
      · rw [newVersion_rows_ne hN hx hy hyx, h.rows y hy, Function.update_of_ne hyx]
    · obtain ⟨y, k, hy, he, hk⟩ := h.issuedOf t ht
      exact ⟨y, k, hy, he, hk.trans_le (newVersion_next_le hN s _)⟩
    · by_cases hyx : y = x
      · subst hyx
        rw [Function.update_self] at ht
        cases ht
        refine ⟨_, newVersion_fst hN hx s, ?_⟩
        rw [newVersion_next hN hx]
        exact Nat.lt_succ_self _
      · rw [Function.update_of_ne hyx] at ht
        obtain ⟨k, he, hk⟩ := h.impOf y t hy ht
        exact ⟨k, he, hk.trans_le (newVersion_next_le hN s _)⟩
    · by_cases hyx : y = x
      · subst hyx
        rw [Function.update_self] at ht
        cases ht
        exact hf1
      · rw [Function.update_of_ne hyx] at ht
        exact h.disjoint y t hy ht

/-! ## operands -/

/-- a phase of renaming that reads the variables `xs`: the stacks of definitions stay, implicit
parameters may be added, and afterwards every variable of `xs` has its name -/
structure ReadPhase (N : String → Prop) (E : Stacks) (imp : VersionMap) (issued : String → Prop)
    (xs : List String) (imp' : VersionMap) (s' : RenameState) : Prop where
  ext : Extended imp imp'
  rep : Rep N E imp' issued s'
  known : ∀ x ∈ xs, NameOf imp' E.top x (nameIn imp' E.top x)

omit hN in
theorem nameIn_eq (h : NameOf imp ver x t) (he : Extended imp imp') : nameIn imp' ver x = t :=
  (h.mono he).eq.symm

theorem renameRegister_spec {issued : String → Prop}
    (h : Rep N E imp issued s) (hx : N x) :
    ∃ imp', ReadPhase N E imp issued [x] imp' (renameRegister x s).2 ∧
      ∀ imp'', Extended imp' imp'' → (renameRegister x s).1 = nameIn imp'' E.top x := by
  obtain ⟨imp', he, hr, hname⟩ := currentVersion_spec hN h hx
  rw [renameRegister, hN.base x hx]
  refine ⟨imp', ⟨he, hr, fun y hy => ?_⟩, fun imp'' he'' => (nameIn_eq hname he'').symm⟩
  rw [List.mem_singleton.mp hy, nameIn_eq hname (Extended.refl imp')]
  exact hname

theorem renameValue_spec {issued : String → Prop}
    (h : Rep N E imp issued s) {v : IrValue} (hv : ∀ x ∈ v.names, N x) :
    ∃ imp', ReadPhase N E imp issued v.names imp' (renameValue v s).2 ∧
      ∀ imp'', Extended imp' imp'' → (renameValue v s).1 = mapValue (nameIn imp'' E.top) v := by
  cases v with
  | imm c => exact ⟨imp, ⟨Extended.refl imp, h, fun x hx => absurd hx List.not_mem_nil⟩,
      fun _ _ => rfl⟩
  | register x =>
    obtain ⟨imp', hp, he⟩ := renameRegister_spec hN h (hv x List.mem_cons_self)
    exact ⟨imp', hp, fun imp'' h'' => by simp only [renameValue, mapValue, he imp'' h'']⟩

variable {xs : List String} {s' : RenameState}

omit hN in
theorem ReadPhase.trans {imp'' : VersionMap} {issued : String → Prop}
    {ys : List String} {s'' : RenameState} (h₁ : ReadPhase N E imp issued xs imp' s')
    (h₂ : ReadPhase N E imp' issued ys imp'' s'') :
    ReadPhase N E imp issued (xs ++ ys) imp'' s'' := by
  refine ⟨h₁.ext.trans h₂.ext, h₂.rep, fun x hx => ?_⟩
  rcases List.mem_append.mp hx with hx | hx
  · have hk := h₁.known x hx
    rw [nameIn_eq hk h₂.ext]
    exact hk.mono h₂.ext
  · exact h₂.known x hx

theorem renameValues_spec {issued : String → Prop} (vs : List IrValue) :
    ∀ {imp : VersionMap} {s : RenameState}, Rep N E imp issued s →
      (∀ x ∈ vs.flatMap IrValue.names, N x) →
      ∃ imp', ReadPhase N E imp issued (vs.flatMap IrValue.names) imp' (renameValues vs s).2 ∧
        ∀ imp'', Extended imp' imp'' →
          (renameValues vs s).1 = vs.map (mapValue (nameIn imp'' E.top)) := by
  induction vs with
  | nil => exact fun {imp s} h _ => ⟨imp, ⟨Extended.refl imp, h,
      fun x hx => absurd hx List.not_mem_nil⟩, fun _ _ => rfl⟩
  | cons v vs ih =>
    intro imp s h hv
    rw [List.flatMap_cons] at hv ⊢
    obtain ⟨imp₁, hp₁, he₁⟩ := renameValue_spec hN h fun x hx => hv x (List.mem_append_left _ hx)
    obtain ⟨imp₂, hp₂, he₂⟩ := ih hp₁.rep fun x hx => hv x (List.mem_append_right _ hx)
    refine ⟨imp₂, hp₁.trans hp₂, fun imp'' h'' => ?_⟩
    simp only [renameValues, List.map_cons, he₁ imp'' (hp₂.ext.trans h''), he₂ imp'' h'']

/-! ## one instruction -/

/-- `ins'` is `ins` with its reads under their current names and its destination under the
version that `pops` records -/
structure RenamedInstruction (imp ver : VersionMap) (ins ins' : IrInstruction)
    (pops : List (String × String)) : Prop where
  names : ∃ ρ δ, ins' = mapNames ρ δ ins ∧ (∀ x ∈ renamedReads ins, NameOf imp ver x (ρ x)) ∧
    pops = (versioned ins).map fun d => (d, δ d)
  versions : ∀ p ∈ pops, IsVersion p.1 p.2

omit hN in
theorem RenamedInstruction.mono {ins ins' : IrInstruction}
    {pops : List (String × String)} (h : RenamedInstruction imp ver ins ins' pops)
    (he : Extended imp imp') : RenamedInstruction imp' ver ins ins' pops := by
  obtain ⟨⟨ρ, δ, h1, h2, h3⟩, h4⟩ := h
  exact ⟨⟨ρ, δ, h1, fun x hx => (h2 x hx).mono he, h3⟩, h4⟩

/-- the versions of a pop list are issued -/
def issue (issued : String → Prop) (pops : List (String × String)) (t : String) : Prop :=
  issued t ∨ ∃ p ∈ pops, p.2 = t

/-- what a step of renaming does to the state -/
structure DefinePhase (N : String → Prop) (E : Stacks) (imp : VersionMap)
    (issued : String → Prop) (pops : List (String × String)) (imp' : VersionMap)
    (s' : RenameState) : Prop where
  ext : Extended imp imp'
  rep : Rep N (E.pushAll pops) imp' (issue issued pops) s'
  names : ∀ p ∈ pops, N p.1 ∧ IsVersion p.1 p.2

omit hN in
theorem Rep.congr_issued {issued issued' : String → Prop}
    (h : Rep N E imp issued s) (he : ∀ t, issued t ↔ issued' t) :
    Rep N E imp issued' s := by
  have : issued = issued' := funext fun t => propext (he t)
  exact this ▸ h

theorem ReadPhase.noDefine {issued : String → Prop}
    (h : ReadPhase N E imp issued xs imp' s') :
    DefinePhase N E imp issued [] imp' s' :=
  ⟨h.ext, h.rep.congr_issued fun t => by simp [issue], fun p hp => absurd hp List.not_mem_nil⟩

theorem defineVersion_spec {issued : String → Prop}
    (h : ReadPhase N E imp issued xs imp' s') {d : String}
    (hd : N d) : ∃ t, (defineVersion d s').1 = t ∧ (defineVersion d s').2.1 = [(d, t)] ∧
      IsVersion d t ∧ DefinePhase N E imp issued [(d, t)] imp' (defineVersion d s').2.2 := by
  have hv : IsVersion d (newVersion d s').1 := ⟨_, newVersion_fst hN hd s'⟩
  refine ⟨(newVersion d s').1, rfl, ?_, hv, h.ext, ?_, fun p hp => ?_⟩
  · simp only [defineVersion, hv.strip hN hd]
  · exact (h.rep.define hN hd).congr_issued fun t => by simp [issue, eq_comm]
  · rw [List.mem_singleton.mp hp]
    exact ⟨hd, hv⟩

theorem defineOptional_spec {issued : String → Prop}
    (h : ReadPhase N E imp issued xs imp' s') {d : String}
    (hd : isNullOrWhiteSpace d = false → N d) :
    ∃ δ : String → String,
      (defineOptional d s').1 = (if isNullOrWhiteSpace d then "" else δ d) ∧
      (defineOptional d s').2.1 =
        (if isNullOrWhiteSpace d then [] else [d]).map (fun d => (d, δ d)) ∧
      DefinePhase N E imp issued (defineOptional d s').2.1 imp' (defineOptional d s').2.2 := by
  by_cases hb : isNullOrWhiteSpace d = true
  · refine ⟨id, ?_, ?_, ?_⟩
    · simp only [defineOptional, hb, if_true]
    · simp only [defineOptional, hb, if_true, List.map_nil]
    · simp only [defineOptional, hb, if_true]
      exact h.noDefine hN
  · obtain ⟨t, h1, h2, h3, h4⟩ := defineVersion_spec hN h (hd (by simpa using hb))
    refine ⟨fun _ => t, ?_, ?_, ?_⟩
    · simp only [defineOptional, hb, Bool.false_eq_true, if_false, h1]
    · simp only [defineOptional, hb, Bool.false_eq_true, if_false, h2, List.map_cons,
        List.map_nil]
    · simp only [defineOptional, hb, Bool.false_eq_true, if_false, h2]
      exact h4

def renamedNames (ins : IrInstruction) : List String := renamedReads ins ++ versioned ins

omit hN in
theorem RenamedInstruction.intro {issued : String → Prop}
    {s'' : RenameState} {ins ins' : IrInstruction} {pops : List (String × String)}
    (hr : ReadPhase N E imp issued (renamedReads ins) imp' s')
    (hd : DefinePhase N E imp issued pops imp' s'') (δ : String → String)
    (he : ins' = mapNames (nameIn imp' E.top) δ ins)
    (hp : pops = (versioned ins).map fun d => (d, δ d)) :
    RenamedInstruction imp' E.top ins ins' pops :=
  ⟨⟨_, δ, he, hr.known, hp⟩, fun p hp => (hd.names p hp).2⟩

theorem renameInstruction_spec {issued : String → Prop}
    (h : Rep N E imp issued s) {ins : IrInstruction}
    (hl : isLifted ins = true) (hn : ∀ x ∈ renamedNames ins, N x) :
    ∃ imp', DefinePhase N E imp issued (renameInstruction ins s).2.1 imp'
        (renameInstruction ins s).2.2 ∧
      RenamedInstruction imp' E.top ins (renameInstruction ins s).1
        (renameInstruction ins s).2.1 := by
  have hread : ∀ x ∈ renamedReads ins, N x := fun x hx => hn x (List.mem_append_left _ hx)
  have hdef : ∀ x ∈ versioned ins, N x := fun x hx => hn x (List.mem_append_right _ hx)
  have hself := Extended.refl
  -- instructions that read nothing under a version and define nothing
  have quiet : ∀ ins : IrInstruction, renamedReads ins = [] → versioned ins = [] →
      mapNames (nameIn imp E.top) id ins = ins → renameInstruction ins s = (ins, [], s) →
      ∃ imp', DefinePhase N E imp issued (renameInstruction ins s).2.1 imp'
        (renameInstruction ins s).2.2 ∧
      RenamedInstruction imp' E.top ins (renameInstruction ins s).1
        (renameInstruction ins s).2.1 := by
    intro ins hr hv hm he
    have hp : ReadPhase N E imp issued (renamedReads ins) imp s :=
      ⟨hself imp, h, fun x hx => by rw [hr] at hx; cases hx⟩
    rw [he]
    exact ⟨imp, hp.noDefine hN, .intro hp (hp.noDefine hN) id hm.symm (by rw [hv]; rfl)⟩
  cases ins with
  | assign d v =>
    simp only [renamedReads, IrInstruction.operands, conditionReads, List.append_nil] at hread
    obtain ⟨imp', hr, he⟩ := renameValue_spec hN h hread
    obtain ⟨t, h1, h2, -, h4⟩ := defineVersion_spec hN hr (hdef d List.mem_cons_self)
    simp only [renameInstruction, h1, h2]
    refine ⟨imp', h4, .intro (by simpa [renamedReads, IrInstruction.operands, conditionReads] using hr)
      h4 (fun _ => t) ?_ rfl⟩
    rw [mapNames, he imp' (hself imp')]
  | binary d l r op =>
    simp only [renamedReads, IrInstruction.operands, conditionReads, List.append_nil] at hread
    obtain ⟨imp₁, hr₁, he₁⟩ := renameValue_spec hN h fun x hx => hread x (List.mem_append_left _ hx)
    obtain ⟨imp₂, hr₂, he₂⟩ := renameValue_spec hN hr₁.rep fun x hx =>
      hread x (List.mem_append_right _ hx)
    have hr := hr₁.trans hr₂
    obtain ⟨t, h1, h2, -, h4⟩ := defineVersion_spec hN hr (hdef d List.mem_cons_self)
    simp only [renameInstruction, h1, h2]
    refine ⟨imp₂, h4, .intro (by simpa [renamedReads, IrInstruction.operands, conditionReads] using hr)
      h4 (fun _ => t) ?_ rfl⟩
    rw [mapNames, he₁ imp₂ hr₂.ext, he₂ imp₂ (hself imp₂)]
  | load d a n =>
    obtain ⟨imp', hr, he⟩ := renameRegister_spec hN h (hread a.base List.mem_cons_self)
    obtain ⟨t, h1, h2, -, h4⟩ := defineVersion_spec hN hr (hdef d List.mem_cons_self)
    simp only [renameInstruction, renameAddress, h1, h2]
    refine ⟨imp', h4, .intro (by simpa [renamedReads, IrInstruction.operands, conditionReads] using hr)
      h4 (fun _ => t) ?_ rfl⟩
    rw [mapNames, he imp' (hself imp')]
  | store a v n =>
    simp only [renamedReads, IrInstruction.operands, conditionReads, List.append_nil] at hread
    obtain ⟨imp₁, hr₁, he₁⟩ := renameRegister_spec hN h (hread a.base List.mem_cons_self)
    obtain ⟨imp₂, hr₂, he₂⟩ := renameValue_spec hN hr₁.rep fun x hx =>
      hread x (List.mem_cons_of_mem _ hx)
    have hr := hr₁.trans hr₂
    have hd := hr.noDefine hN
    simp only [renameInstruction, renameAddress]
    refine ⟨imp₂, hd, .intro (by simpa [renamedReads, IrInstruction.operands, conditionReads] using hr)
      hd id ?_ rfl⟩
    rw [mapNames, he₁ imp₂ hr₂.ext, he₂ imp₂ (hself imp₂)]
  | call d target args tail =>
    simp only [renamedReads, IrInstruction.operands, conditionReads, List.append_nil] at hread
    obtain ⟨imp', hr, he⟩ := renameValues_spec hN args h hread
    have hb : isNullOrWhiteSpace d = false → N d := fun hb => hdef d (by simp [versioned, hb])
    obtain ⟨δ, h1, h2, h4⟩ := defineOptional_spec hN hr hb
    simp only [renameInstruction, h1]
    refine ⟨imp', h4, .intro (by simpa [renamedReads, IrInstruction.operands, conditionReads] using hr)
      h4 δ ?_ ?_⟩
    · rw [mapNames, he imp' (hself imp')]
    · simp only [versioned]
      exact h2
  | indirectCall d target args =>
    simp only [renamedReads, IrInstruction.operands, conditionReads, List.append_nil] at hread
    obtain ⟨imp₁, hr₁, he₁⟩ := renameValue_spec hN h fun x hx => hread x (List.mem_append_left _ hx)
    obtain ⟨imp₂, hr₂, he₂⟩ := renameValues_spec hN args hr₁.rep fun x hx =>
      hread x (List.mem_append_right _ hx)
    have hr := hr₁.trans hr₂
    have hb : isNullOrWhiteSpace d = false → N d := fun hb => hdef d (by simp [versioned, hb])
    obtain ⟨δ, h1, h2, h4⟩ := defineOptional_spec hN hr hb
    simp only [renameInstruction, h1]
    refine ⟨imp₂, h4, .intro (by simpa [renamedReads, IrInstruction.operands, conditionReads] using hr)
      h4 δ ?_ ?_⟩
    · rw [mapNames, he₁ imp₂ hr₂.ext, he₂ imp₂ (hself imp₂)]
    · simp only [versioned]
      exact h2
  | setCrField i l r u =>
    simp only [renamedReads, IrInstruction.operands, conditionReads, List.append_nil] at hread
    obtain ⟨imp₁, hr₁, he₁⟩ := renameValue_spec hN h fun x hx => hread x (List.mem_append_left _ hx)
    obtain ⟨imp₂, hr₂, he₂⟩ := renameValue_spec hN hr₁.rep fun x hx =>
      hread x (List.mem_append_right _ hx)
    have hr := hr₁.trans hr₂
    have hd := hr.noDefine hN
    simp only [renameInstruction]
    refine ⟨imp₂, hd, .intro (by simpa [renamedReads, IrInstruction.operands, conditionReads] using hr)
      hd id ?_ rfl⟩
    rw [mapNames, he₁ imp₂ hr₂.ext, he₂ imp₂ (hself imp₂)]
  | branch c t e r =>
    by_cases hb : isRegisterName r = true
    · simp only [renamedReads, IrInstruction.operands, conditionReads, hb, if_true,
        List.nil_append] at hread
      obtain ⟨imp', hr, he⟩ := renameRegister_spec hN h (hread r List.mem_cons_self)
      have hd := hr.noDefine hN
      simp only [renameInstruction, hb, if_true]
      refine ⟨imp', hd, .intro
        (by simpa [renamedReads, IrInstruction.operands, conditionReads, hb] using hr) hd id ?_ rfl⟩
      simp only [mapNames, hb, if_true, he imp' (hself imp')]
    · exact quiet _ (by simp [renamedReads, IrInstruction.operands, conditionReads, hb]) rfl
        (by simp [mapNames, hb]) (by simp [renameInstruction, hb])
  | indirectJump t =>
    simp only [renamedReads, IrInstruction.operands, conditionReads, List.append_nil] at hread
    obtain ⟨imp', hr, he⟩ := renameValue_spec hN h hread
    have hd := hr.noDefine hN
    simp only [renameInstruction]
    refine ⟨imp', hd, .intro (by simpa [renamedReads, IrInstruction.operands, conditionReads] using hr)
      hd id ?_ rfl⟩
    rw [mapNames, he imp' (hself imp')]
  | jumpTable sel cases =>
    obtain ⟨imp', hr, he⟩ := renameRegister_spec hN h (hread sel List.mem_cons_self)
    have hd := hr.noDefine hN
    simp only [renameInstruction]
    refine ⟨imp', hd, .intro (by simpa [renamedReads, IrInstruction.operands, conditionReads] using hr)
      hd id ?_ rfl⟩
    rw [mapNames, he imp' (hself imp')]
  | ret v =>
    cases v with
    | none => exact quiet _ rfl rfl rfl rfl
    | some v =>
      simp only [renamedReads, IrInstruction.operands, conditionReads, List.append_nil] at hread
      obtain ⟨imp', hr, he⟩ := renameValue_spec hN h hread
      have hd := hr.noDefine hN
      simp only [renameInstruction]
      refine ⟨imp', hd, .intro (by simpa [renamedReads, IrInstruction.operands, conditionReads] using hr)
        hd id ?_ rfl⟩
      rw [mapNames, he imp' (hself imp')]
  | jump l => exact quiet _ rfl rfl rfl rfl
  | comment t => exact quiet _ rfl rfl rfl rfl
  | tracePpc a d r => exact quiet _ rfl rfl rfl rfl
  | undefined a r d m => exact quiet _ rfl rfl rfl rfl
  | phi d src => cases hl
  | resolveGuestMemoryRange => cases hl
  | resolvedLoad => cases hl
  | resolvedStore => cases hl
  | resolvedPsqLoad => cases hl
  | resolvedPsqStore => cases hl
  | resolvedLoadPair => cases hl
  | resolvedStorePair => cases hl

end

end DolTranslator.Ssa
