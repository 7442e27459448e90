import DolTranslator.Ssa.Versions

/-!
# What renaming does to the whole function

A block of the function with phis is a list of `PhiRow`s and a body.  `RenameInv` says what holds
of the blocks, of the stacks and of the work stack between two pops: a visited block is renamed
from the versions that reach it (`BlockDone`), and its successors have their phi sources.
`renameLoop_spec` runs the loop to its end.
-/

set_option linter.unusedSectionVars false

namespace DolTranslator.Ssa

/-! ## instruction lists -/

def pushVersions (ver : VersionMap) (pops : List (String × String)) : VersionMap :=
  pops.foldl (fun ver p => Function.update ver p.1 (some p.2)) ver

theorem pushVersions_append (ver : VersionMap) (p q : List (String × String)) :
    pushVersions ver (p ++ q) = pushVersions (pushVersions ver p) q := List.foldl_append

theorem Stacks.top_pushAll (E : Stacks) (pops : List (String × String)) :
    (E.pushAll pops).top = pushVersions E.top pops := by
  induction pops generalizing E with
  | nil => rfl
  | cons p pops ih =>
    show ((E.push p.1 p.2).pushAll pops).top = pushVersions (Function.update E.top p.1 (some p.2)) pops
    rw [ih, Stacks.top_push]

theorem pushVersions_of_notMem (ver : VersionMap) (pops : List (String × String)) (x : String)
    (h : ∀ p ∈ pops, p.1 ≠ x) : pushVersions ver pops x = ver x := by
  induction pops generalizing ver with
  | nil => rfl
  | cons p pops ih =>
    show pushVersions (Function.update ver p.1 (some p.2)) pops x = ver x
    rw [ih _ fun q hq => h q (List.mem_cons_of_mem _ hq),
      Function.update_of_ne (h p List.mem_cons_self).symm]

/-- a renamed instruction list; the last argument records the definitions -/
inductive RenamedBody (imp : VersionMap) :
    VersionMap → List IrInstruction → List IrInstruction → List (String × String) → Prop where
  | nil (ver : VersionMap) : RenamedBody imp ver [] [] []
  | cons {ver : VersionMap} {ins ins' : IrInstruction} {rest rest' : List IrInstruction}
      {p q : List (String × String)} : RenamedInstruction imp ver ins ins' p →
      RenamedBody imp (pushVersions ver p) rest rest' q →
      RenamedBody imp ver (ins :: rest) (ins' :: rest') (p ++ q)

variable {body : List IrInstruction} {imp : VersionMap}

theorem RenamedBody.mono {imp' : VersionMap} (he : Extended imp imp') {ver : VersionMap}
    {body' : List IrInstruction} {pops : List (String × String)}
    (h : RenamedBody imp ver body body' pops) : RenamedBody imp' ver body body' pops := by
  induction h with
  | nil ver => exact .nil ver
  | cons hi _ ih => exact .cons (hi.mono he) ih

theorem RenamedBody.pops_fst {ver : VersionMap} {body' : List IrInstruction}
    {pops : List (String × String)} (h : RenamedBody imp ver body body' pops) :
    pops.map Prod.fst = body.flatMap versioned := by
  induction h with
  | nil ver => rfl
  | @cons ver ins ins' rest rest' p q hi _ ih =>
    obtain ⟨ρ, δ, -, -, rfl⟩ := hi.names
    rw [List.map_append, ih, List.flatMap_cons, List.map_map]
    congr 1
    exact List.map_id _

section
variable {N : String → Prop} (hN : Vocabulary N)
include hN

theorem DefinePhase.nil {E : Stacks} {issued : String → Prop}
    {s : RenameState} (h : Rep N E imp issued s) : DefinePhase N E imp issued [] imp s :=
  ⟨Extended.refl imp, h.congr_issued fun t => by simp [issue],
    fun p hp => absurd hp List.not_mem_nil⟩

theorem DefinePhase.trans {E : Stacks} {imp' imp'' : VersionMap} {issued : String → Prop}
    {p q : List (String × String)} {s' s'' : RenameState}
    (h₁ : DefinePhase N E imp issued p imp' s')
    (h₂ : DefinePhase N (E.pushAll p) imp' (issue issued p) q imp'' s'') :
    DefinePhase N E imp issued (p ++ q) imp'' s'' := by
  refine ⟨h₁.ext.trans h₂.ext, ?_, fun r hr => ?_⟩
  · rw [Stacks.pushAll_append]
    refine h₂.rep.congr_issued fun t => ?_
    simp only [issue, List.mem_append, or_assoc, or_and_right, exists_or]
  · rcases List.mem_append.mp hr with hr | hr
    · exact h₁.names r hr
    · exact h₂.names r hr

theorem renameInstructions_spec (body : List IrInstruction) :
    ∀ {E : Stacks} {imp : VersionMap} {issued : String → Prop} {s : RenameState},
      Rep N E imp issued s → (∀ ins ∈ body, isLifted ins = true) →
      (∀ ins ∈ body, ∀ x ∈ renamedNames ins, N x) →
      ∃ imp', DefinePhase N E imp issued (renameInstructions body s).2.1 imp'
          (renameInstructions body s).2.2 ∧
        RenamedBody imp' E.top body (renameInstructions body s).1
          (renameInstructions body s).2.1 := by
  induction body with
  | nil => exact fun {E imp issued s} h _ _ => ⟨imp, DefinePhase.nil hN h, .nil _⟩
  | cons ins body ih =>
    intro E imp issued s h hl hn
    obtain ⟨imp₁, hd₁, hr₁⟩ := renameInstruction_spec hN h (hl ins List.mem_cons_self)
      (hn ins List.mem_cons_self)
    obtain ⟨imp₂, hd₂, hr₂⟩ := ih hd₁.rep (fun i hi => hl i (List.mem_cons_of_mem _ hi))
      fun i hi => hn i (List.mem_cons_of_mem _ hi)
    refine ⟨imp₂, hd₁.trans hN hd₂, .cons (hr₁.mono hd₂.ext) ?_⟩
    rw [← Stacks.top_pushAll]
    exact hr₂

end

/-! ## phi rows -/

/-- a phi with the variable it stands for -/
structure PhiRow where
  var : String
  dest : String
  sources : List (String × String)

def PhiRow.phi (r : PhiRow) : IrInstruction := .phi r.dest r.sources

def sourceFor (sources : List (String × String)) (label : String) : Option String :=
  (sources.find? fun s => sameLabel s.1 label).map Prod.snd

theorem sameLabel_iff (a b : String) : sameLabel a b = true ↔ foldCase a = foldCase b :=
  beq_iff_eq

theorem sourceFor_cons (s : String × String) (sources : List (String × String)) (l : String) :
    sourceFor (s :: sources) l = if foldCase s.1 = foldCase l then some s.2
      else sourceFor sources l := by
  by_cases h : foldCase s.1 = foldCase l
  · simp [sourceFor, (sameLabel_iff s.1 l).mpr h, h]
  · have : sameLabel s.1 l = false := by
      rw [← Bool.not_eq_true, sameLabel_iff]
      exact h
    simp [sourceFor, this, h]

variable {sources : List (String × String)} {l : String}

theorem sourceFor_replace (t : String)
    (hk : ∀ s ∈ sources, foldCase s.1 = foldCase l → s.1 = l) (l' : String) :
    sourceFor (sources.map fun s => if s.1 = l then (l, t) else s) l' =
      if foldCase l = foldCase l' ∧ ∃ s ∈ sources, s.1 = l then some t
      else sourceFor sources l' := by
  induction sources with
  | nil => simp [sourceFor]
  | cons s sources ih =>
    have ih' := ih fun q hq => hk q (List.mem_cons_of_mem _ hq)
    rw [List.map_cons]
    by_cases hs : s.1 = l
    · rw [if_pos hs, sourceFor_cons, ih', sourceFor_cons, hs]
      by_cases hl : foldCase l = foldCase l'
      · simp [hl, hs]
      · simp [hl]
    · rw [if_neg hs, sourceFor_cons, ih', sourceFor_cons]
      by_cases hsl : foldCase s.1 = foldCase l'
      · have hne : foldCase l ≠ foldCase l' := fun e =>
          hs (hk s List.mem_cons_self (hsl.trans e.symm))
        simp [hsl, hne]
      · simp only [if_neg hsl, List.mem_cons, exists_eq_or_imp, hs, false_or]

theorem sourceFor_append (a b : List (String × String)) (l : String) :
    sourceFor (a ++ b) l = (sourceFor a l).or (sourceFor b l) := by
  induction a with
  | nil => simp [sourceFor]
  | cons s a ih =>
    rw [List.cons_append, sourceFor_cons, sourceFor_cons, ih]
    by_cases h : foldCase s.1 = foldCase l <;> simp [h]

theorem sourceFor_eq_none
    (h : ∀ s ∈ sources, foldCase s.1 ≠ foldCase l) : sourceFor sources l = none := by
  induction sources with
  | nil => rfl
  | cons s sources ih =>
    rw [sourceFor_cons, if_neg (h s List.mem_cons_self),
      ih fun q hq => h q (List.mem_cons_of_mem _ hq)]

theorem sourceFor_setSource (t : String)
    (hk : ∀ s ∈ sources, foldCase s.1 = foldCase l → s.1 = l) (l' : String) :
    sourceFor (setSource sources l t) l' =
      if foldCase l = foldCase l' then some t else sourceFor sources l' := by
  unfold setSource
  by_cases hex : ∃ s ∈ sources, s.1 = l
  · have hany : (sources.any fun s => s.1 == l) = true := by
      rw [List.any_eq_true]
      obtain ⟨s, hs, e⟩ := hex
      exact ⟨s, hs, by simp [e]⟩
    rw [if_pos hany, sourceFor_replace t hk]
    simp only [hex, and_true]
  · have hany : ¬ (sources.any fun s => s.1 == l) = true := by
      rw [List.any_eq_true]
      rintro ⟨s, hs, e⟩
      exact hex ⟨s, hs, by simpa using e⟩
    rw [if_neg hany, sourceFor_append, sourceFor_cons]
    by_cases hl : foldCase l = foldCase l'
    · have hnone : sourceFor sources l' = none :=
        sourceFor_eq_none fun s hs e => hex ⟨s, hs, hk s hs (e.trans hl.symm)⟩
      rw [hnone]
      simp [hl]
    · simp [hl, sourceFor]

theorem mem_setSource {t : String} {s : String × String}
    (h : s ∈ setSource sources l t) : s.1 = l ∨ s ∈ sources := by
  unfold setSource at h
  split at h
  · obtain ⟨q, hq, e⟩ := List.mem_map.mp h
    split at e
    · exact Or.inl (e ▸ rfl)
    · exact Or.inr (e ▸ hq)
  · rcases List.mem_append.mp h with h | h
    · exact Or.inr h
    · rw [List.mem_singleton.mp h]
      exact Or.inl rfl

/-! ## phis of one block -/

section
variable {N : String → Prop} (hN : Vocabulary N)
include hN

omit hN in
theorem renamePhis_body (body : List IrInstruction) (hb : ∀ ins ∈ body, isLifted ins = true)
    (s : RenameState) : renamePhis body s = (body, [], s) := by
  induction body with
  | nil => rfl
  | cons ins body ih =>
    have ih' := ih fun i hi => hb i (List.mem_cons_of_mem _ hi)
    have hl := hb ins List.mem_cons_self
    cases ins with
    | phi d src => cases hl
    | _ => simp only [renamePhis, ih']

theorem renamePhis_spec (hb : ∀ ins ∈ body, isLifted ins = true)
    (rows : List PhiRow) :
    ∀ {E : Stacks} {imp : VersionMap} {issued : String → Prop} {s : RenameState},
      Rep N E imp issued s → (∀ r ∈ rows, r.dest = r.var ∧ N r.var) →
      ∃ rows' : List PhiRow, (renamePhis (rows.map PhiRow.phi ++ body) s).1 =
          rows'.map PhiRow.phi ++ body ∧
        (renamePhis (rows.map PhiRow.phi ++ body) s).2.1 = rows'.map (fun r => (r.var, r.dest)) ∧
        rows'.map (fun r => (r.var, r.sources)) = rows.map (fun r => (r.var, r.sources)) ∧
        DefinePhase N E imp issued (rows'.map fun r => (r.var, r.dest)) imp
          (renamePhis (rows.map PhiRow.phi ++ body) s).2.2 := by
  induction rows with
  | nil =>
    intro E imp issued s h _
    refine ⟨[], ?_, ?_, rfl, ?_⟩
    · simp only [List.map_nil, List.nil_append, renamePhis_body body hb]
    · simp only [List.map_nil, List.nil_append, renamePhis_body body hb]
    · simp only [List.map_nil, List.nil_append, renamePhis_body body hb]
      exact DefinePhase.nil hN h
  | cons r rows ih =>
    intro E imp issued s h hr
    obtain ⟨hdest, hvar⟩ := hr r List.mem_cons_self
    have hphase : DefinePhase N E imp issued [(r.var, (newVersion r.var s).1)] imp
        (newVersion r.var s).2 := by
      refine ⟨Extended.refl imp, ?_, fun p hp => ?_⟩
      · exact (h.define hN hvar).congr_issued fun t => by simp [issue, eq_comm]
      · rw [List.mem_singleton.mp hp]
        exact ⟨hvar, _, newVersion_fst hN hvar s⟩
    obtain ⟨rows', h1, h2, h3, h4⟩ := ih hphase.rep fun q hq => hr q (List.mem_cons_of_mem _ hq)
    refine ⟨⟨r.var, (newVersion r.var s).1, r.sources⟩ :: rows', ?_, ?_, ?_, ?_⟩
    · simp only [List.map_cons, List.cons_append, PhiRow.phi, hdest, renamePhis]
      exact congrArg _ h1
    · simp only [List.map_cons, List.cons_append, PhiRow.phi, hdest, renamePhis,
        hN.base r.var hvar]
      exact congrArg _ h2
    · simp only [List.map_cons, h3]
    · simp only [List.map_cons, List.cons_append, PhiRow.phi, hdest, renamePhis]
      exact hphase.trans hN h4

theorem renameInstructions_phis (rows : List PhiRow) (body : List IrInstruction)
    (s : RenameState) : renameInstructions (rows.map PhiRow.phi ++ body) s =
      (rows.map PhiRow.phi ++ (renameInstructions body s).1,
        (renameInstructions body s).2.1, (renameInstructions body s).2.2) := by
  induction rows with
  | nil => rfl
  | cons r rows ih =>
    simp only [List.map_cons, List.cons_append, renameInstructions, PhiRow.phi,
      renameInstruction] at ih ⊢
    rw [ih]
    rfl

omit hN in
theorem updatePhiSources_body (label : String) (body : List IrInstruction)
    (hb : ∀ ins ∈ body, ins.isPhi = false) (s : RenameState) :
    updatePhiSources label body s = (body, s) := by
  induction body with
  | nil => rfl
  | cons ins body ih =>
    have ih' := ih fun i hi => hb i (List.mem_cons_of_mem _ hi)
    have hl := hb ins List.mem_cons_self
    cases ins with
    | phi d src => cases hl
    | _ => simp only [updatePhiSources, ih']

theorem updatePhiSources_spec (label : String)
    (hb : ∀ ins ∈ body, ins.isPhi = false) (rows : List PhiRow) :
    ∀ {E : Stacks} {imp : VersionMap} {issued : String → Prop} {s : RenameState},
      Rep N E imp issued s → (∀ r ∈ rows, N r.var ∧ stripNumericSuffix r.dest = r.var) →
      ∃ imp', ReadPhase N E imp issued (rows.map PhiRow.var) imp'
          (updatePhiSources label (rows.map PhiRow.phi ++ body) s).2 ∧
        ∀ imp'', Extended imp' imp'' →
          (updatePhiSources label (rows.map PhiRow.phi ++ body) s).1 =
            (rows.map fun r => PhiRow.phi
              ⟨r.var, r.dest, setSource r.sources label (nameIn imp'' E.top r.var)⟩) ++ body := by
  induction rows with
  | nil =>
    intro E imp issued s h _
    refine ⟨imp, ⟨Extended.refl imp, ?_, fun x hx => absurd hx List.not_mem_nil⟩, fun _ _ => ?_⟩
    · simpa only [List.map_nil, List.nil_append, updatePhiSources_body label body hb] using h
    · simp only [List.map_nil, List.nil_append, updatePhiSources_body label body hb]
  | cons r rows ih =>
    intro E imp issued s h hr
    obtain ⟨hvar, hstrip⟩ := hr r List.mem_cons_self
    obtain ⟨imp₁, he, hrep, hname⟩ := currentVersion_spec hN h hvar
    have hp : ReadPhase N E imp issued [r.var] imp₁ (currentVersion r.var s).2 := by
      refine ⟨he, hrep, fun x hx => ?_⟩
      rw [List.mem_singleton.mp hx, nameIn_eq hname (Extended.refl imp₁)]
      exact hname
    obtain ⟨imp₂, hp₂, he₂⟩ := ih hrep fun q hq => hr q (List.mem_cons_of_mem _ hq)
    refine ⟨imp₂, ?_, fun imp'' h'' => ?_⟩
    · simp only [List.map_cons, List.cons_append, PhiRow.phi, updatePhiSources, hstrip]
      exact hp.trans hp₂
    · simp only [List.map_cons, List.cons_append, PhiRow.phi, updatePhiSources, hstrip]
      rw [nameIn_eq hname (hp₂.ext.trans h'')]
      exact congrArg _ (he₂ imp'' h'')

end

end DolTranslator.Ssa
