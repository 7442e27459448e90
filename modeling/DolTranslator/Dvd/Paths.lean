import Mathlib.Data.List.Basic

/-!
# Paths on a disc

* `CanonicalizePath`, `NormalizeLookupPath`   a path with its components resolved, and in lower case;
* `Components`   the components of a canonical path;
* `joinPath`   components as a path, which is canonical when they are plain.
-/

namespace DolTranslator.Dvd

abbrev Bytes := List UInt8

def kSlash : UInt8 := 0x2F

def kBackslash : UInt8 := 0x5C

/-! ## the paths of the source -/

def pushComponent (components : List Bytes) (component : Bytes) : List Bytes :=
  if component = [0x2E] then components
  else if component = [0x2E, 0x2E] then components.dropLast
  else components ++ [component]

def pathComponents (input : Bytes) : List Bytes :=
  let path := input.map fun c => if c = kBackslash then kSlash else c
  ((path.splitOn kSlash).filter (· ≠ [])).foldl pushComponent []

/-- components with a slash before each; no component is the root -/
def joinPath (components : List Bytes) : Bytes := kSlash :: [kSlash].intercalate components

def CanonicalizePath (input : Bytes) : Bytes := joinPath (pathComponents input)

/-- `tolower` of a byte -/
def toLower (c : UInt8) : UInt8 := if 0x41 ≤ c ∧ c ≤ 0x5A then c + 0x20 else c

def Lowercase (value : Bytes) : Bytes := value.map toLower

def NormalizeLookupPath (input : Bytes) : Bytes := Lowercase (CanonicalizePath input)

def Components (canonicalPath : Bytes) : List Bytes :=
  if canonicalPath = [kSlash] then []
  else
    let parts := (canonicalPath.drop 1).splitOn kSlash
    if parts.getLast? = some [] then parts.dropLast else parts

def childPath (directoryPath name : Bytes) : Bytes :=
  if directoryPath = [kSlash] then kSlash :: name else directoryPath ++ kSlash :: name

/-! ## plain components -/

/-- a component that a path is not changed by resolving -/
structure Plain (component : Bytes) : Prop where
  ne_nil : component ≠ []
  slash : kSlash ∉ component
  backslash : kBackslash ∉ component
  ne_dot : component ≠ [0x2E]
  ne_dots : component ≠ [0x2E, 0x2E]

section

variable {components : List Bytes} {component : Bytes}

theorem mem_of_mem_pushComponent {c : Bytes} (h : c ∈ pushComponent components component) :
    c ∈ components ∨ c = component ∧ component ≠ [0x2E] ∧ component ≠ [0x2E, 0x2E] := by
  unfold pushComponent at h
  split at h
  · exact .inl h
  · split at h
    · exact .inl (List.dropLast_subset _ h)
    · next hdot hdots =>
      obtain h | h := List.mem_append.mp h
      · exact .inl h
      · exact .inr ⟨List.mem_singleton.mp h, hdot, hdots⟩

theorem mem_of_mem_foldl {parts : List Bytes} {c : Bytes}
    (h : c ∈ parts.foldl pushComponent components) :
    c ∈ components ∨ c ∈ parts ∧ c ≠ [0x2E] ∧ c ≠ [0x2E, 0x2E] := by
  induction parts generalizing components with
  | nil => exact .inl h
  | cons part parts ih =>
    obtain h | ⟨hmem, hne⟩ := ih h
    · obtain h | ⟨rfl, hne⟩ := mem_of_mem_pushComponent h
      · exact .inl h
      · exact .inr ⟨List.mem_cons_self, hne⟩
    · exact .inr ⟨List.mem_cons_of_mem _ hmem, hne⟩

theorem foldl_pushComponent {parts : List Bytes} (h : ∀ c ∈ parts, Plain c) :
    parts.foldl pushComponent components = components ++ parts := by
  induction parts generalizing components with
  | nil => exact (List.append_nil _).symm
  | cons part parts ih =>
    have hpart := h part List.mem_cons_self
    have hpush : pushComponent components part = components ++ [part] := by
      unfold pushComponent
      rw [if_neg hpart.ne_dot, if_neg hpart.ne_dots]
    rw [List.foldl_cons, hpush, ih fun c hc => h c (List.mem_cons_of_mem _ hc), List.append_assoc]
    rfl

theorem mem_splitOn {sep : UInt8} {xs part : Bytes} (h : part ∈ xs.splitOn sep) :
    sep ∉ part ∧ ∀ b ∈ part, b ∈ xs := by
  induction xs generalizing part with
  | nil =>
    rw [List.splitOn_nil, List.mem_singleton] at h
    rw [h]
    exact ⟨List.not_mem_nil, fun b hb => hb⟩
  | cons x xs ih =>
    rw [List.splitOn_cons_eq_if_modifyHead] at h
    split at h
    · obtain rfl | h := List.mem_cons.mp h
      · exact ⟨List.not_mem_nil, fun b hb => by cases hb⟩
      · exact ⟨(ih h).1, fun b hb => List.mem_cons_of_mem _ ((ih h).2 b hb)⟩
    · next hx =>
      obtain ⟨first, parts, hparts⟩ := List.exists_cons_of_ne_nil (List.splitOn_ne_nil sep xs)
      rw [hparts] at h ih
      obtain rfl | h := List.mem_cons.mp h
      · obtain ⟨hsep, hfrom⟩ := ih List.mem_cons_self
        refine ⟨fun hmem => ?_, fun b hb => ?_⟩
        · obtain rfl | hmem := List.mem_cons.mp hmem
          · exact hx (beq_self_eq_true _)
          · exact hsep hmem
        · obtain rfl | hb := List.mem_cons.mp hb
          · exact List.mem_cons_self
          · exact List.mem_cons_of_mem _ (hfrom b hb)
      · have hrest := ih (List.mem_cons_of_mem _ h)
        exact ⟨hrest.1, fun b hb => List.mem_cons_of_mem _ (hrest.2 b hb)⟩

/-- **The components of a path are plain**, and have no bytes that it had not. -/
theorem plain_of_mem_pathComponents {input : Bytes} (h : component ∈ pathComponents input) :
    Plain component ∧ ∀ b ∈ component, b ∈ input := by
  obtain h | ⟨hmem, hdot, hdots⟩ := mem_of_mem_foldl h
  · cases h
  · obtain ⟨hsplit, hne⟩ := List.mem_filter.mp hmem
    obtain ⟨hslash, hfrom⟩ := mem_splitOn hsplit
    have hboth : ∀ b ∈ component, b ≠ kBackslash ∧ b ∈ input := by
      intro b hb
      obtain ⟨c, hc, heq⟩ := List.mem_map.mp (hfrom b hb)
      by_cases hback : c = kBackslash
      · rw [if_pos hback] at heq
        exact absurd (heq ▸ hb) hslash
      · rw [if_neg hback] at heq
        exact heq ▸ ⟨hback, hc⟩
    exact ⟨⟨of_decide_eq_true hne, hslash, fun hb => (hboth _ hb).1 rfl, hdot, hdots⟩,
      fun b hb => (hboth b hb).2⟩

end

/-! ## joined components -/

section

variable {components : List Bytes} {name : Bytes}

theorem intercalate_singleton (c : Bytes) : [kSlash].intercalate [c] = c := by
  simp [List.intercalate]

theorem intercalate_cons_cons (c d : Bytes) (rest : List Bytes) :
    [kSlash].intercalate (c :: d :: rest) = c ++ kSlash :: [kSlash].intercalate (d :: rest) := by
  simp [List.intercalate]

theorem splitOn_joinPath (h : ∀ c ∈ components, kSlash ∉ c) (hne : components ≠ []) :
    ((joinPath components).drop 1).splitOn kSlash = components :=
  List.splitOn_intercalate kSlash h hne

/-- only the root has no components -/
theorem joinPath_eq_root (h : ∀ c ∈ components, c ≠ []) :
    joinPath components = [kSlash] ↔ components = [] := by
  constructor
  · intro heq
    have hnil : [kSlash].intercalate components = [] := (List.cons.inj heq).2
    match components with
    | [] => rfl
    | [c] =>
      rw [intercalate_singleton] at hnil
      exact absurd hnil (h c List.mem_cons_self)
    | c :: d :: rest =>
      rw [intercalate_cons_cons] at hnil
      exact absurd hnil (List.append_ne_nil_of_right_ne_nil _ (List.cons_ne_nil _ _))
  · rintro rfl
    rfl

theorem Components_joinPath (h : ∀ c ∈ components, Plain c) :
    Components (joinPath components) = components := by
  unfold Components
  by_cases hnil : components = []
  · rw [hnil]
    rfl
  · have hroot : joinPath components ≠ [kSlash] := fun heq =>
      hnil ((joinPath_eq_root fun c hc => (h c hc).ne_nil).mp heq)
    have hlast : components.getLast? ≠ some [] := fun heq =>
      (h [] (List.mem_of_getLast? heq)).ne_nil rfl
    rw [if_neg hroot]
    dsimp only
    rw [splitOn_joinPath (fun c hc => (h c hc).slash) hnil, if_neg hlast]

theorem mem_intercalate {b : UInt8} (h : b ∈ [kSlash].intercalate components) :
    b = kSlash ∨ ∃ c ∈ components, b ∈ c := by
  induction components with
  | nil => cases h
  | cons c rest ih =>
    cases rest with
    | nil =>
      rw [intercalate_singleton] at h
      exact .inr ⟨c, List.mem_cons_self, h⟩
    | cons d rest =>
      rw [intercalate_cons_cons, List.mem_append, List.mem_cons] at h
      obtain hc | rfl | hrest := h
      · exact .inr ⟨c, List.mem_cons_self, hc⟩
      · exact .inl rfl
      · obtain hslash | ⟨e, he, hb⟩ := ih hrest
        · exact .inl hslash
        · exact .inr ⟨e, List.mem_cons_of_mem _ he, hb⟩

theorem mem_joinPath {b : UInt8} (h : b ∈ joinPath components) :
    b = kSlash ∨ ∃ c ∈ components, b ∈ c := by
  obtain rfl | h := List.mem_cons.mp h
  · exact .inl rfl
  · exact mem_intercalate h

/-- **Plain components are a canonical path.** -/
theorem CanonicalizePath_joinPath (h : ∀ c ∈ components, Plain c) :
    CanonicalizePath (joinPath components) = joinPath components := by
  have hmap : (joinPath components).map (fun c => if c = kBackslash then kSlash else c) =
      joinPath components := by
    refine (List.map_congr_left fun b hb => ?_).trans (List.map_id _)
    refine if_neg fun hback => ?_
    obtain rfl | ⟨c, hc, hmem⟩ := mem_joinPath hb
    · cases hback
    · exact (h c hc).backslash (hback ▸ hmem)
  have hsplit : ((joinPath components).splitOn kSlash).filter (· ≠ []) = components := by
    show ((kSlash :: [kSlash].intercalate components).splitOn kSlash).filter (· ≠ []) = components
    rw [List.splitOn_cons_eq_if_modifyHead, if_pos (beq_self_eq_true _)]
    by_cases hnil : components = []
    · rw [hnil]
      rfl
    · rw [List.splitOn_intercalate kSlash (fun c hc => (h c hc).slash) hnil,
        List.filter_cons_of_neg (by decide)]
      exact List.filter_eq_self.mpr fun c hc => decide_eq_true (h c hc).ne_nil
  unfold CanonicalizePath pathComponents
  dsimp only
  rw [hmap, hsplit, foldl_pushComponent h]
  rfl

theorem intercalate_append (name : Bytes) (hnil : components ≠ []) :
    [kSlash].intercalate components ++ kSlash :: name =
      [kSlash].intercalate (components ++ [name]) := by
  induction components with
  | nil => exact absurd rfl hnil
  | cons c rest ih =>
    cases rest with
    | nil =>
      show _ = [kSlash].intercalate [c, name]
      rw [intercalate_singleton, intercalate_cons_cons, intercalate_singleton]
    | cons d rest =>
      show _ = [kSlash].intercalate (c :: d :: (rest ++ [name]))
      rw [intercalate_cons_cons, intercalate_cons_cons, List.append_assoc, List.cons_append,
        ih (List.cons_ne_nil _ _)]
      rfl

theorem joinPath_append (name : Bytes) (h : ∀ c ∈ components, c ≠ []) :
    childPath (joinPath components) name = joinPath (components ++ [name]) := by
  unfold childPath
  by_cases hnil : components = []
  · rw [hnil]
    exact (if_pos rfl).trans (congrArg (kSlash :: ·) (intercalate_singleton name).symm)
  · rw [if_neg fun heq => hnil ((joinPath_eq_root h).mp heq)]
    exact congrArg (kSlash :: ·) (intercalate_append name hnil)

theorem joinPath_inj {components' : List Bytes} (h : ∀ c ∈ components, c ≠ [] ∧ kSlash ∉ c)
    (h' : ∀ c ∈ components', c ≠ [] ∧ kSlash ∉ c)
    (heq : joinPath components = joinPath components') : components = components' := by
  by_cases hnil : components = []
  · rw [hnil] at heq ⊢
    exact ((joinPath_eq_root fun c hc => (h' c hc).1).mp heq.symm).symm
  · have hnil' : components' ≠ [] := fun hnil' => by
      rw [hnil'] at heq
      exact hnil ((joinPath_eq_root fun c hc => (h c hc).1).mp heq)
    rw [← splitOn_joinPath (fun c hc => (h c hc).2) hnil, heq,
      splitOn_joinPath (fun c hc => (h' c hc).2) hnil']

/-! ## lower case -/

theorem toLower_eq_slash (c : UInt8) : toLower c = kSlash ↔ c = kSlash := by
  have hall : ∀ n < 256, (toLower (UInt8.ofNat n) = kSlash ↔ UInt8.ofNat n = kSlash) := by
    decide +kernel
  have h := hall c.toNat c.toNat_lt
  rwa [UInt8.ofNat_toNat] at h

theorem Lowercase_intercalate (components : List Bytes) :
    Lowercase ([kSlash].intercalate components) =
      [kSlash].intercalate (components.map Lowercase) := by
  induction components with
  | nil => rfl
  | cons c rest ih =>
    cases rest with
    | nil =>
      rw [intercalate_singleton]
      exact (intercalate_singleton _).symm
    | cons d rest =>
      show _ = [kSlash].intercalate (Lowercase c :: Lowercase d :: rest.map Lowercase)
      rw [intercalate_cons_cons, intercalate_cons_cons]
      unfold Lowercase at ih ⊢
      rw [List.map_append, List.map_cons, ih]
      rfl

theorem Lowercase_joinPath (components : List Bytes) :
    Lowercase (joinPath components) = joinPath (components.map Lowercase) :=
  congrArg (kSlash :: ·) (Lowercase_intercalate components)

theorem plain_Lowercase (h : name ≠ [] ∧ kSlash ∉ name) :
    Lowercase name ≠ [] ∧ kSlash ∉ Lowercase name := by
  refine ⟨fun hnil => h.1 (List.map_eq_nil_iff.mp hnil), fun hmem => ?_⟩
  obtain ⟨c, hc, heq⟩ := List.mem_map.mp hmem
  exact h.2 ((toLower_eq_slash c).mp heq ▸ hc)

end

end DolTranslator.Dvd
