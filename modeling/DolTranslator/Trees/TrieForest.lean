import DolTranslator.Trees.Preorder
import DolTranslator.Trees.Trie

/-!
# A trie as a forest

* `forest`   a trie in which no node has both a value and nodes below it;
* `mem_entries_forest`, `mem_nodes_forest`   its leaves are the values, its nodes what is above them.
-/

namespace Trees

namespace Forest

variable {μ ν α : Type}

def mapNames (g : ν → μ) : Forest ν α → Forest μ α
  | nil => nil
  | leaf name value rest => leaf (g name) value (rest.mapNames g)
  | node name children rest => node (g name) (children.mapNames g) (rest.mapNames g)

theorem entries_mapNames (g : ν → μ) (t : Forest ν α) (above : List ν) :
    (t.mapNames g).entries (above.map g) = (t.entries above).map fun e => (e.1.map g, e.2) := by
  induction t generalizing above with
  | nil => rfl
  | leaf name value rest ih =>
    unfold mapNames entries
    rw [ih, List.map_cons, List.map_append]
    rfl
  | node name children rest ihc ihr =>
    have hbelow := ihc (above ++ [name])
    rw [List.map_append] at hbelow
    unfold mapNames entries
    rw [ihr, List.map_cons, List.map_append, List.map_append]
    exact congrArg (_ :: · ++ _) hbelow

/-- no node is empty -/
def NoEmpty : Forest ν α → Prop
  | nil => True
  | leaf _ _ rest => rest.NoEmpty
  | node _ children rest => children ≠ nil ∧ children.NoEmpty ∧ rest.NoEmpty

theorem exists_leaf {t : Forest ν α} (h : t.NoEmpty) (hne : t ≠ nil) (above : List ν) :
    ∃ more a, more ≠ [] ∧ (above ++ more, some a) ∈ t.entries above := by
  induction t generalizing above with
  | nil => exact absurd rfl hne
  | leaf name value rest _ => exact ⟨[name], value, List.cons_ne_nil _ _, List.mem_cons_self⟩
  | node name children rest ihc _ =>
    obtain ⟨more, a, -, hmem⟩ := ihc h.2.1 h.1 (above ++ [name])
    rw [List.append_assoc] at hmem
    exact ⟨name :: more, a, List.cons_ne_nil _ _,
      List.mem_cons_of_mem _ (List.mem_append_left _ hmem)⟩

theorem exists_leaf_below {t : Forest ν α} (h : t.NoEmpty) {above path : List ν}
    (hmem : (path, none) ∈ t.entries above) :
    ∃ more a, more ≠ [] ∧ (path ++ more, some a) ∈ t.entries above := by
  induction t generalizing above with
  | nil => cases hmem
  | leaf name value rest ih =>
    obtain heq | hmem := List.mem_cons.mp hmem
    · cases (Prod.mk.inj heq).2
    · obtain ⟨more, a, hmore, hleaf⟩ := ih h hmem
      exact ⟨more, a, hmore, List.mem_cons_of_mem _ hleaf⟩
  | node name children rest ihc ihr =>
    obtain heq | hmem := List.mem_cons.mp hmem
    · obtain ⟨more, a, hmore, hleaf⟩ := exists_leaf h.2.1 h.1 (above ++ [name])
      rw [(Prod.mk.inj heq).1]
      exact ⟨more, a, hmore, List.mem_cons_of_mem _ (List.mem_append_left _ hleaf)⟩
    · obtain hmem | hmem := List.mem_append.mp hmem
      · obtain ⟨more, a, hmore, hleaf⟩ := ihc h.2.1 hmem
        exact ⟨more, a, hmore, List.mem_cons_of_mem _ (List.mem_append_left _ hleaf)⟩
      · obtain ⟨more, a, hmore, hleaf⟩ := ihr h.2.2 hmem
        exact ⟨more, a, hmore, List.mem_cons_of_mem _ (List.mem_append_right _ hleaf)⟩

theorem node_above {t : Forest ν α} {above keys more : List ν} {o : Option α}
    (hmem : (above ++ (keys ++ more), o) ∈ t.entries above) (hkeys : keys ≠ []) (hmore : more ≠ []) :
    (above ++ keys, none) ∈ t.entries above := by
  have hlong {name : ν} : above ++ (keys ++ more) ≠ above ++ [name] := by
    intro heq
    have hlen := congrArg List.length (List.append_cancel_left heq)
    have h1 := List.length_pos_of_ne_nil hkeys
    have h2 := List.length_pos_of_ne_nil hmore
    rw [List.length_append, List.length_singleton] at hlen
    omega
  induction t generalizing above keys with
  | nil => cases hmem
  | leaf name value rest ih =>
    obtain heq | hmem := List.mem_cons.mp hmem
    · exact absurd (Prod.mk.inj heq).1 hlong
    · exact List.mem_cons_of_mem _ (ih hmem hkeys hlong)
  | node name children rest ihc ihr =>
    obtain heq | hmem := List.mem_cons.mp hmem
    · exact absurd (Prod.mk.inj heq).1 hlong
    · obtain hmem | hmem := List.mem_append.mp hmem
      · obtain ⟨first, -, below, hpath⟩ := mem_entries hmem
        obtain ⟨key, keys, rfl⟩ := List.exists_cons_of_ne_nil hkeys
        rw [List.append_assoc] at hpath
        obtain ⟨rfl, hrest⟩ := List.cons.inj (List.append_cancel_left hpath)
        by_cases hnil : keys = []
        · rw [hnil]
          exact List.mem_cons_self
        · refine List.mem_cons_of_mem _ (List.mem_append_left _ ?_)
          have hdown (xs : List ν) : above ++ key :: xs = above ++ [key] ++ xs := by
            rw [List.append_assoc]
            rfl
          rw [List.cons_append, hdown (keys ++ more)] at hmem
          rw [hdown keys]
          refine ihc hmem hnil fun heq => ?_
          have hlen := congrArg List.length (List.append_cancel_left heq)
          have h1 := List.length_pos_of_ne_nil hnil
          have h2 := List.length_pos_of_ne_nil hmore
          rw [List.length_append, List.length_singleton] at hlen
          omega
      · exact List.mem_cons_of_mem _ (List.mem_append_right _ (ihr hmem hkeys hlong))

end Forest

namespace Trie

variable {κ ν α : Type}

def forest : Trie κ ν α → Forest ν α
  | nil => .nil
  | cons _ name (some a) nil rest => .leaf name a rest.forest
  | cons _ name _ children rest => .node name children.forest rest.forest

theorem forest_leaf (key : κ) (name : ν) (a : α) (rest : Trie κ ν α) :
    (cons key name (some a) nil rest).forest = .leaf name a rest.forest := rfl

theorem forest_node (key : κ) (name : ν) (children rest : Trie κ ν α) :
    (cons key name none children rest).forest = .node name children.forest rest.forest := by
  cases children <;> rfl

theorem forest_cases (key : κ) (name : ν) (value : Option α) (children rest : Trie κ ν α) :
    (∃ a, (cons key name value children rest).forest = .leaf name a rest.forest) ∨
      (cons key name value children rest).forest = .node name children.forest rest.forest := by
  cases value with
  | none => exact .inr (forest_node key name children rest)
  | some a =>
    cases children with
    | nil => exact .inl ⟨a, rfl⟩
    | cons _ _ _ _ _ => exact .inr rfl

section

variable [Ord κ] {t : Trie κ ν α} {fold : ν → κ}

omit [Ord κ] in
theorem keys_forest (h : t.Named fold) : (t.forest.mapNames fold).names = t.keys := by
  induction t with
  | nil => rfl
  | cons key name value children rest _ ih =>
    obtain ⟨rfl, -, hrest⟩ := h
    obtain ⟨a, hforest⟩ | hforest := forest_cases (fold name) name value children rest <;>
    · rw [hforest]
      exact congrArg (fold name :: ·) (ih hrest)

variable [Std.TransOrd κ]

theorem distinct_forest (h : t.Named fold) (hsorted : t.Sorted) :
    (t.forest.mapNames fold).Distinct := by
  induction t with
  | nil => trivial
  | cons key name value children rest ihc ihr =>
    obtain ⟨rfl, hchildren, hrest⟩ := h
    have hfirst : fold name ∉ (rest.forest.mapNames fold).names := by
      rw [keys_forest hrest]
      exact fun hmem => Sorted.ne_of_mem hsorted hmem rfl
    have hbelow := ihr hrest hsorted.2.2
    obtain ⟨a, hforest⟩ | hforest := forest_cases (fold name) name value children rest
    · rw [hforest]
      exact ⟨hfirst, hbelow⟩
    · rw [hforest]
      exact ⟨hfirst, ihc hchildren hsorted.2.1, hbelow⟩

omit [Std.TransOrd κ] [Ord κ] in
theorem noEmpty_forest (h : t.Full) (fold : ν → κ) : (t.forest.mapNames fold).NoEmpty := by
  induction t with
  | nil => trivial
  | cons key name value children rest ihc ihr =>
    obtain ⟨hnode, hchildren, hrest⟩ := h
    have hbelow := ihr hrest
    have hforest (hne : children ≠ nil) : children.forest.mapNames fold ≠ .nil := by
      match children, hne with
      | cons k n v c r, _ =>
        obtain ⟨a, heq⟩ | heq := forest_cases k n v c r <;>
        · rw [heq]
          exact fun hnil => by cases hnil
    match value, children, hnode, ihc, hchildren, hforest with
    | none, children, hnode, ihc, hchildren, hforest =>
      rw [forest_node]
      have hne := hnode.resolve_left fun hsome => by cases hsome
      exact ⟨hforest hne, ihc hchildren, hbelow⟩
    | some a, nil, _, _, _, _ => exact hbelow
    | some a, cons _ _ _ _ _, _, ihc, hchildren, hforest =>
      exact ⟨hforest fun h => (by cases h), ihc hchildren, hbelow⟩

variable [DecidableEq κ] {keys above : List κ} {a : α}

omit [Std.TransOrd κ] [Ord κ] [DecidableEq κ] in
theorem append_mem_entries {K : Forest κ α} {o : Option α} (h : (above ++ keys, o) ∈ K.entries above) :
    ∃ key ∈ K.names, ∃ below, keys = key :: below := by
  obtain ⟨key, hkey, below, heq⟩ := Forest.mem_entries h
  exact ⟨key, hkey, below, List.append_cancel_left heq⟩

/-- **The leaves are the values.** -/
theorem mem_entries_forest (h : t.Named fold) (hsorted : t.Sorted) (hproper : t.Proper) :
    (above ++ keys, some a) ∈ (t.forest.mapNames fold).entries above ↔
      t.value? keys = some a := by
  induction t generalizing keys above with
  | nil =>
    rw [value?_nil]
    exact ⟨fun hmem => (by cases hmem), fun heq => by cases heq⟩
  | cons key name value children rest ihc ihr =>
    obtain ⟨rfl, hchildren, hrest⟩ := h
    obtain ⟨hnode, hpchildren, hprest⟩ := hproper
    cases keys with
    | nil =>
      refine ⟨fun hmem => ?_, fun heq => by cases heq⟩
      obtain ⟨_, -, _, heq⟩ := append_mem_entries hmem
      cases heq
    | cons key keys =>
      have hrestIff : key ≠ fold name →
          ((above ++ key :: keys, some a) ∈ (rest.forest.mapNames fold).entries above ↔
            (cons (fold name) name value children rest).value? (key :: keys) = some a) := by
        intro hne
        rw [value?_cons_of_ne hne]
        exact ihr hrest hsorted.2.2 hprest
      have hrestNot : (above ++ fold name :: keys, some a) ∉
          (rest.forest.mapNames fold).entries above := by
        intro hmem
        obtain ⟨k, hk, _, heq⟩ := append_mem_entries hmem
        rw [keys_forest hrest] at hk
        exact Sorted.ne_of_mem hsorted hk (List.cons.inj heq).1.symm
      have hhead : (above ++ key :: keys = above ++ [fold name]) ↔ key = fold name ∧ keys = [] := by
        rw [List.append_cancel_left_eq, List.cons.injEq]
      cases value with
      | some b =>
        obtain rfl := hnode.mp rfl
        rw [forest_leaf]
        show _ ∈ (above ++ [fold name], some b) :: (rest.forest.mapNames fold).entries above ↔ _
        rw [List.mem_cons, Prod.mk.injEq, hhead]
        by_cases hkey : key = fold name
        · rw [hkey, value?_cons_self, value?_nil]
          constructor
          · rintro (⟨⟨-, hnil⟩, heq⟩ | hmem)
            · rw [if_pos hnil, heq]
            · exact absurd hmem hrestNot
          · intro heq
            split at heq
            · next hnil => exact .inl ⟨⟨rfl, hnil⟩, heq.symm⟩
            · cases heq
        · rw [← hrestIff hkey]
          exact ⟨fun hor => hor.resolve_left fun hand => hkey hand.1.1, .inr⟩
      | none =>
        rw [forest_node]
        show _ ∈ (above ++ [fold name], none) :: ((children.forest.mapNames fold).entries
          (above ++ [fold name]) ++ (rest.forest.mapNames fold).entries above) ↔ _
        rw [List.mem_cons, List.mem_append]
        have hnone : ¬ (above ++ key :: keys, some a) = (above ++ [fold name], none) :=
          fun heq => by cases (Prod.mk.inj heq).2
        by_cases hkey : key = fold name
        · rw [hkey, value?_cons_self]
          have hdown : above ++ fold name :: keys = above ++ [fold name] ++ keys := by
            rw [List.append_assoc]
            rfl
          have hbelow : (above ++ [fold name] ++ keys, some a) ∈ (children.forest.mapNames
              fold).entries (above ++ [fold name]) ↔ children.value? keys = some a :=
            ihc hchildren hsorted.2.1 hpchildren
          rw [← hdown] at hbelow
          rw [hkey] at hnone
          constructor
          · rintro (heq | hmem | hmem)
            · exact absurd heq hnone
            · have hvalue := hbelow.mp hmem
              obtain ⟨_, -, _, rfl⟩ := exists_key_of_value? hvalue
              exact hvalue
            · exact absurd hmem hrestNot
          · intro heq
            split at heq
            · cases heq
            · exact .inr (.inl (hbelow.mpr heq))
        · rw [← hrestIff hkey]
          constructor
          · rintro (heq | hmem | hmem)
            · exact absurd heq hnone
            · obtain ⟨_, -, _, heq⟩ := Forest.mem_entries hmem
              rw [List.append_assoc, List.append_cancel_left_eq] at heq
              exact absurd (List.cons.inj heq).1 hkey
            · exact hmem
          · exact fun hmem => .inr (.inr hmem)

/-- **The nodes are what is above a value.** -/
theorem mem_nodes_forest (h : t.Named fold) (hsorted : t.Sorted) (hproper : t.Proper)
    (hfull : t.Full) :
    (keys, none) ∈ (t.forest.mapNames fold).entries [] ↔
      keys ≠ [] ∧ ∃ more a, more ≠ [] ∧ t.value? (keys ++ more) = some a := by
  have hvalues (keys : List κ) (a : α) :
      ([] ++ keys, some a) ∈ (t.forest.mapNames fold).entries [] ↔ t.value? keys = some a :=
    mem_entries_forest h hsorted hproper
  constructor
  · intro hmem
    obtain ⟨first, -, below, heq⟩ :=
      append_mem_entries (show ([] ++ keys, none) ∈ (t.forest.mapNames fold).entries [] from hmem)
    obtain ⟨more, a, hmore, hleaf⟩ := Forest.exists_leaf_below (noEmpty_forest hfull fold) hmem
    exact ⟨heq ▸ List.cons_ne_nil _ _, more, a, hmore, (hvalues _ a).mp hleaf⟩
  · rintro ⟨hkeys, more, a, hmore, hvalue⟩
    exact Forest.node_above ((hvalues _ a).mpr hvalue) hkeys hmore

end

end Trie

end Trees
