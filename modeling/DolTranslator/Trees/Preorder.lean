import Mathlib.Data.List.Basic
import Mathlib.Data.List.Nodup

/-!
# Trees written out in pre-order

A forest is a list of named leaves and nodes, and a node has a forest below it.  Written out in
pre-order a node says where its subtree ends, and the nodes that are open are kept on a stack.

* `Forest.rows`   the rows of a forest, from a first index on;
* `Forest.entries`   the path of each of its leaves and nodes;
* `walk_rows`   the walk over the rows gives the entries;
* `Forest.nodup_entries`   siblings of different names make paths of which none comes twice.
-/

namespace Trees

variable {ν α : Type}

inductive Forest (ν α : Type) where
  | nil
  | leaf (name : ν) (value : α) (rest : Forest ν α)
  | node (name : ν) (children rest : Forest ν α)

/-- a row: a leaf with its value, or a node with the index its subtree ends before -/
abbrev Row (ν α : Type) := ν × (α ⊕ Nat)

namespace Forest

def size : Forest ν α → Nat
  | nil => 0
  | leaf _ _ rest => rest.size + 1
  | node _ children rest => children.size + rest.size + 1

def rows (first : Nat) : Forest ν α → List (Row ν α)
  | nil => []
  | leaf name value rest => (name, .inl value) :: rest.rows (first + 1)
  | node name children rest =>
    (name, .inr (first + 1 + children.size)) ::
      (children.rows (first + 1) ++ rest.rows (first + 1 + children.size))

/-- the paths in pre-order, below the names of `above`; a node has no value -/
def entries (above : List ν) : Forest ν α → List (List ν × Option α)
  | nil => []
  | leaf name value rest => (above ++ [name], some value) :: rest.entries above
  | node name children rest =>
    (above ++ [name], none) :: (children.entries (above ++ [name]) ++ rest.entries above)

@[simp] theorem length_rows (t : Forest ν α) (first : Nat) : (t.rows first).length = t.size := by
  induction t generalizing first with
  | nil => rfl
  | leaf name value rest ih =>
    show (rest.rows (first + 1)).length + 1 = _
    rw [ih]
    rfl
  | node name children rest ihc ihr =>
    show (children.rows _ ++ rest.rows _).length + 1 = _
    rw [List.length_append, ihc, ihr]
    rfl

theorem ends_le {t : Forest ν α} {first : Nat} {name : ν} {ends : Nat}
    (h : (name, .inr ends) ∈ t.rows first) : ends ≤ first + t.size := by
  induction t generalizing first with
  | nil => cases h
  | leaf name value rest ih =>
    rcases List.mem_cons.mp h with h | h
    · cases h
    · have := ih h
      unfold size
      omega
  | node name children rest ihc ihr =>
    unfold size
    rcases List.mem_cons.mp h with h | h
    · obtain ⟨-, rfl⟩ : _ ∧ ends = _ := by simpa using h
      omega
    · rcases List.mem_append.mp h with h | h
      · have := ihc h
        omega
      · have := ihr h
        omega

end Forest

/-! ## the walk -/

/-- an open node, and the index it ends before -/
structure Open (ν : Type) where
  path : ν
  ends : Nat

/-- the open nodes, the innermost first, without those that end before `index` or at it -/
def close (index : Nat) (stack : List (Open ν)) : List (Open ν) :=
  stack.dropWhile fun folder => decide (folder.ends ≤ index)

def pathOf (stack : List (Open ν)) : List ν := (stack.map Open.path).reverse

def walk : Nat → List (Open ν) → List (Row ν α) → List (List ν × Option α)
  | _, _, [] => []
  | index, stack, (name, .inl value) :: rows =>
    (pathOf (close index stack) ++ [name], some value) :: walk (index + 1) (close index stack) rows
  | index, stack, (name, .inr ends) :: rows =>
    (pathOf (close index stack) ++ [name], none) ::
      walk (index + 1) (⟨name, ends⟩ :: close index stack) rows

variable {index first : Nat} {stack : List (Open ν)} {t : Forest ν α} {rows more : List (Row ν α)}

theorem close_eq_self (h : ∀ folder ∈ stack, index < folder.ends) : close index stack = stack := by
  cases stack with
  | nil => rfl
  | cons folder stack =>
    have hlt := h folder (List.mem_cons_self ..)
    unfold close
    rw [List.dropWhile_cons, if_neg]
    rw [decide_eq_true_eq]
    omega

theorem close_cons {folder : Open ν} (h : folder.ends ≤ index) :
    close index (folder :: stack) = close index stack := by
  unfold close
  rw [List.dropWhile_cons, if_pos (decide_eq_true h)]

theorem close_close (index : Nat) (stack : List (Open ν)) :
    close index (close index stack) = close index stack := by
  induction stack with
  | nil => rfl
  | cons folder stack ih =>
    by_cases h : folder.ends ≤ index
    · rw [close_cons h, ih]
    · have hself : close index (folder :: stack) = folder :: stack := by
        unfold close
        rw [List.dropWhile_cons, if_neg (by rwa [decide_eq_true_eq])]
      rw [hself, hself]

theorem walk_close (index : Nat) (stack : List (Open ν)) (rows : List (Row ν α)) :
    walk index (close index stack) rows = walk index stack rows := by
  cases rows with
  | nil => rfl
  | cons row rows =>
    obtain ⟨name, value | ends⟩ := row <;>
    · unfold walk
      rw [close_close]

/-- the open nodes are those that the rows of `t` are below: the stack is the same afterwards -/
theorem walk_rows_append (h : ∀ folder ∈ stack, first + t.size ≤ folder.ends) :
    walk first stack (t.rows first ++ more) =
      t.entries (pathOf stack) ++ walk (first + t.size) stack more := by
  induction t generalizing first stack more with
  | nil => rfl
  | leaf name value rest ih =>
    unfold Forest.size at h
    have hopen : close first stack = stack :=
      close_eq_self fun folder hf => by have := h folder hf; omega
    have hrest : walk (first + 1) stack (rest.rows (first + 1) ++ more) = _ :=
      ih fun folder hf => by have := h folder hf; omega
    show (pathOf (close first stack) ++ [name], some value) ::
      walk (first + 1) (close first stack) (rest.rows (first + 1) ++ more) = _
    rw [hopen, hrest, show first + 1 + rest.size = first + (rest.size + 1) by omega]
    rfl
  | node name children rest ihc ihr =>
    unfold Forest.size at h
    have hopen : close first stack = stack :=
      close_eq_self fun folder hf => by have := h folder hf; omega
    show (pathOf (close first stack) ++ [name], none) ::
      walk (first + 1) (⟨name, first + 1 + children.size⟩ :: close first stack)
        (children.rows (first + 1) ++ rest.rows (first + 1 + children.size) ++ more) = _
    rw [hopen, List.append_assoc, ihc]
    · -- the node itself is still on the stack, and has ended
      have hended : close (first + 1 + children.size) (⟨name, first + 1 + children.size⟩ :: stack) =
          close (first + 1 + children.size) stack := close_cons (Nat.le_refl _)
      rw [← walk_close, hended, walk_close, ihr]
      · rw [show first + 1 + children.size + rest.size =
          first + (children.size + rest.size + 1) by omega, ← List.append_assoc]
        unfold pathOf
        rw [List.map_cons, List.reverse_cons]
        rfl
      · intro folder hf
        have := h folder hf
        omega
    · intro folder hf
      rcases List.mem_cons.mp hf with rfl | hf
      · exact Nat.le_refl _
      · have := h folder hf
        omega

/-- **The walk over the rows of a forest gives its entries.** -/
theorem walk_rows (t : Forest ν α) (first : Nat) : walk first [] (t.rows first) = t.entries [] := by
  have h : walk first [] (t.rows first ++ []) = _ :=
    walk_rows_append fun _ hf => absurd hf List.not_mem_nil
  rw [List.append_nil] at h
  rw [h]
  show _ ++ [] = _
  rw [List.append_nil]
  rfl

/-! ## paths -/

namespace Forest

def names : Forest ν α → List ν
  | nil => []
  | leaf name _ rest => name :: rest.names
  | node name _ rest => name :: rest.names

/-- siblings have different names -/
def Distinct : Forest ν α → Prop
  | nil => True
  | leaf name _ rest => name ∉ rest.names ∧ rest.Distinct
  | node name children rest => name ∉ rest.names ∧ children.Distinct ∧ rest.Distinct

/-- what holds of every name -/
def AllNames (P : ν → Prop) : Forest ν α → Prop
  | nil => True
  | leaf name _ rest => P name ∧ rest.AllNames P
  | node name children rest => P name ∧ children.AllNames P ∧ rest.AllNames P

theorem allNames_of_mem_rows {P : ν → Prop} {t : Forest ν α} (ht : t.AllNames P) {first : Nat}
    {row : Row ν α} (h : row ∈ t.rows first) : P row.1 := by
  induction t generalizing first with
  | nil => cases h
  | leaf name value rest ih =>
    rcases List.mem_cons.mp h with rfl | h
    · exact ht.1
    · exact ih ht.2 h
  | node name children rest ihc ihr =>
    rcases List.mem_cons.mp h with rfl | h
    · exact ht.1
    · rcases List.mem_append.mp h with h | h
      · exact ihc ht.2.1 h
      · exact ihr ht.2.2 h

theorem mem_entries {t : Forest ν α} {above : List ν} {e : List ν × Option α}
    (h : e ∈ t.entries above) : ∃ name ∈ t.names, ∃ below, e.1 = above ++ name :: below := by
  induction t generalizing above with
  | nil => cases h
  | leaf name value rest ih =>
    rcases List.mem_cons.mp h with rfl | h
    · exact ⟨name, List.mem_cons_self .., [], rfl⟩
    · obtain ⟨n, hn, below, hb⟩ := ih h
      exact ⟨n, List.mem_cons_of_mem _ hn, below, hb⟩
  | node name children rest ihc ihr =>
    rcases List.mem_cons.mp h with rfl | h
    · exact ⟨name, List.mem_cons_self .., [], rfl⟩
    · rcases List.mem_append.mp h with h | h
      · obtain ⟨n, -, below, hb⟩ := ihc h
        refine ⟨name, List.mem_cons_self .., n :: below, ?_⟩
        rw [hb, List.append_assoc]
        rfl
      · obtain ⟨n, hn, below, hb⟩ := ihr h
        exact ⟨n, List.mem_cons_of_mem _ hn, below, hb⟩

theorem allNames_of_mem_entries {P : ν → Prop} {t : Forest ν α} (ht : t.AllNames P)
    {above : List ν} (habove : ∀ n ∈ above, P n) {e : List ν × Option α}
    (h : e ∈ t.entries above) : ∀ n ∈ e.1, P n := by
  have hsnoc : ∀ name, P name → ∀ n ∈ above ++ [name], P n := fun name hname n hn => by
    rcases List.mem_append.mp hn with hn | hn
    · exact habove n hn
    · rwa [List.mem_singleton.mp hn]
  induction t generalizing above with
  | nil => cases h
  | leaf name value rest ih =>
    rcases List.mem_cons.mp h with rfl | h
    · exact hsnoc name ht.1
    · exact ih ht.2 habove h hsnoc
  | node name children rest ihc ihr =>
    rcases List.mem_cons.mp h with rfl | h
    · exact hsnoc name ht.1
    · rcases List.mem_append.mp h with h | h
      · refine ihc ht.2.1 (hsnoc name ht.1) h fun m hm n hn => ?_
        rcases List.mem_append.mp hn with hn | hn
        · exact hsnoc name ht.1 n hn
        · rwa [List.mem_singleton.mp hn]
      · exact ihr ht.2.2 habove h hsnoc

theorem paths_ne {above : List ν} {name : ν} {t : Forest ν α} (hname : name ∉ t.names)
    {e : List ν × Option α} (h : e ∈ t.entries above) (below : List ν) :
    e.1 ≠ above ++ name :: below := by
  obtain ⟨n, hn, below', hb⟩ := mem_entries h
  intro heq
  rw [hb, List.append_cancel_left_eq, List.cons.injEq] at heq
  exact hname (heq.1 ▸ hn)

/-- **Siblings of different names: no path comes twice.** -/
theorem nodup_entries {t : Forest ν α} (h : t.Distinct) (above : List ν) :
    ((t.entries above).map Prod.fst).Nodup := by
  induction t generalizing above with
  | nil => exact List.nodup_nil
  | leaf name value rest ih =>
    refine List.nodup_cons.mpr ⟨fun hmem => ?_, ih h.2 above⟩
    obtain ⟨e, he, heq⟩ := List.mem_map.mp hmem
    exact paths_ne h.1 he [] heq
  | node name children rest ihc ihr =>
    show ((above ++ [name], none) :: (children.entries _ ++ rest.entries _)).map Prod.fst |>.Nodup
    rw [List.map_cons, List.map_append, List.nodup_cons, List.nodup_append]
    refine ⟨fun hmem => ?_, ihc h.2.1 _, ihr h.2.2 _, fun p hp q hq hpq => ?_⟩
    · rcases List.mem_append.mp hmem with hmem | hmem
      · obtain ⟨e, he, heq⟩ := List.mem_map.mp hmem
        obtain ⟨n, -, below, hb⟩ := mem_entries he
        have hself : above ++ [name] ++ n :: below = above ++ [name] := hb.symm.trans heq
        exact List.cons_ne_nil _ _ (List.append_right_eq_self.mp hself)
      · obtain ⟨e, he, heq⟩ := List.mem_map.mp hmem
        exact paths_ne h.1 he [] heq
    · obtain ⟨e, he, rfl⟩ := List.mem_map.mp hp
      obtain ⟨e', he', rfl⟩ := List.mem_map.mp hq
      obtain ⟨n, -, below, hb⟩ := mem_entries he
      rw [List.append_assoc] at hb
      exact paths_ne h.1 he' (n :: below) (hpq.symm.trans hb)

end Forest

end Trees
