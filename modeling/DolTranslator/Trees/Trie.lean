import Mathlib.Data.List.Basic
import Std.Data.TreeMap.Lemmas

/-!
# Trees whose siblings are ordered by key

A trie keeps its nodes under keys, in the order of the keys; a node has a name, which tells the key,
a value or none, and the nodes below it.

* `insert`   a value under a path of names, with the nodes on the way;
* `value?`   the value under a path of keys, which `value?_insert` has of an insertion;
* `Full.proper_iff`   no node has both a value and nodes below it exactly when no value is below a
  value.
-/

namespace Trees

inductive Trie (κ ν α : Type) where
  | nil
  | cons (key : κ) (name : ν) (value : Option α) (children rest : Trie κ ν α)

/-- what is under a key -/
structure TrieNode (κ ν α : Type) where
  name : ν
  value : Option α
  children : Trie κ ν α

namespace Trie

def isNil {κ ν α : Type} : Trie κ ν α → Bool
  | nil => true
  | cons _ _ _ _ _ => false

variable {κ ν α : Type} [Ord κ]

/-- the node under a key, changed or made where the order has it -/
def update (key : κ) (f : Option (TrieNode κ ν α) → TrieNode κ ν α) : Trie κ ν α → Trie κ ν α
  | nil => cons key (f none).name (f none).value (f none).children nil
  | cons k name value children rest =>
    match compare key k with
    | .lt => cons key (f none).name (f none).value (f none).children
        (cons k name value children rest)
    | .eq =>
      let node := f (some ⟨name, value, children⟩)
      cons k node.name node.value node.children rest
    | .gt => cons k name value children (update key f rest)

/-- a node at the end of a path: what it had below it stays -/
def endNode (name : ν) (a : α) : Option (TrieNode κ ν α) → TrieNode κ ν α
  | none => ⟨name, some a, nil⟩
  | some node => ⟨name, some a, node.children⟩

/-- a node on the way: it keeps its name, if it was there -/
def wayNode (name : ν) (below : Trie κ ν α → Trie κ ν α) :
    Option (TrieNode κ ν α) → TrieNode κ ν α
  | none => ⟨name, none, below nil⟩
  | some node => ⟨node.name, node.value, below node.children⟩

def insert (fold : ν → κ) (a : α) : List ν → Trie κ ν α → Trie κ ν α
  | [], t => t
  | [name], t => t.update (fold name) (endNode name a)
  | name :: names, t => t.update (fold name) (wayNode name (insert fold a names))

def find [DecidableEq κ] (key : κ) : Trie κ ν α → Option (TrieNode κ ν α)
  | nil => none
  | cons k name value children rest =>
    if key = k then some ⟨name, value, children⟩ else rest.find key

def value? [DecidableEq κ] : List κ → Trie κ ν α → Option α
  | [], _ => none
  | [key], t => (t.find key).bind TrieNode.value
  | key :: keys, t => (t.find key).bind fun node => value? keys node.children

def keys : Trie κ ν α → List κ
  | nil => []
  | cons key _ _ _ rest => key :: rest.keys

/-- siblings are in order -/
def Sorted : Trie κ ν α → Prop
  | nil => True
  | cons key _ _ children rest =>
    (∀ k ∈ rest.keys, compare key k = .lt) ∧ children.Sorted ∧ rest.Sorted

/-- what holds of every node -/
def All (P : κ → ν → Option α → Trie κ ν α → Prop) : Trie κ ν α → Prop
  | nil => True
  | cons key name value children rest =>
    P key name value children ∧ children.All P ∧ rest.All P

section

variable {key k : κ} {t : Trie κ ν α} {f : Option (TrieNode κ ν α) → TrieNode κ ν α}

omit [Ord κ] in
theorem find_of_not_mem [DecidableEq κ] (h : key ∉ t.keys) : t.find key = none := by
  induction t with
  | nil => rfl
  | cons k name value children rest _ ih =>
    rw [keys, List.mem_cons, not_or] at h
    exact (if_neg h.1).trans (ih h.2)

omit [Ord κ] in
theorem mem_keys_of_find [DecidableEq κ] {node : TrieNode κ ν α} (h : t.find key = some node) :
    key ∈ t.keys := by
  by_contra hnot
  rw [find_of_not_mem hnot] at h
  cases h

theorem update_ne_nil : t.update key f ≠ nil := by
  cases t with
  | nil => exact fun h => by cases h
  | cons k name value children rest =>
    unfold update
    cases compare key k <;> exact fun h => by cases h

variable [Std.LawfulEqOrd κ]

/-- the keys after a change: one more, at most -/
theorem mem_keys_update : k ∈ (t.update key f).keys ↔ k = key ∨ k ∈ t.keys := by
  induction t with
  | nil => simp [update, keys]
  | cons k' name value children rest _ ih =>
    unfold update
    cases h : compare key k' with
    | lt => simp [keys]
    | eq =>
      obtain rfl := Std.LawfulEqOrd.eq_of_compare h
      simp only [keys, List.mem_cons]
      tauto
    | gt =>
      simp only [keys, List.mem_cons, ih]
      tauto

omit [Std.LawfulEqOrd κ] in
theorem sorted_of_find [DecidableEq κ] {node : TrieNode κ ν α} (h : t.Sorted)
    (hfind : t.find key = some node) : node.children.Sorted := by
  induction t with
  | nil => cases hfind
  | cons k name value children rest _ ih =>
    unfold find at hfind
    split at hfind
    · obtain rfl := Option.some.inj hfind
      exact h.2.1
    · exact ih h.2.2 hfind

theorem all_update {P : κ → ν → Option α → Trie κ ν α → Prop} (h : t.All P)
    (hf : ∀ old, (∀ node ∈ old, P key node.name node.value node.children ∧ node.children.All P) →
      P key (f old).name (f old).value (f old).children ∧ (f old).children.All P) :
    (t.update key f).All P := by
  have hnone := hf none fun _ hnode => by cases hnode
  induction t with
  | nil => exact ⟨hnone.1, hnone.2, trivial⟩
  | cons k name value children rest _ ih =>
    obtain ⟨hnode, hchildren, hrest⟩ := h
    unfold update
    cases hcmp : compare key k with
    | lt => exact ⟨hnone.1, hnone.2, hnode, hchildren, hrest⟩
    | eq =>
      obtain rfl := Std.LawfulEqOrd.eq_of_compare hcmp
      have hnew := hf (some ⟨name, value, children⟩) fun node hmem => by
        obtain rfl := Option.mem_some.mp hmem
        exact ⟨hnode, hchildren⟩
      exact ⟨hnew.1, hnew.2, hrest⟩
    | gt => exact ⟨hnode, hchildren, ih hrest⟩

variable [Std.TransOrd κ]

/-- **A change is seen under its key** and nowhere else. -/
theorem find_update [DecidableEq κ] (h : t.Sorted) :
    (t.update key f).find k = if k = key then some (f (t.find key)) else t.find k := by
  induction t with
  | nil =>
    by_cases hk : k = key
    · rw [if_pos hk]
      exact if_pos hk
    · rw [if_neg hk]
      exact if_neg hk
  | cons k' name value children rest _ ih =>
    obtain ⟨hfirst, -, hrest⟩ := h
    unfold update
    cases hcmp : compare key k' with
    | lt =>
      -- no sibling has the key
      have hnone : (cons k' name value children rest).find key = none := by
        refine find_of_not_mem fun hmem => ?_
        obtain rfl | hmem := List.mem_cons.mp hmem
        · rw [Std.ReflOrd.compare_self] at hcmp
          cases hcmp
        · have hlt := Std.TransCmp.lt_trans hcmp (hfirst key hmem)
          rw [Std.ReflOrd.compare_self] at hlt
          cases hlt
      rw [hnone]
      rfl
    | eq =>
      obtain rfl := Std.LawfulEqOrd.eq_of_compare hcmp
      have hsome : (cons key name value children rest).find key = some ⟨name, value, children⟩ :=
        if_pos rfl
      rw [hsome]
      by_cases hk : k = key
      · rw [if_pos hk]
        exact if_pos hk
      · rw [if_neg hk]
        exact (if_neg hk).trans (if_neg hk).symm
    | gt =>
      have hne : key ≠ k' := fun heq => by
        rw [heq, Std.ReflOrd.compare_self] at hcmp
        cases hcmp
      have hsome : (cons k' name value children rest).find key = rest.find key := if_neg hne
      rw [hsome]
      show (if k = k' then _ else (rest.update key f).find k) = _
      rw [ih hrest]
      by_cases hk : k = k'
      · rw [if_pos hk, if_neg fun heq => hne (heq.symm.trans hk)]
        exact (if_pos hk).symm
      · rw [if_neg hk]
        by_cases hkey : k = key
        · rw [if_pos hkey, if_pos hkey]
        · rw [if_neg hkey, if_neg hkey]
          exact (if_neg hk).symm

theorem sorted_update (h : t.Sorted) (hf : ∀ old, (∀ node ∈ old, node.children.Sorted) →
    (f old).children.Sorted) : (t.update key f).Sorted := by
  have hnone : (f none).children.Sorted := hf none fun _ hnode => by cases hnode
  induction t with
  | nil => exact ⟨fun _ hk => (by cases hk), hnone, trivial⟩
  | cons k name value children rest _ ih =>
    obtain ⟨hfirst, hchildren, hrest⟩ := h
    unfold update
    cases hcmp : compare key k with
    | lt =>
      refine ⟨fun k' hk' => ?_, hnone, hfirst, hchildren, hrest⟩
      obtain rfl | hk' := List.mem_cons.mp hk'
      · exact hcmp
      · exact Std.TransCmp.lt_trans hcmp (hfirst k' hk')
    | eq =>
      refine ⟨hfirst, hf _ fun node hnode => ?_, hrest⟩
      obtain rfl := Option.mem_some.mp hnode
      exact hchildren
    | gt =>
      refine ⟨fun k' hk' => ?_, hchildren, ih hrest⟩
      obtain rfl | hk' := mem_keys_update.mp hk'
      · exact Std.OrientedCmp.lt_of_gt hcmp
      · exact hfirst k' hk'

end

/-! ## insertion -/

section

variable {fold : ν → κ} {a : α} {names : List ν} {t : Trie κ ν α}

theorem insert_cons_cons (name second : ν) (names : List ν) (t : Trie κ ν α) :
    t.insert fold a (name :: second :: names) =
      t.update (fold name) (wayNode name (insert fold a (second :: names))) := rfl

theorem insert_ne_nil (h : names ≠ []) : t.insert fold a names ≠ nil := by
  match names, h with
  | [_], _ => exact update_ne_nil
  | _ :: _ :: _, _ => exact update_ne_nil

variable [Std.LawfulEqOrd κ]

/-- what holds of every node holds after an insertion: of the node with the value, and of those on
the way to it -/
theorem all_insert {P : κ → ν → Option α → Trie κ ν α → Prop} (h : t.All P)
    (hend : ∀ name ∈ names, ∀ children, P (fold name) name (some a) children)
    (hnew : ∀ name ∈ names, ∀ children, children ≠ nil → P (fold name) name none children)
    (hway : ∀ key name value children children', children' ≠ nil → P key name value children →
      P key name value children') : (t.insert fold a names).All P := by
  induction names generalizing t with
  | nil => exact h
  | cons name names ih =>
    cases names with
    | nil =>
      refine all_update h fun old hold => ?_
      have hvalue := hend name List.mem_cons_self
      cases old with
      | none => exact ⟨hvalue nil, trivial⟩
      | some node => exact ⟨hvalue node.children, (hold node rfl).2⟩
    | cons second names =>
      rw [insert_cons_cons]
      have hbelow {t : Trie κ ν α} (ht : t.All P) : (t.insert fold a (second :: names)).All P :=
        ih ht (fun n hn => hend n (List.mem_cons_of_mem _ hn))
          fun n hn => hnew n (List.mem_cons_of_mem _ hn)
      have hne {t : Trie κ ν α} : t.insert fold a (second :: names) ≠ nil :=
        insert_ne_nil (List.cons_ne_nil _ _)
      refine all_update h fun old hold => ?_
      cases old with
      | none => exact ⟨hnew name List.mem_cons_self _ hne, hbelow trivial⟩
      | some node =>
        obtain ⟨hnode, hchildren⟩ := hold node rfl
        exact ⟨hway _ _ _ _ _ hne hnode, hbelow hchildren⟩

variable [Std.TransOrd κ]

theorem sorted_insert (h : t.Sorted) : (t.insert fold a names).Sorted := by
  induction names generalizing t with
  | nil => exact h
  | cons name names ih =>
    cases names with
    | nil =>
      refine sorted_update h fun old hold => ?_
      cases old with
      | none => trivial
      | some node => exact hold node rfl
    | cons second names =>
      rw [insert_cons_cons]
      refine sorted_update h fun old hold => ?_
      cases old with
      | none => exact ih trivial
      | some node => exact ih (hold node rfl)

variable [DecidableEq κ]

omit [Ord κ] [Std.LawfulEqOrd κ] [Std.TransOrd κ] in
theorem value?_nil (keys : List κ) : (nil : Trie κ ν α).value? keys = none := by
  match keys with
  | [] => rfl
  | [_] => rfl
  | _ :: _ :: _ => rfl

omit [Ord κ] [Std.LawfulEqOrd κ] [Std.TransOrd κ] in
theorem value?_cons_cons (key second : κ) (keys : List κ) (t : Trie κ ν α) :
    t.value? (key :: second :: keys) =
      (t.find key).bind fun node => node.children.value? (second :: keys) := rfl

/-- **An insertion is seen under its keys** and nowhere else. -/
theorem value?_insert (h : t.Sorted) (hnames : names ≠ []) (keys : List κ) :
    (t.insert fold a names).value? keys =
      if keys = names.map fold then some a else t.value? keys := by
  induction names generalizing t keys with
  | nil => exact absurd rfl hnames
  | cons name names ih =>
    match keys with
    | [] => exact (if_neg fun heq => by cases heq).symm
    | [key] =>
      cases names with
      | nil =>
        show ((t.update (fold name) (endNode name a)).find key).bind _ = _
        rw [find_update h]
        by_cases hkey : key = fold name
        · rw [if_pos hkey, if_pos (by rw [hkey]; rfl)]
          cases t.find (fold name) <;> rfl
        · have hne : [key] ≠ [name].map fold := fun heq => hkey (List.cons.inj heq).1
          rw [if_neg hkey, if_neg hne]
          rfl
      | cons second names =>
        have hne : [key] ≠ (name :: second :: names).map fold :=
          fun heq => by cases (List.cons.inj heq).2
        show ((t.update (fold name) (wayNode name _)).find key).bind _ = _
        rw [find_update h, if_neg hne]
        by_cases hkey : key = fold name
        · rw [if_pos hkey, hkey]
          show (wayNode name _ (t.find (fold name))).value = (t.find (fold name)).bind _
          cases t.find (fold name) <;> rfl
        · rw [if_neg hkey]
          rfl
    | key :: next :: keys =>
      rw [value?_cons_cons, value?_cons_cons]
      cases names with
      | nil =>
        have hne : key :: next :: keys ≠ [name].map fold :=
          fun heq => by cases (List.cons.inj heq).2
        show ((t.update (fold name) (endNode name a)).find key).bind _ = _
        rw [find_update h, if_neg hne]
        by_cases hkey : key = fold name
        · rw [if_pos hkey, hkey]
          cases t.find (fold name) with
          | none => exact value?_nil _
          | some node => rfl
        · rw [if_neg hkey]
      | cons second names =>
        rw [insert_cons_cons, find_update h]
        by_cases hkey : key = fold name
        · rw [if_pos hkey, hkey]
          have hiff : (fold name :: next :: keys = (name :: second :: names).map fold) ↔
              next :: keys = (second :: names).map fold :=
            ⟨fun heq => (List.cons.inj heq).2, fun heq => congrArg (fold name :: ·) heq⟩
          simp only [hiff]
          cases hfind : t.find (fold name) with
          | none =>
            show ((nil : Trie κ ν α).insert fold a (second :: names)).value? (next :: keys) = _
            rw [ih (show (nil : Trie κ ν α).Sorted from trivial) (List.cons_ne_nil _ _), value?_nil]
            rfl
          | some node =>
            exact ih (sorted_of_find h hfind) (List.cons_ne_nil _ _) _
        · have hne : key :: next :: keys ≠ (name :: second :: names).map fold :=
            fun heq => hkey (List.cons.inj heq).1
          rw [if_neg hkey, if_neg hne]

end

/-! ## values below values -/

/-- every node has a value, or nodes below it -/
def Full (t : Trie κ ν α) : Prop := t.All fun _ _ value children => value.isSome = true ∨ children ≠ nil

/-- every node has a value or nodes below it, and none has both -/
def Proper (t : Trie κ ν α) : Prop :=
  t.All fun _ _ value children => value.isSome = true ↔ children = nil

/-- every node is under the key its name tells -/
def Named (fold : ν → κ) (t : Trie κ ν α) : Prop := t.All fun key name _ _ => key = fold name

section

variable [DecidableEq κ] {key k : κ} {keys more : List κ} {t children rest : Trie κ ν α} {name : ν}
  {value : Option α} {a : α}

omit [Ord κ]

omit [DecidableEq κ] in
theorem All.imp {P Q : κ → ν → Option α → Trie κ ν α → Prop} (h : t.All P)
    (himp : ∀ key name value children, P key name value children → Q key name value children) :
    t.All Q := by
  induction t with
  | nil => trivial
  | cons key name value children rest ihc ihr =>
    exact ⟨himp _ _ _ _ h.1, ihc h.2.1, ihr h.2.2⟩

theorem All.of_find {P : κ → ν → Option α → Trie κ ν α → Prop} {node : TrieNode κ ν α}
    (h : t.All P) (hfind : t.find key = some node) :
    P key node.name node.value node.children ∧ node.children.All P := by
  induction t with
  | nil => cases hfind
  | cons k name value children rest _ ih =>
    unfold find at hfind
    split at hfind
    · next hkey =>
      obtain rfl := Option.some.inj hfind
      exact ⟨hkey ▸ h.1, h.2.1⟩
    · exact ih h.2.2 hfind

theorem value?_cons_self (keys : List κ) :
    (cons key name value children rest).value? (key :: keys) =
      if keys = [] then value else children.value? keys := by
  have hfind : (cons key name value children rest).find key = some ⟨name, value, children⟩ :=
    if_pos rfl
  cases keys with
  | nil =>
    show ((cons key name value children rest).find key).bind _ = _
    rw [hfind]
    rfl
  | cons second keys =>
    rw [value?_cons_cons, hfind]
    rfl

theorem value?_cons_of_ne (h : key ≠ k) (keys : List κ) :
    (cons k name value children rest).value? (key :: keys) = rest.value? (key :: keys) := by
  have hfind : (cons k name value children rest).find key = rest.find key := if_neg h
  cases keys with
  | nil =>
    show ((cons k name value children rest).find key).bind _ = _
    rw [hfind]
    rfl
  | cons second keys => rw [value?_cons_cons, value?_cons_cons, hfind]

theorem exists_key_of_value? (h : t.value? keys = some a) :
    ∃ key ∈ t.keys, ∃ below, keys = key :: below := by
  match keys with
  | [] => cases h
  | [key] =>
    obtain ⟨node, hfind, -⟩ := Option.bind_eq_some_iff.mp h
    exact ⟨key, mem_keys_of_find hfind, [], rfl⟩
  | key :: second :: below =>
    rw [value?_cons_cons] at h
    obtain ⟨node, hfind, -⟩ := Option.bind_eq_some_iff.mp h
    exact ⟨key, mem_keys_of_find hfind, second :: below, rfl⟩

theorem exists_value (h : t.Full) (hne : t ≠ nil) : ∃ keys a, t.value? keys = some a := by
  induction t with
  | nil => exact absurd rfl hne
  | cons key name value children rest ih _ =>
    obtain ⟨hnode, hchildren, -⟩ := h
    obtain hvalue | hbelow := hnode
    · obtain ⟨a, rfl⟩ := Option.isSome_iff_exists.mp hvalue
      exact ⟨[key], a, value?_cons_self []⟩
    · obtain ⟨keys, a, hvalue⟩ := ih hchildren hbelow
      obtain ⟨first, -, below, rfl⟩ := exists_key_of_value? hvalue
      exact ⟨key :: first :: below, a, (value?_cons_self _).trans hvalue⟩

theorem Proper.value?_append (h : t.Proper) (hvalue : t.value? keys = some a) (hmore : more ≠ []) :
    t.value? (keys ++ more) = none := by
  induction keys generalizing t with
  | nil => cases hvalue
  | cons key keys ih =>
    cases keys with
    | nil =>
      obtain ⟨node, hfind, hsome⟩ := Option.bind_eq_some_iff.mp hvalue
      have hnil : node.children = nil := (h.of_find hfind).1.mp (by rw [hsome]; rfl)
      obtain ⟨second, more, rfl⟩ := List.exists_cons_of_ne_nil hmore
      show (t.find key).bind (fun node => node.children.value? (second :: more)) = none
      rw [hfind]
      show node.children.value? _ = none
      rw [hnil, value?_nil]
    | cons second keys =>
      rw [value?_cons_cons] at hvalue
      obtain ⟨node, hfind, hsome⟩ := Option.bind_eq_some_iff.mp hvalue
      show (t.find key).bind (fun node => node.children.value? (second :: (keys ++ more))) = none
      rw [hfind]
      exact ih (h.of_find hfind).2 hsome

end

section

variable [Std.TransOrd κ] {t : Trie κ ν α}

theorem Sorted.ne_of_mem {key k : κ} {name : ν} {value : Option α} {children rest : Trie κ ν α}
    (h : (cons key name value children rest).Sorted) (hk : k ∈ rest.keys) : k ≠ key := by
  rintro rfl
  have hlt := h.1 k hk
  rw [Std.ReflOrd.compare_self] at hlt
  cases hlt

/-- **A full trie is proper** exactly when no value is below a value. -/
theorem Full.proper_iff [DecidableEq κ] (h : t.Full) (hsorted : t.Sorted) :
    t.Proper ↔ ∀ keys a, t.value? keys = some a → ∀ more, more ≠ [] →
      t.value? (keys ++ more) = none := by
  refine ⟨fun hproper keys a hvalue more => hproper.value?_append hvalue, fun hnone => ?_⟩
  induction t with
  | nil => trivial
  | cons key name value children rest ihc ihr =>
    obtain ⟨hnode, hchildren, hrest⟩ := h
    have hbelow {keys : List κ} {a : α} (hvalue : children.value? keys = some a) :
        (cons key name value children rest).value? (key :: keys) = some a := by
      obtain ⟨first, -, below, rfl⟩ := exists_key_of_value? hvalue
      exact (value?_cons_self _).trans hvalue
    refine ⟨⟨fun hsome => ?_, fun hnil => ?_⟩, ihc hchildren hsorted.2.1 ?_,
      ihr hrest hsorted.2.2 ?_⟩
    · by_contra hne
      obtain ⟨a, rfl⟩ := Option.isSome_iff_exists.mp hsome
      obtain ⟨keys, b, hvalue⟩ := exists_value hchildren hne
      obtain ⟨first, -, below, rfl⟩ := exists_key_of_value? hvalue
      have hboth := hnone [key] a (value?_cons_self []) (first :: below) (List.cons_ne_nil _ _)
      rw [List.singleton_append, hbelow hvalue] at hboth
      cases hboth
    · exact hnode.resolve_right fun hne => hne hnil
    · intro keys a hvalue more hmore
      obtain ⟨first, -, below, rfl⟩ := exists_key_of_value? hvalue
      have hup := hnone _ a (hbelow hvalue) more hmore
      rw [List.cons_append, value?_cons_self] at hup
      exact (if_neg (List.cons_ne_nil first (below ++ more))).symm.trans hup
    · intro keys a hvalue more hmore
      obtain ⟨first, hmem, below, rfl⟩ := exists_key_of_value? hvalue
      have hne := Sorted.ne_of_mem hsorted hmem
      have hup := hnone _ a ((value?_cons_of_ne hne below).trans hvalue) more hmore
      rwa [List.cons_append, value?_cons_of_ne hne] at hup

end

end Trie

end Trees
