import Mathlib

/-!
# Intrusive doubly linked queues

Nodes carry their own `next` and `prev` links, and every slot has a `head` and a `tail`; the zero
node is the null link.  All queues share one set of links, so that a node can be on one queue only.

* `Links.unlink`, `pushBack`, `insertBefore`, `popFront`   the four edits, write by write;
* `Queue l s xs`   slot `s` holds exactly the nodes `xs`, linked in both directions;
* `Holds l c`   every slot holds its list, and no node is on two of them;
* `Holds.unlink`, `.pushBack`, `.insertBefore`, `.popFront`   what each edit does to the lists.

The proofs read the slot as a node of its own: after the null node comes the head, before it the
tail, and a queue is a `Path` from the null node back to it.
-/

set_option linter.unusedSectionVars false

namespace Intrusive

open Function

structure Links (Node Slot : Type*) where
  next : Node → Node
  prev : Node → Node
  head : Slot → Node
  tail : Slot → Node

variable {Node Slot : Type*} [DecidableEq Node] [DecidableEq Slot] [Zero Node]

namespace Links

/-- take a node off the queue it is on -/
def unlink (l : Links Node Slot) (s : Slot) (x : Node) : Links Node Slot :=
  let next := l.next x
  let prev := l.prev x
  let l := if next ≠ 0 then { l with prev := update l.prev next prev }
    else { l with tail := update l.tail s prev }
  let l := if prev ≠ 0 then { l with next := update l.next prev next }
    else { l with head := update l.head s next }
  { l with next := update l.next x 0, prev := update l.prev x 0 }

def pushBack (l : Links Node Slot) (s : Slot) (x : Node) : Links Node Slot :=
  let tail := l.tail s
  let l := if tail = 0 then { l with head := update l.head s x }
    else { l with next := update l.next tail x }
  { l with
    prev := update l.prev x tail, next := update l.next x 0, tail := update l.tail s x }

def insertBefore (l : Links Node Slot) (s : Slot) (y x : Node) : Links Node Slot :=
  let l := { l with next := update l.next x y }
  let prev := l.prev y
  let l := { l with prev := update (update l.prev y x) x prev }
  if prev = 0 then { l with head := update l.head s x }
  else { l with next := update l.next prev x }

/-- take the head off; its own links stay as they are -/
def popFront (l : Links Node Slot) (s : Slot) : Links Node Slot :=
  let next := l.next (l.head s)
  let l := if next = 0 then { l with tail := update l.tail s 0 }
    else { l with prev := update l.prev next 0 }
  { l with head := update l.head s next }

def succ (l : Links Node Slot) (s : Slot) (x : Node) : Node := if x = 0 then l.head s else l.next x

def pred (l : Links Node Slot) (s : Slot) (x : Node) : Node := if x = 0 then l.tail s else l.prev x

end Links

variable {l l' : Links Node Slot} {s s' : Slot} {a b x y : Node} {xs ys : List Node}

/-! ## paths -/

/-- from `a` through `xs` to `b`, linked in both directions -/
def Path (l : Links Node Slot) (s : Slot) : Node → List Node → Node → Prop
  | a, [], b => l.succ s a = b ∧ l.pred s b = a
  | a, x :: xs, b => (l.succ s a = x ∧ l.pred s x = a) ∧ Path l s x xs b

theorem path_append : Path l s a (xs ++ x :: ys) b ↔ Path l s a xs x ∧ Path l s x ys b := by
  induction xs generalizing a with
  | nil => rfl
  | cons z zs ih =>
    show _ ∧ Path l s z (zs ++ x :: ys) b ↔ (_ ∧ Path l s z zs x) ∧ _
    rw [ih, ← and_assoc]

/-- a path reads the successors of all its nodes but the last and the predecessors of all but
the first -/
theorem Path.congr (h : Path l s a xs b) (hsucc : ∀ z ∈ a :: xs, l'.succ s' z = l.succ s z)
    (hpred : ∀ z ∈ xs ++ [b], l'.pred s' z = l.pred s z) : Path l' s' a xs b := by
  induction xs generalizing a with
  | nil =>
    refine ⟨?_, ?_⟩
    · rw [hsucc a List.mem_cons_self]
      exact h.1
    · rw [hpred b (by simp)]
      exact h.2
  | cons z zs ih =>
    refine ⟨⟨?_, ?_⟩, ih h.2 (fun w hw => hsucc w (List.mem_cons_of_mem _ hw))
      (fun w hw => hpred w (List.mem_cons_of_mem _ hw))⟩
    · rw [hsucc a List.mem_cons_self]
      exact h.1.1
    · rw [hpred z (by simp)]
      exact h.1.2

def before (a : Node) : List Node → Node
  | [] => a
  | z :: zs => before z zs

theorem before_mem : before a xs ∈ a :: xs := by
  induction xs generalizing a with
  | nil => exact List.mem_cons_self
  | cons z zs ih =>
    show before z zs ∈ _
    exact List.mem_cons_of_mem _ ih

theorem Path.last (h : Path l s a xs b) :
    l.succ s (before a xs) = b ∧ l.pred s b = before a xs := by
  induction xs generalizing a with
  | nil => exact h
  | cons z zs ih => exact ih h.2

theorem Path.first (h : Path l s a xs b) :
    l.succ s a = xs.headD b ∧ l.pred s (xs.headD b) = a := by
  cases xs with
  | nil => exact h
  | cons z zs => exact h.1

/-- a path sent to another end: only its last link changes -/
theorem Path.redirect (h : Path l s a xs b) (hnodup : (a :: xs).Nodup)
    (hsucc : ∀ z ∈ a :: xs, z ≠ before a xs → l'.succ s' z = l.succ s z)
    (hpred : ∀ z ∈ xs, l'.pred s' z = l.pred s z)
    (hlast : l'.succ s' (before a xs) = y ∧ l'.pred s' y = before a xs) : Path l' s' a xs y := by
  induction xs generalizing a with
  | nil => exact hlast
  | cons z zs ih =>
    have hne : a ≠ before z zs := fun e =>
      (List.nodup_cons.mp hnodup).1 (e ▸ before_mem)
    refine ⟨⟨?_, ?_⟩, ih h.2 (List.nodup_cons.mp hnodup).2
      (fun w hw hw' => hsucc w (List.mem_cons_of_mem _ hw) hw')
      (fun w hw => hpred w (List.mem_cons_of_mem _ hw)) hlast⟩
    · rw [hsucc a List.mem_cons_self hne]
      exact h.1.1
    · rw [hpred z List.mem_cons_self]
      exact h.1.2

/-! ## queues -/

structure Queue (l : Links Node Slot) (s : Slot) (xs : List Node) : Prop where
  path : Path l s 0 xs 0
  nodup : (0 :: xs).Nodup

theorem Queue.not_zero (h : Queue l s xs) (hx : x ∈ xs) : x ≠ 0 := by
  rintro rfl
  exact (List.nodup_cons.mp h.nodup).1 hx

theorem Queue.head_eq (h : Queue l s xs) : l.head s = xs.headD 0 := by
  have hfirst := h.path.first.1
  rwa [show l.succ s 0 = l.head s from if_pos rfl] at hfirst

theorem Queue.head_eq_zero (h : Queue l s xs) : l.head s = 0 ↔ xs = [] := by
  rw [h.head_eq]
  cases xs with
  | nil => simp
  | cons z zs => simpa using h.not_zero List.mem_cons_self

theorem Queue.next_eq (h : Queue l s (xs ++ x :: ys)) : l.next x = ys.headD 0 := by
  have hfirst := (path_append.mp h.path).2.first.1
  rwa [show l.succ s x = l.next x from if_neg (h.not_zero (by simp))] at hfirst

theorem Queue.nil_of_empty (hhead : l.head s = 0) (htail : l.tail s = 0) : Queue l s [] :=
  ⟨⟨by rw [Links.succ, if_pos rfl, hhead], by rw [Links.pred, if_pos rfl, htail]⟩,
    List.nodup_singleton 0⟩

theorem Queue.congr (h : Queue l s xs) (hhead : l'.head s = l.head s) (htail : l'.tail s = l.tail s)
    (hnext : ∀ z ∈ xs, l'.next z = l.next z) (hprev : ∀ z ∈ xs, l'.prev z = l.prev z) :
    Queue l' s xs := by
  refine ⟨h.path.congr (fun z hz => ?_) (fun z hz => ?_), h.nodup⟩
  · unfold Links.succ
    split
    · exact hhead
    · next hz0 =>
      exact hnext z ((List.mem_cons.mp hz).resolve_left hz0)
  · unfold Links.pred
    split
    · exact htail
    · next hz0 =>
      refine hprev z ?_
      rcases List.mem_append.mp hz with hz | hz
      · exact hz
      · exact absurd (List.mem_singleton.mp hz) hz0

/-! ## the edits, read on one slot -/

theorem succ_unlink (hx : x ≠ 0) (z : Node) : (l.unlink s x).succ s z =
    if z = x then 0 else if z = l.prev x then l.next x else l.succ s z := by
  unfold Links.unlink Links.succ
  by_cases hz : z = 0
  · subst hz
    by_cases hp : l.prev x = 0 <;> by_cases hn : l.next x = 0 <;>
      simp [hp, hn, hx.symm, @eq_comm _ (0 : Node)]
  · by_cases hp : l.prev x = 0 <;> by_cases hn : l.next x = 0 <;>
      simp [hp, hn, hz, update_apply]

theorem pred_unlink (hx : x ≠ 0) (z : Node) : (l.unlink s x).pred s z =
    if z = x then 0 else if z = l.next x then l.prev x else l.pred s z := by
  unfold Links.unlink Links.pred
  by_cases hz : z = 0
  · subst hz
    by_cases hp : l.prev x = 0 <;> by_cases hn : l.next x = 0 <;>
      simp [hp, hn, hx.symm, @eq_comm _ (0 : Node)]
  · by_cases hp : l.prev x = 0 <;> by_cases hn : l.next x = 0 <;>
      simp [hp, hn, hz, update_apply]

theorem succ_pushBack (hx : x ≠ 0) (z : Node) : (l.pushBack s x).succ s z =
    if z = x then 0 else if z = l.tail s then x else l.succ s z := by
  unfold Links.pushBack Links.succ
  by_cases hz : z = 0
  · subst hz
    by_cases ht : l.tail s = 0 <;> simp [ht, hx.symm, @eq_comm _ (0 : Node)]
  · by_cases ht : l.tail s = 0 <;> simp [ht, hz, update_apply]

theorem pred_pushBack (z : Node) : (l.pushBack s x).pred s z =
    if z = 0 then x else if z = x then l.tail s else l.pred s z := by
  unfold Links.pushBack Links.pred
  by_cases ht : l.tail s = 0 <;> simp [ht, update_apply]
  all_goals split <;> simp_all

theorem succ_insertBefore (hx : x ≠ 0) (z : Node) : (l.insertBefore s y x).succ s z =
    if z = l.prev y then x else if z = x then y else l.succ s z := by
  unfold Links.insertBefore Links.succ
  by_cases hz : z = 0
  · subst hz
    by_cases hp : l.prev y = 0 <;> simp [hp, hx.symm, @eq_comm _ (0 : Node)]
  · by_cases hp : l.prev y = 0 <;> simp [hp, hz, update_apply]

theorem pred_insertBefore (hx : x ≠ 0) (hy : y ≠ 0) (z : Node) :
    (l.insertBefore s y x).pred s z =
      if z = x then l.prev y else if z = y then x else l.pred s z := by
  unfold Links.insertBefore Links.pred
  by_cases hz : z = 0
  · subst hz
    by_cases hp : l.prev y = 0 <;> simp [hp, hx.symm, hy.symm]
  · by_cases hp : l.prev y = 0 <;> simp [hp, hz, update_apply]

theorem succ_popFront (z : Node) : (l.popFront s).succ s z =
    if z = 0 then l.next (l.head s) else l.succ s z := by
  unfold Links.popFront Links.succ
  by_cases hn : l.next (l.head s) = 0 <;> by_cases hz : z = 0 <;> simp [hn, hz]

theorem pred_popFront (z : Node) : (l.popFront s).pred s z =
    if z = l.next (l.head s) then 0 else l.pred s z := by
  unfold Links.popFront Links.pred
  by_cases hz : z = 0
  · subst hz
    by_cases hn : l.next (l.head s) = 0 <;> simp [hn, @eq_comm _ (0 : Node)]
  · by_cases hn : l.next (l.head s) = 0 <;> simp [hn, hz, update_apply]

/-! ## what the edits do to one queue -/

theorem Queue.prev_eq (h : Queue l s (xs ++ x :: ys)) : l.prev x = before 0 xs := by
  have hlast := (path_append.mp h.path).1.last.2
  rwa [show l.pred s x = l.prev x from if_neg (h.not_zero (by simp))] at hlast

theorem nodup_of_remove (h : (0 :: (xs ++ x :: ys)).Nodup) : (0 :: (xs ++ ys)).Nodup := by
  refine h.sublist (List.Sublist.cons_cons 0 ?_)
  exact List.Sublist.append_left (List.sublist_cons_self x ys) xs

theorem Queue.splice (h : Queue l s (xs ++ x :: ys))
    (hsucc : ∀ z, z ≠ x → l'.succ s z = if z = before 0 xs then ys.headD 0 else l.succ s z)
    (hpred : ∀ z, z ≠ x → l'.pred s z = if z = ys.headD 0 then before 0 xs else l.pred s z) :
    Queue l' s (xs ++ ys) := by
  have hnodup := nodup_of_remove h.nodup
  have hx : x ∉ 0 :: (xs ++ ys) := by
    have hperm : (0 :: (xs ++ x :: ys)).Perm (x :: 0 :: (xs ++ ys)) :=
      (List.perm_middle.cons 0).trans (List.Perm.swap x 0 _)
    exact (List.nodup_cons.mp (hperm.nodup_iff.mp h.nodup)).1
  have hne : ∀ z ∈ 0 :: (xs ++ ys), z ≠ x := fun z hz e => hx (e ▸ hz)
  have hleft : 0 :: xs ⊆ 0 :: (xs ++ ys) :=
    (List.Sublist.cons_cons 0 (List.sublist_append_left xs ys)).subset
  have hnodupLeft : (0 :: xs).Nodup :=
    hnodup.sublist (List.Sublist.cons_cons 0 (List.sublist_append_left xs ys))
  obtain ⟨hpathLeft, hpathRight⟩ := path_append.mp h.path
  refine ⟨?_, hnodup⟩
  have hpredLeft : ∀ z ∈ xs, l'.pred s z = l.pred s z := by
    intro z hz
    rw [hpred z (hne z (hleft (List.mem_cons_of_mem _ hz))), if_neg]
    intro e
    cases ys with
    | nil => exact h.not_zero (List.mem_append_left _ hz) e
    | cons y ys =>
      have hzy : z ≠ y := List.nodup_append.mp (List.nodup_cons.mp hnodup).2 |>.2.2 z hz y (by simp)
      exact hzy e
  have hredirect : Path l' s 0 xs (ys.headD 0) := by
    refine hpathLeft.redirect hnodupLeft (fun z hz hz' => ?_) hpredLeft ⟨?_, ?_⟩
    · rw [hsucc z (hne z (hleft hz)), if_neg hz']
    · rw [hsucc _ (hne _ (hleft before_mem)), if_pos rfl]
    · rw [hpred, if_pos rfl]
      cases ys with
      | nil => exact hne 0 (by simp)
      | cons y ys => exact hne y (by simp)
  cases ys with
  | nil => rwa [List.append_nil]
  | cons y ys =>
    refine path_append.mpr ⟨hredirect, hpathRight.2.congr (fun z hz => ?_) (fun z hz => ?_)⟩
    · rw [hsucc z (hne z (List.mem_cons_of_mem _ (List.mem_append_right _ hz))), if_neg]
      intro e
      have hmem : z ∈ 0 :: xs := e ▸ before_mem
      rcases List.mem_cons.mp hmem with rfl | hzxs
      · exact (List.nodup_cons.mp hnodup).1 (List.mem_append_right _ hz)
      · exact (List.nodup_append.mp (List.nodup_cons.mp hnodup).2).2.2 z hzxs z hz rfl
    · have hz' : z ∈ 0 :: (xs ++ y :: ys) := by
        rcases List.mem_append.mp hz with hz | hz
        · exact List.mem_cons_of_mem _ (List.mem_append_right _ (List.mem_cons_of_mem _ hz))
        · exact List.mem_singleton.mp hz ▸ List.mem_cons_self
      rw [hpred z (hne z hz'), if_neg]
      intro e
      have hy : y ∉ ys ++ [0] := by
        intro hmem
        rcases List.mem_append.mp hmem with hmem | hmem
        · have hnd := (List.nodup_append.mp (List.nodup_cons.mp hnodup).2).2.1
          exact (List.nodup_cons.mp hnd).1 hmem
        · exact (List.nodup_cons.mp hnodup).1
            (List.mem_singleton.mp hmem ▸ List.mem_append_right xs List.mem_cons_self)
      have hzy : z = y := e
      exact hy (hzy ▸ hz)

theorem Queue.unlink (h : Queue l s (xs ++ x :: ys)) : Queue (l.unlink s x) s (xs ++ ys) := by
  have hx : x ≠ 0 := h.not_zero (by simp)
  refine h.splice (fun z hz => ?_) (fun z hz => ?_)
  · rw [succ_unlink hx, if_neg hz, h.prev_eq, h.next_eq]
  · rw [pred_unlink hx, if_neg hz, h.prev_eq, h.next_eq]

theorem Queue.popFront (h : Queue l s (x :: xs)) : Queue (l.popFront s) s xs := by
  have hhead : l.head s = x := h.head_eq
  have hsplit : Queue l s ([] ++ x :: xs) := h
  have hnext : l.next x = xs.headD 0 := hsplit.next_eq
  refine hsplit.splice (fun z hz => ?_) (fun z hz => ?_)
  · rw [succ_popFront, hhead, hnext]
    rfl
  · rw [pred_popFront, hhead, hnext]
    rfl

theorem Queue.joinAt (h : Queue l s (xs ++ ys)) (hx : x ∉ 0 :: (xs ++ ys))
    (hsucc : ∀ z, l'.succ s z =
      if z = before 0 xs then x else if z = x then ys.headD 0 else l.succ s z)
    (hpred : ∀ z, l'.pred s z =
      if z = ys.headD 0 then x else if z = x then before 0 xs else l.pred s z) :
    Queue l' s (xs ++ x :: ys) := by
  have hxs : ∀ z ∈ 0 :: xs, z ≠ x := fun z hz e =>
    hx (e ▸ (List.Sublist.cons_cons 0 (List.sublist_append_left xs ys)).subset hz)
  have hys : ∀ z ∈ ys, z ≠ x := fun z hz e =>
    hx (e ▸ List.mem_cons_of_mem _ (List.mem_append_right xs hz))
  have hnodup : (0 :: (xs ++ x :: ys)).Nodup := by
    have hperm : (0 :: (xs ++ x :: ys)).Perm (x :: 0 :: (xs ++ ys)) :=
      (List.perm_middle.cons 0).trans (List.Perm.swap x 0 _)
    exact hperm.nodup_iff.mpr (List.nodup_cons.mpr ⟨hx, h.nodup⟩)
  have hdisj := (List.nodup_append.mp (List.nodup_cons.mp h.nodup).2).2.2
  have hzero : ∀ z ∈ xs ++ ys, z ≠ 0 := fun z hz => h.not_zero hz
  -- the left half ends at the new node
  have hleft : Path l s 0 xs (ys.headD 0) := by
    cases ys with
    | nil => simpa using h.path
    | cons y ys => exact (path_append.mp h.path).1
  have hleft' : Path l' s 0 xs x := by
    refine hleft.redirect
      (h.nodup.sublist (List.Sublist.cons_cons 0 (List.sublist_append_left xs ys)))
      (fun z hz hz' => ?_) (fun z hz => ?_) ⟨?_, ?_⟩
    · rw [hsucc, if_neg hz', if_neg (hxs z hz)]
    · rw [hpred, if_neg, if_neg (hxs z (List.mem_cons_of_mem _ hz))]
      cases ys with
      | nil => exact hzero z (List.mem_append_left _ hz)
      | cons y ys => exact hdisj z hz y List.mem_cons_self
    · rw [hsucc, if_pos rfl]
    · rw [hpred, if_neg, if_pos rfl]
      cases ys with
      | nil => exact fun e => hx (e ▸ List.mem_cons_self)
      | cons y ys => exact (hys y List.mem_cons_self).symm
  have hbefore : before 0 xs ≠ x := hxs _ before_mem
  refine ⟨path_append.mpr ⟨hleft', ?_⟩, hnodup⟩
  have hlink : l'.succ s x = ys.headD 0 ∧ l'.pred s (ys.headD 0) = x := by
    constructor
    · rw [hsucc, if_neg hbefore.symm, if_pos rfl]
    · rw [hpred, if_pos rfl]
  cases ys with
  | nil => exact hlink
  | cons y ys =>
    refine ⟨hlink, (path_append.mp h.path).2.congr (fun z hz => ?_) (fun z hz => ?_)⟩
    · rw [hsucc, if_neg, if_neg (hys z hz)]
      intro e
      have hmem : z ∈ 0 :: xs := e ▸ before_mem
      rcases List.mem_cons.mp hmem with rfl | hzxs
      · exact hzero 0 (List.mem_append_right _ hz) rfl
      · exact hdisj z hzxs z hz rfl
    · have hzy : z ≠ y := by
        rintro rfl
        rcases List.mem_append.mp hz with hz | hz
        · have hnd := (List.nodup_append.mp (List.nodup_cons.mp h.nodup).2).2.1
          exact (List.nodup_cons.mp hnd).1 hz
        · exact hzero z (List.mem_append_right _ List.mem_cons_self) (List.mem_singleton.mp hz)
      have hzx : z ≠ x := by
        rcases List.mem_append.mp hz with hz | hz
        · exact hys z (List.mem_cons_of_mem _ hz)
        · exact List.mem_singleton.mp hz ▸ hxs 0 List.mem_cons_self
      rw [hpred]
      exact (if_neg hzy).trans (if_neg hzx)

theorem Queue.tail_eq (h : Queue l s xs) : l.tail s = before 0 xs := by
  have hlast := h.path.last.2
  rwa [show l.pred s 0 = l.tail s from if_pos rfl] at hlast

theorem Queue.pushBack (h : Queue l s xs) (hx : x ∉ 0 :: xs) :
    Queue (l.pushBack s x) s (xs ++ [x]) := by
  have hx0 : x ≠ 0 := fun e => hx (e ▸ List.mem_cons_self)
  have hbefore : before 0 xs ≠ x := fun e => hx (e ▸ before_mem)
  rw [← List.append_nil xs] at h hx
  refine h.joinAt hx (fun z => ?_) (fun z => ?_)
  · rw [succ_pushBack hx0, h.tail_eq, List.append_nil]
    by_cases hz : z = x
    · rw [if_pos hz, if_neg (hz ▸ hbefore.symm), if_pos hz]
      rfl
    · rw [if_neg hz, if_neg hz]
  · rw [pred_pushBack, h.tail_eq, List.append_nil]
    rfl

theorem Queue.insertBefore (h : Queue l s (xs ++ y :: ys)) (hx : x ∉ 0 :: (xs ++ y :: ys)) :
    Queue (l.insertBefore s y x) s (xs ++ x :: y :: ys) := by
  have hx0 : x ≠ 0 := fun e => hx (e ▸ List.mem_cons_self)
  have hy0 : y ≠ 0 := h.not_zero (by simp)
  have hxy : x ≠ y := fun e => hx (e ▸ by simp)
  refine h.joinAt hx (fun z => ?_) (fun z => ?_)
  · rw [succ_insertBefore hx0, h.prev_eq]
    rfl
  · rw [pred_insertBefore hx0 hy0, h.prev_eq]
    show _ = if z = y then x else if z = x then before 0 xs else l.pred s z
    by_cases hz : z = x
    · rw [if_pos hz, if_neg (hz ▸ hxy), if_pos hz]
    · rw [if_neg hz, if_neg hz]

/-! ## all the queues -/

structure Holds (l : Links Node Slot) (c : Slot → List Node) : Prop where
  queue : ∀ s, Queue l s (c s)
  apart : ∀ s s' x, x ∈ c s → x ∈ c s' → s = s'

namespace Holds

variable {c : Slot → List Node}

theorem head_eq_zero (h : Holds l c) : l.head s = 0 ↔ c s = [] := (h.queue s).head_eq_zero

theorem not_zero (h : Holds l c) (hx : x ∈ c s) : x ≠ 0 := (h.queue s).not_zero hx

theorem edit (h : Holds l c) (hqueue : Queue l' s xs) (hx : ∀ s', s' ≠ s → x ∉ c s')
    (hxs : ∀ z ∈ xs, z ∈ c s ∨ z = x)
    (hhead : ∀ s', s' ≠ s → l'.head s' = l.head s' ∧ l'.tail s' = l.tail s')
    (hnext : ∀ z, z ≠ 0 → z ≠ x → z ∉ c s → l'.next z = l.next z ∧ l'.prev z = l.prev z) :
    Holds l' (update c s xs) := by
  constructor
  · intro s'
    by_cases hs : s' = s
    · subst hs
      rwa [update_self]
    · rw [update_of_ne hs]
      have hout : ∀ z ∈ c s', l'.next z = l.next z ∧ l'.prev z = l.prev z := fun z hz =>
        hnext z (h.not_zero hz) (fun e => hx s' hs (e ▸ hz)) fun hz' =>
          hs (h.apart s' s z hz hz')
      exact (h.queue s').congr (hhead s' hs).1 (hhead s' hs).2 (fun z hz => (hout z hz).1)
        fun z hz => (hout z hz).2
  · have haway : ∀ s', s' ≠ s → ∀ z ∈ xs, z ∉ c s' := by
      intro s' hs z hz hz'
      rcases hxs z hz with hc | rfl
      · exact hs (h.apart s' s z hz' hc)
      · exact hx s' hs hz'
    intro s₁ s₂ z h₁ h₂
    by_cases e₁ : s₁ = s <;> by_cases e₂ : s₂ = s
    · rw [e₁, e₂]
    · rw [e₁, update_self] at h₁
      rw [update_of_ne e₂] at h₂
      exact absurd h₂ (haway s₂ e₂ z h₁)
    · rw [e₂, update_self] at h₂
      rw [update_of_ne e₁] at h₁
      exact absurd h₁ (haway s₁ e₁ z h₂)
    · rw [update_of_ne e₁] at h₁
      rw [update_of_ne e₂] at h₂
      exact h.apart s₁ s₂ z h₁ h₂

theorem ne_before {us vs : List Node} (hc : c s = us ++ vs) {z : Node}
    (hz0 : z ≠ 0) (hz : z ∉ c s) : z ≠ before 0 us ∧ z ≠ vs.headD 0 := by
  constructor
  · intro e
    have hmem : z ∈ 0 :: us := e ▸ before_mem
    exact hz (hc ▸ List.mem_append_left _ ((List.mem_cons.mp hmem).resolve_left hz0))
  · intro e
    cases vs with
    | nil => exact hz0 e
    | cons v vs =>
      have hzv : z = v := e
      exact hz (hc ▸ List.mem_append_right _ (hzv ▸ List.mem_cons_self))

theorem links_of_slot {z : Node} (hz : z ≠ 0) (hsucc : l'.succ s z = l.succ s z)
    (hpred : l'.pred s z = l.pred s z) : l'.next z = l.next z ∧ l'.prev z = l.prev z := by
  simpa only [Links.succ, Links.pred, if_neg hz] using And.intro hsucc hpred

/-- **Taking a node off.** -/
theorem unlink (h : Holds l c) (hx : x ∈ c s) :
    Holds (l.unlink s x) (update c s ((c s).erase x)) := by
  obtain ⟨us, vs, hc⟩ := List.append_of_mem hx
  have hqueue : Queue l s (us ++ x :: vs) := hc ▸ h.queue s
  have hx0 : x ≠ 0 := h.not_zero hx
  have hus : x ∉ us := fun hmem =>
    (List.nodup_append.mp (List.nodup_cons.mp hqueue.nodup).2).2.2 x hmem x
      List.mem_cons_self rfl
  rw [hc, List.erase_append_right _ hus, List.erase_cons_head]
  refine h.edit hqueue.unlink (x := x) (fun s' hs hx' => hs (h.apart s' s x hx' hx))
    (fun z hz => .inl ?_) (fun s' hs => ?_) (fun z hz0 hzx hz => ?_)
  · rw [hc]
    exact (List.Sublist.append_left (List.sublist_cons_self x vs) us).subset hz
  · unfold Links.unlink
    by_cases hp : l.prev x = 0 <;> by_cases hn : l.next x = 0 <;> simp [hp, hn, hs]
  · have hc' : c s = (us ++ [x]) ++ vs := by rw [hc, List.append_assoc, List.singleton_append]
    have hleft := (ne_before hc hz0 hz).1
    have hright := (ne_before hc' hz0 hz).2
    refine links_of_slot (s := s) hz0 ?_ ?_
    · rw [succ_unlink hx0, if_neg hzx, hqueue.prev_eq, if_neg hleft]
    · rw [pred_unlink hx0, if_neg hzx, hqueue.next_eq, if_neg hright]

/-- **Putting a node at the end.** -/
theorem pushBack (h : Holds l c) (hx0 : x ≠ 0) (hx : ∀ s', x ∉ c s') :
    Holds (l.pushBack s x) (update c s (c s ++ [x])) := by
  have hqueue := h.queue s
  have hnew : x ∉ 0 :: c s := fun hmem => (List.mem_cons.mp hmem).elim hx0 (hx s)
  refine h.edit (hqueue.pushBack hnew) (x := x) (fun s' _ => hx s') (fun z hz => ?_)
    (fun s' hs => ?_) (fun z hz0 hzx hz => ?_)
  · rcases List.mem_append.mp hz with hz | hz
    · exact .inl hz
    · exact .inr (List.mem_singleton.mp hz)
  · unfold Links.pushBack
    by_cases ht : l.tail s = 0 <;> simp [ht, hs]
  · have hleft := (ne_before (List.append_nil (c s)).symm hz0 hz).1
    refine links_of_slot (s := s) hz0 ?_ ?_
    · rw [succ_pushBack hx0, if_neg hzx, hqueue.tail_eq, if_neg hleft]
    · rw [pred_pushBack, if_neg hz0, if_neg hzx]

/-- **Putting a node before another.** -/
theorem insertBefore (h : Holds l c) (hx0 : x ≠ 0) (hx : ∀ s', x ∉ c s')
    {us vs : List Node} (hc : c s = us ++ y :: vs) :
    Holds (l.insertBefore s y x) (update c s (us ++ x :: y :: vs)) := by
  have hqueue : Queue l s (us ++ y :: vs) := hc ▸ h.queue s
  have hnew : x ∉ 0 :: (us ++ y :: vs) := fun hmem =>
    (List.mem_cons.mp hmem).elim hx0 (hc ▸ hx s)
  have hy0 : y ≠ 0 := hqueue.not_zero (by simp)
  refine h.edit (hqueue.insertBefore hnew) (x := x) (fun s' _ => hx s') (fun z hz => ?_)
    (fun s' hs => ?_) (fun z hz0 hzx hz => ?_)
  · rw [hc]
    rcases List.mem_append.mp hz with hz | hz
    · exact .inl (List.mem_append_left _ hz)
    · rcases List.mem_cons.mp hz with rfl | hz
      · exact .inr rfl
      · exact .inl (List.mem_append_right _ hz)
  · unfold Links.insertBefore
    by_cases hp : l.prev y = 0 <;> simp [hp, hs]
  · obtain ⟨hleft, hright⟩ := ne_before hc hz0 hz
    refine links_of_slot (s := s) hz0 ?_ ?_
    · rw [succ_insertBefore hx0, hqueue.prev_eq, if_neg hleft, if_neg hzx]
    · rw [pred_insertBefore hx0 hy0, if_neg hzx]
      exact if_neg hright

/-- **Taking the head off.** -/
theorem popFront (h : Holds l c) (hc : c s = x :: xs) :
    Holds (l.popFront s) (update c s xs) := by
  have hqueue : Queue l s (x :: xs) := hc ▸ h.queue s
  have hx : x ∈ c s := hc ▸ List.mem_cons_self
  have hhead : l.head s = x := hqueue.head_eq
  have hsplit : Queue l s ([] ++ x :: xs) := hqueue
  have hnext : l.next x = xs.headD 0 := hsplit.next_eq
  refine h.edit hqueue.popFront (x := x) (fun s' hs hx' => hs (h.apart s' s x hx' hx))
    (fun z hz => .inl (hc ▸ List.mem_cons_of_mem _ hz)) (fun s' hs => ?_)
    (fun z hz0 hzx hz => ?_)
  · unfold Links.popFront
    by_cases hn : l.next (l.head s) = 0 <;> simp [hn, hs]
  · have hright := (ne_before (show c s = [x] ++ xs from hc) hz0 hz).2
    refine links_of_slot (s := s) hz0 ?_ ?_
    · rw [succ_popFront, if_neg hz0]
    · rw [pred_popFront, hhead, hnext, if_neg hright]

theorem clear (h : Holds l c) (hx : ∀ s', x ∉ c s') (n p : Node) :
    Holds { l with next := update l.next x n, prev := update l.prev x p } c where
  queue s := (h.queue s).congr rfl rfl
    (fun z hz => update_of_ne (fun e : z = x => hx s (e ▸ hz)) _ _)
    (fun z hz => update_of_ne (fun e : z = x => hx s (e ▸ hz)) _ _)
  apart := h.apart

theorem mem_erase (h : Holds l c) (s : Slot) (x z : Node) :
    z ∈ (c s).erase x ↔ z ≠ x ∧ z ∈ c s :=
  (List.nodup_cons.mp (h.queue s).nodup).2.mem_erase_iff

end Holds

end Intrusive
