import Mathlib.Data.List.Basic

/-!
# Checked accesses

A run over buffers whose accesses are checked: it stops at the first one that is outside its buffer,
or where the code answers that there is nothing.

* `Checked`   the runs, `within` an access;
* `Safe`, `Finishes`   no access of the run is outside, and none of its loops is cut short;
  `safe_bind_iff` for a run after another;
* `Decided`   a run that succeeds where a condition holds, and else makes an access outside;
* `mapM_checked`  a table, entry by entry;
* `scan`   up to an element that ends it; `scan_eq`.
-/

namespace Streams

/-- an access that is outside, an early return, or a loop that was given too little fuel -/
inductive Stop where
  | outside | refused | unfinished
  deriving DecidableEq

abbrev Checked := Except Stop

def within (length offset size : Nat) : Checked Unit :=
  if size = 0 ∨ offset + size ≤ length then .ok () else .error .outside

/-- the code returns early when the condition does not hold -/
def require (p : Prop) [Decidable p] : Checked Unit := if p then .ok () else .error .refused

def given {α : Type} : Option α → Checked α
  | none => .error .refused
  | some a => .ok a

def Safe {α : Type} (r : Checked α) : Prop := r ≠ .error .outside

def Finishes {α : Type} (r : Checked α) : Prop := r ≠ .error .unfinished

variable {α β : Type} {x : Checked α} {f : α → Checked β} {length offset size : Nat}

/-! ## accesses -/

theorem within_of_le (h : offset + size ≤ length) : within length offset size = .ok () :=
  if_pos (.inr h)

theorem within_of_lt (hsize : 0 < size) (h : length < offset + size) :
    within length offset size = .error .outside := if_neg (by omega)

theorem require_pos {p : Prop} [Decidable p] (h : p) : require p = .ok () := if_pos h

theorem require_neg {p : Prop} [Decidable p] (h : ¬p) : require p = .error .refused := if_neg h

/-! ## runs -/

@[simp] theorem ok_bind (a : α) (f : α → Checked β) : (Except.ok a : Checked α) >>= f = f a := rfl

@[simp] theorem error_bind (s : Stop) (f : α → Checked β) :
    (Except.error s : Checked α) >>= f = .error s := rfl

theorem safe_ok (a : α) : Safe (.ok a) := fun h => by cases h

theorem given_safe (answer : Option α) : Safe (given answer) ∧ Finishes (given answer) := by
  cases answer <;> exact ⟨fun h => (by cases h), fun h => (by cases h)⟩

theorem safe_refused : Safe (.error .refused : Checked α) := fun h => by cases h

theorem not_safe_outside : ¬Safe (.error .outside : Checked α) := fun h => h rfl

instance : (r : Checked α) → Decidable (Safe r)
  | .ok a => isTrue (safe_ok a)
  | .error .refused => isTrue safe_refused
  | .error .unfinished => isTrue fun h => by cases h
  | .error .outside => isFalse not_safe_outside

theorem safe_bind_iff : Safe (x >>= f) ↔ Safe x ∧ ∀ a, x = .ok a → Safe (f a) := by
  cases x with
  | ok a =>
    refine ⟨fun h => ⟨safe_ok a, fun a' ha => ?_⟩, fun h => h.2 a rfl⟩
    cases ha
    exact h
  | error s =>
    refine ⟨fun h => ⟨fun hs => ?_, fun a ha => (by cases ha)⟩, fun h hs => h.1 ?_⟩
    · cases hs
      exact h rfl
    · cases hs
      rfl

theorem safe_require_bind {p : Prop} [Decidable p] {r : Checked β} :
    Safe (require p >>= fun _ => r) ↔ (p → Safe r) := by
  by_cases hp : p
  · rw [require_pos hp, ok_bind]
    exact ⟨fun h _ => h, fun h => h hp⟩
  · rw [require_neg hp, error_bind]
    exact ⟨fun _ h => absurd h hp, fun _ => safe_refused⟩

theorem safe_bind_ok {g : α → β} : Safe (x >>= fun a => .ok (g a)) ↔ Safe x :=
  safe_bind_iff.trans ⟨fun h => h.1, fun h => ⟨h, fun a _ => safe_ok (g a)⟩⟩

theorem bind_ok {b : β} (h : x >>= f = .ok b) : ∃ a, x = .ok a ∧ f a = .ok b := by
  cases x with
  | ok a => exact ⟨a, rfl, h⟩
  | error s => cases h

theorem require_ok {p : Prop} [Decidable p] {r : Checked β} {b : β}
    (h : (require p >>= fun _ => r) = .ok b) : p ∧ r = .ok b := by
  by_cases hp : p
  · rw [require_pos hp, ok_bind] at h
    exact ⟨hp, h⟩
  · rw [require_neg hp] at h
    cases h

theorem require_and {p q : Prop} [Decidable p] [Decidable q] {r : Checked β} :
    (require (p ∧ q) >>= fun _ => r) = require p >>= fun _ => require q >>= fun _ => r := by
  by_cases hp : p
  · rw [require_pos hp, ok_bind]
    by_cases hq : q
    · rw [require_pos hq, require_pos ⟨hp, hq⟩]
    · rw [require_neg hq, require_neg fun h => hq h.2]
  · rw [require_neg hp, require_neg fun h => hp h.1]
    rfl

/-! ## runs that a condition decides -/

/-- it succeeds where the condition holds, and makes an access outside where it does not -/
def Decided (x : Checked α) (inside : Prop) : Prop :=
  (inside → ∃ a, x = .ok a) ∧ (¬inside → x = .error .outside)

namespace Decided

variable {p p' : Prop} {q : α → Prop}

theorem of_ok {a : α} (h : x = .ok a) : Decided x True := ⟨fun _ => ⟨a, h⟩, fun h => (h trivial).elim⟩

theorem congr (h : Decided x p) (hp : p ↔ p') : Decided x p' :=
  ⟨fun hp' => h.1 (hp.mpr hp'), fun hp' => h.2 fun hp'' => hp' (hp.mp hp'')⟩

theorem within_iff (hsize : 0 < size) : Decided (within length offset size) (offset + size ≤ length) :=
  ⟨fun h => ⟨(), within_of_le h⟩, fun h => within_of_lt hsize (Nat.lt_of_not_le h)⟩

theorem bind (h : Decided x p) (hf : ∀ a, x = .ok a → Decided (f a) (q a)) :
    Decided (x >>= f) (p ∧ ∀ a, x = .ok a → q a) := by
  constructor
  · rintro ⟨hp, hq⟩
    obtain ⟨a, ha⟩ := h.1 hp
    rw [ha, ok_bind]
    exact (hf a ha).1 (hq a ha)
  · intro hnot
    by_cases hp : p
    · obtain ⟨a, ha⟩ := h.1 hp
      rw [ha, ok_bind]
      refine (hf a ha).2 fun hq => hnot ⟨hp, fun a' ha' => ?_⟩
      obtain rfl := Except.ok.inj (ha.symm.trans ha')
      exact hq
    · rw [h.2 hp, error_bind]

theorem bind_ok (h : Decided x p) (hf : ∀ a, x = .ok a → ∃ b, f a = .ok b) : Decided (x >>= f) p :=
  (h.bind (q := fun _ => True) fun a ha => of_ok (hf a ha).choose_spec).congr
    ⟨fun h => h.1, fun h => ⟨h, fun _ _ => trivial⟩⟩

theorem safe_iff (h : Decided x p) : Safe x ↔ p := by
  constructor
  · intro hsafe
    by_contra hp
    exact hsafe (h.2 hp)
  · intro hp
    obtain ⟨a, ha⟩ := h.1 hp
    rw [ha]
    exact safe_ok a

theorem finishes (h : Decided x p) : Finishes x := by
  by_cases hp : p
  · obtain ⟨a, ha⟩ := h.1 hp
    rw [ha]
    exact fun hstop => (by cases hstop)
  · rw [h.2 hp]
    exact fun hstop => (by cases hstop)

end Decided

theorem mapM_checked (inside : α → Prop) [DecidablePred inside] (value : α → β) (xs : List α) :
    xs.mapM (fun x => if inside x then .ok (value x) else (.error .outside : Checked β)) =
      if ∀ x ∈ xs, inside x then .ok (xs.map value) else .error .outside := by
  induction xs with
  | nil => rw [if_pos (by simp)]; rfl
  | cons x xs ih =>
    rw [List.mapM_cons, ih]
    by_cases hx : inside x
    · rw [if_pos hx, ok_bind]
      by_cases hxs : ∀ x ∈ xs, inside x
      · rw [if_pos hxs, ok_bind, if_pos (List.forall_mem_cons.mpr ⟨hx, hxs⟩)]
        rfl
      · rw [if_neg hxs, error_bind, if_neg fun h => hxs (List.forall_mem_cons.mp h).2]
    · rw [if_neg hx, error_bind, if_neg fun h => hx (List.forall_mem_cons.mp h).1]

/-! ## scans -/

/-- at most `n` elements of what is left of a buffer, up to one that ends the scan -/
def scan (stop : α → Bool) : Nat → List α → Checked (List α)
  | 0, _ => .ok []
  | _ + 1, [] => .error .outside
  | n + 1, x :: xs =>
    if stop x then .ok []
    else scan stop n xs >>= fun rest => .ok (x :: rest)

/-- there are as many, or one of them ends the scan -/
def Ends (stop : α → Bool) (n : Nat) (xs : List α) : Prop := n ≤ xs.length ∨ ∃ x ∈ xs, stop x

instance (stop : α → Bool) (n : Nat) (xs : List α) : Decidable (Ends stop n xs) :=
  inferInstanceAs (Decidable (_ ∨ _))

theorem scan_eq (stop : α → Bool) (n : Nat) (xs : List α) :
    scan stop n xs =
      if Ends stop n xs then .ok ((xs.take n).takeWhile fun x => !stop x) else .error .outside := by
  induction n generalizing xs with
  | zero => exact (if_pos (.inl (Nat.zero_le _))).symm
  | succ n ih =>
    cases xs with
    | nil => exact (if_neg (by simp [Ends])).symm
    | cons x xs =>
      show (if stop x then _ else _) = _
      rw [ih xs, List.take_succ_cons, List.takeWhile_cons]
      by_cases hx : stop x = true
      · rw [if_pos hx, if_pos (.inr ⟨x, List.mem_cons_self, hx⟩), hx]
        rfl
      · have hends : Ends stop (n + 1) (x :: xs) ↔ Ends stop n xs := by simp [Ends, hx]
        rw [if_neg hx]
        by_cases h : Ends stop n xs
        · rw [if_pos h, if_pos (hends.mpr h), ok_bind, if_pos (by simp [hx])]
        · rw [if_neg h, if_neg fun h' => h (hends.mp h'), error_bind]

end Streams
