import Mathlib.Data.List.Flatten
import Mathlib.Data.List.Basic

/-!
# Loops that read an input from front to back

A decoder goes over its input, and writes cells. Its writes and the places that it reads are
recorded; each of its parts takes a fixed length of the input.

* `Pen`   the place in the input, what was written, and what was read;
* `Draws`   a part takes so much, whatever came before it: its writes, and how far it reads;
* `draws_comp`, `draws_range`   parts one after another, and in a loop;
* `exists_range_range`   a loop in a loop, by quotient and remainder.
-/

namespace Streams

variable {K V : Type}

structure Pen (K V : Type) where
  pos : Nat
  writes : List (K × V)
  reads : List Nat

namespace Pen

def start (K V : Type) : Pen K V := ⟨0, [], []⟩

def write (pen : Pen K V) (key : K) (value : V) : Pen K V :=
  { pen with writes := pen.writes ++ [(key, value)] }

def read (pen : Pen K V) (places : List Nat) : Pen K V :=
  { pen with reads := pen.reads ++ places.map (pen.pos + ·) }

def skip (pen : Pen K V) (n : Nat) : Pen K V := { pen with pos := pen.pos + n }

end Pen

/-- a part that takes `n` of the input and reads less than `b` ahead: what it writes when it starts at
a place -/
def Draws (n b : Nat) (W : Nat → List (K × V)) (f : Pen K V → Pen K V) : Prop :=
  ∀ pen, ∃ reads, f pen = ⟨pen.pos + n, pen.writes ++ W pen.pos, pen.reads ++ reads⟩ ∧
    ∀ r ∈ reads, pen.pos ≤ r ∧ r < pen.pos + b

variable {n n' b b' : Nat} {W W' : Nat → List (K × V)} {f f' : Pen K V → Pen K V}

theorem draws_id : Draws 0 0 (fun _ => []) (fun pen : Pen K V => pen) := by
  intro pen
  refine ⟨[], ?_, fun r hr => absurd hr List.not_mem_nil⟩
  rw [List.append_nil, List.append_nil]
  rfl

theorem Draws.skip (h : Draws n b W f) (k : Nat) : Draws (n + k) b W fun pen => (f pen).skip k := by
  intro pen
  obtain ⟨reads, hf, hreads⟩ := h pen
  refine ⟨reads, ?_, hreads⟩
  show (f pen).skip k = _
  rw [hf]
  exact congrArg (fun p => (⟨p, _, _⟩ : Pen K V)) (Nat.add_assoc ..)

theorem Draws.mono (h : Draws n b W f) (hb : b ≤ b') : Draws n b' W f := by
  intro pen
  obtain ⟨reads, hf, hreads⟩ := h pen
  refine ⟨reads, hf, fun r hr => ?_⟩
  have hin := hreads r hr
  omega

theorem draws_read {places : List Nat} (hplaces : ∀ k ∈ places, k < b) :
    Draws 0 b (fun _ => []) (fun pen : Pen K V => pen.read places) := by
  intro pen
  refine ⟨places.map (pen.pos + ·), ?_, fun r hr => ?_⟩
  · rw [List.append_nil]
    rfl
  · obtain ⟨k, hk, rfl⟩ := List.mem_map.mp hr
    have hlt := hplaces k hk
    omega

theorem draws_write (key : K) (value : V) :
    Draws 0 0 (fun _ => [(key, value)]) (fun pen : Pen K V => pen.write key value) := by
  intro pen
  refine ⟨[], ?_, fun r hr => absurd hr List.not_mem_nil⟩
  rw [List.append_nil]
  rfl

theorem draws_at {W : Nat → Nat → List (K × V)} {f : Nat → Pen K V → Pen K V}
    (h : ∀ p, Draws n b (W p) (f p)) : Draws n b (fun p => W p p) (fun pen => f pen.pos pen) :=
  fun pen => h pen.pos pen

theorem draws_read_write {places : List Nat} (key : K) (value : Nat → V)
    (hplaces : ∀ k ∈ places, k < b) :
    Draws 0 b (fun p => [(key, value p)])
      (fun pen : Pen K V => (pen.read places).write key (value pen.pos)) := by
  intro pen
  refine ⟨places.map (pen.pos + ·), rfl, fun r hr => ?_⟩
  obtain ⟨k, hk, rfl⟩ := List.mem_map.mp hr
  have hlt := hplaces k hk
  omega

theorem draws_comp (h : Draws n b W f) (h' : Draws n' b' W' f') {m : Nat} (hb : b ≤ m)
    (hb' : n + b' ≤ m) :
    Draws (n + n') m (fun p => W p ++ W' (p + n)) (fun pen => f' (f pen)) := by
  intro pen
  obtain ⟨reads, hf, hreads⟩ := h pen
  obtain ⟨reads', hf', hreads'⟩ := h' (f pen)
  rw [hf] at hf' hreads'
  refine ⟨reads ++ reads', ?_, fun r hr => ?_⟩
  · show f' (f pen) = _
    rw [hf, hf', ← List.append_assoc, ← List.append_assoc, ← Nat.add_assoc]
  · rcases List.mem_append.mp hr with hr | hr
    · have hin := hreads r hr
      omega
    · have hin : pen.pos + n ≤ r ∧ r < pen.pos + n + b' := hreads' r hr
      omega

/-- a loop: each time round takes as much -/
theorem draws_range {W : Nat → Nat → List (K × V)} {f : Nat → Pen K V → Pen K V} {m : Nat}
    (k : Nat) (h : ∀ i < k, Draws n b (W i) (f i)) (hm : ∀ i < k, i * n + b ≤ m) :
    Draws (k * n) m (fun p => (List.range k).flatMap fun i => W i (p + i * n))
      (fun pen => (List.range k).foldl (fun pen i => f i pen) pen) := by
  intro pen
  induction k with
  | zero =>
    refine ⟨[], ?_, fun r hr => absurd hr List.not_mem_nil⟩
    show pen = ⟨pen.pos + 0 * n, pen.writes ++ [], pen.reads ++ []⟩
    rw [Nat.zero_mul, List.append_nil, List.append_nil]
    rfl
  | succ k ih =>
    obtain ⟨reads, hf, hreads⟩ := ih (fun i hi => h i (Nat.lt_succ_of_lt hi))
      (fun i hi => hm i (Nat.lt_succ_of_lt hi))
    have hf : (List.range k).foldl (fun pen i => f i pen) pen = _ := hf
    obtain ⟨reads', hf', hreads'⟩ := h k (Nat.lt_succ_self k)
      ((List.range k).foldl (fun pen i => f i pen) pen)
    rw [hf] at hf' hreads'
    refine ⟨reads ++ reads', ?_, fun r hr => ?_⟩
    · show (List.range (k + 1)).foldl (fun pen i => f i pen) pen = ⟨pen.pos + (k + 1) * n,
        pen.writes ++ (List.range (k + 1)).flatMap fun i => W i (pen.pos + i * n), _⟩
      rw [List.range_succ, List.foldl_append, hf]
      refine hf'.trans ?_
      rw [List.flatMap_append, List.flatMap_singleton, Nat.succ_mul, Nat.add_assoc, List.append_assoc,
        List.append_assoc]
    · have hlast := hm k (Nat.lt_succ_self k)
      rcases List.mem_append.mp hr with hr | hr
      · exact hreads r hr
      · have hin : pen.pos + k * n ≤ r ∧ r < pen.pos + k * n + b := hreads' r hr
        omega

theorem draws_within {W : Nat → Nat → List (K × V)} {f : Nat → Pen K V → Pen K V} (k : Nat)
    (h : ∀ i < k, Draws 0 b (W i) (f i)) :
    Draws 0 b (fun p => (List.range k).flatMap fun i => W i p)
      (fun pen => (List.range k).foldl (fun pen i => f i pen) pen) :=
  draws_range k h fun i _ => by omega

theorem exists_range_range {a b : Nat} {p : Nat → Nat → Prop} :
    (∃ i < a, ∃ j < b, p i j) ↔ ∃ k < a * b, p (k / b) (k % b) := by
  constructor
  · rintro ⟨i, hi, j, hj, h⟩
    have hle : (i + 1) * b ≤ a * b := Nat.mul_le_mul_right b hi
    rw [Nat.add_mul, Nat.one_mul] at hle
    refine ⟨i * b + j, by omega, ?_⟩
    rwa [Nat.mul_comm, Nat.mul_add_div (by omega), Nat.div_eq_of_lt hj, Nat.mul_add_mod,
      Nat.mod_eq_of_lt hj]
  · rintro ⟨k, hk, h⟩
    have hb : 0 < b := by
      apply Nat.pos_of_ne_zero
      rintro rfl
      omega
    exact ⟨k / b, Nat.div_lt_of_lt_mul (Nat.mul_comm a b ▸ hk), k % b, Nat.mod_lt k hb, h⟩

theorem exists_blocks {w b : Nat} (hb : 0 < b) {p : Nat → Nat → Prop} :
    (∃ t < (w + b - 1) / b, ∃ i < b, t * b + i < w ∧ p t i) ↔ ∃ x < w, p (x / b) (x % b) := by
  rw [exists_range_range (p := fun t i => t * b + i < w ∧ p t i)]
  apply exists_congr
  intro x
  rw [Nat.div_add_mod']
  constructor
  · rintro ⟨-, hx, h⟩
    exact ⟨hx, h⟩
  · rintro ⟨hx, h⟩
    refine ⟨?_, hx, h⟩
    have hmod := Nat.mod_lt (w + b - 1) hb
    have hdiv := Nat.div_add_mod' (w + b - 1) b
    omega

end Streams
