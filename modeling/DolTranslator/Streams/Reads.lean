import DolTranslator.Streams.Records

/-!
# Reads made of pieces

A reader serves a range front to back, one piece after another; a piece may change the reader's
state, and may fail.

* `window`   the values a range of positions holds;
* `readPieces`   the loop over the pieces;
* `Serves.reads`   pieces that are windows of one content make a read that is its window;
* `readPieces_window`   a read that finishes is the windows of its pieces;
* `readPieces_follow`   a reader that repeats the pieces of another repeats its reads;
* `Visits`   what holds whenever a piece of the read begins.
-/

namespace Streams

variable {σ τ β : Type}

/-! ## windows -/

def window (byte : Nat → β) (offset n : Nat) : List β :=
  (List.range n).map fun i => byte (offset + i)

variable {byte byte' : Nat → β} {offset size m n : Nat}

@[simp] theorem window_zero (byte : Nat → β) (offset : Nat) : window byte offset 0 = [] := rfl

@[simp] theorem length_window (byte : Nat → β) (offset n : Nat) :
    (window byte offset n).length = n := by
  unfold window
  rw [List.length_map, List.length_range]

theorem window_succ (byte : Nat → β) (offset n : Nat) :
    window byte offset (n + 1) = byte offset :: window byte (offset + 1) n := by
  unfold window
  rw [List.range_succ_eq_map, List.map_cons, List.map_map]
  congr 1
  refine List.map_congr_left fun i _ => ?_
  show byte (offset + (i + 1)) = byte (offset + 1 + i)
  congr 1
  omega

theorem window_add (byte : Nat → β) (offset m n : Nat) :
    window byte offset (m + n) = window byte offset m ++ window byte (offset + m) n := by
  induction m generalizing offset with
  | zero => rw [Nat.zero_add, window_zero, List.nil_append, Nat.add_zero]
  | succ m ih =>
    rw [show m + 1 + n = m + n + 1 by omega, window_succ, window_succ, ih, List.cons_append]
    rw [show offset + 1 + m = offset + (m + 1) by omega]

theorem window_congr {offset' : Nat} (h : ∀ i < n, byte (offset + i) = byte' (offset' + i)) :
    window byte offset n = window byte' offset' n :=
  List.map_congr_left fun i hi => h i (List.mem_range.mp hi)

theorem getElem?_window (byte : Nat → β) (offset : Nat) {i : Nat} (hi : i < n) :
    (window byte offset n)[i]? = some (byte (offset + i)) := by
  unfold window
  rw [List.getElem?_map, List.getElem?_range hi]
  rfl

theorem window_const {b : β} (h : ∀ i < n, byte (offset + i) = b) :
    window byte offset n = List.replicate n b := by
  refine List.eq_replicate_iff.mpr ⟨length_window byte offset n, fun x hx => ?_⟩
  obtain ⟨i, hi, rfl⟩ := List.mem_map.mp hx
  exact h i (List.mem_range.mp hi)

theorem slice_eq_window (xs : List β) (b : β) (h : offset + n ≤ xs.length) :
    slice xs offset n = window (fun i => xs.getD i b) offset n := by
  apply List.ext_getElem?
  intro i
  unfold slice window
  by_cases hi : i < n
  · rw [List.getElem?_take_of_lt hi, List.getElem?_drop, List.getElem?_map,
      List.getElem?_range hi]
    show xs[offset + i]? = some (xs[offset + i]?.getD b)
    rw [List.getElem?_eq_getElem (by omega), Option.getD_some]
  · rw [List.getElem?_eq_none (by rw [List.length_take]; omega),
      List.getElem?_eq_none (by rw [List.length_map, List.length_range]; omega)]

/-! ## the loop -/

section Loop

variable (piece : σ → Nat → Nat → σ × Option (List β))

/-- the pieces of a read; `fuel` counts those that are left to make -/
def readPieces : Nat → σ → Nat → Nat → σ × Option (List β)
  | _, s, _, 0 => (s, some [])
  | 0, s, _, _ + 1 => (s, none)
  | fuel + 1, s, offset, size + 1 =>
    match piece s offset (size + 1) with
    | (s, none) => (s, none)
    | (s, some bytes) =>
      let rest := readPieces fuel s (offset + bytes.length) (size + 1 - bytes.length)
      (rest.1, rest.2.map (bytes ++ ·))

/-- a piece has at least one value, so `size` pieces are enough -/
def readAll (s : σ) (offset size : Nat) : σ × Option (List β) :=
  readPieces piece size s offset size

/-- whenever a piece begins, `ok` holds -/
def Visits (ok : σ → Nat → Nat → Prop) : Nat → σ → Nat → Nat → Prop
  | _, _, _, 0 => True
  | 0, _, _, _ + 1 => True
  | fuel + 1, s, offset, size + 1 =>
    ok s offset (size + 1) ∧
      match piece s offset (size + 1) with
      | (_, none) => True
      | (s, some bytes) =>
        Visits ok fuel s (offset + bytes.length) (size + 1 - bytes.length)

end Loop

variable {piece : σ → Nat → Nat → σ × Option (List β)} {ok : σ → Nat → Nat → Prop}
  {fuel : Nat} {s s' : σ} {bytes : List β}

@[simp] theorem readPieces_zero : readPieces piece fuel s offset 0 = (s, some []) := by
  cases fuel <;> rfl

theorem readPieces_none (hsize : 0 < size) (h : piece s offset size = (s', none)) :
    readPieces piece (fuel + 1) s offset size = (s', none) := by
  obtain ⟨size, rfl⟩ := Nat.exists_eq_add_of_lt hsize
  rw [Nat.zero_add] at h ⊢
  unfold readPieces
  rw [h]

theorem readPieces_some (hsize : 0 < size) (h : piece s offset size = (s', some bytes)) :
    readPieces piece (fuel + 1) s offset size =
      ((readPieces piece fuel s' (offset + bytes.length) (size - bytes.length)).1,
        (readPieces piece fuel s' (offset + bytes.length) (size - bytes.length)).2.map
          (bytes ++ ·)) := by
  obtain ⟨size, rfl⟩ := Nat.exists_eq_add_of_lt hsize
  rw [Nat.zero_add] at h ⊢
  conv => lhs; unfold readPieces
  rw [h]

theorem visits_cons (hsize : 0 < size) (h : Visits piece ok (fuel + 1) s offset size) :
    ok s offset size ∧ ∀ s' bytes, piece s offset size = (s', some bytes) →
      Visits piece ok fuel s' (offset + bytes.length) (size - bytes.length) := by
  obtain ⟨size, rfl⟩ := Nat.exists_eq_add_of_lt hsize
  rw [Nat.zero_add] at h ⊢
  unfold Visits at h
  refine ⟨h.1, fun s' bytes hp => ?_⟩
  have h2 := h.2
  rw [hp] at h2
  exact h2

theorem visits_one (h : ok s offset 1) : Visits piece ok 1 s offset 1 := by
  unfold Visits
  refine ⟨h, ?_⟩
  split
  · exact trivial
  · next bytes _ => cases h1 : 0 + 1 - bytes.length <;> exact trivial

theorem visits_of_forall (ok : σ → Nat → Nat → Prop) (h : ∀ s offset size, ok s offset size) :
    Visits piece ok fuel s offset size := by
  induction fuel generalizing s offset size with
  | zero => cases size <;> exact trivial
  | succ fuel ih =>
    cases size with
    | zero => exact trivial
    | succ size =>
      unfold Visits
      refine ⟨h _ _ _, ?_⟩
      split
      · exact trivial
      · exact ih

theorem readPieces_invariant (I : σ → Prop) (ok : σ → Nat → Nat → Prop)
    (hpiece : ∀ s offset size, 0 < size → I s → ok s offset size → I (piece s offset size).1)
    (hs : I s) (h : Visits piece ok fuel s offset size) :
    I (readPieces piece fuel s offset size).1 := by
  induction fuel generalizing s offset size with
  | zero => cases size <;> exact hs
  | succ fuel ih =>
    rcases Nat.eq_zero_or_pos size with rfl | hsize
    · rw [readPieces_zero]
      exact hs
    · obtain ⟨hok, hrest⟩ := visits_cons hsize h
      have hkeep := hpiece s offset size hsize hs hok
      cases hp : piece s offset size with
      | mk s' result =>
        rw [hp] at hkeep
        cases result with
        | none =>
          rw [readPieces_none hsize hp]
          exact hkeep
        | some bytes =>
          rw [readPieces_some hsize hp]
          exact ih hkeep (hrest s' bytes hp)

/-- the induction over the pieces of a read that finishes -/
theorem readPieces_induction {P : σ → Nat → Nat → List β → Prop}
    (hdone : ∀ s offset, P s offset 0 [])
    (hmore : ∀ s offset size s' taken rest, 0 < size → piece s offset size = (s', some taken) →
      P s' (offset + taken.length) (size - taken.length) rest → P s offset size (taken ++ rest))
    (h : (readPieces piece fuel s offset size).2 = some bytes) : P s offset size bytes := by
  induction fuel generalizing s offset size bytes with
  | zero =>
    cases size with
    | zero =>
      obtain rfl := Option.some.inj h
      exact hdone s offset
    | succ size => cases h
  | succ fuel ih =>
    rcases Nat.eq_zero_or_pos size with rfl | hsize
    · rw [readPieces_zero] at h
      obtain rfl := Option.some.inj h
      exact hdone s offset
    · rcases hp : piece s offset size with ⟨s', _ | taken⟩
      · rw [readPieces_none hsize hp] at h
        cases h
      · rw [readPieces_some hsize hp] at h
        obtain ⟨more, hmore', rfl⟩ := Option.map_eq_some_iff.mp h
        exact hmore s offset size s' taken more hsize hp (ih hmore')

theorem length_readPieces
    (hpiece : ∀ s offset size s' bytes, piece s offset size = (s', some bytes) →
      bytes.length ≤ size)
    (h : (readPieces piece fuel s offset size).2 = some bytes) : bytes.length = size := by
  refine readPieces_induction (P := fun _ _ size bytes => bytes.length = size)
    (fun _ _ => rfl) (fun s offset size s' taken more _ hp ih => ?_) h
  have hle := hpiece s offset size s' taken hp
  rw [List.length_append, ih]
  omega

theorem readPieces_inside (inside : Nat → Prop)
    (hpiece : ∀ s offset size s' bytes, 0 < size → piece s offset size = (s', some bytes) →
      ∀ i < bytes.length, inside (offset + i))
    (h : (readPieces piece fuel s offset size).2 = some bytes) :
    ∀ i < size, inside (offset + i) := by
  refine readPieces_induction (P := fun _ offset size _ => ∀ i < size, inside (offset + i))
    (fun _ _ i hi => by cases hi) (fun s offset size s' taken _ hsize hp ih i hi => ?_) h
  by_cases hfirst : i < taken.length
  · exact hpiece s offset size s' taken hsize hp i hfirst
  · have hrest := ih (i - taken.length) (by omega)
    rwa [show offset + taken.length + (i - taken.length) = offset + i by omega] at hrest

/-- **A read that finishes has the values of its pieces**, each of which is a window of one content
while it stays inside. -/
theorem readPieces_window {γ : Type} (value : β → γ) {content : Nat → γ} (I : σ → Prop)
    (inside : Nat → Prop)
    (hpiece : ∀ s offset size s' bytes, 0 < size → I s → (∀ i < size, inside (offset + i)) →
      piece s offset size = (s', some bytes) →
      I s' ∧ bytes.length ≤ size ∧ bytes.map value = window content offset bytes.length)
    (hs : I s) (hin : ∀ i < size, inside (offset + i))
    (h : (readPieces piece fuel s offset size).2 = some bytes) :
    bytes.map value = window content offset size := by
  refine readPieces_induction (P := fun s offset size bytes => I s →
    (∀ i < size, inside (offset + i)) → bytes.map value = window content offset size)
    (fun _ _ _ _ => rfl) (fun s offset size s' taken more hsize hp ih hs hin => ?_) h hs hin
  obtain ⟨hs', hle, htaken⟩ := hpiece s offset size s' taken hsize hs hin hp
  have hrest := ih hs' fun i hi => by
    have := hin (taken.length + i) (by omega)
    rwa [← Nat.add_assoc] at this
  rw [List.map_append, htaken, hrest, ← window_add, Nat.add_sub_cancel' hle]

/-! ## content -/

/-- while `I` holds, every piece inside `inside` succeeds with a window of `byte` -/
def Serves (piece : σ → Nat → Nat → σ × Option (List β)) (I : σ → Prop) (inside : Nat → Prop)
    (byte : Nat → β) : Prop :=
  ∀ s offset size, I s → 0 < size → (∀ i < size, inside (offset + i)) →
    ∃ s' n, I s' ∧ 0 < n ∧ n ≤ size ∧ piece s offset size = (s', some (window byte offset n))

theorem Serves.readPieces {I : σ → Prop} {inside : Nat → Prop} (h : Serves piece I inside byte)
    (hs : I s) (hfuel : size ≤ fuel) (hin : ∀ i < size, inside (offset + i)) :
    ∃ s', I s' ∧
      readPieces piece fuel s offset size = (s', some (window byte offset size)) := by
  induction fuel generalizing s offset size with
  | zero =>
    obtain rfl : size = 0 := by omega
    exact ⟨s, hs, rfl⟩
  | succ fuel ih =>
    rcases Nat.eq_zero_or_pos size with rfl | hsize
    · exact ⟨s, hs, readPieces_zero⟩
    · obtain ⟨s1, n, hs1, hn, hle, hp⟩ := h s offset size hs hsize hin
      have hin' : ∀ i < size - n, inside (offset + n + i) := fun i hi => by
        have := hin (n + i) (by omega)
        rwa [← Nat.add_assoc] at this
      obtain ⟨s2, hs2, hread⟩ := ih hs1 (show size - n ≤ fuel by omega) hin'
      refine ⟨s2, hs2, ?_⟩
      rw [readPieces_some hsize hp, length_window, hread]
      show (s2, some (window byte offset n ++ window byte (offset + n) (size - n))) = _
      rw [← window_add, Nat.add_sub_cancel' hle]

/-- **A reader whose pieces are windows of one content reads windows of it.** -/
theorem Serves.reads {I : σ → Prop} {inside : Nat → Prop} (h : Serves piece I inside byte)
    (offset size : Nat) (hs : I s) (hin : ∀ i < size, inside (offset + i)) :
    ∃ s', I s' ∧ readAll piece s offset size = (s', some (window byte offset size)) :=
  h.readPieces hs (Nat.le_refl size) hin

/-- **A reader that finishes every piece another one finishes, with the same values, finishes its
reads so too.** -/
theorem readPieces_follow {piece' : τ → Nat → Nat → τ × Option (List β)} {R : σ → τ → Prop}
    (hpiece : ∀ s t offset size bytes, R s t → 0 < size →
      (piece s offset size).2 = some bytes →
      (piece' t offset size).2 = some bytes ∧ R (piece s offset size).1 (piece' t offset size).1)
    {t : τ} (hR : R s t) (h : (readPieces piece fuel s offset size).2 = some bytes) :
    (readPieces piece' fuel t offset size).2 = some bytes := by
  induction fuel generalizing s t offset size bytes with
  | zero =>
    cases size with
    | zero => exact h
    | succ size => cases h
  | succ fuel ih =>
    rcases Nat.eq_zero_or_pos size with rfl | hsize
    · rw [readPieces_zero] at h ⊢
      exact h
    · cases hp : piece s offset size with
      | mk s' result =>
        cases result with
        | none =>
          rw [readPieces_none hsize hp] at h
          cases h
        | some taken =>
          obtain ⟨htaken, hnext⟩ := hpiece s t offset size taken hR hsize (by rw [hp])
          cases hp' : piece' t offset size with
          | mk t' result' =>
            rw [hp'] at htaken hnext
            obtain rfl : result' = some taken := htaken
            rw [hp] at hnext
            rw [readPieces_some hsize hp] at h
            obtain ⟨more, hmore, rfl⟩ := Option.map_eq_some_iff.mp h
            rw [readPieces_some hsize hp']
            show Option.map (taken ++ ·) _ = _
            rw [ih hnext hmore]
            rfl

end Streams
