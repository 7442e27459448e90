import DolTranslator.Streams.Records

/-!
# Overwriting a range

* `patch`   a list with other values in a range of positions;
* `slice_patch`, `slice_patch_before`, `slice_patch_after`   what is read back;
* `patch_patch`   ranges that meet are one;
* `patchAll`   ranges one after the other; what is apart from all of them is as before.
-/

namespace Streams

variable {β : Type} {xs ys zs : List β} {i n offset : Nat}

def patch (xs : List β) (offset : Nat) (ys : List β) : List β :=
  xs.take offset ++ ys ++ xs.drop (offset + ys.length)

@[simp] theorem patch_nil (xs : List β) (offset : Nat) : patch xs offset [] = xs := by
  unfold patch
  rw [List.append_nil, List.length_nil, Nat.add_zero, List.take_append_drop]

theorem length_patch (h : offset + ys.length ≤ xs.length) :
    (patch xs offset ys).length = xs.length := by
  unfold patch
  rw [List.length_append, List.length_append, List.length_take, List.length_drop]
  omega

theorem slice_patch (h : offset + ys.length ≤ xs.length) :
    slice (patch xs offset ys) offset ys.length = ys := by
  have hlen : (xs.take offset).length = offset := List.length_take_of_le (by omega)
  have hm := slice_middle (xs.take offset) ys (xs.drop (offset + ys.length))
  rw [hlen] at hm
  exact hm

theorem slice_patch_before (h : offset + ys.length ≤ xs.length) (hi : i + n ≤ offset) :
    slice (patch xs offset ys) i n = slice xs i n := by
  have hlen : (xs.take offset).length = offset := List.length_take_of_le (by omega)
  unfold patch
  rw [List.append_assoc, slice_append_left (by omega)]
  conv_rhs => rw [← List.take_append_drop offset xs]
  rw [slice_append_left (by omega)]

theorem slice_patch_after (h : offset + ys.length ≤ xs.length) (hi : offset + ys.length ≤ i) :
    slice (patch xs offset ys) i n = slice xs i n := by
  have hlen : (xs.take offset ++ ys).length = offset + ys.length := by
    rw [List.length_append, List.length_take]
    omega
  have hlen' : (xs.take (offset + ys.length)).length = offset + ys.length :=
    List.length_take_of_le h
  obtain ⟨k, rfl⟩ := Nat.exists_eq_add_of_le hi
  unfold patch
  have hl := slice_append_right (xs.take offset ++ ys) (xs.drop (offset + ys.length)) k n
  have hr := slice_append_right (xs.take (offset + ys.length)) (xs.drop (offset + ys.length)) k n
  rw [hlen] at hl
  rw [hlen', List.take_append_drop] at hr
  rw [hl, hr]

theorem patch_patch (hi : i = offset + ys.length) (h : i + zs.length ≤ xs.length) :
    patch (patch xs offset ys) i zs = patch xs offset (ys ++ zs) := by
  subst hi
  have hlen : (xs.take offset ++ ys).length = offset + ys.length := by
    rw [List.length_append, List.length_take]
    omega
  unfold patch
  rw [List.take_append_of_le_length (by omega), List.take_of_length_le (by omega),
    List.drop_append, hlen, List.drop_of_length_le (by omega), List.nil_append,
    Nat.add_sub_cancel_left, List.drop_drop, List.length_append, List.append_assoc,
    ← Nat.add_assoc]
  simp only [List.append_assoc]

theorem patch_self (hys : slice xs offset ys.length = ys) : patch xs offset ys = xs := by
  have hsplit : xs.take offset ++ (slice xs offset ys.length ++ xs.drop (offset + ys.length)) =
      xs := by
    unfold slice
    rw [← List.drop_drop, List.take_append_drop, List.take_append_drop]
  unfold patch
  rw [hys] at hsplit
  rw [List.append_assoc, hsplit]

/-! ## one range after the other -/

/-- the two ranges do not meet -/
def Apart (i n j m : Nat) : Prop := i + n ≤ j ∨ j + m ≤ i

theorem slice_patch_of_apart (h : offset + ys.length ≤ xs.length)
    (hapart : Apart i n offset ys.length) : slice (patch xs offset ys) i n = slice xs i n := by
  rcases hapart with hbefore | hafter
  · exact slice_patch_before h hbefore
  · exact slice_patch_after h hafter

def patchAll (writes : List (Nat × List β)) (xs : List β) : List β :=
  writes.foldl (fun xs write => patch xs write.1 write.2) xs

variable {writes : List (Nat × List β)}

/-- every write is within the length -/
def Room (writes : List (Nat × List β)) (length : Nat) : Prop :=
  ∀ write ∈ writes, write.1 + write.2.length ≤ length

theorem length_patchAll (h : Room writes xs.length) : (patchAll writes xs).length = xs.length := by
  induction writes generalizing xs with
  | nil => rfl
  | cons write writes ih =>
    have hthis := length_patch (h write List.mem_cons_self)
    show (patchAll writes (patch xs write.1 write.2)).length = _
    rw [ih fun w hw => by rw [hthis]; exact h w (List.mem_cons_of_mem _ hw), hthis]

theorem slice_patchAll_of_apart (h : Room writes xs.length)
    (hapart : ∀ write ∈ writes, Apart i n write.1 write.2.length) :
    slice (patchAll writes xs) i n = slice xs i n := by
  induction writes generalizing xs with
  | nil => rfl
  | cons write writes ih =>
    have hroom := h write List.mem_cons_self
    have hthis := length_patch hroom
    show slice (patchAll writes (patch xs write.1 write.2)) i n = _
    rw [ih (fun w hw => by rw [hthis]; exact h w (List.mem_cons_of_mem _ hw))
      (fun w hw => hapart w (List.mem_cons_of_mem _ hw)),
      slice_patch_of_apart hroom (hapart write List.mem_cons_self)]

theorem slice_patchAll_of_mem (h : Room writes xs.length)
    (hpairwise : writes.Pairwise fun write write' =>
      Apart write.1 write.2.length write'.1 write'.2.length)
    {write : Nat × List β} (hmem : write ∈ writes) :
    slice (patchAll writes xs) write.1 write.2.length = write.2 := by
  induction writes generalizing xs with
  | nil => cases hmem
  | cons first writes ih =>
    have hroom := h first List.mem_cons_self
    have hthis := length_patch hroom
    have hrest : Room writes (patch xs first.1 first.2).length := fun w hw => by
      rw [hthis]
      exact h w (List.mem_cons_of_mem _ hw)
    rw [List.pairwise_cons] at hpairwise
    show slice (patchAll writes (patch xs first.1 first.2)) _ _ = _
    rcases List.mem_cons.mp hmem with rfl | hmem
    · rw [slice_patchAll_of_apart hrest hpairwise.1, slice_patch hroom]
    · exact ih hrest hpairwise.2 hmem

theorem patchAll_self (h : ∀ write ∈ writes, slice xs write.1 write.2.length = write.2) :
    patchAll writes xs = xs := by
  induction writes generalizing xs with
  | nil => rfl
  | cons write writes ih =>
    show patchAll writes (patch xs write.1 write.2) = _
    rw [patch_self (h write List.mem_cons_self)]
    exact ih fun w hw => h w (List.mem_cons_of_mem _ hw)

end Streams
