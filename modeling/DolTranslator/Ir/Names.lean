import DolTranslator.Ir.Nodes

/-!
# Names, taken apart and put together

What `stripNumericSuffix` does to a name that was built from a base and a number, and to a name
without an underscore.
-/

namespace DolTranslator

theorem toList_toString (n : Nat) : (toString n).toList = Nat.toDigits 10 n := by
  simp [toString]

theorem toString_inj {m n : Nat} (h : toString m = toString n) : m = n := by
  have h' := congrArg (fun s => Nat.ofDigitChars 10 s.toList 0) h
  simp only [toList_toString] at h'
  rwa [Nat.ofDigitChars_toDigits (by decide) (by decide),
    Nat.ofDigitChars_toDigits (by decide) (by decide)] at h'

theorem isDigit_of_mem_toString {n : Nat} {c : Char} (h : c ∈ (toString n).toList) :
    c.isDigit = true := by
  rw [toList_toString] at h
  exact Nat.isDigit_of_mem_toDigits (by decide) (by decide) h

theorem span_digits (digits front : List Char) (h : ∀ c ∈ digits, c.isDigit = true) :
    (digits ++ '_' :: front).span (· ≠ '_') = (digits, '_' :: front) := by
  have hne : ∀ c ∈ digits, decide (c ≠ '_') = true := by
    intro c hc
    have hd := h c hc
    rw [decide_eq_true_eq]
    rintro rfl
    exact absurd hd (by decide)
  rw [List.span_eq_takeWhile_dropWhile, List.takeWhile_append_of_pos hne,
    List.dropWhile_append_of_pos hne]
  simp

theorem stripChars_append {front digits : List Char} (hf : front ≠ [])
    (hd : ∀ c ∈ digits, c.isDigit = true) :
    stripNumericSuffixChars (front ++ '_' :: digits) = front := by
  have hd' : ∀ c ∈ digits.reverse, c.isDigit = true := fun c hc => hd c (List.mem_reverse.mp hc)
  have hrev : (front ++ '_' :: digits).reverse = digits.reverse ++ '_' :: front.reverse := by simp
  rw [stripNumericSuffixChars, hrev, span_digits _ _ hd']
  have hcond : front.reverse ≠ [] ∧ digits.reverse.all Char.isDigit = true :=
    ⟨by simpa using hf, List.all_eq_true.mpr hd'⟩
  exact (if_pos hcond).trans (List.reverse_reverse _)

theorem stripChars_of_no_underscore {cs : List Char} (h : '_' ∉ cs) :
    stripNumericSuffixChars cs = cs := by
  have hspan : cs.reverse.span (· ≠ '_') = (cs.reverse, []) := by
    have hp : ∀ c ∈ cs.reverse, decide (c ≠ '_') = true := by
      intro c hc
      rw [decide_eq_true_eq]
      rintro rfl
      exact h (List.mem_reverse.mp hc)
    rw [List.span_eq_takeWhile_dropWhile, List.takeWhile_eq_self_iff.mpr hp,
      List.dropWhile_eq_nil_iff.mpr hp]
  rw [stripNumericSuffixChars, hspan]

/-! ## case -/

theorem toLower_cases (c : Char) : c.toLower = c ∨
    ∃ n, n < 26 ∧ c = Char.ofNat (65 + n) ∧ c.toLower = Char.ofNat (97 + n) := by
  by_cases h : 65 ≤ c.toNat ∧ c.toNat ≤ 90
  · refine Or.inr ⟨c.toNat - 65, by omega, ?_, ?_⟩
    · rw [show 65 + (c.toNat - 65) = c.toNat by omega, Char.ofNat_toNat]
    · have e : c = Char.ofNat c.toNat := (Char.ofNat_toNat c).symm
      obtain ⟨h1, h2⟩ := h
      generalize c.toNat = n at e h1 h2
      subst e
      interval_cases n <;> decide
  · left
    unfold Char.toLower
    exact dif_neg h

theorem toLower_eq_underscore (c : Char) : c.toLower = '_' ↔ c = '_' := by
  rcases toLower_cases c with h | ⟨n, hn, hc, hl⟩
  · rw [h]
  · rw [hl, hc]
    interval_cases n <;> decide

theorem isDigit_toLower (c : Char) : c.toLower.isDigit = c.isDigit := by
  rcases toLower_cases c with h | ⟨n, hn, hc, hl⟩
  · rw [h]
  · rw [hl, hc]
    interval_cases n <;> decide

theorem toList_foldCase (name : String) :
    (foldCase name).toList = name.toList.map Char.toLower := by
  simp [foldCase]

theorem foldCase_foldCase (name : String) : foldCase (foldCase name) = foldCase name := by
  rw [foldCase, toList_foldCase, List.map_map, foldCase]
  congr 1
  exact List.map_congr_left fun c _ => c.toLower_toLower_eq_toLower

theorem span_map_toLower (cs : List Char) : (cs.map Char.toLower).span (· ≠ '_') =
    ((cs.span (· ≠ '_')).1.map Char.toLower, (cs.span (· ≠ '_')).2.map Char.toLower) := by
  have hp : (fun c => decide (c ≠ '_')) ∘ Char.toLower = fun c => decide (c ≠ '_') := by
    funext c
    simp only [Function.comp_apply, ne_eq, toLower_eq_underscore]
  rw [List.span_eq_takeWhile_dropWhile, List.span_eq_takeWhile_dropWhile, List.takeWhile_map,
    List.dropWhile_map, hp]

theorem span_underscore {cs front rest : List Char} {u : Char}
    (h : cs.span (· ≠ '_') = (front, u :: rest)) : u = '_' := by
  rw [List.span_eq_takeWhile_dropWhile] at h
  have hhead := List.head?_dropWhile_not (fun c => decide (c ≠ '_')) cs
  rw [(Prod.mk.inj h).2] at hhead
  simpa using hhead

theorem all_isDigit_map_toLower (digits : List Char) :
    (digits.map Char.toLower).all Char.isDigit = digits.all Char.isDigit := by
  rw [List.all_map, show Char.isDigit ∘ Char.toLower = Char.isDigit from funext isDigit_toLower]

theorem stripChars_map_toLower (cs : List Char) :
    stripNumericSuffixChars (cs.map Char.toLower) = (stripNumericSuffixChars cs).map Char.toLower := by
  unfold stripNumericSuffixChars
  rw [← List.map_reverse, span_map_toLower]
  rcases hspan : cs.reverse.span (· ≠ '_') with ⟨digits, _ | ⟨u, front⟩⟩
  · rfl
  · obtain rfl := span_underscore hspan
    show (if _ then _ else _) = List.map Char.toLower (if _ then _ else _)
    simp only [all_isDigit_map_toLower, ne_eq, List.map_eq_nil_iff, List.map_reverse,
      apply_ite (List.map Char.toLower)]

theorem strip_foldCase (name : String) :
    stripNumericSuffix (foldCase name) = foldCase (stripNumericSuffix name) := by
  rw [stripNumericSuffix, toList_foldCase, stripChars_map_toLower, foldCase, stripNumericSuffix,
    String.toList_ofList]

end DolTranslator
