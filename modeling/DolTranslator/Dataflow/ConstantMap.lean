import Mathlib

/-!
# Maps of known constants

The facts of a constant propagation are finite maps from names to constants.  A map says nothing
about a name that it does not bind.

* `meet`   what all maps of a list agree on;
* `same`   equality, by size and inclusion;
* `rekey`   keeps some names, under a new name;
* `Holds`   the meaning of a map: every binding is true of a given `value` relation.
-/

namespace Dataflow

abbrev ConstantMap (κ α : Type*) := AList fun _ : κ => α

namespace ConstantMap

variable {κ α : Type*} [DecidableEq κ]

section
variable [DecidableEq α]

/-- the bindings of `m` that every map of a list has too -/
def meet (m : ConstantMap κ α) (ms : List (ConstantMap κ α)) : ConstantMap κ α :=
  m.keys.foldl (fun acc k => if ms.any fun m' => m'.lookup k ≠ acc.lookup k then acc.erase k
    else acc) m

def included (a b : ConstantMap κ α) : Bool := a.entries.all fun p => b.lookup p.1 = some p.2

def same (a b : ConstantMap κ α) : Bool := a.entries.length == b.entries.length && included a b

end

def assign (m : ConstantMap κ α) (k : κ) : Option α → ConstantMap κ α
  | some v => m.insert k v
  | none => m.erase k

def rekey (keep : κ → Option κ) (m : ConstantMap κ α) : ConstantMap κ α :=
  m.entries.foldl (fun acc p => match keep p.1 with
    | some k => acc.insert k p.2
    | none => acc) ∅

/-! ## lookups -/

theorem lookup_assign (m : ConstantMap κ α) (k : κ) (v : Option α) :
    (m.assign k v).lookup k = v := by
  cases v with
  | none => exact AList.lookup_erase k m
  | some v => exact AList.lookup_insert m

theorem lookup_assign_ne (m : ConstantMap κ α) {k k' : κ} (v : Option α) (h : k' ≠ k) :
    (m.assign k v).lookup k' = m.lookup k' := by
  cases v with
  | none => exact AList.lookup_erase_ne h
  | some v => exact AList.lookup_insert_ne h

theorem mem_entries_iff (m : ConstantMap κ α) (k : κ) (v : α) :
    (⟨k, v⟩ : Sigma fun _ : κ => α) ∈ m.entries ↔ m.lookup k = some v :=
  AList.mem_lookup_iff.symm

theorem included_iff [DecidableEq α] (a b : ConstantMap κ α) :
    included a b = true ↔ ∀ k v, a.lookup k = some v → b.lookup k = some v := by
  rw [included, List.all_eq_true]
  constructor
  · intro h k v hk
    simpa using h ⟨k, v⟩ ((mem_entries_iff a k v).mpr hk)
  · rintro h ⟨k, v⟩ hm
    simpa using h k v ((mem_entries_iff a k v).mp hm)

theorem same_iff [DecidableEq α] (a b : ConstantMap κ α) :
    same a b = true ↔ ∀ k, a.lookup k = b.lookup k := by
  rw [same, Bool.and_eq_true, beq_iff_eq, included_iff]
  constructor
  · rintro ⟨hlen, hle⟩ k
    have hsub : a.keys ⊆ b.keys := by
      intro x hx
      obtain ⟨v, hv⟩ := Option.isSome_iff_exists.mp (AList.lookup_isSome.mpr hx)
      exact AList.lookup_isSome.mp (Option.isSome_iff_exists.mpr ⟨v, hle x v hv⟩)
    have hperm : a.keys.Perm b.keys := by
      refine (a.keys_nodup.subperm hsub).perm_of_length_le ?_
      show (b.entries.map Sigma.fst).length ≤ (a.entries.map Sigma.fst).length
      rw [List.length_map, List.length_map, hlen]
    cases ha : a.lookup k with
    | some v => exact (hle k v ha).symm
    | none =>
      have hna : k ∉ b.keys := fun hb => AList.lookup_eq_none.mp ha (hperm.mem_iff.mpr hb)
      exact (AList.lookup_eq_none.mpr hna).symm
  · intro h
    refine ⟨?_, fun k v hk => (h k).symm.trans hk⟩
    have hperm : a.keys.Perm b.keys := by
      refine (List.perm_ext_iff_of_nodup a.keys_nodup b.keys_nodup).mpr ?_
      intro k
      show k ∈ a ↔ k ∈ b
      rw [← AList.lookup_isSome, ← AList.lookup_isSome, h k]
    have := hperm.length_eq
    simpa [AList.keys, List.keys] using this

theorem lookup_meet_aux [DecidableEq α] (ms : List (ConstantMap κ α)) (ks : List κ) (k : κ) :
    ks.Nodup → ∀ acc : ConstantMap κ α,
      (ks.foldl (fun acc k => if ms.any fun m' => m'.lookup k ≠ acc.lookup k then acc.erase k
        else acc) acc).lookup k =
      if k ∈ ks ∧ ∃ m' ∈ ms, m'.lookup k ≠ acc.lookup k then none else acc.lookup k := by
  induction ks with
  | nil => exact fun _ acc => by simp
  | cons x ks ih =>
    intro hnd acc
    obtain ⟨hx, hks⟩ := List.nodup_cons.mp hnd
    rw [List.foldl_cons]
    by_cases hany : ∃ m' ∈ ms, m'.lookup x ≠ acc.lookup x
    · have e : (if ms.any fun m' => m'.lookup x ≠ acc.lookup x then acc.erase x else acc) =
          acc.erase x := if_pos (by simpa using hany)
      rw [e, ih hks]
      by_cases hkx : k = x
      · subst hkx
        rw [if_neg fun h => hx h.1, if_pos ⟨List.mem_cons_self, hany⟩, AList.lookup_erase]
      · simp only [AList.lookup_erase_ne hkx, List.mem_cons, hkx, false_or]
    · have e : (if ms.any fun m' => m'.lookup x ≠ acc.lookup x then acc.erase x else acc) =
          acc := if_neg (by simpa using hany)
      rw [e, ih hks]
      by_cases hkx : k = x
      · subst hkx
        rw [if_neg fun h => hany h.2, if_neg fun h => hany h.2]
      · simp only [List.mem_cons, hkx, false_or]

/-- **The meet binds what all maps agree on.** -/
theorem lookup_meet [DecidableEq α] (m : ConstantMap κ α) (ms : List (ConstantMap κ α)) (k : κ)
    (v : α) : (m.meet ms).lookup k = some v ↔
      m.lookup k = some v ∧ ∀ m' ∈ ms, m'.lookup k = some v := by
  rw [meet, lookup_meet_aux ms m.keys k m.keys_nodup m]
  constructor
  · intro h
    split at h
    · cases h
    · rename_i hno
      refine ⟨h, fun m' hm' => ?_⟩
      have hk : k ∈ m.keys := AList.lookup_isSome.mp (Option.isSome_iff_exists.mpr ⟨v, h⟩)
      by_contra hne
      exact hno ⟨hk, m', hm', by rwa [h]⟩
  · rintro ⟨h, hall⟩
    rw [if_neg, h]
    rintro ⟨-, m', hm', hne⟩
    exact hne ((hall m' hm').trans h.symm)

theorem lookup_rekey (keep : κ → Option κ) (m : ConstantMap κ α) {k' : κ} {v : α}
    (h : (rekey keep m).lookup k' = some v) : ∃ k, keep k = some k' ∧ m.lookup k = some v := by
  suffices hs : ∀ (l : List (Sigma fun _ : κ => α)) (acc : ConstantMap κ α),
      (l.foldl (fun acc p => match keep p.1 with
        | some k => acc.insert k p.2
        | none => acc) acc).lookup k' = some v →
      acc.lookup k' = some v ∨ ∃ k, keep k = some k' ∧ (⟨k, v⟩ : Sigma fun _ : κ => α) ∈ l by
    rcases hs m.entries ∅ h with h0 | ⟨k, hk, hm⟩
    · simp at h0
    · exact ⟨k, hk, (mem_entries_iff m k v).mp hm⟩
  intro l
  induction l with
  | nil => exact fun acc h => Or.inl h
  | cons p l ih =>
    intro acc h
    rw [List.foldl_cons] at h
    rcases ih _ h with hacc | ⟨k, hk, hm⟩
    · cases hp : keep p.1 with
      | none =>
        simp only [hp] at hacc
        exact Or.inl hacc
      | some k =>
        simp only [hp] at hacc
        by_cases hkk : k' = k
        · subst hkk
          rw [AList.lookup_insert] at hacc
          cases hacc
          exact Or.inr ⟨p.1, hp, List.mem_cons_self⟩
        · rw [AList.lookup_insert_ne hkk] at hacc
          exact Or.inl hacc
    · exact Or.inr ⟨k, hk, List.mem_cons_of_mem _ hm⟩

/-! ## meaning -/

/-- every binding of the map is true -/
def Holds (value : κ → α → Prop) (m : ConstantMap κ α) : Prop :=
  ∀ k v, m.lookup k = some v → value k v

variable {value value' : κ → α → Prop} {m : ConstantMap κ α}

theorem Holds.empty : Holds value (∅ : ConstantMap κ α) := by
  intro k v h
  simp at h

theorem Holds.mono (h : Holds value m)
    (hv : ∀ k v, m.lookup k = some v → value k v → value' k v) : Holds value' m :=
  fun k v hk => hv k v hk (h k v hk)

theorem Holds.of_lookup {m' : ConstantMap κ α} (h : Holds value m)
    (hl : ∀ k v, m'.lookup k = some v → m.lookup k = some v) : Holds value m' :=
  fun k v hk => h k v (hl k v hk)

theorem Holds.assign (h : Holds value m) {k : κ} {v : Option α}
    (hk : ∀ c, v = some c → value' k c)
    (hne : ∀ k' c, k' ≠ k → m.lookup k' = some c → value k' c → value' k' c) :
    Holds value' (m.assign k v) := by
  intro k' c hl
  by_cases e : k' = k
  · subst e
    rw [lookup_assign] at hl
    exact hk c hl
  · rw [lookup_assign_ne m v e] at hl
    exact hne k' c e hl (h k' c hl)

end ConstantMap

end Dataflow
