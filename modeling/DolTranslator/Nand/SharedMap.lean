import DolTranslator.Nand.Installs
import Mathlib.Data.List.GetD
import Mathlib.Data.List.Nodup

/-!
# The shared map, by its hashes

* `ofHashes`   the file of a map, entry by entry, each named by its place;
* `hashesAfter`   the hashes after the contents of a wad, which is what `mapAfter` has;
* `find_ofHashes`, `Normalize_ofHashes`   such a map is searched by hash, and is left as it is.
-/

namespace DolTranslator.Nand

open Disc Streams

/-! ## names -/

theorem isHex_hexDigit : ∀ d < 16, isHex (hexDigit d) = true := by decide

theorem hexDigit_inj : ∀ d < 16, ∀ d' < 16, hexDigit d = hexDigit d' → d = d' := by decide

theorem IsName_Hex8 (value : Nat) : IsName (Hex8 value) = true := by
  unfold IsName Hex8
  rw [List.all_eq_true]
  intro c hc
  obtain ⟨i, _, rfl⟩ := List.mem_map.mp hc
  exact isHex_hexDigit _ (Nat.mod_lt _ (by decide))

theorem Hex8_inj {value value' : Nat} (h : value < 2 ^ 32) (h' : value' < 2 ^ 32)
    (heq : Hex8 value = Hex8 value') : value = value' := by
  have hdigit (i : Nat) (hi : i < 8) : value / 16 ^ (7 - i) % 16 = value' / 16 ^ (7 - i) % 16 := by
    have hat := List.map_inj_left.mp heq i (List.mem_range.mpr hi)
    exact hexDigit_inj _ (Nat.mod_lt _ (by decide)) _ (Nat.mod_lt _ (by decide)) hat
  have h0 := hdigit 0 (by decide)
  have h1 := hdigit 1 (by decide)
  have h2 := hdigit 2 (by decide)
  have h3 := hdigit 3 (by decide)
  have h4 := hdigit 4 (by decide)
  have h5 := hdigit 5 (by decide)
  have h6 := hdigit 6 (by decide)
  have h7 := hdigit 7 (by decide)
  simp only [Nat.reduceSub, Nat.reducePow, Nat.div_one] at h0 h1 h2 h3 h4 h5 h6 h7
  omega

theorem sharedPath_inj {name name' : List UInt8} (h : sharedPath name = sharedPath name') :
    name = name' := List.append_cancel_left (List.append_cancel_right h)

theorem TitlePath_inj {id id' : Nat} (h : id < 2 ^ 64) (h' : id' < 2 ^ 64)
    (heq : TitlePath id = TitlePath id') : id = id' := by
  unfold TitlePath at heq
  obtain ⟨hleft, hlow⟩ := List.append_inj heq rfl
  have hhigh := List.append_cancel_left (List.append_cancel_right hleft)
  have h1 := Hex8_inj (Nat.mod_lt _ (by decide)) (Nat.mod_lt _ (by decide)) hhigh
  have h2 := Hex8_inj (Nat.mod_lt _ (by decide)) (Nat.mod_lt _ (by decide)) hlow
  omega

theorem TmdPath_inj {id id' : Nat} (h : id < 2 ^ 64) (h' : id' < 2 ^ 64)
    (heq : TmdPath id = TmdPath id') : id = id' :=
  TitlePath_inj h h' (List.append_cancel_right (List.append_cancel_right heq))

theorem ContentFilePath_inj {id id' content_id content_id' : Nat} (h : id < 2 ^ 64)
    (h' : id' < 2 ^ 64) (hc : content_id < 2 ^ 32) (hc' : content_id' < 2 ^ 32)
    (heq : ContentFilePath id content_id = ContentFilePath id' content_id') :
    id = id' ∧ content_id = content_id' := by
  obtain ⟨hleft, hname⟩ := List.append_inj (List.append_cancel_right heq) rfl
  have htitle := List.append_cancel_right (List.append_cancel_right hleft)
  exact ⟨TitlePath_inj h h' htitle, Hex8_inj hc hc' hname⟩

/-! ## a map, entry by entry -/

/-- an entry: the name it has by its place, and the hash -/
def entry (hashes : List Bytes) (k : Nat) : Bytes := Hex8 (k % 2 ^ 32) ++ hashes.getD k []

def ofHashes (hashes : List Bytes) : SharedMap := ⟨records (entry hashes) hashes.length⟩

/-- a SHA-1 each -/
def Sha1s (hashes : List Bytes) : Prop := ∀ sha1 ∈ hashes, sha1.length = 20

section

variable {hashes : List Bytes} {k : Nat} {sha1 : Bytes}

theorem length_entry (h : Sha1s hashes) (hk : k < hashes.length) : (entry hashes k).length = 28 := by
  unfold entry
  rw [List.length_append, length_Hex8, List.getD_eq_getElem _ _ hk, h _ (List.getElem_mem hk)]

theorem records_entry_append (more : List Bytes) (n : Nat) (hn : n ≤ hashes.length) :
    records (entry (hashes ++ more)) n = records (entry hashes) n := by
  induction n with
  | zero => rfl
  | succ n ih =>
    rw [records_succ, records_succ, ih (by omega)]
    unfold entry
    rw [List.getD_append _ _ _ _ hn]

theorem start_entry (h : Sha1s hashes) (hk : k ≤ hashes.length) : start (entry hashes) k = k * 28 := by
  induction k with
  | zero => rfl
  | succ k ih =>
    rw [start_succ, ih (by omega), length_entry h hk]
    omega

theorem length_ofHashes (h : Sha1s hashes) : (ofHashes hashes).bytes.length = hashes.length * 28 :=
  start_entry h (Nat.le_refl _)

theorem count_ofHashes (h : Sha1s hashes) : (ofHashes hashes).count = hashes.length := by
  unfold SharedMap.count
  rw [length_ofHashes h]
  exact Nat.mul_div_cancel _ (by decide)

theorem slice_ofHashes (h : Sha1s hashes) (hk : k < hashes.length) :
    slice (ofHashes hashes).bytes (k * 28) 28 = entry hashes k := by
  have hrecord := slice_records (entry hashes) hk
  rw [start_entry h (Nat.le_of_lt hk), length_entry h hk] at hrecord
  exact hrecord

theorem name_ofHashes (h : Sha1s hashes) (hk : k < hashes.length) :
    (ofHashes hashes).name k = Hex8 (k % 2 ^ 32) := by
  show slice (ofHashes hashes).bytes (k * 28 + 0) 8 = _
  rw [← slice_slice _ _ (show 0 + 8 ≤ 28 by decide), slice_ofHashes h hk]
  exact slice_prefix _ _

theorem sha1_ofHashes (h : Sha1s hashes) (hk : k < hashes.length) :
    (ofHashes hashes).sha1 k = hashes[k] := by
  show slice (ofHashes hashes).bytes (k * 28 + 8) 20 = _
  rw [← slice_slice _ _ (show 8 + 20 ≤ 28 by decide), slice_ofHashes h hk]
  have hright := slice_append_right (Hex8 (k % 2 ^ 32)) (hashes.getD k []) 0 20
  have hlen := h _ (List.getElem_mem hk)
  rw [List.getD_eq_getElem _ _ hk, ← hlen] at hright
  unfold entry
  rw [List.getD_eq_getElem _ _ hk, ← hlen]
  refine hright.trans ?_
  have hall := slice_prefix hashes[k] []
  rw [List.append_nil] at hall
  exact hall

/-- **A map is searched by hash.** -/
theorem find_ofHashes (h : Sha1s hashes) :
    (ofHashes hashes).find sha1 =
      if sha1 ∈ hashes then some (Hex8 (hashes.idxOf sha1 % 2 ^ 32)) else none := by
  unfold SharedMap.find
  rw [count_ofHashes h]
  by_cases hmem : sha1 ∈ hashes
  · rw [if_pos hmem]
    have hlt := List.idxOf_lt_length_of_mem hmem
    have hfind : (List.range hashes.length).find? (fun index =>
        decide ((ofHashes hashes).sha1 index = sha1)) = some (hashes.idxOf sha1) := by
      rw [List.find?_range_eq_some]
      refine ⟨?_, List.mem_range.mpr hlt, fun j hj => ?_⟩
      · rw [decide_eq_true_eq, sha1_ofHashes h hlt, List.getElem_idxOf]
      · rw [Bool.not_eq_true', decide_eq_false_iff_not, sha1_ofHashes h (by omega)]
        exact beq_eq_false_iff_ne.mp (List.not_of_lt_findIdx hj)
    rw [hfind, Option.map_some, name_ofHashes h hlt]
  · rw [if_neg hmem]
    have hfind : (List.range hashes.length).find? (fun index =>
        decide ((ofHashes hashes).sha1 index = sha1)) = none := by
      rw [List.find?_range_eq_none]
      intro j hj
      rw [Bool.not_eq_true', decide_eq_false_iff_not, sha1_ofHashes h hj]
      exact fun heq => hmem (heq ▸ List.getElem_mem hj)
    rw [hfind]
    rfl

theorem add_ofHashes (h : Sha1s hashes) :
    (ofHashes hashes).add sha1 = ofHashes (hashes ++ [sha1]) := by
  unfold SharedMap.add SharedMap.nextName
  rw [count_ofHashes h]
  show SharedMap.mk (records _ _ ++ _ ++ _) = ⟨records _ _⟩
  rw [List.length_append, List.length_singleton, records_succ,
    records_entry_append [sha1] _ (Nat.le_refl _), List.append_assoc]
  unfold entry
  rw [List.getD_append_right _ _ _ _ (Nat.le_refl _), Nat.sub_self]
  rfl

/-- **The map is not turned round.** -/
theorem Normalize_ofHashes (h : Sha1s hashes) : (ofHashes hashes).Normalize = ofHashes hashes := by
  have htake : (⟨(ofHashes hashes).bytes.take ((ofHashes hashes).count * kSharedEntrySize)⟩ :
      SharedMap) = ofHashes hashes := by
    rw [count_ofHashes h]
    exact congrArg SharedMap.mk (List.take_of_length_le (Nat.le_of_eq (length_ofHashes h)))
  unfold SharedMap.Normalize
  extract_lets whole reversed
  have hwhole : whole = ofHashes hashes := htake
  refine (if_neg fun hreversed => ?_).trans hwhole
  have hboth : reversed = true := hreversed
  unfold reversed at hboth
  rw [hwhole, count_ofHashes h, Bool.and_eq_true, decide_eq_true_eq, List.all_eq_true] at hboth
  -- the first entry begins with a name
  have hfirst := hboth.2 0 (List.mem_range.mpr (Nat.pos_of_ne_zero hboth.1))
  have hname : slice (ofHashes hashes).bytes (0 * kSharedEntrySize) 8 = Hex8 (0 % 2 ^ 32) :=
    name_ofHashes h (Nat.pos_of_ne_zero hboth.1)
  rw [hname, IsName_Hex8] at hfirst
  cases hfirst

end

/-! ## what a wad adds -/

def hashesAfter : List ContentRecord → List Bytes → List Bytes
  | [], hashes => hashes
  | content :: contents, hashes =>
    hashesAfter contents
      (if content.Shared ∧ content.sha1 ∉ hashes then hashes ++ [content.sha1] else hashes)

/-- a SHA-1 in each record -/
def Hashed (contents : List ContentRecord) : Prop := ∀ content ∈ contents, content.sha1.length = 20

section

variable {contents : List ContentRecord} {hashes : List Bytes}

theorem exists_hashesAfter (contents : List ContentRecord) (hashes : List Bytes) :
    ∃ more, hashesAfter contents hashes = hashes ++ more := by
  induction contents generalizing hashes with
  | nil => exact ⟨[], (List.append_nil _).symm⟩
  | cons content contents ih =>
    unfold hashesAfter
    split
    · obtain ⟨more, hmore⟩ := ih (hashes ++ [content.sha1])
      exact ⟨content.sha1 :: more, by rw [hmore, List.append_assoc]; rfl⟩
    · exact ih hashes

theorem length_le_hashesAfter (contents : List ContentRecord) (hashes : List Bytes) :
    hashes.length ≤ (hashesAfter contents hashes).length := by
  obtain ⟨more, hmore⟩ := exists_hashesAfter contents hashes
  rw [hmore, List.length_append]
  exact Nat.le_add_right _ _

theorem mem_hashesAfter {sha1 : Bytes} :
    sha1 ∈ hashesAfter contents hashes ↔
      sha1 ∈ hashes ∨ ∃ content ∈ contents, content.Shared = true ∧ content.sha1 = sha1 := by
  induction contents generalizing hashes with
  | nil => simp [hashesAfter]
  | cons content contents ih =>
    unfold hashesAfter
    rw [ih, List.exists_mem_cons_iff]
    by_cases h : content.Shared = true ∧ content.sha1 ∉ hashes
    · rw [if_pos h, List.mem_append, List.mem_singleton]
      constructor
      · rintro ((hold | rfl) | hrest)
        · exact .inl hold
        · exact .inr (.inl ⟨h.1, rfl⟩)
        · exact .inr (.inr hrest)
      · rintro (hold | ⟨_, rfl⟩ | hrest)
        · exact .inl (.inl hold)
        · exact .inl (.inr rfl)
        · exact .inr hrest
    · rw [if_neg h]
      constructor
      · rintro (hold | hrest)
        · exact .inl hold
        · exact .inr (.inr hrest)
      · rintro (hold | ⟨hshared, rfl⟩ | hrest)
        · exact .inl hold
        · exact .inl (by by_contra hnot; exact h ⟨hshared, hnot⟩)
        · exact .inr hrest

theorem nodup_hashesAfter (h : hashes.Nodup) : (hashesAfter contents hashes).Nodup := by
  induction contents generalizing hashes with
  | nil => exact h
  | cons content contents ih =>
    unfold hashesAfter
    split
    · next hnew =>
      refine ih (List.nodup_append.mpr ⟨h, List.nodup_singleton _, ?_⟩)
      rintro sha1 hsha1 _ (_ | ⟨_, ⟨⟩⟩) rfl
      exact hnew.2 hsha1
    · exact ih h

theorem Sha1s.append {sha1 : Bytes} (h : Sha1s hashes) (hsha1 : sha1.length = 20) :
    Sha1s (hashes ++ [sha1]) := by
  intro x hx
  obtain hx | hx := List.mem_append.mp hx
  · exact h x hx
  · rw [List.mem_singleton.mp hx]
    exact hsha1

theorem Sha1s.after (h : Sha1s hashes) (hcontents : Hashed contents) :
    Sha1s (hashesAfter contents hashes) := by
  intro sha1 hsha1
  obtain hold | ⟨content, hcontent, _, rfl⟩ := mem_hashesAfter.mp hsha1
  · exact h sha1 hold
  · exact hcontents content hcontent

theorem mapAfter_ofHashes (h : Sha1s hashes) (hcontents : Hashed contents) :
    mapAfter contents (ofHashes hashes) = ofHashes (hashesAfter contents hashes) := by
  induction contents generalizing hashes with
  | nil => rfl
  | cons content contents ih =>
    have hrest : Hashed contents := fun c hc => hcontents c (List.mem_cons_of_mem _ hc)
    unfold hashesAfter
    by_cases hshared : content.Shared = true
    · by_cases hmem : content.sha1 ∈ hashes
      · rw [if_neg fun hand => hand.2 hmem,
          mapAfter_known hshared ((find_ofHashes h).trans (if_pos hmem))]
        exact ih h hrest
      · rw [if_pos ⟨hshared, hmem⟩,
          mapAfter_new hshared ((find_ofHashes h).trans (if_neg hmem)), add_ofHashes h]
        exact ih (h.append (hcontents content List.mem_cons_self)) hrest
    · rw [if_neg fun hand => hshared hand.1, mapAfter_own hshared]
      exact ih h hrest

end

end DolTranslator.Nand
