import DolTranslator.Guest.GuardLaw

/-!
# Fast pointers stay in the mapping

* `Sized`   the lookups as they add, in 64 bits;
* `Registration`   what changes the tables after they are made;
* `Fast`   each bias is none, or that of its page;
* `pointers_stay_iff`  a pointer is that of each byte of its range, unless the end of the range
  goes round the 64 bits.

No storage is at the null pointer.
-/

namespace DolTranslator.Guest

/-! ## the lookups of ranges whose length is of 64 bits -/

namespace Sized

def entryPointer (regions : List Region) (address : UInt32) (length : UInt64) : Option UInt64 :=
  match pageTable regions (address.toNat / kPageSize) with
  | none => none
  | some entry =>
    if UInt64.ofNat entry.limit < UInt64.ofNat (address.toNat % kPageSize) + length then none
    else some (entry.base + UInt64.ofNat (address.toNat % kPageSize))

def TryGetPointerFast (regions : List Region) (address : UInt32) (length : UInt64) :
    Option UInt64 :=
  if length ≤ 8 ∧ fullPageBias regions (address.toNat / kPageSize) ≠ 0 then
    some (biased (fullPageBias regions (address.toNat / kPageSize)) address.toNat)
  else entryPointer regions address length

def TryResolveRegion (regions : List Region) (address : UInt32) (length : UInt64) :
    Option Region :=
  regions.find? fun r =>
    decide (UInt64.ofNat r.baseAddress ≤ UInt64.ofNat address.toNat ∧
      UInt64.ofNat address.toNat + length ≤ UInt64.ofNat r.stop)

def GetPointer (regions : List Region) (address : UInt32) (length : UInt64) : Option UInt64 :=
  match TryGetPointerFast regions address length with
  | some pointer => some pointer
  | none => (TryResolveRegion regions address length).map (·.pointer address.toNat)

def Contains (regions : List Region) (address : UInt32) (length : UInt64) : Bool :=
  if (TryGetPointerFast regions address length).isSome then true
  else (TryResolveRegion regions address length).isSome

end Sized

/-! ## the tables after they are made -/

def ClearDeferredReads (s : State) : State :=
  { s with
    deferredReads := []
    fullReadablePageBias := fun page =>
      if s.deferredReads.any (·.onPage page) then fullPageBias s.regions page
      else s.fullReadablePageBias page }

inductive Registration where
  | deferredRead (address : UInt32) (contents : List UInt8)
  | executableRange (start stop : UInt32) (name : List Char)
  | resolve (address : UInt32) (length : Nat)
  | clear
  | refresh

def register (s : State) : Registration → State
  | .deferredRead address contents => (RegisterDeferredRead s address.toNat contents).1
  | .executableRange start stop name => RegisterExecutableRange s start.toNat stop.toNat name
  | .resolve address length => ResolveDeferredReads s address.toNat length
  | .clear => ClearDeferredReads s
  | .refresh => RefreshFastPathTables s

def registered (s : State) (regions : List Region) (later : List Registration) : State :=
  later.foldl register (Init s regions)

/-- every bias is that of its page -/
structure Fast (regions : List Region) (s : State) : Prop where
  mapped : s.regions = regions
  readable : ∀ page, s.fullReadablePageBias page ≠ 0 →
    s.fullReadablePageBias page = fullPageBias s.regions page
  writable : Writable s

variable {regions : List Region} {s : State}

theorem fast_refresh (hmapped : s.regions = regions) : Fast regions (RefreshFastPathTables s) := by
  refine ⟨hmapped, fun page hne => ?_, writable_refresh s⟩
  have hbias : (RefreshFastPathTables s).fullReadablePageBias page =
      if s.deferredReads.any (·.onPage page) then 0 else fullPageBias s.regions page := rfl
  rw [hbias] at hne ⊢
  split at hne
  · exact absurd rfl hne
  next hread => exact if_neg hread

/-- a bias is none, that of its page, or as it was -/
abbrev Kept (s : State) (page : Nat) (bias : UInt64) : Prop :=
  bias = 0 ∨ bias = fullPageBias s.regions page ∨ bias = s.fullReadablePageBias page

theorem kept_ite {c : Prop} [Decidable c] {page : Nat} {bias bias' : UInt64}
    (h : Kept s page bias) (h' : Kept s page bias') : Kept s page (if c then bias else bias') := by
  split
  · exact h
  · exact h'

theorem fast_of_same {s' : State} (h : Fast regions s) (hsame : SameGuard s s')
    (hkept : ∀ page, Kept s page (s'.fullReadablePageBias page)) : Fast regions s' := by
  obtain ⟨memory, reads, token, bias, rfl⟩ := hsame
  refine ⟨h.mapped, fun page hne => ?_, h.writable.coarse, h.writable.sparse⟩
  rcases hkept page with hzero | hfull | hsame
  · exact absurd hzero hne
  · exact hfull
  · rw [hsame] at hne ⊢
    exact h.readable page hne

/-- **A registration keeps the tables.** -/
theorem fast_register (h : Fast regions s) (r : Registration) : Fast regions (register s r) := by
  have hnone (page : Nat) : Kept s page 0 := .inl rfl
  have hfull (page : Nat) : Kept s page (fullPageBias s.regions page) := .inr (.inl rfl)
  have hsame (page : Nat) : Kept s page (s.fullReadablePageBias page) := .inr (.inr rfl)
  cases r with
  | deferredRead address contents =>
    refine fast_of_same h (.register s address.toNat contents) fun page => ?_
    unfold register RegisterDeferredRead
    dsimp only
    by_cases hlength : contents.length = 0 ∨ 2 ^ 32 < address.toNat + contents.length
    · rw [if_pos hlength]
      exact hsame page
    · rw [if_neg hlength]
      exact kept_ite (hnone page) (hsame page)
  | executableRange start stop name =>
    show Fast regions (RegisterExecutableRange s start.toNat stop.toNat name)
    rw [RegisterExecutableRange_eq]
    split
    · exact h
    · rw [addRanges_eq]
      exact fast_refresh h.mapped
  | resolve address length =>
    refine fast_of_same h (.resolve s address.toNat length) fun page => ?_
    exact kept_ite (kept_ite (hnone page) (hfull page)) (hsame page)
  | clear =>
    refine fast_of_same h ⟨s.memory, [], s.nextDeferredReadToken, _, rfl⟩ fun page => ?_
    exact kept_ite (hfull page) (hsame page)
  | refresh => exact fast_refresh h.mapped

theorem fast_registered (s : State) (regions : List Region) (later : List Registration) :
    Fast regions (registered s regions later) := by
  unfold registered
  have hinit : Fast regions (Init s regions) := fast_refresh rfl
  generalize Init s regions = s' at hinit ⊢
  induction later generalizing s' with
  | nil => exact hinit
  | cons r later ih => exact ih (register s' r) (fast_register hinit r)

/-! ## sums of 64 bits -/

variable {address : UInt32} {length pointer : UInt64}

theorem sum_le (length : UInt64) {m k : Nat} (hm : m ≤ 2 ^ 32) (hk : k ≤ 2 ^ 32) :
    UInt64.ofNat m + length ≤ UInt64.ofNat k ↔ (m + length.toNat) % 2 ^ 64 ≤ k := by
  have hsize : 2 ^ 32 < UInt64.size := by decide
  rw [UInt64.le_iff_toNat_le, UInt64.toNat_add, UInt64.toNat_ofNat_of_lt' (hm.trans_lt hsize),
    UInt64.toNat_ofNat_of_lt' (hk.trans_lt hsize)]

theorem pageTable_region {page : Nat} {entry : PageEntry}
    (h : pageTable regions page = some entry) :
    ∃ r ∈ regions, r.baseAddress ≤ page * kPageSize ∧ page * kPageSize < r.stop ∧
      entry.limit = min kPageSize (r.stop - page * kPageSize) := by
  rcases foldl_pageEntry h with h | ⟨r, hr, hentry⟩
  · cases h
  · unfold Region.pageEntry at hentry
    split at hentry
    next hin =>
      cases hentry
      exact ⟨r, hr, hin.1, hin.2, rfl⟩
    · cases hentry

theorem sized_entryPointer_eq {entry : PageEntry}
    (h : pageTable regions (address.toNat / kPageSize) = some entry) :
    Sized.entryPointer regions address length =
      if (address.toNat % kPageSize + length.toNat) % 2 ^ 64 ≤ entry.limit then
        some (entry.base + UInt64.ofNat (address.toNat % kPageSize))
      else none := by
  obtain ⟨r, _, _, _, hlimit⟩ := pageTable_region h
  have hsize : kPageSize ≤ 2 ^ 32 := by decide
  have hoffset := (Nat.mod_lt address.toNat (show 0 < kPageSize by decide)).le
  have hbound : entry.limit ≤ kPageSize := hlimit ▸ Nat.min_le_left _ _
  have hsum := sum_le length (hoffset.trans hsize) (hbound.trans hsize)
  unfold Sized.entryPointer
  rw [h]
  dsimp only
  by_cases hin : (address.toNat % kPageSize + length.toNat) % 2 ^ 64 ≤ entry.limit
  · rw [if_pos hin, if_neg (UInt64.not_lt.mpr (hsum.mpr hin))]
  · rw [if_neg hin, if_pos (UInt64.not_le.mp fun hle => hin (hsum.mp hle))]

theorem sized_entryPointer_none (h : pageTable regions (address.toNat / kPageSize) = none) :
    Sized.entryPointer regions address length = none := by
  unfold Sized.entryPointer
  rw [h]

theorem sized_resolve_eq (hv : Valid regions) :
    Sized.TryResolveRegion regions address length =
      regions.find? fun r => decide (r.baseAddress ≤ address.toNat ∧
        (address.toNat + length.toNat) % 2 ^ 64 ≤ r.stop) := by
  unfold Sized.TryResolveRegion
  refine List.find?_congr fun r hr => ?_
  have hbound : r.stop ≤ 2 ^ 32 := hv.bounded r hr
  have hbase : r.baseAddress ≤ 2 ^ 32 := (Nat.le_add_right _ _).trans hbound
  have haddress := address.toNat_lt
  have hsize : 2 ^ 32 < UInt64.size := by decide
  rw [decide_eq_decide, sum_le length haddress.le hbound, UInt64.le_iff_toNat_le,
    UInt64.toNat_ofNat_of_lt' (hbase.trans_lt hsize),
    UInt64.toNat_ofNat_of_lt' (haddress.trans hsize)]

/-! ## ranges whose end does not go round -/

theorem sized_TryGetPointerFast_eq (h : address.toNat + length.toNat < 2 ^ 64) :
    Sized.TryGetPointerFast regions address length =
      TryGetPointerFast regions address.toNat length.toNat := by
  have hoffset : address.toNat % kPageSize + length.toNat < 2 ^ 64 :=
    (Nat.add_le_add_right (Nat.mod_le _ _) _).trans_lt h
  have hentry : Sized.entryPointer regions address length =
      entryPointer regions address.toNat length.toNat := by
    unfold entryPointer
    cases htable : pageTable regions (address.toNat / kPageSize) with
    | none => exact sized_entryPointer_none htable
    | some entry =>
      rw [sized_entryPointer_eq htable, Nat.mod_eq_of_lt hoffset]
      dsimp only
      by_cases hin : address.toNat % kPageSize + length.toNat ≤ entry.limit
      · rw [if_pos hin, if_neg (Nat.not_lt.mpr hin)]
      · rw [if_neg hin, if_pos (Nat.lt_of_not_le hin)]
  unfold Sized.TryGetPointerFast TryGetPointerFast
  have hlength : length ≤ 8 ↔ length.toNat ≤ 8 := UInt64.le_iff_toNat_le
  rw [hentry]
  exact if_congr (and_congr_left' hlength) rfl rfl

theorem sized_TryResolveRegion_eq (hv : Valid regions)
    (h : address.toNat + length.toNat < 2 ^ 64) :
    Sized.TryResolveRegion regions address length =
      TryResolveRegion regions address.toNat length.toNat := by
  rw [sized_resolve_eq hv, Nat.mod_eq_of_lt h]
  rfl

theorem sized_GetPointer_eq (hv : Valid regions) (h : address.toNat + length.toNat < 2 ^ 64) :
    Sized.GetPointer regions address length =
      GetPointer regions address.toNat length.toNat := by
  unfold Sized.GetPointer
  rw [sized_TryGetPointerFast_eq h, sized_TryResolveRegion_eq hv h]
  rfl

theorem contains_iff :
    Sized.Contains regions address length = true ↔
      ∃ pointer, Sized.GetPointer regions address length = some pointer := by
  unfold Sized.Contains Sized.GetPointer
  cases Sized.TryGetPointerFast regions address length with
  | some pointer => exact ⟨fun _ => ⟨pointer, rfl⟩, fun _ => rfl⟩
  | none =>
    cases Sized.TryResolveRegion regions address length with
    | some r => exact ⟨fun _ => ⟨_, rfl⟩, fun _ => rfl⟩
    | none => exact ⟨fun h => (by cases h), fun ⟨_, h⟩ => (by cases h)⟩

/-! ## ranges whose end goes round -/

/-- the end goes round the 64 bits, to an address that a region does not stop before -/
def Wraps (regions : List Region) (address : UInt32) (length : UInt64) : Prop :=
  2 ^ 64 ≤ address.toNat + length.toNat ∧
    ∃ r ∈ regions, r.baseAddress ≤ address.toNat ∧
      address.toNat + length.toNat - 2 ^ 64 ≤ r.stop

theorem round_eq (h : 2 ^ 64 ≤ address.toNat + length.toNat) :
    (address.toNat + length.toNat) % 2 ^ 64 = address.toNat + length.toNat - 2 ^ 64 := by
  have haddress := address.toNat_lt
  have hlength := length.toNat_lt
  rw [Nat.mod_eq_sub_mod h, Nat.mod_eq_of_lt (by omega)]

theorem pointer_of_wraps (hv : Valid regions) (h : Wraps regions address length) :
    ∃ pointer, Sized.GetPointer regions address length = some pointer := by
  obtain ⟨hround, r, hr, hbase, hstop⟩ := h
  unfold Sized.GetPointer
  cases Sized.TryGetPointerFast regions address length with
  | some pointer => exact ⟨pointer, rfl⟩
  | none =>
    rw [sized_resolve_eq hv, round_eq hround]
    have hfound : (regions.find? fun r => decide (r.baseAddress ≤ address.toNat ∧
        address.toNat + length.toNat - 2 ^ 64 ≤ r.stop)).isSome :=
      List.find?_isSome.mpr ⟨r, hr, decide_eq_true ⟨hbase, hstop⟩⟩
    obtain ⟨r', hr'⟩ := Option.isSome_iff_exists.mp hfound
    exact ⟨r'.pointer address.toNat, by rw [hr']; rfl⟩

/-- but it is longer than the addresses -/
theorem not_maps_of_round (hv : Valid regions) (h : 2 ^ 64 ≤ address.toNat + length.toNat) :
    ¬Maps regions address.toNat length.toNat pointer := by
  intro hmaps
  have haddress := address.toNat_lt
  have hbyte := hmaps (2 ^ 32) (by omega)
  unfold hostOf at hbyte
  obtain ⟨r, hr, _⟩ := Option.map_eq_some_iff.mp hbyte
  unfold TryResolveRegion at hr
  have hin := List.find?_some hr
  rw [decide_eq_true_iff] at hin
  have hbound := hv.bounded r (List.mem_of_find?_eq_some hr)
  omega

theorem refused_of_round (hv : Valid regions) (hround : 2 ^ 64 ≤ address.toNat + length.toNat)
    (h : ¬Wraps regions address length) :
    Sized.TryGetPointerFast regions address length = none ∧
      Sized.GetPointer regions address length = none := by
  have haddress := address.toNat_lt
  have hlength := length.toNat_lt
  have hfast : Sized.TryGetPointerFast regions address length = none := by
    have hlong : ¬length ≤ 8 := by
      rw [UInt64.le_iff_toNat_le]
      show ¬length.toNat ≤ 8
      omega
    unfold Sized.TryGetPointerFast
    rw [if_neg fun hfast => hlong hfast.1]
    cases htable : pageTable regions (address.toNat / kPageSize) with
    | none => exact sized_entryPointer_none htable
    | some entry =>
      rw [sized_entryPointer_eq htable]
      refine if_neg fun hin => h ⟨hround, ?_⟩
      -- the region of the page does not stop before the end
      obtain ⟨r, hr, hbase, hstop, hlimit⟩ := pageTable_region htable
      have hdiv := Nat.div_add_mod' address.toNat kPageSize
      have hsize : kPageSize = 2 ^ 20 := rfl
      have hbound : entry.limit ≤ r.stop - address.toNat / kPageSize * kPageSize :=
        hlimit ▸ Nat.min_le_right _ _
      exact ⟨r, hr, by omega, by omega⟩
  refine ⟨hfast, ?_⟩
  unfold Sized.GetPointer
  rw [hfast, sized_resolve_eq hv, round_eq hround, List.find?_eq_none.mpr]
  · rfl
  · intro r hr hin
    rw [decide_eq_true_iff] at hin
    exact h ⟨hround, r, hr, hin⟩

/-! ## pointers -/

/-- every pointer of an access is that of each byte of its range -/
structure Stays (s : State) (address : UInt32) (length : UInt64) : Prop where
  fast : ∀ pointer, Sized.TryGetPointerFast s.regions address length = some pointer →
    Maps s.regions address.toNat length.toNat pointer
  writable : ∀ pointer, TryGetWritablePointerFast s address.toNat length.toNat = some pointer →
    Maps s.regions address.toNat length.toNat pointer
  read : length ≤ 8 → ∀ pointer, TryReadGuestScalar s address.toNat = some pointer →
    Maps s.regions address.toNat length.toNat pointer
  write : length ≤ 8 → ∀ pointer,
    TryWriteGuestScalar s address.toNat length.toNat = some pointer →
      Maps s.regions address.toNat length.toNat pointer
  resolved : ∀ pointer, Sized.GetPointer s.regions address length = some pointer →
    Maps s.regions address.toNat length.toNat pointer
  contains : Sized.Contains s.regions address length = true ↔
    ∃ pointer, Sized.GetPointer s.regions address length = some pointer ∧
      Maps s.regions address.toNat length.toNat pointer
  within : ∀ r ∈ s.regions, r.baseAddress ≤ address.toNat →
    address.toNat + length.toNat ≤ r.stop → Sized.Contains s.regions address length = true

theorem writeScalar_maps (hv : Valid s.regions) (hw : Writable s) {address length : Nat}
    (hlength : length ≤ 8) (h : TryWriteGuestScalar s address length = some pointer) :
    Maps s.regions address length pointer := by
  unfold TryWriteGuestScalar at h
  split at h
  · cases h
  split at h
  · cases h
  split at h
  next hbias =>
    cases h
    have hfull := (coarse_of_bias hw hbias).2
    rw [hfull] at hbias ⊢
    exact fullPageBias_spec hv hbias hlength
  · exact writableFast_maps hv hw h

theorem readScalar_maps (hf : Fast regions s) (hv : Valid regions) {address length : Nat}
    (hlength : length ≤ 8) (h : TryReadGuestScalar s address = some pointer) :
    Maps s.regions address length pointer := by
  obtain ⟨rfl, hreadable, _⟩ := hf
  unfold TryReadGuestScalar at h
  split at h
  · cases h
  next hbias =>
    cases h
    have hfull := hreadable _ hbias
    rw [hfull] at hbias ⊢
    exact fullPageBias_spec hv hbias hlength

theorem not_stays_of_wraps (hv : Valid s.regions) (h : Wraps s.regions address length) :
    ¬Stays s address length := by
  intro hstays
  obtain ⟨pointer, hpointer⟩ := pointer_of_wraps hv h
  exact not_maps_of_round hv h.1 (hstays.resolved pointer hpointer)

theorem contains_of_within (hv : Valid regions) {r : Region} (hr : r ∈ regions)
    (hbase : r.baseAddress ≤ address.toNat) (hstop : address.toNat + length.toNat ≤ r.stop) :
    Sized.Contains regions address length = true := by
  have hbound := hv.bounded r hr
  unfold Sized.Contains
  split
  · rfl
  · rw [sized_resolve_eq hv, Nat.mod_eq_of_lt (by omega)]
    exact List.find?_isSome.mpr ⟨r, hr, decide_eq_true ⟨hbase, hstop⟩⟩

theorem stays_of_not_wraps (hf : Fast regions s) (hv : Valid regions)
    (h : ¬Wraps regions address length) : Stays s address length := by
  obtain ⟨hmapped, _, hw⟩ := id hf
  subst hmapped
  have hfast (pointer : UInt64)
      (hpointer : Sized.TryGetPointerFast s.regions address length = some pointer) :
      Maps s.regions address.toNat length.toNat pointer := by
    by_cases hround : address.toNat + length.toNat < 2 ^ 64
    · rw [sized_TryGetPointerFast_eq hround] at hpointer
      exact TryGetPointerFast_spec hv hpointer
    · rw [(refused_of_round hv (Nat.not_lt.mp hround) h).1] at hpointer
      cases hpointer
  have hresolved (pointer : UInt64)
      (hpointer : Sized.GetPointer s.regions address length = some pointer) :
      Maps s.regions address.toNat length.toNat pointer := by
    by_cases hround : address.toNat + length.toNat < 2 ^ 64
    · rw [sized_GetPointer_eq hv hround] at hpointer
      exact GetPointer_spec hv hpointer
    · rw [(refused_of_round hv (Nat.not_lt.mp hround) h).2] at hpointer
      cases hpointer
  refine ⟨hfast, fun pointer => writableFast_maps hv hw,
    fun hlength pointer => readScalar_maps hf hv (UInt64.le_iff_toNat_le.mp hlength),
    fun hlength pointer => writeScalar_maps hv hw (UInt64.le_iff_toNat_le.mp hlength),
    hresolved, ?_, fun r hr => contains_of_within hv hr⟩
  rw [contains_iff]
  constructor
  · rintro ⟨pointer, hpointer⟩
    exact ⟨pointer, hpointer, hresolved pointer hpointer⟩
  · rintro ⟨pointer, hpointer, _⟩
    exact ⟨pointer, hpointer⟩

/-- **Fast pointers stay in the mapping**, whatever is registered: unless the end of the range goes
round to an address that a region does not stop before. -/
theorem pointers_stay_iff (s : State) (regions : List Region) (hv : Valid regions)
    (later : List Registration) (address : UInt32) (length : UInt64) :
    Stays (registered s regions later) address length ↔ ¬Wraps regions address length := by
  have hf := fast_registered s regions later
  constructor
  · intro hstays hwraps
    have hmapped := hf.mapped
    rw [← hmapped] at hv hwraps
    exact not_stays_of_wraps hv hwraps hstays
  · exact stays_of_not_wraps hf hv

def twoPages : List Region := [⟨0x80000000, 0x10000000000, 2 * kPageSize⟩]

theorem valid_twoPages : Valid twoPages :=
  ⟨List.pairwise_singleton _ _, List.forall_mem_singleton.mpr (by decide)⟩

theorem pointers_stay_across_pages :
    Stays (registered (State.empty fun _ => 0) twoPages [.deferredRead 0x80000000 [1]])
      0x800FFFFC 8 :=
  (pointers_stay_iff _ twoPages valid_twoPages _ _ _).mpr fun h => absurd h.1 (by decide)

/-- **A range that goes round is contained**, and has a pointer. -/
theorem pointers_leave_mapping :
    ¬∀ (s : State) (regions : List Region), Valid regions → ∀ (later : List Registration)
      (address : UInt32) (length : UInt64),
        Stays (registered s regions later) address length := by
  intro h
  have hwraps : Wraps twoPages 0x80000010 0xFFFFFFFFFFFFFFF0 :=
    ⟨by decide, _, List.mem_singleton_self _, by decide, by decide⟩
  exact not_stays_of_wraps valid_twoPages hwraps
    (h (State.empty fun _ => 0) twoPages valid_twoPages [] 0x80000010 0xFFFFFFFFFFFFFFF0)

end DolTranslator.Guest
