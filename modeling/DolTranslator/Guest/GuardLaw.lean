import DolTranslator.Guest.Accesses
import DolTranslator.Guest.ExecutableGuard

/-!
# What the executable guard keeps

* `storePointer_of_guarded`   a guarded store goes nowhere;
* `storePointer_maps`   a store that goes somewhere goes to the storage of its addresses;
* `Complete`   a store keeps the storage of the registered ranges, and is reported for it only;
* `executable_guard_complete_iff`   the stores of a run are complete just when none goes round the
  guard.
-/

namespace DolTranslator.Guest

open Streams

variable {s : State} {address length : Nat} {pointer : UInt64} {bytes : List UInt8}
  {lr : Option UInt32} {regions : List Region} {registered : List (Nat × Nat)}

/-! ## guarded addresses -/

/-- an address of the access is in one of the ranges -/
def Guarded (s : State) (address length : Nat) : Prop :=
  ∃ k, k < length ∧ ∃ r ∈ s.executableRanges, r.Has (address + k)

/-- the write is not one of the loader of a relocatable module -/
def NoLoader (s : State) (lr : Option UInt32) : Prop :=
  ∀ r ∈ s.executableRanges, IsKnownBaseRelLoaderWrite r lr = false

theorem exactGuard_of_guarded (hm : Marked s) (h : Guarded s address length)
    (hlength : length ≤ 8) : exactGuard s address length = true := by
  obtain ⟨k, hk, r, hr, ha⟩ := h
  have hguard := hm.pages r hr _ ha
  unfold exactGuard
  rw [Bool.or_eq_true, Bool.and_eq_true, decide_eq_true_iff]
  unfold kGuardPageSize at *
  -- the address is on the first page, or on the last one
  by_cases hfirst : (address + k) / 2 ^ 12 = address / 2 ^ 12
  · rw [hfirst] at hguard
    exact .inl hguard
  · have hlast : (address + k) / 2 ^ 12 = (address + length - 1) / 2 ^ 12 := by omega
    rw [hlast] at hguard hfirst
    exact .inr ⟨hfirst, hguard⟩

theorem anyPage_of_guard {pageSize count k : Nat} {guard : Nat → Bool} (hk : k < length)
    (hguard : guard ((address + k) / pageSize) = true) (hcount : (address + k) / pageSize < count) :
    anyPage pageSize count guard address length = true := by
  unfold anyPage
  refine List.any_eq_true.mpr ⟨(address + k) / pageSize, List.mem_range.mpr ?_, ?_⟩
  · have hle : (address + k) / pageSize ≤ (address + length - 1) / pageSize :=
      Nat.div_le_div_right (by omega)
    omega
  · rw [Bool.and_eq_true, decide_eq_true_iff]
    exact ⟨Nat.div_le_div_right (Nat.le_add_right _ _), hguard⟩

theorem handle_of_guarded (hm : Marked s) (h : Guarded s address length) (hlr : NoLoader s lr) :
    HandleExecutableWrite s address length lr = true := by
  obtain ⟨k, hk, r, hr, ha⟩ := h
  have hbound := hm.bounded r hr
  have hlt : address + k < 2 ^ 32 := Nat.lt_of_lt_of_le ha.2 hbound
  have hmay : ExecutableWriteGuardMayHit s address length = true := by
    unfold ExecutableWriteGuardMayHit
    rw [if_neg (by rw [hm.enabled r hr]; simp; omega), Bool.and_eq_true, Bool.and_eq_true]
    refine ⟨⟨?_, ?_⟩, ?_⟩
    · exact anyPage_of_guard hk (hm.coarsePages r hr _ ha) (by unfold kPageSize; omega)
    · exact anyPage_of_guard hk (hm.midPages r hr _ ha) (by unfold kGuardMidPageSize; omega)
    · exact anyPage_of_guard hk (hm.pages r hr _ ha) (by unfold kGuardPageSize; omega)
  unfold HandleExecutableWrite
  rw [if_pos hmay]
  cases hfind : FindExecutableRange s address length with
  | none =>
    have hnone := List.find?_eq_none.mp hfind r hr
    unfold Intersects at hnone
    rw [decide_eq_true_iff] at hnone
    have hhas := ha.1
    have hhas' := ha.2
    omega
  | some range =>
    dsimp only
    rw [hlr range (List.mem_of_find?_eq_some hfind)]
    rfl

theorem guarded_of_handle (hm : Marked s) (h : HandleExecutableWrite s address length lr = true) :
    Guarded s address length := by
  unfold HandleExecutableWrite at h
  split at h
  next hmay =>
    have hpos : length ≠ 0 := by
      intro h0
      unfold ExecutableWriteGuardMayHit at hmay
      rw [if_pos (.inl h0)] at hmay
      cases hmay
    split at h
    · cases h
    next range hfind =>
      have hin := List.find?_some hfind
      unfold Intersects at hin
      rw [decide_eq_true_iff] at hin
      have hr := List.mem_of_find?_eq_some hfind
      have hlt := hm.nonempty range hr
      refine ⟨max address range.start - address, by omega, range, hr, by omega, by omega⟩
  · cases h

/-! ## where a guarded store goes -/

/-- the writable biases are of pages that nothing executable is on -/
structure Writable (s : State) : Prop where
  coarse : ∀ page, s.fullWritablePageBias page =
    if s.executableWriteGuardCoarsePages page then 0 else fullPageBias s.regions page
  sparse : ∀ page table subPage, s.sparseWritablePageTables page = some table →
    table subPage = 0 ∨ table subPage = fullPageBias s.regions page

theorem coarse_of_bias (hw : Writable s) {page : Nat} (h : s.fullWritablePageBias page ≠ 0) :
    s.executableWriteGuardCoarsePages page = false ∧
      s.fullWritablePageBias page = fullPageBias s.regions page := by
  rw [hw.coarse] at h ⊢
  split at h
  · exact absurd rfl h
  next hcoarse =>
    rw [if_neg hcoarse]
    exact ⟨eq_false_of_ne_true hcoarse, rfl⟩

theorem writableFast_of_guarded (hm : Marked s) (hw : Writable s) (h : Guarded s address length) :
    TryGetWritablePointerFast s address length = none := by
  unfold TryGetWritablePointerFast
  split
  · rfl
  next hlength =>
    have hexact := exactGuard_of_guarded hm h (by omega)
    dsimp only
    split
    next hbias =>
      -- the first page is not guarded: the address is right behind it
      obtain ⟨k, hk, r, hr, ha⟩ := h
      have hcoarse := hm.coarsePages r hr _ ha
      have hguard := hm.pages r hr _ ha
      have hpage : (address + k) / kPageSize ≠ address / kPageSize := by
        intro heq
        rw [heq, (coarse_of_bias hw hbias).1] at hcoarse
        cases hcoarse
      unfold kPageSize at *
      unfold kGuardPageSize at *
      have hlast : (address + k) / 2 ^ 12 = (address + length - 1) / 2 ^ 12 := by omega
      rw [hlast] at hguard
      rw [if_pos ⟨by omega, hguard⟩]
    · split
      · rw [if_pos (.inr hexact)]
      · split
        · rfl
        · rfl

theorem write_of_guarded (hm : Marked s) (hw : Writable s) (h : Guarded s address length) :
    TryWriteGuestScalar s address length = none := by
  have hfast := writableFast_of_guarded hm hw h
  obtain ⟨k, hk, r, hr, ha⟩ := h
  have hcoarse := hm.coarsePages r hr _ ha
  unfold TryWriteGuestScalar
  split
  · rfl
  split
  · rfl
  next hpage =>
  split
  next hbias =>
    have hsame : (address + k) / kPageSize = address / kPageSize := by
      unfold kPageSize at *
      omega
    rw [hsame, (coarse_of_bias hw hbias).1] at hcoarse
    cases hcoarse
  · exact hfast

theorem slow_of_guarded (hm : Marked s) (h : Guarded s address length) (hlr : NoLoader s lr) :
    slowPointer s address length lr = none :=
  if_pos (.inr (handle_of_guarded hm h hlr))

theorem writePointer_of_guarded (hm : Marked s) (hw : Writable s) (h : Guarded s address length)
    (hlr : NoLoader s lr) : writePointer s address length lr = none := by
  unfold writePointer
  rw [write_of_guarded hm hw h]
  exact slow_of_guarded hm h hlr

/-- **A guarded store goes nowhere**, but for a stack store to a mapped page -/
theorem storePointer_of_guarded (hm : Marked s) (hw : Writable s) (h : Guarded s address length)
    (hlr : NoLoader s lr) (path : StorePath)
    (hpath : path = .stack → TryGetPointerFast s.regions address length = none) :
    storePointer path s address length lr = none := by
  cases path with
  | memory => exact writePointer_of_guarded hm hw h hlr
  | resolved => exact writePointer_of_guarded hm hw h hlr
  | slow => exact slow_of_guarded hm h hlr
  | stack =>
    show stackPointer s address length lr = none
    unfold stackPointer
    rw [hpath rfl]
    exact writePointer_of_guarded hm hw h hlr
  | quantized =>
    show quantizedPointer s address length lr = none
    unfold quantizedPointer
    rw [writableFast_of_guarded hm hw h]
    exact writePointer_of_guarded hm hw h hlr

theorem writableFast_maps (hv : Valid s.regions) (hw : Writable s)
    (h : TryGetWritablePointerFast s address length = some pointer) :
    Maps s.regions address length pointer := by
  unfold TryGetWritablePointerFast at h
  split at h
  · cases h
  next hlength =>
  dsimp only at h
  split at h
  next hbias =>
    split at h
    · cases h
    · cases h
      have hfull := (coarse_of_bias hw hbias).2
      rw [hfull] at hbias ⊢
      exact fullPageBias_spec hv hbias (by omega)
  · split at h
    next table htable =>
      split at h
      · cases h
      next hnot =>
        rw [not_or] at hnot
        cases h
        rcases hw.sparse _ _ (address % kPageSize / kGuardPageSize) htable with h0 | hfull
        · exact absurd h0 hnot.1
        · rw [hfull] at hnot ⊢
          exact fullPageBias_spec hv hnot.1 (by omega)
    · split at h
      · cases h
      next hentry =>
        split at h
        · cases h
        · cases h
          exact entryPointer_spec hv hentry

theorem writePointer_maps (hv : Valid s.regions) (hw : Writable s) (hlength : length ≤ 8)
    (h : writePointer s address length lr = some pointer) :
    Maps s.regions address length pointer := by
  unfold writePointer at h
  split at h
  next p hp =>
    cases h
    unfold TryWriteGuestScalar at hp
    split at hp
    · cases hp
    split at hp
    · cases hp
    split at hp
    next hbias =>
      cases hp
      have hfull := (coarse_of_bias hw hbias).2
      rw [hfull] at hbias ⊢
      exact fullPageBias_spec hv hbias hlength
    · exact writableFast_maps hv hw hp
  · unfold slowPointer at h
    split at h
    · cases h
    · exact GetPointer_spec hv h

/-- **A store goes to the storage of its addresses.** -/
theorem storePointer_maps (hv : Valid s.regions) (hw : Writable s) (hlength : length ≤ 8)
    {path : StorePath} (h : storePointer path s address length lr = some pointer) :
    Maps s.regions address length pointer := by
  cases path with
  | memory => exact writePointer_maps hv hw hlength h
  | resolved => exact writePointer_maps hv hw hlength h
  | slow =>
    have hslow : slowPointer s address length lr = some pointer := h
    unfold slowPointer at hslow
    split at hslow
    · cases hslow
    · exact GetPointer_spec hv hslow
  | stack =>
    have hstack : stackPointer s address length lr = some pointer := h
    unfold stackPointer at hstack
    split at hstack
    next p hp =>
      cases hstack
      exact TryGetPointerFast_spec hv hp
    · exact writePointer_maps hv hw hlength hstack
  | quantized =>
    have hquantized : quantizedPointer s address length lr = some pointer := h
    unfold quantizedPointer at hquantized
    split at hquantized
    next p hp =>
      cases hquantized
      exact writableFast_maps hv hw hp
    · exact writePointer_maps hv hw hlength hquantized

/-! ## the registered ranges -/

/-- an address of a registered range -/
def InRange (registered : List (Nat × Nat)) (address : Nat) : Prop :=
  ∃ r ∈ registered, r.1 ≤ address ∧ address < r.2

/-- a byte of the storage of one -/
def RegisteredByte (regions : List Region) (registered : List (Nat × Nat)) (q : UInt64) : Prop :=
  ∃ address, InRange registered address ∧ hostOf regions address = some q

/-- the access is of such a byte, by whichever address -/
def TouchesStorage (regions : List Region) (registered : List (Nat × Nat))
    (address length : Nat) : Prop :=
  ∃ k, k < length ∧ ∃ q, hostOf regions (address + k) = some q ∧
    RegisteredByte regions registered q

/-- or of a registered address that may have no storage -/
def Touches (regions : List Region) (registered : List (Nat × Nat)) (address length : Nat) : Prop :=
  (∃ k, k < length ∧ InRange registered (address + k)) ∨
    TouchesStorage regions registered address length

/-- the ranges are the registered ones and aliases of them -/
structure Ranges (regions : List Region) (registered : List (Nat × Nat)) (s : State) : Prop where
  marked : Marked s
  listed : ∀ r ∈ registered, r.1 < r.2 → ∃ r' ∈ s.executableRanges, r'.start = r.1 ∧ r'.stop = r.2
  aliases : ∀ r ∈ s.executableRanges, ∃ r' ∈ registered, Alias regions r'.1 r'.2 r.start r.stop

theorem touches_of_guarded (h : Ranges regions registered s) (hg : Guarded s address length) :
    Touches regions registered address length := by
  obtain ⟨k, hk, r, hr, ha⟩ := hg
  obtain ⟨r', hr', halias⟩ := h.aliases r hr
  obtain ⟨y, hle, hlt, rfl | ⟨q, hq, hq'⟩⟩ := halias _ ha.1 ha.2
  · exact .inl ⟨k, hk, r', hr', hle, hlt⟩
  · exact .inr ⟨k, hk, q, hq, y, ⟨r', hr', hle, hlt⟩, hq'⟩

/-! ## one store -/

/-- **A complete store.**  It changes no byte of a registered range, is reported when it would, and
is not reported when it is of no byte of one. -/
structure Complete (regions : List Region) (registered : List (Nat × Nat)) (s : State)
    (address length : Nat) (result : State × Outcome) : Prop where
  kept : ∀ q, RegisteredByte regions registered q → result.1.memory q = s.memory q
  reported : TouchesStorage regions registered address length → result.2 = .reported
  exact : result.2 = .reported → Touches regions registered address length

theorem memory_of_maps {q : UInt64} (hmaps : Maps regions address bytes.length pointer)
    (hq : ∀ k, k < bytes.length → hostOf regions (address + k) ≠ some q) :
    applyWrites (storeWrites pointer bytes) s.memory q = s.memory q := by
  refine applyWrites_of_not_mem fun hmem => ?_
  obtain ⟨k, hk, rfl⟩ := mem_footprint_storeWrites hmem
  exact hq k hk (hmaps k hk)

theorem complete_store (hv : Valid s.regions) (hw : Writable s)
    (hr : Ranges s.regions registered s) (hlr : NoLoader s lr) (hlength : bytes.length ≤ 8)
    (hmmio : ∀ k, k < 8 → IsMmioAddress address = true → hostOf s.regions (address + k) = none)
    {path : StorePath}
    (hallowed : TouchesStorage s.regions registered address bytes.length →
      (path = .stack → TryGetPointerFast s.regions address bytes.length = none) ∧
        Guarded s address bytes.length) :
    Complete s.regions registered s address bytes.length (storeBy path s address bytes lr) := by
  rw [storeBy_eq]
  by_cases htouch : TouchesStorage s.regions registered address bytes.length
  · obtain ⟨hpath, hguarded⟩ := hallowed htouch
    rw [storePointer_of_guarded hr.marked hw hguarded hlr path hpath]
    refine ⟨fun _ _ => rfl, fun _ => ?_, fun _ => .inr htouch⟩
    obtain ⟨k, hk, q, hq, -⟩ := htouch
    show refusal s address bytes.length lr = .reported
    unfold refusal
    rw [if_neg, handle_of_guarded hr.marked hguarded hlr, if_pos rfl]
    intro hin
    rw [hmmio k (by omega) hin] at hq
    cases hq
  · cases hpointer : storePointer path s address bytes.length lr with
    | some pointer =>
      refine ⟨fun q hq => ?_, fun h => absurd h htouch, fun h => by cases h⟩
      have hmaps := storePointer_maps hv hw hlength hpointer
      exact memory_of_maps hmaps fun k hk hhost => htouch ⟨k, hk, q, hhost, hq⟩
    | none =>
      refine ⟨fun _ _ => rfl, fun h => absurd h htouch, fun h => ?_⟩
      have hrefusal : refusal s address bytes.length lr = .reported := h
      unfold refusal at hrefusal
      split at hrefusal
      · cases hrefusal
      split at hrefusal
      next hhandle => exact touches_of_guarded hr (guarded_of_handle hr.marked hhandle)
      · cases hrefusal

theorem allowed_of_complete_store (hr : Ranges s.regions registered s) {path : StorePath}
    (h : Complete s.regions registered s address bytes.length (storeBy path s address bytes lr))
    (htouch : TouchesStorage s.regions registered address bytes.length) :
    (path = .stack → TryGetPointerFast s.regions address bytes.length = none) ∧
      Guarded s address bytes.length := by
  have hreported := h.reported htouch
  rw [storeBy_eq] at hreported
  cases hpointer : storePointer path s address bytes.length lr with
  | some pointer =>
    rw [hpointer] at hreported
    cases hreported
  | none =>
    rw [hpointer] at hreported
    have hrefusal : refusal s address bytes.length lr = .reported := hreported
    constructor
    · rintro rfl
      have hstack : stackPointer s address bytes.length lr = none := hpointer
      unfold stackPointer at hstack
      split at hstack
      · cases hstack
      next hfast => exact hfast
    · unfold refusal at hrefusal
      split at hrefusal
      · cases hrefusal
      split at hrefusal
      next hhandle => exact guarded_of_handle hr.marked hhandle
      · cases hrefusal

theorem complete_store_iff (hv : Valid s.regions) (hw : Writable s)
    (hr : Ranges s.regions registered s) (hlr : NoLoader s lr) (hlength : bytes.length ≤ 8)
    (hmmio : ∀ k, k < 8 → IsMmioAddress address = true → hostOf s.regions (address + k) = none)
    (path : StorePath) :
    Complete s.regions registered s address bytes.length (storeBy path s address bytes lr) ↔
      (TouchesStorage s.regions registered address bytes.length →
        (path = .stack → TryGetPointerFast s.regions address bytes.length = none) ∧
          Guarded s address bytes.length) :=
  ⟨allowed_of_complete_store hr, complete_store hv hw hr hlr hlength hmmio⟩

/-! ## a block of zeros -/

theorem writeZeros_unmapped {words : List Nat}
    (h : ∀ word ∈ words, writePointer s word 4 lr = none) :
    (writeZeros s lr words).1 = s ∧ ((writeZeros s lr words).2 = .reported →
      ∃ word ∈ words, HandleExecutableWrite s word 4 lr = true) := by
  induction words with
  | nil => exact ⟨rfl, fun h => (by cases h)⟩
  | cons word words ih =>
    obtain ⟨hword, hrest⟩ := List.forall_mem_cons.mp h
    obtain ⟨hstate, hreported⟩ := ih hrest
    have hwrite : Write s word (toBytes 4 0) lr = (s, refusal s word 4 lr) := by
      rw [Write_eq, show (toBytes 4 0).length = 4 from rfl, hword]
      rfl
    unfold writeZeros
    rw [hwrite]
    cases hmmio : IsMmioAddress word with
    | true =>
      -- the device answers, and the next word is written
      have hrefusal : refusal s word 4 lr = .mmio := if_pos hmmio
      rw [hrefusal]
      refine ⟨hstate, fun h => ?_⟩
      obtain ⟨word', hmem, hhandle⟩ := hreported h
      exact ⟨word', List.mem_cons_of_mem _ hmem, hhandle⟩
    | false =>
      have hrefusal : refusal s word 4 lr =
          if HandleExecutableWrite s word 4 lr then .reported else .violation := by
        unfold refusal
        rw [hmmio, if_neg Bool.false_ne_true]
      cases hhandle : HandleExecutableWrite s word 4 lr with
      | true =>
        rw [hrefusal, hhandle, if_pos rfl]
        exact ⟨rfl, fun _ => ⟨word, List.mem_cons_self, hhandle⟩⟩
      | false =>
        rw [hrefusal, hhandle, if_neg Bool.false_ne_true]
        exact ⟨rfl, fun h => (by cases h)⟩

/-- regions of whole blocks -/
def Blocks (regions : List Region) : Prop :=
  ∀ r ∈ regions, 32 ∣ r.baseAddress ∧ 32 ∣ r.storageSize

theorem hostOf_of_unmapped (hb : Blocks regions) {block : Nat} (hblock : 32 ∣ block)
    (h : GetPointer regions block 32 = none) {k : Nat} (hk : k < 32) :
    hostOf regions (block + k) = none := by
  unfold GetPointer at h
  split at h
  · cases h
  have hnone := Option.map_eq_none_iff.mp h
  unfold hostOf
  rw [Option.map_eq_none_iff]
  unfold TryResolveRegion at hnone ⊢
  rw [List.find?_eq_none] at hnone ⊢
  intro r hr hin
  rw [decide_eq_true_iff] at hin
  obtain ⟨hbase, hsize⟩ := hb r hr
  refine hnone r hr (decide_eq_true ?_)
  unfold Region.stop at hin ⊢
  omega

theorem complete_dcbz (hv : Valid s.regions) (hb : Blocks s.regions) (hw : Writable s)
    (hr : Ranges s.regions registered s) {block : Nat} (hblock : 32 ∣ block)
    (hlast : block < 2 ^ 32) (hallowed : ¬TouchesStorage s.regions registered block 32) :
    Complete s.regions registered s block 32 (memset_zero_32 s block lr) := by
  unfold memset_zero_32
  cases hpointer : GetPointer s.regions block 32 with
  | some pointer =>
    refine ⟨fun q hq => ?_, fun h => absurd h hallowed, fun h => by cases h⟩
    have hmaps := GetPointer_spec hv hpointer
    exact memory_of_maps hmaps fun k hk hhost => hallowed ⟨k, hk, q, hhost, hq⟩
  | none =>
    have hword : ∀ word ∈ blockWords block, ∃ i, i < 8 ∧ word = block + i * 4 := by
      intro word hmem
      unfold blockWords at hmem
      obtain ⟨i, hi, rfl⟩ := List.mem_map.mp hmem
      rw [List.mem_range] at hi
      exact ⟨i, hi, Nat.mod_eq_of_lt (by omega)⟩
    have hnone : ∀ word ∈ blockWords block, writePointer s word 4 lr = none := by
      intro word hmem
      obtain ⟨i, hi, rfl⟩ := hword word hmem
      cases hwrite : writePointer s (block + i * 4) 4 lr with
      | none => rfl
      | some pointer =>
        have hmaps := writePointer_maps hv hw (by decide) hwrite 0 (by decide)
        rw [Nat.add_zero, hostOf_of_unmapped hb hblock hpointer (by omega)] at hmaps
        cases hmaps
    obtain ⟨hstate, hreported⟩ := writeZeros_unmapped hnone
    refine ⟨fun _ _ => by rw [hstate], fun h => absurd h hallowed, fun h => ?_⟩
    obtain ⟨word, hmem, hhandle⟩ := hreported h
    obtain ⟨i, hi, rfl⟩ := hword word hmem
    rcases touches_of_guarded hr (guarded_of_handle hr.marked hhandle) with
      ⟨k, hk, hin⟩ | ⟨k, hk, hin⟩
    · exact .inl ⟨i * 4 + k, by omega, by rw [← Nat.add_assoc]; exact hin⟩
    · exact .inr ⟨i * 4 + k, by omega, by rw [← Nat.add_assoc]; exact hin⟩

theorem allowed_of_complete_dcbz (hb : Blocks s.regions) {block : Nat} (hblock : 32 ∣ block)
    (h : Complete s.regions registered s block 32 (memset_zero_32 s block lr)) :
    ¬TouchesStorage s.regions registered block 32 := by
  intro htouch
  have hreported := h.reported htouch
  unfold memset_zero_32 at hreported
  split at hreported
  · cases hreported
  next hpointer =>
    obtain ⟨k, hk, q, hq, -⟩ := htouch
    rw [hostOf_of_unmapped hb hblock hpointer hk] at hq
    cases hq

/-! ## steps -/

theorem writable_refresh (s : State) : Writable (RefreshFastPathTables s) := by
  refine ⟨fun _ => rfl, fun page table subPage htable => ?_⟩
  have hsparse : (if s.executableWriteGuardCoarsePages page = false ∨
      fullPageBias s.regions page = 0 then none
      else sparseTable s.executableWriteGuardPages (fullPageBias s.regions page) page) =
      some table := htable
  split at hsparse
  · cases hsparse
  unfold sparseTable at hsparse
  dsimp only at hsparse
  split at hsparse
  · cases hsparse
    dsimp only
    split
    · exact .inl rfl
    · exact .inr rfl
  · cases hsparse

/-- the guard of a state, and the regions, are those of another -/
def SameGuard (s s' : State) : Prop :=
  ∃ memory reads token bias, s' = { s with
    memory := memory
    deferredReads := reads
    nextDeferredReadToken := token
    fullReadablePageBias := bias }

namespace SameGuard

variable {s' s'' : State}

theorem refl (s : State) : SameGuard s s :=
  ⟨s.memory, s.deferredReads, s.nextDeferredReadToken, s.fullReadablePageBias, rfl⟩

theorem trans (h : SameGuard s s') (h' : SameGuard s' s'') : SameGuard s s'' := by
  obtain ⟨_, _, _, _, rfl⟩ := h
  obtain ⟨memory, reads, token, bias, rfl⟩ := h'
  exact ⟨memory, reads, token, bias, rfl⟩

theorem memory (s : State) (memory : HostMemory) : SameGuard s { s with memory } :=
  ⟨memory, s.deferredReads, s.nextDeferredReadToken, s.fullReadablePageBias, rfl⟩

theorem resolve (s : State) (address length : Nat) :
    SameGuard s (ResolveDeferredReads s address length) :=
  ⟨_, _, s.nextDeferredReadToken, _, rfl⟩

theorem register (s : State) (address : Nat) (contents : List UInt8) :
    SameGuard s (RegisterDeferredRead s address contents).1 := by
  unfold RegisterDeferredRead
  split
  · exact .refl s
  · exact ⟨s.memory, _, _, _, rfl⟩

theorem readSlow (s : State) (address length : Nat) :
    SameGuard s (ReadSlow s address length).1 := by
  unfold ReadSlow
  split
  · exact .refl s
  · dsimp only
    split
    · exact .resolve s address length
    · exact .resolve s address length

theorem read (s : State) (address length : Nat) : SameGuard s (Read s address length).1 := by
  unfold Read
  split
  · exact .refl s
  · exact .readSlow s address length

theorem readBy (path : ReadPath) (s : State) (address length : Nat) :
    SameGuard s (readBy path s address length).1 := by
  cases path with
  | memory => exact .read s address length
  | resolved => exact .read s address length
  | slow => exact .readSlow s address length
  | stack =>
    show SameGuard s (ReadStack s address length).1
    unfold ReadStack
    split
    · exact .refl s
    · exact .read s address length

theorem storeBy (path : StorePath) (s : State) (address : Nat) (bytes : List UInt8)
    (lr : Option UInt32) : SameGuard s (storeBy path s address bytes lr).1 := by
  rw [storeBy_eq]
  cases storePointer path s address bytes.length lr with
  | some pointer => exact .memory s _
  | none => exact .refl s

theorem memset (s : State) (address : Nat) (lr : Option UInt32) :
    SameGuard s (memset_zero_32 s address lr).1 := by
  unfold memset_zero_32
  split
  · exact .memory s _
  · refine writeZeros_keeps (P := SameGuard s) (fun s' word h => h.trans ?_) _ (.refl s)
    exact .storeBy .memory s' word (toBytes 4 0) lr

end SameGuard

def Op.registers : Op → List (Nat × Nat)
  | .registerExecutableRange start stop _ => [(start.toNat, stop.toNat)]
  | _ => []

/-- the guard of a run, by the ranges that it registered -/
structure Guard (regions : List Region) (registered : List (Nat × Nat)) (s : State) : Prop where
  mapped : s.regions = regions
  ranges : Ranges regions registered s
  writable : Writable s

theorem guard_of_same {s' : State} (h : Guard regions registered s) (hsame : SameGuard s s') :
    Guard regions registered s' := by
  obtain ⟨_, _, _, _, rfl⟩ := hsame
  obtain ⟨⟨hpages, hmid, hcoarse, henabled, hbounded, hnonempty⟩, hlisted, haliases⟩ := h.ranges
  exact ⟨h.mapped, ⟨⟨hpages, hmid, hcoarse, henabled, hbounded, hnonempty⟩, hlisted, haliases⟩,
    ⟨h.writable.coarse, h.writable.sparse⟩⟩

section wii

variable {mem1 mem2 overlay lockedCache : UInt64}

theorem ranges_register (h : Ranges (WiiDefaults mem1 mem2 overlay lockedCache) registered s)
    (start stop : UInt32) (name : List Char) :
    Ranges (WiiDefaults mem1 mem2 overlay lockedCache)
      (registered ++ [(start.toNat, stop.toNat)])
      (RegisterExecutableRange s start.toNat stop.toNat name) := by
  have hold : ∀ r ∈ s.executableRanges, ∃ r' ∈ registered ++ [(start.toNat, stop.toNat)],
      Alias (WiiDefaults mem1 mem2 overlay lockedCache) r'.1 r'.2 r.start r.stop := by
    intro r hr
    obtain ⟨r', hr', halias⟩ := h.aliases r hr
    exact ⟨r', List.mem_append_left _ hr', halias⟩
  have hcases : ∀ r ∈ registered ++ [(start.toNat, stop.toNat)],
      r ∈ registered ∨ r = (start.toNat, stop.toNat) := by
    intro r hr
    rcases List.mem_append.mp hr with hr | hr
    · exact .inl hr
    · exact .inr (List.mem_singleton.mp hr)
  rw [RegisterExecutableRange_eq]
  split
  next hempty =>
    refine ⟨h.marked, fun r hr hlt => ?_, hold⟩
    rcases hcases r hr with hr | rfl
    · exact h.listed r hr hlt
    · exact absurd hempty (Nat.not_le.mpr hlt)
  · have hgrown : Grown (Alias (WiiDefaults mem1 mem2 overlay lockedCache) start.toNat stop.toNat) s
        (addRanges s start.toNat stop.toNat name) :=
      grown_addRanges stop.toNat_lt.le s name
    obtain ⟨hpages, hmid, hcoarse, henabled, hbounded, hnonempty⟩ := hgrown.marked h.marked
    refine ⟨⟨hpages, hmid, hcoarse, henabled, hbounded, hnonempty⟩, fun r hr hlt => ?_,
      fun r hr => ?_⟩
    · rcases hcases r hr with hr | rfl
      · obtain ⟨r', hr', hrange⟩ := h.listed r hr hlt
        exact ⟨r', hgrown.keeps r' hr', hrange⟩
      · exact mem_addRanges hlt s name
    rcases hgrown.added r hr with hr | halias
    · exact hold r hr
    · exact ⟨_, List.mem_append_right _ (List.mem_singleton_self _), halias⟩

/-- **A step keeps the guard.** -/
theorem guard_step (h : Guard (WiiDefaults mem1 mem2 overlay lockedCache) registered s) (op : Op) :
    Guard (WiiDefaults mem1 mem2 overlay lockedCache) (registered ++ op.registers)
      (step s op).1 := by
  cases op with
  | registerDeferredRead address contents =>
    rw [show registered ++ Op.registers (.registerDeferredRead address contents) = registered from
      List.append_nil _]
    exact guard_of_same h (.register s address.toNat contents)
  | registerExecutableRange start stop name =>
    have hranges := ranges_register h.ranges start stop name
    show Guard _ (registered ++ [(start.toNat, stop.toNat)])
      (RegisterExecutableRange s start.toNat stop.toNat name)
    refine ⟨?_, hranges, ?_⟩
    · rw [RegisterExecutableRange_eq]
      split
      · exact h.mapped
      · rw [addRanges_eq]
        exact h.mapped
    · rw [RegisterExecutableRange_eq]
      split
      · exact h.writable
      · exact writable_refresh _
  | read path address size =>
    rw [show registered ++ Op.registers (.read path address size) = registered from
      List.append_nil _]
    exact guard_of_same h (.readBy path s address.toNat size.length)
  | store path address size value lr =>
    rw [show registered ++ Op.registers (.store path address size value lr) = registered from
      List.append_nil _]
    exact guard_of_same h (.storeBy path s address.toNat (toBytes size.length value) lr)
  | dcbz address lr =>
    rw [show registered ++ Op.registers (.dcbz address lr) = registered from List.append_nil _]
    exact guard_of_same h (.memset s (blockOf address) lr)

theorem blocks_WiiDefaults : Blocks (WiiDefaults mem1 mem2 overlay lockedCache) := by
  unfold Blocks WiiDefaults
  simp only [List.forall_mem_cons, List.not_mem_nil, IsEmpty.forall_iff, implies_true, and_true]
  decide

theorem hostOf_mmio (hmmio : IsMmioAddress address = true) {k : Nat} (hk : k < 8) :
    hostOf (WiiDefaults mem1 mem2 overlay lockedCache) (address + k) = none := by
  unfold IsMmioAddress at hmmio
  rw [decide_eq_true_iff] at hmmio
  unfold hostOf
  rw [Option.map_eq_none_iff]
  unfold TryResolveRegion
  rw [List.find?_eq_none]
  unfold WiiDefaults Region.stop
  simp only [List.forall_mem_cons, List.not_mem_nil, IsEmpty.forall_iff, implies_true, and_true,
    decide_eq_true_iff, kMem1Size, kMem2Size, kMem1PhysicalBase, kMem1CachedBase,
    kMem1UncachedBase, kMem2PhysicalBase, kMem2CachedBase, kMem2UncachedBase, kPageSize]
  omega

end wii

/-! ## runs -/

/-- what holds of the steps of a run, until a report; the ranges are those registered so far -/
def Along (P : List (Nat × Nat) → State → Op → Prop) (registered : List (Nat × Nat)) (s : State) :
    List Op → Prop
  | [] => True
  | op :: ops => P registered s op ∧
    ((step s op).2 ≠ .reported → Along P (registered ++ op.registers) (step s op).1 ops)

/-- a store is complete -/
def CompleteStep (registered : List (Nat × Nat)) (s : State) : Op → Prop
  | .store path address size value lr =>
    Complete s.regions registered s address.toNat size.length
      (storeBy path s address.toNat (toBytes size.length value) lr)
  | .dcbz address lr =>
    Complete s.regions registered s (blockOf address) 32 (memset_zero_32 s (blockOf address) lr)
  | _ => True

/-- it is not one of the loader of a relocatable module -/
def NoLoaderStep (_ : List (Nat × Nat)) (s : State) : Op → Prop
  | .store _ _ _ _ lr => NoLoader s lr
  | .dcbz _ lr => NoLoader s lr
  | _ => True

/-- it is of no registered byte, or is a guarded one: neither a block of zeros nor a stack store to
a mapped page, and of an address that is in one of the ranges -/
def GuardedStep (registered : List (Nat × Nat)) (s : State) : Op → Prop
  | .store path address size _ _ =>
    TouchesStorage s.regions registered address.toNat size.length →
      (path = .stack → TryGetPointerFast s.regions address.toNat size.length = none) ∧
        Guarded s address.toNat size.length
  | .dcbz address _ => ¬TouchesStorage s.regions registered (blockOf address) 32
  | _ => True

section wii

variable {mem1 mem2 overlay lockedCache : UInt64}

theorem completeStep_iff
    (h : Guard (WiiDefaults mem1 mem2 overlay lockedCache) registered s) {op : Op}
    (hlr : NoLoaderStep registered s op) :
    CompleteStep registered s op ↔ GuardedStep registered s op := by
  have hvalid : Valid s.regions := by
    rw [h.mapped]
    exact valid_WiiDefaults
  have hblocks : Blocks s.regions := by
    rw [h.mapped]
    exact blocks_WiiDefaults
  have hranges : Ranges s.regions registered s := by
    rw [h.mapped]
    exact h.ranges
  cases op with
  | registerDeferredRead address contents => exact Iff.rfl
  | registerExecutableRange start stop name => exact Iff.rfl
  | read path address size => exact Iff.rfl
  | store path address size value lr =>
    have hlength := length_toBytes size.length value
    have hle : (toBytes size.length value).length ≤ 8 := by
      rw [hlength]
      cases size <;> decide
    have hmmio : ∀ k, k < 8 → IsMmioAddress address.toNat = true →
        hostOf s.regions (address.toNat + k) = none := by
      intro k hk hmmio
      rw [h.mapped]
      exact hostOf_mmio hmmio hk
    have hiff := complete_store_iff hvalid h.writable hranges hlr hle hmmio path
    rw [hlength] at hiff
    exact hiff
  | dcbz address lr =>
    have hblock : 32 ∣ blockOf address := Nat.dvd_mul_left 32 _
    have hlast : blockOf address < 2 ^ 32 :=
      Nat.lt_of_le_of_lt (Nat.div_mul_le_self _ _) address.toNat_lt
    exact ⟨allowed_of_complete_dcbz hblocks hblock,
      complete_dcbz hvalid hblocks h.writable hranges hblock hlast⟩

/-- **Completeness of the guard, from any state.** -/
theorem along_complete_iff
    (h : Guard (WiiDefaults mem1 mem2 overlay lockedCache) registered s) {ops : List Op}
    (hlr : Along NoLoaderStep registered s ops) :
    Along CompleteStep registered s ops ↔ Along GuardedStep registered s ops := by
  induction ops generalizing registered s with
  | nil => exact Iff.rfl
  | cons op ops ih =>
    refine and_congr (completeStep_iff h hlr.1) (forall_congr' fun hrun => ?_)
    exact ih (guard_step h op) (hlr.2 hrun)

/-! ## the law -/

def rangesOf (before : List Registered) : List (Nat × Nat) :=
  before.map fun r => (r.start.toNat, r.stop.toNat)

theorem ranges_registerRanges
    (h : Ranges (WiiDefaults mem1 mem2 overlay lockedCache) registered s)
    (before : List Registered) :
    Ranges (WiiDefaults mem1 mem2 overlay lockedCache) (registered ++ rangesOf before)
      (registerRanges s before) := by
  induction before generalizing registered s with
  | nil =>
    rw [show registered ++ rangesOf [] = registered from List.append_nil _]
    exact h
  | cons r before ih =>
    have hrest := ih (ranges_register h r.start r.stop r.name)
    rw [List.append_assoc] at hrest
    exact hrest

theorem ranges_empty (regions : List Region) (memory : HostMemory) :
    Ranges regions [] (State.empty memory) := by
  have hnone : ∀ r, r ∉ (State.empty memory).executableRanges := fun _ => List.not_mem_nil
  exact ⟨⟨fun r hr => absurd hr (hnone r), fun r hr => absurd hr (hnone r),
    fun r hr => absurd hr (hnone r), fun r hr => absurd hr (hnone r),
    fun r hr => absurd hr (hnone r), fun r hr => absurd hr (hnone r)⟩,
    fun r hr => absurd hr List.not_mem_nil, fun r hr => absurd hr (hnone r)⟩

theorem guard_start (memory : HostMemory) (before : List Registered) :
    Guard (WiiDefaults mem1 mem2 overlay lockedCache) (rangesOf before)
      (start memory before (WiiDefaults mem1 mem2 overlay lockedCache)) := by
  have hranges : Ranges (WiiDefaults mem1 mem2 overlay lockedCache) (rangesOf before)
      (registerRanges (State.empty memory) before) :=
    ranges_registerRanges (ranges_empty _ memory) before
  obtain ⟨hpages, hmid, hcoarse, henabled, hbounded, hnonempty⟩ := hranges.marked
  exact ⟨rfl, ⟨⟨hpages, hmid, hcoarse, henabled, hbounded, hnonempty⟩, hranges.listed,
    hranges.aliases⟩, writable_refresh _⟩

/-- **Completeness of the guard.**  A run without the loader of relocatable modules leaves the
registered ranges as they are, with a report for each store to them and for no other, just when its
stores do not go round the guard. -/
theorem executable_guard_complete_iff (memory : HostMemory) (before : List Registered)
    (ops : List Op)
    (hlr : Along NoLoaderStep (rangesOf before)
      (start memory before (WiiDefaults mem1 mem2 overlay lockedCache)) ops) :
    Along CompleteStep (rangesOf before)
        (start memory before (WiiDefaults mem1 mem2 overlay lockedCache)) ops ↔
      Along GuardedStep (rangesOf before)
        (start memory before (WiiDefaults mem1 mem2 overlay lockedCache)) ops :=
  along_complete_iff (guard_start memory before) hlr

end wii

theorem noLoader_none (s : State) : NoLoader s none := by
  intro r _
  unfold IsKnownBaseRelLoaderWrite
  split
  · rfl
  · rfl

def someRegions : List Region :=
  WiiDefaults 0x10000000000 0x20000000000 0x30000000000 0x40000000000

/-- a store to the code that is registered -/
theorem executable_guard_complete_word :
    Along CompleteStep [] (start (fun _ => 0) [] someRegions)
      [.registerExecutableRange 0x80003000 0x80004000 ['t'],
        .store .memory 0x80003004 .word 7 none] := by
  have hlr : Along NoLoaderStep (rangesOf []) (start (fun _ => 0) [] someRegions)
      [.registerExecutableRange 0x80003000 0x80004000 ['t'],
        .store .memory 0x80003004 .word 7 none] :=
    ⟨trivial, fun _ => ⟨noLoader_none _, fun _ => trivial⟩⟩
  refine (executable_guard_complete_iff _ [] _ hlr).mpr
    ⟨trivial, fun _ => ⟨fun _ => ⟨fun h => (by cases h), ?_⟩, fun _ => trivial⟩⟩
  exact ⟨0, by decide, ⟨0x80003000, 0x80004000, ['t']⟩, by decide +kernel, by decide +kernel,
    by decide +kernel⟩

/-- **Three ways round the guard.**  A stack store, a block of zeros, and a store by the physical
address change a byte of the registered code. -/
theorem code_is_overwritten :
    ¬Along CompleteStep [] (start (fun _ => 0) [] someRegions)
        [.registerExecutableRange 0x80003000 0x80004000 ['t'],
          .store .stack 0x80003000 .byte 7 none] ∧
      ¬Along CompleteStep [] (start (fun _ => 1) [] someRegions)
        [.registerExecutableRange 0x80003000 0x80004000 ['t'], .dcbz 0x80003000 none] ∧
      ¬Along CompleteStep [] (start (fun _ => 0) [] someRegions)
        [.registerExecutableRange 0x80003000 0x80004000 ['t'],
          .store .memory 0x00003000 .byte 7 none] := by
  have hcode : RegisteredByte someRegions [(0x80003000, 0x80004000)] 0x10000003000 :=
    ⟨0x80003000, ⟨_, List.mem_singleton_self _, by decide, by decide⟩, by decide +kernel⟩
  refine ⟨fun h => ?_, fun h => ?_, fun h => ?_⟩
  · have hkept := (h.2 (by decide +kernel)).1.kept _ hcode
    exact absurd hkept (by decide +kernel)
  · have hkept := (h.2 (by decide +kernel)).1.kept _ hcode
    exact absurd hkept (by decide +kernel)
  · have hkept := (h.2 (by decide +kernel)).1.kept _ hcode
    exact absurd hkept (by decide +kernel)

end DolTranslator.Guest
