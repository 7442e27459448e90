import Mathlib
import DolTranslator.Streams.Writes

/-!
# Guest addresses and host pointers

* `Region`   a view of storage at a range of guest addresses;
* `pageTable`, `fullPageBias`   the tables of the pages;
* `GetPointer`   the host pointer of a range of guest addresses, by the tables or by the regions;
* `hostOf`   the storage of one byte;
* `GetPointer_spec`   a pointer is that of each byte of its range, when no two views overlap.
-/

namespace DolTranslator.Guest

def kPageSize : Nat := 2 ^ 20

def kPageCount : Nat := 2 ^ 12

def kMaxFastScalarSize : Nat := 8

structure Region where
  baseAddress : Nat
  storagePtr : UInt64
  storageSize : Nat
  deriving DecidableEq

def Region.stop (r : Region) : Nat := r.baseAddress + r.storageSize

def Region.pointer (r : Region) (address : Nat) : UInt64 :=
  r.storagePtr + UInt64.ofNat (address - r.baseAddress)

/-! ## the page tables -/

/-- the storage of the first bytes of a page; `limit` of them -/
structure PageEntry where
  base : UInt64
  limit : Nat
  deriving DecidableEq

/-- the entry a region makes for a page: when the page starts in it -/
def Region.pageEntry (r : Region) (page : Nat) : Option PageEntry :=
  if r.baseAddress ≤ page * kPageSize ∧ page * kPageSize < r.stop then
    some ⟨r.pointer (page * kPageSize), min kPageSize (r.stop - page * kPageSize)⟩
  else none

def pageTable (regions : List Region) (page : Nat) : Option PageEntry :=
  regions.foldl (fun entry r => (r.pageEntry page).or entry) none

/-- the bias of a full page whose storage goes on in the next page, plus one; 0 for none -/
def fullPageBias (regions : List Region) (page : Nat) : UInt64 :=
  if page + 1 < kPageCount then
    match pageTable regions page, pageTable regions (page + 1) with
    | some current, some next =>
      if current.limit = kPageSize ∧ kMaxFastScalarSize - 1 ≤ next.limit ∧
          next.base = current.base + UInt64.ofNat kPageSize then
        current.base - UInt64.ofNat (page * kPageSize) + 1
      else 0
    | _, _ => 0
  else 0

def biased (encodedBias : UInt64) (address : Nat) : UInt64 :=
  encodedBias - 1 + UInt64.ofNat address

/-! ## pointers -/

/-- by the entry of the page: the range must be in its limit -/
def entryPointer (regions : List Region) (address length : Nat) : Option UInt64 :=
  match pageTable regions (address / kPageSize) with
  | none => none
  | some entry =>
    if entry.limit < address % kPageSize + length then none
    else some (entry.base + UInt64.ofNat (address % kPageSize))

def TryGetPointerFast (regions : List Region) (address length : Nat) : Option UInt64 :=
  if length ≤ 8 ∧ fullPageBias regions (address / kPageSize) ≠ 0 then
    some (biased (fullPageBias regions (address / kPageSize)) address)
  else entryPointer regions address length

def TryResolveRegion (regions : List Region) (address length : Nat) : Option Region :=
  regions.find? fun r => decide (r.baseAddress ≤ address ∧ address + length ≤ r.stop)

def GetPointer (regions : List Region) (address length : Nat) : Option UInt64 :=
  match TryGetPointerFast regions address length with
  | some pointer => some pointer
  | none => (TryResolveRegion regions address length).map (·.pointer address)

def hostOf (regions : List Region) (address : Nat) : Option UInt64 :=
  (TryResolveRegion regions address 1).map (·.pointer address)

/-! ## views that do not overlap -/

/-- regions of guest memory, no two of which overlap -/
structure Valid (regions : List Region) : Prop where
  disjoint : regions.Pairwise fun r r' => r.stop ≤ r'.baseAddress ∨ r'.stop ≤ r.baseAddress
  bounded : ∀ r ∈ regions, r.stop ≤ 2 ^ 32

/-- the pointer is that of each byte of the range -/
def Maps (regions : List Region) (address length : Nat) (pointer : UInt64) : Prop :=
  ∀ k, k < length → hostOf regions (address + k) = some (pointer + UInt64.ofNat k)

variable {regions : List Region} {r : Region} {address length page : Nat} {pointer : UInt64}

theorem ofNat_add_ofNat (p : UInt64) (m n : Nat) :
    p + UInt64.ofNat m + UInt64.ofNat n = p + UInt64.ofNat (m + n) := by
  rw [UInt64.ofNat_add, UInt64.add_assoc]

theorem pointer_add (h : r.baseAddress ≤ address) (k : Nat) :
    r.pointer (address + k) = r.pointer address + UInt64.ofNat k := by
  unfold Region.pointer
  rw [ofNat_add_ofNat, Nat.sub_add_comm h]

theorem resolve_of_mem (hv : Valid regions) (hr : r ∈ regions) (hbase : r.baseAddress ≤ address)
    (hstop : address < r.stop) : TryResolveRegion regions address 1 = some r := by
  unfold TryResolveRegion
  have hpair := hv.disjoint
  clear hv
  induction regions with
  | nil => cases hr
  | cons r' regions ih =>
    obtain ⟨hhead, hrest⟩ := List.pairwise_cons.mp hpair
    rw [List.find?_cons]
    rcases List.mem_cons.mp hr with rfl | hr
    · rw [decide_eq_true ⟨hbase, hstop⟩]
    · have hnot : ¬(r'.baseAddress ≤ address ∧ address + 1 ≤ r'.stop) := by
        have hdisjoint := hhead r hr
        omega
      rw [decide_eq_false hnot]
      exact ih hr hrest

theorem maps_of_mem (hv : Valid regions) (hr : r ∈ regions) (hbase : r.baseAddress ≤ address)
    (hstop : address + length ≤ r.stop) : Maps regions address length (r.pointer address) := by
  intro k hk
  unfold hostOf
  rw [resolve_of_mem hv hr (by omega) (by omega), Option.map_some, pointer_add hbase]

theorem foldl_pageEntry {entry : PageEntry} {start : Option PageEntry}
    (h : regions.foldl (fun entry r => (r.pageEntry page).or entry) start = some entry) :
    start = some entry ∨ ∃ r ∈ regions, r.pageEntry page = some entry := by
  induction regions generalizing start with
  | nil => exact .inl h
  | cons r regions ih =>
    rcases ih h with hstart | ⟨r', hr', hentry⟩
    · have hstart' : (r.pageEntry page).or start = some entry := hstart
      cases hr : r.pageEntry page with
      | none =>
        rw [hr] at hstart'
        exact .inl hstart'
      | some e =>
        rw [hr] at hstart'
        exact .inr ⟨r, List.mem_cons_self, hr.trans hstart'⟩
    · exact .inr ⟨r', List.mem_cons_of_mem _ hr', hentry⟩

theorem pageTable_spec (hv : Valid regions) {entry : PageEntry}
    (h : pageTable regions page = some entry) :
    Maps regions (page * kPageSize) entry.limit entry.base := by
  rcases foldl_pageEntry h with h | ⟨r, hr, hentry⟩
  · cases h
  · unfold Region.pageEntry at hentry
    split at hentry
    next hin =>
      cases hentry
      intro k hk
      have hlt : k < r.stop - page * kPageSize := Nat.lt_of_lt_of_le hk (Nat.min_le_right _ _)
      exact maps_of_mem hv hr hin.1 (by omega) k hlt
    · cases hentry

theorem entryPointer_spec (hv : Valid regions)
    (h : entryPointer regions address length = some pointer) :
    Maps regions address length pointer := by
  unfold entryPointer at h
  split at h
  · cases h
  next entry hentry =>
  split at h
  · cases h
  next hlimit =>
  cases h
  intro k hk
  have hmap := pageTable_spec hv hentry (address % kPageSize + k) (by omega)
  rw [← Nat.add_assoc, Nat.mul_comm, Nat.div_add_mod] at hmap
  rw [hmap, ofNat_add_ofNat]

theorem fullPageBias_spec (hv : Valid regions)
    (h : fullPageBias regions (address / kPageSize) ≠ 0) (hlength : length ≤ 8) :
    Maps regions address length (biased (fullPageBias regions (address / kPageSize)) address) := by
  unfold fullPageBias at h ⊢
  split at h
  next hlast =>
    rw [if_pos hlast]
    split at h
    next current next hcurrent hnext =>
      split at h
      next hfull =>
        obtain ⟨hlimit, hlimit', hbase⟩ := hfull
        rw [if_pos ⟨hlimit, hlimit', hbase⟩]
        intro k hk
        have hdiv := Nat.div_add_mod' address kPageSize
        have hmod := Nat.mod_lt address (show 0 < kPageSize by decide)
        -- the pointer of the byte, from the start of the page
        have hpointer : ∀ n, address + k = address / kPageSize * kPageSize + n →
            biased (current.base - UInt64.ofNat (address / kPageSize * kPageSize) + 1) address +
              UInt64.ofNat k = current.base + UInt64.ofNat n := by
          intro n hn
          unfold biased
          rw [UInt64.add_sub_cancel, ofNat_add_ofNat, hn, UInt64.ofNat_add, ← UInt64.add_assoc,
            UInt64.sub_add_cancel]
        have hsize : kMaxFastScalarSize = 8 := rfl
        by_cases hin : address % kPageSize + k < kPageSize
        · have hmap := pageTable_spec hv hcurrent (address % kPageSize + k) (by omega)
          rw [← Nat.add_assoc, hdiv] at hmap
          rw [hmap, hpointer (address % kPageSize + k) (by omega)]
        · have hmap := pageTable_spec hv hnext (address % kPageSize + k - kPageSize) (by omega)
          have haddress : (address / kPageSize + 1) * kPageSize +
              (address % kPageSize + k - kPageSize) = address + k := by
            rw [Nat.add_mul, Nat.one_mul]
            omega
          rw [haddress, hbase, ofNat_add_ofNat] at hmap
          rw [hmap, hpointer (kPageSize + (address % kPageSize + k - kPageSize)) (by omega)]
      next hnot => exact absurd rfl h
    next => exact absurd rfl h
  next => exact absurd rfl h

theorem TryGetPointerFast_spec (hv : Valid regions)
    (h : TryGetPointerFast regions address length = some pointer) :
    Maps regions address length pointer := by
  unfold TryGetPointerFast at h
  split at h
  next hfast =>
    cases h
    exact fullPageBias_spec hv hfast.2 hfast.1
  next => exact entryPointer_spec hv h

theorem GetPointer_spec (hv : Valid regions)
    (h : GetPointer regions address length = some pointer) :
    Maps regions address length pointer := by
  unfold GetPointer at h
  split at h
  next p hp =>
    cases h
    exact TryGetPointerFast_spec hv hp
  next =>
    obtain ⟨r, hr, rfl⟩ := Option.map_eq_some_iff.mp h
    unfold TryResolveRegion at hr
    have hin := List.find?_some hr
    rw [decide_eq_true_iff] at hin
    exact maps_of_mem hv (List.mem_of_find?_eq_some hr) hin.1 hin.2

end DolTranslator.Guest

/-!
## Guest memory, by checked access

* `RegisterDeferredRead`, `ResolveDeferredReads`   contents that are written when they are read;
* `RegisterExecutableRange`, `HandleExecutableWrite`   ranges that are not to be written;
* `RefreshFastPathTables`   the tables of the fast accesses;
* `step`   one access or one registration.

Without a flat view a resolved access has no host pointer, and is an access to memory.
-/

namespace DolTranslator.Guest

open Streams

abbrev HostMemory := UInt64 → UInt8

/-- a registered read; its callback writes the contents from the start on -/
structure DeferredRead where
  token : UInt64
  start : Nat
  contents : List UInt8
  deriving DecidableEq

structure ExecutableRange where
  start : Nat
  stop : Nat
  name : List Char
  deriving DecidableEq

structure State where
  regions : List Region
  memory : HostMemory
  deferredReads : List DeferredRead
  nextDeferredReadToken : UInt64
  fullReadablePageBias : Nat → UInt64
  fullWritablePageBias : Nat → UInt64
  sparseWritablePageTables : Nat → Option (Nat → UInt64)
  executableWriteGuardPages : Nat → Bool
  executableWriteGuardMidPages : Nat → Bool
  executableWriteGuardCoarsePages : Nat → Bool
  executableWriteGuardEnabled : Bool
  executableRanges : List ExecutableRange

/-! ## deferred reads -/

def RangesOverlap (firstStart firstLength secondStart secondLength : Nat) : Bool :=
  decide (firstStart < secondStart + secondLength ∧ secondStart < firstStart + firstLength)

namespace DeferredRead

def length (read : DeferredRead) : Nat := read.contents.length

def onPage (read : DeferredRead) (page : Nat) : Bool :=
  decide (read.start / kPageSize ≤ page ∧ page ≤ (read.start + read.length - 1) / kPageSize)

def writes (regions : List Region) (read : DeferredRead) : List (UInt64 × UInt8) :=
  read.contents.zipIdx.filterMap fun c => (hostOf regions (read.start + c.2)).map (·, c.1)

end DeferredRead

def covered (reads : List DeferredRead) (page : Nat) : Bool :=
  reads.any fun read => RangesOverlap (page * kPageSize) kPageSize read.start read.length

/-- the token, and 0 for a range that is empty or goes on past the addresses -/
def RegisterDeferredRead (s : State) (address : Nat) (contents : List UInt8) : State × UInt64 :=
  if contents.length = 0 ∨ 2 ^ 32 < address + contents.length then (s, 0)
  else
    let token := if s.nextDeferredReadToken = 0 then 1 else s.nextDeferredReadToken
    let read : DeferredRead := ⟨token, address, contents⟩
    ({ s with
        deferredReads := s.deferredReads ++ [read]
        nextDeferredReadToken := token + 1
        fullReadablePageBias := fun page =>
          if read.onPage page then 0 else s.fullReadablePageBias page },
      token)

/-- the callbacks of the ranges that are read, which are not pending then -/
def ResolveDeferredReads (s : State) (address length : Nat) : State :=
  let matching := fun read : DeferredRead => RangesOverlap address length read.start read.length
  let reads := s.deferredReads.filter fun read => !matching read
  { s with
    deferredReads := reads
    fullReadablePageBias := fun page =>
      if (s.deferredReads.filter matching).any (·.onPage page) then
        if covered reads page then 0 else fullPageBias s.regions page
      else s.fullReadablePageBias page
    memory := applyAll (·.writes s.regions) (s.deferredReads.filter matching) s.memory }

/-! ## the tables -/

/-- the pages of 4 KiB in one of 1 MiB -/
def kWritableSubPagesPerPage : Nat := 2 ^ 8

def sparseTable (guardPages : Nat → Bool) (bias : UInt64) (page : Nat) : Option (Nat → UInt64) :=
  let executable := fun subPage => guardPages (page * kWritableSubPagesPerPage + subPage)
  if (List.range kWritableSubPagesPerPage).any executable ∧
      (List.range kWritableSubPagesPerPage).any (fun subPage => !executable subPage) then
    some fun subPage => if executable subPage then 0 else bias
  else none

def RefreshFastPathTables (s : State) : State :=
  { s with
    fullReadablePageBias := fun page =>
      if s.deferredReads.any (·.onPage page) then 0 else fullPageBias s.regions page
    fullWritablePageBias := fun page =>
      if s.executableWriteGuardCoarsePages page then 0 else fullPageBias s.regions page
    sparseWritablePageTables := fun page =>
      if s.executableWriteGuardCoarsePages page = false ∨ fullPageBias s.regions page = 0 then none
      else sparseTable s.executableWriteGuardPages (fullPageBias s.regions page) page }

/-- the regions of a configuration; the tables are made anew -/
def Init (s : State) (regions : List Region) : State := RefreshFastPathTables { s with regions }

/-! ## executable ranges -/

def kGuardPageSize : Nat := 2 ^ 12

def kGuardMidPageSize : Nat := 2 ^ 16

def markPages (pageSize start stop : Nat) (guard : Nat → Bool) (page : Nat) : Bool :=
  decide (start / pageSize ≤ page ∧ page ≤ (stop - 1) / pageSize) || guard page

def MarkExecutableGuardPages (s : State) (start stop : Nat) : State :=
  if stop ≤ start then s
  else
    { s with
      executableWriteGuardPages :=
        markPages kGuardPageSize start stop s.executableWriteGuardPages
      executableWriteGuardCoarsePages :=
        markPages kPageSize start stop s.executableWriteGuardCoarsePages
      fullWritablePageBias := fun page =>
        if start / kPageSize ≤ page ∧ page ≤ (stop - 1) / kPageSize then 0
        else s.fullWritablePageBias page
      executableWriteGuardMidPages :=
        markPages kGuardMidPageSize start stop s.executableWriteGuardMidPages }

def AddExecutableRangeLocked (s : State) (start stop : Nat) (name : List Char) : State :=
  if stop ≤ start then s
  else if ⟨start, stop, name⟩ ∈ s.executableRanges then s
  else
    { MarkExecutableGuardPages
        { s with executableRanges := s.executableRanges ++ [⟨start, stop, name⟩] } start stop with
      executableWriteGuardEnabled := true }

def kMem1Size : Nat := 24 * 2 ^ 20

def kMem2Size : Nat := 128 * 2 ^ 20

def kMem1PhysicalBase : Nat := 0

def kMem1CachedBase : Nat := 0x80000000

def kMem1UncachedBase : Nat := 0xC0000000

def kMem2PhysicalBase : Nat := 0x10000000

def kMem2CachedBase : Nat := 0x90000000

def kMem2UncachedBase : Nat := 0xD0000000

def cachedSuffix : List Char := [' ', '[', 'c', 'a', 'c', 'h', 'e', 'd', ']']

def uncachedSuffix : List Char := [' ', '[', 'u', 'n', 'c', 'a', 'c', 'h', 'e', 'd', ']']

/-- the cached and the uncached view of a range of a memory -/
def addFromOffset (size cachedBase uncachedBase : Nat) (s : State) (offset length : Nat)
    (name : List Char) : State :=
  if size < offset + length then s
  else
    AddExecutableRangeLocked
      (AddExecutableRangeLocked s (cachedBase + offset) (cachedBase + offset + length)
        (name ++ cachedSuffix))
      (uncachedBase + offset) (uncachedBase + offset + length) (name ++ uncachedSuffix)

def AddMem1AliasesLocked (s : State) (start stop : Nat) (name : List Char) : State :=
  let add := fun offset =>
    addFromOffset kMem1Size kMem1CachedBase kMem1UncachedBase s offset (stop - start) name
  if stop ≤ start then s
  else if start < 0x01800000 ∧ stop ≤ 0x01800000 then add start
  else if 0x80000000 ≤ start ∧ stop ≤ 0x81800000 then add (start - 0x80000000)
  else if 0xC0000000 ≤ start ∧ stop ≤ 0xC1800000 then add (start - 0xC0000000)
  else s

def AddMem2AliasesLocked (s : State) (start stop : Nat) (name : List Char) : State :=
  let add := fun offset =>
    addFromOffset kMem2Size kMem2CachedBase kMem2UncachedBase s offset (stop - start) name
  if stop ≤ start then s
  else if kMem2PhysicalBase ≤ start ∧ stop ≤ kMem2PhysicalBase + kMem2Size then
    add (start - kMem2PhysicalBase)
  else if kMem2CachedBase ≤ start ∧ stop ≤ kMem2CachedBase + kMem2Size then
    add (start - kMem2CachedBase)
  else if kMem2UncachedBase ≤ start ∧ stop ≤ kMem2UncachedBase + kMem2Size then
    add (start - kMem2UncachedBase)
  else s

def hex (n : Nat) : List Char := (Nat.toDigits 16 n).map Char.toUpper

def RegisterExecutableRange (s : State) (start stop : Nat) (name : List Char) : State :=
  if stop ≤ start then s
  else
    let name := if name = [] then ['0', 'x'] ++ hex start ++ ['-', '0', 'x'] ++ hex stop else name
    RefreshFastPathTables
      (AddMem2AliasesLocked
        (AddMem1AliasesLocked (AddExecutableRangeLocked s start stop name) start stop name)
        start stop name)

/-- a page of the range, of a size, is guarded; there are so many pages -/
def anyPage (pageSize count : Nat) (guard : Nat → Bool) (address length : Nat) : Bool :=
  (List.range (min (count - 1) ((address + length - 1) / pageSize) + 1)).any fun page =>
    decide (address / pageSize ≤ page) && guard page

def ExecutableWriteGuardMayHit (s : State) (address length : Nat) : Bool :=
  if length = 0 ∨ s.executableWriteGuardEnabled = false then false
  else
    anyPage kPageSize (2 ^ 12) s.executableWriteGuardCoarsePages address length &&
      anyPage kGuardMidPageSize (2 ^ 16) s.executableWriteGuardMidPages address length &&
      anyPage kGuardPageSize (2 ^ 20) s.executableWriteGuardPages address length

def Intersects (address length : Nat) (range : ExecutableRange) : Bool :=
  decide (address < range.stop ∧ range.start < address + length)

def FindExecutableRange (s : State) (address length : Nat) : Option ExecutableRange :=
  s.executableRanges.find? (Intersects address length)

/-- the loader of a relocatable module, by the link register; none without a context -/
def IsKnownBaseRelLoaderWrite (range : ExecutableRange) (lr : Option UInt32) : Bool :=
  if ['S', 't', 'a', 't', 'i', 'c', 'R', '.', 'r', 'e', 'l'] <:+: range.name then
    match lr with
    | none => false
    | some lr =>
      decide (0x8000A000 ≤ lr ∧ lr < 0x8000A400) || decide (0x801A6000 ≤ lr ∧ lr < 0x801A7000)
  else false

def HandleExecutableWrite (s : State) (address length : Nat) (lr : Option UInt32) : Bool :=
  if ExecutableWriteGuardMayHit s address length then
    match FindExecutableRange s address length with
    | none => false
    | some range => !IsKnownBaseRelLoaderWrite range lr
  else false

/-- the first and the last page of 4 KiB of an access -/
def exactGuard (s : State) (address length : Nat) : Bool :=
  s.executableWriteGuardPages (address / kGuardPageSize) ||
    (decide ((address + length - 1) / kGuardPageSize ≠ address / kGuardPageSize) &&
      s.executableWriteGuardPages ((address + length - 1) / kGuardPageSize))

def TryGetWritablePointerFast (s : State) (address length : Nat) : Option UInt64 :=
  if length = 0 ∨ 8 < length ∨ 2 ^ 32 < address + length then none
  else
    let coarsePage := address / kPageSize
    let encodedBias := s.fullWritablePageBias coarsePage
    let endAddress := address + length - 1
    if encodedBias ≠ 0 then
      if endAddress / kPageSize ≠ coarsePage ∧
          s.executableWriteGuardPages (endAddress / kGuardPageSize) then
        none
      else some (biased encodedBias address)
    else
      match s.sparseWritablePageTables coarsePage with
      | some subTable =>
        let bias := subTable (address % kPageSize / kGuardPageSize)
        if bias = 0 ∨ exactGuard s address length then none else some (biased bias address)
      | none =>
        -- a mapping that is smaller than a page
        match entryPointer s.regions address length with
        | none => none
        | some pointer => if exactGuard s address length then none else some pointer

def TryWriteGuestScalar (s : State) (address length : Nat) : Option UInt64 :=
  if 2 ^ 32 < address + length then none
  else if (address + length - 1) / kPageSize ≠ address / kPageSize then none
  else if s.fullWritablePageBias (address / kPageSize) ≠ 0 then
    some (biased (s.fullWritablePageBias (address / kPageSize)) address)
  else TryGetWritablePointerFast s address length

/-! ## accesses -/

inductive AccessSize where
  | byte | half | word | double
  deriving DecidableEq

def AccessSize.length : AccessSize → Nat
  | .byte => 1
  | .half => 2
  | .word => 4
  | .double => 8

def toBytes (length value : Nat) : List UInt8 :=
  (List.range length).map fun k => UInt8.ofNat (value / 256 ^ (length - 1 - k))

def fromBytes (bytes : List UInt8) : Nat := bytes.foldl (fun value b => value * 256 + b.toNat) 0

def loadScalar (memory : HostMemory) (pointer : UInt64) (length : Nat) : Nat :=
  fromBytes ((List.range length).map fun k => memory (pointer + UInt64.ofNat k))

def storeWrites (pointer : UInt64) (bytes : List UInt8) : List (UInt64 × UInt8) :=
  bytes.zipIdx.map fun b => (pointer + UInt64.ofNat b.2, b.1)

/-- what the guest sees of a step; a device answers in its window, and a report is the end -/
inductive Outcome where
  | token (token : UInt64)
  | value (value : Nat)
  | done | mmio | reported | violation
  deriving DecidableEq

def IsMmioAddress (address : Nat) : Bool := decide (0xCC000000 ≤ address ∧ address < 0xCE000000)

def State.load (s : State) (pointer : UInt64) (length : Nat) : State × Outcome :=
  (s, .value (loadScalar s.memory pointer length))

def State.store (s : State) (pointer : UInt64) (bytes : List UInt8) : State × Outcome :=
  ({ s with memory := applyWrites (storeWrites pointer bytes) s.memory }, .done)

def TryReadGuestScalar (s : State) (address : Nat) : Option UInt64 :=
  if s.fullReadablePageBias (address / kPageSize) = 0 then none
  else some (biased (s.fullReadablePageBias (address / kPageSize)) address)

def ReadSlow (s : State) (address length : Nat) : State × Outcome :=
  if IsMmioAddress address then (s, .mmio)
  else
    let s := ResolveDeferredReads s address length
    match GetPointer s.regions address length with
    | none => (s, .violation)
    | some pointer => s.load pointer length

def Read (s : State) (address length : Nat) : State × Outcome :=
  match TryReadGuestScalar s address with
  | some pointer => s.load pointer length
  | none => ReadSlow s address length

def ReadStack (s : State) (address length : Nat) : State × Outcome :=
  match TryGetPointerFast s.regions address length with
  | some pointer => s.load pointer length
  | none => Read s address length

def WriteScalar (s : State) (address : Nat) (bytes : List UInt8) (lr : Option UInt32) :
    State × Outcome :=
  if HandleExecutableWrite s address bytes.length lr then (s, .reported)
  else
    match GetPointer s.regions address bytes.length with
    | none => (s, .violation)
    | some pointer => s.store pointer bytes

def WriteSlow (s : State) (address : Nat) (bytes : List UInt8) (lr : Option UInt32) :
    State × Outcome :=
  if IsMmioAddress address then (s, .mmio) else WriteScalar s address bytes lr

def Write (s : State) (address : Nat) (bytes : List UInt8) (lr : Option UInt32) : State × Outcome :=
  match TryWriteGuestScalar s address bytes.length with
  | some pointer => s.store pointer bytes
  | none => WriteSlow s address bytes lr

def WriteStack (s : State) (address : Nat) (bytes : List UInt8) (lr : Option UInt32) :
    State × Outcome :=
  match TryGetPointerFast s.regions address bytes.length with
  | some pointer => s.store pointer bytes
  | none => Write s address bytes lr

def WriteQuantized (s : State) (address : Nat) (bytes : List UInt8) (lr : Option UInt32) :
    State × Outcome :=
  match TryGetWritablePointerFast s address bytes.length with
  | some pointer => s.store pointer bytes
  | none => Write s address bytes lr

/-- words of zeros; the first that is reported or not mapped is the last -/
def writeZeros (s : State) (lr : Option UInt32) : List Nat → State × Outcome
  | [] => (s, .done)
  | address :: addresses =>
    match Write s address (toBytes 4 0) lr with
    | (s, .reported) => (s, .reported)
    | (s, .violation) => (s, .violation)
    | (s, _) => writeZeros s lr addresses

def blockWords (address : Nat) : List Nat := (List.range 8).map fun i => (address + i * 4) % 2 ^ 32

/-- the block of an address: the caller aligns it -/
def blockOf (address : UInt32) : Nat := address.toNat / 32 * 32

def memset_zero_32 (s : State) (address : Nat) (lr : Option UInt32) : State × Outcome :=
  match GetPointer s.regions address 32 with
  | some pointer => s.store pointer (List.replicate 32 0)
  | none => writeZeros s lr (blockWords address)

/-! ## steps -/

/-- the slow path of a read is that of a pair of floats -/
inductive ReadPath where
  | memory | slow | stack | resolved
  deriving DecidableEq

inductive StorePath where
  | memory | slow | stack | resolved | quantized
  deriving DecidableEq

inductive Op where
  | registerDeferredRead (address : UInt32) (contents : List UInt8)
  | registerExecutableRange (start stop : UInt32) (name : List Char)
  | read (path : ReadPath) (address : UInt32) (size : AccessSize)
  | store (path : StorePath) (address : UInt32) (size : AccessSize) (value : Nat)
    (lr : Option UInt32)
  | dcbz (address : UInt32) (lr : Option UInt32)

def readBy : ReadPath → State → Nat → Nat → State × Outcome
  | .memory => Read
  | .slow => ReadSlow
  | .stack => ReadStack
  | .resolved => Read

def storeBy : StorePath → State → Nat → List UInt8 → Option UInt32 → State × Outcome
  | .memory => Write
  | .slow => WriteSlow
  | .stack => WriteStack
  | .resolved => Write
  | .quantized => WriteQuantized

def step (s : State) : Op → State × Outcome
  | .registerDeferredRead address contents =>
    let (s, token) := RegisterDeferredRead s address.toNat contents
    (s, .token token)
  | .registerExecutableRange start stop name =>
    (RegisterExecutableRange s start.toNat stop.toNat name, .done)
  | .read path address size => readBy path s address.toNat size.length
  | .store path address size value lr =>
    storeBy path s address.toNat (toBytes size.length value) lr
  | .dcbz address lr => memset_zero_32 s (blockOf address) lr

/-- what the guest sees of a run, until a report -/
def run (s : State) : List Op → List Outcome
  | [] => []
  | op :: ops =>
    let (s, outcome) := step s op
    if outcome = .reported then [.reported] else outcome :: run s ops

/-- nothing is mapped and nothing registered -/
def State.empty (memory : HostMemory) : State where
  regions := []
  memory := memory
  deferredReads := []
  nextDeferredReadToken := 1
  fullReadablePageBias := fun _ => 0
  fullWritablePageBias := fun _ => 0
  sparseWritablePageTables := fun _ => none
  executableWriteGuardPages := fun _ => false
  executableWriteGuardMidPages := fun _ => false
  executableWriteGuardCoarsePages := fun _ => false
  executableWriteGuardEnabled := false
  executableRanges := []

/-- ranges that are registered before memory is -/
structure Registered where
  start : UInt32
  stop : UInt32
  name : List Char

def registerRanges (s : State) (ranges : List Registered) : State :=
  ranges.foldl (fun s r => RegisterExecutableRange s r.start.toNat r.stop.toNat r.name) s

def start (memory : HostMemory) (before : List Registered) (regions : List Region) : State :=
  Init (registerRanges (State.empty memory) before) regions

end DolTranslator.Guest
