import DolTranslator.Guest.Deferred

/-!
# The ranges and the pages of the executable guard

* `Marked`   all pages of all ranges are guarded;
* `Grown`   what a registration does to the ranges;
* `WiiDefaults`   the default regions: three views of each memory;
* `Alias`   ranges at the same storage as a range;
* `grown_addRanges`   a registration adds aliases of the range, and nothing else;
* `mem_addRanges`   it adds the range.
-/

namespace DolTranslator.Guest

/-- a range has the address -/
def ExecutableRange.Has (r : ExecutableRange) (address : Nat) : Prop :=
  r.start ≤ address ∧ address < r.stop

/-- all pages of the ranges are guarded -/
structure Marked (s : State) : Prop where
  pages : ∀ r ∈ s.executableRanges, ∀ address, r.Has address →
    s.executableWriteGuardPages (address / kGuardPageSize) = true
  midPages : ∀ r ∈ s.executableRanges, ∀ address, r.Has address →
    s.executableWriteGuardMidPages (address / kGuardMidPageSize) = true
  coarsePages : ∀ r ∈ s.executableRanges, ∀ address, r.Has address →
    s.executableWriteGuardCoarsePages (address / kPageSize) = true
  enabled : ∀ r ∈ s.executableRanges, s.executableWriteGuardEnabled = true
  bounded : ∀ r ∈ s.executableRanges, r.stop ≤ 2 ^ 32
  nonempty : ∀ r ∈ s.executableRanges, r.start < r.stop

/-- only ranges with a property are added, and no page loses its guard -/
structure Grown (P : Nat → Nat → Prop) (s s' : State) : Prop where
  keeps : ∀ r ∈ s.executableRanges, r ∈ s'.executableRanges
  added : ∀ r ∈ s'.executableRanges, r ∈ s.executableRanges ∨ P r.start r.stop
  marked : Marked s → Marked s'

namespace Grown

variable {P : Nat → Nat → Prop} {s s' s'' : State}

theorem refl (s : State) : Grown P s s := ⟨fun _ h => h, fun _ h => .inl h, fun h => h⟩

theorem trans (h : Grown P s s') (h' : Grown P s' s'') : Grown P s s'' := by
  refine ⟨fun r hr => h'.keeps r (h.keeps r hr), fun r hr => ?_, fun hm => h'.marked (h.marked hm)⟩
  rcases h'.added r hr with hr | hr
  · exact h.added r hr
  · exact .inr hr

end Grown

/-! ## one range -/

variable {start stop : Nat}

theorem markPages_of_guard {pageSize page : Nat} {guard : Nat → Bool}
    (h : guard page = true) : markPages pageSize start stop guard page = true := by
  unfold markPages
  rw [h, Bool.or_true]

theorem markPages_of_has {pageSize address : Nat} {guard : Nat → Bool}
    (h : start ≤ address ∧ address < stop) :
    markPages pageSize start stop guard (address / pageSize) = true := by
  unfold markPages
  rw [decide_eq_true ⟨Nat.div_le_div_right h.1, Nat.div_le_div_right (Nat.le_sub_one_of_lt h.2)⟩,
    Bool.true_or]

variable {name : List Char} {s : State}

theorem add_of_nonempty (h : start < stop)
    (hnew : (⟨start, stop, name⟩ : ExecutableRange) ∉ s.executableRanges) :
    AddExecutableRangeLocked s start stop name =
      { MarkExecutableGuardPages
          { s with executableRanges := s.executableRanges ++ [⟨start, stop, name⟩] } start stop with
        executableWriteGuardEnabled := true } := by
  unfold AddExecutableRangeLocked
  rw [if_neg (Nat.not_le.mpr h), if_neg hnew]

theorem marked_add (h : Marked s)
    (hlt : start < stop) (hstop : stop ≤ 2 ^ 32)
    (hnew : (⟨start, stop, name⟩ : ExecutableRange) ∉ s.executableRanges) :
    Marked (AddExecutableRangeLocked s start stop name) := by
  rw [add_of_nonempty hlt hnew]
  unfold MarkExecutableGuardPages
  rw [if_neg (Nat.not_le.mpr hlt)]
  have hcases : ∀ r, r ∈ s.executableRanges ++ [⟨start, stop, name⟩] →
      r ∈ s.executableRanges ∨ r = ⟨start, stop, name⟩ := by
    intro r hr
    rcases List.mem_append.mp hr with hr | hr
    · exact .inl hr
    · exact .inr (List.mem_singleton.mp hr)
  refine ⟨fun r hr address ha => ?_, fun r hr address ha => ?_, fun r hr address ha => ?_,
    fun _ _ => rfl, fun r hr => ?_, fun r hr => ?_⟩
  · rcases hcases r hr with hr | rfl
    · exact markPages_of_guard (h.pages r hr address ha)
    · exact markPages_of_has ha
  · rcases hcases r hr with hr | rfl
    · exact markPages_of_guard (h.midPages r hr address ha)
    · exact markPages_of_has ha
  · rcases hcases r hr with hr | rfl
    · exact markPages_of_guard (h.coarsePages r hr address ha)
    · exact markPages_of_has ha
  · rcases hcases r hr with hr | rfl
    · exact h.bounded r hr
    · exact hstop
  · rcases hcases r hr with hr | rfl
    · exact h.nonempty r hr
    · exact hlt

theorem ranges_add (h : start < stop)
    (hnew : (⟨start, stop, name⟩ : ExecutableRange) ∉ s.executableRanges) :
    (AddExecutableRangeLocked s start stop name).executableRanges =
      s.executableRanges ++ [⟨start, stop, name⟩] := by
  rw [add_of_nonempty h hnew]
  unfold MarkExecutableGuardPages
  rw [if_neg (Nat.not_le.mpr h)]

theorem grown_add {P : Nat → Nat → Prop} (h : P start stop)
    (hstop : stop ≤ 2 ^ 32) (s : State) (name : List Char) :
    Grown P s (AddExecutableRangeLocked s start stop name) := by
  by_cases hlt : start < stop
  · by_cases hnew : (⟨start, stop, name⟩ : ExecutableRange) ∈ s.executableRanges
    · unfold AddExecutableRangeLocked
      rw [if_neg (Nat.not_le.mpr hlt), if_pos hnew]
      exact .refl s
    · refine ⟨fun r hr => ?_, fun r hr => ?_, fun hm => marked_add hm hlt hstop hnew⟩
      · rw [ranges_add hlt hnew]
        exact List.mem_append_left _ hr
      · rw [ranges_add hlt hnew] at hr
        rcases List.mem_append.mp hr with hr | hr
        · exact .inl hr
        · rw [List.mem_singleton.mp hr]
          exact .inr h
  · unfold AddExecutableRangeLocked
    rw [if_pos (Nat.not_lt.mp hlt)]
    exact .refl s

theorem mem_add (h : start < stop) :
    (⟨start, stop, name⟩ : ExecutableRange) ∈
      (AddExecutableRangeLocked s start stop name).executableRanges := by
  by_cases hnew : (⟨start, stop, name⟩ : ExecutableRange) ∈ s.executableRanges
  · unfold AddExecutableRangeLocked
    rw [if_neg (Nat.not_le.mpr h), if_pos hnew]
    exact hnew
  · rw [ranges_add h hnew]
    exact List.mem_append_right _ (List.mem_singleton_self _)

/-! ## the default regions, and aliases -/

/-- the views of both memories, by the pointers of their storage, a module's overlay and the locked
cache -/
def WiiDefaults (mem1 mem2 overlay lockedCache : UInt64) : List Region :=
  [⟨kMem1PhysicalBase, mem1, kMem1Size⟩, ⟨kMem1CachedBase, mem1, kMem1Size⟩,
    ⟨kMem1UncachedBase, mem1, kMem1Size⟩, ⟨kMem2PhysicalBase, mem2, kMem2Size⟩,
    ⟨kMem2CachedBase, mem2, kMem2Size⟩, ⟨kMem2UncachedBase, mem2, kMem2Size⟩,
    ⟨0x81800000, overlay, 0x200000⟩, ⟨0xE0000000, lockedCache, kPageSize + 4096⟩]

variable {mem1 mem2 overlay lockedCache : UInt64}

theorem valid_WiiDefaults : Valid (WiiDefaults mem1 mem2 overlay lockedCache) := by
  constructor
  · unfold WiiDefaults Region.stop
    simp only [List.pairwise_cons, List.forall_mem_cons, List.not_mem_nil, IsEmpty.forall_iff,
      implies_true, List.Pairwise.nil, and_true]
    decide
  · unfold WiiDefaults Region.stop
    simp only [List.forall_mem_cons, List.not_mem_nil, IsEmpty.forall_iff, implies_true, and_true]
    decide

theorem hostOf_region {regions : List Region} {r : Region} {offset : Nat} (hv : Valid regions)
    (hr : r ∈ regions) (h : offset < r.storageSize) :
    hostOf regions (r.baseAddress + offset) = some (r.storagePtr + UInt64.ofNat offset) := by
  unfold hostOf
  rw [resolve_of_mem hv hr (Nat.le_add_right _ _) (Nat.add_lt_add_left h _), Option.map_some]
  unfold Region.pointer
  rw [Nat.add_sub_cancel_left]

/-- each address of a range is one of another, or has the storage of one -/
def Alias (regions : List Region) (start stop : Nat) (start' stop' : Nat) : Prop :=
  ∀ address, start' ≤ address → address < stop' → ∃ y, start ≤ y ∧ y < stop ∧
    (address = y ∨ ∃ q, hostOf regions address = some q ∧ hostOf regions y = some q)

theorem alias_of_views {regions : List Region} {r r' : Region}
    (offset length : Nat) (hv : Valid regions) (hr : r ∈ regions) (hr' : r' ∈ regions)
    (hptr : r'.storagePtr = r.storagePtr) (hstart : start = r.baseAddress + offset)
    (hin : offset + length ≤ r.storageSize) (hin' : offset + length ≤ r'.storageSize) :
    Alias regions start (start + length) (r'.baseAddress + offset)
      (r'.baseAddress + offset + length) := by
  intro address hle hlt
  refine ⟨start + (address - (r'.baseAddress + offset)), by omega, by omega, .inr ?_⟩
  have hhost' := hostOf_region hv hr' (show address - r'.baseAddress < _ by omega)
  have hhost := hostOf_region hv hr (show address - r'.baseAddress < _ by omega)
  rw [show r'.baseAddress + (address - r'.baseAddress) = address by omega] at hhost'
  rw [show start + (address - (r'.baseAddress + offset)) =
    r.baseAddress + (address - r'.baseAddress) by omega]
  exact ⟨_, hhost', by rw [hhost, hptr]⟩

/-- three views of one storage: the range is in one, and its aliases in the other two -/
theorem grown_addFromOffset {regions : List Region} {r : Region} {size : Nat}
    (cached uncached : Region) (hv : Valid regions) (hr : r ∈ regions) (hcached : cached ∈ regions)
    (huncached : uncached ∈ regions)
    (hptr : cached.storagePtr = r.storagePtr ∧ uncached.storagePtr = r.storagePtr)
    (hsize : r.storageSize = size ∧ cached.storageSize = size ∧ uncached.storageSize = size)
    (hlt : start < stop) (hbase : r.baseAddress ≤ start) (s : State)
    (name : List Char) :
    Grown (Alias regions start stop) s (addFromOffset size cached.baseAddress uncached.baseAddress s
      (start - r.baseAddress) (stop - start) name) := by
  unfold addFromOffset
  split
  · exact .refl s
  next hin =>
    have hadd : ∀ r' ∈ regions, r'.storagePtr = r.storagePtr → r'.storageSize = size →
        ∀ s name, Grown (Alias regions start stop) s (AddExecutableRangeLocked s
          (r'.baseAddress + (start - r.baseAddress))
          (r'.baseAddress + (start - r.baseAddress) + (stop - start)) name) := by
      intro r' hr' hptr' hsize' s name
      have hbound := hv.bounded r' hr'
      unfold Region.stop at hbound
      have halias := alias_of_views (start - r.baseAddress) (stop - start) hv hr
        hr' hptr' (Nat.add_sub_cancel' hbase).symm (by omega) (by omega)
      rw [Nat.add_sub_cancel' hlt.le] at halias
      exact grown_add halias (by omega) s name
    exact (hadd cached hcached hptr.1 hsize.2.1 s _).trans
      (hadd uncached huncached hptr.2 hsize.2.2 _ _)

theorem grown_addView {size cached uncached base : Nat} {storage : UInt64}
    (hcached : ⟨cached, storage, size⟩ ∈ WiiDefaults mem1 mem2 overlay lockedCache)
    (huncached : ⟨uncached, storage, size⟩ ∈ WiiDefaults mem1 mem2 overlay lockedCache)
    (hbase : ⟨base, storage, size⟩ ∈ WiiDefaults mem1 mem2 overlay lockedCache)
    (hle : base ≤ start) (hlt : start < stop) (s : State) (name : List Char) :
    Grown (Alias (WiiDefaults mem1 mem2 overlay lockedCache) start stop) s
      (addFromOffset size cached uncached s (start - base) (stop - start) name) :=
  grown_addFromOffset ⟨cached, storage, size⟩ ⟨uncached, storage, size⟩ valid_WiiDefaults hbase
    hcached huncached ⟨rfl, rfl⟩ ⟨rfl, rfl, rfl⟩ hlt hle s name

theorem grown_addMem1 (s : State) (name : List Char) :
    Grown (Alias (WiiDefaults mem1 mem2 overlay lockedCache) start stop) s
      (AddMem1AliasesLocked s start stop name) := by
  have hadd : ∀ base, ⟨base, mem1, kMem1Size⟩ ∈ WiiDefaults mem1 mem2 overlay lockedCache →
      base ≤ start → start < stop → Grown _ s (addFromOffset kMem1Size kMem1CachedBase
        kMem1UncachedBase s (start - base) (stop - start) name) := fun base hbase hle hlt =>
    grown_addView (by simp [WiiDefaults]) (by simp [WiiDefaults]) hbase hle hlt s name
  unfold AddMem1AliasesLocked
  dsimp only
  split
  · exact .refl s
  next hlt =>
  split
  · exact hadd 0 (by simp [WiiDefaults, kMem1PhysicalBase]) (Nat.zero_le _) (Nat.not_le.mp hlt)
  split
  next hin =>
    exact hadd 0x80000000 (by simp [WiiDefaults, kMem1CachedBase]) hin.1 (Nat.not_le.mp hlt)
  split
  next hin =>
    exact hadd 0xC0000000 (by simp [WiiDefaults, kMem1UncachedBase]) hin.1 (Nat.not_le.mp hlt)
  · exact .refl s

theorem grown_addMem2 (s : State) (name : List Char) :
    Grown (Alias (WiiDefaults mem1 mem2 overlay lockedCache) start stop) s
      (AddMem2AliasesLocked s start stop name) := by
  have hadd : ∀ base, ⟨base, mem2, kMem2Size⟩ ∈ WiiDefaults mem1 mem2 overlay lockedCache →
      base ≤ start → start < stop → Grown _ s (addFromOffset kMem2Size kMem2CachedBase
        kMem2UncachedBase s (start - base) (stop - start) name) := fun base hbase hle hlt =>
    grown_addView (by simp [WiiDefaults]) (by simp [WiiDefaults]) hbase hle hlt s name
  unfold AddMem2AliasesLocked
  dsimp only
  split
  · exact .refl s
  next hlt =>
  split
  next hin => exact hadd kMem2PhysicalBase (by simp [WiiDefaults]) hin.1 (Nat.not_le.mp hlt)
  split
  next hin => exact hadd kMem2CachedBase (by simp [WiiDefaults]) hin.1 (Nat.not_le.mp hlt)
  split
  next hin => exact hadd kMem2UncachedBase (by simp [WiiDefaults]) hin.1 (Nat.not_le.mp hlt)
  · exact .refl s

theorem grown_addRanges (hstop : stop ≤ 2 ^ 32) (s : State) (name : List Char) :
    Grown (Alias (WiiDefaults mem1 mem2 overlay lockedCache) start stop) s
      (addRanges s start stop name) := by
  have hself : Alias (WiiDefaults mem1 mem2 overlay lockedCache) start stop start stop :=
    fun address hle hlt => ⟨address, hle, hlt, .inl rfl⟩
  exact ((grown_add hself hstop s _).trans (grown_addMem1 _ _)).trans (grown_addMem2 _ _)

theorem mem_addRanges (hlt : start < stop) (s : State)
    (name : List Char) : ∃ r ∈ (addRanges s start stop name).executableRanges,
      r.start = start ∧ r.stop = stop := by
  unfold addRanges
  dsimp only
  generalize (if name = [] then _ else name) = name'
  have hmem : (⟨start, stop, name'⟩ : ExecutableRange) ∈
      (AddExecutableRangeLocked s start stop name').executableRanges := mem_add hlt
  have hgrown : Grown (Alias (WiiDefaults 0 0 0 0) start stop)
      (AddExecutableRangeLocked s start stop name') (AddMem2AliasesLocked (AddMem1AliasesLocked
        (AddExecutableRangeLocked s start stop name') start stop name') start stop name') :=
    (grown_addMem1 _ name').trans (grown_addMem2 _ name')
  exact ⟨_, hgrown.keeps _ hmem, rfl, rfl⟩

end DolTranslator.Guest
