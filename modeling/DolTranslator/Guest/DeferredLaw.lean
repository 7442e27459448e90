import DolTranslator.Guest.Accesses
import DolTranslator.Guest.Deferred

/-!
# What the guest sees of deferred reads

* `Allowed`   accesses that do not come upon storage of a pending range which they do not resolve;
* `stepNow_immediate`   such a step of a state is the step of the memory it stands for;
* `deferred_reads_invisible`   in a run of such steps every read is as if the callbacks had run at
  once.
-/

namespace DolTranslator.Guest

open Streams

variable {s : State} {address length : Nat} {pointer : UInt64} {bytes : List UInt8}
  {lr : Option UInt32}

/-! ## what is allowed -/

/-- the storage of a pending range is not that of an access -/
def Apart (regions : List Region) (read : DeferredRead) (pointer : UInt64) (length : Nat) : Prop :=
  ∀ k, k < length → pointer + UInt64.ofNat k ∉ footprint (read.writes regions)

/-- an access is of no storage of a pending range -/
def Untouched (s : State) (pointer : UInt64) (length : Nat) : Prop :=
  ∀ read ∈ s.deferredReads, Apart s.regions read pointer length

/-- the ranges at the addresses of the read have no storage of an earlier pending range elsewhere,
and the read has none of a range elsewhere -/
structure SlowAllowed (s : State) (address length : Nat) : Prop where
  order : Independent (·.writes s.regions)
    (fun read => RangesOverlap address length read.start read.length) s.deferredReads
  apart : ∀ pointer, GetPointer s.regions address length = some pointer →
    ∀ read ∈ s.deferredReads, RangesOverlap address length read.start read.length = false →
      Apart s.regions read pointer length

/-- a fast read comes upon no pending range: in the next page, or in another view of it -/
def ReadAllowed (s : State) (address length : Nat) : Prop :=
  match TryReadGuestScalar s address with
  | some pointer => Untouched s pointer length
  | none =>
    if IsMmioAddress address then fullPageBias s.regions (address / kPageSize) = 0
    else SlowAllowed s address length

def ReadByAllowed : ReadPath → State → Nat → Nat → Prop
  | .memory => ReadAllowed
  | .resolved => ReadAllowed
  | .slow => fun s address length => IsMmioAddress address = false → SlowAllowed s address length
  | .stack => fun s address length =>
    match TryGetPointerFast s.regions address length with
    | some pointer => Untouched s pointer length
    | none => ReadAllowed s address length

/-- a step that comes upon no storage of a pending range which it does not resolve -/
def Allowed (s : State) : Op → Prop
  | .registerDeferredRead _ _ => True
  | .registerExecutableRange _ _ _ => True
  | .read path address size => ReadByAllowed path s address.toNat size.length
  | .store path address size _ lr =>
    ∀ pointer, storePointer path s address.toNat size.length lr = some pointer →
      Untouched s pointer size.length
  | .dcbz address lr =>
    match GetPointer s.regions (blockOf address) 32 with
    | some pointer => Untouched s pointer 32
    | none =>
      ∀ word ∈ blockWords (blockOf address), ∀ pointer, writePointer s word 4 lr = some pointer →
        Untouched s pointer 4

/-! ## reads -/

theorem load_immediate (h : Untouched s pointer length) :
    (immediate s).load pointer length = (immediate s, (s.load pointer length).2) := by
  unfold State.load loadScalar
  dsimp only
  congr 3
  refine List.map_congr_left fun k hk => ?_
  exact applyAll_of_not_mem fun read hread => h read hread k (List.mem_range.mp hk)

theorem resolve_immediate (h : SlowAllowed s address length) :
    immediate (ResolveDeferredReads s address length) = immediate s :=
  congrArg (fun memory => ({ immediate s with memory := memory } : State))
    (applyAll_filter h.order s.memory)

theorem resolve_nothing : ResolveDeferredReads (immediate s) address length = immediate s := rfl

theorem ReadSlow_immediate (h : IsMmioAddress address = false → SlowAllowed s address length) :
    ReadSlow (immediate s) address length =
      (immediate (ReadSlow s address length).1, (ReadSlow s address length).2) := by
  unfold ReadSlow
  cases hmmio : IsMmioAddress address with
  | true => rfl
  | false =>
    have hallowed := h hmmio
    have hsame := resolve_immediate hallowed
    rw [if_neg Bool.false_ne_true, if_neg Bool.false_ne_true, resolve_nothing]
    dsimp only
    cases hpointer : GetPointer s.regions address length with
    | none =>
      rw [show GetPointer (immediate s).regions address length = none from hpointer,
        show GetPointer (ResolveDeferredReads s address length).regions address length = none from
          hpointer]
      exact congrArg (·, Outcome.violation) hsame.symm
    | some pointer =>
      rw [show GetPointer (immediate s).regions address length = some pointer from hpointer,
        show GetPointer (ResolveDeferredReads s address length).regions address length =
          some pointer from hpointer]
      -- what is pending then is elsewhere
      have huntouched : Untouched (ResolveDeferredReads s address length) pointer length := by
        intro read hread
        obtain ⟨hmem, hnot⟩ := List.mem_filter.mp hread
        exact hallowed.apart pointer hpointer read hmem (by simpa using hnot)
      have hload := load_immediate huntouched
      rw [hsame] at hload
      exact hload.trans
        (congrArg (·, ((ResolveDeferredReads s address length).load pointer length).2) hsame.symm)

theorem Read_immediate (ht : Tables s) (hlength : length ≤ 8) (h : ReadAllowed s address length) :
    Read (immediate s) address length =
      (immediate (Read s address length).1, (Read s address length).2) := by
  unfold ReadAllowed at h
  unfold Read
  have hbias := ht.readable (address / kPageSize)
  cases hfast : TryReadGuestScalar s address with
  | some pointer =>
    rw [hfast] at h
    -- no pending range is on the page: the bias is that of both
    have hnow : TryReadGuestScalar (immediate s) address = some pointer := by
      unfold TryReadGuestScalar at hfast ⊢
      split at hfast
      · cases hfast
      next hne =>
        rw [hbias] at hne hfast
        split at hne
        · exact absurd rfl hne
        next hcovered =>
          rw [if_neg hcovered] at hfast
          rw [← hfast]
          exact if_neg hne
    rw [hnow]
    exact load_immediate h
  | none =>
    rw [hfast] at h
    dsimp only at h
    have hslow : IsMmioAddress address = false → SlowAllowed s address length := by
      intro hmmio
      rw [hmmio, if_neg Bool.false_ne_true] at h
      exact h
    have hread := ReadSlow_immediate hslow
    by_cases hfull : fullPageBias s.regions (address / kPageSize) = 0
    · have hnow : TryReadGuestScalar (immediate s) address = none := if_pos hfull
      rw [hnow]
      exact hread
    · -- a covered page: the pointer of the slow path is the fast one
      have hmmio : IsMmioAddress address = false := by
        cases hmmio : IsMmioAddress address with
        | false => rfl
        | true =>
          rw [hmmio, if_pos rfl] at h
          exact absurd h hfull
      have hpointer : GetPointer s.regions address length =
          some (biased (fullPageBias s.regions (address / kPageSize)) address) := by
        unfold GetPointer TryGetPointerFast
        rw [if_pos ⟨hlength, hfull⟩]
      have hnow : TryReadGuestScalar (immediate s) address =
          some (biased (fullPageBias s.regions (address / kPageSize)) address) := if_neg hfull
      rw [hnow, ← hread]
      unfold ReadSlow
      rw [hmmio, if_neg Bool.false_ne_true, resolve_nothing]
      dsimp only
      rw [show GetPointer (immediate s).regions address length = _ from hpointer]

theorem readBy_immediate (ht : Tables s) (hlength : length ≤ 8) (path : ReadPath)
    (h : ReadByAllowed path s address length) :
    readBy path (immediate s) address length =
      (immediate (readBy path s address length).1, (readBy path s address length).2) := by
  cases path with
  | memory => exact Read_immediate ht hlength h
  | resolved => exact Read_immediate ht hlength h
  | slow => exact ReadSlow_immediate h
  | stack =>
    unfold ReadByAllowed at h
    dsimp only at h
    show ReadStack (immediate s) address length =
      (immediate (ReadStack s address length).1, (ReadStack s address length).2)
    unfold ReadStack
    cases hfast : TryGetPointerFast s.regions address length with
    | some pointer =>
      rw [hfast] at h
      rw [show TryGetPointerFast (immediate s).regions address length = some pointer from hfast]
      exact load_immediate h
    | none =>
      rw [hfast] at h
      rw [show TryGetPointerFast (immediate s).regions address length = none from hfast]
      exact Read_immediate ht hlength h

/-! ## stores -/

theorem store_immediate (h : Untouched s pointer bytes.length) :
    (immediate s).store pointer bytes =
      (immediate (s.store pointer bytes).1, (s.store pointer bytes).2) := by
  have hmemory : applyAll (·.writes s.regions) s.deferredReads
      (applyWrites (storeWrites pointer bytes) s.memory) =
        applyWrites (storeWrites pointer bytes)
          (applyAll (·.writes s.regions) s.deferredReads s.memory) := by
    refine applyAll_applyWrites (fun read hread q hq hstore => ?_) s.memory
    obtain ⟨k, hk, rfl⟩ := mem_footprint_storeWrites hstore
    exact h read hread k hk hq
  exact congrArg (fun memory => (({ immediate s with memory := memory } : State), Outcome.done))
    hmemory.symm

theorem storePointer_immediate (path : StorePath) (s : State) (address length : Nat)
    (lr : Option UInt32) :
    storePointer path (immediate s) address length lr = storePointer path s address length lr := by
  cases path <;> rfl

theorem storeBy_immediate (path : StorePath)
    (h : ∀ pointer, storePointer path s address bytes.length lr = some pointer →
      Untouched s pointer bytes.length) :
    storeBy path (immediate s) address bytes lr =
      (immediate (storeBy path s address bytes lr).1, (storeBy path s address bytes lr).2) := by
  rw [storeBy_eq, storeBy_eq, storePointer_immediate]
  cases hpointer : storePointer path s address bytes.length lr with
  | some pointer => exact store_immediate (h pointer hpointer)
  | none => rfl

theorem writeZeros_immediate {words : List Nat}
    (h : ∀ word ∈ words, ∀ pointer, writePointer s word 4 lr = some pointer →
      Untouched s pointer 4) :
    writeZeros (immediate s) lr words =
      (immediate (writeZeros s lr words).1, (writeZeros s lr words).2) := by
  induction words generalizing s with
  | nil => rfl
  | cons word words ih =>
    obtain ⟨hword, hrest⟩ := List.forall_mem_cons.mp h
    have hwrite : Write (immediate s) word (toBytes 4 0) lr =
        (immediate (Write s word (toBytes 4 0) lr).1, (Write s word (toBytes 4 0) lr).2) :=
      storeBy_immediate .memory hword
    obtain ⟨memory, hmemory⟩ := Write_memory s word (toBytes 4 0) lr
    unfold writeZeros
    rw [hwrite]
    rcases hresult : Write s word (toBytes 4 0) lr with ⟨s', outcome⟩
    rw [hresult] at hmemory
    cases hmemory
    cases outcome with
    | reported => rfl
    | violation => rfl
    | token _ => exact ih hrest
    | value _ => exact ih hrest
    | done => exact ih hrest
    | mmio => exact ih hrest

/-! ## steps and runs -/

theorem tables_memory (h : Tables s) (memory : HostMemory) : Tables { s with memory } :=
  ⟨h.readable, h.nonempty⟩

theorem tables_ReadSlow (h : Tables s) (address length : Nat) :
    Tables (ReadSlow s address length).1 := by
  unfold ReadSlow
  split
  · exact h
  · dsimp only
    split
    · exact tables_resolve h address length
    · exact tables_resolve h address length

theorem tables_Read (h : Tables s) (address length : Nat) : Tables (Read s address length).1 := by
  unfold Read
  split
  · exact h
  · exact tables_ReadSlow h address length

theorem tables_storeBy (h : Tables s) (path : StorePath) (address : Nat) (bytes : List UInt8)
    (lr : Option UInt32) : Tables (storeBy path s address bytes lr).1 := by
  rw [storeBy_eq]
  cases storePointer path s address bytes.length lr with
  | some pointer => exact tables_memory h _
  | none => exact h

theorem tables_writeZeros (h : Tables s) (lr : Option UInt32) (words : List Nat) :
    Tables (writeZeros s lr words).1 :=
  writeZeros_keeps (P := Tables)
    (fun _ word hs => tables_storeBy hs .memory word (toBytes 4 0) lr) words h

theorem tables_step (h : Tables s) (op : Op) : Tables (step s op).1 := by
  cases op with
  | registerDeferredRead address contents => exact tables_registerDeferredRead h contents
  | registerExecutableRange start stop name => exact tables_registerExecutableRange h _ _ _
  | read path address size =>
    cases path with
    | memory => exact tables_Read h _ _
    | resolved => exact tables_Read h _ _
    | slow => exact tables_ReadSlow h _ _
    | stack =>
      show Tables (ReadStack s address.toNat size.length).1
      unfold ReadStack
      split
      · exact h
      · exact tables_Read h _ _
  | store path address size value lr => exact tables_storeBy h path _ _ lr
  | dcbz address lr =>
    show Tables (memset_zero_32 s (blockOf address) lr).1
    unfold memset_zero_32
    split
    · exact tables_memory h _
    · exact tables_writeZeros h lr _

/-- **A step of a state is the step of the memory it stands for.** -/
theorem stepNow_immediate (ht : Tables s) {op : Op} (h : Allowed s op) :
    stepNow (immediate s) op = (immediate (step s op).1, (step s op).2) := by
  cases op with
  | registerDeferredRead address contents =>
    show (if contents.length = 0 ∨ 2 ^ 32 < address.toNat + contents.length then _ else _) = _
    unfold step RegisterDeferredRead
    dsimp only
    split
    · rfl
    · dsimp only
      unfold immediate
      rw [applyAll_append]
      rfl
  | registerExecutableRange start stop name =>
    exact congrArg (·, Outcome.done) (registerExecutableRange_immediate s _ _ _)
  | read path address size =>
    exact readBy_immediate ht (by cases size <;> decide) path h
  | store path address size value lr =>
    refine storeBy_immediate path ?_
    rw [length_toBytes]
    exact h
  | dcbz address lr =>
    unfold Allowed at h
    dsimp only at h
    show memset_zero_32 (immediate s) (blockOf address) lr =
      (immediate (memset_zero_32 s (blockOf address) lr).1,
        (memset_zero_32 s (blockOf address) lr).2)
    unfold memset_zero_32
    cases hpointer : GetPointer s.regions (blockOf address) 32 with
    | some pointer =>
      rw [hpointer] at h
      rw [show GetPointer (immediate s).regions (blockOf address) 32 = some pointer from hpointer]
      exact store_immediate (by rw [List.length_replicate]; exact h)
    | none =>
      rw [hpointer] at h
      rw [show GetPointer (immediate s).regions (blockOf address) 32 = none from hpointer]
      exact writeZeros_immediate h

/-- every step of a run is allowed, until a report -/
def AllowedRun (s : State) : List Op → Prop
  | [] => True
  | op :: ops => Allowed s op ∧ ((step s op).2 ≠ .reported → AllowedRun (step s op).1 ops)

theorem run_eq_runNow (ht : Tables s) {ops : List Op} (h : AllowedRun s ops) :
    run s ops = runNow (immediate s) ops := by
  induction ops generalizing s with
  | nil => rfl
  | cons op ops ih =>
    obtain ⟨hop, hrest⟩ := h
    have hstep := stepNow_immediate ht hop
    unfold run runNow
    rw [hstep]
    dsimp only
    by_cases hreported : (step s op).2 = .reported
    · rw [if_pos hreported, if_pos hreported]
    · rw [if_neg hreported, if_neg hreported, ih (tables_step ht op) (hrest hreported)]

/-! ## the law -/

theorem registerRanges_deferredReads (s : State) (ranges : List Registered) :
    (registerRanges s ranges).deferredReads = s.deferredReads := by
  unfold registerRanges
  induction ranges generalizing s with
  | nil => rfl
  | cons r ranges ih =>
    rw [List.foldl_cons, ih, RegisterExecutableRange_eq]
    split
    · rfl
    · rw [addRanges_eq]
      rfl

theorem start_deferredReads (memory : HostMemory) (before : List Registered)
    (regions : List Region) : (start memory before regions).deferredReads = [] :=
  registerRanges_deferredReads (State.empty memory) before

theorem tables_start (memory : HostMemory) (before : List Registered) (regions : List Region) :
    Tables (start memory before regions) := by
  refine tables_refresh fun read hread => ?_
  have hstart : read ∈ (start memory before regions).deferredReads := hread
  rw [start_deferredReads] at hstart
  cases hstart

theorem immediate_start (memory : HostMemory) (before : List Registered) (regions : List Region) :
    immediate (start memory before regions) = start memory before regions := by
  have hreads := start_deferredReads memory before regions
  have hreadable : (start memory before regions).fullReadablePageBias =
      fullPageBias (start memory before regions).regions := by
    funext page
    rw [(tables_start memory before regions).readable, hreads]
    rfl
  unfold immediate
  rw [← hreadable, hreads]
  exact congrArg
    (fun reads => ({ start memory before regions with deferredReads := reads } : State))
    hreads.symm

/-- **Deferred reads are invisible.**  In a run of allowed steps the guest sees what it would if
each callback had run when it was registered. -/
theorem deferred_reads_invisible (memory : HostMemory) (before : List Registered)
    (regions : List Region) (ops : List Op) (h : AllowedRun (start memory before regions) ops) :
    run (start memory before regions) ops = runNow (start memory before regions) ops := by
  rw [run_eq_runNow (tables_start memory before regions) h, immediate_start]

/-- a range that is read -/
theorem deferred_reads_invisible_half :
    run (start (fun _ => 0) [] [⟨0x80000000, 0x10000000000, 0x200000⟩])
        [.registerDeferredRead 0x80000010 [7, 8], .read .memory 0x80000010 .half] =
      runNow (start (fun _ => 0) [] [⟨0x80000000, 0x10000000000, 0x200000⟩])
        [.registerDeferredRead 0x80000010 [7, 8], .read .memory 0x80000010 .half] := by
  have hallowed : ReadAllowed (RegisterDeferredRead
      (start (fun _ => 0) [] [⟨0x80000000, 0x10000000000, 0x200000⟩])
      (UInt32.toNat 0x80000010) [7, 8]).1 (UInt32.toNat 0x80000010) 2 := by
    have hslow : TryReadGuestScalar (RegisterDeferredRead
        (start (fun _ => 0) [] [⟨0x80000000, 0x10000000000, 0x200000⟩])
        (UInt32.toNat 0x80000010) [7, 8]).1 (UInt32.toNat 0x80000010) = none := by
      decide +kernel
    unfold ReadAllowed
    rw [hslow]
    refine ⟨List.pairwise_singleton _ _, fun pointer _ read hread hnot => ?_⟩
    cases List.mem_singleton.mp hread
    exact absurd hnot (by decide)
  exact deferred_reads_invisible _ _ _ _ ⟨trivial, fun _ => ⟨hallowed, fun _ => trivial⟩⟩

/-- **A store to a pending range is lost.**  The callback runs when the range is read, after the
store; had it run when it was registered, the store would be what is read. -/
theorem pending_range_overwrites_store :
    run (start (fun _ => 0) [] [⟨0x80000000, 0x10000000000, 0x200000⟩])
        [.registerDeferredRead 0x80000010 [7], .store .memory 0x80000010 .byte 9 none,
          .read .memory 0x80000010 .byte] = [.token 1, .done, .value 7] ∧
      runNow (start (fun _ => 0) [] [⟨0x80000000, 0x10000000000, 0x200000⟩])
        [.registerDeferredRead 0x80000010 [7], .store .memory 0x80000010 .byte 9 none,
          .read .memory 0x80000010 .byte] = [.token 1, .done, .value 9] := by
  decide +kernel

end DolTranslator.Guest
