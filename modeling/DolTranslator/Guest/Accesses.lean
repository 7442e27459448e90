import DolTranslator.Guest.Memory

/-!
# Where accesses go

* `storePointer`   the host pointer a store goes to: none when it is reported, is of a device or is
  not mapped;
* `storeBy_eq`   a store writes there, or changes nothing;
* `writeZeros_keeps`   what the store of a word keeps, a block of zeros keeps.
-/

namespace DolTranslator.Guest

open Streams

variable {s : State} {address length : Nat} {pointer : UInt64} {bytes : List UInt8}
  {lr : Option UInt32}

def slowPointer (s : State) (address length : Nat) (lr : Option UInt32) : Option UInt64 :=
  if IsMmioAddress address ∨ HandleExecutableWrite s address length lr then none
  else GetPointer s.regions address length

def writePointer (s : State) (address length : Nat) (lr : Option UInt32) : Option UInt64 :=
  match TryWriteGuestScalar s address length with
  | some pointer => some pointer
  | none => slowPointer s address length lr

def stackPointer (s : State) (address length : Nat) (lr : Option UInt32) : Option UInt64 :=
  match TryGetPointerFast s.regions address length with
  | some pointer => some pointer
  | none => writePointer s address length lr

def quantizedPointer (s : State) (address length : Nat) (lr : Option UInt32) : Option UInt64 :=
  match TryGetWritablePointerFast s address length with
  | some pointer => some pointer
  | none => writePointer s address length lr

def storePointer : StorePath → State → Nat → Nat → Option UInt32 → Option UInt64
  | .memory => writePointer
  | .resolved => writePointer
  | .slow => slowPointer
  | .stack => stackPointer
  | .quantized => quantizedPointer

def refusal (s : State) (address length : Nat) (lr : Option UInt32) : Outcome :=
  if IsMmioAddress address then .mmio
  else if HandleExecutableWrite s address length lr then .reported
  else .violation

def storeAt (s : State) (address : Nat) (bytes : List UInt8) (lr : Option UInt32) :
    Option UInt64 → State × Outcome
  | some pointer => s.store pointer bytes
  | none => (s, refusal s address bytes.length lr)

theorem WriteSlow_eq (s : State) (address : Nat) (bytes : List UInt8) (lr : Option UInt32) :
    WriteSlow s address bytes lr =
      storeAt s address bytes lr (slowPointer s address bytes.length lr) := by
  unfold WriteSlow WriteScalar slowPointer
  cases hmmio : IsMmioAddress address with
  | true =>
    rw [if_pos rfl, if_pos (.inl rfl)]
    unfold storeAt refusal
    rw [hmmio, if_pos rfl]
  | false =>
    cases hreport : HandleExecutableWrite s address bytes.length lr with
    | true =>
      rw [if_neg Bool.false_ne_true, if_pos rfl, if_pos (.inr rfl)]
      unfold storeAt refusal
      rw [hmmio, hreport, if_neg Bool.false_ne_true, if_pos rfl]
    | false =>
      rw [if_neg Bool.false_ne_true, if_neg Bool.false_ne_true,
        if_neg (not_or.mpr ⟨Bool.false_ne_true, Bool.false_ne_true⟩)]
      cases GetPointer s.regions address bytes.length with
      | some pointer => rfl
      | none =>
        unfold storeAt refusal
        rw [hmmio, hreport, if_neg Bool.false_ne_true, if_neg Bool.false_ne_true]

theorem Write_eq (s : State) (address : Nat) (bytes : List UInt8) (lr : Option UInt32) :
    Write s address bytes lr =
      storeAt s address bytes lr (writePointer s address bytes.length lr) := by
  unfold Write writePointer
  cases TryWriteGuestScalar s address bytes.length with
  | some pointer => rfl
  | none => exact WriteSlow_eq s address bytes lr

theorem storeBy_eq (path : StorePath) (s : State) (address : Nat) (bytes : List UInt8)
    (lr : Option UInt32) :
    storeBy path s address bytes lr =
      storeAt s address bytes lr (storePointer path s address bytes.length lr) := by
  cases path with
  | memory => exact Write_eq s address bytes lr
  | resolved => exact Write_eq s address bytes lr
  | slow => exact WriteSlow_eq s address bytes lr
  | stack =>
    show WriteStack s address bytes lr =
      storeAt s address bytes lr (stackPointer s address bytes.length lr)
    unfold WriteStack stackPointer
    cases TryGetPointerFast s.regions address bytes.length with
    | some pointer => rfl
    | none => exact Write_eq s address bytes lr
  | quantized =>
    show WriteQuantized s address bytes lr =
      storeAt s address bytes lr (quantizedPointer s address bytes.length lr)
    unfold WriteQuantized quantizedPointer
    cases TryGetWritablePointerFast s address bytes.length with
    | some pointer => rfl
    | none => exact Write_eq s address bytes lr

/-! ## what is written -/

/-- a store changes nothing but memory -/
theorem Write_memory (s : State) (address : Nat) (bytes : List UInt8) (lr : Option UInt32) :
    ∃ memory, (Write s address bytes lr).1 = { s with memory } := by
  rw [Write_eq]
  cases writePointer s address bytes.length lr with
  | some pointer => exact ⟨_, rfl⟩
  | none => exact ⟨s.memory, rfl⟩

theorem writeZeros_keeps {P : State → Prop}
    (hword : ∀ s word, P s → P (Write s word (toBytes 4 0) lr).1) (words : List Nat) (h : P s) :
    P (writeZeros s lr words).1 := by
  induction words generalizing s with
  | nil => exact h
  | cons word words ih =>
    have hwrite := hword s word h
    unfold writeZeros
    rcases hresult : Write s word (toBytes 4 0) lr with ⟨s', outcome⟩
    rw [hresult] at hwrite
    cases outcome with
    | reported => exact hwrite
    | violation => exact hwrite
    | token _ => exact ih hwrite
    | value _ => exact ih hwrite
    | done => exact ih hwrite
    | mmio => exact ih hwrite

theorem mem_footprint_storeWrites {q : UInt64} (h : q ∈ footprint (storeWrites pointer bytes)) :
    ∃ k, k < bytes.length ∧ q = pointer + UInt64.ofNat k := by
  unfold footprint storeWrites at h
  rw [List.map_map] at h
  obtain ⟨b, hb, rfl⟩ := List.mem_map.mp h
  exact ⟨b.2, List.snd_lt_of_mem_zipIdx hb, rfl⟩

theorem length_toBytes (length value : Nat) : (toBytes length value).length = length := by
  unfold toBytes
  rw [List.length_map, List.length_range]

end DolTranslator.Guest
