import DolTranslator.Gx.RawLag

/-!
# Bursts

The gather pipe takes a string of bytes at once.  While a display list is recorded the bytes go to
the list in guest memory; otherwise whole register loads at the front of the string go past the
ring, and the rest through it.

* `GxDisplayListState`, `WriteDisplayListData`   the recorder;
* `HleFifoWriteBurstChunked`   the string as writes of four, two and one bytes;
* `ApplyFifoPacketsDirect`, `WriteDisplayListBurst`, `GX_HLE_FIFO_WriteBurst`   the string at once;
* `Same`   the two show the same, whatever is written next;
* `StopsForGood`, `recorded_iff`   when they do while a list is recorded.
-/

namespace DolTranslator.Gx.Hle

open Function Streams

structure GxDisplayListState where
  base : BitVec 32
  size : BitVec 32
  writePtr : BitVec 32
  count : BitVec 32
  active : Bool

/-- what the writes rest on: the rest of the GX, and guest memory, where a store may fault and then
writes nothing -/
structure Bus (Mem : Type) where
  pf : Platform
  store : Mem → BitVec 32 → List Byte → Option Mem
  /-- the guest's own record of the list; zero for none -/
  displayListFifo : BitVec 32

def kFifoWrap : BitVec 32 := 0x20

structure HleGx (Mem : Type) where
  fifo : RawFifo
  dl : GxDisplayListState
  mem : Mem

variable {Mem : Type}

namespace GxDisplayListState

def dropped (dl : GxDisplayListState) : Bool :=
  !dl.active || dl.base == 0 || dl.size == 0 || dl.writePtr == 0

def endPtr (dl : GxDisplayListState) : BitVec 32 := dl.base + dl.size

def advance (dl : GxDisplayListState) (next : BitVec 32) (n : Nat) : GxDisplayListState :=
  { dl with writePtr := next, count := dl.count + BitVec.ofNat 32 n }

end GxDisplayListState

namespace HleGx

variable (bus : Bus Mem) (s : HleGx Mem)

def WriteDisplayListData (w : List Byte) : HleGx Mem :=
  if s.dl.dropped then s
  else
    match bus.store s.mem s.dl.writePtr w with
    | none => s
    | some mem =>
      let next := s.dl.writePtr + BitVec.ofNat 32 w.length
      if next > s.dl.endPtr then
        let wrapped := s.dl.base + (next - s.dl.endPtr)
        if bus.displayListFifo = 0 then
          { s with mem := mem, dl := s.dl.advance wrapped w.length }
        else
          match bus.store mem (bus.displayListFifo + kFifoWrap) [1] with
          | none => { s with mem := mem }
          | some mem => { s with mem := mem, dl := s.dl.advance wrapped w.length }
      else { s with mem := mem, dl := s.dl.advance next w.length }

def write (w : List Byte) : HleGx Mem :=
  if s.dl.active then s.WriteDisplayListData bus w
  else { s with fifo := s.fifo.HleFifoWrite bus.pf w }

def writes (ws : List (List Byte)) : HleGx Mem := ws.foldl (write bus) s

end HleGx

def pieces : List Byte → List (List Byte)
  | a :: b :: c :: d :: rest => [a, b, c, d] :: pieces rest
  | [a, b, c] => [[a, b], [c]]
  | [a, b] => [[a, b]]
  | [a] => [[a]]
  | [] => []

namespace HleGx

variable (bus : Bus Mem) (s : HleGx Mem)

def HleFifoWriteBurstChunked (data : List Byte) : HleGx Mem := s.writes bus (pieces data)

/-- whole register loads, and what is behind them -/
def ApplyFifoPacketsDirect (bus : Bus Mem) : Nat → HleGx Mem → List Byte → HleGx Mem × List Byte
  | 0, s, data => (s, data)
  | fuel + 1, s, data =>
    if s.dl.active ∨ s.fifo.inBegin ∨ s.fifo.bytes ≠ [] then (s, data)
    else
      let apply (gx : GxState) : HleGx Mem := { s with fifo := { s.fifo with gx := gx } }
      match data with
      | [] => (s, data)
      | cmd :: body =>
        if cmd = 0x00 then ApplyFifoPacketsDirect bus fuel s body
        else if cmd = 0x61 then
          if body.length < 4 then (s, data)
          else ApplyFifoPacketsDirect bus fuel (apply (s.fifo.gx.apply (.bp (be32 body))))
            (body.drop 4)
        else if opcode cmd = 0x08 then
          if body.length < 5 then (s, data)
          else ApplyFifoPacketsDirect bus fuel
            (apply (s.fifo.gx.loadCp (body.getD 0 0).toNat (be32 (body.drop 1)))) (body.drop 5)
        else if opcode cmd = 0x10 then
          match loadXf cmd s.fifo.gx body with
          | (_, none) => (s, data)
          | (gx, some rest) => ApplyFifoPacketsDirect bus fuel (apply gx) rest
        else (s, data)

/-- pieces into the list, up to the first that faults -/
def record : List (List Byte) → HleGx Mem → HleGx Mem
  | [], s => s
  | w :: ws, s =>
    match bus.store s.mem s.dl.writePtr w with
    | none => s
    | some mem =>
      record ws { s with
        mem := mem
        dl := s.dl.advance (s.dl.writePtr + BitVec.ofNat 32 w.length) w.length }

def hasRoom (data : List Byte) : Bool :=
  !s.dl.dropped && decide (s.dl.writePtr ≤ s.dl.endPtr) &&
    decide (data.length ≤ (s.dl.endPtr - s.dl.writePtr).toNat)

def WriteDisplayListBurst (data : List Byte) : Option (HleGx Mem) :=
  if s.hasRoom data then some (record bus (pieces data) s) else none

def GX_HLE_FIFO_WriteBurst (data : List Byte) : HleGx Mem :=
  if data = [] then s
  else
    match if s.dl.active then s.WriteDisplayListBurst bus data else none with
    | some s => s
    | none =>
      let (s, rest) := ApplyFifoPacketsDirect bus (data.length + 1) s data
      if rest = [] then s else s.HleFifoWriteBurstChunked bus rest

/-- what shows of a state: effects, guest memory, the cursor and the count of the list -/
def shown (s : HleGx Mem) : List Applied × Mem × BitVec 32 × BitVec 32 :=
  (s.fifo.gx.applied, s.mem, s.dl.writePtr, s.dl.count)

/-- **A burst that is its writes**: it shows the same, whatever is written next. -/
def Same (data : List Byte) : Prop :=
  ∀ ws : List (List Byte), (∀ w ∈ ws, w.length = 1 ∨ w.length = 2 ∨ w.length = 4) →
    ((s.GX_HLE_FIFO_WriteBurst bus data).writes bus ws).shown =
      ((s.HleFifoWriteBurstChunked bus data).writes bus ws).shown

end HleGx

/-! ## pieces -/

theorem pieces_flatten (data : List Byte) : (pieces data).flatten = data := by
  fun_induction pieces data with
  | case1 a b c d rest ih => rw [List.flatten_cons, ih]; rfl
  | case2 => rfl
  | case3 => rfl
  | case4 => rfl
  | case5 => rfl

variable {w : List Byte}

theorem pieces_length {data : List Byte} (hw : w ∈ pieces data) : 0 < w.length ∧ w.length ≤ 4 := by
  revert hw
  fun_induction pieces data with
  | case1 a b c d rest ih =>
    intro hw
    rcases List.mem_cons.mp hw with rfl | hw
    · exact ⟨Nat.succ_pos _, Nat.le_refl _⟩
    · exact ih hw
  | case2 | case3 | case4 =>
    intro hw
    simp only [List.mem_cons, List.not_mem_nil, or_false] at hw
    rcases hw with rfl | rfl <;> simp
  | case5 => exact fun hw => (by cases hw)

/-- words are words of whatever comes behind them -/
theorem pieces_append {v : List Byte} (h : 4 ∣ v.length) (w : List Byte) :
    pieces (v ++ w) = pieces v ++ pieces w := by
  revert h
  fun_induction pieces v with
  | case1 a b c d rest ih =>
    intro h
    have hrest : 4 ∣ rest.length := by
      simp only [List.length_cons] at h
      omega
    show [a, b, c, d] :: pieces (rest ++ w) = _
    rw [ih hrest]
    rfl
  | case2 | case3 | case4 =>
    intro h
    simp only [List.length_cons, List.length_nil] at h
    omega
  | case5 => exact fun _ => rfl

theorem pieces_last {data : List Byte} (hne : data ≠ []) : ∃ ws w, pieces data = ws ++ [w] ∧
    (4 ∣ data.length → w.length = 4) ∧ (¬4 ∣ data.length → w.length ≤ 2) := by
  revert hne
  fun_induction pieces data with
  | case1 a b c d rest ih =>
    intro _
    simp only [List.length_cons]
    cases rest with
    | nil => exact ⟨[], _, rfl, fun _ => rfl, fun h => absurd (Nat.dvd_refl 4) h⟩
    | cons e rest =>
      obtain ⟨ws, w, hws, hw, hw'⟩ := ih (List.cons_ne_nil e rest)
      refine ⟨[a, b, c, d] :: ws, w, by rw [hws]; rfl, fun h => hw ?_, fun h => hw' ?_⟩
      · rw [List.length_cons] at *
        omega
      · rw [List.length_cons] at *
        omega
  | case2 a b c => exact fun _ => ⟨[[a, b]], [c], rfl, fun h => (by simp at h), fun _ => by simp⟩
  | case3 a b => exact fun _ => ⟨[], [a, b], rfl, fun h => (by simp at h), fun _ => by simp⟩
  | case4 a => exact fun _ => ⟨[], [a], rfl, fun h => (by simp at h), fun _ => by simp⟩
  | case5 => exact fun hne => absurd rfl hne

/-! ## while a list is recorded -/

namespace HleGx

variable {bus : Bus Mem} {s : HleGx Mem}

/-- a string that comes to its end, or stops where nothing more of it can be stored -/
def StopsForGood (bus : Bus Mem) : List (List Byte) → Mem → BitVec 32 → Prop
  | [], _, _ => True
  | w :: ws, mem, ptr =>
    match bus.store mem ptr w with
    | some mem => StopsForGood bus ws mem (ptr + BitVec.ofNat 32 w.length)
    | none => ∀ u ∈ ws, bus.store mem ptr u = none

/-- the list has room for so many bytes more -/
structure Recording (s : HleGx Mem) (n : Nat) : Prop where
  kept : s.dl.dropped = false
  before : s.dl.writePtr ≤ s.dl.endPtr
  room : n ≤ (s.dl.endPtr - s.dl.writePtr).toNat

theorem recording_iff (data : List Byte) : s.hasRoom data = true ↔ s.Recording data.length := by
  unfold hasRoom
  simp only [Bool.and_eq_true, Bool.not_eq_true', decide_eq_true_eq]
  exact ⟨fun ⟨⟨hk, hb⟩, hr⟩ => ⟨hk, hb, hr⟩, fun ⟨hk, hb, hr⟩ => ⟨⟨hk, hb⟩, hr⟩⟩

variable {n : Nat}

theorem Recording.active (h : s.Recording n) : s.dl.active = true := by
  have hkept := h.kept
  unfold GxDisplayListState.dropped at hkept
  cases hactive : s.dl.active with
  | true => rfl
  | false =>
    rw [hactive] at hkept
    cases hkept

def stored (s : HleGx Mem) (mem : Mem) (w : List Byte) : HleGx Mem :=
  { s with
    mem := mem
    dl := s.dl.advance (s.dl.writePtr + BitVec.ofNat 32 w.length) w.length }

theorem Recording.mono {m : Nat} (h : s.Recording n) (hle : m ≤ n) : s.Recording m :=
  ⟨h.kept, h.before, Nat.le_trans hle h.room⟩

theorem Recording.cursor (h : s.Recording n) (hw : w.length ≤ n) :
    (s.dl.writePtr + BitVec.ofNat 32 w.length).toNat = s.dl.writePtr.toNat + w.length ∧
      s.dl.writePtr.toNat + n ≤ s.dl.endPtr.toNat := by
  have hroom := h.room
  have hbefore : s.dl.writePtr.toNat ≤ s.dl.endPtr.toNat := h.before
  have hlt := s.dl.endPtr.isLt
  rw [BitVec.toNat_sub_of_le h.before] at hroom
  refine ⟨?_, by omega⟩
  rw [BitVec.toNat_add, BitVec.toNat_ofNat]
  omega

theorem Recording.stored (h : s.Recording n) (mem : Mem)
    (hw : w.length ≤ n) : (s.stored mem w).Recording (n - w.length) := by
  obtain ⟨hcursor, hend⟩ := h.cursor hw
  have hkept := h.kept
  unfold GxDisplayListState.dropped at hkept
  simp only [Bool.or_eq_false_iff, beq_eq_false_iff_ne] at hkept
  obtain ⟨⟨⟨hactive, hbase⟩, hsize⟩, hptr⟩ := hkept
  have hbefore : s.dl.writePtr + BitVec.ofNat 32 w.length ≤ s.dl.endPtr := by
    show BitVec.toNat _ ≤ BitVec.toNat _
    omega
  refine ⟨?_, hbefore, ?_⟩
  · unfold GxDisplayListState.dropped
    simp only [Bool.or_eq_false_iff, beq_eq_false_iff_ne]
    refine ⟨⟨⟨hactive, hbase⟩, hsize⟩, fun hzero => hptr ?_⟩
    have hzero : (s.dl.writePtr + BitVec.ofNat 32 w.length).toNat = 0 := congrArg BitVec.toNat hzero
    exact BitVec.eq_of_toNat_eq (by rw [show (0 : BitVec 32).toNat = 0 from rfl]; omega)
  · show _ ≤ (s.dl.endPtr - (s.dl.writePtr + BitVec.ofNat 32 w.length)).toNat
    rw [BitVec.toNat_sub_of_le hbefore]
    omega

theorem Recording.write (h : s.Recording n) (hw : w.length ≤ n) :
    s.write bus w =
      match bus.store s.mem s.dl.writePtr w with
      | none => s
      | some mem => s.stored mem w := by
  obtain ⟨hcursor, hend⟩ := h.cursor hw
  unfold HleGx.write WriteDisplayListData
  rw [if_pos h.active, h.kept, if_neg Bool.false_ne_true]
  cases bus.store s.mem s.dl.writePtr w with
  | none => rfl
  | some mem =>
    refine if_neg fun hgt => ?_
    have hgt : s.dl.endPtr.toNat < (s.dl.writePtr + BitVec.ofNat 32 w.length).toNat := hgt
    omega

variable {ws : List (List Byte)}

theorem Recording.cons
    (h : s.Recording (w :: ws).flatten.length) :
    w.length ≤ (w :: ws).flatten.length ∧ s.Recording ws.flatten.length ∧
      ∀ mem, (s.stored mem w).Recording ws.flatten.length := by
  rw [List.flatten_cons, List.length_append] at h ⊢
  refine ⟨Nat.le_add_right _ _, h.mono (Nat.le_add_left _ _), fun mem => ?_⟩
  have hstored := h.stored mem (w := w) (Nat.le_add_right _ _)
  rwa [Nat.add_sub_cancel_left] at hstored

theorem writes_cons (w : List Byte) (ws : List (List Byte)) :
    s.writes bus (w :: ws) = (s.write bus w).writes bus ws := rfl

theorem writes_stuck (h : s.Recording ws.flatten.length)
    (hfaults : ∀ u ∈ ws, bus.store s.mem s.dl.writePtr u = none) : s.writes bus ws = s := by
  induction ws with
  | nil => rfl
  | cons w ws ih =>
    obtain ⟨hw, hrest, -⟩ := h.cons
    rw [writes_cons, h.write hw, hfaults w List.mem_cons_self]
    exact ih hrest fun u hu => hfaults u (List.mem_cons_of_mem _ hu)

theorem record_writes (h : s.Recording ws.flatten.length)
    (hgood : StopsForGood bus ws s.mem s.dl.writePtr) : s.writes bus ws = record bus ws s := by
  induction ws generalizing s with
  | nil => rfl
  | cons w ws ih =>
    obtain ⟨hw, hrest, hstored⟩ := h.cons
    unfold StopsForGood at hgood
    unfold record
    rw [writes_cons, h.write hw]
    cases hstore : bus.store s.mem s.dl.writePtr w with
    | none =>
      rw [hstore] at hgood
      exact writes_stuck hrest hgood
    | some mem =>
      rw [hstore] at hgood
      exact ih (hstored mem) hgood

theorem writes_count (bus : Bus Mem) (h : s.Recording ws.flatten.length)
    (hpos : ∀ u ∈ ws, 0 < u.length) : ∃ k, k ≤ ws.flatten.length ∧
      (s.writes bus ws).dl.count = s.dl.count + BitVec.ofNat 32 k ∧
      ((∃ u ∈ ws, bus.store s.mem s.dl.writePtr u ≠ none) → 0 < k) := by
  induction ws generalizing s with
  | nil =>
    refine ⟨0, Nat.le_refl _, (BitVec.add_zero _).symm, ?_⟩
    rintro ⟨u, hu, -⟩
    cases hu
  | cons w ws ih =>
    obtain ⟨hw, hrest, hstored⟩ := h.cons
    have hpos' (u : List Byte) (hu : u ∈ ws) : 0 < u.length := hpos u (List.mem_cons_of_mem _ hu)
    rw [writes_cons, h.write hw, List.flatten_cons, List.length_append]
    cases hstore : bus.store s.mem s.dl.writePtr w with
    | none =>
      obtain ⟨k, hk, hcount, hsome⟩ := ih hrest hpos'
      refine ⟨k, by omega, hcount, fun ⟨u, hu, hne⟩ => ?_⟩
      rcases List.mem_cons.mp hu with rfl | hu
      · exact absurd hstore hne
      · exact hsome ⟨u, hu, hne⟩
    | some mem =>
      obtain ⟨k, hk, hcount, -⟩ := ih (hstored mem) hpos'
      refine ⟨w.length + k, by omega, ?_, fun _ => ?_⟩
      · show (HleGx.writes bus (s.stored mem w) ws).dl.count = _
        rw [hcount]
        show s.dl.count + BitVec.ofNat 32 w.length + BitVec.ofNat 32 k = _
        rw [BitVec.add_assoc, ← BitVec.ofNat_add]
      · have := hpos w List.mem_cons_self
        omega

theorem record_count (bus : Bus Mem) (h : s.Recording ws.flatten.length)
    (hpos : ∀ u ∈ ws, 0 < u.length) (hgood : ¬StopsForGood bus ws s.mem s.dl.writePtr) :
    ∃ k, 0 < k ∧ k ≤ ws.flatten.length ∧
      (s.writes bus ws).dl.count = (record bus ws s).dl.count + BitVec.ofNat 32 k := by
  induction ws generalizing s with
  | nil => exact absurd trivial hgood
  | cons w ws ih =>
    obtain ⟨hw, hrest, hstored⟩ := h.cons
    have hpos' (u : List Byte) (hu : u ∈ ws) : 0 < u.length := hpos u (List.mem_cons_of_mem _ hu)
    unfold StopsForGood at hgood
    unfold record
    rw [writes_cons, h.write hw, List.flatten_cons, List.length_append]
    cases hstore : bus.store s.mem s.dl.writePtr w with
    | none =>
      rw [hstore] at hgood
      obtain ⟨k, hk, hcount, hsome⟩ := writes_count bus hrest hpos'
      refine ⟨k, hsome ?_, by omega, hcount⟩
      by_contra hnone
      exact hgood fun u hu => by_contra fun hne => hnone ⟨u, hu, hne⟩
    | some mem =>
      rw [hstore] at hgood
      obtain ⟨k, hk, hle, hcount⟩ := ih (hstored mem) hpos' hgood
      exact ⟨k, hk, by omega, hcount⟩

/-- **While a list is recorded** that the string fits into. -/
theorem recorded_iff (bus : Bus Mem) {data : List Byte} (h : s.Recording data.length) (hne : data ≠ []) :
    s.Same bus data ↔ StopsForGood bus (pieces data) s.mem s.dl.writePtr := by
  have hroom : s.Recording (pieces data).flatten.length := by rwa [pieces_flatten]
  have hburst : s.GX_HLE_FIFO_WriteBurst bus data = record bus (pieces data) s := by
    unfold GX_HLE_FIFO_WriteBurst WriteDisplayListBurst
    rw [if_neg hne, if_pos h.active, if_pos ((recording_iff data).mpr h)]
  unfold Same HleFifoWriteBurstChunked
  rw [hburst]
  constructor
  · intro hsame
    by_contra hgood
    obtain ⟨k, hk, hle, hcount⟩ := record_count bus hroom
      (fun u hu => (pieces_length hu).1) hgood
    have hshown := congrArg (fun t => t.2.2.2) (hsame [] fun _ hmem => (by cases hmem))
    have hshown : (record bus (pieces data) s).dl.count =
        (s.writes bus (pieces data)).dl.count := hshown
    rw [hcount] at hshown
    have hlt := (s.dl.endPtr - s.dl.writePtr).isLt
    have hroom' := h.room
    rw [pieces_flatten] at hle
    have hcounts := congrArg BitVec.toNat hshown
    rw [BitVec.toNat_add, BitVec.toNat_ofNat] at hcounts
    omega
  · intro hgood ws _
    rw [record_writes hroom hgood]

end HleGx

end DolTranslator.Gx.Hle
