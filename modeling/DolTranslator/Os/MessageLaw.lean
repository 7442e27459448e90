import DolTranslator.Os.Messages
import DolTranslator.Os.Waiting

/-!
# Message queues lose and duplicate nothing

* `WellFormed`   what OSInitMessageQueue sets up, on an array that is there, and every operation
  keeps; `enqueue_spec`, `jam_spec`, `dequeue_spec`;
* `MessageLaw`   the queue holds what the operations made of it, every call that returned 1 is one
  operation, and no thread is left waiting for what is there;
* `message_queue_law`   it holds in every run in which no operation is lost.
-/

namespace DolTranslator.Os

open Function Intrusive GuestOs Transition Streams

def Effect.act : Effect → List Word → Option (List Word)
  | .sent msg, ms => some (ms ++ [msg])
  | .jammed msg, ms => some (msg :: ms)
  | .received _, [] => none
  | .received msg, m :: ms => if m = msg then some ms else none

/-! ## the queue alone -/

namespace MessageQueue

variable {q q' : MessageQueue} {msg : Word} {out : OutPointer}

/-- what slot `i` of the array holds -/
def slotValue (q : MessageQueue) (i : Nat) : Option Word := q.word (q.slot (BitVec.ofNat 32 i))

def contents (q : MessageQueue) : List (Option Word) :=
  ring q.slotValue q.msgCount.toNat q.firstIndex.toNat q.usedCount.toNat

structure WellFormed (q : MessageQueue) : Prop where
  address : q.address ≠ 0
  /-- the slots of the array are as many words -/
  array : 4 * q.msgCount.toNat ≤ 2 ^ 32
  mapped : ∀ i < q.msgCount.toNat, (q.slotValue i).isSome
  first : q.msgCount ≠ 0 → q.firstIndex.toNat < q.msgCount.toNat
  used : q.usedCount.toNat ≤ q.msgCount.toNat

/-- the same queue, with these contents -/
structure Becomes (q q' : MessageQueue) (contents : List (Option Word)) : Prop where
  wellFormed : q'.WellFormed
  count : q'.msgCount = q.msgCount
  address : q'.address = q.address
  contents : q'.contents = contents

theorem length_contents (q : MessageQueue) : q.contents.length = q.usedCount.toNat := length_ring

theorem pos_of_ne_zero {w : Word} (h : w ≠ 0) : 0 < w.toNat := by
  refine Nat.pos_of_ne_zero fun h0 => h ?_
  exact BitVec.eq_of_toNat_eq h0

theorem slot_injective (h : q.WellFormed) {i j : Nat} (hi : i < q.msgCount.toNat)
    (hj : j < q.msgCount.toNat) (hij : q.slot (BitVec.ofNat 32 i) = q.slot (BitVec.ofNat 32 j)) :
    i = j := by
  have harray := h.array
  have hmul : BitVec.ofNat 32 i * 4 = BitVec.ofNat 32 j * 4 := by
    unfold slot at hij
    exact (BitVec.add_right_inj q.msgArray).mp hij
  have hnat := congrArg BitVec.toNat hmul
  rw [BitVec.toNat_mul, BitVec.toNat_mul, BitVec.toNat_ofNat, BitVec.toNat_ofNat,
    show (4 : Word).toNat = 4 from rfl] at hnat
  omega

theorem put_spec (h : q.WellFormed) (msg : Word) {index : Word}
    (hindex : index.toNat < q.msgCount.toNat) :
    ∃ word, q.put index msg = some { q with word := word } ∧
      ∀ i < q.msgCount.toNat, ({ q with word := word } : MessageQueue).slotValue i =
        update q.slotValue index.toNat (some msg) i := by
  have hself : BitVec.ofNat 32 index.toNat = index := BitVec.ofNat_toNat 32 index
  have hmapped := h.mapped index.toNat hindex
  unfold slotValue at hmapped
  rw [hself] at hmapped
  obtain ⟨old, hold⟩ := Option.isSome_iff_exists.mp hmapped
  refine ⟨update q.word (q.slot index) (some msg), ?_, fun i hi => ?_⟩
  · unfold put
    rw [hold]
    rfl
  · show update q.word (q.slot index) (some msg) (q.slot (BitVec.ofNat 32 i)) = _
    by_cases heq : i = index.toNat
    · rw [heq, hself, update_self, update_self]
    · rw [update_of_ne heq, update_of_ne]
      · rfl
      · rw [← hself]
        exact fun hslot => heq (slot_injective h hi hindex hslot)

/-- a well-formed queue stays so while its indices are in range and its slots are there -/
theorem WellFormed.edit (h : q.WellFormed) {word : Word → Option Word} (first used : Word)
    (hmapped : ∀ i < q.msgCount.toNat,
      (({ q with word := word } : MessageQueue).slotValue i).isSome)
    (hfirst : first.toNat < q.msgCount.toNat) (hused : used.toNat ≤ q.msgCount.toNat) :
    WellFormed { q with word := word, firstIndex := first, usedCount := used } :=
  ⟨h.address, h.array, hmapped, fun _ => hfirst, hused⟩

theorem isSome_update (h : q.WellFormed) {k : Nat} :
    ∀ i < q.msgCount.toNat, (update q.slotValue k (some msg) i).isSome := by
  intro i hi
  rw [update_apply]
  split
  · rfl
  · exact h.mapped i hi

theorem toNat_add_one {w : Word} {n : Nat} (hn : n < 2 ^ 32) (h : w.toNat < n) :
    (w + 1).toNat = w.toNat + 1 := by
  rw [BitVec.toNat_add, show (1 : Word).toNat = 1 from rfl]
  omega

/-- **MsgQueueEnqueue** appends. -/
theorem enqueue_spec (h : q.WellFormed) (msg : Word)
    (hroom : q.usedCount.toNat < q.msgCount.toNat) :
    ∃ q', q.enqueue msg = (q', some (.sent msg), true) ∧
      q.Becomes q' (q.contents ++ [some msg]) := by
  have harray := h.array
  have hcount : q.msgCount ≠ 0 := fun h0 => by
    rw [h0] at hroom
    exact Nat.not_lt_zero _ hroom
  have hfirst := h.first hcount
  have hindex : ((q.firstIndex + q.usedCount) % q.msgCount).toNat =
      (q.firstIndex.toNat + q.usedCount.toNat) % q.msgCount.toNat := by
    rw [BitVec.toNat_umod, BitVec.toNat_add,
      Nat.mod_eq_of_lt (show q.firstIndex.toNat + q.usedCount.toNat < 2 ^ 32 by omega)]
  have hin : ((q.firstIndex + q.usedCount) % q.msgCount).toNat < q.msgCount.toNat := by
    rw [hindex]
    exact Nat.mod_lt _ (by omega)
  obtain ⟨word, hput, hword⟩ := put_spec h msg hin
  have hused := toNat_add_one (by omega) hroom
  refine ⟨{ q with word := word, usedCount := q.usedCount + 1 }, ?_, ?_, rfl, rfl, ?_⟩
  · unfold enqueue
    rw [if_neg hcount, hput]
  · refine h.edit q.firstIndex (q.usedCount + 1) (fun i hi => ?_) hfirst (by omega)
    rw [hword i hi]
    exact isSome_update h i hi
  · show ring ({ q with word := word } : MessageQueue).slotValue q.msgCount.toNat
      q.firstIndex.toNat (q.usedCount + 1).toNat = _
    rw [hused, ring_congr fun i _ => hword _ (Nat.mod_lt _ (by omega)), hindex, ring_pushBack hroom]
    rfl

/-- **MsgQueueJam** prepends. -/
theorem jam_spec (h : q.WellFormed) (msg : Word) (hroom : q.usedCount.toNat < q.msgCount.toNat) :
    ∃ q', q.jam msg = (q', some (.jammed msg), true) ∧
      q.Becomes q' (some msg :: q.contents) := by
  have harray := h.array
  have hcount : q.msgCount ≠ 0 := fun h0 => by
    rw [h0] at hroom
    exact Nat.not_lt_zero _ hroom
  have hfirst := h.first hcount
  generalize hnew : (if q.firstIndex = 0 then q.msgCount - 1 else q.firstIndex - 1) = first
  have hone : (1 : Word).toNat = 1 := rfl
  have hfirst' : first.toNat < q.msgCount.toNat ∧
      (first.toNat + 1) % q.msgCount.toNat = q.firstIndex.toNat := by
    rw [← hnew]
    split
    · next h0 =>
      rw [h0, BitVec.toNat_sub, hone, show (2 ^ 32 - 1 + q.msgCount.toNat) % 2 ^ 32 =
        q.msgCount.toNat - 1 by omega, Nat.sub_add_cancel (by omega), Nat.mod_self]
      exact ⟨by omega, rfl⟩
    · next h0 =>
      have hpos := pos_of_ne_zero h0
      rw [BitVec.toNat_sub, hone, show (2 ^ 32 - 1 + q.firstIndex.toNat) % 2 ^ 32 =
        q.firstIndex.toNat - 1 by omega, Nat.sub_add_cancel hpos, Nat.mod_eq_of_lt hfirst]
      exact ⟨by omega, rfl⟩
  obtain ⟨word, hput, hword⟩ := put_spec h msg hfirst'.1
  have hused := toNat_add_one (by omega) hroom
  refine ⟨{ q with word := word, firstIndex := first, usedCount := q.usedCount + 1 }, ?_, ?_, rfl,
    rfl, ?_⟩
  · unfold jam
    rw [if_neg hcount, hnew]
    dsimp only
    rw [hput]
  · refine h.edit first (q.usedCount + 1) (fun i hi => ?_) hfirst'.1 (by omega)
    rw [hword i hi]
    exact isSome_update h i hi
  · show ring ({ q with word := word } : MessageQueue).slotValue q.msgCount.toNat first.toNat
      (q.usedCount + 1).toNat = _
    rw [hused, ring_congr fun i _ => hword _ (Nat.mod_lt _ (by omega)),
      ring_pushFront hroom hfirst'.1 hfirst'.2]
    rfl

/-- **MsgQueueDequeue** takes the front. -/
theorem dequeue_spec (h : q.WellFormed) (out : OutPointer) (hfull : q.usedCount ≠ 0) :
    ∃ q' msg, q.dequeue out = (q', some (Effect.received msg), decide (out ≠ .refused)) ∧
      ∃ rest, q.contents = some msg :: rest ∧ q.Becomes q' rest := by
  have harray := h.array
  have hpos := pos_of_ne_zero hfull
  have hused := h.used
  have hcount : q.msgCount ≠ 0 := fun h0 => by
    rw [h0, show (0 : Word).toNat = 0 from rfl] at hused
    omega
  have hfirst := h.first hcount
  have hone : (1 : Word).toNat = 1 := rfl
  have hself : q.slotValue q.firstIndex.toNat = q.word (q.slot q.firstIndex) := by
    unfold slotValue
    rw [BitVec.ofNat_toNat]
    rfl
  obtain ⟨msg, hmsg⟩ := Option.isSome_iff_exists.mp (h.mapped _ hfirst)
  have hnext : ((q.firstIndex + 1) % q.msgCount).toNat =
      (q.firstIndex.toNat + 1) % q.msgCount.toNat := by
    rw [BitVec.toNat_umod, toNat_add_one (by omega) hfirst]
  have hless : (q.usedCount - 1).toNat = q.usedCount.toNat - 1 := by
    rw [BitVec.toNat_sub, hone]
    omega
  refine ⟨{ q with firstIndex := (q.firstIndex + 1) % q.msgCount, usedCount := q.usedCount - 1 },
    msg, ?_, ring q.slotValue q.msgCount.toNat ((q.firstIndex.toNat + 1) % q.msgCount.toNat)
      (q.usedCount.toNat - 1), ?_, ?_, rfl, rfl, ?_⟩
  · unfold dequeue
    rw [if_neg (not_or.mpr ⟨hcount, hfull⟩), ← hself, hmsg]
  · unfold contents
    rw [← hmsg, ← ring_popFront hfirst, Nat.sub_add_cancel hpos]
  · refine h.edit _ _ h.mapped ?_ (by omega)
    rw [hnext]
    exact Nat.mod_lt _ (by omega)
  · show ring q.slotValue q.msgCount.toNat ((q.firstIndex + 1) % q.msgCount).toNat
      (q.usedCount - 1).toNat = _
    rw [hnext, hless]

/-! ### any operation -/

def available (q : MessageQueue) : Side → Nat
  | .send => q.msgCount.toNat - q.usedCount.toNat
  | .receive => q.usedCount.toNat

/-- the operation is not lost: a message has a slot to go to, and a place to be received at -/
def allows (q : MessageQueue) : MessageOp → Bool
  | .send _ | .jam _ => q.msgCount ≠ 0
  | .receive out => out ≠ .refused ∨ q.usedCount = 0

theorem usedCount_eq_zero : q.usedCount = 0 ↔ q.usedCount.toNat = 0 :=
  ⟨fun h => by rw [h]; rfl, fun h => BitVec.eq_of_toNat_eq h⟩

theorem isFull_eq_false (h : q.msgCount ≠ 0) :
    q.isFull = false ↔ q.usedCount.toNat < q.msgCount.toNat := by
  unfold isFull
  rw [decide_eq_false_iff_not, not_and, ge_iff_le, BitVec.le_def, Nat.not_le]
  exact ⟨fun hlt => hlt h, fun hlt _ => hlt⟩

theorem ready_iff {op : MessageOp} (h : q.allows op = true) :
    q.ready op = true ↔ 0 < q.available op.side := by
  cases op with
  | send msg | jam msg =>
    show (!q.isFull) = true ↔ 0 < q.msgCount.toNat - q.usedCount.toNat
    rw [Bool.not_eq_true', isFull_eq_false (of_decide_eq_true h)]
    omega
  | receive out =>
    show (!decide (q.usedCount = 0)) = true ↔ 0 < q.usedCount.toNat
    rw [Bool.not_eq_true', decide_eq_false_iff_not, usedCount_eq_zero]
    omega

/-- **One operation**, on a queue that can take it. -/
theorem apply_spec (h : q.WellFormed) {op : MessageOp} (hallows : q.allows op = true)
    (hready : q.ready op = true) {ms : List Word} (hms : q.contents = ms.map some) :
    ∃ q' effect ms', q.apply op = (q', some effect, true) ∧ effect.act ms = some ms' ∧
      q.Becomes q' (ms'.map some) ∧ q'.available op.side + 1 = q.available op.side ∧
      q'.available op.side.other = q.available op.side.other + 1 := by
  have hpos := (ready_iff hallows).mp hready
  have hlength : ms.length = q.usedCount.toNat := by
    rw [← length_contents, hms, List.length_map]
  have hused := h.used
  -- what the other two facts say of the number of messages
  have hcounts : ∀ {q' : MessageQueue} {ms' : List Word}, q.Becomes q' (ms'.map some) →
      q'.msgCount = q.msgCount ∧ q'.usedCount.toNat = ms'.length := fun {q' ms'} hb => by
    refine ⟨hb.count, ?_⟩
    rw [← length_contents, hb.contents, List.length_map]
  cases op with
  | send msg =>
    change 0 < q.msgCount.toNat - q.usedCount.toNat at hpos
    obtain ⟨q', happly, hb⟩ := enqueue_spec h msg (by omega)
    have hb' : q.Becomes q' ((ms ++ [msg]).map some) := by
      rw [List.map_append, ← hms]
      exact hb
    obtain ⟨hc, hu⟩ := hcounts hb'
    rw [List.length_append, hlength, List.length_singleton] at hu
    refine ⟨q', .sent msg, ms ++ [msg], happly, rfl, hb', ?_, ?_⟩
    · show q'.msgCount.toNat - q'.usedCount.toNat + 1 = q.msgCount.toNat - q.usedCount.toNat
      rw [hc]
      omega
    · exact hu
  | jam msg =>
    change 0 < q.msgCount.toNat - q.usedCount.toNat at hpos
    obtain ⟨q', happly, hb⟩ := jam_spec h msg (by omega)
    have hb' : q.Becomes q' ((msg :: ms).map some) := by
      rw [List.map_cons, ← hms]
      exact hb
    obtain ⟨hc, hu⟩ := hcounts hb'
    rw [List.length_cons, hlength] at hu
    refine ⟨q', .jammed msg, msg :: ms, happly, rfl, hb', ?_, ?_⟩
    · show q'.msgCount.toNat - q'.usedCount.toNat + 1 = q.msgCount.toNat - q.usedCount.toNat
      rw [hc]
      omega
    · exact hu
  | receive out =>
    change 0 < q.usedCount.toNat at hpos
    have hne : q.usedCount ≠ 0 := fun h0 => by
      rw [usedCount_eq_zero.mp h0] at hpos
      omega
    have hout : out ≠ .refused := (of_decide_eq_true hallows).resolve_right hne
    obtain ⟨q', msg, happly, rest, hcons, hb⟩ := dequeue_spec h out hne
    rw [decide_eq_true hout] at happly
    cases ms with
    | nil => rw [hms] at hcons; cases hcons
    | cons m ms =>
      rw [hms, List.map_cons] at hcons
      obtain ⟨hm, rfl⟩ := List.cons.inj hcons
      obtain rfl := Option.some.inj hm
      obtain ⟨hc, hu⟩ := hcounts hb
      rw [List.length_cons] at hlength
      refine ⟨q', .received m, ms, happly, if_pos rfl, hb, ?_, ?_⟩
      · show q'.usedCount.toNat + 1 = q.usedCount.toNat
        omega
      · show q'.msgCount.toNat - q'.usedCount.toNat = q.msgCount.toNat - q.usedCount.toNat + 1
        rw [hc]
        omega

end MessageQueue

/-! ## the law -/

def effectsOf (t : Nat) : List MessageEntry → Nat
  | [] => 0
  | .applied u _ :: log => effectsOf t log + if u = t then 1 else 0
  | .returned _ _ :: log => effectsOf t log

/-- the calls of a thread that have returned 1 -/
def successesOf (t : Nat) : List MessageEntry → Nat
  | [] => 0
  | .returned u true :: log => successesOf t log + if u = t then 1 else 0
  | _ :: log => successesOf t log

def MessagePc.isWaking : MessagePc → Bool
  | .waking _ => true
  | .user | .parked _ => false

def replay : List MessageEntry → Option (List Word)
  | [] => some []
  | .applied _ effect :: log => (replay log).bind effect.act
  | .returned _ _ :: log => replay log

/-- a thread that is to test again whether its operation can be done -/
def Woken (os : GuestOs) (pc : Nat → MessagePc) (side : Side) (t : Nat) : Prop :=
  (∃ op, pc t = .parked op ∧ op.side = side) ∧ (os.thread t).state ≠ .waiting

structure MessageLaw (s : MessageSystem) : Prop where
  /-- a list of at most `msgCount` messages, from which receiving takes the front -/
  contents : ∃ ms, replay s.log = some ms ∧ s.queue.contents = ms.map some ∧
    ms.length ≤ s.queue.msgCount.toNat
  /-- one operation for every call that has returned 1, none for the others -/
  once : ∀ t, effectsOf t s.log = successesOf t s.log + if (s.pc t).isWaking then 1 else 0
  /-- no thread sleeps on for want of a wake -/
  served : ∀ side u, Parked s.os (s.queue.waiters side) u → 0 < s.queue.available side →
    ∃ v, Woken s.os s.pc side v

theorem isWaking_update {pc : Nat → MessagePc} {t : Nat} {pc' : MessagePc}
    (h : (pc t).isWaking = pc'.isWaking) (u : Nat) :
    (update pc t pc' u).isWaking = (pc u).isWaking := by
  rw [update_apply]
  split
  · next hut => rw [hut, h]
  · rfl

/-! ## enough threads have been woken -/

variable {os os' : GuestOs} {pc : Nat → MessagePc} {side : Side} {w : WaitQueue} {n t : Nat}

/-- while a thread sleeps, as many have been woken as the queue can take operations -/
def Served (os : GuestOs) (pc : Nat → MessagePc) (side : Side) (w : WaitQueue) (n : Nat) : Prop :=
  ∀ u, Parked os w u → ∃ l : List Nat, l.Nodup ∧ n ≤ l.length ∧ ∀ v ∈ l, Woken os pc side v

namespace Served

theorem zero : Served os pc side w 0 := fun _ _ =>
  ⟨[], List.nodup_nil, Nat.zero_le _, fun _ hv => absurd hv List.not_mem_nil⟩

theorem calm (h : Served os pc side w n) (hc : Calm os os') : Served os' pc side w n := by
  intro u hu
  obtain ⟨l, hl, hn, hwoken⟩ := h u (hc.parked hu)
  exact ⟨l, hl, hn, fun v hv => ⟨(hwoken v hv).1, hc.awake (hwoken v hv).2⟩⟩

theorem leave (h : Served os pc side w (n + 1)) (t : Nat) (pc' : MessagePc) :
    Served os (update pc t pc') side w n := by
  intro u hu
  obtain ⟨l, hl, hn, hwoken⟩ := h u hu
  refine ⟨l.erase t, hl.erase t, ?_, fun v hv => ?_⟩
  · have hlength : l.length - 1 ≤ (l.erase t).length := List.le_length_erase
    omega
  · have hvt : v ≠ t := fun e => hl.not_mem_erase (e ▸ hv)
    obtain ⟨hpc, hstate⟩ := hwoken v (List.mem_of_mem_erase hv)
    exact ⟨by rwa [update_of_ne hvt], hstate⟩

theorem move (h : Served os pc side w n) (ht : ∀ op, pc t = .parked op → op.side ≠ side)
    (pc' : MessagePc) : Served os (update pc t pc') side w n := by
  intro u hu
  obtain ⟨l, hl, hn, hwoken⟩ := h u hu
  refine ⟨l, hl, hn, fun v hv => ?_⟩
  obtain ⟨⟨op, hop, hside⟩, hstate⟩ := hwoken v hv
  have hvt : v ≠ t := fun e => ht op (e ▸ hop) hside
  exact ⟨⟨op, by rwa [update_of_ne hvt], hside⟩, hstate⟩

theorem wake (h : Served os pc side w n) (hc : Calm os os')
    (hwakes : ∀ u, Parked os w u → ∃ v, Parked os w v ∧ (os'.thread v).state ≠ .waiting)
    (hpc : ∀ u, Parked os w u → ∃ op, pc u = .parked op ∧ op.side = side) :
    Served os' pc side w (n + 1) := by
  intro u hu
  have hu' := hc.parked hu
  obtain ⟨l, hl, hn, hwoken⟩ := h u hu'
  obtain ⟨v, hv, hawake⟩ := hwakes u hu'
  refine ⟨v :: l, List.nodup_cons.mpr ⟨fun hmem => ?_, hl⟩, Nat.succ_le_succ hn, fun x hx => ?_⟩
  · exact (hwoken v hmem).2 hv.2.1
  · rcases List.mem_cons.mp hx with rfl | hx
    · exact ⟨hpc x hv, hawake⟩
    · exact ⟨(hwoken x hx).1, hc.awake (hwoken x hx).2⟩

theorem sleep (h : Served os pc side w n) {w' : WaitQueue} (hw : w' ≠ w)
    (hother : ∀ u, u ≠ t → os'.thread u = os.thread u)
    (hself : (os'.thread t).queue = some (.wait w'))
    (ht : ∀ op, pc t = .parked op → op.side ≠ side) : Served os' pc side w n := by
  intro u hu
  have hut : u ≠ t := by
    rintro rfl
    rw [hu.2.2] at hself
    exact hw (QueueAddr.wait.inj (Option.some.inj hself)).symm
  have hu' : Parked os w u := ⟨hu.1, hother u hut ▸ hu.2.1, hother u hut ▸ hu.2.2⟩
  obtain ⟨l, hl, hn, hwoken⟩ := h u hu'
  refine ⟨l, hl, hn, fun v hv => ?_⟩
  obtain ⟨⟨op, hop, hside⟩, hstate⟩ := hwoken v hv
  have hvt : v ≠ t := fun e => ht op (e ▸ hop) hside
  exact ⟨⟨op, hop, hside⟩, hother v hvt ▸ hstate⟩

end Served

/-! ## one step -/

namespace MessageSystem

variable {s s' : MessageSystem} {op : MessageOp} {fuel : Nat}

/-- what every step keeps -/
structure Inv (s : MessageSystem) : Prop where
  sound : Sound s.os
  running : s.os.runningContext ≠ 0 → (s.os.thread s.os.runningContext).state = .running
  queue : s.queue.WellFormed
  contents : ∃ ms, replay s.log = some ms ∧ s.queue.contents = ms.map some
  once : ∀ t, effectsOf t s.log = successesOf t s.log + if (s.pc t).isWaking then 1 else 0
  parked : ∀ side u, Parked s.os (s.queue.waiters side) u →
    (∃ op, s.pc u = .parked op ∧ op.side = side) ∧ s.os.isTerminated u = false
  served : ∀ side, Served s.os s.pc side (s.queue.waiters side) (s.queue.available side)

theorem Inv.law (h : s.Inv) : MessageLaw s := by
  obtain ⟨ms, hreplay, hms⟩ := h.contents
  refine ⟨⟨ms, hreplay, hms, ?_⟩, h.once, fun side u hu hpos => ?_⟩
  · rw [← List.length_map (f := some), ← hms, MessageQueue.length_contents]
    exact h.queue.used
  · obtain ⟨l, -, hn, hwoken⟩ := h.served side u hu
    cases l with
    | nil => exact absurd hn (Nat.not_le.mpr hpos)
    | cons v l => exact ⟨v, hwoken v List.mem_cons_self⟩

theorem waiters_ne (q : MessageQueue) (side : Side) : q.waiters side ≠ q.waiters side.other := by
  cases side <;> simp [MessageQueue.waiters, Side.other]

theorem waiters_ne_zero {q : MessageQueue} (h : q.WellFormed) (side : Side) :
    q.waiters side ≠ .other 0 := by
  have haddress := h.address
  cases side <;> simp [MessageQueue.waiters, haddress]

theorem side_cases (side side' : Side) : side' = side ∨ side' = side.other := by
  cases side <;> cases side' <;> simp [Side.other]

theorem Inv.choose_of (hsettled : Settled s.os)
    (h : ∀ os, Sound os → Calm s.os os → (os.runningContext ≠ 0 →
      (os.thread os.runningContext).state = .running) → (s.withOs os).Inv)
    (hchoose : s.choose fuel = some s') : s'.Inv := by
  obtain ⟨choice, hc, rfl⟩ := Option.map_eq_some_iff.mp hchoose
  obtain ⟨hcalm, hrunning⟩ := chooseThread_calm hsettled hc
  have hsound := chooseThread_spec hsettled hc
  refine h choice.os ?_ hcalm hrunning
  cases choice with
  | stay os => exact hsound
  | idle os => exact hsound
  | picked os t => exact hsound

theorem Inv.refuse (h : s.Inv) {t : Nat} (ht : s.pc t = .user) : (s.finish t false).Inv := by
  have hpc : update s.pc t .user = s.pc := by
    rw [← ht, update_eq_self]
  refine ⟨h.sound, h.running, h.queue, h.contents, fun u => ?_, fun side u hu => ?_, fun side => ?_⟩
  · show effectsOf u s.log = successesOf u s.log + if (update s.pc t _ u).isWaking then 1 else 0
    rw [hpc]
    exact h.once u
  · show (∃ op, update s.pc t .user u = .parked op ∧ op.side = side) ∧ _
    rw [hpc]
    exact h.parked side u hu
  · show Served s.os (update s.pc t .user) side _ _
    rw [hpc]
    exact h.served side

/-- the thread whose call goes on, and where it stands -/
structure Acting (s : MessageSystem) (t : Nat) (op : MessageOp) : Prop where
  running : s.os.runningContext = t
  ne_zero : t ≠ 0
  pc : s.pc t = .user ∨ s.pc t = .parked op

theorem Acting.not_other {t : Nat} (h : s.Acting t op) :
    ∀ op', s.pc t = .parked op' → op'.side ≠ op.side.other := by
  intro op' hop' hside
  rcases h.pc with hpc | hpc
  · rw [hpc] at hop'
    cases hop'
  · rw [hpc] at hop'
    obtain rfl := MessagePc.parked.inj hop'
    cases hs : op.side <;> rw [hs] at hside <;> cases hside

theorem Acting.not_waking {t : Nat} (h : s.Acting t op) : (s.pc t).isWaking = false := by
  rcases h.pc with hpc | hpc <;> rw [hpc] <;> rfl

theorem Inv.ne_of_parked (h : s.Inv) {t u : Nat} (ht : s.Acting t op) {w : WaitQueue}
    (hu : Parked s.os w u) : u ≠ t := by
  rintro rfl
  have hstate := h.running (by rw [ht.running]; exact ht.ne_zero)
  have hwaiting := hu.2.1
  rw [ht.running, hwaiting] at hstate
  cases hstate

theorem Inv.park (h : s.Inv) {t : Nat} (ht : s.Acting t op)
    (hnone : s.queue.available op.side = 0) (hpark : s.park fuel t op = some s') : s'.Inv := by
  obtain ⟨e, hsleep, he⟩ := Option.bind_eq_some_iff.mp hpark
  have hrunning : s.os.runningContext ≠ 0 := ht.running ▸ ht.ne_zero
  have hstate := h.running hrunning
  obtain ⟨hsound, hback⟩ := sleepThread_spec h.sound hrunning
    (fun _ => place_of_state hstate (.inr (.inl rfl))) hsleep
  have honce : ∀ u, effectsOf u s.log = successesOf u s.log +
      if (update s.pc t (.parked op) u).isWaking then 1 else 0 := fun u => by
    rw [isWaking_update (ht.not_waking.trans rfl)]
    exact h.once u
  have hzero : ∀ os' pc', Served os' pc' op.side (s.queue.waiters op.side)
      (s.queue.available op.side) := fun os' pc' => hnone ▸ Served.zero
  cases e with
  | returned os =>
    -- the caller was not switched away from
    obtain rfl := hback os rfl
    obtain rfl := Option.some.inj he
    refine ⟨h.sound, h.running, h.queue, h.contents, honce, fun side u hu => ?_, fun side => ?_⟩
    · obtain ⟨⟨op', hop', hside⟩, hdead⟩ := h.parked side u hu
      have hut : u ≠ t := h.ne_of_parked ht hu
      refine ⟨⟨op', ?_, hside⟩, hdead⟩
      show update s.pc t _ u = _
      rwa [update_of_ne hut]
    · rcases side_cases op.side side with rfl | rfl
      · exact hzero _ _
      · exact (h.served _).move ht.not_other _
  | choosing os rest =>
    obtain ⟨hother, hself, hdead⟩ := sleepThread_parks hrunning hsleep
    rw [ht.running] at hother hself hstate
    have hsettled : Settled ((s.withOs os).setPc t (.parked op)).os := hsound
    refine Inv.choose_of hsettled (fun os' hsound' hcalm hrunning' => ?_) he
    have hserved : ∀ side, Served os' (update s.pc t (.parked op)) side (s.queue.waiters side)
        (s.queue.available side) := by
      intro side
      rcases side_cases op.side side with rfl | rfl
      · exact hzero _ _
      · have hsleep := (h.served op.side.other).sleep (waiters_ne s.queue op.side) hother hself
          ht.not_other
        exact (hsleep.move ht.not_other _).calm hcalm
    refine ⟨hsound', hrunning', h.queue, h.contents, honce, fun side u hu => ?_, hserved⟩
    have hu' := hcalm.parked hu
    show (∃ op', update s.pc t (.parked op) u = .parked op' ∧ op'.side = side) ∧ _
    by_cases hut : u = t
    · rw [hut] at hu' ⊢
      change (os.thread t).queue = some (.wait (s.queue.waiters op.side)) at hself
      have hq : s.queue.waiters side = s.queue.waiters op.side :=
        QueueAddr.wait.inj (Option.some.inj (hu'.2.2.symm.trans hself))
      have hside : op.side = side := by
        rcases side_cases op.side side with rfl | rfl
        · rfl
        · exact absurd hq.symm (waiters_ne s.queue op.side)
      obtain ⟨c, hc⟩ := h.sound.1
      exact ⟨⟨op, update_self .., hside⟩,
        (hcalm.dead t).trans ((hdead t).trans (hc.startable t (.inr hstate)))⟩
    · have hold : Parked s.os (s.queue.waiters side) u :=
        ⟨hu'.1, hother u hut ▸ hu'.2.1, hother u hut ▸ hu'.2.2⟩
      obtain ⟨hop, hlive⟩ := h.parked side u hold
      rw [update_of_ne hut]
      exact ⟨hop, (hcalm.dead u).trans ((hdead u).trans hlive)⟩

/-! ### an operation that is done -/

theorem Inv.performed (h : s.Inv) (t : Nat) (hallows : s.queue.allows op = true)
    (hready : s.queue.ready op = true) :
    ∃ queue effect, s.perform t op =
        ({ s with queue := queue, log := .applied t effect :: s.log }, true) ∧
      queue.WellFormed ∧ (∀ side, queue.waiters side = s.queue.waiters side) ∧
      (∃ ms, replay (.applied t effect :: s.log) = some ms ∧ queue.contents = ms.map some) ∧
      s.queue.available op.side = queue.available op.side + 1 ∧
      queue.available op.side.other = s.queue.available op.side.other + 1 := by
  obtain ⟨ms, hreplay, hms⟩ := h.contents
  obtain ⟨queue, effect, ms', happly, hact, hb, hless, hmore⟩ :=
    MessageQueue.apply_spec h.queue hallows hready hms
  refine ⟨queue, effect, ?_, hb.wellFormed, fun side => ?_, ⟨ms', ?_, hb.contents⟩, hless.symm,
    hmore⟩
  · unfold perform
    rw [happly]
    rfl
  · cases side <;> simp [MessageQueue.waiters, hb.address]
  · show (replay s.log).bind effect.act = _
    rw [hreplay]
    exact hact

theorem Inv.wake (h : s.Inv) {t : Nat} (ht : s.Acting t op) (hallows : s.queue.allows op = true)
    (hready : s.queue.ready op = true) (hwake : (s.perform t op).1.wake fuel t op = some s') :
    s'.Inv := by
  obtain ⟨queue, effect, hperform, hqueue, hwaiters, hcontents, hless, hmore⟩ :=
    h.performed t hallows hready
  rw [hperform] at hwake
  unfold MessageSystem.wake at hwake
  dsimp only at hwake
  rw [hwaiters] at hwake
  generalize hw : s.queue.waiters op.side.other = w at *
  have hw0 : w ≠ .other 0 := hw ▸ waiters_ne_zero h.queue op.side.other
  have hlive : ∀ u, Parked s.os w u → s.os.isTerminated u = false := fun u hu =>
    (h.parked op.side.other u (by rw [hw]; exact hu)).2
  obtain ⟨hcalm, hwakes⟩ := wakeupThread_calm h.sound.1 hw0 hlive
  have hsound := wakeupThread_spec h.sound w
  -- whatever becomes of the caller, it is not among those that are to test again
  have hserved : ∀ os pc', Calm (s.os.wakeupThread w).os os → ∀ side,
      Served os (update s.pc t pc') side (queue.waiters side) (queue.available side) := by
    intro os pc' hcalm' side
    rw [hwaiters]
    rcases side_cases op.side side with rfl | rfl
    · have hleave := h.served op.side
      rw [hless] at hleave
      exact ((hleave.leave t pc').calm hcalm).calm hcalm'
    · have hmove := (h.served op.side.other)
      rw [hw] at hmove ⊢
      rw [hmore]
      exact (((hmove.wake hcalm hwakes fun u hu =>
        (h.parked op.side.other u (by rw [hw]; exact hu)).1).move ht.not_other pc').calm hcalm')
  have hparked : ∀ os pc', Calm (s.os.wakeupThread w).os os → ∀ side u,
      Parked os (queue.waiters side) u →
        (∃ op, update s.pc t pc' u = .parked op ∧ op.side = side) ∧ os.isTerminated u = false := by
    intro os pc' hcalm' side u hu
    rw [hwaiters] at hu
    have hu' := hcalm.parked (hcalm'.parked hu)
    obtain ⟨hop, hdead⟩ := h.parked side u hu'
    rw [update_of_ne (h.ne_of_parked ht hu')]
    exact ⟨hop, (hcalm'.dead u).trans ((hcalm.dead u).trans hdead)⟩
  have honce := h.once
  cases he : s.os.wakeupThread w with
  | returned os =>
    rw [he] at hwake hsound hserved hparked
    obtain rfl := Option.some.inj hwake
    obtain ⟨hrun, hother⟩ := wakeupThread_returned h.sound.1 hw0 hlive he
    refine ⟨hsound, fun h0 => ?_, hqueue, hcontents, fun u => ?_, hparked os .user (Calm.refl os),
      hserved os .user (Calm.refl os)⟩
    · change os.runningContext ≠ 0 at h0
      show (os.thread os.runningContext).state = .running
      rw [hrun] at h0 ⊢
      rw [hother _ fun hp => h.ne_of_parked ht hp ht.running]
      exact h.running h0
    · show effectsOf u s.log + (if t = u then 1 else 0) =
        successesOf u s.log + (if t = u then 1 else 0) +
          if (update s.pc t .user u).isWaking then 1 else 0
      rw [isWaking_update (ht.not_waking.trans rfl), honce u]
      omega
  | choosing os rest =>
    rw [he] at hwake hsound hserved hparked
    have hsettled : Settled os := hsound
    refine Inv.choose_of (s := (({ s with queue := queue, log := .applied t effect :: s.log } :
      MessageSystem).withOs os).setPc t (.waking op)) hsettled
      (fun os' hsound' hcalm' hrunning' => ?_) hwake
    refine ⟨hsound', hrunning', hqueue, hcontents, fun u => ?_, hparked os' _ hcalm',
      hserved os' _ hcalm'⟩
    show effectsOf u s.log + (if t = u then 1 else 0) =
      successesOf u s.log + if (update s.pc t (.waking op) u).isWaking then 1 else 0
    rw [honce u, update_apply]
    by_cases hut : u = t
    · rw [hut, if_pos rfl, if_pos rfl, ht.not_waking]
      rfl
    · rw [if_neg hut, if_neg (Ne.symm hut)]
      rfl

/-! ## runs -/

def trying (s : MessageSystem) : MessageEvent → Option MessageOp
  | .call op _ => some op
  | .resume =>
    match s.pc s.os.runningContext with
    | .parked op => some op
    | .user | .waking _ => none

def allows (s : MessageSystem) (event : MessageEvent) : Bool :=
  (s.trying event).all s.queue.allows

theorem Inv.attempt (h : s.Inv) {t : Nat} {block : Bool} (ht : s.Acting t op)
    (hallows : s.queue.allows op = true) (hblock : block = false → s.pc t = .user)
    (hnext : s.attempt fuel t op block = some s') : s'.Inv := by
  unfold MessageSystem.attempt at hnext
  split at hnext
  · next hready =>
    obtain ⟨queue, effect, hperform, -⟩ := h.performed t hallows hready
    have hok : (s.perform t op).2 = true := by rw [hperform]
    rw [show s.perform t op = ((s.perform t op).1, true) from Prod.ext rfl hok] at hnext
    exact h.wake ht hallows hready hnext
  · next hready =>
    split at hnext
    · refine h.park ht ?_ hnext
      rw [MessageQueue.ready_iff hallows] at hready
      omega
    · next hb =>
      obtain rfl := Option.some.inj hnext
      exact h.refuse (hblock (by simpa using hb))

/-- **One step.** -/
theorem Inv.next (h : s.Inv) {event : MessageEvent} (hallows : s.allows event = true)
    (hnext : s.next fuel event = some s') : s'.Inv := by
  unfold MessageSystem.next at hnext
  dsimp only at hnext
  split at hnext
  · cases hnext
  · next hrunning =>
    split at hnext
    · next op block hpc =>
      refine h.attempt ⟨rfl, hrunning, .inl hpc⟩ ?_ (fun _ => hpc) hnext
      simpa [allows, trying] using hallows
    · next op hpc =>
      -- the caller is RUNNING, so that there is no sleep to undo
      have hundo : s.os.sleepUndo s.os.runningContext (s.queue.waiters op.side) = s.os := by
        unfold sleepUndo
        rw [if_neg]
        rw [h.running hrunning]
        exact fun hb => by cases hb.1
      rw [hundo] at hnext
      refine h.attempt ⟨rfl, hrunning, .inr hpc⟩ ?_ (fun hb => by cases hb) hnext
      simpa [allows, trying, hpc] using hallows
    · next op hpc =>
      obtain rfl := Option.some.inj hnext
      refine ⟨h.sound, h.running, h.queue, h.contents, fun u => ?_, fun side u hu => ?_,
        fun side => (h.served side).move (fun op' hop' => by rw [hpc] at hop'; cases hop') .user⟩
      · show effectsOf u s.log = successesOf u s.log + (if s.os.runningContext = u then 1 else 0) +
          if (update s.pc s.os.runningContext .user u).isWaking then 1 else 0
        rw [h.once u, update_apply]
        by_cases hut : u = s.os.runningContext
        · rw [if_pos hut, if_pos hut.symm, hut, hpc]
          rfl
        · rw [if_neg hut, if_neg (Ne.symm hut), Nat.add_zero]
      · obtain ⟨hop, hdead⟩ := h.parked side u hu
        refine ⟨?_, hdead⟩
        show ∃ op, update s.pc s.os.runningContext .user u = .parked op ∧ op.side = side
        rw [update_of_ne]
        · exact hop
        · rintro rfl
          obtain ⟨op', hop', -⟩ := hop
          rw [hpc] at hop'
          cases hop'
    · cases hnext

/-- the queue has been initialised, on an array that is there; nobody uses it yet -/
structure Start (s : MessageSystem) : Prop where
  sound : Sound s.os
  running : s.os.runningContext ≠ 0 → (s.os.thread s.os.runningContext).state = .running
  queue : ∃ address array count word, address ≠ 0 ∧
    s.queue = MessageQueue.init address array count word ∧ 4 * count.toNat ≤ 2 ^ 32 ∧
    ∀ i < count.toNat, (s.queue.slotValue i).isSome
  pc : ∀ t, s.pc t = .user
  log : s.log = []
  nobody : ∀ side u, ¬Parked s.os (s.queue.waiters side) u

theorem Start.inv (h : s.Start) : s.Inv := by
  obtain ⟨address, array, count, word, haddress, hqueue, hroom, hmapped⟩ := h.queue
  refine ⟨h.sound, h.running, ?_, ⟨[], ?_, ?_⟩, fun t => ?_, fun side u hu => ?_,
    fun side u hu => ?_⟩
  · rw [hqueue] at hmapped ⊢
    refine ⟨haddress, hroom, hmapped, fun hne => MessageQueue.pos_of_ne_zero hne, Nat.zero_le _⟩
  · rw [h.log]
    rfl
  · rw [hqueue]
    rfl
  · rw [h.log, h.pc]
    rfl
  · exact absurd hu (h.nobody side u)
  · exact absurd hu (h.nobody side u)

/-- a run in which no operation is lost -/
def MessageRun (fuel : Nat) : MessageSystem → Prop :=
  Driven Start (fun s event => s.allows event = true) fun s event s' => s.next fuel event = some s'

/-- **Message queues lose and duplicate nothing.** -/
theorem message_queue_law (h : MessageRun fuel s) : MessageLaw s := by
  have hinv : s.Inv := h.invariant (fun _ hstart => hstart.inv)
    fun _ _ _ hi hok hstep => hi.next hok hstep
  exact hinv.law

/-! ### runs of one thread -/

/-- the main thread alone, and a queue of `count` slots -/
def alone (count : Word) : MessageSystem where
  os := GuestOs.initial 1 64
  queue := MessageQueue.init 0x80001000 0x80002000 count fun _ => some 0
  pc _ := .user
  log := []

theorem alone_start {count : Word} (hcount : 4 * count.toNat ≤ 2 ^ 32) : (alone count).Start where
  sound := initial_sound 1 64
  running _ := rfl
  queue := ⟨0x80001000, 0x80002000, count, _, by decide, rfl, hcount, fun _ _ => rfl⟩
  pc _ := rfl
  log := rfl
  nobody side u hu := by
    have hwaiting := hu.2.1
    change (if u = 1 then
      { OSThread.unused with state := .running, detached := true, priority := 16, base := 16 }
      else OSThread.unused).state = .waiting at hwaiting
    split at hwaiting <;> cases hwaiting

theorem driven_of_run {count : Word} {ok : MessageSystem → MessageEvent → Bool}
    {events : List MessageEvent} (hcount : 4 * count.toNat ≤ 2 ^ 32)
    (h : Driven.run (next 4) ok (alone count) events = some s) :
    Driven Start (fun s event => ok s event = true)
      (fun s event s' => s.next 4 event = some s') s :=
  Driven.of_run (fun _ _ hok => hok) (fun _ _ _ hnext => hnext) (.start (alone_start hcount)) h

/-- `message_queue_law` after a message has gone through a queue of one slot -/
theorem message_queue_law_one :
    ∃ s, Driven.run (next 4) allows (alone 1)
      [.call (.send 7) false, .call (.receive .mapped) true] = some s ∧ MessageLaw s := by
  have hsome : (Driven.run (next 4) allows (alone 1)
      [.call (.send 7) false, .call (.receive .mapped) true]).isSome = true := by
    decide +kernel
  obtain ⟨s, hs⟩ := Option.isSome_iff_exists.mp hsome
  exact ⟨s, hs, message_queue_law (driven_of_run (by decide) hs)⟩

/-- **The scheduler under a message queue.**  The linked queues hold the threads that their records
place there, by priority; those of the senders and those of the receivers stand in such a call, alive;
and the thread that runs is marked so. -/
theorem waiters_linked (h : MessageRun fuel s) :
    ∃ c, Consistent s.os c ∧
      (∀ side, ∀ u ∈ c (.wait (s.queue.waiters side)),
        (∃ op, s.pc u = .parked op ∧ op.side = side) ∧ s.os.isTerminated u = false) ∧
      (s.os.runningContext ≠ 0 → (s.os.thread s.os.runningContext).state = .running) := by
  have hinv : s.Inv := h.invariant (fun _ hstart => hstart.inv)
    fun _ _ _ hi hok hstep => hi.next hok hstep
  obtain ⟨⟨c, hc⟩, -⟩ := hinv.sound
  exact ⟨c, hc, fun side u hu => hinv.parked side u (hc.parked_iff.mpr hu), hinv.running⟩

/-- a receiver waits for the first message -/
theorem waiters_linked_one :
    ∃ s c, Driven.run (next 4) allows (alone 1) [.call (.receive .mapped) true] = some s ∧
      Consistent s.os c := by
  have hsome : (Driven.run (next 4) allows (alone 1) [.call (.receive .mapped) true]).isSome = true := by
    decide +kernel
  obtain ⟨s, hs⟩ := Option.isSome_iff_exists.mp hsome
  obtain ⟨c, hc, -⟩ := waiters_linked (driven_of_run (by decide) hs)
  exact ⟨s, c, hs, hc⟩

/-- **Messages are lost.**  A queue without slots takes a message and returns 1; OSReceiveMessage
with a bad out-pointer takes a message off the queue and returns 0. -/
theorem message_queue_loses :
    ¬(∀ s, Driven Start (fun s _ => s.queue.msgCount = 0)
        (fun s event s' => s.next 4 event = some s') s → MessageLaw s) ∧
      ¬∀ s, Driven Start (fun s _ => s.queue.msgCount ≠ 0)
        (fun s event s' => s.next 4 event = some s') s → MessageLaw s := by
  constructor
  · intro h
    have hsome : ((Driven.run (next 4) (fun s _ => decide (s.queue.msgCount = 0)) (alone 0)
        [.call (.send 7) false]).map fun s =>
          (effectsOf 1 s.log, successesOf 1 s.log, (s.pc 1).isWaking)) = some (0, 1, false) := by
      decide +kernel
    obtain ⟨s, hs, hvalues⟩ := Option.map_eq_some_iff.mp hsome
    have hlaw := h s ((driven_of_run (by decide) hs).mono fun _ _ hok => of_decide_eq_true hok)
    have honce := hlaw.once 1
    simp only [Prod.mk.injEq] at hvalues
    rw [hvalues.1, hvalues.2.1, hvalues.2.2] at honce
    cases honce
  · intro h
    have hsome : ((Driven.run (next 4) (fun s _ => decide (s.queue.msgCount ≠ 0)) (alone 1)
        [.call (.send 7) false, .call (.receive .refused) false]).map fun s =>
          (effectsOf 1 s.log, successesOf 1 s.log, (s.pc 1).isWaking)) = some (2, 1, false) := by
      decide +kernel
    obtain ⟨s, hs, hvalues⟩ := Option.map_eq_some_iff.mp hsome
    have hlaw := h s ((driven_of_run (by decide) hs).mono fun _ _ hok => of_decide_eq_true hok)
    have honce := hlaw.once 1
    simp only [Prod.mk.injEq] at hvalues
    rw [hvalues.1, hvalues.2.1, hvalues.2.2] at honce
    cases honce

end MessageSystem

end DolTranslator.Os
