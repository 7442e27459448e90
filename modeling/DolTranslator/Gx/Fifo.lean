import DolTranslator.Gx.Renderer

/-!
# The native FIFO

The game thread keeps what it writes until there is a batch of it, and then sends the batch as a
packet.  The renderer keeps what it gets until there is a batch, and runs it.

* `Call`   what the game calls; `Call.push` the packets that it makes of the bytes at hand;
* `Fifo`   both buffers, the calls one after another, each packet run before the next call;
* `Kept`   every byte that the renderer got has run in a whole command, or waits;
* `lossless_iff`   no byte is lost as long as no more than the stall limit of a packet has come in.
-/

namespace DolTranslator.Gx

open Function Streams

/-! ## the game's side -/

inductive Call where
  | write (data : List Byte)
  | flush
  | submit
  | call_list (address size : BitVec 32)
  | set_display_source (left top width height : BitVec 16)
  | copy_tex (address : BitVec 32) (left top srcWidth srcHeight width height : BitVec 16)
      (clear : Bool) (format : BitVec 32) (vfilter : Option (List Byte))
  | copy_display (xfb : BitVec 32) (clear : Bool)
  | end_frame (xfb : BitVec 32)
  deriving DecidableEq

/-- what the game wrote since the last packet, as a packet -/
def push_bytes (pending : List Byte) : List Packet :=
  if pending = [] then [] else [{ kind := .Bytes, bytes := pending }]

/-- the packet that a call puts after the bytes -/
def Call.own : Call → List Packet
  | .write _ | .flush | .submit => []
  | .call_list address size => [{ kind := .CallList, a := address, b := size }]
  | .set_display_source left top width height =>
    [{ kind := .DisplaySource, left := left, top := top, srcWidth := width, srcHeight := height }]
  | .copy_tex address left top srcWidth srcHeight width height clear format vfilter =>
    [{ kind := .CopyTex, a := address, b := format, left := left, top := top, srcWidth := srcWidth,
       srcHeight := srcHeight, width := width, height := height, clear := clear,
       filtered := vfilter.isSome, vfilter := vfilter.getD (List.replicate 7 0) }]
  | .copy_display xfb clear => [{ kind := .CopyDisplay, a := xfb, clear := clear }]
  | .end_frame xfb => [{ kind := .EndFrame, a := xfb }]

def Call.push (pending : List Byte) : Call → List Byte × List Packet
  | .write data =>
    let pending := pending ++ data
    if pending.length ≥ kRunBatch then ([], push_bytes pending) else (pending, [])
  | call => ([], push_bytes pending ++ call.own)

def Call.written : Call → List Byte
  | .write data => data
  | _ => []

def written (cs : List Call) : List Byte := cs.flatMap Call.written

/-- a call after others: what stays pending, and all packets so far -/
def handOver (s : List Byte × List Packet) (c : Call) : List Byte × List Packet :=
  ((c.push s.1).1, s.2 ++ (c.push s.1).2)

def packets (cs : List Call) : List Packet := (cs.foldl handOver ([], [])).2

def unsent (cs : List Call) : List Byte := (cs.foldl handOver ([], [])).1

def sentOn (cs : List Call) : List Byte := (packets cs).flatMap Packet.bytes

/-! ## one call after another -/

structure Fifo (T : Type) where
  /-- bytes not queued yet -/
  pending : List Byte
  renderer : Renderer T

namespace Fifo

variable {T : Type} (target : Target T) (memory : Memory)

def call (f : Fifo T) (c : Call) : Fifo T where
  pending := (c.push f.pending).1
  renderer := (c.push f.pending).2.foldl (Renderer.run target memory) f.renderer

def calls (f : Fifo T) (cs : List Call) : Fifo T := cs.foldl (call target memory) f

def start (p : Processor) (t : T) : Fifo T := ⟨[], ⟨p, [], 0, t⟩⟩

def drain (f : Fifo T) : Renderer T :=
  ((push_bytes f.pending).foldl (Renderer.run target memory) f.renderer).flush_now target memory

end Fifo

/-! ## what is kept -/

def arriving (memory : Memory) (p : Processor) (data : List Byte) : List Byte :=
  (Processor.runLevels memory kMaxDepth p data).2

theorem arriving_le (memory : Memory) (p : Processor) (data : List Byte) :
    (arriving memory p data).length ≤ data.length := by
  have hleft := congrArg List.length (Processor.runLevels_left memory kMaxDepth p data)
  rw [List.length_drop] at hleft
  unfold arriving
  omega

/-- what the renderer got is the commands that it ran, from `p` on and in order, and the bytes that
it still has; and with these it goes on as it would with all of the stream at once -/
structure Kept {T : Type} (memory : Memory) (p : Processor) (sent : List Byte) (r : Renderer T) :
    Prop where
  whole : ∃ front, sent = front ++ r.pending ∧ arriving memory p front = [] ∧
    (Processor.runLevels memory kMaxDepth p front).1.forgetFormats = r.processor.forgetFormats
  rest : Processor.runLevels memory kMaxDepth p sent =
    Processor.runLevels memory kMaxDepth r.processor r.pending

theorem Kept.start {T : Type} (memory : Memory) (p : Processor) (t : T) :
    Kept memory p [] ⟨p, [], 0, t⟩ :=
  ⟨⟨[], rfl, rfl, rfl⟩, rfl⟩

namespace Renderer

variable {T : Type} (target : Target T) (memory : Memory) {r : Renderer T}

theorem runBytes_eq (data : List Byte) :
    (r.runBytes target memory data).1.processor =
        (Processor.runLevels memory kMaxDepth r.processor data).1 ∧
      data.drop (r.runBytes target memory data).2 = arriving memory r.processor data := by
  refine ⟨rfl, ?_⟩
  exact (Processor.runLevels_left memory kMaxDepth r.processor data).symm

theorem flush_now_processor :
    (r.flush_now target memory).processor =
      (Processor.runLevels memory kMaxDepth r.processor r.pending).1 := by
  unfold flush_now
  split
  · next hempty =>
    rw [hempty]
    rfl
  · dsimp only
    split <;> exact (runBytes_eq target memory r.pending).1

theorem flush_now_pending :
    (r.flush_now target memory).pending =
      if (arriving memory r.processor r.pending).length > kStallLimit then []
      else arriving memory r.processor r.pending := by
  unfold flush_now
  split
  · next hempty =>
    have hnone : arriving memory r.processor [] = [] := rfl
    rw [hempty, hnone, ite_self]
  · dsimp only
    rw [(runBytes_eq target memory r.pending).2]
    split <;> rfl

end Renderer

namespace Kept

variable {T : Type} {target : Target T} {memory : Memory} {p : Processor} {sent : List Byte}
  {r : Renderer T}

theorem arriving_eq (h : Kept memory p sent r) :
    arriving memory p sent = arriving memory r.processor r.pending :=
  congrArg Prod.snd h.rest

theorem append (h : Kept memory p sent r) (data : List Byte) :
    Kept memory p (sent ++ data) { r with pending := r.pending ++ data } := by
  obtain ⟨front, hsent, hall, hformats⟩ := h.whole
  refine ⟨⟨front, ?_, hall, hformats⟩, ?_⟩
  · rw [hsent, List.append_assoc]
  · show Processor.runLevels memory kMaxDepth p (sent ++ data) =
      Processor.runLevels memory kMaxDepth r.processor (r.pending ++ data)
    rw [Processor.runLevels_append, h.rest, ← Processor.runLevels_append]

variable (target) in
theorem flush_now (h : Kept memory p sent r)
    (hfits : (arriving memory p sent).length ≤ kStallLimit) :
    Kept memory p sent (r.flush_now target memory) ∧
      (r.flush_now target memory).pending = arriving memory p sent ∧
      (r.flush_now target memory).processor = (Processor.runLevels memory kMaxDepth p sent).1 := by
  have hpending : (r.flush_now target memory).pending = arriving memory p sent := by
    rw [h.arriving_eq] at hfits ⊢
    rw [Renderer.flush_now_pending, if_neg (Nat.not_lt.mpr hfits)]
  have hprocessor : (r.flush_now target memory).processor =
      (Processor.runLevels memory kMaxDepth p sent).1 := by
    rw [Renderer.flush_now_processor, h.rest]
  refine ⟨⟨⟨sent.take (sent.length - (arriving memory p sent).length), ?_, ?_, ?_⟩, ?_⟩, hpending,
    hprocessor⟩
  · have hleft := Processor.runLevels_left memory kMaxDepth p sent
    conv_lhs => rw [← List.take_append_drop (sent.length - (arriving memory p sent).length) sent]
    rw [hpending]
    exact congrArg _ hleft.symm
  · exact (Processor.runLevels_take memory kMaxDepth p sent).1
  · rw [hprocessor]
    exact (Processor.runLevels_take memory kMaxDepth p sent).2
  · -- the stream once more after nothing
    have hnothing := Processor.runLevels_append memory kMaxDepth p sent []
    rw [List.append_nil, List.append_nil] at hnothing
    rw [hpending, hprocessor]
    exact hnothing

/-- **A write is kept** when what is still arriving with it is within the stall limit. -/
theorem write_now (h : Kept memory p sent r) (data : List Byte)
    (hfits : (arriving memory p (sent ++ data)).length ≤ kStallLimit) :
    Kept memory p (sent ++ data) (r.write_now target memory data) := by
  unfold Renderer.write_now
  dsimp only
  split
  · exact ((h.append data).flush_now target hfits).1
  · exact h.append data

theorem write_now_stalls (h : Kept memory p sent r) {data : List Byte}
    (hover : kStallLimit < (arriving memory p (sent ++ data)).length) :
    (r.write_now target memory data).pending = [] := by
  have happended := h.append data
  have hover' : kStallLimit < (arriving memory r.processor (r.pending ++ data)).length := by
    rw [happended.arriving_eq] at hover
    exact hover
  have hbatch : kRunBatch ≤ (r.pending ++ data).length := by
    have hlimits : kRunBatch ≤ kStallLimit := by decide
    have hshort := arriving_le memory r.processor (r.pending ++ data)
    omega
  unfold Renderer.write_now
  dsimp only
  rw [if_pos hbatch, Renderer.flush_now_pending, if_pos hover']

end Kept

/-! ## calls -/

theorem Call.push_cases {c : Call} (hown : c.own = []) (pending : List Byte) :
    c.push pending = (pending ++ c.written, []) ∨
      c.push pending = ([], push_bytes (pending ++ c.written)) := by
  cases c with
  | write data =>
    unfold Call.push Call.written
    dsimp only
    split
    · exact .inr rfl
    · exact .inl rfl
  | flush => exact .inr (by simp [Call.push, Call.written, Call.own])
  | submit => exact .inr (by simp [Call.push, Call.written, Call.own])
  | _ => cases hown

theorem push_bytes_flatMap (pending : List Byte) :
    (push_bytes pending).flatMap Packet.bytes = pending := by
  unfold push_bytes
  split
  · next hempty => rw [hempty, List.flatMap_nil]
  · simp

theorem packets_concat (cs : List Call) (c : Call) :
    packets (cs ++ [c]) = packets cs ++ (c.push (unsent cs)).2 := by
  unfold packets unsent
  rw [List.foldl_append]
  rfl

theorem unsent_concat (cs : List Call) (c : Call) :
    unsent (cs ++ [c]) = (c.push (unsent cs)).1 := by
  unfold unsent
  rw [List.foldl_append]
  rfl

theorem sentOn_concat (cs : List Call) (c : Call) :
    sentOn (cs ++ [c]) = sentOn cs ++ (c.push (unsent cs)).2.flatMap Packet.bytes := by
  unfold sentOn
  rw [packets_concat, List.flatMap_append]

theorem written_concat (cs : List Call) (c : Call) :
    written (cs ++ [c]) = written cs ++ c.written := by
  unfold written
  rw [List.flatMap_append, List.flatMap_singleton]

namespace Fifo

variable {T : Type} (target : Target T) (memory : Memory) (p : Processor) (t : T)

theorem calls_concat (f : Fifo T) (cs : List Call) (c : Call) :
    f.calls target memory (cs ++ [c]) = (f.calls target memory cs).call target memory c := by
  unfold calls
  rw [List.foldl_append]
  rfl

theorem calls_pending (cs : List Call) :
    ((start p t).calls target memory cs).pending = unsent cs := by
  induction cs using List.reverseRecOn with
  | nil => rfl
  | append_singleton cs c ih =>
    rw [calls_concat, unsent_concat]
    show (c.push _).1 = (c.push _).1
    rw [ih]

theorem calls_renderer (cs : List Call) :
    ((start p t).calls target memory cs).renderer =
      (packets cs).foldl (Renderer.run target memory) ⟨p, [], 0, t⟩ := by
  induction cs using List.reverseRecOn with
  | nil => rfl
  | append_singleton cs c ih =>
    rw [calls_concat, packets_concat, List.foldl_append]
    show (c.push _).2.foldl _ _ = _
    rw [calls_pending, ih]

theorem written_eq {cs : List Call} (hcs : ∀ c ∈ cs, c.own = []) :
    written cs = sentOn cs ++ ((start p t).calls target memory cs).pending := by
  induction cs using List.reverseRecOn with
  | nil => rfl
  | append_singleton cs c ih =>
    have ih := ih fun c hc => hcs c (List.mem_append_left _ hc)
    rw [calls_pending] at ih ⊢
    rw [written_concat, sentOn_concat, unsent_concat, ih]
    generalize unsent cs = pending
    rcases c.push_cases (hcs c (List.mem_append_right _ List.mem_cons_self)) pending with h | h
    · rw [h, List.flatMap_nil, List.append_nil, List.append_assoc]
    · rw [h, push_bytes_flatMap, List.append_nil, List.append_assoc]

theorem run_push_bytes (r : Renderer T) (bytes : List Byte) :
    (push_bytes bytes).foldl (Renderer.run target memory) r =
      if bytes = [] then r else r.write_now target memory bytes := by
  unfold push_bytes
  split <;> rfl

variable {target memory p t}

theorem kept_push_bytes {sent : List Byte} {r : Renderer T} (h : Kept memory p sent r)
    (bytes : List Byte) (hfits : (arriving memory p (sent ++ bytes)).length ≤ kStallLimit) :
    Kept memory p (sent ++ bytes)
      ((push_bytes bytes).foldl (Renderer.run target memory) r) := by
  rw [run_push_bytes]
  split
  · next hempty =>
    rw [hempty, List.append_nil]
    exact h
  · exact h.write_now bytes hfits

/-- **What one call keeps.** -/
theorem kept_call {cs : List Call} {c : Call} (hown : c.own = [])
    (h : Kept memory p (sentOn cs) ((start p t).calls target memory cs).renderer)
    (hfits : (arriving memory p (sentOn (cs ++ [c]))).length ≤ kStallLimit) :
    Kept memory p (sentOn (cs ++ [c]))
      ((start p t).calls target memory (cs ++ [c])).renderer := by
  rw [calls_concat]
  show Kept memory p _ ((c.push _).2.foldl _ _)
  rw [calls_pending]
  rw [sentOn_concat] at hfits ⊢
  generalize unsent cs = pending at *
  rcases c.push_cases hown pending with hpush | hpush
  · rw [hpush, List.flatMap_nil, List.append_nil]
    exact h
  · simp only [hpush, push_bytes_flatMap] at hfits ⊢
    exact kept_push_bytes h _ hfits

/-- **What one call lets go.**  Past the stall limit the renderer keeps nothing of the packet. -/
theorem call_stalls {cs : List Call} {c : Call} (hown : c.own = [])
    (h : Kept memory p (sentOn cs) ((start p t).calls target memory cs).renderer)
    (hbefore : (arriving memory p (sentOn cs)).length ≤ kStallLimit)
    (hover : kStallLimit < (arriving memory p (sentOn (cs ++ [c]))).length) :
    ((start p t).calls target memory (cs ++ [c])).renderer.pending = [] := by
  rw [calls_concat]
  show ((c.push _).2.foldl _ _ : Renderer T).pending = []
  rw [calls_pending]
  rw [sentOn_concat] at hover
  generalize unsent cs = pending at *
  rcases c.push_cases hown pending with hpush | hpush
  · rw [hpush, List.flatMap_nil, List.append_nil] at hover
    exact absurd hbefore (Nat.not_le.mpr hover)
  · rw [hpush, push_bytes_flatMap] at hover
    rw [hpush, run_push_bytes]
    split
    · next hempty =>
      rw [hempty, List.append_nil] at hover
      exact absurd hbefore (Nat.not_le.mpr hover)
    · exact h.write_now_stalls hover

theorem kept_calls {cs : List Call} (hcs : ∀ c ∈ cs, c.own = [])
    (hfits : ∀ done, done <+: cs → (arriving memory p (sentOn done)).length ≤ kStallLimit) :
    Kept memory p (sentOn cs) ((start p t).calls target memory cs).renderer := by
  induction cs using List.reverseRecOn with
  | nil => exact .start memory p t
  | append_singleton cs c ih =>
    refine kept_call (hcs c (List.mem_append_right _ List.mem_cons_self)) ?_
      (hfits _ (List.prefix_refl _))
    exact ih (fun c hc => hcs c (List.mem_append_left _ hc))
      fun done hdone => hfits done (hdone.trans (List.prefix_append _ _))

/-! ## no byte is lost -/

/-- at every time the bytes written are those that have run in whole commands, in order, and those
in the buffers; and a stream of whole commands runs whole -/
structure Lossless (target : Target T) (memory : Memory) (p : Processor) (t : T) (cs : List Call) :
    Prop where
  kept : ∀ done, done <+: cs → ∃ sent,
    written done = sent ++ ((start p t).calls target memory done).pending ∧
      Kept memory p sent ((start p t).calls target memory done).renderer
  whole : arriving memory p (written cs) = [] →
    (((start p t).calls target memory cs).drain target memory).pending = [] ∧
      (((start p t).calls target memory cs).drain target memory).processor =
        (Processor.runLevels memory kMaxDepth p (written cs)).1

theorem whole_of_kept {cs : List Call} {sent : List Byte}
    (hwritten : written cs = sent ++ ((start p t).calls target memory cs).pending)
    (hkept : Kept memory p sent ((start p t).calls target memory cs).renderer)
    (hwhole : arriving memory p (written cs) = []) :
    (((start p t).calls target memory cs).drain target memory).pending = [] ∧
      (((start p t).calls target memory cs).drain target memory).processor =
        (Processor.runLevels memory kMaxDepth p (written cs)).1 := by
  have hfits : (arriving memory p (written cs)).length ≤ kStallLimit := by
    rw [hwhole]
    exact Nat.zero_le _
  rw [hwritten] at hfits
  have hall : Kept memory p (sent ++ ((start p t).calls target memory cs).pending)
      ((push_bytes ((start p t).calls target memory cs).pending).foldl (Renderer.run target memory)
        ((start p t).calls target memory cs).renderer) := kept_push_bytes hkept _ hfits
  obtain ⟨-, hpending, hprocessor⟩ := hall.flush_now target hfits
  rw [← hwritten] at hpending hprocessor
  exact ⟨hpending.trans hwhole, hprocessor⟩

theorem fits_of_lossless {cs : List Call} (hcs : ∀ c ∈ cs, c.own = [])
    (h : Lossless target memory p t cs) {done : List Call} (hdone : done <+: cs) :
    (arriving memory p (sentOn done)).length ≤ kStallLimit := by
  have howns : ∀ {done}, done <+: cs → ∀ c ∈ done, c.own = [] :=
    fun hdone c hc => hcs c (hdone.subset hc)
  induction done using List.reverseRecOn with
  | nil => exact Nat.zero_le _
  | append_singleton done c ih =>
    have hshorter := (List.prefix_append done [c]).trans hdone
    have hsent : ∀ {done}, done <+: cs →
        Kept memory p (sentOn done) ((start p t).calls target memory done).renderer := by
      intro done hdone
      obtain ⟨sent, hwritten, hkept⟩ := h.kept done hdone
      rw [written_eq target memory p t (howns hdone)] at hwritten
      rwa [List.append_cancel_right hwritten]
    by_contra hover
    have hnothing := call_stalls (howns hdone c (List.mem_append_right _ List.mem_cons_self))
      (hsent hshorter) (ih hshorter) (Nat.not_le.mp hover)
    -- with nothing kept, all of it would have had to run
    obtain ⟨front, hfront, hall, -⟩ := (hsent hdone).whole
    rw [hnothing, List.append_nil] at hfront
    rw [hfront, hall] at hover
    exact hover (Nat.zero_le _)

theorem lossless_of_fits {cs : List Call} (hcs : ∀ c ∈ cs, c.own = [])
    (hfits : ∀ done, done <+: cs → (arriving memory p (sentOn done)).length ≤ kStallLimit) :
    Lossless target memory p t cs := by
  have howns : ∀ {done}, done <+: cs → ∀ c ∈ done, c.own = [] :=
    fun hdone c hc => hcs c (hdone.subset hc)
  have hkept : ∀ done, done <+: cs →
      Kept memory p (sentOn done) ((start p t).calls target memory done).renderer :=
    fun done hdone => kept_calls (howns hdone) fun d hd => hfits d (hd.trans hdone)
  refine ⟨fun done hdone => ⟨sentOn done, written_eq target memory p t (howns hdone),
    hkept done hdone⟩, ?_⟩
  exact whole_of_kept (written_eq target memory p t hcs) (hkept cs (List.prefix_refl _))

/-- **The FIFO loses no byte** of a stream, however it is cut and wherever it is flushed, exactly
when never more than the stall limit of a packet has come in without its end. -/
theorem lossless_iff (target : Target T) (memory : Memory) (p : Processor) (t : T) (cs : List Call)
    (hcs : ∀ c ∈ cs, c.own = []) :
    Lossless target memory p t cs ↔
      ∀ done, done <+: cs → (arriving memory p (sentOn done)).length ≤ kStallLimit :=
  ⟨fun h _ hdone => fits_of_lossless hcs h hdone, lossless_of_fits hcs⟩

/-! ## the witness, and a draw that is longer -/

/-- nothing is drawn into -/
def noTarget : Target Unit where
  up := false
  passOpen _ := false
  beforeChange _ _ := ()
  draw _ _ _ := ()
  displaySource _ _ := ()
  copyTex _ _ _ := ()
  copyDisplay _ _ _ := ()
  endPass _ _ := ()
  present _ _ := ()

/-- a BP command in two writes, with a submit between them and a flush after them -/
theorem lossless_cutCommand :
    Lossless noTarget (fun _ _ => none) (.start State.defaults) ()
      [.write [0x61, 0x00], .submit, .write [0x00, 0x04, 0x11], .flush] :=
  (lossless_iff noTarget _ _ _ _ (by simp [Call.own])).mpr fun done hdone =>
    (arriving_le _ _ _).trans <|
      (by decide : ∀ done ∈ List.inits [Call.write [0x61, 0x00], .submit,
        .write [0x00, 0x04, 0x11], .flush], (sentOn done).length ≤ kStallLimit) done
        ((List.mem_inits _ _).mpr hdone)

/-- direct positions of three floats in table 0 -/
def directPositions : List Byte := [0x08, 0x50, 0, 0, 0x02, 0, 0x08, 0x70, 0, 0, 0, 0x09]

def positioned : Processor :=
  (Processor.runLevels (fun _ _ => none) kMaxDepth (.start State.defaults) directPositions).1

/-- 65535 vertices of 12 bytes, of which so many bytes have come -/
def wideDraw (bytes : Nat) : List Byte :=
  directPositions ++ 0x90 :: 0xFF :: 0xFF :: List.replicate bytes 0

theorem wideDraw_layout :
    ((positioned.DirectFormat 0).1.layoutFrom (positioned.DirectFormat 0).2
      (List.range VaCount) {}).map (fun l => (l.streamSize, l.directSize)) = some (12, 12) := by
  decide +kernel

theorem drawRecords_positioned {bytes : Nat} (hle : bytes ≤ 786420) :
    ((Processor.drawRecords (fun _ _ => none) (positioned.DirectFormat 0).1 0x90 65535
      (positioned.DirectFormat 0).2 (List.replicate bytes 0)).map fun drawn => drawn.2) =
      if bytes < 786420 then none else some [] := by
  obtain ⟨l, hl, hsizes⟩ := Option.map_eq_some_iff.mp wideDraw_layout
  obtain ⟨hstream, hdirect⟩ := Prod.mk.inj hsizes
  unfold Processor.drawRecords
  rw [hl, Option.bind_some, if_neg (by omega), hstream, List.length_replicate]
  by_cases hshort : bytes < 786420
  · rw [if_pos hshort, if_pos hshort]
    rfl
  · rw [if_neg hshort, if_neg hshort, List.drop_replicate, Option.map_some]
    rw [show bytes - 12 * 65535 = 0 by omega]
    rfl

theorem RunDraw_positioned {bytes : Nat} (hle : bytes ≤ 786420) :
    (Processor.RunDraw (fun _ _ => none) 0x90 positioned
      (0xFF :: 0xFF :: List.replicate bytes 0)).2 = if bytes < 786420 then none else some [] := by
  have hrecords := drawRecords_positioned hle
  have hcount : be16 (0xFF :: 0xFF :: List.replicate bytes 0) = 65535 := by
    unfold be16
    rw [List.getD_cons_zero, List.getD_cons_succ, List.getD_cons_zero]
    decide
  unfold Processor.RunDraw
  rw [if_neg (by simp), hcount]
  have hformat : positioned.DirectFormat (0x90 % 8) = positioned.DirectFormat 0 := rfl
  rw [hformat, List.drop_succ_cons, List.drop_succ_cons, List.drop_zero]
  dsimp only
  cases hdrawn : Processor.drawRecords (fun _ _ => none) (positioned.DirectFormat 0).1 0x90 65535
    (positioned.DirectFormat 0).2 (List.replicate bytes 0) with
  | none =>
    rw [hdrawn] at hrecords
    exact hrecords
  | some drawn =>
    rw [hdrawn] at hrecords
    exact hrecords

theorem arriving_wideDraw {bytes : Nat} (hle : bytes ≤ 786420) :
    (arriving (fun _ _ => none) (.start State.defaults) (wideDraw bytes)).length =
      if bytes < 786420 then bytes + 3 else 0 := by
  have hdescriptor : (Processor.runLevels (fun _ _ => none) kMaxDepth (.start State.defaults)
      directPositions).2 = [] := by decide +kernel
  have hdraw : arriving (fun _ _ => none) (.start State.defaults) (wideDraw bytes) =
      arriving (fun _ _ => none) positioned (0x90 :: 0xFF :: 0xFF :: List.replicate bytes 0) := by
    unfold arriving wideDraw
    rw [Processor.runLevels_append, hdescriptor]
    rfl
  have hstep := RunDraw_positioned hle
  rw [hdraw]
  unfold arriving
  rw [Processor.runLevels_eq]
  rcases hran : Processor.RunDraw (fun _ _ => none) 0x90 positioned
    (0xFF :: 0xFF :: List.replicate bytes 0) with ⟨p', rest⟩
  rw [hran] at hstep
  have hcommand : Processor.command (fun _ _ => none)
      (Processor.callAt (fun _ _ => none) kMaxDepth) positioned
      (0x90 :: 0xFF :: 0xFF :: List.replicate bytes 0) = (p', rest) := by
    have hprimitive : 0x80 ≤ (0x90 : Byte).toNat ∧ (0x90 : Byte).toNat ≤ 0xBF := by decide
    rw [← hran]
    unfold Processor.command Processor.commandBody
    dsimp only
    rw [if_pos hprimitive]
    rfl
  by_cases hshort : bytes < 786420
  · rw [if_pos hshort] at hstep ⊢
    rw [show rest = none from hstep] at hcommand
    rw [List.length_cons, loop_none (List.cons_ne_nil _ _) hcommand]
    simp only [List.length_cons, List.length_replicate]
  · rw [if_neg hshort] at hstep ⊢
    rw [show rest = some [] from hstep] at hcommand
    rw [List.length_cons, loop_some (List.cons_ne_nil _ _) hcommand, loop_nil]
    rfl

/-- **A long draw is lost.**  The stream is whole; but with 256 KiB of the draw in and the rest
still to come, the renderer lets go of all of it. -/
theorem long_draw_lost :
    let calls := [Call.write (wideDraw 262144), .write (List.replicate 524276 0), .flush]
    arriving (fun _ _ => none) (.start State.defaults) (written calls) = [] ∧
      ¬ Lossless noTarget (fun _ _ => none) (.start State.defaults) () calls := by
  intro calls
  refine ⟨?_, fun h => ?_⟩
  · have hwritten : written calls = wideDraw 786420 := by
      have hbytes : List.replicate 786420 (0 : Byte) =
          List.replicate 262144 0 ++ List.replicate 524276 0 := by
        rw [← List.replicate_add]
      show wideDraw 262144 ++ (List.replicate 524276 0 ++ []) = _
      unfold wideDraw
      rw [hbytes, List.append_nil, List.append_assoc]
      rfl
    rw [hwritten, ← List.length_eq_zero_iff, arriving_wideDraw le_rfl]
    rfl
  · have hsent : sentOn [Call.write (wideDraw 262144)] = wideDraw 262144 := by
      have hlong : (wideDraw 262144).length = 262159 := by
        unfold wideDraw
        rw [List.length_append, List.length_cons, List.length_cons, List.length_cons,
          List.length_replicate]
        rfl
      have hbatch : kRunBatch ≤ (wideDraw 262144).length := by
        rw [hlong]
        decide
      have hpush : (Call.write (wideDraw 262144)).push [] = ([], push_bytes (wideDraw 262144)) := by
        unfold Call.push
        simp only [List.nil_append]
        exact if_pos hbatch
      rw [← List.nil_append [Call.write (wideDraw 262144)], sentOn_concat]
      show sentOn [] ++ ((Call.write (wideDraw 262144)).push []).2.flatMap Packet.bytes = _
      rw [hpush, push_bytes_flatMap]
      rfl
    have hcalls : ∀ c ∈ calls, c.own = [] :=
      List.forall_mem_cons.mpr ⟨rfl, List.forall_mem_cons.mpr ⟨rfl, List.forall_mem_cons.mpr
        ⟨rfl, List.forall_mem_nil _⟩⟩⟩
    have hwhole := fits_of_lossless hcalls h
      (show [.write (wideDraw 262144)] <+: calls from ⟨_, rfl⟩)
    rw [hsent, arriving_wideDraw (by decide), if_pos (by decide)] at hwhole
    exact absurd hwhole (by decide)

end Fifo

end DolTranslator.Gx
