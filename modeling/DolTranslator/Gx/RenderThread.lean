import DolTranslator.Gx.Fifo
import DolTranslator.Transition.Events

/-!
# The render thread

The game thread queues packets; the render thread takes them one by one.  Every stretch under the
lock is one move, and so is everything a thread does between two of them.

* `Threads`   both threads, what the lock guards, and what has been called and run so far;
* `step`   one move of one thread, when it can make it; `moves` any interleaving;
* `Inv`   the packets run, taken, queued and in hand are those of the calls;
* `faithful_iff`   in every interleaving the renderer does what the calls ask for, in their order;
  a flush has all of it run exactly when nothing whole stays in the renderer's buffer.
-/

namespace DolTranslator.Gx

open Function Streams Transition

/-! ## the threads -/

/-- where the game thread is -/
inductive GameAt where
  | ready
  /-- has the pending bytes in a packet -/
  | swapped (c : Call) (p : Packet)
  /-- has packets to push -/
  | sending (c : Call) (ps : List Packet)
  /-- has pushed one, and is to wake the render thread -/
  | notifying (c : Call) (ps : List Packet)
  /-- at the wait of a flush or a frame's end -/
  | waiting (c : Call) (asleep : Bool)

/-- where the render thread is -/
inductive RenderAt where
  | waiting
  | asleep
  | running (p : Packet)
  | ran (p : Packet)

/-- a wait that has returned: the calls before it, and what had run -/
structure Returned (T : Type) where
  before : List Call
  call : Call
  executed : List Packet
  renderer : Renderer T

structure Threads (T : Type) where
  game : GameAt
  pending : List Byte
  /-- under the lock -/
  queue : List Packet
  spare : List (List Byte)
  busy : Bool
  framesQueued : Nat
  framesDone : Nat
  render : RenderAt
  renderer : Renderer T
  /-- the calls so far, the packets that have run, and the waits that have returned -/
  called : List Call
  executed : List Packet
  returned : List (Returned T)

namespace Threads

variable {T : Type} (target : Target T) (memory : Memory)

def start (p : Processor) (t : T) : Threads T where
  game := .ready
  pending := []
  queue := []
  spare := []
  busy := false
  framesQueued := 0
  framesDone := 0
  render := .waiting
  renderer := ⟨p, [], 0, t⟩
  called := []
  executed := []
  returned := []

/-! ## the game thread -/

def awaited (s : Threads T) : Call → Bool
  | .flush => s.queue.isEmpty && !s.busy
  | .end_frame _ => decide (s.framesQueued ≤ s.framesDone + 1)
  | _ => true

/-- a call up to its first lock -/
def begin (s : Threads T) (c : Call) : Threads T :=
  let s := { s with called := s.called ++ [c] }
  match c with
  | .write data =>
    let pending := s.pending ++ data
    if pending.length ≥ kRunBatch then
      { s with pending := [], game := .swapped c { kind := .Bytes, bytes := pending } }
    else { s with pending := pending }
  | c =>
    if s.pending = [] then { s with game := .sending c c.own }
    else { s with pending := [], game := .swapped c { kind := .Bytes, bytes := s.pending } }

def refill (s : Threads T) (c : Call) (p : Packet) : Threads T :=
  let s := { s with game := .sending c (p :: c.own) }
  match s.spare.getLast? with
  | some buffer => { s with pending := buffer, spare := s.spare.dropLast }
  | none => s

/-- all is pushed: the call returns, or comes to its wait -/
def sent (s : Threads T) (c : Call) : Threads T :=
  match c with
  | .flush => { s with game := .waiting c false }
  | .end_frame _ => { s with framesQueued := s.framesQueued + 1, game := .waiting c false }
  | _ => { s with game := .ready }

def check (s : Threads T) (c : Call) : Threads T :=
  if s.awaited c then
    { s with
        game := .ready
        returned := ⟨s.called.dropLast, c, s.executed, s.renderer⟩ :: s.returned }
  else { s with game := .waiting c true }

def wakeGame (s : Threads T) : Threads T :=
  match s.game with
  | .waiting c _ => { s with game := .waiting c false }
  | _ => s

def wakeRender (s : Threads T) : Threads T :=
  match s.render with
  | .asleep => { s with render := .waiting }
  | _ => s

/-- after a packet, under the lock -/
def finish (s : Threads T) (p : Packet) : Threads T :=
  let s := { s with
    render := .waiting
    busy := false
    framesDone := s.framesDone + if p.kind = .EndFrame then 1 else 0
    -- a packet that never had bytes has no buffer to hand back
    spare := if p.bytes ≠ [] ∧ s.spare.length < 16 then s.spare ++ [[]] else s.spare }
  if s.queue = [] ∨ p.kind = .EndFrame then s.wakeGame else s

inductive Move where
  | call (c : Call) | refill | push | notify | sent | check | wakeGame
  | take | run | finish | wakeRender

/-- a move, when its thread is there; either thread may wake without being notified -/
def step (s : Threads T) : Move → Option (Threads T)
  | .call c => match s.game with
    | .ready => some (s.begin c)
    | _ => none
  | .refill => match s.game with
    | .swapped c p => some (s.refill c p)
    | _ => none
  | .push => match s.game with
    | .sending c (p :: ps) => some { s with queue := s.queue ++ [p], game := .notifying c ps }
    | _ => none
  | .notify => match s.game with
    | .notifying c ps => some { s.wakeRender with game := .sending c ps }
    | _ => none
  | .sent => match s.game with
    | .sending c [] => some (s.sent c)
    | _ => none
  | .check => match s.game with
    | .waiting c false => some (s.check c)
    | _ => none
  | .wakeGame => some s.wakeGame
  | .take => match s.render, s.queue with
    | .waiting, p :: queue => some { s with queue := queue, busy := true, render := .running p }
    | .waiting, [] => some { s with render := .asleep }
    | _, _ => none
  | .run => match s.render with
    | .running p => some { s with
        renderer := s.renderer.run target memory p
        executed := s.executed ++ [p]
        render := .ran p }
    | _ => none
  | .finish => match s.render with
    | .ran p => some (s.finish p)
    | _ => none
  | .wakeRender => some s.wakeRender

/-- any interleaving of the two threads -/
abbrev Reached (p : Processor) (t : T) (s : Threads T) : Prop :=
  Driven (fun s => s = start p t) (fun _ _ => True)
    (fun s move s' => step target memory s move = some s') s

end Threads

/-! ## packets on their way -/

namespace GameAt

/-- the packets that are not in the queue yet -/
def inHand : GameAt → List Packet
  | .swapped c p => p :: c.own
  | .sending _ ps | .notifying _ ps => ps
  | _ => []

/-- the call that has not returned -/
def call? : GameAt → Option Call
  | .ready => none
  | .swapped c _ | .sending c _ | .notifying c _ | .waiting c _ => some c

end GameAt

namespace RenderAt

/-- the packet that is not run yet -/
def taken : RenderAt → List Packet
  | .running p => [p]
  | _ => []

/-- the packet that has run, when its end is not told yet -/
def untold : RenderAt → List Packet
  | .ran p => [p]
  | _ => []

end RenderAt

def frames (ps : List Packet) : Nat := ps.countP fun p => decide (p.kind = .EndFrame)

/-- the frame's end that the game has not counted yet -/
def GameAt.uncounted : GameAt → Nat
  | .swapped c _ | .sending c _ | .notifying c _ => frames c.own
  | _ => 0

theorem frames_append (ps qs : List Packet) : frames (ps ++ qs) = frames ps + frames qs :=
  List.countP_append

theorem frames_push (c : Call) (pending : List Byte) :
    frames (c.push pending).2 = frames c.own := by
  have hbytes : ∀ pending, frames (push_bytes pending) = 0 := fun pending => by
    unfold push_bytes
    split <;> rfl
  cases c with
  | write data =>
    unfold Call.push
    dsimp only
    split
    · exact hbytes _
    · rfl
  | _ =>
    show frames (push_bytes pending ++ _) = _
    rw [frames_append, hbytes, Nat.zero_add]

theorem frames_packets (cs : List Call) : frames (packets cs) = frames (cs.flatMap Call.own) := by
  induction cs using List.reverseRecOn with
  | nil => rfl
  | append_singleton cs c ih =>
    rw [packets_concat, frames_append, frames_push, ih, List.flatMap_append, frames_append,
      List.flatMap_singleton]

/-! ### byte by byte -/

def Packet.items (p : Packet) : List (Byte ⊕ Packet) :=
  if p.kind = .Bytes then p.bytes.map .inl else [.inr p]

def Call.items (c : Call) : List (Byte ⊕ Packet) := c.written.map .inl ++ c.own.map .inr

theorem push_bytes_items (pending : List Byte) :
    (push_bytes pending).flatMap Packet.items = pending.map .inl := by
  unfold push_bytes
  split
  · next hempty =>
    rw [hempty]
    rfl
  · rw [List.flatMap_singleton]
    rfl

theorem own_items (c : Call) : c.own.flatMap Packet.items = c.own.map .inr := by
  cases c <;> rfl

theorem push_items (c : Call) (pending : List Byte) :
    (c.push pending).2.flatMap Packet.items ++ (c.push pending).1.map .inl =
      pending.map .inl ++ c.items := by
  have hown := own_items c
  cases c with
  | write data =>
    unfold Call.push Call.items Call.written Call.own
    dsimp only
    split
    · simp only [push_bytes_items, List.map_append, List.map_nil, List.append_nil]
    · simp only [List.flatMap_nil, List.nil_append, List.map_append, List.map_nil, List.append_nil]
  | _ =>
    unfold Call.push Call.items
    simp only [List.flatMap_append, push_bytes_items, hown, Call.written, List.map_nil,
      List.append_nil, List.nil_append]

theorem packets_items (cs : List Call) :
    (packets cs).flatMap Packet.items ++ (unsent cs).map .inl = cs.flatMap Call.items := by
  induction cs using List.reverseRecOn with
  | nil => rfl
  | append_singleton cs c ih =>
    rw [packets_concat, unsent_concat, List.flatMap_append, List.append_assoc, push_items,
      ← List.append_assoc, ih, List.flatMap_append, List.flatMap_singleton]

section

variable {T : Type} (target : Target T) (memory : Memory) (p : Processor) (t : T)

/-- what had run when a wait returned -/
structure Returned.Good (r : Returned T) : Prop where
  renderer : r.renderer = r.executed.foldl (Renderer.run target memory) ⟨p, [], 0, t⟩
  flushed : r.call = .flush → r.executed = packets (r.before ++ [r.call])
  frames : ∀ xfb, r.call = .end_frame xfb →
    frames (packets (r.before ++ [r.call])) ≤ frames r.executed + 1

end

namespace Threads

variable {T : Type} (target : Target T) (memory : Memory) (p : Processor) (t : T)

structure Inv (s : Threads T) : Prop where
  packets : s.executed ++ s.render.taken ++ s.queue ++ s.game.inHand = packets s.called
  pending : s.pending = unsent s.called
  /-- a buffer that comes back is empty -/
  spare : ∀ buffer ∈ s.spare, buffer = []
  swapped : ∀ c q, s.game = .swapped c q → s.pending = []
  renderer : s.renderer = s.executed.foldl (Renderer.run target memory) ⟨p, [], 0, t⟩
  idle : s.busy = false → s.render.taken = [] ∧ s.render.untold = []
  queued : s.framesQueued + s.game.uncounted = frames (Gx.packets s.called)
  done : s.framesDone + frames s.render.untold = frames s.executed
  current : ∀ c, s.game.call? = some c → ∃ before, s.called = before ++ [c]
  returned : ∀ r ∈ s.returned, r.Good target memory p t

variable {target memory p t} {s : Threads T}

theorem Inv.start : Inv target memory p t (start p t) where
  packets := rfl
  pending := rfl
  spare _ h := by cases h
  swapped _ _ h := by cases h
  renderer := rfl
  idle _ := ⟨rfl, rfl⟩
  queued := rfl
  done := rfl
  current _ h := by cases h
  returned _ h := by cases h

/-! ### moves of the game thread -/

theorem begin_cases (s : Threads T) (c : Call) :
    (∃ q, c.push s.pending = ([], q :: c.own) ∧
      s.begin c = { s with called := s.called ++ [c], pending := [], game := .swapped c q }) ∨
    (s.pending = [] ∧ c.push s.pending = ([], c.own) ∧
      s.begin c = { s with called := s.called ++ [c], game := .sending c c.own }) ∨
    ∃ pending, c.own = [] ∧ c.push s.pending = (pending, []) ∧
      s.begin c = { s with called := s.called ++ [c], pending := pending } := by
  have hother : ∀ c' : Call, c'.push s.pending = ([], push_bytes s.pending ++ c'.own) →
      s.begin c' = (if s.pending = [] then
          { s with called := s.called ++ [c'], game := .sending c' c'.own }
        else { s with
          called := s.called ++ [c']
          pending := []
          game := .swapped c' { kind := .Bytes, bytes := s.pending } }) →
      (∃ q, c'.push s.pending = ([], q :: c'.own) ∧
        s.begin c' = { s with called := s.called ++ [c'], pending := [], game := .swapped c' q }) ∨
      s.pending = [] ∧ c'.push s.pending = ([], c'.own) ∧
        s.begin c' = { s with called := s.called ++ [c'], game := .sending c' c'.own } := by
    intro c' hpush hbegin
    unfold push_bytes at hpush
    by_cases hempty : s.pending = []
    · rw [if_pos hempty] at hpush hbegin
      exact .inr ⟨hempty, hpush, hbegin⟩
    · rw [if_neg hempty] at hpush hbegin
      exact .inl ⟨_, hpush, hbegin⟩
  cases c with
  | write data =>
    by_cases hbatch : (s.pending ++ data).length ≥ kRunBatch
    · have hne : s.pending ++ data ≠ [] := by
        intro hempty
        rw [hempty] at hbatch
        exact absurd hbatch (by decide)
      refine .inl ⟨{ kind := .Bytes, bytes := s.pending ++ data }, ?_, if_pos hbatch⟩
      unfold Call.push push_bytes
      simp only [if_pos hbatch, if_neg hne, Call.own]
    · exact .inr (.inr ⟨s.pending ++ data, rfl, if_neg hbatch, if_neg hbatch⟩)
  | _ =>
    refine (hother _ rfl rfl).imp_right .inl

theorem Inv.begin (h : Inv target memory p t s) (hgame : s.game = .ready) (c : Call) :
    Inv target memory p t (s.begin c) := by
  have hpackets := h.packets
  have hqueued := h.queued
  rw [hgame] at hpackets hqueued
  have hpush : (s.executed ++ s.render.taken ++ s.queue) ++ (c.push s.pending).2 =
      Gx.packets (s.called ++ [c]) := by
    rw [packets_concat, ← hpackets, h.pending]
    simp only [GameAt.inHand, List.append_nil]
  have hunsent : (c.push s.pending).1 = unsent (s.called ++ [c]) := by
    rw [unsent_concat, h.pending]
  have hframes : s.framesQueued + frames c.own = frames (Gx.packets (s.called ++ [c])) := by
    rw [packets_concat, frames_append, frames_push, ← hqueued]
    rfl
  obtain ⟨q, hsend, hbegin⟩ | ⟨hempty, hsend, hbegin⟩ | ⟨pending, hown, hsend, hbegin⟩ :=
    begin_cases s c
  · rw [hsend] at hpush hunsent
    rw [hbegin]
    exact {
      packets := hpush
      pending := hunsent
      spare := h.spare
      swapped := fun _ _ _ => rfl
      renderer := h.renderer
      idle := h.idle
      queued := hframes
      done := h.done
      current := fun c' hc => by
        obtain rfl := Option.some.inj hc
        exact ⟨s.called, rfl⟩
      returned := h.returned }
  · rw [hsend] at hpush hunsent
    rw [hbegin]
    exact {
      packets := hpush
      pending := hempty.trans hunsent
      spare := h.spare
      swapped := fun _ _ hswapped => by cases hswapped
      renderer := h.renderer
      idle := h.idle
      queued := hframes
      done := h.done
      current := fun c' hc => by
        obtain rfl := Option.some.inj hc
        exact ⟨s.called, rfl⟩
      returned := h.returned }
  · rw [hsend] at hpush hunsent
    rw [hown] at hframes
    rw [hbegin]
    exact {
      packets := by
        rw [hgame]
        exact hpush
      pending := hunsent
      spare := h.spare
      swapped := fun _ _ hswapped => by
        rw [hgame] at hswapped
        cases hswapped
      renderer := h.renderer
      idle := h.idle
      queued := by
        rw [hgame]
        exact hframes
      done := h.done
      current := fun c' hc => by
        rw [hgame] at hc
        cases hc
      returned := h.returned }

theorem Inv.goTo (h : Inv target memory p t s) {g : GameAt} (hhand : g.inHand = s.game.inHand)
    (huncounted : g.uncounted = s.game.uncounted) (hcall : ∀ c, g.call? = some c → s.game.call? = some c)
    (hswapped : ∀ c q, g ≠ .swapped c q) : Inv target memory p t { s with game := g } where
  packets := by
    show s.executed ++ s.render.taken ++ s.queue ++ g.inHand = _
    rw [hhand]
    exact h.packets
  pending := h.pending
  spare := h.spare
  swapped c q hg := absurd hg (hswapped c q)
  renderer := h.renderer
  idle := h.idle
  queued := by
    show s.framesQueued + g.uncounted = _
    rw [huncounted]
    exact h.queued
  done := h.done
  current c hc := h.current c (hcall c hc)
  returned := h.returned

theorem Inv.refill (h : Inv target memory p t s) {c : Call} {q : Packet}
    (hgame : s.game = .swapped c q) : Inv target memory p t (s.refill c q) := by
  have hgo : Inv target memory p t { s with game := .sending c (q :: c.own) } :=
    h.goTo (by rw [hgame]; rfl) (by rw [hgame]; rfl) (fun c' hc => by rw [hgame]; exact hc)
      fun _ _ hswapped => by cases hswapped
  unfold Threads.refill
  dsimp only
  split
  · next buffer hlast =>
    have hbuffer : buffer = [] := h.spare buffer (List.mem_of_getLast? hlast)
    exact { hgo with
      pending := by
        show buffer = unsent s.called
        rw [hbuffer, ← h.pending, h.swapped c q hgame]
      spare := fun b hb => h.spare b (List.mem_of_mem_dropLast hb)
      swapped := fun _ _ hswapped => by cases hswapped }
  · exact hgo

theorem Inv.push (h : Inv target memory p t s) {c : Call} {q : Packet} {ps : List Packet}
    (hgame : s.game = .sending c (q :: ps)) :
    Inv target memory p t { s with queue := s.queue ++ [q], game := .notifying c ps } := by
  have hpackets := h.packets
  have hqueued := h.queued
  have hcurrent := h.current
  rw [hgame] at hpackets hqueued hcurrent
  exact { h with
    packets := by
      show s.executed ++ s.render.taken ++ (s.queue ++ [q]) ++ ps = _
      rw [← hpackets]
      simp only [GameAt.inHand, List.append_assoc, List.singleton_append]
    swapped := fun _ _ hswapped => by cases hswapped
    queued := hqueued
    current := hcurrent }

theorem Inv.wakeRender (h : Inv target memory p t s) : Inv target memory p t s.wakeRender := by
  unfold Threads.wakeRender
  split
  · next hrender =>
    have hpackets := h.packets
    have hdone := h.done
    rw [hrender] at hpackets hdone
    exact { h with packets := hpackets, idle := fun _ => ⟨rfl, rfl⟩, done := hdone }
  · exact h

theorem wakeRender_game (s : Threads T) : s.wakeRender.game = s.game := by
  unfold Threads.wakeRender
  split <;> rfl

theorem Inv.notify (h : Inv target memory p t s) {c : Call} {ps : List Packet}
    (hgame : s.game = .notifying c ps) :
    Inv target memory p t { s.wakeRender with game := .sending c ps } := by
  refine h.wakeRender.goTo ?_ ?_ (fun c' hc => ?_) fun _ _ hswapped => by cases hswapped
  · rw [wakeRender_game, hgame]
    rfl
  · rw [wakeRender_game, hgame]
    rfl
  · rw [wakeRender_game, hgame]
    exact hc

theorem Inv.sent (h : Inv target memory p t s) {c : Call} (hgame : s.game = .sending c []) :
    Inv target memory p t (s.sent c) := by
  have hpackets := h.packets
  have hqueued := h.queued
  have hcurrent := h.current
  rw [hgame] at hpackets hqueued hcurrent
  cases c with
  | flush =>
    exact { h with
      packets := hpackets
      swapped := fun _ _ hswapped => by cases hswapped
      queued := hqueued
      current := hcurrent }
  | end_frame xfb =>
    -- the frame's end is counted now
    exact { h with
      packets := hpackets
      swapped := fun _ _ hswapped => by cases hswapped
      queued := hqueued
      current := hcurrent }
  | _ =>
    exact { h with
      packets := hpackets
      swapped := fun _ _ hswapped => by cases hswapped
      queued := hqueued
      current := fun _ hc => by cases hc }

theorem Inv.check (h : Inv target memory p t s) {c : Call}
    (hgame : s.game = .waiting c false) : Inv target memory p t (s.check c) := by
  have hpackets := h.packets
  have hqueued := h.queued
  rw [hgame] at hpackets hqueued
  unfold Threads.check
  split
  · next hawaited =>
    obtain ⟨before, hcalled⟩ := h.current c (by rw [hgame]; rfl)
    have hbefore : s.called.dropLast ++ [c] = s.called := by
      rw [hcalled, List.dropLast_concat]
    exact { h with
      packets := hpackets
      swapped := fun _ _ hswapped => by cases hswapped
      queued := hqueued
      current := fun _ hc => by cases hc
      returned := fun r hr => by
        rcases List.mem_cons.mp hr with rfl | hr
        · refine ⟨h.renderer, fun hflush => ?_, fun xfb hframe => ?_⟩
          · -- nothing is queued and nothing runs
            subst hflush
            obtain ⟨hqueue, hbusy⟩ : s.queue = [] ∧ s.busy = false := by
              simpa [awaited] using hawaited
            rw [hbefore, ← hpackets, (h.idle hbusy).1, hqueue]
            simp only [GameAt.inHand, List.append_nil]
          · subst hframe
            have hcount : s.framesQueued ≤ s.framesDone + 1 := of_decide_eq_true hawaited
            have hdone := h.done
            have hall : s.framesQueued = frames (Gx.packets s.called) := hqueued
            show frames (Gx.packets (s.called.dropLast ++ [.end_frame xfb])) ≤ frames s.executed + 1
            rw [hbefore, ← hall]
            omega
        · exact h.returned r hr }
  · refine h.goTo ?_ ?_ (fun c' hc => ?_) fun _ _ hswapped => by cases hswapped
    · rw [hgame]
      rfl
    · rw [hgame]
      rfl
    · rw [hgame]
      exact hc

/-! ### moves of the render thread -/

theorem Inv.wakeGame (h : Inv target memory p t s) : Inv target memory p t s.wakeGame := by
  unfold Threads.wakeGame
  split
  · next c asleep hgame =>
    refine h.goTo ?_ ?_ (fun c' hc => ?_) fun _ _ hswapped => by cases hswapped
    · rw [hgame]
      rfl
    · rw [hgame]
      rfl
    · rw [hgame]
      exact hc
  · exact h

theorem Inv.take (h : Inv target memory p t s) (hrender : s.render = .waiting) {q : Packet}
    {queue : List Packet} (hqueue : s.queue = q :: queue) :
    Inv target memory p t { s with queue := queue, busy := true, render := .running q } := by
  have hpackets := h.packets
  have hdone := h.done
  rw [hrender, hqueue] at hpackets
  rw [hrender] at hdone
  exact { h with
    packets := by
      rw [← hpackets]
      simp only [RenderAt.taken, List.append_assoc, List.cons_append, List.nil_append]
    idle := fun hbusy => by cases hbusy
    done := hdone }

theorem Inv.sleep (h : Inv target memory p t s) (hrender : s.render = .waiting) :
    Inv target memory p t { s with render := .asleep } := by
  have hpackets := h.packets
  have hdone := h.done
  rw [hrender] at hpackets hdone
  exact { h with packets := hpackets, idle := fun _ => ⟨rfl, rfl⟩, done := hdone }

theorem Inv.run (h : Inv target memory p t s) {q : Packet} (hrender : s.render = .running q) :
    Inv target memory p t { s with
      renderer := s.renderer.run target memory q
      executed := s.executed ++ [q]
      render := .ran q } := by
  have hpackets := h.packets
  have hdone := h.done
  rw [hrender] at hpackets hdone
  exact { h with
    packets := by
      rw [← hpackets]
      simp only [RenderAt.taken, List.append_nil]
    renderer := by
      rw [List.foldl_append, ← h.renderer]
      rfl
    idle := fun hbusy => by
      obtain ⟨htaken, -⟩ := h.idle hbusy
      rw [hrender] at htaken
      cases htaken
    done := by
      rw [frames_append, ← hdone]
      rfl }

theorem Inv.finish (h : Inv target memory p t s) {q : Packet} (hrender : s.render = .ran q) :
    Inv target memory p t (s.finish q) := by
  have hpackets := h.packets
  have hdone := h.done
  rw [hrender] at hpackets hdone
  have hend : frames [q] = if q.kind = .EndFrame then 1 else 0 := by
    unfold frames
    rw [List.countP_singleton]
    simp only [decide_eq_true_eq]
  have hfinish : Inv target memory p t { s with
      render := .waiting
      busy := false
      framesDone := s.framesDone + if q.kind = .EndFrame then 1 else 0
      spare := if q.bytes ≠ [] ∧ s.spare.length < 16 then s.spare ++ [[]] else s.spare } :=
    { h with
      packets := hpackets
      spare := fun buffer hbuffer => by
        dsimp only at hbuffer
        split at hbuffer
        · rcases List.mem_append.mp hbuffer with hold | hnew
          · exact h.spare buffer hold
          · exact List.mem_singleton.mp hnew
        · exact h.spare buffer hbuffer
      idle := fun _ => ⟨rfl, rfl⟩
      done := by
        rw [← hdone, ← hend]
        rfl }
  unfold Threads.finish
  dsimp only
  split
  · exact hfinish.wakeGame
  · exact hfinish

/-- **What one move can be.** -/
inductive Stepped (target : Target T) (memory : Memory) (s : Threads T) : Threads T → Prop where
  | call (c : Call) (h : s.game = .ready) : Stepped target memory s (s.begin c)
  | refill {c : Call} {q : Packet} (h : s.game = .swapped c q) :
      Stepped target memory s (s.refill c q)
  | push {c : Call} {q : Packet} {ps : List Packet} (h : s.game = .sending c (q :: ps)) :
      Stepped target memory s { s with queue := s.queue ++ [q], game := .notifying c ps }
  | notify {c : Call} {ps : List Packet} (h : s.game = .notifying c ps) :
      Stepped target memory s { s.wakeRender with game := .sending c ps }
  | sent {c : Call} (h : s.game = .sending c []) : Stepped target memory s (s.sent c)
  | check {c : Call} (h : s.game = .waiting c false) : Stepped target memory s (s.check c)
  | wakeGame : Stepped target memory s s.wakeGame
  | take {q : Packet} {queue : List Packet} (h : s.render = .waiting) (hqueue : s.queue = q :: queue) :
      Stepped target memory s { s with queue := queue, busy := true, render := .running q }
  | sleep (h : s.render = .waiting) (hqueue : s.queue = []) :
      Stepped target memory s { s with render := .asleep }
  | run {q : Packet} (h : s.render = .running q) : Stepped target memory s { s with
      renderer := s.renderer.run target memory q
      executed := s.executed ++ [q]
      render := .ran q }
  | finish {q : Packet} (h : s.render = .ran q) : Stepped target memory s (s.finish q)
  | wakeRender : Stepped target memory s s.wakeRender

theorem stepped {move : Move} {s' : Threads T}
    (h : Threads.step target memory s move = some s') : Stepped target memory s s' := by
  cases move with
  | wakeGame =>
    obtain rfl := Option.some.inj h
    exact .wakeGame
  | wakeRender =>
    obtain rfl := Option.some.inj h
    exact .wakeRender
  | _ =>
    unfold Threads.step at h
    dsimp only at h
    split at h
    all_goals
      first
      | cases h; done
      | obtain rfl := Option.some.inj h
        constructor <;> assumption

/-- **What one move keeps**, whichever thread makes it. -/
theorem Inv.step (h : Inv target memory p t s) {s' : Threads T}
    (hstep : Stepped target memory s s') : Inv target memory p t s' := by
  cases hstep with
  | call c hgame => exact h.begin hgame c
  | refill hgame => exact h.refill hgame
  | push hgame => exact h.push hgame
  | notify hgame => exact h.notify hgame
  | sent hgame => exact h.sent hgame
  | check hgame => exact h.check hgame
  | wakeGame => exact h.wakeGame
  | take hrender hqueue => exact h.take hrender hqueue
  | sleep hrender => exact h.sleep hrender
  | run hrender => exact h.run hrender
  | finish hrender => exact h.finish hrender
  | wakeRender => exact h.wakeRender

theorem Reached.inv (h : Reached target memory p t s) : Inv target memory p t s :=
  Driven.invariant (fun _ hs => hs ▸ .start)
    (fun _ _ _ hinv _ hstep => hinv.step (stepped hstep)) h

/-! ## waking -/

/-- a thread sleeps only while what it waits for has not come, or while its notification is still
to come -/
structure Awake (s : Threads T) : Prop where
  game : ∀ c, s.game = .waiting c true → s.awaited c = false
  render : s.render = .asleep → s.queue = [] ∨ ∃ c ps, s.game = .notifying c ps
  busy : s.busy = true → s.render ≠ .asleep ∧ s.render ≠ .waiting

theorem awake_wakeGame
    (hrender : s.render = .asleep → s.queue = [] ∨ ∃ c ps, s.game = .notifying c ps)
    (hbusy : s.busy = true → s.render ≠ .asleep ∧ s.render ≠ .waiting) : Awake s.wakeGame := by
  unfold Threads.wakeGame
  split
  · next c asleep hgame =>
    refine ⟨fun _ hc => (by cases hc), fun hasleep => ?_, hbusy⟩
    rcases hrender hasleep with hqueue | ⟨c', ps, hnotifying⟩
    · exact .inl hqueue
    · rw [hgame] at hnotifying
      cases hnotifying
  · next hgame => exact ⟨fun c hc => absurd hc (hgame c true), hrender, hbusy⟩

theorem Awake.wakeRender (h : Awake s) : Awake s.wakeRender := by
  unfold Threads.wakeRender
  split
  · next hrender =>
    exact ⟨h.game, fun hasleep => (by cases hasleep), fun hbusy => absurd hrender (h.busy hbusy).1⟩
  · exact h

theorem Awake.finish (h : Awake s) (q : Packet) : Awake (s.finish q) := by
  unfold Threads.finish
  dsimp only
  split
  · exact awake_wakeGame (fun hasleep => (by cases hasleep)) fun hbusy => (by cases hbusy)
  · next hmore =>
    obtain ⟨hqueue, hkind⟩ := not_or.mp hmore
    refine ⟨fun c hc => ?_, fun hasleep => (by cases hasleep), fun hbusy => (by cases hbusy)⟩
    have hwaits := h.game c hc
    cases c with
    | flush =>
      show (s.queue.isEmpty && !false) = false
      rw [List.isEmpty_eq_false_iff.mpr hqueue]
      rfl
    | end_frame xfb =>
      show decide (s.framesQueued ≤ s.framesDone + (if q.kind = .EndFrame then 1 else 0) + 1) = false
      rw [if_neg hkind]
      exact hwaits
    | _ => exact hwaits

theorem Awake.goTo (h : Awake s) {s' : Threads T} (hgame : ∀ c, s'.game ≠ .waiting c true)
    (hrender : s'.render = s.render) (hbusy : s'.busy = s.busy)
    (hqueue : s.render = .asleep → s'.queue = [] ∨ ∃ c ps, s'.game = .notifying c ps) : Awake s' where
  game c hc := absurd hc (hgame c)
  render hasleep := hqueue (hrender ▸ hasleep)
  busy := by
    rw [hrender, hbusy]
    exact h.busy

theorem Awake.begin (h : Awake s) (hgame : s.game = .ready) (c : Call) : Awake (s.begin c) := by
  have hqueue : s.render = .asleep → s.queue = [] := fun hasleep => by
    rcases h.render hasleep with hqueue | ⟨c', ps, hnotifying⟩
    · exact hqueue
    · rw [hgame] at hnotifying
      cases hnotifying
  obtain ⟨q, -, hbegin⟩ | ⟨-, -, hbegin⟩ | ⟨pending, -, -, hbegin⟩ := begin_cases s c
  · rw [hbegin]
    exact h.goTo (fun _ hc => by cases hc) rfl rfl fun hasleep => .inl (hqueue hasleep)
  · rw [hbegin]
    exact h.goTo (fun _ hc => by cases hc) rfl rfl fun hasleep => .inl (hqueue hasleep)
  · rw [hbegin]
    refine h.goTo (fun _ hc => ?_) rfl rfl fun hasleep => .inl (hqueue hasleep)
    rw [hgame] at hc
    cases hc

theorem Awake.step (h : Awake s) {s' : Threads T} (hstep : Stepped target memory s s') :
    Awake s' := by
  -- a thread that sleeps has an empty queue, unless the game is about to notify it
  have hempty : ∀ {g}, s.game = g → (∀ c ps, g ≠ .notifying c ps) → s.render = .asleep →
      s.queue = [] := fun hgame hnot hasleep => by
    rcases h.render hasleep with hqueue | ⟨c, ps, hnotifying⟩
    · exact hqueue
    · exact absurd (hgame ▸ hnotifying) (hnot c ps)
  cases hstep with
  | call c hgame => exact h.begin hgame c
  | refill hgame =>
    have hqueue := hempty hgame fun _ _ hc => by cases hc
    unfold Threads.refill
    dsimp only
    split
    · exact h.goTo (fun _ hc => by cases hc) rfl rfl fun hasleep => .inl (hqueue hasleep)
    · exact h.goTo (fun _ hc => by cases hc) rfl rfl fun hasleep => .inl (hqueue hasleep)
  | push hgame =>
    exact h.goTo (fun _ hc => by cases hc) rfl rfl fun _ => .inr ⟨_, _, rfl⟩
  | notify hgame =>
    have hawake : s.wakeRender.render ≠ .asleep := by
      unfold Threads.wakeRender
      split
      · exact fun hasleep => by cases hasleep
      · next hrender => exact hrender
    exact h.wakeRender.goTo (fun _ hc => by cases hc) rfl rfl fun hasleep => absurd hasleep hawake
  | @sent c hgame =>
    have hqueue := hempty hgame fun _ _ hc => by cases hc
    cases c with
    | _ => exact h.goTo (fun _ hc => by cases hc) rfl rfl fun hasleep => .inl (hqueue hasleep)
  | check hgame =>
    have hqueue := hempty hgame fun _ _ hc => by cases hc
    unfold Threads.check
    split
    · exact h.goTo (fun _ hc => by cases hc) rfl rfl fun hasleep => .inl (hqueue hasleep)
    · next hawaited =>
      refine ⟨fun c' hc => ?_, fun hasleep => .inl (hqueue hasleep), h.busy⟩
      obtain ⟨rfl, -⟩ := GameAt.waiting.inj hc
      exact Bool.eq_false_iff.mpr hawaited
  | wakeGame => exact awake_wakeGame h.render h.busy
  | take hrender hqueue =>
    refine ⟨fun c hc => ?_, fun hasleep => (by cases hasleep), fun _ => ⟨?_, ?_⟩⟩
    · have hwaits := h.game c hc
      cases c with
      | flush => exact Bool.and_false _
      | _ => exact hwaits
    · exact fun hasleep => by cases hasleep
    · exact fun hasleep => by cases hasleep
  | sleep hrender hqueue =>
    exact ⟨h.game, fun _ => .inl hqueue, fun hbusy => absurd hrender (h.busy hbusy).2⟩
  | run hrender =>
    refine ⟨h.game, fun hasleep => (by cases hasleep), fun _ => ⟨?_, ?_⟩⟩
    · exact fun hasleep => by cases hasleep
    · exact fun hwaiting => by cases hwaiting
  | finish hrender => exact h.finish _
  | wakeRender => exact h.wakeRender

theorem Reached.never_both_asleep (h : Reached target memory p t s) {c : Call}
    (hgame : s.game = .waiting c true) : s.render ≠ .asleep := by
  have hawake : Awake s := Driven.invariant
    (fun _ hs => hs ▸ ⟨fun _ hc => (by cases hc), fun hr => (by cases hr), fun hb => (by cases hb)⟩)
    (fun _ _ _ hinv _ hstep => hinv.step (stepped hstep)) h
  have hinv := h.inv
  intro hasleep
  have hwaits := hawake.game c hgame
  have hbusy : s.busy = false := by
    by_contra hbusy
    exact (hawake.busy (Bool.not_eq_false _ ▸ hbusy)).1 hasleep
  have hqueue : s.queue = [] := by
    rcases hawake.render hasleep with hqueue | ⟨c', ps, hnotifying⟩
    · exact hqueue
    · rw [hgame] at hnotifying
      cases hnotifying
  cases c with
  | flush =>
    unfold awaited at hwaits
    rw [hqueue, hbusy] at hwaits
    cases hwaits
  | end_frame xfb =>
    -- all frames have run, and are told
    have hpackets := hinv.packets
    have hqueued := hinv.queued
    have hdone := hinv.done
    rw [hgame, hqueue, hasleep] at hpackets
    rw [hgame] at hqueued
    rw [hasleep] at hdone
    simp only [RenderAt.taken, GameAt.inHand, List.append_nil] at hpackets
    have hcount : ¬ s.framesQueued ≤ s.framesDone + 1 := of_decide_eq_false hwaits
    rw [hpackets] at hdone
    have hall : s.framesQueued = frames (Gx.packets s.called) := hqueued
    have hall' : s.framesDone = frames (Gx.packets s.called) := hdone
    omega
  | _ => cases hwaits

/-- **No wake-up is lost.**  While the game thread sleeps, the render thread has a packet to take, to
run or to tell of. -/
theorem sleeps_for_work (h : Reached target memory p t s) {c : Call}
    (hgame : s.game = .waiting c true) :
    (s.render = .waiting ∧ s.queue ≠ []) ∨ ∃ q, s.render = .running q ∨ s.render = .ran q := by
  cases hrender : s.render with
  | waiting =>
    refine .inl ⟨rfl, fun hqueue => ?_⟩
    -- its next move would be to sleep
    have hstep : Threads.step target memory s .take = some { s with render := .asleep } := by
      unfold Threads.step
      rw [hrender, hqueue]
    exact Reached.never_both_asleep (.step h trivial hstep) hgame rfl
  | asleep => exact absurd hrender (h.never_both_asleep hgame)
  | running q => exact .inr ⟨q, .inl rfl⟩
  | ran q => exact .inr ⟨q, .inr rfl⟩

/-- a flush that waits for the packet before it -/
theorem sleeps_for_work_flush :
    ∃ s, Reached Fifo.noTarget (fun _ _ => none) (.start State.defaults) () s ∧
      s.game = .waiting .flush true ∧
      ((s.render = .waiting ∧ s.queue ≠ []) ∨
        ∃ q, s.render = .running q ∨ s.render = .ran q) := by
  have hrun : Driven.run (Threads.step Fifo.noTarget fun _ _ => none) (fun _ _ => true)
      (Threads.start (.start State.defaults) ())
      [.call (.write [0x61]), .call .flush, .refill, .push, .notify, .sent, .check] = some _ := rfl
  have hreached : Reached Fifo.noTarget (fun _ _ => none) (.start State.defaults) () _ :=
    Driven.of_run (fun _ _ _ => trivial) (fun _ _ _ hnext => hnext) (.start rfl) hrun
  exact ⟨_, hreached, rfl, sleeps_for_work hreached rfl⟩

end Threads

section

variable {T : Type} (target : Target T) (memory : Memory) (p : Processor) (t : T)

/-- a flush would run nothing more: no whole command stays in the buffer -/
def Renderer.Settled (r : Renderer T) : Prop := arriving memory r.processor r.pending = r.pending

/-- after these calls, a flush finds either a batch to send, or no whole command among the bytes
that have not run -/
def RunsOut (before : List Call) : Prop :=
  let f := (Fifo.start p t).calls target memory before
  let buffer := f.renderer.pending ++ f.pending
  (f.pending ≠ [] ∧ kRunBatch ≤ buffer.length) ∨
    arriving memory f.renderer.processor buffer = buffer

namespace Threads

/-- the unthreaded renderer's run of the calls -/
structure Faithful (s : Threads T) : Prop where
  /-- the bytes and operations of the calls, once each and in their order -/
  order : (s.executed ++ (s.render.taken ++ s.queue ++ s.game.inHand)).flatMap Packet.items ++
    s.pending.map .inl = s.called.flatMap Call.items
  operations : s.renderer = s.executed.foldl (Renderer.run target memory) ⟨p, [], 0, t⟩
  /-- a flush returns with all of them run, and the commands in them too -/
  flushed : ∀ r ∈ s.returned, r.call = .flush →
    r.executed.flatMap Packet.items = (r.before ++ [r.call]).flatMap Call.items ∧
      r.renderer.Settled memory
  frames : ∀ r ∈ s.returned, ∀ xfb, r.call = .end_frame xfb →
    frames ((r.before ++ [r.call]).flatMap Call.own) ≤ frames r.executed + 1

end Threads

end

/-! ### flushes -/

section

variable {T : Type} {target : Target T} {memory : Memory} {p : Processor} {t : T}

theorem Renderer.settled_flush_now (r : Renderer T) :
    (r.flush_now target memory).Settled memory := by
  have hagain := Processor.runLevels_append memory kMaxDepth r.processor r.pending []
  rw [List.append_nil, List.append_nil] at hagain
  unfold Settled
  rw [flush_now_processor, flush_now_pending]
  split
  · rfl
  · exact (congrArg Prod.snd hagain).symm

theorem settled_flush_iff (before : List Call) :
    (((Fifo.start p t).calls target memory (before ++ [.flush])).renderer).Settled memory ↔
      RunsOut target memory p t before := by
  rw [Fifo.calls_concat]
  unfold RunsOut Fifo.call
  generalize (Fifo.start p t).calls target memory before = f
  show Renderer.Settled memory
    ((push_bytes f.pending ++ []).foldl (Renderer.run target memory) f.renderer) ↔ _
  rw [List.append_nil, Fifo.run_push_bytes]
  dsimp only
  by_cases hempty : f.pending = []
  · rw [if_pos hempty, hempty, List.append_nil]
    constructor
    · exact .inr
    · rintro (⟨hne, -⟩ | hsettled)
      · exact absurd rfl hne
      · exact hsettled
  · rw [if_neg hempty]
    unfold Renderer.write_now
    dsimp only
    by_cases hbatch : (f.renderer.pending ++ f.pending).length ≥ kRunBatch
    · rw [if_pos hbatch]
      exact iff_of_true (Renderer.settled_flush_now _) (.inl ⟨hempty, hbatch⟩)
    · rw [if_neg hbatch]
      constructor
      · exact .inr
      · rintro (⟨-, hlong⟩ | hsettled)
        · exact absurd hlong hbatch
        · exact hsettled

theorem Returned.Good.settled_iff {r : Returned T} (h : r.Good target memory p t)
    (hflush : r.call = .flush) :
    r.renderer.Settled memory ↔ RunsOut target memory p t r.before := by
  rw [← settled_flush_iff, Fifo.calls_renderer, h.renderer, h.flushed hflush, hflush]

namespace Threads

/-- **The render thread.**  In every interleaving the operations and the bytes between them run once
and in the order of the calls, a frame's end leaves at most one frame to run, and a flush returns
when all before it has run -- exactly as long as no flush comes with a whole command, and less than
a batch, in the buffer that the render thread fills. -/
theorem faithful_iff (target : Target T) (memory : Memory) (p : Processor) (t : T) (s : Threads T)
    (h : Reached target memory p t s) :
    Faithful target memory p t s ↔
      ∀ r ∈ s.returned, r.call = .flush → RunsOut target memory p t r.before := by
  have hinv := h.inv
  have horder := packets_items s.called
  rw [← hinv.packets, ← hinv.pending] at horder
  constructor
  · intro hfaithful r hr hflush
    exact ((hinv.returned r hr).settled_iff hflush).mp (hfaithful.flushed r hr hflush).2
  · intro hruns
    refine ⟨?_, hinv.renderer, fun r hr hflush => ⟨?_, ?_⟩, fun r hr xfb hframe => ?_⟩
    · rw [← horder]
      simp only [List.append_assoc]
    · have hitems := packets_items (r.before ++ [r.call])
      rw [unsent_concat, hflush] at hitems
      rw [(hinv.returned r hr).flushed hflush, hflush, ← hitems]
      exact (List.append_nil _).symm
    · exact ((hinv.returned r hr).settled_iff hflush).mpr (hruns r hr hflush)
    · rw [← frames_packets]
      exact (hinv.returned r hr).frames xfb hframe

/-! ### the witness, and a flush that comes too early -/

def writeAndFlush (data : List Byte) : List Move :=
  [.call (.write data), .call .flush, .refill, .push, .notify, .sent, .take, .run, .finish, .check]

theorem reached_writeAndFlush (data : List Byte)
    (h : ((Driven.run (Threads.step Fifo.noTarget fun _ _ => none) (fun _ _ => true)
      (Threads.start (.start State.defaults) ()) (writeAndFlush data)).map fun s =>
        s.returned.map fun r => (r.before, r.call)) = some [([.write data], .flush)]) :
    ∃ s, Reached Fifo.noTarget (fun _ _ => none) (.start State.defaults) () s ∧
      s.returned.map (fun r => (r.before, r.call)) = [([.write data], .flush)] := by
  obtain ⟨s, hrun, hreturned⟩ := Option.map_eq_some_iff.mp h
  exact ⟨s, Driven.of_run (fun _ _ _ => trivial) (fun _ _ _ hnext => hnext) (.start rfl) hrun,
    hreturned⟩

/-- half a command and a flush -/
theorem faithful_halfCommand :
    ∃ s, Reached Fifo.noTarget (fun _ _ => none) (.start State.defaults) () s ∧
      s.returned.map (fun r => (r.before, r.call)) = [([.write [0x61, 0x00]], .flush)] ∧
      Faithful Fifo.noTarget (fun _ _ => none) (.start State.defaults) () s := by
  obtain ⟨s, hreached, hreturned⟩ := reached_writeAndFlush [0x61, 0x00] (by decide +kernel)
  refine ⟨s, hreached, hreturned, (faithful_iff _ _ _ _ s hreached).mpr fun r hr _ => ?_⟩
  have hbefore := List.mem_map_of_mem (f := fun r : Returned Unit => (r.before, r.call)) hr
  rw [hreturned] at hbefore
  obtain ⟨hcalls, -⟩ := Prod.mk.inj (List.mem_singleton.mp hbefore)
  rw [hcalls]
  exact .inr (by decide +kernel)

/-- **A flush returns with a command not run.**  The command is whole, its bytes have reached the
renderer, and they wait there for a batch. -/
theorem flush_leaves_command :
    ∃ s, Reached Fifo.noTarget (fun _ _ => none) (.start State.defaults) () s ∧
      ¬ Faithful Fifo.noTarget (fun _ _ => none) (.start State.defaults) () s := by
  obtain ⟨s, hreached, hreturned⟩ :=
    reached_writeAndFlush [0x61, 0x00, 0x00, 0x04, 0x11] (by decide +kernel)
  refine ⟨s, hreached, fun hfaithful => ?_⟩
  obtain ⟨r, hr, hmap⟩ := List.mem_map.mp (hreturned ▸ List.mem_cons_self)
  obtain ⟨hbefore, hflush⟩ := Prod.mk.inj hmap
  have hruns := ((hreached.inv.returned r hr).settled_iff hflush).mp
    (hfaithful.flushed r hr hflush).2
  rw [hbefore] at hruns
  rcases hruns with ⟨-, hbatch⟩ | hsettled
  · exact absurd hbatch (by decide +kernel)
  · exact absurd hsettled (by decide +kernel)

end Threads

end

end DolTranslator.Gx
