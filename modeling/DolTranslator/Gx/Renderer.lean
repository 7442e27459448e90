import DolTranslator.Gx.Pieces
import DolTranslator.Gx.Invariants

/-!
# The native renderer

What the render thread does with the game's bytes, lists, copies and flips.  The EFB pass and the
GPU stand behind the commands; they hear the processor's callbacks in the order they came.

* `Packet`   one thing the game asked for, with the bytes or the fields it needs;
* `Target`   the operations on whatever is drawn into;
* `Renderer`   the processor, the FIFO bytes that are not yet a whole packet, and the target;
* `flush_now`, `write_now`, `call_list_now`, `copy_tex_now`, ...   the operations; `run` one packet.
-/

namespace DolTranslator.Gx

open Function Streams

inductive Kind where
  | Bytes | CallList | CopyTex | DisplaySource | CopyDisplay | EndFrame
  deriving DecidableEq

/-- a call has an address and a size, a copy an address and a format -/
structure Packet where
  kind : Kind
  bytes : List Byte := []
  a : BitVec 32 := 0
  b : BitVec 32 := 0
  left : BitVec 16 := 0
  top : BitVec 16 := 0
  srcWidth : BitVec 16 := 0
  srcHeight : BitVec 16 := 0
  width : BitVec 16 := 0
  height : BitVec 16 := 0
  clear : Bool := false
  filtered : Bool := false
  vfilter : List Byte := List.replicate 7 0
  deriving DecidableEq

/-! ## the renderer -/

structure Target (T : Type) where
  /-- deko3d has started -/
  up : Bool
  passOpen : T → Bool
  /-- the hook before a change, with the state it saw -/
  beforeChange : T → State → T
  draw : T → Draw → State → T
  displaySource : T → Packet → T
  /-- the rest of each, after the bytes before it have run -/
  copyTex : T → State → Packet → T
  copyDisplay : T → State → Packet → T
  /-- the flip of an open pass begins by ending it -/
  endPass : T → State → T
  present : T → BitVec 32 → T

structure Renderer (T : Type) where
  processor : Processor
  /-- FIFO bytes not yet a whole packet -/
  pending : List Byte
  stalled : Nat
  target : T

def callbacksSince (p p' : Processor) : List Event :=
  (p'.trace.take (p'.trace.length - p.trace.length)).reverse

namespace Target

variable {T : Type} (target : Target T)

def hear (t : T) : Event → T
  | .change _ s => target.beforeChange t s
  | .draw d s => target.draw t d s

end Target

def kRunBatch : Nat := 16 * 1024
def kStallLimit : Nat := 256 * 1024

namespace Renderer

variable {T : Type} (target : Target T) (memory : Memory)

/-- bytes through the processor; how many of them it ran -/
def runBytes (r : Renderer T) (data : List Byte) : Renderer T × Nat :=
  let ran := Processor.Run memory 0 r.processor data
  ({ r with
      processor := ran.1
      target := (callbacksSince r.processor ran.1).foldl target.hear r.target }, ran.2)

def flush_now (r : Renderer T) : Renderer T :=
  if r.pending = [] then r
  else
    let ran := r.runBytes target memory r.pending
    let left := r.pending.drop ran.2
    -- a packet still arriving, or bytes that are not a command at all
    if left.length > kStallLimit then
      { ran.1 with pending := [], stalled := r.stalled + left.length }
    else { ran.1 with pending := left }

def write_now (r : Renderer T) (data : List Byte) : Renderer T :=
  let r := { r with pending := r.pending ++ data }
  if r.pending.length ≥ kRunBatch then r.flush_now target memory else r

def call_list_now (r : Renderer T) (address size : BitVec 32) : Renderer T :=
  -- what the FIFO set before the call is the list's state
  let r := r.flush_now target memory
  match memory address size with
  | none => r
  | some list => (r.runBytes target memory (bytesOf list 0 size.toNat)).1

def copy_tex_now (r : Renderer T) (p : Packet) : Renderer T :=
  let r := r.flush_now target memory
  { r with target := target.copyTex r.target r.processor.state p }

def set_display_source_now (r : Renderer T) (p : Packet) : Renderer T :=
  { r with target := target.displaySource r.target p }

def copy_display_now (r : Renderer T) (p : Packet) : Renderer T :=
  let r := r.flush_now target memory
  { r with target := target.copyDisplay r.target r.processor.state p }

def present_now (r : Renderer T) (address : BitVec 32) : Renderer T :=
  if target.up then
    -- an open pass: the next frame's draws already begun
    let r :=
      if target.passOpen r.target then
        let r := r.flush_now target memory
        { r with target := target.endPass r.target r.processor.state }
      else r
    { r with target := target.present r.target address }
  else r

def run (r : Renderer T) (p : Packet) : Renderer T :=
  match p.kind with
  | .Bytes => r.write_now target memory p.bytes
  | .CallList => r.call_list_now target memory p.a p.b
  | .CopyTex => r.copy_tex_now target memory p
  | .DisplaySource => r.set_display_source_now target p
  | .CopyDisplay => r.copy_display_now target memory p
  | .EndFrame => r.present_now target memory p.a

end Renderer

end DolTranslator.Gx

/-!
## Targets that follow each other

Two renderers on the same packets, with different targets.  `R s t t'` relates the targets while the
state is `s`; a target must be ready for any state only after the hook.

* `Follower R`      `R` survives what a target hears and does;
* `Related R p`     `R` in every state that the last callback allows; `Related.run`, `Related.runs`
                    one packet and many, by the hook's law.
-/

namespace DolTranslator.Gx

open Function Streams

namespace Processor

variable (memory : Memory)

/-- callbacks are only added -/
theorem trace_suffix (p : Processor) (data : List Byte) (depth : Nat) :
    p.trace <:+ (Run memory depth p data).1.trace := by
  have hinv : Invariant fun q : Processor => p.trace <:+ q.trace := {
    format := fun q table h => by
      unfold DirectFormat
      split <;> exact h
    cp := fun q reg value h => by
      have hdescriptor : ∀ q' : Processor, q'.trace = q.trace →
          p.trace <:+ (q'.BeforeChange (3 <<< 16 ||| reg)).setDescriptor.trace := fun q' hq' => by
        show p.trace <:+ .change _ _ :: q'.trace
        rw [hq']
        exact h.trans (List.suffix_cons _ _)
      unfold LoadCP
      split
      · exact h
      split
      · exact hdescriptor _ rfl
      split
      · exact hdescriptor _ rfl
      repeat' split
      all_goals exact h
    bp := fun q value h => by
      unfold loadBP
      split
      · exact h
      · exact h.trans (List.suffix_cons _ _)
    xf := fun q cause address words _ _ _ h => by
      unfold loadXF
      split
      · exact h
      · exact h.trans (List.suffix_cons _ _)
    draw := fun q d h => h.trans (List.suffix_cons _ _) }
  exact hinv.Run memory (List.suffix_refl _) depth data

end Processor

theorem callbacksSince_eq {p p' : Processor} {new : List Event} (h : p'.trace = new ++ p.trace) :
    callbacksSince p p' = new.reverse := by
  unfold callbacksSince
  rw [h, List.length_append, Nat.add_sub_cancel, List.take_left]

/-! ## followers -/

structure Follower {T T' : Type} (target : Target T) (target' : Target T')
    (R : State → T → T' → Prop) : Prop where
  up : target.up = target'.up
  passOpen : ∀ {s t t'}, R s t t' → target.passOpen t = target'.passOpen t'
  /-- the hook readies the targets for any state -/
  change : ∀ {s t t'}, R s t t' → ∀ s', R s' (target.beforeChange t s) (target'.beforeChange t' s)
  draw : ∀ {s t t'} (d : Draw), R s t t' → R s (target.draw t d s) (target'.draw t' d s)
  displaySource : ∀ {s t t'} (p : Packet), R s t t' →
    R s (target.displaySource t p) (target'.displaySource t' p)
  copyTex : ∀ {s s' t t'} (p : Packet), R s t t' → R s' t t' →
    R s' (target.copyTex t s p) (target'.copyTex t' s p)
  copyDisplay : ∀ {s s' t t'} (p : Packet), R s t t' → R s' t t' →
    R s' (target.copyDisplay t s p) (target'.copyDisplay t' s p)
  /-- the flip ends a pass that is open; with none open there is nothing to end -/
  endPass : ∀ {s s' t t'} (a : BitVec 32), R s t t' → R s' t t' →
    R s' (target.present (target.endPass t s) a) (target'.present (target'.endPass t' s) a)
  present : ∀ {s t t'} (a : BitVec 32), R s t t' → target.passOpen t = false →
    R s (target.present t a) (target'.present t' a)

variable {T T' : Type} {target : Target T} {target' : Target T'} {R : State → T → T' → Prop}

/-- in every state that the last callback allows -/
def Related (R : State → T → T' → Prop) (p : Processor) (t : T) (t' : T') : Prop :=
  ∀ s, (∀ e ∈ p.trace.head?, Follows s e) → R s t t'

namespace Follower

variable (hR : Follower target target' R) (memory : Memory)
include hR

theorem hear {new old : List Event} {t : T} {t' : T'}
    (hchain : (new ++ old).IsChain fun later earlier => Follows later.state earlier)
    (h : ∀ s, (∀ e ∈ old.head?, Follows s e) → R s t t') :
    ∀ s, (∀ e ∈ (new ++ old).head?, Follows s e) →
      R s (new.reverse.foldl target.hear t) (new.reverse.foldl target'.hear t') := by
  induction new with
  | nil => exact h
  | cons e new ih =>
    intro s hs
    rw [List.cons_append, List.isChain_cons] at hchain
    have hbefore := ih hchain.2 e.state hchain.1
    have hnow : Follows s e := hs e rfl
    rw [List.reverse_cons, List.foldl_append, List.foldl_append]
    cases e with
    | change cause at_ => exact hR.change hbefore s
    | draw d at_ =>
      obtain rfl : s = at_ := hnow
      exact hR.draw d hbefore

end Follower

/-- two renderers at the same place of the same packets -/
structure Alike (R : State → T → T' → Prop) (r : Renderer T) (r' : Renderer T') : Prop where
  processor : r.processor = r'.processor
  pending : r.pending = r'.pending
  told : r.processor.Told
  related : Related R r.processor r.target r'.target

namespace Alike

variable {r : Renderer T} {r' : Renderer T'}

theorem now (h : Alike R r r') : R r.processor.state r.target r'.target :=
  h.related _ h.told.now

theorem runBytes_processor (h : Alike R r r') (target : Target T) (target' : Target T')
    (memory : Memory) (data : List Byte) :
    (r.runBytes target memory data).1.processor = (r'.runBytes target' memory data).1.processor ∧
      (r.runBytes target memory data).2 = (r'.runBytes target' memory data).2 := by
  unfold Renderer.runBytes
  rw [h.processor]
  exact ⟨rfl, rfl⟩

theorem withTarget (h : Alike R r r') {t : T} {t' : T'} (hrelated : Related R r.processor t t') :
    Alike R { r with target := t } { r' with target := t' } :=
  ⟨h.processor, h.pending, h.told, hrelated⟩

variable (hR : Follower target target' R) (memory : Memory)
include hR

theorem runBytes (h : Alike R r r') (data : List Byte) :
    Alike R (r.runBytes target memory data).1 (r'.runBytes target' memory data).1 := by
  have htold : (Processor.Run memory 0 r.processor data).1.Told :=
    Processor.told.Run memory h.told 0 data
  refine ⟨(h.runBytes_processor target target' memory data).1, h.pending, htold, fun s hs => ?_⟩
  obtain ⟨new, hnew⟩ := Processor.trace_suffix memory r.processor data 0
  have hchain := htold.trace
  rw [← hnew] at hchain
  have hs : ∀ e ∈ (new ++ r.processor.trace).head?, Follows s e := by
    rw [hnew]
    exact hs
  unfold Renderer.runBytes
  dsimp only
  rw [← h.processor, callbacksSince_eq hnew.symm]
  exact hR.hear hchain h.related s hs

theorem flush_now (h : Alike R r r') :
    Alike R (r.flush_now target memory) (r'.flush_now target' memory) := by
  have hran := h.runBytes hR memory r.pending
  have hcount := (h.runBytes_processor target target' memory r.pending).2
  unfold Renderer.flush_now
  rw [← h.pending]
  dsimp only
  rw [← hcount]
  split
  · exact h
  · split
    · exact ⟨hran.processor, rfl, hran.told, hran.related⟩
    · exact ⟨hran.processor, rfl, hran.told, hran.related⟩

theorem write_now (h : Alike R r r') (data : List Byte) :
    Alike R (r.write_now target memory data) (r'.write_now target' memory data) := by
  have happend : Alike R { r with pending := r.pending ++ data }
      { r' with pending := r'.pending ++ data } :=
    ⟨h.processor, congrArg (· ++ data) h.pending, h.told, h.related⟩
  unfold Renderer.write_now
  dsimp only
  rw [← h.pending] at happend ⊢
  split
  · exact happend.flush_now hR memory
  · exact happend

theorem call_list_now (h : Alike R r r') (address size : BitVec 32) :
    Alike R (r.call_list_now target memory address size)
      (r'.call_list_now target' memory address size) := by
  unfold Renderer.call_list_now
  dsimp only
  split
  · exact h.flush_now hR memory
  · exact (h.flush_now hR memory).runBytes hR memory _

theorem present_now (h : Alike R r r') (address : BitVec 32) :
    Alike R (r.present_now target memory address) (r'.present_now target' memory address) := by
  unfold Renderer.present_now
  rw [← hR.up, ← hR.passOpen h.now]
  cases hup : target.up with
  | false => exact h
  | true =>
    rw [if_pos rfl, if_pos rfl]
    cases hopen : target.passOpen r.target with
    | true =>
      have hflushed := h.flush_now hR memory
      refine hflushed.withTarget fun s hs => ?_
      have hended := hR.endPass address hflushed.now (hflushed.related s hs)
      simp only [if_true]
      rw [← hflushed.processor]
      exact hended
    | false => exact h.withTarget fun s hs => hR.present address (h.related s hs) hopen

/-- **One packet.** -/
theorem run (h : Alike R r r') (p : Packet) :
    Alike R (r.run target memory p) (r'.run target' memory p) := by
  have hflushed := h.flush_now hR memory
  unfold Renderer.run
  split
  · exact h.write_now hR memory _
  · exact h.call_list_now hR memory _ _
  · unfold Renderer.copy_tex_now
    refine hflushed.withTarget fun s hs => ?_
    rw [← hflushed.processor]
    exact hR.copyTex p hflushed.now (hflushed.related s hs)
  · exact h.withTarget fun s hs => hR.displaySource p (h.related s hs)
  · unfold Renderer.copy_display_now
    refine hflushed.withTarget fun s hs => ?_
    rw [← hflushed.processor]
    exact hR.copyDisplay p hflushed.now (hflushed.related s hs)
  · exact h.present_now hR memory _

/-- **Any packets**, by induction on them. -/
theorem runs (h : Alike R r r') (ps : List Packet) :
    Alike R (ps.foldl (Renderer.run target memory) r) (ps.foldl (Renderer.run target' memory) r') := by
  induction ps generalizing r r' with
  | nil => exact h
  | cons p ps ih => exact ih (h.run hR memory p)

end Alike

end DolTranslator.Gx
