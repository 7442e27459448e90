import DolTranslator.Os.Consistency

/-!
# What the callers of the queue helpers rely on

* `Settled os`   the queues are consistent, whatever they hold;
* `Gentle os os'`   no thread has begun to wait, and the priorities of the callers stay in range;
* `Consistent.modify`   writes that no queue depends on.
-/

namespace DolTranslator.Os

open Function Intrusive GuestOs

variable {os os' os'' : GuestOs} {c : QueueAddr → List Nat} {q : QueueAddr} {t u : Nat} {p : Int}

def Settled (os : GuestOs) : Prop := ∃ c, Consistent os c

theorem Consistent.congr (h : Consistent os c) (hthread : os'.thread = os.thread)
    (hqueues : os'.queues = os.queues) (hpending : os'.pending = os.pending)
    (hdead : ∀ u, os'.isTerminated u = os.isTerminated u) : Consistent os' c where
  linked := h.linked.congr hqueues hpending fun q u _ => by rw [hthread]
  placed u hu0 q := by
    rw [hthread]
    exact h.placed u hu0 q
  inOrder w := (h.inOrder w).congr fun u _ => by rw [hthread]
  ok u := hthread ▸ h.ok u
  startable u := by
    unfold Startable
    rw [hthread, hdead u]
    exact h.startable u

theorem Settled.congr (h : Settled os) (hthread : os'.thread = os.thread)
    (hqueues : os'.queues = os.queues) (hpending : os'.pending = os.pending)
    (hdead : ∀ u, os'.isTerminated u = os.isTerminated u) : Settled os' :=
  h.imp fun _ hc => hc.congr hthread hqueues hpending hdead

/-! ## what the callers rely on -/

/-- a thread whose priority can be handed on -/
def OSThread.Ranged (r : OSThread) : Prop :=
  (0 ≤ r.base ∧ r.base ≤ 31) ∧ 0 ≤ r.priority ∧ r.priority ≤ 31

structure Gentle (os os' : GuestOs) : Prop extends Frame os os' where
  calm : ∀ u, (os'.thread u).state = .waiting → (os.thread u).state = .waiting
  ranged : ∀ u, (os.thread u).state ≠ .waiting → (os.thread u).Ranged → (os'.thread u).Ranged

namespace Gentle

theorem refl (os : GuestOs) : Gentle os os := ⟨Frame.refl os, fun _ h => h, fun _ _ h => h⟩

theorem trans (h : Gentle os os') (h' : Gentle os' os'') : Gentle os os'' :=
  ⟨h.toFrame.trans h'.toFrame, fun u hu => h.calm u (h'.calm u hu),
    fun u hw hu => h'.ranged u (fun hw' => hw (h.calm u hw')) (h.ranged u hw hu)⟩

theorem of_thread (hframe : Frame os os') (hthread : os'.thread = os.thread) : Gentle os os' :=
  ⟨hframe, fun _ hu => hthread ▸ hu, fun _ _ hu => hthread ▸ hu⟩

theorem of_one (hframe : Frame os os') (hother : ∀ u, u ≠ t → os'.thread u = os.thread u)
    (hcalm : (os'.thread t).state = .waiting → (os.thread t).state = .waiting)
    (hranged : (os.thread t).state ≠ .waiting → (os.thread t).Ranged → (os'.thread t).Ranged) :
    Gentle os os' := by
  refine ⟨hframe, fun u hu => ?_, fun u hw hu => ?_⟩
  · by_cases hut : u = t
    · exact hut ▸ hcalm (hut ▸ hu)
    · exact hother u hut ▸ hu
  · by_cases hut : u = t
    · exact hut ▸ hranged (hut ▸ hw) (hut ▸ hu)
    · exact (hother u hut).symm ▸ hu

end Gentle

/-! ## writes that no queue depends on -/

/-- the record changes in nothing that says where the thread is -/
structure OSThread.Like (r r' : OSThread) : Prop where
  state : r'.state = r.state
  queue : r'.queue = r.queue
  priority : r'.priority = r.priority
  base : r'.base = r.base
  place : r'.place = r.place
  ok : r.Ok → r'.Ok

theorem OSThread.Like.of_eq {r r' : OSThread} (hstate : r'.state = r.state)
    (hsuspend : r'.suspend < 1 ↔ r.suspend < 1) (hpriority : r'.priority = r.priority)
    (hbase : r'.base = r.base) (hqueue : r'.queue = r.queue) : r.Like r' := by
  have halive : r'.Alive → r.Alive := fun ha => by
    unfold OSThread.Alive at ha
    rwa [hstate] at ha
  refine ⟨hstate, hqueue, hpriority, hbase, ?_, fun h => ⟨fun ha => hbase ▸ h.base (halive ha),
    fun ha => hpriority ▸ h.priority (halive ha),
    fun ha hs => hpriority ▸ h.runnable (halive ha) (hsuspend.mp hs),
    fun hs => hsuspend.mpr (h.running (hstate ▸ hs)), fun hs => hqueue ▸ h.waiting (hstate ▸ hs)⟩⟩
  unfold OSThread.place
  rw [hstate, hpriority, hqueue]
  simp only [hsuspend]

theorem Consistent.modify (h : Consistent os c) {f : OSThread → OSThread}
    (hf : (os.thread t).Like (f (os.thread t))) : Consistent (os.modifyThread t f) c := by
  have hthread : ∀ u, (os.thread u).Like ((os.modifyThread t f).thread u) := by
    intro u
    rw [modifyThread_thread]
    split
    · next hut => exact hut ▸ hf
    · exact ⟨rfl, rfl, rfl, rfl, rfl, id⟩
  refine ⟨h.linked.congr rfl rfl fun q u _ => (hthread u).queue, fun u hu0 q => ?_, fun w => ?_,
    fun u => (hthread u).ok (h.ok u), fun u hu => h.startable u ?_⟩
  · rw [(hthread u).place]
    exact h.placed u hu0 q
  · exact (h.inOrder w).congr fun u _ => (hthread u).priority
  · rwa [(hthread u).state] at hu

theorem Settled.modify (h : Settled os) {f : OSThread → OSThread}
    (hf : (os.thread t).Like (f (os.thread t))) : Settled (os.modifyThread t f) :=
  h.imp fun _ hc => hc.modify hf

/-! ## one thread after an edit -/

theorem removed_thread_self (os : GuestOs) (t : Nat) :
    (os.removeThreadFromQueue t).thread t = { os.thread t with queue := none } :=
  (removeThreadFromQueue_thread os t t).trans (setQueue_thread_self none)

theorem removed_thread_of_ne (hu : u ≠ t) :
    (os.removeThreadFromQueue t).thread u = os.thread u :=
  (removeThreadFromQueue_thread os t u).trans (setQueue_thread_of_ne hu none)

theorem setPriority_thread_self (os : GuestOs) (t : Nat) (p : Int) :
    (os.setPriority t p).thread t = { os.thread t with priority := p } := modifyThread_self ..

theorem setState_thread_self (os : GuestOs) (t : Nat) (s : ThreadState) :
    (os.setState t s).thread t = { os.thread t with state := s } := modifyThread_self ..

theorem modifyThread_of_ne (f : OSThread → OSThread) (hu : u ≠ t) :
    (os.modifyThread t f).thread u = os.thread u := by
  rw [modifyThread_thread, if_neg hu]

theorem setState_thread_of_ne (os : GuestOs) (s : ThreadState) (hu : u ≠ t) :
    (os.setState t s).thread u = os.thread u := modifyThread_of_ne _ hu

end DolTranslator.Os
