import DolTranslator.Os.Calls

/-!
# What holds of the queues between two edits

`Linked os c`: the queues hold the lists `c`, the mask shows the run queues that are not empty, and
every queued thread names its queue.  This says nothing of the threads' states.

* `Linked.remove`, `.insert`, `.link`, `.pop`   what the list helpers do to it;
* `OSThread.place`   the queue on which the record of a thread says it is;
* `Consistent os c`  `Linked`, and every thread is exactly where its record says, the wait queues
  in priority order;
* `Apart os c t`   the same of all but one thread, which is on no queue.
-/

namespace DolTranslator.Os

open Function Intrusive GuestOs

/-! ## the mask -/

section
variable {p k : Nat} (hp : p < 32) (hk : k < 32) (mask : BitVec 32)
include hp hk

theorem getLsbD_pendingBit : (pendingBit p).getLsbD (31 - k) = decide (k = p) := by
  unfold pendingBit
  rw [BitVec.getLsbD_shiftLeft, BitVec.getLsbD_one]
  by_cases h : k = p
  · subst h
    simp
    omega
  · by_cases hlt : 31 - k < 31 - p
    · simp [h, hlt]
    · have hne : 31 - k - (31 - p) ≠ 0 := by omega
      simp [h, hne]

theorem getLsbD_publish :
    (mask ||| pendingBit p).getLsbD (31 - k) = (mask.getLsbD (31 - k) || decide (k = p)) := by
  rw [BitVec.getLsbD_or, getLsbD_pendingBit hp hk]

theorem getLsbD_clear :
    (mask &&& ~~~pendingBit p).getLsbD (31 - k) = (mask.getLsbD (31 - k) && !decide (k = p)) := by
  rw [BitVec.getLsbD_and, BitVec.getLsbD_not, getLsbD_pendingBit hp hk]
  have h : 31 - k < 32 := by omega
  simp [h]

end

theorem QueueAddr.index_eq_some {q : QueueAddr} {p : Nat} :
    q.index = some p ↔ q = .run p ∧ p < 32 := by
  cases q with
  | wait w => simp [QueueAddr.index]
  | run r =>
    simp only [QueueAddr.index, QueueAddr.run.injEq]
    split
    · simp only [Option.some.injEq]
      omega
    · simp only [reduceCtorEq, false_iff]
      omega

/-! ## the lists -/

structure Linked (os : GuestOs) (c : QueueAddr → List Nat) : Prop where
  holds : Holds os.queues c
  pending : ∀ p : Nat, p < 32 → (os.pending.getLsbD (31 - p) = true ↔ c (.run p) ≠ [])
  pointer : ∀ q, ∀ t ∈ c q, (os.thread t).queue = some q

section
variable (os : GuestOs) (q : QueueAddr)

@[simp] theorem queues_updatePendingMask :
    (os.updatePendingMaskForQueue q).queues = os.queues := by
  unfold updatePendingMaskForQueue
  split
  · rfl
  · split <;> rfl

@[simp] theorem thread_updatePendingMask :
    (os.updatePendingMaskForQueue q).thread = os.thread := by
  unfold updatePendingMaskForQueue
  split
  · rfl
  · split <;> rfl

@[simp] theorem queues_publishQueue : (os.publishQueue q).queues = os.queues := by
  unfold publishQueue
  split <;> rfl

@[simp] theorem thread_publishQueue : (os.publishQueue q).thread = os.thread := by
  unfold publishQueue
  split <;> rfl

theorem pending_updatePendingMask_setQueue (t : Nat) (q' : Option QueueAddr) :
    ((os.setQueue t q').updatePendingMaskForQueue q).pending =
      (os.updatePendingMaskForQueue q).pending := by
  unfold updatePendingMaskForQueue
  split
  · rfl
  · show (ite (os.queues.head q ≠ 0) _ _ : GuestOs).pending = _
    split <;> rfl

end

namespace Linked

variable {os os' : GuestOs} {c c' : QueueAddr → List Nat} {q : QueueAddr} {t : Nat}

theorem congr (h : Linked os c) (hqueues : os'.queues = os.queues) (hpending : os'.pending = os.pending)
    (hpointer : ∀ q, ∀ u ∈ c q, (os'.thread u).queue = (os.thread u).queue) : Linked os' c where
  holds := hqueues ▸ h.holds
  pending := hpending ▸ h.pending
  pointer q u hu := (hpointer q u hu).trans (h.pointer q u hu)

theorem setQueue (h : Linked os c) (ht : ∀ q, t ∉ c q) (q : Option QueueAddr) :
    Linked (os.setQueue t q) c := by
  refine h.congr rfl rfl fun q' u hu => ?_
  have hne : u ≠ t := fun e => ht q' (e ▸ hu)
  show ((os.modifyThread t _).thread u).queue = _
  rw [modifyThread_thread, if_neg hne]

theorem modify (h : Linked os c) {f : OSThread → OSThread} (hf : ∀ r, (f r).queue = r.queue) :
    Linked (os.modifyThread t f) c := by
  refine h.congr rfl rfl fun q' u _ => ?_
  rw [modifyThread_thread]
  split
  · next hut => rw [hf, hut]
  · rfl

theorem pending_update (h : Linked os c) {mask : BitVec 32} {xs : List Nat}
    (hother : ∀ p : Nat, p < 32 → q ≠ .run p →
      (mask.getLsbD (31 - p) = os.pending.getLsbD (31 - p)))
    (hself : ∀ p : Nat, p < 32 → q = .run p → (mask.getLsbD (31 - p) = true ↔ xs ≠ [])) :
    ∀ p : Nat, p < 32 → (mask.getLsbD (31 - p) = true ↔ update c q xs (.run p) ≠ []) := by
  intro p hp
  by_cases hq : q = .run p
  · subst hq
    rw [update_self]
    exact hself p hp rfl
  · rw [update_of_ne (Ne.symm hq), hother p hp hq]
    exact h.pending p hp

theorem updatePendingMask (h : Linked os c) {l : Links Nat QueueAddr} {xs : List Nat}
    (hl : Holds l (update c q xs)) (hxs : xs ≠ [] → c q ≠ []) :
    ∀ p : Nat, p < 32 →
      ((({ os with queues := l }).updatePendingMaskForQueue q).pending.getLsbD (31 - p) = true ↔
        update c q xs (.run p) ≠ []) := by
  have hhead : l.head q = 0 ↔ xs = [] := by
    have h0 := hl.head_eq_zero (s := q)
    rwa [update_self] at h0
  unfold updatePendingMaskForQueue
  cases hindex : q.index with
  | none =>
    refine h.pending_update (fun p hp hq => rfl) fun p hp hq => ?_
    exact absurd (QueueAddr.index_eq_some.mpr ⟨hq, hp⟩) (by simp [hindex])
  | some k =>
    obtain ⟨rfl, hk⟩ := QueueAddr.index_eq_some.mp hindex
    dsimp only
    split
    · next hne =>
      have hxs' : xs ≠ [] := fun e => hne (hhead.mpr e)
      refine h.pending_update (fun p hp hq => rfl) fun p hp hq => ?_
      obtain rfl : k = p := by simpa using hq
      exact (h.pending k hp).trans (iff_of_true (hxs hxs') hxs')
    · next heq =>
      have hxs' : xs = [] := hhead.mp (by simpa using heq)
      refine h.pending_update (fun p hp hq => ?_) fun p hp hq => ?_
      · rw [getLsbD_clear hk hp]
        have hpk : ¬p = k := fun e => hq (by rw [e])
        simp [hpk]
      · obtain rfl : k = p := by simpa using hq
        rw [getLsbD_clear hk hp]
        simp [hxs']

theorem remove (h : Linked os c) (ht : t ∈ c q) :
    Linked (os.removeThreadFromQueue t) (update c q ((c q).erase t)) := by
  have hholds := h.holds.unlink ht
  have hpointer : (os.thread t).queue = some q := h.pointer q t ht
  unfold removeThreadFromQueue
  rw [hpointer]
  dsimp only
  refine ⟨?_, ?_, fun q' u hu => ?_⟩
  · rwa [queues_updatePendingMask]
  · have hmask := h.updatePendingMask hholds fun _ => List.ne_nil_of_mem ht
    rwa [pending_updatePendingMask_setQueue]
  · have hu' : u ≠ t ∧ u ∈ c q' := by
      by_cases hq : q' = q
      · subst hq
        rw [update_self] at hu
        exact (h.holds.mem_erase q' t u).mp hu
      · rw [update_of_ne hq] at hu
        exact ⟨fun e => hq (h.holds.apart q' q t (e ▸ hu) ht), hu⟩
    rw [thread_updatePendingMask]
    show ((GuestOs.modifyThread _ t _).thread u).queue = _
    rw [modifyThread_thread, if_neg hu'.1]
    exact h.pointer q' u hu'.2

theorem findInsertBefore_spec (h : Linked os c) {p : Int} {fuel y : Nat} {us vs : List Nat}
    (hc : c q = us ++ vs) (hus : ∀ u ∈ us, (os.thread u).priority ≤ p)
    (hy : os.findInsertBefore p fuel (vs.headD 0) = some y) :
    ∃ us' vs', c q = us' ++ vs' ∧ y = vs'.headD 0 ∧ (∀ u ∈ us', (os.thread u).priority ≤ p) ∧
      ∀ v ∈ vs'.head?, p < (os.thread v).priority := by
  induction fuel generalizing us vs with
  | zero =>
    unfold findInsertBefore at hy
    split at hy
    · next h0 =>
      cases vs with
      | nil => exact ⟨us, [], hc, (Option.some.inj hy).symm, hus, by simp⟩
      | cons v vs => exact absurd h0 (h.holds.not_zero (s := q) (hc ▸ by simp))
    · cases hy
  | succ fuel ih =>
    unfold findInsertBefore at hy
    cases vs with
    | nil =>
      rw [if_pos (show List.headD [] 0 = 0 from rfl)] at hy
      exact ⟨us, [], hc, (Option.some.inj hy).symm, hus, by simp⟩
    | cons v vs =>
      have hv0 : v ≠ 0 := h.holds.not_zero (s := q) (hc ▸ by simp)
      rw [show List.headD (v :: vs) 0 = v from rfl, if_neg hv0] at hy
      split at hy
      · next hlt => exact ⟨us, v :: vs, hc, (Option.some.inj hy).symm, hus, by simpa using hlt⟩
      · next hle =>
        have hqueue : Queue os.queues q (us ++ v :: vs) := hc ▸ h.holds.queue q
        rw [hqueue.next_eq] at hy
        have hc' : c q = (us ++ [v]) ++ vs := by rw [hc, List.append_assoc, List.singleton_append]
        refine ih hc' (fun u hu => ?_) hy
        rcases List.mem_append.mp hu with hu | hu
        · exact hus u hu
        · rw [List.mem_singleton.mp hu]
          omega

theorem publish (h : Linked os c) {l : Links Nat QueueAddr} {xs : List Nat}
    (hl : Holds l (update c q xs)) (hxs : xs ≠ [])
    (hpointer : ∀ u ∈ xs, (os.thread u).queue = some q)
    (hother : ∀ q', q' ≠ q → ∀ u ∈ c q', (os.thread u).queue = some q') :
    Linked (({ os with queues := l }).publishQueue q) (update c q xs) := by
  refine ⟨?_, ?_, fun q' u hu => ?_⟩
  · rwa [queues_publishQueue]
  · unfold publishQueue
    cases hindex : q.index with
    | none =>
      refine h.pending_update (fun p hp hq => rfl) fun p hp hq => ?_
      exact absurd (QueueAddr.index_eq_some.mpr ⟨hq, hp⟩) (by simp [hindex])
    | some k =>
      obtain ⟨rfl, hk⟩ := QueueAddr.index_eq_some.mp hindex
      refine h.pending_update (fun p hp hq => ?_) fun p hp hq => ?_
      · have hpk : ¬p = k := fun e => hq (by rw [e])
        show (os.pending ||| pendingBit k).getLsbD (31 - p) = _
        rw [getLsbD_publish hk hp]
        simp [hpk]
      · obtain rfl : k = p := by simpa using hq
        show (os.pending ||| pendingBit k).getLsbD (31 - k) = true ↔ _
        rw [getLsbD_publish hk hp]
        simp [hxs]
  · rw [thread_publishQueue]
    by_cases hq : q' = q
    · subst hq
      rw [update_self] at hu
      exact hpointer u hu
    · rw [update_of_ne hq] at hu
      exact hother q' hq u hu

/-- **Insertion by priority.** -/
theorem insert (h : Linked os c) {fuel : Nat} {p : Int} (ht0 : t ≠ 0) (ht : ∀ q', t ∉ c q')
    (hins : insertThreadIntoQueueByPriority fuel os q t p = some os') :
    ∃ us vs, c q = us ++ vs ∧ (∀ u ∈ us, (os.thread u).priority ≤ p) ∧
      (∀ v ∈ vs.head?, p < (os.thread v).priority) ∧ Linked os' (update c q (us ++ t :: vs)) := by
  have hset := h.setQueue ht (some q)
  have hpriority : ∀ u, ((os.setQueue t (some q)).thread u).priority = (os.thread u).priority := by
    intro u
    show ((os.modifyThread t _).thread u).priority = _
    rw [modifyThread_thread]
    split
    · next hut => rw [hut]
    · rfl
  obtain ⟨y, hy, rfl⟩ := Option.map_eq_some_iff.mp hins
  rw [(hset.holds.queue q).head_eq] at hy
  obtain ⟨us, vs, hc, rfl, hus, hvs⟩ := hset.findInsertBefore_spec (show c q = [] ++ c q from rfl)
    (by simp) hy
  simp only [hpriority] at hus hvs
  refine ⟨us, vs, hc, hus, hvs, ?_⟩
  have hself : ((os.setQueue t (some q)).thread t).queue = some q := by
    show ((os.modifyThread t _).thread t).queue = _
    rw [modifyThread_self]
  have hlinked : ∀ l, Holds l (update c q (us ++ t :: vs)) →
      Linked (({ os.setQueue t (some q) with queues := l }).publishQueue q)
        (update c q (us ++ t :: vs)) := by
    intro l hl
    refine hset.publish hl (by simp) (fun u hu => ?_) fun q' _ u hu => hset.pointer q' u hu
    rcases List.mem_append.mp hu with hu | hu
    · exact hset.pointer q u (hc ▸ List.mem_append_left _ hu)
    · rcases List.mem_cons.mp hu with rfl | hu
      · exact hself
      · exact hset.pointer q u (hc ▸ List.mem_append_right _ hu)
  cases vs with
  | nil =>
    rw [if_pos (show List.headD [] 0 = 0 from rfl)]
    have hl := hset.holds.pushBack (s := q) ht0 ht
    rw [hc, List.append_nil] at hl
    exact hlinked _ hl
  | cons v vs =>
    have hv0 : v ≠ 0 := hset.holds.not_zero (s := q) (hc ▸ by simp)
    rw [if_neg (show List.headD (v :: vs) 0 ≠ 0 from hv0)]
    exact hlinked _ (hset.holds.insertBefore ht0 ht hc)

/-- **The end of a run queue**, with its bit. -/
theorem link (h : Linked os c) {p : Int} (hp0 : 0 ≤ p) (hp : p < 32) (ht0 : t ≠ 0)
    (ht : ∀ q', t ∉ c q') :
    Linked ((os.linkThreadOnRunQueue t p).markRunQueuePending p)
      (update c (.run p) (c (.run p) ++ [t])) := by
  have hset := h.setQueue ht (some (.run p))
  have hl := hset.holds.pushBack (s := .run p) ht0 ht
  have hpublish := hset.publish hl (by simp) (fun u hu => ?_)
    (fun q' _ u hu => hset.pointer q' u hu)
  · refine ⟨?_, fun k hk => ?_, fun q' u hu => ?_⟩
    · exact hl
    · have hbit := hpublish.pending k hk
      unfold publishQueue at hbit
      rw [show QueueAddr.index (.run p) = some p.toNat from if_pos ⟨hp0, hp⟩] at hbit
      exact hbit
    · have hpointer := hpublish.pointer q' u hu
      rw [thread_publishQueue] at hpointer
      exact hpointer
  · rcases List.mem_append.mp hu with hu | hu
    · exact hset.pointer _ u hu
    · rw [List.mem_singleton.mp hu]
      show ((os.modifyThread t _).thread t).queue = _
      rw [modifyThread_self]

theorem popWait (h : Linked os c) {w : WaitQueue} {ts : List Nat} (hc : c (.wait w) = t :: ts) :
    Linked (os.popThreadQueueHead (.wait w)) (update c (.wait w) ts) where
  holds := h.holds.popFront hc
  pending p hp := by
    rw [update_of_ne (by simp)]
    exact h.pending p hp
  pointer q u hu := by
    refine h.pointer q u ?_
    by_cases hq : q = .wait w
    · subst hq
      rw [update_self] at hu
      exact hc ▸ List.mem_cons_of_mem _ hu
    · rwa [update_of_ne hq] at hu

theorem popRun (h : Linked os c) {p : Nat} (hp : p < 32) {ts : List Nat}
    (hc : c (.run p) = t :: ts) :
    Linked (let os := os.popThreadQueueHead (.run p)
      if os.queues.head (.run p) = 0 then { os with pending := os.pending &&& ~~~pendingBit p }
      else os) (update c (.run p) ts) := by
  have hl := h.holds.popFront hc
  have hmask := h.updatePendingMask hl fun _ => hc ▸ List.cons_ne_nil t ts
  unfold updatePendingMaskForQueue at hmask
  rw [QueueAddr.index_eq_some.mpr ⟨rfl, hp⟩] at hmask
  have hpointer : ∀ q, ∀ u ∈ update c (.run p) ts q, (os.thread u).queue = some q := by
    intro q u hu
    refine h.pointer q u ?_
    by_cases hq : q = .run p
    · subst hq
      rw [update_self] at hu
      exact hc ▸ List.mem_cons_of_mem _ hu
    · rwa [update_of_ne hq] at hu
  dsimp only at hmask ⊢
  split
  · next hempty =>
    have hempty' : (os.queues.popFront (.run p)).head (.run p) = 0 := hempty
    rw [if_neg (not_not.mpr hempty')] at hmask
    exact ⟨hl, hmask, hpointer⟩
  · next hne =>
    have hne' : (os.queues.popFront (.run p)).head (.run p) ≠ 0 := hne
    rw [if_pos hne'] at hmask
    exact ⟨hl, hmask, hpointer⟩

end Linked

/-! ## threads in their places -/

namespace OSThread

def place (r : OSThread) : Option QueueAddr :=
  match r.state with
  | .ready => if r.suspend < 1 then some (.run r.priority) else none
  | .waiting => r.queue
  | .terminated | .running | .moribund => none

def Alive (r : OSThread) : Prop := r.state ≠ .terminated ∧ r.state ≠ .moribund

structure Ok (r : OSThread) : Prop where
  base : r.Alive → 0 ≤ r.base ∧ r.base ≤ 31
  priority : r.Alive → 0 ≤ r.priority ∧ r.priority ≤ 32
  runnable : r.Alive → r.suspend < 1 → r.priority ≤ 31
  running : r.state = .running → r.suspend < 1
  waiting : r.state = .waiting → ∀ p, r.queue ≠ some (.run p)

theorem Ok.of_dead {r : OSThread} (h : ¬r.Alive) : r.Ok where
  base ha := absurd ha h
  priority ha := absurd ha h
  runnable ha := absurd ha h
  running hs := absurd ⟨by simp [hs], by simp [hs]⟩ h
  waiting hs := absurd ⟨by simp [hs], by simp [hs]⟩ h

theorem Ok.ready {r : OSThread} (h : r.Ok) (ha : r.Alive) :
    ({ r with state := .ready } : OSThread).Ok where
  base _ := h.base ha
  priority _ := h.priority ha
  runnable _ := h.runnable ha
  running hs := by cases hs
  waiting hs := by cases hs

theorem alive_of_state {r : OSThread} {s : ThreadState} (h : r.state = s)
    (hs : s ≠ .terminated ∧ s ≠ .moribund) : r.Alive := by
  unfold OSThread.Alive
  rw [h]
  exact hs

end OSThread

/-- a thread that may be chosen has a live host context -/
def Startable (os : GuestOs) (t : Nat) : Prop :=
  (os.thread t).state = .ready ∨ (os.thread t).state = .running → os.isTerminated t = false

def InOrder (os : GuestOs) (xs : List Nat) : Prop :=
  xs.Pairwise fun a b => (os.thread a).priority ≤ (os.thread b).priority

structure Consistent (os : GuestOs) (c : QueueAddr → List Nat) : Prop where
  linked : Linked os c
  placed : ∀ t, t ≠ 0 → ∀ q, t ∈ c q ↔ (os.thread t).place = some q
  inOrder : ∀ w, InOrder os (c (.wait w))
  ok : ∀ t, (os.thread t).Ok
  startable : ∀ t, Startable os t

/-- all but one thread are in their places, and that one is on no queue -/
structure Apart (os : GuestOs) (c : QueueAddr → List Nat) (t : Nat) : Prop where
  linked : Linked os c
  off : ∀ q, t ∉ c q
  placed : ∀ u, u ≠ 0 → u ≠ t → ∀ q, u ∈ c q ↔ (os.thread u).place = some q
  inOrder : ∀ w, InOrder os (c (.wait w))
  ok : ∀ u, u ≠ t → (os.thread u).Ok
  startable : ∀ u, u ≠ t → Startable os u

section
variable {os os' : GuestOs} {c c' : QueueAddr → List Nat} {q : QueueAddr} {t : Nat} {xs ys : List Nat}

theorem InOrder.congr (h : InOrder os xs)
    (hpriority : ∀ u ∈ xs, (os'.thread u).priority = (os.thread u).priority) : InOrder os' xs := by
  refine List.Pairwise.imp_of_mem ?_ h
  intro a b ha hb hab
  rw [hpriority a ha, hpriority b hb]
  exact hab

theorem InOrder.insert (h : InOrder os (xs ++ ys)) {t : Nat}
    (hxs : ∀ u ∈ xs, (os.thread u).priority ≤ (os.thread t).priority)
    (hys : ∀ v ∈ ys.head?, (os.thread t).priority < (os.thread v).priority) :
    InOrder os (xs ++ t :: ys) := by
  obtain ⟨hx, hy, hxy⟩ := List.pairwise_append.mp h
  have hty : ∀ v ∈ ys, (os.thread t).priority ≤ (os.thread v).priority := by
    intro v hv
    cases ys with
    | nil => cases hv
    | cons y ys =>
      have hlt := hys y rfl
      rcases List.mem_cons.mp hv with rfl | hv
      · omega
      · have hle := (List.pairwise_cons.mp hy).1 v hv
        omega
  refine List.pairwise_append.mpr ⟨hx, List.pairwise_cons.mpr ⟨hty, hy⟩, fun a ha b hb => ?_⟩
  rcases List.mem_cons.mp hb with rfl | hb
  · exact hxs a ha
  · exact hxy a ha b hb

namespace Consistent

theorem apart (h : Consistent os c) (ht : (os.thread t).place = none) : Apart os c t where
  linked := h.linked
  off q hq := by
    have hplace := (h.placed t (h.linked.holds.not_zero hq) q).mp hq
    rw [ht] at hplace
    cases hplace
  placed u hu _ := h.placed u hu
  inOrder := h.inOrder
  ok u _ := h.ok u
  startable u _ := h.startable u

end Consistent

namespace Apart

theorem congr (h : Apart os c t) (hthread : ∀ u, u ≠ t → os'.thread u = os.thread u)
    (hqueues : os'.queues = os.queues) (hpending : os'.pending = os.pending)
    (hdead : ∀ u, u ≠ t → os'.isTerminated u = os.isTerminated u) : Apart os' c t where
  linked := h.linked.congr hqueues hpending fun q u hu => by
    rw [hthread u fun e => h.off q (e ▸ hu)]
  off := h.off
  placed u hu0 hut q := by
    rw [hthread u hut]
    exact h.placed u hu0 hut q
  inOrder w := (h.inOrder w).congr fun u hu => by
    rw [hthread u fun e => h.off _ (e ▸ hu)]
  ok u hut := hthread u hut ▸ h.ok u hut
  startable u hut := by
    unfold Startable
    rw [hthread u hut, hdead u hut]
    exact h.startable u hut

theorem modify (h : Apart os c t) (f : OSThread → OSThread) : Apart (os.modifyThread t f) c t :=
  h.congr (fun u hu => by rw [modifyThread_thread, if_neg hu]) rfl rfl fun _ _ => rfl

/-- the thread is where its new record says: nowhere -/
theorem close (h : Apart os c t) (hplace : (os.thread t).place = none) (hok : (os.thread t).Ok)
    (hstart : Startable os t) : Consistent os c where
  linked := h.linked
  placed u hu0 q := by
    by_cases hut : u = t
    · subst hut
      rw [hplace]
      exact iff_of_false (h.off q) (by simp)
    · exact h.placed u hu0 hut q
  inOrder := h.inOrder
  ok u := by
    by_cases hut : u = t
    · exact hut ▸ hok
    · exact h.ok u hut
  startable u := by
    by_cases hut : u = t
    · exact hut ▸ hstart
    · exact h.startable u hut

theorem closeAt (h : Apart os c t) (ht0 : t ≠ 0) (hthread : ∀ u, u ≠ t → os'.thread u = os.thread u)
    (hdead : ∀ u, os'.isTerminated u = os.isTerminated u)
    {us vs : List Nat} (hc : c q = us ++ vs) (hlinked : Linked os' (update c q (us ++ t :: vs)))
    (hplace : (os'.thread t).place = some q) (hok : (os'.thread t).Ok) (hstart : Startable os' t)
    (horder : ∀ w, q = .wait w → InOrder os' (us ++ t :: vs)) :
    Consistent os' (update c q (us ++ t :: vs)) := by
  refine ⟨hlinked, fun u hu0 q' => ?_, fun w => ?_, fun u => ?_, fun u => ?_⟩
  · by_cases hut : u = t
    · subst hut
      rw [hplace, Option.some.injEq]
      by_cases hq : q' = q
      · subst hq
        simp
      · rw [update_of_ne hq]
        exact iff_of_false (h.off q') (Ne.symm hq)
    · rw [hthread u hut, ← h.placed u hu0 hut q']
      by_cases hq : q' = q
      · subst hq
        rw [update_self, hc]
        simp [hut]
      · rw [update_of_ne hq]
  · by_cases hq : q = .wait w
    · subst hq
      rw [update_self]
      exact horder w rfl
    · rw [update_of_ne (Ne.symm hq)]
      exact (h.inOrder w).congr fun u hu => by rw [hthread u fun e => h.off _ (e ▸ hu)]
  · by_cases hut : u = t
    · exact hut ▸ hok
    · exact hthread u hut ▸ h.ok u hut
  · by_cases hut : u = t
    · exact hut ▸ hstart
    · unfold Startable
      rw [hthread u hut, hdead u]
      exact h.startable u hut

end Apart

/-! ## what the list helpers leave alone -/

/-- the same running thread, contexts and nesting count, and the same dead host contexts -/
structure Frame (os os' : GuestOs) : Prop where
  running : os'.runningContext = os.runningContext
  current : os'.currentContext = os.currentContext
  disable : os'.disableCount = os.disableCount
  dead : ∀ u, os'.isTerminated u = os.isTerminated u

namespace Frame

theorem refl (os : GuestOs) : Frame os os := ⟨rfl, rfl, rfl, fun _ => rfl⟩

theorem trans {os'' : GuestOs} (h : Frame os os') (h' : Frame os' os'') : Frame os os'' :=
  ⟨h'.running.trans h.running, h'.current.trans h.current, h'.disable.trans h.disable,
    fun u => (h'.dead u).trans (h.dead u)⟩

theorem modify (os : GuestOs) (t : Nat) (f : OSThread → OSThread) : Frame os (os.modifyThread t f) :=
  ⟨rfl, rfl, rfl, fun _ => rfl⟩

theorem publish (os : GuestOs) (q : QueueAddr) : Frame os (os.publishQueue q) := by
  unfold publishQueue
  split <;> exact ⟨rfl, rfl, rfl, fun _ => rfl⟩

theorem updatePendingMask (os : GuestOs) (q : QueueAddr) :
    Frame os (os.updatePendingMaskForQueue q) := by
  unfold updatePendingMaskForQueue
  split
  · exact ⟨rfl, rfl, rfl, fun _ => rfl⟩
  · split <;> exact ⟨rfl, rfl, rfl, fun _ => rfl⟩

theorem remove (os : GuestOs) (t : Nat) : Frame os (os.removeThreadFromQueue t) := by
  unfold removeThreadFromQueue
  split
  · exact refl os
  · next q _ =>
    have hset : Frame os (({ os with queues := os.queues.unlink q t }).setQueue t none) :=
      ⟨rfl, rfl, rfl, fun _ => rfl⟩
    exact hset.trans (updatePendingMask _ q)

theorem insert {fuel : Nat} {p : Int}
    (h : insertThreadIntoQueueByPriority fuel os q t p = some os') : Frame os os' := by
  obtain ⟨y, -, rfl⟩ := Option.map_eq_some_iff.mp h
  refine trans ?_ (publish _ q)
  split <;> exact ⟨rfl, rfl, rfl, fun _ => rfl⟩

end Frame

theorem setQueue_thread_of_ne {u : Nat} (hu : u ≠ t) (o : Option QueueAddr) :
    (os.setQueue t o).thread u = os.thread u := by
  show (os.modifyThread t _).thread u = _
  rw [modifyThread_thread, if_neg hu]

theorem setQueue_thread_self (o : Option QueueAddr) :
    (os.setQueue t o).thread t = { os.thread t with queue := o } :=
  modifyThread_self os t _

theorem removeThreadFromQueue_thread (os : GuestOs) (t u : Nat) :
    (os.removeThreadFromQueue t).thread u = (os.setQueue t none).thread u := by
  unfold removeThreadFromQueue
  split
  · next hq =>
    by_cases hut : u = t
    · rw [hut, setQueue_thread_self, ← hq]
    · rw [setQueue_thread_of_ne hut]
  · rw [thread_updatePendingMask]
    rfl

theorem insertThreadIntoQueueByPriority_thread {fuel : Nat} {p : Int}
    (h : insertThreadIntoQueueByPriority fuel os q t p = some os') (u : Nat) :
    os'.thread u = (os.setQueue t (some q)).thread u := by
  obtain ⟨y, -, rfl⟩ := Option.map_eq_some_iff.mp h
  dsimp only
  rw [thread_publishQueue]
  split <;> rfl

theorem Consistent.not_zero (h : Consistent os c) (ht : t ∈ c q) : t ≠ 0 :=
  h.linked.holds.not_zero ht

namespace Apart

/-- **Put back by priority.** -/
theorem insert (h : Apart os c t) (ht0 : t ≠ 0) {fuel : Nat}
    (hins : insertThreadIntoQueueByPriority fuel os q t (os.thread t).priority = some os')
    (hplace : ({ os.thread t with queue := some q } : OSThread).place = some q)
    (hok : ({ os.thread t with queue := some q } : OSThread).Ok) (hstart : Startable os t) :
    ∃ c', Consistent os' c' := by
  obtain ⟨us, vs, hc, hus, hvs, hlinked⟩ := h.linked.insert ht0 h.off hins
  have hthread := insertThreadIntoQueueByPriority_thread hins
  have hself : os'.thread t = { os.thread t with queue := some q } :=
    (hthread t).trans (setQueue_thread_self _)
  have hother : ∀ u, u ≠ t → os'.thread u = os.thread u := fun u hu =>
    (hthread u).trans (setQueue_thread_of_ne hu _)
  have hframe := Frame.insert hins
  refine ⟨_, h.closeAt ht0 hother hframe.dead hc hlinked (hself ▸ hplace) (hself ▸ hok) ?_ ?_⟩
  · unfold Startable
    rw [hself, hframe.dead]
    exact hstart
  · rintro w rfl
    have horder : InOrder os (us ++ t :: vs) := (hc ▸ h.inOrder w).insert hus hvs
    refine horder.congr fun u _ => ?_
    by_cases hut : u = t
    · rw [hut, hself]
    · rw [hother u hut]

/-- **Put at the end of a run queue.** -/
theorem link (h : Apart os c t) (ht0 : t ≠ 0)
    (hready : (os.thread t).state = .ready) (hsuspend : (os.thread t).suspend < 1)
    (hok : (os.thread t).Ok) (hstart : Startable os t) :
    Consistent ((os.linkThreadOnRunQueue t (os.thread t).priority).markRunQueuePending
      (os.thread t).priority)
      (update c (.run (os.thread t).priority) (c (.run (os.thread t).priority) ++ [t])) := by
  have halive : (os.thread t).Alive := by
    unfold OSThread.Alive
    rw [hready]
    simp
  have hp0 := (hok.priority halive).1
  have hp := hok.runnable halive hsuspend
  have hlinked := h.linked.link hp0 (by omega) ht0 h.off
  have hself : ((os.linkThreadOnRunQueue t (os.thread t).priority).markRunQueuePending
      (os.thread t).priority).thread t =
        { os.thread t with queue := some (.run (os.thread t).priority) } :=
    setQueue_thread_self (some (.run (os.thread t).priority))
  have hother : ∀ u, u ≠ t → ((os.linkThreadOnRunQueue t
      (os.thread t).priority).markRunQueuePending (os.thread t).priority).thread u = os.thread u :=
    fun u hu => setQueue_thread_of_ne hu (some (.run (os.thread t).priority))
  refine h.closeAt (q := .run (os.thread t).priority) ht0 hother
    (fun _ => rfl) (List.append_nil _).symm hlinked ?_ ?_ ?_ (fun w hw => by cases hw)
  · rw [hself]
    unfold OSThread.place
    simp only [hready, hsuspend, if_true]
  · rw [hself]
    exact ⟨hok.base, hok.priority, hok.runnable, hok.running, fun hs => by
      simp only [hready, reduceCtorEq] at hs⟩
  · unfold Startable
    rw [hself]
    exact hstart

end Apart

end

end DolTranslator.Os
