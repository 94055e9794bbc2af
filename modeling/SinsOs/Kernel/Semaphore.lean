/-
The semaphore (kernel/semaphore.c), with count 0 for a free one: down raises the count and waits unless it was 0, up lowers
it and wakes one task.

down waits where interrupts are off, so raising the count, the wait queue and schedule are one step; the task goes on when the
scheduler chose it again (`ret`), still with interrupts off. Between the steps the tasks do whatever the scheduler allows on
other queues. down does not look at the count again: the task that up wakes has the semaphore from then on (`holders`).

`exclusion`: at most one holder, and the count is the holders and the tasks on the queue.
-/
import SinsOs.Kernel.WaitQueue
import Mathlib.Data.Set.Card

namespace SinsOs.Semaphore

open SinsOs.Core SinsOs.Sched

/-! ## Model -/

/-- the wait queue of the semaphore -/
def waitQueue : ℕ := 0

/-- `inside`: in the wait of down. `holds`: down has returned, and up was not called -/
structure Sys where
  sched : Sched.Sys
  count : ℤ
  inside : ℕ → Bool
  holds : ℕ → Bool

def Sys.waiting (s : Sys) : List ℕ := s.sched.lists (.queue waitQueue)

/-- down up to schedule, or to its end -/
def down (s : Sys) (waitExit : ℕ) : Option Sys :=
  let c := s.sched.current
  let s := { s with count := s.count + 1 }
  if s.count ≠ 1 then (sleep s.sched waitQueue waitExit).map
    fun sched => { s with sched, inside := Function.update s.inside c true }
  else some { s with holds := Function.update s.holds c true }

/-- wait returns, and down -/
def downReturn (s : Sys) : Sys :=
  { s with inside := Function.update s.inside s.sched.current false, holds := Function.update s.holds s.sched.current true }

def up (s : Sys) : Sys :=
  { s with sched := wakeUp s.sched waitQueue, count := s.count - 1, holds := Function.update s.holds s.sched.current false }

inductive Op
  | down (waitExit : ℕ)
  | downReturn
  | up
  -- a step of the scheduler for other code
  | other (o : Sched.Op)
deriving DecidableEq, Repr

/-- interrupts are off in down; idle never waits; up is the holder's -/
def legal (s : Sys) : Op → Prop
  | .down _ => s.sched.current ≠ 0 ∧ (s.sched.task s.sched.current).window = false ∧ s.inside s.sched.current = false
  | .downReturn => s.inside s.sched.current = true
  | .up => s.holds s.sched.current = true ∧ (s.sched.task s.sched.current).window = false ∧ s.inside s.sched.current = false
  | .other o => Sched.legal s.sched o ∧ ¬ o.Uses waitQueue ∧ s.inside s.sched.current = false

def step (s : Sys) : Op → Option Sys
  | .down w => down s w
  | .downReturn => some (downReturn s)
  | .up => some (up s)
  | .other o => (Sched.step s.sched o).map fun sched => { s with sched }

/-- SEMAPHORE -/
def boot : Sys := ⟨Sched.boot, 0, fun _ => false, fun _ => false⟩

def system : Lts Sys Op where
  start := fun s => s = boot
  step := fun s o s' => legal s o ∧ step s o = some s'

/-- the tasks that down let in, and those that up passed the semaphore to -/
def holders (s : Sys) : Set ℕ := {t | s.holds t = true ∨ s.inside t = true ∧ t ∉ s.waiting}

/-! ## The invariant -/

structure SemOk (s : Sys) : Prop where
  sched : SchedOk s.sched
  waiting : ∀ t ∈ s.waiting, s.inside t = true
  window : ∀ t, s.inside t = true → (s.sched.task t).window = false
  one : (holders s).Subsingleton
  count : s.count = (holders s).ncard + s.waiting.length
  free : holders s = ∅ → s.waiting = []

variable {s s' : Sys} {t w : ℕ}

theorem SemOk.nodup (h : SemOk s) : s.waiting.Nodup := by
  obtain ⟨f, hf, -⟩ := h.sched
  exact hf.nodup _

/-- the task that runs in down was woken -/
theorem SemOk.current_woken (h : SemOk s) (hin : s.inside s.sched.current = true) : s.sched.current ∉ s.waiting :=
  h.sched.not_queued (h.window _ hin) waitQueue

theorem SemOk.free_iff (h : SemOk s) : s.count = 0 ↔ holders s = ∅ := by
  have hfin : (holders s).Finite := h.one.finite
  rw [h.count]
  constructor
  · intro h0
    exact (Set.ncard_eq_zero hfin).1 (by omega)
  · intro he
    rw [he, h.free he, Set.ncard_empty]
    rfl

theorem boot_ok : SemOk boot := by
  have hnone : holders boot = ∅ :=
    Set.eq_empty_of_forall_notMem fun t ht => ht.elim Bool.noConfusion fun h => Bool.noConfusion h.1
  refine ⟨Sched.boot_ok, fun t ht => absurd ht List.not_mem_nil, fun t ht => Bool.noConfusion ht, ?_, ?_, fun _ => rfl⟩
  · rw [hnone]
    exact Set.subsingleton_empty
  · rw [hnone, Set.ncard_empty]
    rfl

/-! ## The steps -/

/-- down of a free semaphore -/
theorem take_ok (h : SemOk s) (hc : s.count = 0) (c : ℕ) :
    SemOk { s with count := s.count + 1, holds := Function.update s.holds c true } := by
  have hnone := h.free_iff.1 hc
  have hempty : s.waiting = [] := h.free hnone
  have hone : holders { s with count := s.count + 1, holds := Function.update s.holds c true } = {c} := by
    ext t
    have hno : t ∉ holders s := by
      rw [hnone]
      exact Set.notMem_empty t
    change Function.update s.holds c true t = true ∨ s.inside t = true ∧ t ∉ s.waiting ↔ t = c
    by_cases ht : t = c
    · rw [ht, Function.update_self]
      exact iff_of_true (Or.inl rfl) rfl
    · rw [Function.update_of_ne ht]
      exact iff_of_false hno ht
  refine ⟨h.sched, h.waiting, h.window, ?_, ?_, fun _ => hempty⟩
  · rw [hone]
    exact Set.subsingleton_singleton
  · rw [hone, Set.ncard_singleton]
    change s.count + 1 = ((1 : ℕ) : ℤ) + s.waiting.length
    rw [hc, hempty]
    rfl

/-- down of a semaphore that is not free -/
theorem wait_ok {sched : Sched.Sys} (h : SemOk s) (hl : legal s (.down w)) (hc : s.count ≠ 0)
    (hs : sleep s.sched waitQueue w = some sched) (hok : SchedOk sched) :
    SemOk { s with sched, count := s.count + 1, inside := Function.update s.inside s.sched.current true } := by
  obtain ⟨h0, hwin, hout⟩ := hl
  obtain ⟨hqueue, -⟩ := sleep_queues h.sched h0 hwin hs
  have hsame : holders { s with sched, count := s.count + 1, inside := Function.update s.inside s.sched.current true } =
      holders s := by
    ext t
    refine or_congr_right ?_
    change Function.update s.inside s.sched.current true t = true ∧ t ∉ sched.lists (.queue waitQueue) ↔ _
    rw [hqueue]
    by_cases ht : t = s.sched.current
    · simp [ht, hout]
    · rw [Function.update_of_ne ht, List.mem_cons, not_or, and_iff_right ht]
      rfl
  refine ⟨hok, fun t ht => ?_, fun t ht => ?_, ?_, ?_, fun hnone => ?_⟩
  · change t ∈ sched.lists (.queue waitQueue) at ht
    change Function.update s.inside s.sched.current true t = true
    rw [hqueue] at ht
    by_cases hc : t = s.sched.current
    · rw [hc, Function.update_self]
    · rw [Function.update_of_ne hc]
      exact h.waiting t ((List.mem_cons.1 ht).resolve_left hc)
  · change Function.update s.inside s.sched.current true t = true at ht
    refine Bool.eq_false_iff.2 fun hw => ?_
    have hw := Sched.sleep_window hs hw
    by_cases hc : t = s.sched.current
    · rw [hc, hwin] at hw
      exact Bool.noConfusion hw
    · rw [Function.update_of_ne hc] at ht
      exact Bool.noConfusion ((h.window t ht).symm.trans hw)
  · rw [hsame]
    exact h.one
  · rw [hsame]
    change s.count + 1 = _ + ((sched.lists (.queue waitQueue)).length : ℤ)
    rw [hqueue, h.count, List.length_cons]
    push_cast
    exact add_assoc _ _ _
  · rw [hsame] at hnone
    exact absurd (h.free_iff.2 hnone) hc

theorem down_ok (h : SemOk s) (hl : legal s (.down w)) : ∃ s', down s w = some s' ∧ SemOk s' := by
  by_cases hc : s.count = 0
  · refine ⟨_, ?_, take_ok h hc s.sched.current⟩
    simp [down, hc]
  · obtain ⟨sched, hs, hok⟩ := sleep_ok h.sched waitQueue w hl.1 hl.2.1
    refine ⟨_, ?_, wait_ok h hl hc hs hok⟩
    simp [down, hc, hs]

theorem downReturn_ok (h : SemOk s) (hin : s.inside s.sched.current = true) : SemOk (downReturn s) := by
  have hnot := h.current_woken hin
  have hsame : holders (downReturn s) = holders s := by
    ext t
    change (Function.update s.holds s.sched.current true t = true ∨
      Function.update s.inside s.sched.current false t = true ∧ t ∉ s.waiting) ↔ _
    by_cases ht : t = s.sched.current
    · subst ht
      simp [holders, hin, hnot]
    · rw [Function.update_of_ne ht, Function.update_of_ne ht]
      rfl
  refine ⟨h.sched, fun t ht => ?_, fun t ht => ?_, ?_, ?_, ?_⟩
  · have hne : t ≠ s.sched.current := fun hc => hnot (by rwa [← hc])
    change Function.update s.inside s.sched.current false t = true
    rw [Function.update_of_ne hne]
    exact h.waiting t ht
  · change Function.update s.inside s.sched.current false t = true at ht
    by_cases hc : t = s.sched.current
    · rw [hc, Function.update_self] at ht
      exact Bool.noConfusion ht
    · rw [Function.update_of_ne hc] at ht
      exact h.window t ht
  · rw [hsame]
    exact h.one
  · rw [hsame]
    exact h.count
  · rw [hsame]
    exact h.free

/-- the holder gives the semaphore to the first task of the queue -/
theorem up_holders (h : SemOk s) (hl : legal s .up) :
    (up s).waiting = s.waiting.tail ∧ ∀ t, t ∈ holders (up s) ↔ s.waiting.head? = some t := by
  obtain ⟨hholds, hwin, hout⟩ := hl
  have hmine : ∀ t ∈ holders s, t = s.sched.current := fun t ht => h.one ht (Or.inl hholds)
  have htail : (up s).waiting = s.waiting.tail := wakeUp_queue s.sched waitQueue
  refine ⟨htail, fun t => ?_⟩
  change (Function.update s.holds s.sched.current false t = true ∨ s.inside t = true ∧ t ∉ (up s).waiting) ↔ _
  have hno : Function.update s.holds s.sched.current false t ≠ true := by
    by_cases hc : t = s.sched.current
    · rw [hc, Function.update_self]
      exact Bool.false_ne_true
    · rw [Function.update_of_ne hc]
      exact fun ht => hc (hmine t (Or.inl ht))
  -- a task in down that is on no queue is the one that runs
  have hqueued : s.inside t = true ↔ t ∈ s.waiting := by
    refine ⟨fun ht => ?_, h.waiting t⟩
    by_contra hn
    rw [hmine t (Or.inr ⟨ht, hn⟩), hout] at ht
    exact Bool.noConfusion ht
  have hnodup := h.nodup
  rw [or_iff_right hno, hqueued, htail]
  cases hw : s.waiting with
  | nil => simp
  | cons first rest =>
    rw [hw] at hnodup
    have hfirst := (List.nodup_cons.1 hnodup).1
    rw [List.tail_cons, List.head?_cons, Option.some_inj, List.mem_cons]
    constructor
    · rintro ⟨rfl | ht, hnot⟩
      · rfl
      · exact absurd ht hnot
    · rintro rfl
      exact ⟨Or.inl rfl, hfirst⟩

theorem up_ok (h : SemOk s) (hl : legal s .up) : SemOk (up s) := by
  obtain ⟨htail, hheld⟩ := up_holders h hl
  have hbefore : (holders s).ncard = 1 :=
    Set.ncard_eq_one.2 ⟨_, h.one.eq_singleton_of_mem (Or.inl hl.1)⟩
  have hcount := h.count
  rw [hbefore] at hcount
  refine ⟨wakeUp_step h.sched _, fun t ht => ?_, fun t ht => ?_, fun t ht u hu => ?_, ?_, fun hnone => ?_⟩
  · rw [htail] at ht
    exact h.waiting t (List.mem_of_mem_tail ht)
  · exact (wakeUp_window s.sched _ t).trans (h.window t ht)
  · exact Option.some.inj (((hheld t).1 ht).symm.trans ((hheld u).1 hu))
  · change s.count - 1 = _
    rw [htail, hcount]
    cases hw : s.waiting with
    | nil =>
      have hnone : holders (up s) = ∅ := Set.eq_empty_of_forall_notMem fun t ht => by simpa [hw] using (hheld t).1 ht
      rw [hnone, Set.ncard_empty]
      rfl
    | cons first rest =>
      have hone : holders (up s) = {first} := by
        ext t
        rw [hheld t, hw, List.head?_cons, Option.some_inj, Set.mem_singleton_iff, eq_comm]
      rw [hone, Set.ncard_singleton, List.tail_cons, List.length_cons]
      push_cast
      ring
  · rw [htail]
    cases hw : s.waiting with
    | nil => rfl
    | cons first rest =>
      have hfirst : first ∈ holders (up s) := (hheld first).2 (by rw [hw, List.head?_cons])
      rw [hnone] at hfirst
      exact absurd hfirst (Set.notMem_empty first)

theorem other_ok {o : Sched.Op} (h : SemOk s) (hl : legal s (.other o)) : ∃ s', step s (.other o) = some s' ∧ SemOk s' := by
  obtain ⟨hl, hu, hout⟩ := hl
  obtain ⟨sched, hs, hok⟩ := Sched.step_ok h.sched hl
  have hqueue : sched.lists (.queue waitQueue) = s.waiting := step_queue h.sched hl hu hs
  have hsame : holders { s with sched } = holders s := by
    ext t
    change s.holds t = true ∨ s.inside t = true ∧ t ∉ sched.lists (.queue waitQueue) ↔ _
    rw [hqueue]
    rfl
  refine ⟨{ s with sched }, by simp [step, hs], hok, fun t ht => ?_, fun t ht => ?_, ?_, ?_, ?_⟩
  · change t ∈ sched.lists (.queue waitQueue) at ht
    rw [hqueue] at ht
    exact h.waiting t ht
  · refine Bool.eq_false_iff.2 fun hw => ?_
    obtain hw | rfl := step_window hs hw
    · exact Bool.noConfusion ((h.window t ht).symm.trans hw)
    · exact Bool.noConfusion (hout.symm.trans ht)
  · rw [hsame]
    exact h.one
  · rw [hsame]
    change s.count = _ + ((sched.lists (.queue waitQueue)).length : ℤ)
    rw [hqueue]
    exact h.count
  · rw [hsame]
    change _ → sched.lists (.queue waitQueue) = []
    rw [hqueue]
    exact h.free

theorem step_ok {o : Op} (h : SemOk s) (hl : legal s o) : ∃ s', step s o = some s' ∧ SemOk s' := by
  cases o with
  | down w => exact down_ok h hl
  | downReturn => exact ⟨_, rfl, downReturn_ok h hl⟩
  | up => exact ⟨_, rfl, up_ok h hl⟩
  | other o => exact other_ok h hl

theorem sem_reachable (h : system.Reach s) : SemOk s := by
  refine h.inv (fun s hs => hs ▸ boot_ok) fun s o s' hi hst => ?_
  obtain ⟨s'', hs, hok⟩ := step_ok hi hst.1
  rw [hst.2] at hs
  cases hs
  exact hok

/-! ## Every run -/

/-- **Mutual exclusion.** In any interleaving of down, up by the holder, and steps of other code: at most one task is between
down and up, counting one that up has passed the semaphore to and that did not run since; the count is the holders and the tasks
on the queue; no task waits while the semaphore is free; every step goes through, and an up with tasks on the queue wakes
exactly the first of them, which holds the semaphore from then on. -/
theorem exclusion (h : system.Reach s) :
    (∀ t u, s.holds t = true → s.holds u = true → t = u) ∧
    (holders s).Subsingleton ∧ s.count = (holders s).ncard + s.waiting.length ∧
    (holders s = ∅ → s.waiting = []) ∧
    (∀ o, legal s o → ∃ s', step s o = some s') ∧
    (∀ t rest, legal s .up → s.waiting = t :: rest → (up s).waiting = rest ∧ t ∉ rest ∧ holders (up s) = {t} ∧
      t ∈ (up s).sched.lists .run ∧ ((up s).sched.task t).state = .runnable) := by
  have hok := sem_reachable h
  refine ⟨fun t u ht hu => hok.one (Or.inl ht) (Or.inl hu), hok.one, hok.count, hok.free, fun o hl => ?_,
    fun t rest hl hw => ?_⟩
  · obtain ⟨s', hs, -⟩ := step_ok hok hl
    exact ⟨s', hs⟩
  · obtain ⟨htail, hheld⟩ := up_holders hok hl
    have hnodup := hok.nodup
    rw [hw] at htail hheld hnodup
    refine ⟨htail, (List.nodup_cons.1 hnodup).1, ?_, wakeUp_woken hw⟩
    ext u
    rw [hheld u, List.head?_cons, Option.some_inj, Set.mem_singleton_iff, eq_comm]

/-! ## A run of two tasks -/

instance (s : Sys) (o : Op) : Decidable (legal s o) :=
  match o with
  | .down _ => inferInstanceAs (Decidable (_ ∧ _ ∧ _))
  | .downReturn => inferInstanceAs (Decidable (_ = _))
  | .up => inferInstanceAs (Decidable (_ ∧ _ ∧ _))
  | .other _ => inferInstanceAs (Decidable (_ ∧ _ ∧ _))

/-- a legal step -/
def run (s : Sys) (o : Op) : Option Sys := if legal s o then step s o else none

theorem run_step {o : Op} (h : run s o = some s') : system.step s o s' := by
  unfold run at h
  split_ifs at h with hl
  exact ⟨hl, h⟩

/-- the time slice of a task -/
def slice : List Op := List.replicate calcTimeSlice (.other (.schedTick 1))

/-- tasks 5 and 6 are made, 6 calls down, and so does 5 in its time slice -/
def twoTasks : List Op := [.other (.kernelThread 5), .other (.kernelThread 6)] ++ slice ++ slice ++ [.down 1] ++
    slice ++ [.down 1]

theorem exclusion_two : ∃ s, system.Reach s ∧ s.count = 2 ∧ s.waiting = [5] ∧ s.holds 6 = true ∧ holders s = {6} := by
  have hrun : (twoTasks.foldlM run boot).map (fun s => (s.count, s.waiting, s.holds 6)) = some (2, [5], true) := by decide +kernel
  obtain ⟨s, hs, hfields⟩ := Option.map_eq_some_iff.1 hrun
  simp only [Prod.mk.injEq] at hfields
  obtain ⟨hcount, hwaiting, hholds⟩ := hfields
  have hreach : system.Reach s := (Lts.Reach.start rfl).fold (fun _ _ _ => run_step) hs
  obtain ⟨-, hone, -⟩ := exclusion hreach
  exact ⟨s, hreach, hcount, hwaiting, hholds, hone.eq_singleton_of_mem (Or.inl hholds)⟩

end SinsOs.Semaphore
