/-
A wait queue that only its owner uses: what the scheduler's steps do to it (kernel/sched.c).

A semaphore and a driver keep a queue for themselves and call wait where interrupts are off, so that schedule follows at once
(`sleep`). The steps of other code do not touch the queue (`step_queue`), and no step puts a task other than the running one
into its window (`step_window`).
-/
import SinsOs.Kernel.Sched

namespace SinsOs.Sched

variable {s s' : Sys} {f : ℕ → Option Place} {t u q r w : ℕ}

/-- the queues that a step can use -/
def Op.Uses (q : ℕ) : Op → Prop
  | .schedTick w | .schedule w | .exit w => w = q
  | .wait r | .wakeUp r | .wakeUpAll r => r = q
  | .kernelThread _ | .reap _ => False

instance (q : ℕ) (o : Op) : Decidable (o.Uses q) :=
  match o with
  | .schedTick _ | .schedule _ | .exit _ | .wait _ | .wakeUp _ | .wakeUpAll _ => inferInstanceAs (Decidable (_ = _))
  | .kernelThread _ | .reap _ => isFalse id

/-- wait where interrupts are off -/
def sleep (s : Sys) (q w : ℕ) : Option Sys := callSchedule (waitOn s q) w

/-! ## The queues -/

theorem add_same (s : Sys) (t : ℕ) (p : Place) : (s.add t p).lists p = t :: s.lists p := if_pos rfl

theorem add_ne {p p' : Place} (s : Sys) (t : ℕ) (h : p' ≠ p) : (s.add t p).lists p' = s.lists p' := if_neg h

theorem wakeUp_queue (s : Sys) (q : ℕ) : (wakeUp s q).lists (.queue q) = (s.lists (.queue q)).tail := by
  rw [wakeUp]
  cases hq : s.lists (.queue q) with
  | nil => exact hq
  | cons fetch rest =>
    change ((s.del fetch).add fetch .run).lists (.queue q) = rest
    rw [add_ne _ _ Place.noConfusion]
    change (s.lists (.queue q)).erase fetch = rest
    rw [hq, List.erase_cons_head]

theorem wakeUp_queue_ne (hdis : ∀ t ∈ s.lists (.queue r), t ∉ s.lists (.queue q)) :
    (wakeUp s r).lists (.queue q) = s.lists (.queue q) := by
  rw [wakeUp]
  cases hr : s.lists (.queue r) with
  | nil => rfl
  | cons fetch rest =>
    change ((s.del fetch).add fetch .run).lists (.queue q) = _
    rw [add_ne _ _ Place.noConfusion]
    exact List.erase_of_not_mem (hdis fetch (by rw [hr]; exact List.mem_cons_self))

theorem Placed.disjoint (h : Placed s f) (hne : r ≠ q) : ∀ t ∈ s.lists (.queue r), t ∉ s.lists (.queue q) := by
  intro t hr hq
  have he : Place.queue r = .queue q := Option.some.inj (((h.mem _ t).1 hr).symm.trans ((h.mem _ t).1 hq))
  exact hne (Place.queue.inj he)

/-- a task that is elsewhere is taken off its list -/
theorem Placed.erase_queue (h : Placed s f) (ht : f t ≠ some (.queue q)) : (s.lists (.queue q)).erase t = s.lists (.queue q) :=
  List.erase_of_not_mem fun hin => ht ((h.mem _ t).1 hin)

theorem splice_queue {p : Place} (hp : p ≠ .queue q) : (s.splice p .run).lists (.queue q) = s.lists (.queue q) := by
  simp only [Sys.splice]
  rw [if_neg hp.symm, if_neg Place.noConfusion]

/-- schedule changes the running task of what it has refilled -/
theorem schedule_eq (hs : schedule s w = some s') : ∃ next, s' = { refill (leave s w) with current := next } := by
  rw [schedule] at hs
  split at hs
  · cases hs
  · exact ⟨_, (Option.some.inj hs).symm⟩

theorem schedule_queue (hs : schedule s w = some s') : s'.lists (.queue q) = (leave s w).lists (.queue q) := by
  obtain ⟨next, rfl⟩ := schedule_eq hs
  have hrefill : (refill (leave s w)).lists (.queue q) = (leave s w).lists (.queue q) := by
    rw [refill]
    split_ifs
    · exact splice_queue Place.noConfusion
    · rfl
  exact hrefill

/-- a task that has not exited leaves no queue -/
theorem leave_queue (h : Placed s f) (hr : f s.current ≠ none) : (leave s w).lists (.queue q) = s.lists (.queue q) := by
  obtain ⟨p, hp⟩ := Option.ne_none_iff_exists'.1 hr
  have hstate := h.state s.current (h.live _ p hp)
  rw [leave]
  dsimp only
  split_ifs with h1 h2
  · have hrun : f s.current ≠ some (.queue q) := by
      intro hq
      rw [hq, h1.2] at hstate
      cases hstate
    refine (add_ne _ _ Place.noConfusion).trans ?_
    exact h.erase_queue hrun
  · rw [hp, h2] at hstate
    cases p <;> cases hstate
  · rfl

theorem callSchedule_queue (h : Placed s f) (hr : f s.current ≠ none) (hs : callSchedule s w = some s') :
    s'.lists (.queue q) = s.lists (.queue q) := by
  have h1 : Placed (s.setTask s.current { s.task s.current with window := false }) f := h.setTask rfl
  rw [callSchedule] at hs
  exact (schedule_queue hs).trans (leave_queue h1 hr)

theorem schedTick_queue (h : Placed s f) (hr : f s.current ≠ none) (hs : schedTick s w = some s') :
    s'.lists (.queue q) = s.lists (.queue q) := by
  rw [schedTick] at hs
  have h1 : Placed (s.setTask s.current { s.task s.current with timeSlice := (s.task s.current).timeSlice - 1 }) f :=
    h.setTask rfl
  dsimp only at hs
  split_ifs at hs
  · exact (schedule_queue hs).trans (leave_queue h1 hr)
  · obtain rfl := Option.some.inj hs
    rfl

theorem sysExit_queue (h : Placed s f) (hrun : f s.current = some .run) (hne : w ≠ q) (hs : sysExit s w = some s') :
    s'.lists (.queue q) = s.lists (.queue q) := by
  rw [sysExit] at hs
  refine (schedule_queue hs).trans ?_
  have hz : ((s.setState s.current .zombie).task (s.setState s.current .zombie).current).state = .zombie :=
    congrArg Task.state (if_pos rfl)
  have herase : ∀ q, (s.lists (.queue q)).erase s.current = s.lists (.queue q) := fun q =>
    h.erase_queue (by rw [hrun]; exact fun he => Place.noConfusion (Option.some.inj he))
  rw [leave]
  dsimp only
  rw [if_neg (fun he => TaskState.noConfusion (hz.symm.trans he.2)), if_pos hz, wakeUp_queue_ne]
  · exact herase q
  · intro t ht hq
    exact h.disjoint hne t (List.mem_of_mem_erase ht) (List.mem_of_mem_erase hq)

theorem waitOn_queue (h : Placed s f) (hrun : f s.current = some .run) (q : ℕ) :
    (waitOn s q).lists (.queue q) = s.current :: s.lists (.queue q) := by
  refine (add_same _ _ _).trans (congrArg _ ?_)
  exact h.erase_queue (by rw [hrun]; exact fun he => Place.noConfusion (Option.some.inj he))

theorem waitOn_queue_ne (h : Placed s f) (hrun : f s.current = some .run) (hne : r ≠ q) :
    (waitOn s r).lists (.queue q) = s.lists (.queue q) := by
  refine (add_ne _ _ fun he => hne (Place.queue.inj he).symm).trans ?_
  exact h.erase_queue (by rw [hrun]; exact fun he => Place.noConfusion (Option.some.inj he))

theorem SchedOk.running (h : SchedOk s) (hw : (s.task s.current).window = false) :
    ∃ f, Placed s f ∧ f s.current = some .run := by
  obtain ⟨f, hf, hr⟩ := h
  refine ⟨f, hf, hr.resolve_right fun hq => ?_⟩
  rw [hw] at hq
  exact absurd hq.1 Bool.false_ne_true

/-- the running task is on no queue -/
theorem SchedOk.not_queued (h : SchedOk s) (hw : (s.task s.current).window = false) (q : ℕ) :
    s.current ∉ s.lists (.queue q) := by
  obtain ⟨f, hf, hrun⟩ := h.running hw
  intro hin
  exact Place.noConfusion (Option.some.inj (hrun.symm.trans ((hf.mem _ _).1 hin)))

/-- **Steps of others leave a queue as it is.** -/
theorem step_queue {o : Op} (h : SchedOk s) (hl : legal s o) (hu : ¬ o.Uses q) (hs : step s o = some s') :
    s'.lists (.queue q) = s.lists (.queue q) := by
  obtain ⟨f, hf, hr⟩ := id h
  cases o with
  | schedTick w => exact schedTick_queue hf hr.ne_none hs
  | schedule w => exact callSchedule_queue hf hr.ne_none hs
  | wait r =>
    obtain rfl := Option.some.inj hs
    obtain ⟨f, hf, hrun⟩ := h.running hl.2
    exact waitOn_queue_ne hf hrun hu
  | wakeUp r =>
    obtain rfl := Option.some.inj hs
    exact wakeUp_queue_ne (hf.disjoint hu)
  | wakeUpAll r =>
    obtain rfl := Option.some.inj hs
    exact splice_queue fun he => hu (Place.queue.inj he)
  | kernelThread new =>
    obtain rfl := Option.some.inj hs
    exact add_ne _ _ Place.noConfusion
  | exit w =>
    obtain ⟨f, hf, hrun⟩ := h.running hl.2
    exact sysExit_queue hf hrun hu hs
  | reap t =>
    obtain rfl := Option.some.inj hs
    rfl

/-! ## The windows -/

theorem leave_window (s : Sys) (w u : ℕ) : ((leave s w).task u).window = (s.task u).window := by
  rw [leave]
  dsimp only
  split_ifs
  · change (if u = s.current then _ else s.task u : Task).window = _
    split_ifs with hu
    · rw [hu]
    · rfl
  · exact wakeUp_window _ w u
  · rfl

theorem splice_window (s : Sys) (p r : Place) (u : ℕ) : ((s.splice p r).task u).window = (s.task u).window := by
  simp only [Sys.splice]
  split_ifs <;> rfl

theorem schedule_window (hs : schedule s w = some s') (u : ℕ) : (s'.task u).window = (s.task u).window := by
  obtain ⟨next, rfl⟩ := schedule_eq hs
  have hrefill : ((refill (leave s w)).task u).window = (s.task u).window := by
    rw [refill]
    split_ifs
    · rw [splice_window, leave_window]
    · exact leave_window s w u
  exact hrefill

theorem setTask_window {x : Task} (hx : x.window = true → (s.task t).window = true)
    (hw : ((s.setTask t x).task u).window = true) :
    (s.task u).window = true := by
  change (if u = t then x else s.task u).window = true at hw
  split_ifs at hw with hu
  · rw [hu]
    exact hx hw
  · exact hw

theorem callSchedule_window (hs : callSchedule s w = some s') (hw : (s'.task u).window = true) :
    (s.task u).window = true ∧ u ≠ s.current := by
  rw [callSchedule] at hs
  rw [schedule_window hs] at hw
  refine ⟨setTask_window (fun h => absurd h Bool.false_ne_true) hw, ?_⟩
  rintro rfl
  change (if s.current = s.current then _ else _ : Task).window = true at hw
  rw [if_pos rfl] at hw
  exact absurd hw Bool.false_ne_true

/-- **Only the running task comes into its window.** -/
theorem step_window {o : Op} (hs : step s o = some s') (hw : (s'.task u).window = true) :
    (s.task u).window = true ∨ u = s.current := by
  cases o with
  | schedTick w =>
    simp only [step, schedTick] at hs
    refine Or.inl (setTask_window (t := s.current)
      (x := { s.task s.current with timeSlice := (s.task s.current).timeSlice - 1 }) id ?_)
    split_ifs at hs
    · rwa [schedule_window hs] at hw
    · obtain rfl := Option.some.inj hs
      exact hw
  | schedule w => exact Or.inl (callSchedule_window hs hw).1
  | wait r =>
    obtain rfl := Option.some.inj hs
    by_cases hu : u = s.current
    · exact Or.inr hu
    · refine Or.inl ?_
      simpa [waitOn, Sys.setState, Sys.setTask, Sys.add, Sys.del, hu] using hw
  | wakeUp r =>
    obtain rfl := Option.some.inj hs
    rw [wakeUp_window] at hw
    exact Or.inl hw
  | wakeUpAll r =>
    obtain rfl := Option.some.inj hs
    rw [wakeUpAll, splice_window] at hw
    exact Or.inl hw
  | kernelThread new =>
    obtain rfl := Option.some.inj hs
    exact Or.inl (setTask_window (t := new) (x := ⟨.runnable, calcTimeSlice, false⟩)
      (fun h => absurd h Bool.false_ne_true) hw)
  | exit w =>
    simp only [step, sysExit] at hs
    rw [schedule_window hs] at hw
    exact Or.inl (setTask_window (t := s.current) (x := { s.task s.current with state := .zombie }) id hw)
  | reap t =>
    obtain rfl := Option.some.inj hs
    exact Or.inl (setTask_window (t := t) (x := { s.task t with state := .dead }) id hw)

/-! ## The tasks that can run -/

def Runnable (s : Sys) (t : ℕ) : Prop := t ∈ s.lists .run ∨ t ∈ s.lists .ready

theorem add_mem {p p' : Place} (h : t ∈ s.lists p') : t ∈ (s.add u p).lists p' := by
  by_cases hp : p' = p
  · rw [hp, add_same]
    exact List.mem_cons_of_mem _ (hp ▸ h)
  · rwa [add_ne s u hp]

theorem del_mem {p : Place} (hne : t ≠ u) (h : t ∈ s.lists p) : t ∈ (s.del u).lists p := (List.mem_erase_of_ne hne).2 h

theorem Runnable.add {p : Place} (h : Runnable s t) : Runnable (s.add u p) t := h.imp add_mem add_mem

theorem Runnable.del (h : Runnable s t) (hne : t ≠ u) : Runnable (s.del u) t := h.imp (del_mem hne) (del_mem hne)

theorem Runnable.wakeUp (h : Runnable s t) (q : ℕ) : Runnable (wakeUp s q) t := by
  rw [Sched.wakeUp]
  cases s.lists (.queue q) with
  | nil => exact h
  | cons fetch rest =>
    change Runnable ((s.del fetch).add fetch .run) t
    by_cases ht : t = fetch
    · rw [ht]
      exact Or.inl (add_same _ _ _ ▸ List.mem_cons_self)
    · exact (h.del ht).add

theorem Runnable.splice {p : Place} (h : Runnable s t) (hp : p ≠ .run) : Runnable (s.splice p .run) t := by
  have hrun : (s.splice p .run).lists .run = s.lists p ++ s.lists .run := by
    simp only [Sys.splice]
    rw [if_neg hp.symm, if_true]
  obtain h | h := h
  · left
    rw [hrun]
    exact List.mem_append_right _ h
  · by_cases hr : p = .ready
    · left
      rw [hrun, hr]
      exact List.mem_append_left _ h
    · right
      simp only [Sys.splice]
      rwa [if_neg (Ne.symm hr), if_neg Place.noConfusion]

theorem Runnable.leave (h : Runnable s t) (hne : t ≠ s.current) (w : ℕ) : Runnable (leave s w) t := by
  rw [Sched.leave]
  dsimp only
  split_ifs
  · exact Runnable.add (Runnable.del (s := s.setTask s.current { s.task s.current with timeSlice := calcTimeSlice }) h hne)
  · exact (h.del hne).wakeUp w
  · exact h

theorem Runnable.schedule (h : Runnable s t) (hne : t ≠ s.current) (hs : schedule s w = some s') : Runnable s' t := by
  obtain ⟨next, rfl⟩ := schedule_eq hs
  have hrefill : Runnable (refill (Sched.leave s w)) t := by
    rw [refill]
    split_ifs
    · exact (h.leave hne w).splice fun he => Place.noConfusion he
    · exact h.leave hne w
  exact hrefill

/-- **A task that can run and does not run can still run after a step.** -/
theorem Runnable.step {o : Op} (h : Runnable s t) (hne : t ≠ s.current) (hs : step s o = some s') : Runnable s' t := by
  cases o with
  | schedTick w =>
    simp only [Sched.step, schedTick] at hs
    split_ifs at hs
    · exact Runnable.schedule (s := s.setTask s.current { s.task s.current with timeSlice := (s.task s.current).timeSlice - 1 })
        h hne hs
    · obtain rfl := Option.some.inj hs
      exact h
  | schedule w => exact Runnable.schedule (s := s.setTask s.current { s.task s.current with window := false }) h hne hs
  | wait r =>
    obtain rfl := Option.some.inj hs
    exact Runnable.add (u := s.current) (p := .queue r) (h.del hne)
  | wakeUp r =>
    obtain rfl := Option.some.inj hs
    exact h.wakeUp r
  | wakeUpAll r =>
    obtain rfl := Option.some.inj hs
    exact h.splice fun he => Place.noConfusion he
  | kernelThread new =>
    obtain rfl := Option.some.inj hs
    exact h.add
  | exit w => exact Runnable.schedule (s := s.setState s.current .zombie) h hne hs
  | reap u =>
    obtain rfl := Option.some.inj hs
    exact h

/-! ## wait and wake_up of the owner -/

theorem sleep_ok (h : SchedOk s) (q w : ℕ) (h0 : s.current ≠ 0) (hw : (s.task s.current).window = false) :
    ∃ s', sleep s q w = some s' ∧ SchedOk s' :=
  callSchedule_ok (waitOn_ok h q h0 hw) w

theorem sleep_queues (h : SchedOk s) (h0 : s.current ≠ 0) (hw : (s.task s.current).window = false)
    (hs : sleep s q w = some s') :
    s'.lists (.queue q) = s.current :: s.lists (.queue q) ∧ ∀ r, q ≠ r → s'.lists (.queue r) = s.lists (.queue r) := by
  obtain ⟨f, hf, hrun⟩ := h.running hw
  obtain ⟨g, hg, hr⟩ := waitOn_ok h q h0 hw
  refine ⟨?_, fun r hne => ?_⟩
  · rw [callSchedule_queue hg hr.ne_none hs, waitOn_queue hf hrun]
  · rw [callSchedule_queue hg hr.ne_none hs, waitOn_queue_ne hf hrun hne]

/-- the sleeping task is through its window -/
theorem sleep_window (hs : sleep s q w = some s') (hw : (s'.task u).window = true) : (s.task u).window = true := by
  obtain ⟨hwin, hne⟩ := callSchedule_window hs hw
  exact (step_window (o := .wait q) rfl hwin).resolve_right hne

theorem Runnable.sleep (h : Runnable s t) (hne : t ≠ s.current) (hs : sleep s q w = some s') : Runnable s' t := by
  have hwait : Runnable (waitOn s q) t := h.step (o := .wait q) hne rfl
  exact hwait.step (o := .schedule w) hne hs

/-- a woken task is on the run list -/
theorem wakeUp_woken {rest : List ℕ} (hq : s.lists (.queue q) = t :: rest) :
    t ∈ (wakeUp s q).lists .run ∧ ((wakeUp s q).task t).state = .runnable := by
  have hrun : wakeUp s q = ((s.del t).add t .run).setState t .runnable := by rw [wakeUp, hq]
  rw [hrun]
  refine ⟨?_, congrArg Task.state (if_pos rfl)⟩
  change t ∈ ((s.del t).add t .run).lists .run
  rw [add_same]
  exact List.mem_cons_self

end SinsOs.Sched
