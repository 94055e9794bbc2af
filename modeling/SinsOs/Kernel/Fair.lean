/-
No starvation: the time slices of kernel/sched.c bound the ticks that a task that can run waits for the CPU.

A woken task goes to the front of the run list, before the tasks that wait there for their turn. It keeps its time slice
when it sleeps, though: the tasks before t have only the ticks left that they had, until each of them is on the ready list.
When the run list is empty the ready list takes its place. Every caller of wait has turned the interrupts off, so that no tick
comes between the two parts of wait.

- `step_rank`: a step in which t does not run leaves it no further from the CPU, and a tick brings it nearer.
- `no_starvation`: a task that can run runs within 22 ticks for each of the other tasks.
-/
import SinsOs.Kernel.WaitQueue

namespace SinsOs.Sched

open SinsOs.Core

variable {s s' : Sys} {f : ℕ → Option Place} {t u q w N : ℕ} {o : Op}

/-! ## The ticks before a task -/

/-- the task has exited -/
def TaskState.Gone (x : TaskState) : Prop := x = .zombie ∨ x = .dead

instance (x : TaskState) : Decidable x.Gone := inferInstanceAs (Decidable (_ ∨ _))

/-- the ticks of a task until it is on the ready list -/
def pending (s : Sys) (u : ℕ) : ℕ := if u ∈ s.lists .ready ∨ (s.task u).state.Gone then 0 else (s.task u).timeSlice + 1

/-- the ticks of the tasks that can come before t -/
def load (s : Sys) (t : ℕ) : ℕ := ∑ u ∈ s.tasks.erase t, pending s u

/-- a task on the ready list waits for the tasks of the run list, and then for those of the ready list -/
def rank (N : ℕ) (s : Sys) (t : ℕ) : ℕ := load s t + if t ∈ s.lists .ready then (calcTimeSlice + 1) * N else 0

def Slices (s : Sys) : Prop := ∀ u, (s.task u).timeSlice ≤ calcTimeSlice

theorem pending_le (h : Slices s) (u : ℕ) : pending s u ≤ calcTimeSlice + 1 := by
  rw [pending]
  split_ifs
  · exact Nat.zero_le _
  · exact Nat.succ_le_succ (h u)

theorem load_le (h : Slices s) (ht : t ∈ s.tasks) (hcard : s.tasks.card ≤ N + 1) : load s t ≤ (calcTimeSlice + 1) * N := by
  have hothers : (s.tasks.erase t).card ≤ N := by
    rw [Finset.card_erase_of_mem ht]
    omega
  calc load s t ≤ (s.tasks.erase t).card * (calcTimeSlice + 1) := Finset.sum_le_card_nsmul _ _ _ fun u _ => pending_le h u
    _ ≤ N * (calcTimeSlice + 1) := Nat.mul_le_mul_right _ hothers
    _ = (calcTimeSlice + 1) * N := Nat.mul_comm ..

/-- no task has more ticks before t than it had -/
structure Eases (t : ℕ) (s s' : Sys) : Prop where
  fresh : ∀ u ∈ s'.tasks, u ∉ s.tasks → pending s' u = 0
  pending : ∀ u ∈ s.tasks, u ≠ t → pending s' u ≤ pending s u
  ready : t ∈ s'.lists .ready → t ∈ s.lists .ready

theorem Eases.refl (s : Sys) : Eases t s s := ⟨fun _ h hno => absurd h hno, fun _ _ _ => le_rfl, id⟩

theorem Eases.trans {s'' : Sys} (h : Eases t s s') (h' : Eases t s' s'') (htasks : s'.tasks = s.tasks) : Eases t s s'' :=
  ⟨fun u hu hno => h'.fresh u hu (htasks ▸ hno),
  fun u hu hne => (h'.pending u (htasks ▸ hu) hne).trans (h.pending u hu hne),
    fun hr => h.ready (h'.ready hr)⟩

theorem pending_mono (hready : u ∈ s.lists .ready → u ∈ s'.lists .ready)
    (hslice : (s'.task u).timeSlice ≤ (s.task u).timeSlice) (hgone : (s.task u).state.Gone → (s'.task u).state.Gone) :
    pending s' u ≤ pending s u := by
  rw [pending, pending]
  split_ifs with h1 h2 h2
  · exact le_rfl
  · exact Nat.zero_le _
  · exact absurd (h2.imp hready hgone) h1
  · exact Nat.succ_le_succ hslice

/-- the ready list is as before, and no task comes back or gets more ticks -/
theorem Eases.congr (htasks : s'.tasks ⊆ s.tasks) (hready : s'.lists .ready = s.lists .ready)
    (htask : ∀ u ∈ s.tasks, (s'.task u).timeSlice ≤ (s.task u).timeSlice ∧
      ((s.task u).state.Gone → (s'.task u).state.Gone)) : Eases t s s' := by
  refine ⟨fun u hu hno => absurd (htasks hu) hno, fun u hu _ => ?_, fun hr => hready ▸ hr⟩
  exact pending_mono (fun hr => hready ▸ hr) (htask u hu).1 (htask u hu).2

theorem Eases.load (h : Eases t s s') : load s' t ≤ load s t := by
  calc ∑ u ∈ s'.tasks.erase t, Sched.pending s' u ≤ ∑ u ∈ s.tasks.erase t, Sched.pending s' u := by
        refine Finset.sum_le_sum_of_ne_zero fun u hu hne => ?_
        obtain ⟨hut, hu⟩ := Finset.mem_erase.1 hu
        refine Finset.mem_erase.2 ⟨hut, ?_⟩
        by_contra hno
        exact hne (h.fresh u hu hno)
    _ ≤ ∑ u ∈ s.tasks.erase t, Sched.pending s u := by
        refine Finset.sum_le_sum fun u hu => ?_
        obtain ⟨hut, hu⟩ := Finset.mem_erase.1 hu
        exact h.pending u hu hut

/-- one task has fewer ticks than before -/
theorem Eases.load_lt (h : Eases t s s') (hu : u ∈ s.tasks) (hne : u ≠ t) (hlt : Sched.pending s' u < Sched.pending s u)
    (htasks : s'.tasks = s.tasks) : Sched.load s' t < Sched.load s t := by
  rw [Sched.load, Sched.load, htasks]
  refine Finset.sum_lt_sum (fun v hv => ?_) ⟨u, Finset.mem_erase.2 ⟨hne, hu⟩, hlt⟩
  obtain ⟨hvt, hv⟩ := Finset.mem_erase.1 hv
  exact h.pending v hv hvt

theorem rank_le (hload : load s' t ≤ load s t) (hready : t ∈ s'.lists .ready → t ∈ s.lists .ready) :
    rank N s' t ≤ rank N s t := by
  rw [rank, rank]
  split_ifs with h1 h2 h2
  · exact Nat.add_le_add_right hload _
  · exact absurd (hready h1) h2
  · exact hload.trans (Nat.le_add_right _ _)
  · exact hload

theorem rank_lt (hload : load s' t < load s t) (hready : t ∈ s'.lists .ready → t ∈ s.lists .ready) :
    rank N s' t < rank N s t := by
  rw [rank, rank]
  split_ifs with h1 h2 h2
  · exact Nat.add_lt_add_right hload _
  · exact absurd (hready h1) h2
  · exact hload.trans_le (Nat.le_add_right _ _)
  · exact hload

theorem Eases.rank (h : Eases t s s') : rank N s' t ≤ rank N s t := rank_le h.load h.ready

/-! ## Time slices and the parts of schedule -/

theorem wakeUp_slice (s : Sys) (q u : ℕ) : ((wakeUp s q).task u).timeSlice = (s.task u).timeSlice := by
  rw [wakeUp]
  cases s.lists (.queue q) with
  | nil => rfl
  | cons fetch rest =>
    simp only [Sys.setState, Sys.setTask, Sys.add, Sys.del]
    split_ifs with hu
    · rw [hu]
    · rfl

theorem splice_slice (s : Sys) (p r : Place) (u : ℕ) : ((s.splice p r).task u).timeSlice = (s.task u).timeSlice := by
  simp only [Sys.splice]
  split_ifs <;> rfl

theorem setTask_slices (h : Slices s) {x : Task} (hx : x.timeSlice ≤ calcTimeSlice) : Slices (s.setTask t x) := by
  intro u
  simp only [Sys.setTask]
  split_ifs
  · exact hx
  · exact h u

theorem leave_slices (h : Slices s) (w : ℕ) : Slices (leave s w) := by
  rw [leave]
  dsimp only
  split_ifs
  · exact setTask_slices h le_rfl
  · exact fun u => (wakeUp_slice _ w u).trans_le (h u)
  · exact h

theorem schedule_slices (h : Slices s) (hs : schedule s w = some s') : Slices s' := by
  obtain ⟨next, rfl⟩ := schedule_eq hs
  have hrefill : Slices (refill (leave s w)) := by
    rw [refill]
    split_ifs
    · exact fun u => (splice_slice _ .ready .run u).trans_le (leave_slices h w u)
    · exact leave_slices h w
  exact hrefill

/-- **A time slice is at most what calc_time_slice gives.** -/
theorem step_slices (h : Slices s) (hs : step s o = some s') : Slices s' := by
  cases o with
  | schedTick w =>
    simp only [step, schedTick] at hs
    have hticked : Slices (s.setTask s.current { s.task s.current with timeSlice := (s.task s.current).timeSlice - 1 }) :=
      setTask_slices h ((Nat.sub_le _ _).trans (h _))
    split_ifs at hs
    · exact schedule_slices hticked hs
    · obtain rfl := Option.some.inj hs
      exact hticked
  | schedule w =>
    have hcalled : Slices (s.setTask s.current { s.task s.current with window := false }) := setTask_slices h (h s.current)
    exact schedule_slices hcalled hs
  | wait q =>
    obtain rfl := Option.some.inj hs
    intro u
    simp only [waitOn, Sys.setState, Sys.setTask, Sys.add, Sys.del]
    split_ifs <;> exact h _
  | wakeUp q =>
    obtain rfl := Option.some.inj hs
    exact fun u => (wakeUp_slice s q u).trans_le (h u)
  | wakeUpAll q =>
    obtain rfl := Option.some.inj hs
    exact fun u => (splice_slice s _ _ u).trans_le (h u)
  | kernelThread new =>
    obtain rfl := Option.some.inj hs
    exact setTask_slices h le_rfl
  | exit w =>
    have hexited : Slices (s.setState s.current .zombie) := setTask_slices h (h s.current)
    exact schedule_slices hexited hs
  | reap t =>
    obtain rfl := Option.some.inj hs
    exact setTask_slices h (h _)

/-- the tasks of a queue have their ticks before and behind wake_up -/
theorem wakeUp_eases (hq : ∀ v ∈ s.lists (.queue q), v ∉ s.lists .ready ∧ ¬ (s.task v).state.Gone) :
    Eases t s (wakeUp s q) := by
  have hslice := wakeUp_slice s q
  rw [wakeUp] at hslice ⊢
  cases hlist : s.lists (.queue q) with
  | nil => exact .refl s
  | cons fetch rest =>
    rw [hlist] at hslice
    obtain ⟨hready, hstate⟩ := hq fetch (hlist ▸ List.mem_cons_self)
    refine .congr (Finset.Subset.refl _) ?_ fun v _ => ⟨(hslice v).le, fun hz => ?_⟩
    · change ((s.del fetch).add fetch .run).lists .ready = _
      rw [add_ne _ _ Place.noConfusion]
      exact List.erase_of_not_mem hready
    · have hne : v ≠ fetch := fun he => hstate (he ▸ hz)
      simpa [Sys.setState, Sys.setTask, Sys.add, Sys.del, hne] using hz

/-- a task that has not exited goes to the ready list, or everything stays -/
theorem leave_eases (hz : ¬ (s.task s.current).state.Gone) (ht : t ≠ s.current) : Eases t s (leave s w) := by
  rw [leave]
  dsimp only
  split_ifs with h1 h2
  · have hready : ∀ v, v ≠ s.current →
        (v ∈ (((s.setTask s.current { s.task s.current with timeSlice := calcTimeSlice }).del s.current).add s.current
          .ready).lists .ready ↔ v ∈ s.lists .ready) := fun v hv => by
      rw [add_same, List.mem_cons, or_iff_right hv]
      exact List.mem_erase_of_ne hv
    refine ⟨fun v hv hno => absurd hv hno, fun v _ _ => ?_, (hready t ht).1⟩
    by_cases hv : v = s.current
    · rw [hv, pending, if_pos (Or.inl (by rw [add_same]; exact List.mem_cons_self))]
      exact Nat.zero_le _
    · have htask : ∀ x, (s.setTask s.current x).task v = s.task v := fun x => if_neg hv
      exact pending_mono (hready v hv).2 (congrArg Task.timeSlice (htask _)).le fun hgone =>
        (congrArg (fun x => x.state.Gone) (htask _)).mpr hgone
  · exact absurd (Or.inl h2) hz
  · exact .refl s

/-- **The ready list takes the place of the empty run list**, and t is on it. -/
theorem refill_rank (h : Slices s) (ht : t ∈ s.tasks) (hcan : Runnable s t) (hcard : s.tasks.card ≤ N + 1) :
    rank N (refill s) t ≤ rank N s t := by
  rw [refill]
  split_ifs with hempty
  · have hready : t ∈ s.lists .ready := hcan.resolve_left fun hrun => by
      rw [hempty] at hrun
      exact absurd hrun List.not_mem_nil
    have hslices : Slices (s.splice .ready .run) := fun u => (splice_slice s _ _ u).trans_le (h u)
    have hgone : t ∉ (s.splice .ready .run).lists .ready := by
      simp only [Sys.splice, if_true]
      exact List.not_mem_nil
    rw [rank, rank, if_pos hready, if_neg hgone]
    exact (load_le hslices ht hcard).trans (Nat.le_add_left _ _)
  · exact le_rfl

theorem leave_tasks (s : Sys) (w : ℕ) : (leave s w).tasks = s.tasks := by
  rw [leave]
  dsimp only
  split_ifs
  · rfl
  · rw [wakeUp]
    split <;> rfl
  · rfl

theorem schedule_tasks (hs : schedule s w = some s') : s'.tasks = s.tasks := by
  obtain ⟨next, rfl⟩ := schedule_eq hs
  have hrefill : (refill (leave s w)).tasks = s.tasks := by
    rw [refill]
    split_ifs
    · exact leave_tasks s w
    · exact leave_tasks s w
  exact hrefill

theorem leave_ready (h0 : (s.task s.current).timeSlice = 0) (hrun : (s.task s.current).state = .runnable) :
    s.current ∈ (leave s w).lists .ready := by
  rw [leave]
  dsimp only
  rw [if_pos ⟨h0, hrun⟩, add_same]
  exact List.mem_cons_self

theorem schedule_rank (h : Slices s) (ht : t ∈ s.tasks) (hcan : Runnable s t) (hne : t ≠ s.current)
    (hcard : s.tasks.card ≤ N + 1) (hs : schedule s w = some s') : rank N s' t ≤ rank N (leave s w) t := by
  obtain ⟨next, rfl⟩ := schedule_eq hs
  have htasks := leave_tasks s w
  exact refill_rank (leave_slices h w) (htasks ▸ ht) (hcan.leave hne w) (htasks ▸ hcard)

/-! ## One step -/

theorem SchedOk.live (h : SchedOk s) (ht : Runnable s t) : t ∈ s.tasks := by
  obtain ⟨f, hf, -⟩ := h
  rcases ht with hrun | hready
  · exact hf.live t _ ((hf.mem _ t).1 hrun)
  · exact hf.live t _ ((hf.mem _ t).1 hready)

/-- what the steps below use of a state -/
structure Waits (N : ℕ) (s : Sys) (t : ℕ) : Prop where
  ok : SchedOk s
  slices : Slices s
  can : Runnable s t
  card : s.tasks.card ≤ N + 1
  ne : t ≠ s.current

theorem Waits.live (h : Waits N s t) : t ∈ s.tasks := h.ok.live h.can

theorem Placed.not_gone (h : Placed s f) {p : Place} (hu : f u = some p) : ¬ (s.task u).state.Gone := by
  rw [h.state u (h.live u p hu), hu]
  rintro (hz | hd)
  · cases p <;> cases hz
  · cases p <;> cases hd

theorem Placed.queued (h : Placed s f) : ∀ v ∈ s.lists (.queue q), v ∉ s.lists .ready ∧ ¬ (s.task v).state.Gone := by
  intro v hv
  have hf := (h.mem _ v).1 hv
  refine ⟨fun hready => ?_, h.not_gone hf⟩
  exact Place.noConfusion (Option.some.inj (hf.symm.trans ((h.mem _ v).1 hready)))

theorem SchedOk.not_gone (h : SchedOk s) : ¬ (s.task s.current).state.Gone := by
  obtain ⟨f, hf, hrun | ⟨-, q, hq⟩⟩ := h
  · exact hf.not_gone hrun
  · exact hf.not_gone hq

/-- **A tick** -/
theorem tick_rank (h : Waits N s t) (hs : schedTick s w = some s') :
    rank N s' t ≤ rank N s t ∧ ((s.task s.current).window = false → rank N s' t < rank N s t) := by
  rw [schedTick] at hs
  set s1 := s.setTask s.current { s.task s.current with timeSlice := (s.task s.current).timeSlice - 1 } with hs1
  have hself : s1.task s.current = { s.task s.current with timeSlice := (s.task s.current).timeSlice - 1 } := if_pos rfl
  have hticked : Eases t s s1 := by
    refine .congr (Finset.Subset.refl _) rfl fun v _ => ?_
    by_cases hv : v = s.current
    · rw [hv, hself]
      exact ⟨Nat.sub_le _ _, id⟩
    · have htask : s1.task v = s.task v := if_neg hv
      rw [htask]
      exact ⟨le_rfl, id⟩
  have hslices : Slices s1 := setTask_slices h.slices ((Nat.sub_le _ _).trans (h.slices _))
  -- outside of its window the running task is on the run list
  have hpos : (s.task s.current).window = false →
      s.current ∈ s.tasks ∧ pending s s.current = (s.task s.current).timeSlice + 1 ∧
      (s.task s.current).state = .runnable := by
    intro hwin
    obtain ⟨f, hf, hrun⟩ := h.ok.running hwin
    have hlive := hf.live _ _ hrun
    refine ⟨hlive, if_neg ?_, (hf.state _ hlive).trans (by rw [hrun]; rfl)⟩
    rintro (hready | hgone)
    · exact Place.noConfusion (Option.some.inj (hrun.symm.trans ((hf.mem _ _).1 hready)))
    · exact hf.not_gone hrun hgone
  split_ifs at hs with hzero
  · have hleave : Eases t s1 (leave s1 w) :=
      leave_eases (by rw [show s1.current = s.current from rfl, hself]; exact h.ok.not_gone) h.ne
    have heases := hticked.trans hleave rfl
    have hrank := schedule_rank hslices h.live h.can h.ne h.card hs
    refine ⟨hrank.trans heases.rank, fun hwin => hrank.trans_lt (rank_lt ?_ heases.ready)⟩
    obtain ⟨hlive, hpend, hstate⟩ := hpos hwin
    refine heases.load_lt hlive h.ne.symm ?_ (leave_tasks s1 w)
    have hmoved : s.current ∈ (leave s1 w).lists .ready :=
      leave_ready hzero (by rw [show s1.current = s.current from rfl, hself]; exact hstate)
    rw [hpend, pending, if_pos (Or.inl hmoved)]
    exact Nat.succ_pos _
  · obtain rfl := Option.some.inj hs
    refine ⟨hticked.rank, fun hwin => rank_lt ?_ hticked.ready⟩
    obtain ⟨hlive, hpend, -⟩ := hpos hwin
    refine hticked.load_lt hlive h.ne.symm ?_ rfl
    rw [hself] at hzero
    dsimp only at hzero
    rw [hpend, pending, hself]
    split_ifs
    · exact Nat.succ_pos _
    · dsimp only
      omega

theorem exit_rank (h : Waits N s t) (hwin : (s.task s.current).window = false)
    (hs : sysExit s w = some s') : rank N s' t ≤ rank N s t := by
  obtain ⟨f, hf, hrun⟩ := h.ok.running hwin
  set s1 := s.setState s.current .zombie with hs1
  have hself : (s1.task s.current).state = .zombie := congrArg Task.state (if_pos rfl)
  have hother : ∀ v, v ≠ s.current → s1.task v = s.task v := fun v hv => if_neg hv
  have hready : (s1.del s.current).lists .ready = s.lists .ready := List.erase_of_not_mem fun hin =>
    Place.noConfusion (Option.some.inj (hrun.symm.trans ((hf.mem _ _).1 hin)))
  have hleave : leave s1 w = wakeUp (s1.del s.current) w := by
    rw [leave]
    dsimp only
    rw [if_neg (by rw [show s1.current = s.current from rfl, hself]; exact fun he => TaskState.noConfusion he.2),
      if_pos (by rw [show s1.current = s.current from rfl, hself])]
    rfl
  have hdead : Eases t s (s1.del s.current) := by
    refine .congr (Finset.Subset.refl _) hready fun v _ => ?_
    by_cases hv : v = s.current
    · rw [hv]
      have htask : (s1.del s.current).task s.current = { s.task s.current with state := .zombie } := if_pos rfl
      rw [htask]
      exact ⟨le_rfl, fun _ => Or.inl rfl⟩
    · have htask : (s1.del s.current).task v = s.task v := hother v hv
      rw [htask]
      exact ⟨le_rfl, id⟩
  have hwoken : Eases t (s1.del s.current) (wakeUp (s1.del s.current) w) := by
    refine wakeUp_eases fun v hv => ?_
    have hv' : v ∈ s.lists (.queue w) := List.mem_of_mem_erase hv
    have hne : v ≠ s.current := fun he =>
      Place.noConfusion (Option.some.inj (hrun.symm.trans ((hf.mem _ _).1 (he ▸ hv'))))
    rw [hready, show (s1.del s.current).task v = s.task v from hother v hne]
    exact hf.queued v hv'
  have hslices : Slices s1 := setTask_slices h.slices (h.slices s.current)
  refine (schedule_rank hslices h.live h.can h.ne h.card hs).trans ?_
  rw [hleave]
  exact (hdead.trans hwoken rfl).rank

/-- **A step in which t does not run leaves it no further from the CPU, and a tick brings it nearer.** -/
theorem step_rank (h : Waits N s t) (hl : legal s o) (hs : step s o = some s') :
    rank N s' t ≤ rank N s t ∧ ∀ w, o = .schedTick w → (s.task s.current).window = false →
    rank N s' t < rank N s t := by
  obtain ⟨f, hf, hr⟩ := h.ok
  cases o with
  | schedTick w =>
    obtain ⟨hle, hlt⟩ := tick_rank h hs
    exact ⟨hle, fun _ _ => hlt⟩
  | schedule w =>
    refine ⟨?_, fun _ he => Op.noConfusion he⟩
    set s1 := s.setTask s.current { s.task s.current with window := false } with hs1
    have htask : ∀ v, (s1.task v).timeSlice = (s.task v).timeSlice ∧ (s1.task v).state = (s.task v).state := fun v => by
      simp only [hs1, Sys.setTask]
      split_ifs with hv
      · rw [hv]
        exact ⟨rfl, rfl⟩
      · exact ⟨rfl, rfl⟩
    have hslices : Slices s1 := fun v => (htask v).1.trans_le (h.slices v)
    have hcalled : Eases t s s1 :=
      .congr (Finset.Subset.refl _) rfl fun v _ => ⟨(htask v).1.le, fun hgone => (htask v).2 ▸ hgone⟩
    have hleave : Eases t s1 (leave s1 w) := leave_eases ((htask s.current).2 ▸ h.ok.not_gone) h.ne
    exact (schedule_rank hslices h.live h.can h.ne h.card hs).trans (hcalled.trans hleave rfl).rank
  | wait q =>
    refine ⟨?_, fun _ he => Op.noConfusion he⟩
    obtain ⟨f, hf, hrun⟩ := h.ok.running hl.2
    obtain rfl := Option.some.inj hs
    refine Eases.rank (.congr (Finset.Subset.refl s.tasks) ?_ fun v _ => ?_)
    · have hout : s.current ∉ s.lists .ready := fun hin =>
        Place.noConfusion (Option.some.inj (hrun.symm.trans ((hf.mem _ _).1 hin)))
      change ((s.del s.current).add s.current (.queue q)).lists .ready = _
      rw [add_ne _ _ Place.noConfusion]
      exact List.erase_of_not_mem hout
    · by_cases hv : v = s.current
      · rw [hv]
        refine ⟨?_, fun hgone => absurd hgone (hf.not_gone hrun)⟩
        simp only [waitOn, Sys.setState, Sys.setTask, Sys.add, Sys.del, if_true, le_rfl]
      · have htask : (waitOn s q).task v = s.task v := by
          simp only [waitOn, Sys.setState, Sys.setTask, Sys.add, Sys.del, if_neg hv]
        rw [htask]
        exact ⟨le_rfl, id⟩
  | wakeUp q =>
    obtain rfl := Option.some.inj hs
    exact ⟨(wakeUp_eases hf.queued).rank, fun _ he => Op.noConfusion he⟩
  | wakeUpAll q =>
    refine ⟨?_, fun _ he => Op.noConfusion he⟩
    obtain rfl := Option.some.inj hs
    refine Eases.rank (.congr (Finset.Subset.refl s.tasks) ?_ fun v _ => ⟨(splice_slice s _ _ v).le, fun hgone => ?_⟩)
    · simp only [wakeUpAll, Sys.splice]
      rw [if_neg Place.noConfusion, if_neg Place.noConfusion]
    · simp only [wakeUpAll, Sys.splice]
      rw [if_neg fun hin => (hf.queued v hin).2 hgone]
      exact hgone
  | kernelThread new =>
    refine ⟨?_, fun _ he => Op.noConfusion he⟩
    obtain rfl := Option.some.inj hs
    have hne : ∀ v ∈ s.tasks, v ≠ new := fun v hv he => hl.2 (he ▸ hv)
    have hready : ∀ v ∈ s.tasks, v ∈ (kernelThread s new).lists .ready → v ∈ s.lists .ready := fun v hv hin =>
      (List.mem_cons.1 hin).resolve_left (hne v hv)
    refine Eases.rank ⟨fun v hv hno => ?_, fun v hv _ => ?_, hready t h.live⟩
    · obtain rfl : v = new := (Finset.mem_insert.1 hv).resolve_right hno
      exact if_pos (Or.inl List.mem_cons_self)
    · have htask : (kernelThread s new).task v = s.task v := if_neg (hne v hv)
      exact pending_mono (fun hin => List.mem_cons_of_mem _ hin) (congrArg Task.timeSlice htask).le fun hgone =>
        (congrArg (fun x => x.state.Gone) htask).mpr hgone
  | exit w => exact ⟨exit_rank h hl.2 hs, fun _ he => Op.noConfusion he⟩
  | reap u =>
    refine ⟨?_, fun _ he => Op.noConfusion he⟩
    obtain rfl := Option.some.inj hs
    refine Eases.rank (.congr (Finset.erase_subset _ _) rfl fun v _ => ?_)
    by_cases hv : v = u
    · rw [hv]
      have hself : (reap s u).task u = { s.task u with state := .dead } := if_pos rfl
      rw [hself]
      exact ⟨le_rfl, fun _ => Or.inr rfl⟩
    · have htask : (reap s u).task v = s.task v := if_neg hv
      rw [htask]
      exact ⟨le_rfl, id⟩

/-! ## Every run -/

def Op.IsTick : Op → Bool
  | .schedTick _ => true
  | _ => false

/-- at most N + 1 tasks, and no tick between the two parts of wait -/
def Timely (N : ℕ) (s : Sys) (o : Op) : Prop :=
  s.tasks.card ≤ N + 1 ∧ (o.IsTick = true → (s.task s.current).window = false)

theorem boot_slices : Slices boot := fun _ => le_rfl

theorem slices_reachable (h : system.Reach s) : Slices s :=
  Lts.Reach.inv (M := system) (P := Slices) (fun _ h0 => h0 ▸ boot_slices) (fun _ _ _ hi hst => step_slices hi hst.2) h

theorem step_okay (h : SchedOk s) (hl : legal s o) (hs : step s o = some s') : SchedOk s' := by
  obtain ⟨s'', hs', hok⟩ := step_ok h hl
  rw [hs] at hs'
  exact Option.some.inj hs' ▸ hok

theorem ok_reachable (h : system.Reach s) : SchedOk s :=
  Lts.Reach.inv (M := system) (P := SchedOk) (fun _ h0 => h0 ▸ boot_ok) (fun _ _ _ hi hst => step_okay hi hst.1 hst.2) h

/-- t can run, and its rank is at most n -/
structure Behind (N t : ℕ) (s : Sys) (n : ℕ) : Prop where
  ok : SchedOk s
  slices : Slices s
  can : Runnable s t
  rank : s.tasks.card ≤ N + 1 → rank N s t ≤ n

theorem Behind.step {n : ℕ} (h : Behind N t s n) (ht : Timely N s o) (hne : t ≠ s.current) (hl : legal s o)
    (hs : step s o = some s') :
    Behind N t s' n ∧ (o.IsTick = true → ∃ m < n, Behind N t s' m) := by
  obtain ⟨hcard, hwin⟩ := ht
  obtain ⟨hle, hlt⟩ := step_rank ⟨h.ok, h.slices, h.can, hcard, hne⟩ hl hs
  have hrest : ∀ {m}, Sched.rank N s' t ≤ m → Behind N t s' m := fun hm =>
    ⟨step_okay h.ok hl hs, step_slices h.slices hs, h.can.step hne hs, fun _ => hm⟩
  refine ⟨hrest (hle.trans (h.rank hcard)), fun htick => ⟨Sched.rank N s' t, ?_, hrest le_rfl⟩⟩
  cases o with
  | schedTick w => exact (hlt w rfl (hwin rfl)).trans_le (h.rank hcard)
  | _ => cases htick

theorem behind_start (h : system.Reach s) (ht : Runnable s t) (N : ℕ) : Behind N t s (22 * N) := by
  refine ⟨ok_reachable h, slices_reachable h, ht, fun hcard => ?_⟩
  have hload := load_le (slices_reachable h) ((ok_reachable h).live ht) hcard
  rw [rank]
  unfold calcTimeSlice at *
  split_ifs <;> omega

/-- **No task starves.** In any interleaving in which there are never more than N + 1 tasks, a task that can run (it is on the
run list or on the ready list) runs before 22 * N + 1 ticks have come: N times the ticks of a time slice and one, for the run
list and again for the ready list. Tasks may come and go, sleep and be woken in between as they like. -/
theorem no_starvation (h : system.Reach s) (ht : Runnable s t) {ops : List Op} (hrun : (system.only (Timely N)).Run s ops s')
    (hlen : 22 * N < (ops.filter Op.IsTick).length) : ∃ before after u, ops = before ++ after ∧
      (system.only (Timely N)).Run s before u ∧ u.current = t := by
  by_contra hno
  have hwaits : ((system.only (Timely N)).only fun s _ => t ≠ s.current).Run s ops s' := by
    refine hrun.only fun before e after u hops hbefore he => hno ⟨before, e :: after, u, hops, hbefore, he.symm⟩
  obtain ⟨m, -, hle⟩ := Lts.Run.ranked Op.IsTick (Behind N t) (fun u o u' n hst _ hb => by
      obtain ⟨hne, htimely, hl, hs⟩ := hst
      exact (hb.step htimely hne hl hs).1) (fun u o u' n hst hown hb => by
      obtain ⟨hne, htimely, hl, hs⟩ := hst
      exact (hb.step htimely hne hl hs).2 hown) hwaits (behind_start h ht N)
  omega

theorem tick_frame (hs : schedTick s w = some s') : s'.tasks = s.tasks ∧ ∀ u, (s'.task u).window = (s.task u).window := by
  rw [schedTick] at hs
  have hticked : ∀ u, ((s.setTask s.current
      { s.task s.current with timeSlice := (s.task s.current).timeSlice - 1 }).task u).window = (s.task u).window := by
    intro u
    simp only [Sys.setTask]
    split_ifs with hu
    · rw [hu]
    · rfl
  split_ifs at hs
  · have htasks := schedule_tasks hs
    exact ⟨htasks, fun u => (schedule_window hs u).trans (hticked u)⟩
  · obtain rfl := Option.some.inj hs
    exact ⟨rfl, hticked⟩

/-- nothing but ticks -/
theorem ticks_run (n : ℕ) (h : SchedOk s) (hcard : s.tasks.card ≤ N + 1) (hwin : ∀ u, (s.task u).window = false) :
    ∃ s', (system.only (Timely N)).Run s (List.replicate n (.schedTick 0)) s' := by
  induction n generalizing s with
  | zero => exact ⟨s, .nil s⟩
  | succ n ih =>
    obtain ⟨s1, hs, hok⟩ := schedTick_ok h 0
    obtain ⟨htasks, hwindow⟩ := tick_frame hs
    obtain ⟨s', hrun⟩ := ih hok (htasks ▸ hcard) fun u => (hwindow u).trans (hwin u)
    exact ⟨s', .cons ⟨⟨hcard, fun _ => hwin _⟩, trivial, hs⟩ hrun⟩

/-- a new thread beside idle, within 23 ticks -/
theorem thread_runs : ∃ before u, before <+: List.replicate 23 (Op.schedTick 0) ∧
    system.Run (kernelThread boot 5) before u ∧ u.current = 5 := by
  have hreach : system.Reach (kernelThread boot 5) := .step (e := .kernelThread 5) (.start rfl) ⟨⟨rfl, by decide⟩, rfl⟩
  have hwin : ∀ u, ((kernelThread boot 5).task u).window = false := fun u => by
    simp only [kernelThread, Sys.add, Sys.setTask, boot]
    split_ifs <;> rfl
  obtain ⟨s', hrun⟩ := ticks_run (N := 1) 23 (ok_reachable hreach) (by decide) hwin
  obtain ⟨before, after, u, hops, hbefore, hu⟩ := no_starvation (t := 5) hreach (Or.inr (by decide)) hrun (by decide)
  exact ⟨before, u, ⟨after, hops.symm⟩, hbefore.of_only, hu⟩

end SinsOs.Sched
