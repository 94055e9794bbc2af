/-
The scheduler's lists: schedule, sched_tick, wait, wake_up, wake_up_all, kernel_thread (kernel/sched.c) and the end of
sys_exit (kernel/exit.c).

One run_list node for each task, on the run list, the ready list or a wait queue. An operation is one step where interrupts
are off. wait is two: it puts the task on a queue, and schedule follows; in between (the task's window) the interrupts of
other steps come. A failed BUG_ON is `none`. Task 0 is idle.

- `lists_reachable`: in any interleaving, every task that has not exited is on exactly one list, it is in TASK_WAIT exactly
  on a wait queue, a zombie is on none, schedule chooses a task of the run list and never finds it empty.
-/
import SinsOs.Core.Lts

namespace SinsOs.Sched

open SinsOs.Core

/-! ## Model -/

inductive TaskState
  | runnable
  | wait
  | zombie
  | dead
deriving DecidableEq, Repr

/-- `window`: between the two parts of wait -/
structure Task where
  state : TaskState
  timeSlice : ℕ
  window : Bool
deriving DecidableEq, Repr

/-- a list that a run_list node can be on -/
inductive Place
  | run
  | ready
  | queue (q : ℕ)
deriving DecidableEq, Repr

structure Sys where
  tasks : Finset ℕ
  task : ℕ → Task
  current : ℕ
  lists : Place → List ℕ

namespace Sys

variable (s : Sys)

def setTask (t : ℕ) (x : Task) : Sys := { s with task := fun u => if u = t then x else s.task u }

def setState (t : ℕ) (x : TaskState) : Sys := s.setTask t { s.task t with state := x }

/-- `list_add` -/
def add (t : ℕ) (p : Place) : Sys := { s with lists := fun r => if r = p then t :: s.lists r else s.lists r }

/-- `list_del`, from the list that the node is on -/
def del (t : ℕ) : Sys := { s with lists := fun r => (s.lists r).erase t }

/-- `list_splice_init`, and what the loop over the spliced nodes sets -/
def splice (p r : Place) : Sys where
  tasks := s.tasks
  task := fun t => if t ∈ s.lists p then { s.task t with state := .runnable } else s.task t
  current := s.current
  lists := fun k => if k = p then [] else if k = r then s.lists p ++ s.lists r else s.lists k

end Sys

def calcTimeSlice : ℕ := 10

def wakeUp (s : Sys) (q : ℕ) : Sys :=
  match s.lists (.queue q) with
  | [] => s
  | fetch :: _ => ((s.del fetch).add fetch .run).setState fetch .runnable

def wakeUpAll (s : Sys) (q : ℕ) : Sys := s.splice (.queue q) .run

/-- the first part of schedule; `waitExit` is the queue of the parent -/
def leave (s : Sys) (waitExit : ℕ) : Sys :=
  let c := s.current
  if (s.task c).timeSlice = 0 ∧ (s.task c).state = .runnable then
    ((s.setTask c { s.task c with timeSlice := calcTimeSlice }).del c).add c .ready
  else if (s.task c).state = .zombie then wakeUp (s.del c) waitExit
  else s

/-- the lists are swapped when the run list is empty -/
def refill (s : Sys) : Sys := if s.lists .run = [] then s.splice .ready .run else s

def schedule (s : Sys) (waitExit : ℕ) : Option Sys :=
  let s := refill (leave s waitExit)
  match s.lists .run with
  | [] => none
  | next :: _ => some { s with current := next }

def schedTick (s : Sys) (waitExit : ℕ) : Option Sys :=
  let c := s.current
  let s := s.setTask c { s.task c with timeSlice := (s.task c).timeSlice - 1 }
  if (s.task c).timeSlice = 0 then schedule s waitExit else some s

/-- wait up to schedule -/
def waitOn (s : Sys) (q : ℕ) : Sys :=
  let c := s.current
  let s := ((s.del c).add c (.queue q)).setState c .wait
  s.setTask c { s.task c with window := true }

/-- schedule as a task calls it, at the end of wait or by itself -/
def callSchedule (s : Sys) (waitExit : ℕ) : Option Sys :=
  schedule (s.setTask s.current { s.task s.current with window := false }) waitExit

/-- `new` is the page of the new task_struct -/
def kernelThread (s : Sys) (new : ℕ) : Sys :=
  { s.setTask new ⟨.runnable, calcTimeSlice, false⟩ with tasks := insert new s.tasks }.add new .ready

/-- the end of sys_exit -/
def sysExit (s : Sys) (waitExit : ℕ) : Option Sys := schedule (s.setState s.current .zombie) waitExit

/-- the parent's wait: the zombie is dead and its page is free -/
def reap (s : Sys) (t : ℕ) : Sys := { s.setState t .dead with tasks := s.tasks.erase t }

/-- the steps; `waitExit` is the wait_exit queue of the parent of the task that runs -/
inductive Op
  | schedTick (waitExit : ℕ)
  | schedule (waitExit : ℕ)
  | wait (q : ℕ)
  | wakeUp (q : ℕ)
  | wakeUpAll (q : ℕ)
  | kernelThread (new : ℕ)
  | exit (waitExit : ℕ)
  | reap (t : ℕ)
deriving DecidableEq, Repr

/-- idle never waits or exits; in its window a task only goes on to schedule, while interrupts tick and wake up -/
def legal (s : Sys) : Op → Prop
  | .schedTick _ | .schedule _ | .wakeUp _ | .wakeUpAll _ => True
  | .wait _ | .exit _ => s.current ≠ 0 ∧ (s.task s.current).window = false
  | .kernelThread new => (s.task s.current).window = false ∧ new ∉ s.tasks
  | .reap t => t ∈ s.tasks ∧ (s.task t).state = .zombie

instance (s : Sys) (o : Op) : Decidable (legal s o) :=
  match o with
  | .schedTick _ | .schedule _ | .wakeUp _ | .wakeUpAll _ => isTrue trivial
  | .wait _ | .exit _ | .kernelThread _ | .reap _ => inferInstanceAs (Decidable (_ ∧ _))

def step (s : Sys) : Op → Option Sys
  | .schedTick w => schedTick s w
  | .schedule w => callSchedule s w
  | .wait q => some (waitOn s q)
  | .wakeUp q => some (wakeUp s q)
  | .wakeUpAll q => some (wakeUpAll s q)
  | .kernelThread new => some (kernelThread s new)
  | .exit w => sysExit s w
  | .reap t => some (reap s t)

/-- the state that sched_init leaves -/
def boot : Sys where
  tasks := {0}
  task := fun _ => ⟨.runnable, calcTimeSlice, false⟩
  current := 0
  lists := fun p => if p = .run then [0] else []

def system : Lts Sys Op where
  start := fun s => s = boot
  step := fun s o s' => legal s o ∧ step s o = some s'

/-! ## Where the nodes are -/

/-- the state of a task whose node is there -/
def stateAt : Option Place → TaskState
  | some (.queue _) => .wait
  | some _ => .runnable
  | none => .zombie

/-- the lists hold the nodes where f says, and the states go with it -/
structure Placed (s : Sys) (f : ℕ → Option Place) : Prop where
  nodup : ∀ p, (s.lists p).Nodup
  mem : ∀ p t, t ∈ s.lists p ↔ f t = some p
  live : ∀ t p, f t = some p → t ∈ s.tasks
  state : ∀ t ∈ s.tasks, (s.task t).state = stateAt (f t)
  idle : f 0 = some .run ∨ f 0 = some .ready

/-- the running task is on the run list, or on a queue in its window -/
def Runs (s : Sys) (f : ℕ → Option Place) : Prop :=
  f s.current = some .run ∨ (s.task s.current).window = true ∧ ∃ q, f s.current = some (.queue q)

/-- **The invariant.** -/
def SchedOk (s : Sys) : Prop := ∃ f, Placed s f ∧ Runs s f

variable {s s' : Sys} {f : ℕ → Option Place} {t u q w : ℕ} {p r : Place}

/-- one node is put elsewhere -/
def moved (f : ℕ → Option Place) (t : ℕ) (o : Option Place) : ℕ → Option Place := fun u => if u = t then o else f u

theorem moved_self (o : Option Place) : moved f t o t = o := if_pos rfl

theorem moved_ne (o : Option Place) (h : u ≠ t) : moved f t o u = f u := if_neg h

/-- one node is put elsewhere, and its task gets the state that goes with it -/
theorem Placed.moved (h : Placed s f) (o : Option Place) (ht : t ∈ s.tasks) (hnd : ∀ p, (s'.lists p).Nodup)
    (hmem : ∀ p u, u ∈ s'.lists p ↔ if u = t then o = some p else f u = some p) (htasks : s'.tasks = s.tasks)
    (hstate : ∀ u, (s'.task u).state = if u = t then stateAt o else (s.task u).state)
    (hidle : t = 0 → o = some .run ∨ o = some .ready) : Placed s' (moved f t o) := by
  refine ⟨hnd, fun p u => ?_, fun u p hu => ?_, fun u hu => ?_, ?_⟩
  · rw [hmem, Sched.moved]
    split_ifs <;> rfl
  · rw [htasks]
    by_cases hut : u = t
    · rw [hut]; exact ht
    · rw [moved_ne o hut] at hu
      exact h.live u p hu
  · rw [htasks] at hu
    rw [hstate, Sched.moved]
    split_ifs
    · rfl
    · exact h.state u hu
  · by_cases h0 : 0 = t
    · rw [← h0, moved_self]; exact hidle h0.symm
    · rw [moved_ne o h0]; exact h.idle

theorem mem_del (h : Placed s f) : u ∈ (s.del t).lists p ↔ u ≠ t ∧ f u = some p := by
  rw [← h.mem p u]
  exact (h.nodup p).mem_erase_iff

theorem del_nodup (h : Placed s f) (p : Place) : ((s.del t).lists p).Nodup := (h.nodup p).erase t

/-- `list_del` and `list_add` of one node -/
theorem mem_del_add (h : Placed s f) : u ∈ ((s.del t).add t r).lists p ↔ if u = t then some r = some p else f u = some p := by
  simp only [Sys.add]
  by_cases hp : p = r
  · rw [if_pos hp, List.mem_cons, mem_del h, hp]
    by_cases hut : u = t
    · simp [hut]
    · simp [hut]
  · rw [if_neg hp, mem_del h]
    by_cases hut : u = t
    · simp [hut, Ne.symm hp]
    · simp [hut]

theorem del_add_nodup (h : Placed s f) (p : Place) : (((s.del t).add t r).lists p).Nodup := by
  simp only [Sys.add]
  split_ifs
  · refine List.nodup_cons.2 ⟨fun ht => ?_, del_nodup h p⟩
    exact ((mem_del h).1 ht).1 rfl
  · exact del_nodup h p

theorem Placed.congr (h : Placed s f) (hl : s'.lists = s.lists) (ht : s'.tasks = s.tasks)
    (hs : ∀ u, (s'.task u).state = (s.task u).state) : Placed s' f :=
  ⟨fun p => by rw [hl]; exact h.nodup p, fun p u => by rw [hl]; exact h.mem p u, fun u p hu => by rw [ht]; exact h.live u p hu,
    fun u hu => by rw [hs]; exact h.state u (ht ▸ hu), h.idle⟩

/-! ## Waking up and taking the ready list -/

/-- the nodes of one list go to the run list -/
def spliced (f : ℕ → Option Place) (p : Place) : ℕ → Option Place := fun u => if f u = some p then some .run else f u

theorem splice_ok (h : Placed s f) (hp : p ≠ .run) : Placed (s.splice p .run) (spliced f p) := by
  have hpr : Place.run ≠ p := Ne.symm hp
  refine ⟨fun r => ?_, fun r u => ?_, fun u r hu => ?_, fun u hu => ?_, ?_⟩
  · simp only [Sys.splice]
    split_ifs
    · exact List.nodup_nil
    · refine List.nodup_append'.2 ⟨h.nodup p, h.nodup .run, fun u h1 h2 => ?_⟩
      exact hp (Option.some.inj (((h.mem p u).1 h1).symm.trans ((h.mem .run u).1 h2)))
    · exact h.nodup r
  · simp only [Sys.splice, spliced]
    by_cases hu : f u = some p
    · rw [if_pos hu]
      split_ifs with h1 h2
      · simp [h1, hpr]
      · rw [List.mem_append, h.mem p u, h2]; simp [hu]
      · rw [h.mem r u, hu]; simp [Ne.symm h1, Ne.symm h2]
    · rw [if_neg hu]
      split_ifs with h1 h2
      · rw [h1]; simp [hu]
      · rw [List.mem_append, h.mem p u, h2, h.mem]; simp [hu]
      · rw [h.mem r u]
  · simp only [spliced] at hu
    split_ifs at hu with hup
    · exact h.live u p hup
    · exact h.live u r hu
  · simp only [Sys.splice, spliced, h.mem p u]
    split_ifs
    · rfl
    · exact h.state u hu
  · simp only [spliced]
    split_ifs
    · exact .inl rfl
    · exact h.idle

/-- a node stays, or goes to the run list -/
def Woken (f g : ℕ → Option Place) : Prop := ∀ u, g u = f u ∨ g u = some .run

theorem woken_spliced : Woken f (spliced f p) := fun u => by
  rw [spliced]
  split_ifs
  · exact .inr rfl
  · exact .inl rfl

theorem wakeUp_ok (h : Placed s f) (q : ℕ) : ∃ g, Placed (wakeUp s q) g ∧ Woken f g := by
  rw [wakeUp]
  cases hq : s.lists (.queue q) with
  | nil => exact ⟨f, h, fun u => .inl rfl⟩
  | cons fetch rest =>
    have hf : f fetch = some (.queue q) := (h.mem _ fetch).1 (by rw [hq]; exact List.mem_cons_self)
    refine ⟨moved f fetch (some .run), ?_, fun u => ?_⟩
    · refine h.moved (some .run) (h.live _ _ hf) (fun p => del_add_nodup h p) (fun p u => mem_del_add h) rfl (fun u => ?_)
        fun _ => .inl rfl
      simp only [Sys.setState, Sys.setTask]
      split_ifs <;> rfl
    · by_cases hu : u = fetch
      · rw [hu, moved_self]; exact .inr rfl
      · rw [moved_ne _ hu]; exact .inl rfl

/-- the running task still runs when others are woken -/
theorem Runs.woken {g : ℕ → Option Place} (h : Runs s f) (hw : Woken f g) (hc : s'.current = s.current)
    (hwin : (s'.task s.current).window = (s.task s.current).window) : Runs s' g := by
  rw [Runs, hc, hwin]
  rcases hw s.current with he | he
  · rw [he]; exact h
  · exact .inl he

theorem wakeUp_window (s : Sys) (q u : ℕ) : ((wakeUp s q).task u).window = (s.task u).window := by
  rw [wakeUp]
  cases s.lists (.queue q) with
  | nil => rfl
  | cons fetch rest =>
    simp only [Sys.setState, Sys.setTask, Sys.add, Sys.del]
    split_ifs with hu
    · rw [hu]
    · rfl

theorem wakeUp_current (s : Sys) (q : ℕ) : (wakeUp s q).current = s.current := by
  rw [wakeUp]
  cases s.lists (.queue q) <;> rfl

/-! ## schedule -/

/-- the second part of schedule: the run list is not empty, as idle is on it or on the ready list -/
theorem pick_ok (h : Placed s f) : ∃ next rest, (refill s).lists .run = next :: rest ∧
    SchedOk { refill s with current := next } := by
  have hready : Place.ready ≠ .run := fun he => nomatch he
  obtain ⟨g, hg, hne⟩ : ∃ g, Placed (refill s) g ∧ (refill s).lists .run ≠ [] := by
    rw [refill]
    split_ifs with he
    · refine ⟨_, splice_ok h hready, fun hnil => ?_⟩
      have h0 : (0 : ℕ) ∈ (s.splice .ready .run).lists .run := by
        refine ((splice_ok h hready).mem .run 0).2 ?_
        rcases h.idle with h0 | h0
        · have hin := (h.mem .run 0).2 h0
          rw [he] at hin
          exact absurd hin List.not_mem_nil
        · exact if_pos h0
      rw [hnil] at h0
      exact absurd h0 List.not_mem_nil
    · exact ⟨f, h, he⟩
  obtain ⟨next, rest, hrun⟩ := List.exists_cons_of_ne_nil hne
  have hnext : g next = some .run := (hg.mem .run next).1 (by rw [hrun]; exact List.mem_cons_self)
  exact ⟨next, rest, hrun, g, hg.congr rfl rfl fun _ => rfl, .inl hnext⟩

theorem schedule_of_leave (h : Placed (leave s w) f) : ∃ s', schedule s w = some s' ∧ SchedOk s' := by
  obtain ⟨next, rest, hrun, hok⟩ := pick_ok h
  refine ⟨_, ?_, hok⟩
  simp only [schedule, hrun]

/-- a task that has not exited goes to the ready list or stays -/
theorem leave_ok (h : Placed s f) (hr : f s.current ≠ none) : ∃ g, Placed (leave s w) g := by
  obtain ⟨p, hp⟩ := Option.ne_none_iff_exists'.1 hr
  have hlive : s.current ∈ s.tasks := h.live _ p hp
  have hstate := h.state s.current hlive
  rw [leave]
  dsimp only
  split_ifs with h1 h2
  · refine ⟨moved f s.current (some .ready), ?_⟩
    set s1 := s.setTask s.current { s.task s.current with timeSlice := calcTimeSlice } with hs1
    have hstate1 : ∀ u, (s1.task u).state = (s.task u).state := fun u => by
      simp only [hs1, Sys.setTask]
      split_ifs with hu
      · rw [hu]
      · rfl
    have hs : Placed s1 f := h.congr rfl rfl hstate1
    refine hs.moved (some .ready) hlive (fun p => del_add_nodup hs p) (fun p u => mem_del_add hs) rfl (fun u => ?_)
      fun _ => .inr rfl
    by_cases hu : u = s.current
    · rw [if_pos hu, hu]
      exact (hstate1 _).trans h1.2
    · rw [if_neg hu]
      rfl
  · rw [hp, h2] at hstate
    cases p <;> exact absurd hstate (fun he => nomatch he)
  · exact ⟨f, h⟩

/-! ## One step at a time -/

theorem Runs.ne_none (h : Runs s f) : f s.current ≠ none := by
  rcases h with h | ⟨-, q, h⟩ <;> rw [h] <;> exact Option.some_ne_none _

/-- fields of a task other than its state are changed -/
theorem Placed.setTask (h : Placed s f) {x : Task} (hx : x.state = (s.task t).state) : Placed (s.setTask t x) f := by
  refine h.congr rfl rfl fun u => ?_
  simp only [Sys.setTask]
  split_ifs with hu
  · rw [hu]; exact hx
  · rfl

theorem callSchedule_ok (h : SchedOk s) (w : ℕ) : ∃ s', callSchedule s w = some s' ∧ SchedOk s' := by
  obtain ⟨f, hf, hr⟩ := h
  have hf1 : Placed (s.setTask s.current { s.task s.current with window := false }) f := hf.setTask rfl
  obtain ⟨g, hg⟩ := leave_ok (w := w) hf1 hr.ne_none
  exact schedule_of_leave hg

theorem schedTick_ok (h : SchedOk s) (w : ℕ) : ∃ s', schedTick s w = some s' ∧ SchedOk s' := by
  obtain ⟨f, hf, hr⟩ := h
  rw [schedTick]
  set s1 := s.setTask s.current { s.task s.current with timeSlice := (s.task s.current).timeSlice - 1 } with hs1
  have hf1 : Placed s1 f := hf.setTask rfl
  split_ifs
  · obtain ⟨g, hg⟩ := leave_ok (s := s1) (w := w) hf1 hr.ne_none
    exact schedule_of_leave hg
  · refine ⟨s1, rfl, f, hf1, ?_⟩
    have hwin : (s1.task s.current).window = (s.task s.current).window := by simp only [hs1, Sys.setTask, if_true]
    rw [Runs, show s1.current = s.current from rfl, hwin]
    exact hr

theorem waitOn_ok (h : SchedOk s) (q : ℕ) (h0 : s.current ≠ 0) (hw : (s.task s.current).window = false) :
    SchedOk (waitOn s q) := by
  obtain ⟨f, hf, hr⟩ := h
  have hrun : f s.current = some .run := hr.resolve_right fun hq => by rw [hw] at hq; exact absurd hq.1 Bool.false_ne_true
  refine ⟨moved f s.current (some (.queue q)), ?_, .inr ⟨?_, q, moved_self _⟩⟩
  · refine hf.moved (some (.queue q)) (hf.live _ _ hrun) (fun p => del_add_nodup hf p) (fun p u => mem_del_add hf) rfl
      (fun u => ?_) fun hc => absurd hc h0
    simp only [waitOn, Sys.setState, Sys.setTask]
    split_ifs <;> rfl
  · exact congrArg Task.window (if_pos rfl)

theorem wakeUp_step (h : SchedOk s) (q : ℕ) : SchedOk (wakeUp s q) := by
  obtain ⟨f, hf, hr⟩ := h
  obtain ⟨g, hg, hw⟩ := wakeUp_ok hf q
  exact ⟨g, hg, hr.woken hw (wakeUp_current s q) (wakeUp_window s q _)⟩

theorem wakeUpAll_step (h : SchedOk s) (q : ℕ) : SchedOk (wakeUpAll s q) := by
  obtain ⟨f, hf, hr⟩ := h
  refine ⟨_, splice_ok hf (fun he => nomatch he), hr.woken woken_spliced rfl ?_⟩
  simp only [wakeUpAll, Sys.splice]
  split_ifs <;> rfl

theorem kernelThread_ok (h : SchedOk s) {new : ℕ} (hnew : new ∉ s.tasks) : SchedOk (kernelThread s new) := by
  obtain ⟨f, hf, hr⟩ := h
  have hnone : f new = none := by
    cases hp : f new with
    | none => rfl
    | some p => exact absurd (hf.live new p hp) hnew
  have hcur : s.current ≠ new := fun he => hr.ne_none (he ▸ hnone)
  have hout : ∀ p, new ∉ s.lists p := fun p hin => by rw [hf.mem, hnone] at hin; exact nomatch hin
  refine ⟨moved f new (some .ready), ⟨fun p => ?_, fun p u => ?_, fun u p hu => ?_, fun u hu => ?_, ?_⟩, ?_⟩
  · simp only [kernelThread, Sys.add]
    split_ifs
    · exact List.nodup_cons.2 ⟨hout p, hf.nodup p⟩
    · exact hf.nodup p
  · simp only [kernelThread, Sys.add, Sys.setTask, moved]
    by_cases hu : u = new
    · rw [if_pos hu, hu]
      by_cases hp : p = .ready
      · simp [hp]
      · simp [hp, hout p, Ne.symm hp]
    · rw [if_neg hu, ← hf.mem p u]
      split_ifs
      · rw [List.mem_cons]; simp [hu]
      · rfl
  · simp only [kernelThread, Sys.add, Sys.setTask]
    by_cases hun : u = new
    · rw [hun]; exact Finset.mem_insert_self new _
    · rw [moved_ne _ hun] at hu
      exact Finset.mem_insert_of_mem (hf.live u p hu)
  · simp only [kernelThread, Sys.add, Sys.setTask] at hu ⊢
    by_cases hun : u = new
    · rw [if_pos hun, hun, moved_self]; rfl
    · rw [if_neg hun, moved_ne _ hun]
      exact hf.state u ((Finset.mem_insert.1 hu).resolve_left hun)
  · have h0 : 0 ≠ new := by
      rintro rfl
      rcases hf.idle with hi | hi <;> rw [hnone] at hi <;> exact nomatch hi
    rw [moved_ne _ h0]
    exact hf.idle
  · have hwin : ((kernelThread s new).task s.current).window = (s.task s.current).window :=
      congrArg Task.window (if_neg hcur)
    rw [Runs, show (kernelThread s new).current = s.current from rfl, moved_ne _ hcur, hwin]
    exact hr

/-- the zombie is on no list when schedule goes on -/
theorem sysExit_ok (h : SchedOk s) (w : ℕ) (h0 : s.current ≠ 0) : ∃ s', sysExit s w = some s' ∧ SchedOk s' := by
  obtain ⟨f, hf, hr⟩ := h
  obtain ⟨p, hp⟩ := Option.ne_none_iff_exists'.1 hr.ne_none
  set s1 := s.setState s.current .zombie with hs1
  have hz : (s1.task s1.current).state = .zombie := congrArg Task.state (if_pos rfl)
  have hleave : leave s1 w = wakeUp (s1.del s1.current) w := by
    rw [leave]
    dsimp only
    rw [if_neg (by rw [hz]; exact fun he => nomatch he.2), if_pos hz]
  have hdel : Placed (s1.del s1.current) (moved f s.current none) := by
    refine hf.moved none (hf.live _ p hp) (fun p => del_nodup hf p) (fun p u => ?_) rfl (fun u => ?_) fun hc => absurd hc h0
    · refine (mem_del hf).trans ?_
      change u ≠ s.current ∧ f u = some p ↔ _
      split_ifs with hu
      · simp [hu]
      · simp [hu]
    · simp only [hs1, Sys.del, Sys.setState, Sys.setTask]
      split_ifs <;> rfl
  obtain ⟨g, hg, -⟩ := wakeUp_ok hdel w
  rw [← hleave] at hg
  exact schedule_of_leave hg

theorem reap_ok (h : SchedOk s) (ht : t ∈ s.tasks) (hz : (s.task t).state = .zombie) : SchedOk (reap s t) := by
  obtain ⟨f, hf, hr⟩ := h
  have hnone : f t = none := by
    have hst := hf.state t ht
    rw [hz] at hst
    cases hp : f t with
    | none => rfl
    | some p => rw [hp] at hst; cases p <;> exact nomatch hst
  have hne : s.current ≠ t := fun he => hr.ne_none (he ▸ hnone)
  refine ⟨f, ⟨hf.nodup, hf.mem, fun u p hu => ?_, fun u hu => ?_, hf.idle⟩, ?_⟩
  · refine Finset.mem_erase.2 ⟨fun he => ?_, hf.live u p hu⟩
    rw [he, hnone] at hu
    exact nomatch hu
  · obtain ⟨hut, hu⟩ := Finset.mem_erase.1 hu
    exact (congrArg Task.state (if_neg hut)).trans (hf.state u hu)
  · have hwin : ((reap s t).task s.current).window = (s.task s.current).window := congrArg Task.window (if_neg hne)
    rw [Runs, show (reap s t).current = s.current from rfl, hwin]
    exact hr

theorem step_ok {o : Op} (h : SchedOk s) (hl : legal s o) : ∃ s', step s o = some s' ∧ SchedOk s' := by
  cases o with
  | schedTick w => exact schedTick_ok h w
  | schedule w => exact callSchedule_ok h w
  | wait q => exact ⟨_, rfl, waitOn_ok h q hl.1 hl.2⟩
  | wakeUp q => exact ⟨_, rfl, wakeUp_step h q⟩
  | wakeUpAll q => exact ⟨_, rfl, wakeUpAll_step h q⟩
  | kernelThread new => exact ⟨_, rfl, kernelThread_ok h hl.2⟩
  | exit w => exact sysExit_ok h w hl.1
  | reap t => exact ⟨_, rfl, reap_ok h hl.1 hl.2⟩

theorem boot_ok : SchedOk boot := by
  refine ⟨fun u => if u = 0 then some .run else none,
    ⟨fun p => ?_, fun p u => ?_, fun u p hu => ?_, fun u hu => ?_, .inl rfl⟩, .inl rfl⟩
  · simp only [boot]
    split_ifs
    · exact List.nodup_singleton 0
    · exact List.nodup_nil
  · simp only [boot]
    split_ifs with h1 h2 h2
    · simp [h1, h2]
    · simp [h2]
    · simp [Ne.symm h1]
    · simp
  · split_ifs at hu with h0
    · rw [h0]; exact Finset.mem_singleton_self 0
  · rw [Finset.mem_singleton.1 hu]; rfl

/-! ## Every run -/

/-- the step comes to the end of schedule -/
def Schedules (s : Sys) : Op → Prop
  | .schedule _ | .exit _ => True
  | .schedTick _ => (s.task s.current).timeSlice ≤ 1
  | _ => False

theorem schedule_run (h : schedule s w = some s') : s'.current ∈ s'.lists .run := by
  rw [schedule] at h
  cases hrun : (refill (leave s w)).lists .run with
  | nil => rw [hrun] at h; exact nomatch h
  | cons next rest =>
    rw [hrun] at h
    obtain rfl := Option.some.inj h
    change next ∈ (refill (leave s w)).lists .run
    rw [hrun]
    exact List.mem_cons_self

theorem schedules_run {o : Op} (hs : Schedules s o) (h : step s o = some s') : s'.current ∈ s'.lists .run := by
  cases o with
  | schedTick w =>
    simp only [step, schedTick] at h
    rw [if_pos (by simp only [Sys.setTask, if_true]; simp only [Schedules] at hs; omega)] at h
    exact schedule_run h
  | schedule w => exact schedule_run h
  | exit w => exact schedule_run h
  | _ => exact absurd hs id

/-- **Every task is where its state says.** In any interleaving of sched_tick, schedule, wait, wake_up, wake_up_all,
kernel_thread and sys_exit in which idle never waits or exits: a task that is no zombie has its node on exactly one of the
run list, the ready list and the wait queues, and there once; it is in TASK_WAIT exactly on a wait queue; a zombie is on no
list; every step goes through (no BUG_ON fires), and the task that schedule chooses is on the run list. -/
theorem lists_reachable (h : system.Reach s) :
    (∀ t ∈ s.tasks, (s.task t).state ≠ .zombie → (∃! p, t ∈ s.lists p) ∧ ∀ p, (s.lists p).count t ≤ 1) ∧
    (∀ t ∈ s.tasks, (s.task t).state = .wait ↔ ∃ q, t ∈ s.lists (.queue q)) ∧
    (∀ t ∈ s.tasks, (s.task t).state = .zombie → ∀ p, t ∉ s.lists p) ∧
    (∀ t ∈ s.tasks, (s.task t).state ≠ .dead) ∧
    ∀ o, legal s o → ∃ s', step s o = some s' ∧ (Schedules s o → s'.current ∈ s'.lists .run) := by
  have hok : SchedOk s := h.inv (fun s hs => hs ▸ boot_ok) fun s o s' hi hst => by
    obtain ⟨s'', hs, hok⟩ := step_ok hi hst.1
    rw [hst.2] at hs
    cases hs
    exact hok
  obtain ⟨f, hf, -⟩ := id hok
  refine ⟨fun t ht hz => ⟨?_, fun p => List.nodup_iff_count_le_one.1 (hf.nodup p) t⟩, fun t ht => ?_,
    fun t ht hz p hin => ?_, fun t ht hd => ?_, fun o hl => ?_⟩
  · have hst := hf.state t ht
    cases hp : f t with
    | none => rw [hp] at hst; exact absurd hst hz
    | some p =>
      refine ⟨p, (hf.mem p t).2 hp, fun r hr => ?_⟩
      exact Option.some.inj (((hf.mem r t).1 hr).symm.trans hp)
  · rw [hf.state t ht]
    constructor
    · intro hw
      cases hp : f t with
      | none => rw [hp] at hw; exact nomatch hw
      | some p =>
        cases p with
        | queue q => exact ⟨q, (hf.mem _ t).2 hp⟩
        | run => rw [hp] at hw; exact nomatch hw
        | ready => rw [hp] at hw; exact nomatch hw
    · rintro ⟨q, hq⟩
      rw [(hf.mem _ t).1 hq]
      rfl
  · have hst := hf.state t ht
    rw [(hf.mem p t).1 hin, hz] at hst
    cases p <;> exact nomatch hst
  · have hst := hf.state t ht
    rw [hd] at hst
    cases hp : f t with
    | none => rw [hp] at hst; exact nomatch hst
    | some p => rw [hp] at hst; cases p <;> exact nomatch hst
  · obtain ⟨s', hs, -⟩ := step_ok hok hl
    exact ⟨s', hs, fun hsch => schedules_run hsch hs⟩

/-! ## A run of two tasks -/

/-- the legal steps of a list, one after the other -/
def runs (s : Sys) (os : List Op) : Option Sys := os.foldlM (fun s o => if legal s o then step s o else none) s

theorem runs_reach {os : List Op} (hs : runs boot os = some s) : system.Reach s := by
  refine Lts.Reach.fold (fun u o u' hu => ?_) (.start rfl) hs
  split_ifs at hu with hl
  exact ⟨hl, hu⟩

/-- task 5 is made, idle uses its time up, and 5 waits on queue 3 -/
def waits : List Op := .kernelThread 5 :: List.replicate (2 * calcTimeSlice) (.schedTick 1) ++ [.wait 3, .schedule 1]

def waited : Sys := (runs boot waits).get (by decide +kernel)

/-- Task 5 waits and idle runs; wake_up puts 5 on the run list again. -/
theorem lists_wait :
    (waited.current = 0 ∧ 5 ∈ waited.lists (.queue 3) ∧
    ((waited.task 5).state = .wait ↔ ∃ q, 5 ∈ waited.lists (.queue q))) ∧ 5 ∈ (wakeUp waited 3).lists .run ∧
    ∃! p, 5 ∈ (wakeUp waited 3).lists p := by
  have hreach : system.Reach waited := runs_reach (Option.some_get _).symm
  have hwoken : system.Reach (wakeUp waited 3) := .step (e := .wakeUp 3) hreach ⟨trivial, rfl⟩
  refine ⟨⟨by decide +kernel, by decide +kernel, ?_⟩, by decide +kernel, ?_⟩
  · exact (lists_reachable hreach).2.1 5 (by decide +kernel)
  · exact ((lists_reachable hwoken).1 5 (by decide +kernel) (by decide +kernel)).1

end SinsOs.Sched
