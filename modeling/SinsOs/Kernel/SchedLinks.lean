/-
The scheduler on its list_heads: kernel/sched.c with the pointers of include/list.h.

The lists of the scheduler are rings through the run_list nodes of the tasks. list_del leaves the node of a zombie with its old
pointers, and a page that is no task's is anybody's: its node may hold anything, at any time.

- `links_refine`: every run of the scheduler on its pointers is a run of the scheduler on lists with the same steps; the rings
  are the lists, no walk runs away, and every step goes through.
-/
import SinsOs.Core.Chain
import SinsOs.Kernel.Sched

namespace SinsOs.Sched.Linked

open SinsOs.Core

/-! ## Model -/

structure LSys where
  tasks : Finset ℕ
  task : ℕ → Task
  current : ℕ
  links : Links Place ℕ

namespace LSys

variable (s : LSys)

def setTask (t : ℕ) (x : Task) : LSys := { s with task := fun u => if u = t then x else s.task u }

def setState (t : ℕ) (x : TaskState) : LSys := s.setTask t { s.task t with state := x }

def setLinks (m : Links Place ℕ) : LSys := { s with links := m }

/-- no list has more nodes than there are tasks -/
def fuel : ℕ := s.tasks.card + 1

end LSys

/-- the body of the loops: `list_entry(pos, struct task_struct, run_list)->state = TASK_RUNNABLE` -/
def mark (task : ℕ → Task) (t : ℕ) : ℕ → Task := fun u => if u = t then { task t with state := .runnable } else task u

def wakeUp (s : LSys) (q : ℕ) : Option LSys :=
  if s.links.listEmpty (.inl (.queue q)) then some s
  else match s.links.next (.inl (.queue q)) with
    | .inl _ => none
    | .inr fetch => some ((s.setLinks ((s.links.listDel (.inr fetch)).listAdd (.inr fetch) (.inl .run))).setState fetch .runnable)

def wakeUpAll (s : LSys) (q : ℕ) : Option LSys := do
  let task ← s.links.forEach (.queue q) mark s.fuel (s.links.next (.inl (.queue q))) s.task
  some { s with task := task, links := s.links.listSpliceInit (.inl (.queue q)) (.inl .run) }

def leave (s : LSys) (waitExit : ℕ) : Option LSys :=
  let c := s.current
  if (s.task c).timeSlice = 0 ∧ (s.task c).state = .runnable then
    some ((s.setTask c { s.task c with timeSlice := calcTimeSlice }).setLinks (s.links.listMove (.inr c) (.inl .ready)))
  else if (s.task c).state = .zombie then wakeUp (s.setLinks (s.links.listDel (.inr c))) waitExit
  else some s

def refill (s : LSys) : Option LSys :=
  if s.links.listEmpty (.inl .run) then do
    let links := s.links.listSpliceInit (.inl .ready) (.inl .run)
    let task ← links.forEach .run mark s.fuel (links.next (.inl .run)) s.task
    some { s with task := task, links := links }
  else some s

/-- `.inl`: the BUG_ON of an empty run list -/
def schedule (s : LSys) (waitExit : ℕ) : Option LSys := do
  let s ← leave s waitExit
  let s ← refill s
  match s.links.next (.inl .run) with
  | .inl _ => none
  | .inr next => some { s with current := next }

def schedTick (s : LSys) (waitExit : ℕ) : Option LSys :=
  let c := s.current
  let s := s.setTask c { s.task c with timeSlice := (s.task c).timeSlice - 1 }
  if (s.task c).timeSlice = 0 then schedule s waitExit else some s

def waitOn (s : LSys) (q : ℕ) : LSys :=
  let c := s.current
  let s := (s.setLinks ((s.links.listDel (.inr c)).listAdd (.inr c) (.inl (.queue q)))).setState c .wait
  s.setTask c { s.task c with window := true }

def callSchedule (s : LSys) (waitExit : ℕ) : Option LSys :=
  schedule (s.setTask s.current { s.task s.current with window := false }) waitExit

def kernelThread (s : LSys) (new : ℕ) : LSys :=
  { s.setTask new ⟨.runnable, calcTimeSlice, false⟩ with
    tasks := insert new s.tasks, links := s.links.listAdd (.inr new) (.inl .ready) }

def sysExit (s : LSys) (waitExit : ℕ) : Option LSys := schedule (s.setState s.current .zombie) waitExit

def reap (s : LSys) (t : ℕ) : LSys := { s.setState t .dead with tasks := s.tasks.erase t }

def legal (s : LSys) : Op → Prop
  | .schedTick _ | .schedule _ | .wakeUp _ | .wakeUpAll _ => True
  | .wait _ | .exit _ => s.current ≠ 0 ∧ (s.task s.current).window = false
  | .kernelThread new => (s.task s.current).window = false ∧ new ∉ s.tasks
  | .reap t => t ∈ s.tasks ∧ (s.task t).state = .zombie

def step (s : LSys) : Op → Option LSys
  | .schedTick w => schedTick s w
  | .schedule w => callSchedule s w
  | .wait q => some (waitOn s q)
  | .wakeUp q => wakeUp s q
  | .wakeUpAll q => wakeUpAll s q
  | .kernelThread new => some (kernelThread s new)
  | .exit w => sysExit s w
  | .reap t => some (reap s t)

/-- what else is written meanwhile: only nodes that are in no task -/
structure Elsewhere (s s' : LSys) : Prop where
  tasks : s'.tasks = s.tasks
  task : s'.task = s.task
  current : s'.current = s.current
  heads : ∀ k, s'.links.next (.inl k) = s.links.next (.inl k) ∧ s'.links.prev (.inl k) = s.links.prev (.inl k)
  nodes : ∀ t ∈ s.tasks, s'.links.next (.inr t) = s.links.next (.inr t) ∧ s'.links.prev (.inr t) = s.links.prev (.inr t)

/-- the state that sched_init leaves -/
def boot : LSys where
  tasks := {0}
  task := fun _ => ⟨.runnable, calcTimeSlice, false⟩
  current := 0
  links := Links.empty.listAdd (.inr 0) (.inl .run)

def system : Lts LSys Op where
  start := Elsewhere boot
  step := fun s o s' => legal s o ∧ ∃ s1, step s o = some s1 ∧ Elsewhere s1 s'

/-! ## The lists of a memory -/

/-- the same tasks, and rings for the lists -/
structure Rel (p : LSys) (s : Sys) : Prop where
  tasks : p.tasks = s.tasks
  task : p.task = s.task
  current : p.current = s.current
  chains : p.links.Chains s.lists

/-- what is on a list is a task -/
def Live (s : Sys) : Prop := ∀ k, ∀ t ∈ s.lists k, t ∈ s.tasks

variable {p p' : LSys} {s s' : Sys} {f : ℕ → Option Place} {t q w : ℕ} {k : Place}

theorem live_of_placed (h : Placed s f) : Live s := fun k t ht => h.live t k ((h.mem k t).1 ht)

theorem Rel.fuel (hr : Rel p s) (hl : Live s) (k : Place) : (s.lists k).length < p.fuel := by
  have hcard : (s.lists k).toFinset.card ≤ s.tasks.card := Finset.card_le_card fun t ht => hl k t (List.mem_toFinset.1 ht)
  rw [List.toFinset_card_of_nodup (hr.chains.nodup k)] at hcard
  rw [LSys.fuel, hr.tasks]
  omega

theorem Rel.elsewhere (hr : Rel p s) (hl : Live s) (he : Elsewhere p p') : Rel p' s := by
  refine ⟨he.tasks.trans hr.tasks, he.task.trans hr.task, he.current.trans hr.current, hr.chains.of_agree fun j y hy => ?_⟩
  cases y with
  | inl i => exact he.heads i
  | inr t => exact he.nodes t (hr.tasks ▸ hl j t (Links.Chains.mem_of_node hy))

/-- the tasks of a list, marked -/
theorem foldl_mark (l : List ℕ) (task : ℕ → Task) :
    l.foldl mark task = fun t => if t ∈ l then { task t with state := .runnable } else task t := by
  induction l generalizing task with
  | nil => simp
  | cons x l ih =>
    rw [List.foldl_cons, ih]
    funext t
    by_cases htx : t = x
    · subst htx
      simp [mark]
    · simp [mark, htx]

/-- list_del and list_add of one node -/
theorem move_to {m : Links Place ℕ} (hc : m.Chains s.lists) (ht : t ∈ s.lists k) (r : Place) :
    ((m.listDel (.inr t)).listAdd (.inr t) (.inl r)).Chains ((s.del t).add t r).lists := by
  have hlists : ((s.del t).add t r).lists = Function.update (fun i => (s.lists i).erase t) r (t :: (s.lists r).erase t) := by
    funext i
    simp only [Sys.add, Sys.del, Function.update_apply]
    split_ifs with hi
    · rw [hi]
    · rfl
  rw [hlists]
  exact hc.move ht r

/-! ## Each function on its lists -/

theorem wakeUp_refines (hr : Rel p s) (q : ℕ) : ∃ p', wakeUp p q = some p' ∧ Rel p' (Sched.wakeUp s q) := by
  rw [wakeUp, Sched.wakeUp]
  cases hq : s.lists (.queue q) with
  | nil => exact ⟨p, if_pos ((hr.chains.empty_iff _).2 hq), hr⟩
  | cons fetch rest =>
    have hne : ¬ p.links.listEmpty (.inl (.queue q)) := fun he => by
      rw [(hr.chains.empty_iff _).1 he] at hq
      exact absurd hq (List.cons_ne_nil fetch rest).symm
    have hfetch : p.links.next (.inl (.queue q)) = .inr fetch := by rw [hr.chains.start, hq, Links.first]
    have hon : fetch ∈ s.lists (.queue q) := by rw [hq]; exact List.mem_cons_self
    rw [if_neg hne, hfetch]
    refine ⟨_, rfl, hr.tasks, ?_, hr.current, ?_⟩
    · simp only [LSys.setState, LSys.setTask, LSys.setLinks, Sys.setState, Sys.setTask, Sys.add, Sys.del, hr.task]
    · exact move_to hr.chains hon .run

theorem wakeUpAll_refines (hr : Rel p s) (hl : Live s) (q : ℕ) :
    ∃ p', wakeUpAll p q = some p' ∧ Rel p' (Sched.wakeUpAll s q) := by
  have hloop := hr.chains.forEach (.queue q) mark (hr.fuel hl (.queue q)) p.task
  rw [foldl_mark] at hloop
  refine ⟨{ p with
    task := fun t => if t ∈ s.lists (.queue q) then { p.task t with state := .runnable } else p.task t,
    links := p.links.listSpliceInit (.inl (.queue q)) (.inl .run) }, ?_, hr.tasks, ?_, hr.current, ?_⟩
  · rw [wakeUpAll, hloop]
    rfl
  · rw [hr.task]
    rfl
  · exact hr.chains.spliceInit fun he => Place.noConfusion he

theorem leave_refines (hr : Rel p s) (hon : s.current ∈ s.lists k) (w : ℕ) :
    ∃ p', leave p w = some p' ∧ Rel p' (Sched.leave s w) := by
  rw [leave, Sched.leave]
  dsimp only
  rw [hr.current, hr.task]
  split_ifs with h1 h2
  · refine ⟨_, rfl, hr.tasks, ?_, hr.current, move_to hr.chains hon .ready⟩
    simp only [LSys.setLinks, LSys.setTask, Sys.add, Sys.del, Sys.setTask, hr.task]
  · have hdel : Rel (p.setLinks (p.links.listDel (.inr s.current))) (s.del s.current) :=
      ⟨hr.tasks, hr.task, hr.current, hr.chains.del hon⟩
    exact wakeUp_refines hdel w
  · exact ⟨p, rfl, hr⟩

theorem refill_refines (hr : Rel p s) (hl : Live s) : ∃ p', refill p = some p' ∧ Rel p' (Sched.refill s) := by
  have hready : Place.ready ≠ .run := fun he => Place.noConfusion he
  rw [refill, Sched.refill]
  by_cases hrun : s.lists .run = []
  · rw [if_pos ((hr.chains.empty_iff _).2 hrun), if_pos hrun]
    have hc := hr.chains.spliceInit hready
    have hlen : (s.lists .ready ++ s.lists .run).length < p.fuel := by
      rw [hrun, List.append_nil]
      exact hr.fuel hl .ready
    have hloop := hc.forEach .run mark (by rwa [if_neg hready.symm, if_pos rfl]) p.task
    rw [foldl_mark, if_neg hready.symm, if_pos rfl, hrun, List.append_nil] at hloop
    refine ⟨{ p with
      task := fun t => if t ∈ s.lists .ready then { p.task t with state := .runnable } else p.task t,
      links := p.links.listSpliceInit (.inl .ready) (.inl .run) }, ?_, hr.tasks, ?_, hr.current, hc⟩
    · simp only [hloop]
      rfl
    · rw [hr.task]
      rfl
  · rw [if_neg fun he => hrun ((hr.chains.empty_iff _).1 he), if_neg hrun]
    exact ⟨p, rfl, hr⟩

/-- what leaves the run list goes to another list, or exits -/
theorem leave_live (hl : Live s) (hon : s.current ∈ s.lists k) (w : ℕ) : Live (Sched.leave s w) := by
  have hwake : ∀ {s : Sys}, Live s → Live (Sched.wakeUp s w) := fun {s} hl => by
    rw [Sched.wakeUp]
    cases hq : s.lists (.queue w) with
    | nil => exact hl
    | cons fetch rest =>
      intro j t ht
      simp only [Sys.setState, Sys.setTask, Sys.add, Sys.del] at ht
      split_ifs at ht
      · obtain rfl | ht := List.mem_cons.1 ht
        · exact hl (.queue w) t (by rw [hq]; exact List.mem_cons_self)
        · exact hl j t (List.mem_of_mem_erase ht)
      · exact hl j t (List.mem_of_mem_erase ht)
  rw [Sched.leave]
  dsimp only
  split_ifs with h1 h2
  · intro j t ht
    simp only [Sys.add, Sys.del, Sys.setTask] at ht
    split_ifs at ht
    · obtain rfl | ht := List.mem_cons.1 ht
      · exact hl k s.current hon
      · exact hl j t (List.mem_of_mem_erase ht)
    · exact hl j t (List.mem_of_mem_erase ht)
  · exact hwake fun j t ht => hl j t (List.mem_of_mem_erase ht)
  · exact hl

theorem schedule_refines (hr : Rel p s) (hl : Live s) (hon : s.current ∈ s.lists k) (hs : Sched.schedule s w = some s') :
    ∃ p', schedule p w = some p' ∧ Rel p' s' := by
  obtain ⟨p1, h1, hr1⟩ := leave_refines hr hon w
  obtain ⟨p2, h2, hr2⟩ := refill_refines hr1 (leave_live hl hon w)
  have hnext := hr2.chains.start .run
  rw [Sched.schedule] at hs
  cases hrun : (Sched.refill (Sched.leave s w)).lists .run with
  | nil =>
    rw [hrun] at hs
    exact absurd hs (Option.some_ne_none s').symm
  | cons next rest =>
    rw [hrun] at hs hnext
    obtain rfl := Option.some.inj hs
    refine ⟨{ p2 with current := next }, ?_, hr2.tasks, hr2.task, rfl, hr2.chains⟩
    simp only [schedule, h1, h2, Option.bind_eq_bind, Option.bind_some, hnext, Links.first]

/-! ## One step at a time -/

theorem Rel.legal_iff (hr : Rel p s) (o : Op) : legal p o ↔ Sched.legal s o := by
  cases o <;> simp only [legal, Sched.legal, hr.tasks, hr.task, hr.current]

/-- a field of a task -/
theorem Rel.setTask (hr : Rel p s) (t : ℕ) {x y : Task} (hx : x = y) : Rel (p.setTask t x) (s.setTask t y) :=
  ⟨hr.tasks, by simp only [LSys.setTask, Sys.setTask, hr.task, hx], hr.current, hr.chains⟩

theorem on_list (hf : Placed s f) (hr : Runs s f) : ∃ k, s.current ∈ s.lists k := by
  obtain ⟨k, hk⟩ := Option.ne_none_iff_exists'.1 hr.ne_none
  exact ⟨k, (hf.mem k _).2 hk⟩

theorem schedTick_refines (hr : Rel p s) (hl : Live s) (hon : s.current ∈ s.lists k) (hs : Sched.schedTick s w = some s') :
    ∃ p', schedTick p w = some p' ∧ Rel p' s' := by
  have hr1 := hr.setTask s.current (x := { s.task s.current with timeSlice := (s.task s.current).timeSlice - 1 }) rfl
  rw [Sched.schedTick] at hs
  rw [schedTick, hr.current, hr.task]
  dsimp only at hs ⊢
  rw [hr1.task]
  split_ifs at hs ⊢
  · exact schedule_refines hr1 hl hon hs
  · obtain rfl := Option.some.inj hs
    exact ⟨_, rfl, hr1⟩

theorem waitOn_refines (hr : Rel p s) (hon : s.current ∈ s.lists k) (q : ℕ) : Rel (waitOn p q) (Sched.waitOn s q) := by
  refine ⟨hr.tasks, ?_, hr.current, ?_⟩
  · simp only [waitOn, Sched.waitOn, LSys.setState, LSys.setTask, LSys.setLinks, Sys.setState, Sys.setTask, Sys.add, Sys.del,
      hr.task, hr.current]
  · rw [waitOn]
    dsimp only
    rw [hr.current]
    exact move_to hr.chains hon (.queue q)

theorem kernelThread_refines (hr : Rel p s) (hl : Live s) {new : ℕ} (hnew : new ∉ s.tasks) :
    Rel (kernelThread p new) (Sched.kernelThread s new) := by
  refine ⟨?_, ?_, hr.current, ?_⟩
  · simp only [kernelThread, Sched.kernelThread, Sys.add, hr.tasks]
  · simp only [kernelThread, Sched.kernelThread, LSys.setTask, Sys.add, Sys.setTask, hr.task]
  · have hadd := hr.chains.add (fun k hk => hnew (hl k new hk)) .ready
    have hlists : (Sched.kernelThread s new).lists = Function.update s.lists .ready (new :: s.lists .ready) := by
      funext k
      simp only [Sched.kernelThread, Sys.add, Sys.setTask, Function.update_apply]
      split_ifs with hk
      · rw [hk]
      · rfl
    rw [hlists]
    exact hadd

/-- **One step.** What the scheduler does on its lists it does on the pointers. -/
theorem step_refines (hr : Rel p s) (hok : SchedOk s) {o : Op} (ho : Sched.legal s o) :
    ∃ p' s', step p o = some p' ∧ Sched.step s o = some s' ∧ Rel p' s' := by
  obtain ⟨s', hs, -⟩ := step_ok hok ho
  obtain ⟨f, hf, hrun⟩ := hok
  obtain ⟨k, hon⟩ := on_list hf hrun
  have hl := live_of_placed hf
  cases o with
  | schedTick w =>
    obtain ⟨p', hp, hr'⟩ := schedTick_refines hr hl hon hs
    exact ⟨p', s', hp, hs, hr'⟩
  | schedule w =>
    have hcall : ∃ p', callSchedule p w = some p' ∧ Rel p' s' := by
      rw [callSchedule, hr.current, hr.task]
      exact schedule_refines (hr.setTask _ rfl) hl hon hs
    obtain ⟨p', hp, hr'⟩ := hcall
    exact ⟨p', s', hp, hs, hr'⟩
  | wait q => exact ⟨_, _, rfl, rfl, waitOn_refines hr hon q⟩
  | wakeUp q =>
    obtain ⟨p', hp, hr'⟩ := wakeUp_refines hr q
    exact ⟨p', _, hp, rfl, hr'⟩
  | wakeUpAll q =>
    obtain ⟨p', hp, hr'⟩ := wakeUpAll_refines hr hl q
    exact ⟨p', _, hp, rfl, hr'⟩
  | kernelThread new => exact ⟨_, _, rfl, rfl, kernelThread_refines hr hl ho.2⟩
  | exit w =>
    have hexit : ∃ p', sysExit p w = some p' ∧ Rel p' s' := by
      rw [sysExit, LSys.setState, hr.current, hr.task]
      exact schedule_refines (hr.setTask _ rfl) hl hon hs
    obtain ⟨p', hp, hr'⟩ := hexit
    exact ⟨p', s', hp, hs, hr'⟩
  | reap t =>
    refine ⟨_, _, rfl, rfl, ?_, ?_, hr.current, hr.chains⟩
    · simp only [reap, Sched.reap, hr.tasks]
    · simp only [reap, Sched.reap, LSys.setState, LSys.setTask, Sys.setState, Sys.setTask, hr.task]

theorem boot_refines : Rel boot Sched.boot := by
  refine ⟨rfl, rfl, rfl, ?_⟩
  have hlists : Sched.boot.lists = Function.update (fun _ => []) Place.run [0] := by
    funext k
    simp only [Sched.boot, Function.update_apply]
  have hadd := (Links.Rep.empty (κ := Place) (η := ℕ)).chains.add (fun k => List.not_mem_nil (a := 0)) .run
  rw [hlists]
  exact hadd

/-! ## Every run -/

theorem sched_ok (h : Sched.system.Reach s) : SchedOk s := h.inv (fun s hs => hs ▸ boot_ok) fun s o s' hi hst => by
  obtain ⟨s1, h1, hok⟩ := step_ok hi hst.1
  exact Option.some.inj (h1.symm.trans hst.2) ▸ hok

theorem run_refines {p₀ p : LSys} {os : List Op} (h : system.Run p₀ os p) (hr : Rel p₀ s) (hreach : Sched.system.Reach s) :
    ∃ s', Sched.system.Run s os s' ∧ Rel p s' := by
  induction h generalizing s with
  | nil => exact ⟨s, .nil s, hr⟩
  | @cons p p' p'' o os hst _ ih =>
    obtain ⟨hleg, p1, hp1, helse⟩ := hst
    have ho := (hr.legal_iff o).1 hleg
    obtain ⟨p2, s1, hp2, hs1, hr1⟩ := step_refines hr (sched_ok hreach) ho
    obtain rfl := Option.some.inj (hp1.symm.trans hp2)
    have hreach1 : Sched.system.Reach s1 := hreach.step (e := o) ⟨ho, hs1⟩
    obtain ⟨f, hf, -⟩ := sched_ok hreach1
    obtain ⟨s', hrun, hr'⟩ := ih (hr1.elsewhere (live_of_placed hf) helse) hreach1
    exact ⟨s', .cons ⟨ho, hs1⟩ hrun, hr'⟩

/-- **The pointers are the lists.** Whatever steps the scheduler takes, and whatever is written to the nodes of pages that are
no task's in between, its run is a run of the scheduler on lists with the same steps. At the end the tasks and the running one
are the same, and from the head of each list next goes through the elements of the list in order and back to the head, with
prev the other way. Every step that may come goes through: no loop over a list runs away, and no BUG_ON fires. -/
theorem links_refine {p₀ : LSys} {os : List Op} (h₀ : system.start p₀) (h : system.Run p₀ os p) :
    ∃ s, Sched.system.Run Sched.boot os s ∧ p.tasks = s.tasks ∧ p.task = s.task ∧ p.current = s.current ∧
      (∀ k, p.links.Path (.inl k) ((s.lists k).map .inr) (.inl k)) ∧ ∀ o, legal p o → ∃ p', step p o = some p' := by
  have hstart : Sched.system.Reach Sched.boot := .start rfl
  obtain ⟨f, hf, -⟩ := boot_ok
  obtain ⟨s, hrun, hr⟩ := run_refines h (boot_refines.elsewhere (live_of_placed hf) h₀) hstart
  refine ⟨s, hrun, hr.tasks, hr.task, hr.current, hr.chains.path, fun o ho => ?_⟩
  obtain ⟨p', -, hp', -⟩ := step_refines hr (sched_ok (hrun.reach hstart)) ((hr.legal_iff o).1 ho)
  exact ⟨p', hp'⟩

/-- a thread is made, and schedule called -/
theorem links_thread : ∃ p s, system.Run boot [.kernelThread 5, .schedule 0] p ∧
    Sched.system.Run Sched.boot [.kernelThread 5, .schedule 0] s ∧
    p.links.Path (.inl .ready) ((s.lists .ready).map .inr) (.inl .ready) := by
  have hsame : ∀ p : LSys, Elsewhere p p := fun p => ⟨rfl, rfl, rfl, fun _ => ⟨rfl, rfl⟩, fun _ _ => ⟨rfl, rfl⟩⟩
  obtain ⟨p, hp⟩ : ∃ p, step (kernelThread boot 5) (.schedule 0) = some p := ⟨_, rfl⟩
  have hrun : system.Run boot [.kernelThread 5, .schedule 0] p :=
    .cons ⟨⟨rfl, by decide⟩, _, rfl, hsame _⟩ (.cons ⟨trivial, p, hp, hsame p⟩ (.nil p))
  obtain ⟨s, hs, -, -, -, hpath, -⟩ := links_refine (hsame boot) hrun
  exact ⟨p, s, hrun, hs, hpath .ready⟩

end SinsOs.Sched.Linked
