/-
Parents and children: kernel_thread, the zombie branch of schedule, kthread_release, find_usable_pid, get_task_by_pid
(kernel/sched.c), sys_exit, sys_wait_pid, sys_wait_chld (kernel/exit.c).

Tasks are named by numbers that are never used again, so a pointer to a freed task_struct is not mistaken for a later one;
idle is 0 and init is 1, and a run starts when idle has created init. Any task can take its next step at any time. A wait is
cut where it sleeps, kernel_thread behind find_usable_pid. A failed BUG_ON or a NULL init is `none`. The fields `creator`,
`passed` and `releases` only record what happened.

- `tree_reachable`: every task but idle is on exactly one child list, the right one of its parent, which is not freed; every
  exited task is released at most once, by the task that created it or, when that was released before, by init, and the
  wait that releases it returns the code that it passed to sys_exit.
-/
import SinsOs.Kernel.Sched

namespace SinsOs.Exit

open SinsOs.Core SinsOs.Sched

/-! ## Model -/

def nrPidLists : ℕ := 10

def taskInitPid : ℕ := 1

structure Task where
  pid : ℕ
  state : TaskState
  exitCode : ℤ
  parent : Option ℕ
  chldActive : List ℕ
  chldZombie : List ℕ
deriving DecidableEq, Repr

/-- where a task is in a call: it has the pid of a new thread, or it waits -/
inductive Call
  | thread (pid : ℕ)
  | waitPid (t : ℕ)
  | waitChld
deriving DecidableEq, Repr

/-- a task, the task that released it, and the code that the wait returned -/
structure Release where
  task : ℕ
  caller : ℕ
  code : ℤ
deriving DecidableEq, Repr

structure Sys where
  tasks : Finset ℕ
  task : ℕ → Task
  pidLists : ℕ → List ℕ
  pidStart : ℕ
  calls : ℕ → Option Call
  creator : ℕ → ℕ
  passed : ℕ → Option ℤ
  releases : List Release

namespace Sys

variable (s : Sys)

def setTask (t : ℕ) (x : Task) : Sys := { s with task := fun u => if u = t then x else s.task u }

def setCall (c : ℕ) (x : Option Call) : Sys := { s with calls := fun u => if u = c then x else s.calls u }

def released : List ℕ := s.releases.map Release.task

end Sys

/-- the search stops at the first pid from pid_start on that no task has -/
def findUsablePid (s : Sys) : Option (ℕ × Sys) :=
  let pids := (List.range (s.tasks.card + 1)).map fun k => (s.pidStart + k) % 2 ^ 32
  match pids.find? fun p => ∀ t ∈ s.tasks, (s.task t).pid ≠ p with
  | none => none
  | some p => some (p, { s with pidStart := (p + 1) % 2 ^ 32 })

def getTaskByPid (s : Sys) (pid : ℕ) : Option ℕ :=
  (s.pidLists (pid % nrPidLists)).find? fun pos => (s.task pos).pid = pid

def addToPidLists (s : Sys) (t : ℕ) : Sys :=
  let k := (s.task t).pid % nrPidLists
  { s with pidLists := fun j => if j = k then t :: s.pidLists j else s.pidLists j }

def removeFromPidLists (s : Sys) (t : ℕ) : Sys := { s with pidLists := fun j => (s.pidLists j).erase t }

/-- `list_del(&task->child)` -/
def delChild (s : Sys) (t : ℕ) : Sys :=
  { s with task := fun u => { s.task u with
      chldActive := (s.task u).chldActive.erase t
      chldZombie := (s.task u).chldZombie.erase t } }

/-- kernel_thread of task c behind find_usable_pid -/
def kernelThread (s : Sys) (c pid new : ℕ) : Sys :=
  let s := { s.setTask new ⟨pid, .runnable, 0, some c, [], []⟩ with
    tasks := insert new s.tasks
    creator := fun u => if u = new then c else s.creator u
    passed := fun u => if u = new then none else s.passed u }
  let s := s.setTask c { s.task c with chldActive := new :: (s.task c).chldActive }
  addToPidLists s new

/-- the zombie branch of schedule -/
def becomeZombie (s : Sys) (c : ℕ) : Option Sys :=
  match (s.task c).parent with
  | none => none
  | some p =>
    let s := delChild s c
    some (s.setTask p { s.task p with chldZombie := c :: (s.task p).chldZombie })

def sysExit (s : Sys) (c : ℕ) (code : ℤ) : Option Sys :=
  if (s.task c).pid = 0 then none
  else becomeZombie { s.setTask c { s.task c with state := .zombie, exitCode := code } with
    passed := fun u => if u = c then some code else s.passed u } c

/-- the children of t go to i -/
def reparent (s : Sys) (t i : ℕ) : Sys :=
  { s with task := fun u =>
      let x := s.task u
      let x := if u ∈ (s.task t).chldActive ∨ u ∈ (s.task t).chldZombie then { x with parent := some i } else x
      if u = i then
        { x with
          chldActive := (s.task t).chldActive ++ x.chldActive
          chldZombie := (s.task t).chldZombie ++ x.chldZombie }
      else x }

def kthreadRelease (s : Sys) (t : ℕ) : Option Sys :=
  if (s.task t).state ≠ .dead ∨ (s.task t).pid = 0 then none
  else
    let s := { delChild (removeFromPidLists s t) t with tasks := s.tasks.erase t }
    if (s.task t).chldActive = [] ∧ (s.task t).chldZombie = [] then some s
    else match getTaskByPid s taskInitPid with
      | none => none
      | some init => some (reparent s t init)

/-- the end of both waits: task c releases t -/
def release (s : Sys) (c t : ℕ) : Option Sys :=
  let s := s.setCall c none
  let code := (s.task t).exitCode
  kthreadRelease { s.setTask t { s.task t with state := .dead } with releases := ⟨t, c, code⟩ :: s.releases } t

def sysWaitPid (s : Sys) (c pid : ℕ) : Sys :=
  match getTaskByPid s pid with
  | none => s
  | some t => if (s.task t).parent = some c then s.setCall c (some (.waitPid t)) else s

inductive Op
  | findPid (c : ℕ)
  | thread (c new : ℕ) (pageDir : Bool)
  | exit (c : ℕ) (code : ℤ)
  | waitPid (c pid : ℕ)
  | waitPidDone (c t : ℕ)
  | waitChld (c : ℕ)
  | waitChldDone (c t : ℕ)
deriving DecidableEq, Repr

/-- the task runs and is in no call -/
def Runs (s : Sys) (c : ℕ) : Prop := c ∈ s.tasks ∧ (s.task c).state = .runnable ∧ s.calls c = none

/-- init and idle never exit; a wait goes on when its event holds -/
def legal (s : Sys) : Op → Prop
  | .findPid c | .waitPid c _ | .waitChld c => Runs s c
  | .thread c new _ => (∃ pid, s.calls c = some (.thread pid)) ∧ new ∉ s.tasks ∧ new ∉ s.released
  | .exit c _ => Runs s c ∧ c ≠ 0 ∧ c ≠ 1
  | .waitPidDone c t => s.calls c = some (.waitPid t) ∧ (s.task t).state = .zombie
  | .waitChldDone c t => s.calls c = some .waitChld ∧ (s.task c).chldZombie.head? = some t

def step (s : Sys) : Op → Option Sys
  | .findPid c => (findUsablePid s).map fun (p, s) => s.setCall c (some (.thread p))
  | .thread c new pageDir =>
    match s.calls c with
    | some (.thread pid) => some (if pageDir then kernelThread (s.setCall c none) c pid new else s.setCall c none)
    | _ => some s
  | .exit c code => sysExit s c code
  | .waitPid c pid => some (sysWaitPid s c pid)
  | .waitPidDone c t => release s c t
  | .waitChld c => some (s.setCall c (some .waitChld))
  | .waitChldDone c t => release s c t

/-- idle and init -/
def boot : Sys where
  tasks := {0, 1}
  task := fun t => if t = 0 then ⟨0, .runnable, 0, none, [1], []⟩ else ⟨1, .runnable, 0, some 0, [], []⟩
  pidLists := fun k => if k = 0 then [0] else if k = 1 then [1] else []
  pidStart := 2
  calls := fun _ => none
  creator := fun _ => 0
  passed := fun _ => none
  releases := []

def system : Lts Sys Op where
  start := fun s => s = boot
  step := fun s o s' => legal s o ∧ step s o = some s'

/-! ## The tree -/

/-- each task was released by the task that created it, or by init after that one was released; the newest comes first -/
def OwnersOk (creator : ℕ → ℕ) : List Release → Prop
  | [] => True
  | r :: rs => (r.caller = creator r.task ∨ creator r.task ∈ rs.map Release.task ∧ r.caller = 1) ∧ OwnersOk creator rs

/-- the lists of children are what the parent fields and the states say -/
structure Family (s : Sys) : Prop where
  parent : ∀ t ∈ s.tasks, t ≠ 0 → ∃ p ∈ s.tasks, (s.task t).parent = some p
  active : ∀ p ∈ s.tasks, ∀ t, t ∈ (s.task p).chldActive ↔
    t ∈ s.tasks ∧ (s.task t).parent = some p ∧ (s.task t).state = .runnable
  zombie : ∀ p ∈ s.tasks, ∀ t, t ∈ (s.task p).chldZombie ↔
    t ∈ s.tasks ∧ (s.task t).parent = some p ∧ (s.task t).state = .zombie
  nodupA : ∀ p ∈ s.tasks, (s.task p).chldActive.Nodup
  nodupZ : ∀ p ∈ s.tasks, (s.task p).chldZombie.Nodup

/-- idle, init and the pids -/
structure Named (s : Sys) : Prop where
  idle : 0 ∈ s.tasks ∧ (s.task 0).pid = 0 ∧ (s.task 0).parent = none ∧ (s.task 0).state = .runnable
  init : 1 ∈ s.tasks ∧ (s.task 1).pid = 1 ∧ (s.task 1).state = .runnable
  pid : ∀ t ∈ s.tasks, ((s.task t).pid = 0 → t = 0) ∧ ((s.task t).pid = 1 → t = 1)
  lists : ∀ k t, t ∈ s.pidLists k ↔ t ∈ s.tasks ∧ k = (s.task t).pid % nrPidLists
  lnodup : ∀ k, (s.pidLists k).Nodup
  threads : ∀ c p, s.calls c = some (.thread p) → p ≠ 0 ∧ p ≠ 1

/-- what has happened -/
structure Told (s : Sys) : Prop where
  state : ∀ t ∈ s.tasks, (s.task t).state = .runnable ∨ (s.task t).state = .zombie
  code : ∀ t ∈ s.tasks, (s.task t).state = .zombie → s.passed t = some (s.task t).exitCode
  creator : ∀ t ∈ s.tasks, t ≠ 0 → (s.task t).parent = some (s.creator t) ∨
    s.creator t ∈ s.released ∧ (s.task t).parent = some 1
  waits : ∀ c t, s.calls c = some (.waitPid t) → t ∈ s.tasks ∧ (s.task t).parent = some c
  chld : ∀ c, s.calls c ≠ none → c ∈ s.tasks ∧ (s.task c).state = .runnable
  gone : ∀ r ∈ s.releases, r.task ∉ s.tasks ∧ s.passed r.task = some r.code
  once : s.released.Nodup
  owners : OwnersOk s.creator s.releases

/-- **The invariant.** -/
structure TreeOk (s : Sys) : Prop where
  family : Family s
  named : Named s
  told : Told s

variable {s s' : Sys} {c t u p pid new : ℕ}

theorem Told.running (h : Told s) (ht : t ∈ s.tasks) : (s.task t).state ≠ .zombie ↔ (s.task t).state = .runnable := by
  rcases h.state t ht with hs | hs <;> rw [hs] <;> decide

theorem Told.no_call (h : Told s) (hz : (s.task t).state = .zombie) : s.calls t = none := by
  by_contra hne
  have := (h.chld t hne).2
  rw [hz] at this
  exact nomatch this

/-! ## pids -/

theorem getTaskByPid_some (h : Named s) (hg : getTaskByPid s pid = some t) : t ∈ s.tasks ∧ (s.task t).pid = pid :=
  ⟨((h.lists _ t).1 (List.mem_of_find?_eq_some hg)).1, by simpa using List.find?_some hg⟩

/-- init is found, as long as it is in its list -/
theorem getTaskByPid_init (hin : 1 ∈ s.pidLists 1) (hpid : (s.task 1).pid = 1)
    (hone : ∀ t ∈ s.pidLists 1, (s.task t).pid = 1 → t = 1) : getTaskByPid s taskInitPid = some 1 := by
  cases hg : getTaskByPid s taskInitPid with
  | none => exact absurd (List.find?_eq_none.1 hg 1 hin) (by simp [hpid, taskInitPid])
  | some t =>
    have hpid' : (s.task t).pid = taskInitPid := by simpa using List.find?_some hg
    exact congrArg some (hone t (List.mem_of_find?_eq_some hg) hpid')

/-- the pid that is found is no task's -/
theorem findUsablePid_fresh (h : findUsablePid s = some (p, s')) :
    (∀ t ∈ s.tasks, (s.task t).pid ≠ p) ∧ s' = { s with pidStart := (p + 1) % 2 ^ 32 } := by
  rw [findUsablePid] at h
  split at h
  · exact nomatch h
  · rename_i q hq
    obtain ⟨rfl, rfl⟩ := Prod.mk.inj (Option.some.inj h)
    exact ⟨by simpa using List.find?_some hq, rfl⟩

/-- there is one while the pids do not run out -/
theorem findUsablePid_isSome (h : s.tasks.card < 2 ^ 32) : (findUsablePid s).isSome := by
  rw [findUsablePid]
  split
  · rename_i hnone
    exfalso
    -- more candidates than tasks
    have hsub : (Finset.range (s.tasks.card + 1)).image (fun k => (s.pidStart + k) % 2 ^ 32) ⊆
        s.tasks.image fun t => (s.task t).pid := fun p hp => by
      obtain ⟨k, hk, rfl⟩ := Finset.mem_image.1 hp
      have hcand := List.find?_eq_none.1 hnone _
        (List.mem_map.2 ⟨k, List.mem_range.2 (Finset.mem_range.1 hk), rfl⟩)
      simp only [ne_eq, decide_eq_true_eq, not_forall, not_not] at hcand
      obtain ⟨t, ht, he⟩ := hcand
      exact Finset.mem_image.2 ⟨t, ht, he⟩
    have hinj : Set.InjOn (fun k => (s.pidStart + k) % 2 ^ 32) (Finset.range (s.tasks.card + 1)) := fun a ha b hb hab => by
      have ha := Finset.mem_range.1 (Finset.mem_coe.1 ha)
      have hb := Finset.mem_range.1 (Finset.mem_coe.1 hb)
      dsimp only at hab
      omega
    have hle := Finset.card_le_card hsub
    rw [Finset.card_image_of_injOn hinj, Finset.card_range] at hle
    have := Finset.card_image_le (s := s.tasks) (f := fun t => (s.task t).pid)
    omega
  · rfl

/-! ## Calls that begin and end -/

theorem TreeOk.setCall (h : TreeOk s) {x : Option Call}
    (hthread : ∀ p, x = some (.thread p) → p ≠ 0 ∧ p ≠ 1)
    (hwait : ∀ t, x = some (.waitPid t) → t ∈ s.tasks ∧ (s.task t).parent = some c)
    (hc : x ≠ none → c ∈ s.tasks ∧ (s.task c).state = .runnable) : TreeOk (s.setCall c x) := by
  have hcall : ∀ u, (s.setCall c x).calls u = if u = c then x else s.calls u := fun _ => rfl
  refine ⟨⟨h.family.parent, h.family.active, h.family.zombie, h.family.nodupA, h.family.nodupZ⟩,
    ⟨h.named.idle, h.named.init, h.named.pid, h.named.lists, h.named.lnodup, fun u p hu => ?_⟩,
    ⟨h.told.state, h.told.code, h.told.creator, fun u t hu => ?_, fun u hu => ?_, h.told.gone, h.told.once, h.told.owners⟩⟩
  · rw [hcall] at hu
    split_ifs at hu
    · exact hthread p hu
    · exact h.named.threads u p hu
  · rw [hcall] at hu
    split_ifs at hu with huc
    · rw [huc]; exact hwait t hu
    · exact h.told.waits u t hu
  · rw [hcall] at hu
    split_ifs at hu with huc
    · rw [huc]; exact hc hu
    · exact h.told.chld u hu

theorem endCall_ok (h : TreeOk s) : TreeOk (s.setCall c none) :=
  h.setCall (fun _ hp => nomatch hp) (fun _ ht => nomatch ht) fun hn => absurd rfl hn

theorem findPid_ok (h : TreeOk s) (hc : Runs s c) (hf : findUsablePid s = some (p, s')) :
    TreeOk (s'.setCall c (some (.thread p))) := by
  obtain ⟨hfresh, rfl⟩ := findUsablePid_fresh hf
  have h1 : TreeOk { s with pidStart := (p + 1) % 2 ^ 32 } :=
    ⟨⟨h.family.parent, h.family.active, h.family.zombie, h.family.nodupA, h.family.nodupZ⟩,
      ⟨h.named.idle, h.named.init, h.named.pid, h.named.lists, h.named.lnodup, h.named.threads⟩,
      ⟨h.told.state, h.told.code, h.told.creator, h.told.waits, h.told.chld, h.told.gone, h.told.once, h.told.owners⟩⟩
  refine h1.setCall (fun q hq => ?_) (fun _ ht => nomatch ht) fun _ => ⟨hc.1, hc.2.1⟩
  obtain rfl : p = q := by injection hq with hq; injection hq
  refine ⟨fun h0 => ?_, fun h0 => ?_⟩
  · exact hfresh 0 h.named.idle.1 (h.named.idle.2.1.trans h0.symm)
  · exact hfresh 1 h.named.init.1 (h.named.init.2.1.trans h0.symm)

theorem sysWaitPid_ok (h : TreeOk s) (hc : Runs s c) (pid : ℕ) : TreeOk (sysWaitPid s c pid) := by
  rw [sysWaitPid]
  cases hg : getTaskByPid s pid with
  | none => exact h
  | some t =>
    dsimp only
    split_ifs with hp
    · refine h.setCall (fun _ hq => nomatch hq) (fun u hu => ?_) fun _ => ⟨hc.1, hc.2.1⟩
      obtain rfl : t = u := by injection hu with hu; injection hu
      exact ⟨(getTaskByPid_some h.named hg).1, hp⟩
    · exact h

theorem waitChld_ok (h : TreeOk s) (hc : Runs s c) : TreeOk (s.setCall c (some .waitChld)) :=
  h.setCall (fun _ hp => nomatch hp) (fun _ ht => nomatch ht) fun _ => ⟨hc.1, hc.2.1⟩

/-! ## A new thread -/

/-- what kernel_thread does -/
structure Threaded (s s' : Sys) (c pid new : ℕ) : Prop where
  tasks : s'.tasks = insert new s.tasks
  self : s'.task new = ⟨pid, .runnable, 0, some c, [], []⟩
  other : ∀ u, u ≠ new → s'.task u =
    { s.task u with chldActive := if u = c then new :: (s.task u).chldActive else (s.task u).chldActive }
  pidLists : ∀ k, s'.pidLists k = if k = pid % nrPidLists then new :: s.pidLists k else s.pidLists k
  calls : s'.calls = s.calls
  creator : ∀ u, s'.creator u = if u = new then c else s.creator u
  passed : ∀ u, s'.passed u = if u = new then none else s.passed u
  releases : s'.releases = s.releases

theorem kernelThread_threaded (hne : c ≠ new) : Threaded s (kernelThread s c pid new) c pid new := by
  have hself : (kernelThread s c pid new).task new = ⟨pid, .runnable, 0, some c, [], []⟩ := by
    simp only [kernelThread, addToPidLists, Sys.setTask]
    rw [if_neg (Ne.symm hne), if_pos trivial]
  refine ⟨rfl, hself, fun u hu => ?_, fun k => ?_, rfl, fun _ => rfl, fun _ => rfl, rfl⟩
  · simp only [kernelThread, addToPidLists, Sys.setTask]
    by_cases huc : u = c
    · subst huc
      simp only [if_true, if_neg hu]
    · simp only [if_neg huc, if_neg hu]
  · have hpid : ((kernelThread s c pid new).task new).pid = pid := congrArg Task.pid hself
    exact congrArg (fun q => if k = q % nrPidLists then new :: s.pidLists k else s.pidLists k) hpid

section

variable (h : TreeOk s) (hth : Threaded s s' c pid new) (hc : c ∈ s.tasks) (hnew : new ∉ s.tasks)

include hth hnew in
/-- the old tasks keep all but their children -/
theorem Threaded.field (hu : u ∈ s.tasks) : u ≠ new ∧ (s'.task u).parent = (s.task u).parent ∧
    (s'.task u).state = (s.task u).state ∧ (s'.task u).pid = (s.task u).pid ∧ (s'.task u).exitCode = (s.task u).exitCode := by
  have hne : u ≠ new := fun he => hnew (he ▸ hu)
  rw [hth.other u hne]
  exact ⟨hne, rfl, rfl, rfl, rfl⟩

include h hnew in
/-- the new task is nobody's parent -/
theorem no_parent_new (hu : u ∈ s.tasks) : (s.task u).parent ≠ some new := fun he => by
  by_cases hu0 : u = 0
  · rw [hu0, h.named.idle.2.2.1] at he
    exact nomatch he
  · obtain ⟨p, hp, hpar⟩ := h.family.parent u hu hu0
    rw [hpar] at he
    exact hnew (Option.some.inj he ▸ hp)

include h hth hc hnew in
theorem thread_family : Family s' := by
  have hne : c ≠ new := fun he => hnew (he ▸ hc)
  have hright : ∀ u p st, (u ∈ s'.tasks ∧ (s'.task u).parent = some p ∧ (s'.task u).state = st) ↔
      (u = new ∧ p = c ∧ st = .runnable) ∨ (u ∈ s.tasks ∧ (s.task u).parent = some p ∧ (s.task u).state = st) :=
    fun u p st => by
      rw [hth.tasks, Finset.mem_insert]
      by_cases hun : u = new
      · rw [hun, hth.self]; simp [hnew, eq_comm]
      · by_cases hu : u ∈ s.tasks
        · obtain ⟨-, f1, f2, -⟩ := hth.field hnew hu
          rw [f1, f2]; simp [hun]
        · simp [hun, hu]
  refine ⟨fun u hu hu0 => ?_, fun p hp u => ?_, fun p hp u => ?_, fun p hp => ?_, fun p hp => ?_⟩
  · rw [hth.tasks] at hu ⊢
    rcases Finset.mem_insert.1 hu with rfl | hu
    · exact ⟨c, Finset.mem_insert_of_mem hc, by rw [hth.self]⟩
    · obtain ⟨p, hp, hpar⟩ := h.family.parent u hu hu0
      exact ⟨p, Finset.mem_insert_of_mem hp, (hth.field hnew hu).2.1.trans hpar⟩
  · rw [hright]
    rcases Finset.mem_insert.1 (hth.tasks ▸ hp) with rfl | hp
    · rw [hth.self]
      simp only [List.not_mem_nil, false_iff, not_or, not_and]
      exact ⟨fun _ he => absurd he.symm hne, fun hu he => absurd he (no_parent_new h hnew hu)⟩
    · rw [hth.other p (hth.field hnew hp).1, ← h.family.active p hp u]
      dsimp only
      split_ifs with hpc
      · rw [List.mem_cons]; simp [hpc]
      · simp [hpc]
  · rw [hright]
    rcases Finset.mem_insert.1 (hth.tasks ▸ hp) with rfl | hp
    · rw [hth.self]
      simp only [List.not_mem_nil, false_iff, not_or, not_and]
      exact ⟨fun _ he => absurd he.symm hne, fun hu he => absurd he (no_parent_new h hnew hu)⟩
    · rw [hth.other p (hth.field hnew hp).1, ← h.family.zombie p hp u]
      simp
  · rcases Finset.mem_insert.1 (hth.tasks ▸ hp) with rfl | hp
    · rw [hth.self]; exact List.nodup_nil
    · rw [hth.other p (hth.field hnew hp).1]
      dsimp only
      split_ifs
      · exact List.nodup_cons.2 ⟨fun hm => hnew ((h.family.active p hp new).1 hm).1, h.family.nodupA p hp⟩
      · exact h.family.nodupA p hp
  · rcases Finset.mem_insert.1 (hth.tasks ▸ hp) with rfl | hp
    · rw [hth.self]; exact List.nodup_nil
    · rw [hth.other p (hth.field hnew hp).1]
      exact h.family.nodupZ p hp

include h hth hnew in
theorem thread_named (h0 : pid ≠ 0) (h1 : pid ≠ 1) : Named s' := by
  refine ⟨?_, ?_, fun u hu => ?_, fun k u => ?_, fun k => ?_, by rw [hth.calls]; exact h.named.threads⟩
  · obtain ⟨i1, i2, i3, i4⟩ := h.named.idle
    obtain ⟨-, f1, f2, f3, -⟩ := hth.field hnew i1
    exact ⟨hth.tasks ▸ Finset.mem_insert_of_mem i1, f3.trans i2, f1.trans i3, f2.trans i4⟩
  · obtain ⟨i1, i2, i3⟩ := h.named.init
    obtain ⟨-, -, f2, f3, -⟩ := hth.field hnew i1
    exact ⟨hth.tasks ▸ Finset.mem_insert_of_mem i1, f3.trans i2, f2.trans i3⟩
  · rcases Finset.mem_insert.1 (hth.tasks ▸ hu) with rfl | hu
    · rw [hth.self]; exact ⟨fun he => absurd he h0, fun he => absurd he h1⟩
    · rw [(hth.field hnew hu).2.2.2.1]; exact h.named.pid u hu
  · rw [hth.pidLists, hth.tasks, Finset.mem_insert]
    by_cases hun : u = new
    · have hout : new ∉ s.pidLists k := fun hin => hnew ((h.named.lists k new).1 hin).1
      rw [hun, hth.self]
      dsimp only
      split_ifs with hk
      · simp [hk]
      · simp [hk, hout]
    · have hold : u ∈ (if k = pid % nrPidLists then new :: s.pidLists k else s.pidLists k) ↔ u ∈ s.pidLists k := by
        split_ifs
        · simp [hun]
        · rfl
      rw [hold, h.named.lists k u]
      by_cases hu : u ∈ s.tasks
      · rw [(hth.field hnew hu).2.2.2.1]; simp [hun]
      · simp [hun, hu]
  · rw [hth.pidLists]
    split_ifs
    · exact List.nodup_cons.2 ⟨fun hin => hnew ((h.named.lists k new).1 hin).1, h.named.lnodup k⟩
    · exact h.named.lnodup k

/-- the record of a new task does not matter to the old releases -/
theorem OwnersOk.congr {f g : ℕ → ℕ} {rs : List Release} (h : OwnersOk f rs) (he : ∀ r ∈ rs, g r.task = f r.task) :
    OwnersOk g rs := by
  induction rs with
  | nil => trivial
  | cons r rs ih =>
    refine ⟨?_, ih h.2 fun r' hr' => he r' (List.mem_cons_of_mem r hr')⟩
    rw [he r List.mem_cons_self]
    exact h.1

include h hth hnew in
theorem thread_told (hfresh : new ∉ s.released) : Told s' := by
  have hgone : ∀ r ∈ s.releases, r.task ≠ new := fun r hr he => hfresh (he ▸ List.mem_map_of_mem hr)
  have hreleased : s'.released = s.released := congrArg (List.map Release.task) hth.releases
  refine ⟨fun u hu => ?_, fun u hu hz => ?_, fun u hu hu0 => ?_, fun d u hd => ?_, fun d hd => ?_, fun r hr => ?_,
    by rw [hreleased]; exact h.told.once, ?_⟩
  · rcases Finset.mem_insert.1 (hth.tasks ▸ hu) with rfl | hu
    · rw [hth.self]; exact .inl rfl
    · rw [(hth.field hnew hu).2.2.1]; exact h.told.state u hu
  · rcases Finset.mem_insert.1 (hth.tasks ▸ hu) with rfl | hu
    · rw [hth.self] at hz; exact nomatch hz
    · obtain ⟨hne, -, f2, -, f4⟩ := hth.field hnew hu
      rw [hth.passed, f4, if_neg hne]
      exact h.told.code u hu (f2.symm.trans hz)
  · rw [hth.creator, hreleased]
    rcases Finset.mem_insert.1 (hth.tasks ▸ hu) with rfl | hu
    · rw [hth.self]; exact .inl (congrArg some (if_pos rfl).symm)
    · obtain ⟨hne, f1, -⟩ := hth.field hnew hu
      rw [f1, if_neg hne]
      exact h.told.creator u hu hu0
  · rw [hth.calls] at hd
    obtain ⟨hu, hpar⟩ := h.told.waits d u hd
    exact ⟨hth.tasks ▸ Finset.mem_insert_of_mem hu, (hth.field hnew hu).2.1.trans hpar⟩
  · rw [hth.calls] at hd
    obtain ⟨hd1, hd2⟩ := h.told.chld d hd
    exact ⟨hth.tasks ▸ Finset.mem_insert_of_mem hd1, (hth.field hnew hd1).2.2.1.trans hd2⟩
  · rw [hth.releases] at hr
    obtain ⟨hr1, hr2⟩ := h.told.gone r hr
    rw [hth.tasks, hth.passed, if_neg (hgone r hr)]
    exact ⟨fun hm => (Finset.mem_insert.1 hm).elim (hgone r hr) hr1, hr2⟩
  · rw [hth.releases]
    exact h.told.owners.congr fun r hr => by rw [hth.creator, if_neg (hgone r hr)]

end

theorem kernelThread_ok (h : TreeOk s) (hc : c ∈ s.tasks) (h0 : pid ≠ 0) (h1 : pid ≠ 1) (hnew : new ∉ s.tasks)
    (hfresh : new ∉ s.released) : TreeOk (kernelThread s c pid new) := by
  have hth : Threaded s (kernelThread s c pid new) c pid new := kernelThread_threaded fun he => hnew (he ▸ hc)
  exact ⟨thread_family h hth hc hnew, thread_named h hth hnew h0 h1, thread_told h hth hnew hfresh⟩

/-! ## A task exits -/

/-- what sys_exit and the zombie branch of schedule do -/
structure Exited (s s' : Sys) (c p : ℕ) (code : ℤ) : Prop where
  tasks : s'.tasks = s.tasks
  parent : ∀ u, (s'.task u).parent = (s.task u).parent
  pid : ∀ u, (s'.task u).pid = (s.task u).pid
  state : ∀ u, (s'.task u).state = if u = c then .zombie else (s.task u).state
  exitCode : ∀ u, (s'.task u).exitCode = if u = c then code else (s.task u).exitCode
  active : ∀ q, (s'.task q).chldActive = (s.task q).chldActive.erase c
  zombie : ∀ q, (s'.task q).chldZombie =
    if q = p then c :: (s.task q).chldZombie.erase c else (s.task q).chldZombie.erase c
  passed : ∀ u, s'.passed u = if u = c then some code else s.passed u
  pidLists : s'.pidLists = s.pidLists
  calls : s'.calls = s.calls
  creator : s'.creator = s.creator
  releases : s'.releases = s.releases

theorem sysExit_exited (code : ℤ) (hpid : (s.task c).pid ≠ 0) (hp : (s.task c).parent = some p) :
    ∃ s', sysExit s c code = some s' ∧ Exited s s' c p code := by
  rw [sysExit, if_neg hpid]
  set s1 : Sys := { s.setTask c { s.task c with state := .zombie, exitCode := code } with
    passed := fun u => if u = c then some code else s.passed u } with hs1
  have hself : s1.task c = { s.task c with state := .zombie, exitCode := code } := if_pos rfl
  have hother : ∀ u, u ≠ c → s1.task u = s.task u := fun u hu => if_neg hu
  have hfield : ∀ u, (s1.task u).parent = (s.task u).parent ∧ (s1.task u).pid = (s.task u).pid ∧
      (s1.task u).state = (if u = c then .zombie else (s.task u).state) ∧
      (s1.task u).exitCode = (if u = c then code else (s.task u).exitCode) ∧
      (s1.task u).chldActive = (s.task u).chldActive ∧ (s1.task u).chldZombie = (s.task u).chldZombie := fun u => by
    by_cases hu : u = c
    · rw [hu, hself, if_pos rfl, if_pos rfl]; exact ⟨rfl, rfl, rfl, rfl, rfl, rfl⟩
    · rw [hother u hu, if_neg hu, if_neg hu]; exact ⟨rfl, rfl, rfl, rfl, rfl, rfl⟩
  have hpar : (s1.task c).parent = some p := (hfield c).1.trans hp
  rw [becomeZombie, hpar]
  -- list_move leaves all but the lists as they are
  have hmove : ∀ u, ((delChild s1 c).setTask p { (delChild s1 c).task p with
      chldZombie := c :: ((delChild s1 c).task p).chldZombie }).task u =
      { s1.task u with
        chldActive := (s1.task u).chldActive.erase c
        chldZombie := if u = p then c :: (s1.task u).chldZombie.erase c else (s1.task u).chldZombie.erase c } := fun u => by
    simp only [Sys.setTask, delChild]
    split_ifs with hu
    · rw [hu]
    · rfl
  refine ⟨_, rfl, rfl, fun u => ?_, fun u => ?_, fun u => ?_, fun u => ?_, fun u => ?_, fun u => ?_, fun _ => rfl, rfl, rfl,
    rfl, rfl⟩
  · rw [hmove]; exact (hfield u).1
  · rw [hmove]; exact (hfield u).2.1
  · rw [hmove]; exact (hfield u).2.2.1
  · rw [hmove]; exact (hfield u).2.2.2.1
  · rw [hmove, (hfield u).2.2.2.2.1]
  · rw [hmove, (hfield u).2.2.2.2.2]

theorem exit_ok {code : ℤ} (h : TreeOk s) (he : Exited s s' c p code) (hc : Runs s c) (h0 : c ≠ 0) (h1 : c ≠ 1)
    (hp : (s.task c).parent = some p) : TreeOk s' := by
  have hin : c ∈ s.tasks := hc.1
  have hstate : ∀ u, u ≠ c → (s'.task u).state = (s.task u).state := fun u hu => (he.state u).trans (if_neg hu)
  have hself : (s'.task c).state = .zombie := (he.state c).trans (if_pos rfl)
  have hreleased : s'.released = s.released := congrArg (List.map Release.task) he.releases
  refine ⟨⟨fun u hu hu0 => ?_, fun q hq u => ?_, fun q hq u => ?_, fun q hq => ?_, fun q hq => ?_⟩,
    ⟨?_, ?_, fun u hu => ?_, fun k u => ?_, by rw [he.pidLists]; exact h.named.lnodup, by
      rw [he.calls]; exact h.named.threads⟩,
    ⟨fun u hu => ?_, fun u hu hz => ?_, fun u hu hu0 => ?_, fun d u hd => ?_, fun d hd => ?_, fun r hr => ?_,
      by rw [hreleased]; exact h.told.once, by rw [he.releases, he.creator]; exact h.told.owners⟩⟩
  · rw [he.tasks] at hu ⊢
    rw [he.parent]
    exact h.family.parent u hu hu0
  · rw [he.tasks] at hq ⊢
    rw [he.active, (h.family.nodupA q hq).mem_erase_iff, h.family.active q hq u, he.parent]
    by_cases huc : u = c
    · rw [huc, hself]; simp
    · rw [hstate u huc]; simp [huc]
  · rw [he.tasks] at hq ⊢
    rw [he.parent, he.zombie]
    have hmem := (h.family.nodupZ q hq).mem_erase_iff (a := u) (b := c)
    rw [h.family.zombie q hq u] at hmem
    by_cases huc : u = c
    · rw [huc, hself, hp]
      split_ifs with hqp
      · simp [hqp, hin]
      · have hnot : c ∉ (s.task q).chldZombie.erase c := (h.family.nodupZ q hq).not_mem_erase
        simp [hnot, Ne.symm hqp]
    · rw [hstate u huc]
      split_ifs with hqp
      · rw [List.mem_cons, hmem]; simp [huc]
      · rw [hmem]; simp [huc]
  · rw [he.active]
    exact (h.family.nodupA q (he.tasks ▸ hq)).erase c
  · rw [he.zombie]
    have hnd := h.family.nodupZ q (he.tasks ▸ hq)
    split_ifs
    · exact List.nodup_cons.2 ⟨hnd.not_mem_erase, hnd.erase c⟩
    · exact hnd.erase c
  · obtain ⟨i1, i2, i3, i4⟩ := h.named.idle
    exact ⟨he.tasks ▸ i1, (he.pid 0).trans i2, (he.parent 0).trans i3, (hstate 0 (Ne.symm h0)).trans i4⟩
  · obtain ⟨i1, i2, i3⟩ := h.named.init
    exact ⟨he.tasks ▸ i1, (he.pid 1).trans i2, (hstate 1 (Ne.symm h1)).trans i3⟩
  · rw [he.pid]
    exact h.named.pid u (he.tasks ▸ hu)
  · rw [he.pidLists, he.tasks, he.pid]
    exact h.named.lists k u
  · by_cases huc : u = c
    · rw [huc]; exact .inr hself
    · rw [hstate u huc]; exact h.told.state u (he.tasks ▸ hu)
  · rw [he.passed, he.exitCode]
    split_ifs with huc
    · rfl
    · exact h.told.code u (he.tasks ▸ hu) ((hstate u huc).symm.trans hz)
  · rw [he.creator, hreleased, he.parent]
    exact h.told.creator u (he.tasks ▸ hu) hu0
  · rw [he.calls] at hd
    rw [he.tasks, he.parent]
    exact h.told.waits d u hd
  · rw [he.calls] at hd
    have hdc : d ≠ c := fun hdc => hd (hdc ▸ hc.2.2)
    rw [he.tasks, hstate d hdc]
    exact h.told.chld d hd
  · rw [he.releases] at hr
    obtain ⟨hr1, hr2⟩ := h.told.gone r hr
    have hrc : r.task ≠ c := fun hrc => hr1 (hrc ▸ hin)
    rw [he.tasks, he.passed, if_neg hrc]
    exact ⟨hr1, hr2⟩

/-! ## A zombie is released -/

/-- what the end of a wait does: task t, a zombie child of c, is gone, and init has its children -/
structure Released (s s' : Sys) (c t : ℕ) : Prop where
  tasks : s'.tasks = s.tasks.erase t
  pid : ∀ u, (s'.task u).pid = (s.task u).pid
  exitCode : ∀ u, (s'.task u).exitCode = (s.task u).exitCode
  state : ∀ u, u ≠ t → (s'.task u).state = (s.task u).state
  parent : ∀ u ∈ s.tasks, u ≠ t → (s'.task u).parent =
    if (s.task u).parent = some t then some 1 else (s.task u).parent
  active : ∀ q, q ≠ t → (s'.task q).chldActive =
    (if q = 1 then (s.task t).chldActive else []) ++ (s.task q).chldActive.erase t
  zombie : ∀ q, q ≠ t → (s'.task q).chldZombie =
    (if q = 1 then (s.task t).chldZombie else []) ++ (s.task q).chldZombie.erase t
  pidLists : ∀ k, s'.pidLists k = (s.pidLists k).erase t
  calls : s'.calls = (s.setCall c none).calls
  creator : s'.creator = s.creator
  passed : s'.passed = s.passed
  releases : s'.releases = ⟨t, c, (s.task t).exitCode⟩ :: s.releases

/-- a zombie child of a running task -/
structure Reaps (s : Sys) (c t : ℕ) : Prop where
  caller : c ∈ s.tasks ∧ (s.task c).state = .runnable
  task : t ∈ s.tasks
  parent : (s.task t).parent = some c
  state : (s.task t).state = .zombie

theorem Reaps.ne (h : Reaps s c t) (hs : TreeOk s) : t ≠ 0 ∧ t ≠ 1 ∧ t ≠ c := by
  refine ⟨fun he => ?_, fun he => ?_, fun he => ?_⟩
  · have := hs.named.idle.2.2.2; rw [← he, h.state] at this; exact nomatch this
  · have := hs.named.init.2.2; rw [← he, h.state] at this; exact nomatch this
  · have := h.caller.2; rw [← he, h.state] at this; exact nomatch this

/-- t is not its own child -/
theorem Reaps.own (h : Reaps s c t) (hs : TreeOk s) : t ∉ (s.task t).chldActive ∧ t ∉ (s.task t).chldZombie := by
  have hct : c ≠ t := Ne.symm (h.ne hs).2.2
  refine ⟨fun hin => hct ?_, fun hin => hct ?_⟩
  · have := ((hs.family.active t h.task t).1 hin).2.1
    exact Option.some.inj (h.parent.symm.trans this)
  · have := ((hs.family.zombie t h.task t).1 hin).2.1
    exact Option.some.inj (h.parent.symm.trans this)

/-- the children of t -/
theorem child_iff (hs : TreeOk s) (ht : t ∈ s.tasks) (hu : u ∈ s.tasks) :
    (u ∈ (s.task t).chldActive ∨ u ∈ (s.task t).chldZombie) ↔ (s.task u).parent = some t := by
  rw [hs.family.active t ht u, hs.family.zombie t ht u]
  constructor
  · rintro (⟨-, h, -⟩ | ⟨-, h, -⟩) <;> exact h
  · intro h
    rcases hs.told.state u hu with hst | hst
    · exact .inl ⟨hu, h, hst⟩
    · exact .inr ⟨hu, h, hst⟩

theorem reparent_task (s : Sys) (t i u : ℕ) : (reparent s t i).task u = { s.task u with
    parent := if u ∈ (s.task t).chldActive ∨ u ∈ (s.task t).chldZombie then some i else (s.task u).parent
    chldActive := (if u = i then (s.task t).chldActive else []) ++ (s.task u).chldActive
    chldZombie := (if u = i then (s.task t).chldZombie else []) ++ (s.task u).chldZombie } := by
  simp only [reparent]
  split_ifs <;> rfl

theorem release_released (hs : TreeOk s) (h : Reaps s c t) : ∃ s', release s c t = some s' ∧ Released s s' c t := by
  obtain ⟨ht0, ht1, htc⟩ := h.ne hs
  obtain ⟨hownA, hownZ⟩ := h.own hs
  have hpid0 : (s.task t).pid ≠ 0 := fun he => ht0 ((hs.named.pid t h.task).1 he)
  rw [release]
  -- the state with the node of t taken out
  set s1 : Sys := { (s.setCall c none).setTask t { s.task t with state := .dead } with
    releases := ⟨t, c, (s.task t).exitCode⟩ :: s.releases } with hs1
  have hself : s1.task t = { s.task t with state := .dead } := if_pos rfl
  have hother : ∀ u, u ≠ t → s1.task u = s.task u := fun u hu => if_neg hu
  have hfield : ∀ u, (s1.task u).pid = (s.task u).pid ∧ (s1.task u).exitCode = (s.task u).exitCode ∧
      (s1.task u).parent = (s.task u).parent ∧ (s1.task u).chldActive = (s.task u).chldActive ∧
      (s1.task u).chldZombie = (s.task u).chldZombie := fun u => by
    by_cases hu : u = t
    · rw [hu, hself]; exact ⟨rfl, rfl, rfl, rfl, rfl⟩
    · rw [hother u hu]; exact ⟨rfl, rfl, rfl, rfl, rfl⟩
  set s2 : Sys := { delChild (removeFromPidLists s1 t) t with tasks := s1.tasks.erase t } with hs2
  have htask2 : ∀ u, s2.task u = { s1.task u with
      chldActive := (s1.task u).chldActive.erase t, chldZombie := (s1.task u).chldZombie.erase t } := fun _ => rfl
  have hA : (s2.task t).chldActive = (s.task t).chldActive := by
    rw [htask2]; dsimp only; rw [(hfield t).2.2.2.1, List.erase_of_not_mem hownA]
  have hZ : (s2.task t).chldZombie = (s.task t).chldZombie := by
    rw [htask2]; dsimp only; rw [(hfield t).2.2.2.2, List.erase_of_not_mem hownZ]
  have hinit : getTaskByPid s2 taskInitPid = some 1 := by
    have hlist : s2.pidLists 1 = (s.pidLists 1).erase t := rfl
    have hp1 : ∀ u, (s2.task u).pid = (s.task u).pid := fun u => by rw [htask2]; exact (hfield u).1
    refine getTaskByPid_init ?_ ((hp1 1).trans hs.named.init.2.1) fun u hu hpu => ?_
    · rw [hlist, (hs.named.lnodup 1).mem_erase_iff, hs.named.lists]
      exact ⟨Ne.symm ht1, hs.named.init.1, by rw [hs.named.init.2.1]; rfl⟩
    · rw [hlist] at hu
      have hin := ((hs.named.lists 1 u).1 (List.mem_of_mem_erase hu)).1
      exact (hs.named.pid u hin).2 ((hp1 u).symm.trans hpu)
  have hrel : kthreadRelease s1 t = some (if (s.task t).chldActive = [] ∧ (s.task t).chldZombie = [] then s2
      else reparent s2 t 1) := by
    rw [kthreadRelease, if_neg (by rw [hself]; simpa using hpid0)]
    change (if (s2.task t).chldActive = [] ∧ (s2.task t).chldZombie = [] then some s2
      else match getTaskByPid s2 taskInitPid with
        | none => none
        | some init => some (reparent s2 t init)) = _
    rw [hA, hZ, hinit]
    split_ifs <;> rfl
  refine ⟨_, hrel, ?_⟩
  split_ifs with hnone
  · -- t has no children
    have hnochild : ∀ u ∈ s.tasks, (s.task u).parent ≠ some t := fun u hu he => by
      have := (child_iff hs h.task hu).2 he
      rw [hnone.1, hnone.2] at this
      simp at this
    refine ⟨rfl, fun u => (hfield u).1, fun u => (hfield u).2.1, fun u hu => ?_, fun u hu _ => ?_, fun q _ => ?_, fun q _ => ?_,
      fun _ => rfl, rfl, rfl, rfl, rfl⟩
    · exact (congrArg Task.state (hother u hu) : (s1.task u).state = _)
    · rw [if_neg (hnochild u hu)]
      exact (hfield u).2.2.1
    · rw [hnone.1, ite_self, List.nil_append, ← (hfield q).2.2.2.1]
      rfl
    · rw [hnone.2, ite_self, List.nil_append, ← (hfield q).2.2.2.2]
      rfl
  · refine ⟨rfl, fun u => ?_, fun u => ?_, fun u hu => ?_, fun u hu _ => ?_, fun q _ => ?_, fun q _ => ?_,
      fun _ => rfl, rfl, rfl, rfl, rfl⟩
    · rw [reparent_task]; exact (hfield u).1
    · rw [reparent_task]; exact (hfield u).2.1
    · rw [reparent_task]; exact (congrArg Task.state (hother u hu) : (s1.task u).state = _)
    · rw [reparent_task, hA, hZ]
      dsimp only
      rw [if_congr (child_iff hs h.task hu) rfl rfl]
      exact congrArg (fun x => if (s.task u).parent = some t then some 1 else x) (hfield u).2.2.1
    · rw [reparent_task, hA, ← (hfield q).2.2.2.1]
      rfl
    · rw [reparent_task, hZ, ← (hfield q).2.2.2.2]
      rfl

section

variable (hs : TreeOk s) (h : Reaps s c t) (hr : Released s s' c t)

include hs h hr in
theorem release_family : Family s' := by
  obtain ⟨ht0, ht1, htc⟩ := h.ne hs
  have hmem : ∀ {u}, u ∈ s'.tasks ↔ u ≠ t ∧ u ∈ s.tasks := fun {u} => by rw [hr.tasks, Finset.mem_erase]
  -- the children that a task has now
  have hright : ∀ u q st, q ∈ s.tasks → q ≠ t →
      ((u ∈ s'.tasks ∧ (s'.task u).parent = some q ∧ (s'.task u).state = st) ↔
        u ≠ t ∧ ((q = 1 ∧ u ∈ s.tasks ∧ (s.task u).parent = some t ∧ (s.task u).state = st) ∨
          (u ∈ s.tasks ∧ (s.task u).parent = some q ∧ (s.task u).state = st))) := fun u q st _ hq => by
    rw [hmem]
    by_cases hut : u = t
    · simp [hut]
    · by_cases hu : u ∈ s.tasks
      · rw [hr.parent u hu hut, hr.state u hut]
        by_cases hpt : (s.task u).parent = some t
        · rw [if_pos hpt, hpt]
          simp [hut, hu, Ne.symm hq, eq_comm]
        · rw [if_neg hpt]
          simp [hut, hu, hpt]
      · simp [hu]
  refine ⟨fun u hu hu0 => ?_, fun q hq u => ?_, fun q hq u => ?_, fun q hq => ?_, fun q hq => ?_⟩
  · obtain ⟨hut, hu⟩ := hmem.1 hu
    obtain ⟨q, hq, hpar⟩ := hs.family.parent u hu hu0
    rw [hr.parent u hu hut]
    split_ifs with hpt
    · exact ⟨1, hmem.2 ⟨Ne.symm ht1, hs.named.init.1⟩, rfl⟩
    · exact ⟨q, hmem.2 ⟨fun he => hpt (he ▸ hpar), hq⟩, hpar⟩
  · obtain ⟨hqt, hq⟩ := hmem.1 hq
    rw [hright u q _ hq hqt, hr.active q hqt, List.mem_append, (hs.family.nodupA q hq).mem_erase_iff, hs.family.active q hq u]
    split_ifs with hq1
    · rw [hs.family.active t h.task u]
      have hne : u ∈ s.tasks ∧ (s.task u).parent = some t ∧ (s.task u).state = .runnable → u ≠ t := fun hu he => by
        rw [he, h.state] at hu; exact nomatch hu.2.2
      tauto
    · simp [hq1]
  · obtain ⟨hqt, hq⟩ := hmem.1 hq
    rw [hright u q _ hq hqt, hr.zombie q hqt, List.mem_append, (hs.family.nodupZ q hq).mem_erase_iff, hs.family.zombie q hq u]
    split_ifs with hq1
    · rw [hs.family.zombie t h.task u]
      have hne : u ∈ s.tasks ∧ (s.task u).parent = some t ∧ (s.task u).state = .zombie → u ≠ t := fun hu he => by
        rw [he, h.parent] at hu; exact htc (Option.some.inj hu.2.1).symm
      tauto
    · simp [hq1]
  · obtain ⟨hqt, hq⟩ := hmem.1 hq
    rw [hr.active q hqt]
    refine List.nodup_append'.2 ⟨?_, (hs.family.nodupA q hq).erase t, fun u hu1 hu2 => ?_⟩
    · split_ifs
      · exact hs.family.nodupA t h.task
      · exact List.nodup_nil
    · split_ifs at hu1
      · have h1 := ((hs.family.active t h.task u).1 hu1).2.1
        have h2 := ((hs.family.active q hq u).1 (List.mem_of_mem_erase hu2)).2.1
        exact hqt (Option.some.inj (h2.symm.trans h1))
      · exact absurd hu1 List.not_mem_nil
  · obtain ⟨hqt, hq⟩ := hmem.1 hq
    rw [hr.zombie q hqt]
    refine List.nodup_append'.2 ⟨?_, (hs.family.nodupZ q hq).erase t, fun u hu1 hu2 => ?_⟩
    · split_ifs
      · exact hs.family.nodupZ t h.task
      · exact List.nodup_nil
    · split_ifs at hu1
      · have h1 := ((hs.family.zombie t h.task u).1 hu1).2.1
        have h2 := ((hs.family.zombie q hq u).1 (List.mem_of_mem_erase hu2)).2.1
        exact hqt (Option.some.inj (h2.symm.trans h1))
      · exact absurd hu1 List.not_mem_nil

include hs h hr in
theorem release_named : Named s' := by
  obtain ⟨ht0, ht1, htc⟩ := h.ne hs
  have hmem : ∀ {u}, u ∈ s'.tasks ↔ u ≠ t ∧ u ∈ s.tasks := fun {u} => by rw [hr.tasks, Finset.mem_erase]
  refine ⟨?_, ?_, fun u hu => ?_, fun k u => ?_, fun k => ?_, fun d p hd => ?_⟩
  · obtain ⟨i1, i2, i3, i4⟩ := hs.named.idle
    refine ⟨hmem.2 ⟨Ne.symm ht0, i1⟩, (hr.pid 0).trans i2, ?_, (hr.state 0 (Ne.symm ht0)).trans i4⟩
    rw [hr.parent 0 i1 (Ne.symm ht0), i3]
    rfl
  · obtain ⟨i1, i2, i3⟩ := hs.named.init
    exact ⟨hmem.2 ⟨Ne.symm ht1, i1⟩, (hr.pid 1).trans i2, (hr.state 1 (Ne.symm ht1)).trans i3⟩
  · rw [hr.pid]
    exact hs.named.pid u (hmem.1 hu).2
  · rw [hr.pidLists, (hs.named.lnodup k).mem_erase_iff, hs.named.lists k u, hmem, hr.pid, and_assoc]
  · rw [hr.pidLists]
    exact (hs.named.lnodup k).erase t
  · rw [hr.calls] at hd
    simp only [Sys.setCall] at hd
    split_ifs at hd
    exact hs.named.threads d p hd

include hs h hr in
theorem release_told : Told s' := by
  obtain ⟨ht0, ht1, htc⟩ := h.ne hs
  have hmem : ∀ {u}, u ∈ s'.tasks ↔ u ≠ t ∧ u ∈ s.tasks := fun {u} => by rw [hr.tasks, Finset.mem_erase]
  have hreleased : s'.released = t :: s.released := by rw [Sys.released, hr.releases]; rfl
  have hout : t ∉ s.released := fun hin => by
    obtain ⟨r, hr1, hr2⟩ := List.mem_map.1 hin
    exact (hs.told.gone r hr1).1 (hr2 ▸ h.task)
  have hcalls : ∀ d x, s'.calls d = some x → d ≠ c ∧ s.calls d = some x := fun d x hd => by
    rw [hr.calls] at hd
    simp only [Sys.setCall] at hd
    split_ifs at hd with hdc
    exact ⟨hdc, hd⟩
  refine ⟨fun u hu => ?_, fun u hu hz => ?_, fun u hu hu0 => ?_, fun d u hd => ?_, fun d hd => ?_, fun r hin => ?_, ?_, ?_⟩
  · obtain ⟨hut, hu⟩ := hmem.1 hu
    rw [hr.state u hut]
    exact hs.told.state u hu
  · obtain ⟨hut, hu⟩ := hmem.1 hu
    rw [hr.state u hut] at hz
    rw [hr.passed, hr.exitCode]
    exact hs.told.code u hu hz
  · obtain ⟨hut, hu⟩ := hmem.1 hu
    rw [hr.parent u hu hut, hr.creator, hreleased]
    split_ifs with hpt
    · -- init takes over from the creator, which is gone now
      refine .inr ⟨?_, rfl⟩
      rcases hs.told.creator u hu hu0 with hcr | ⟨-, hp1⟩
      · have heq : s.creator u = t := Option.some.inj (hcr.symm.trans hpt)
        rw [heq]
        exact List.mem_cons_self
      · exact absurd (Option.some.inj (hpt.symm.trans hp1)) ht1
    · rcases hs.told.creator u hu hu0 with hcr | ⟨hcr, hp1⟩
      · exact .inl hcr
      · exact .inr ⟨List.mem_cons_of_mem t hcr, hp1⟩
  · obtain ⟨hdc, hd⟩ := hcalls d _ hd
    obtain ⟨hu, hpar⟩ := hs.told.waits d u hd
    have hdt : d ≠ t := fun he => by
      have := hs.told.no_call h.state
      rw [he, this] at hd
      exact nomatch hd
    have hut : u ≠ t := fun he => by
      rw [he, h.parent] at hpar
      exact hdc (Option.some.inj hpar).symm
    refine ⟨hmem.2 ⟨hut, hu⟩, ?_⟩
    rw [hr.parent u hu hut, hpar, if_neg fun he => hdt (Option.some.inj he)]
  · obtain ⟨x, hx⟩ := Option.ne_none_iff_exists'.1 hd
    have hd := (hcalls d x hx).2
    obtain ⟨h1, h2⟩ := hs.told.chld d (by rw [hd]; exact Option.some_ne_none x)
    have hdt : d ≠ t := fun he => by rw [he, h.state] at h2; exact nomatch h2
    exact ⟨hmem.2 ⟨hdt, h1⟩, (hr.state d hdt).trans h2⟩
  · rw [hr.releases] at hin
    rw [hmem, hr.passed]
    rcases List.mem_cons.1 hin with rfl | hin
    · exact ⟨fun he => he.1 rfl, hs.told.code t h.task h.state⟩
    · obtain ⟨h1, h2⟩ := hs.told.gone r hin
      exact ⟨fun he => h1 he.2, h2⟩
  · rw [hreleased]
    exact List.nodup_cons.2 ⟨hout, hs.told.once⟩
  · rw [hr.releases, hr.creator]
    refine ⟨?_, hs.told.owners⟩
    rcases hs.told.creator t h.task ht0 with hcr | ⟨hcr, hp1⟩
    · exact .inl (Option.some.inj (h.parent.symm.trans hcr))
    · exact .inr ⟨hcr, Option.some.inj (h.parent.symm.trans hp1)⟩

end

theorem release_ok (hs : TreeOk s) (h : Reaps s c t) : ∃ s', release s c t = some s' ∧ TreeOk s' := by
  obtain ⟨s', hrel, hr⟩ := release_released hs h
  exact ⟨s', hrel, release_family hs h hr, release_named hs h hr, release_told hs h hr⟩

/-! ## Every run -/

theorem waitPidDone_reaps (hs : TreeOk s) (hc : s.calls c = some (.waitPid t)) (hz : (s.task t).state = .zombie) :
    Reaps s c t := by
  obtain ⟨ht, hp⟩ := hs.told.waits c t hc
  exact ⟨hs.told.chld c (by rw [hc]; exact Option.some_ne_none _), ht, hp, hz⟩

theorem waitChldDone_reaps (hs : TreeOk s) (hc : s.calls c = some .waitChld) (ht : (s.task c).chldZombie.head? = some t) :
    Reaps s c t := by
  have hrun := hs.told.chld c (by rw [hc]; exact Option.some_ne_none _)
  obtain ⟨h1, h2, h3⟩ := (hs.family.zombie c hrun.1 t).1 (List.mem_of_head? ht)
  exact ⟨hrun, h1, h2, h3⟩

theorem sysExit_ok (code : ℤ) (hs : TreeOk s) (hc : Runs s c) (h0 : c ≠ 0) (h1 : c ≠ 1) :
    ∃ s', sysExit s c code = some s' ∧ TreeOk s' := by
  obtain ⟨p, -, hp⟩ := hs.family.parent c hc.1 h0
  have hpid : (s.task c).pid ≠ 0 := fun he => h0 ((hs.named.pid c hc.1).1 he)
  obtain ⟨s', hexit, he⟩ := sysExit_exited code hpid hp
  exact ⟨s', hexit, exit_ok hs he hc h0 h1 hp⟩

/-- one step: only the search for a pid may fail to end -/
theorem step_ok {o : Op} (hs : TreeOk s) (hl : legal s o) :
    (∀ s', step s o = some s' → TreeOk s') ∧ ((∀ c, o ≠ .findPid c) → ∃ s', step s o = some s') := by
  cases o with
  | findPid c =>
    refine ⟨fun s' h => ?_, fun hne => absurd rfl (hne c)⟩
    obtain ⟨⟨p, s1⟩, hf, rfl⟩ := Option.map_eq_some_iff.1 h
    exact findPid_ok hs hl hf
  | thread c new pageDir =>
    obtain ⟨⟨pid, hcall⟩, hnew, hfresh⟩ := hl
    simp only [step, hcall]
    refine ⟨fun s' h => ?_, fun _ => ⟨_, rfl⟩⟩
    obtain rfl := Option.some.inj h
    have hc := (hs.told.chld c (by rw [hcall]; exact Option.some_ne_none _)).1
    obtain ⟨h0, h1⟩ := hs.named.threads c pid hcall
    split_ifs
    · exact kernelThread_ok (endCall_ok hs) hc h0 h1 hnew hfresh
    · exact endCall_ok hs
  | exit c code =>
    obtain ⟨s1, h1, hok⟩ := sysExit_ok code hs hl.1 hl.2.1 hl.2.2
    refine ⟨fun s' h => ?_, fun _ => ⟨s1, h1⟩⟩
    obtain rfl := Option.some.inj (h1.symm.trans h)
    exact hok
  | waitPid c pid =>
    refine ⟨fun s' h => ?_, fun _ => ⟨_, rfl⟩⟩
    obtain rfl := Option.some.inj h
    exact sysWaitPid_ok hs hl pid
  | waitChld c =>
    refine ⟨fun s' h => ?_, fun _ => ⟨_, rfl⟩⟩
    obtain rfl := Option.some.inj h
    exact waitChld_ok hs hl
  | waitPidDone c t =>
    obtain ⟨s1, h1, hok⟩ := release_ok hs (waitPidDone_reaps hs hl.1 hl.2)
    refine ⟨fun s' h => ?_, fun _ => ⟨s1, h1⟩⟩
    obtain rfl := Option.some.inj (h1.symm.trans h)
    exact hok
  | waitChldDone c t =>
    obtain ⟨s1, h1, hok⟩ := release_ok hs (waitChldDone_reaps hs hl.1 hl.2)
    refine ⟨fun s' h => ?_, fun _ => ⟨s1, h1⟩⟩
    obtain rfl := Option.some.inj (h1.symm.trans h)
    exact hok

theorem boot_ok : TreeOk boot := by
  have hcases : ∀ t ∈ boot.tasks, t = 0 ∨ t = 1 := fun t ht => by simpa [boot] using ht
  refine ⟨⟨fun t ht h0 => ?_, fun p hp t => ?_, fun p hp t => ?_, fun p hp => ?_, fun p hp => ?_⟩,
    ⟨⟨by decide, rfl, rfl, rfl⟩, ⟨by decide, rfl, rfl⟩, fun t ht => ?_, fun k t => ?_, fun k => ?_,
    fun c p hc => (nomatch hc)⟩, ⟨fun t ht => ?_, fun t ht hz => ?_, fun t ht h0 => ?_, fun c t hc => (nomatch hc),
      fun c hc => absurd rfl hc, fun r hr => absurd hr List.not_mem_nil, List.nodup_nil, trivial⟩⟩
  · rcases hcases t ht with rfl | rfl
    · exact absurd rfl h0
    · exact ⟨0, by decide, rfl⟩
  · rcases hcases p hp with rfl | rfl
    · constructor
      · intro hin
        obtain rfl : t = 1 := by simpa [boot] using hin
        exact ⟨by decide, rfl, rfl⟩
      · rintro ⟨ht, hpar, -⟩
        rcases hcases t ht with rfl | rfl
        · exact nomatch hpar
        · exact List.mem_singleton_self 1
    · refine ⟨fun hin => absurd hin List.not_mem_nil, ?_⟩
      rintro ⟨ht, hpar, -⟩
      rcases hcases t ht with rfl | rfl
      · exact nomatch hpar
      · exact absurd hpar (by decide)
  · have hnil : (boot.task p).chldZombie = [] := by rcases hcases p hp with rfl | rfl <;> rfl
    rw [hnil]
    refine ⟨fun hin => absurd hin List.not_mem_nil, ?_⟩
    rintro ⟨ht, -, hz⟩
    rcases hcases t ht with rfl | rfl <;> exact nomatch hz
  · rcases hcases p hp with rfl | rfl
    · exact List.nodup_singleton 1
    · exact List.nodup_nil
  · rcases hcases p hp with rfl | rfl <;> exact List.nodup_nil
  · rcases hcases t ht with rfl | rfl
    · exact ⟨fun _ => rfl, fun he => absurd he (by decide)⟩
    · exact ⟨fun he => absurd he (by decide), fun _ => rfl⟩
  · constructor
    · intro hin
      simp only [boot] at hin
      split_ifs at hin with h0 h1
      · rw [List.mem_singleton.1 hin, h0]; exact ⟨by decide, rfl⟩
      · rw [List.mem_singleton.1 hin, h1]; exact ⟨by decide, rfl⟩
      · exact absurd hin List.not_mem_nil
    · rintro ⟨ht, rfl⟩
      rcases hcases t ht with rfl | rfl
      · exact List.mem_singleton_self 0
      · exact List.mem_singleton_self 1
  · simp only [boot]
    split_ifs
    · exact List.nodup_singleton 0
    · exact List.nodup_singleton 1
    · exact List.nodup_nil
  · rcases hcases t ht with rfl | rfl <;> exact .inl rfl
  · rcases hcases t ht with rfl | rfl <;> exact nomatch hz
  · rcases hcases t ht with rfl | rfl
    · exact absurd rfl h0
    · exact .inl rfl

/-- the child list of q that t is on, and how often -/
theorem count_children (hs : TreeOk s) (ht : t ∈ s.tasks) (hp : (s.task t).parent = some p) {q : ℕ} (hq : q ∈ s.tasks) :
    (s.task q).chldActive.count t + (s.task q).chldZombie.count t = if q = p then 1 else 0 := by
  rw [(hs.family.nodupA q hq).count, (hs.family.nodupZ q hq).count]
  simp only [hs.family.active q hq t, hs.family.zombie q hq t, ht, hp, true_and, Option.some.injEq]
  by_cases hqp : q = p
  · rcases hs.told.state t ht with hst | hst <;> simp [hqp, hst]
  · simp [hqp, Ne.symm hqp]

/-- **The process tree is right in every run.** In any interleaving in which init and idle never exit: every task but idle
has a parent that is not freed; it is on chld_active of its parent while it has not exited and on chld_zombie of its parent
after that, and on no other child list; every task is released at most once, by the task that created it or, after that one
was released, by init; what the wait returned is the code passed to sys_exit; and every step goes through (no BUG_ON fires), the
search for a pid while there are fewer than 2^32 tasks. -/
theorem tree_reachable (h : system.Reach s) :
    (∀ t ∈ s.tasks, t ≠ 0 → ∃ p ∈ s.tasks, (s.task t).parent = some p ∧
      ((s.task t).state ≠ .zombie → t ∈ (s.task p).chldActive) ∧
      ((s.task t).state = .zombie → t ∈ (s.task p).chldZombie) ∧
      ∀ q ∈ s.tasks, (s.task q).chldActive.count t + (s.task q).chldZombie.count t = if q = p then 1 else 0) ∧
    s.released.Nodup ∧ OwnersOk s.creator s.releases ∧
    (∀ r ∈ s.releases, r.task ∉ s.tasks ∧ s.passed r.task = some r.code) ∧
    ∀ o, legal s o → ((∀ c, o ≠ .findPid c) ∨ s.tasks.card < 2 ^ 32) → ∃ s', step s o = some s' := by
  have hs : TreeOk s := Lts.Reach.inv (M := system) (P := TreeOk) (fun _ hs => hs ▸ boot_ok) (fun _ _ s' hi hst =>
    (step_ok hi hst.1).1 s' hst.2) h
  refine ⟨fun t ht h0 => ?_, hs.told.once, hs.told.owners, hs.told.gone, fun o hl hpids => ?_⟩
  · obtain ⟨p, hp, hpar⟩ := hs.family.parent t ht h0
    refine ⟨p, hp, hpar, fun hst => ?_, fun hst => ?_, fun q hq => count_children hs ht hpar hq⟩
    · exact (hs.family.active p hp t).2 ⟨ht, hpar, (hs.told.running ht).1 hst⟩
    · exact (hs.family.zombie p hp t).2 ⟨ht, hpar, hst⟩
  · rcases hpids with hno | hfew
    · exact (step_ok hs hl).2 hno
    · cases o with
      | findPid c =>
        obtain ⟨r, hr⟩ := Option.isSome_iff_exists.1 (findUsablePid_isSome hfew)
        exact ⟨_, by rw [step, hr]; rfl⟩
      | _ => exact (step_ok hs hl).2 fun c => nofun

/-! ## init, a child and its children -/

instance (s : Sys) (c : ℕ) : Decidable (Runs s c) := inferInstanceAs (Decidable (_ ∧ _ ∧ _))

instance (s : Sys) (c : ℕ) : Decidable (∃ pid, s.calls c = some (.thread pid)) :=
  match s.calls c with
  | some (.thread pid) => isTrue ⟨pid, rfl⟩
  | some (.waitPid _) | some .waitChld | none => isFalse nofun

instance (s : Sys) (o : Op) : Decidable (legal s o) :=
  match o with
  | .findPid _ | .waitPid _ _ | .waitChld _ => inferInstanceAs (Decidable (Runs _ _))
  | .thread _ _ _ | .exit _ _ => inferInstanceAs (Decidable (_ ∧ _ ∧ _))
  | .waitPidDone _ _ | .waitChldDone _ _ => inferInstanceAs (Decidable (_ ∧ _))

/-- the legal steps of a list, one after the other -/
def runs (s : Sys) (os : List Op) : Option Sys := os.foldlM (fun s o => if legal s o then step s o else none) s

theorem runs_reach {os : List Op} (h : runs boot os = some s) : system.Reach s := by
  refine Lts.Reach.fold (fun u o u' hu => ?_) (.start rfl) h
  split_ifs at hu with hl
  exact ⟨hl, hu⟩

/-- init creates task 2, which creates 3 and 4; 4 exits, and then 2, whom init waits for -/
def orphaned : List Op := [.findPid 1, .thread 1 2 true, .findPid 2, .thread 2 3 true, .findPid 2, .thread 2 4 true, .exit 4 9,
  .exit 2 7, .waitChld 1, .waitChldDone 1 2]

/-- 3 exits too, and init waits for its new children -/
def adopted : List Op := [.exit 3 5, .waitPid 1 4, .waitPidDone 1 4, .waitChld 1, .waitChldDone 1 3]

def orphans : Sys := (runs boot orphaned).get (by decide +kernel)

def reaped : Sys := (runs boot (orphaned ++ adopted)).get (by decide +kernel)

/-- The child and the zombie of task 2 become those of init, and init releases both. -/
theorem tree_adopted : ((∃ p ∈ orphans.tasks, (orphans.task 3).parent = some p ∧ 3 ∈ (orphans.task p).chldActive) ∧
      (orphans.task 3).parent = some 1 ∧ (orphans.task 1).chldZombie = [4]) ∧
    reaped.releases = [⟨3, 1, 5⟩, ⟨4, 1, 9⟩, ⟨2, 1, 7⟩] ∧ reaped.creator 3 = 2 ∧
    OwnersOk reaped.creator reaped.releases := by
  obtain ⟨htree, -⟩ := tree_reachable (s := orphans) (runs_reach (Option.some_get _).symm)
  obtain ⟨-, -, howners, -⟩ := tree_reachable (s := reaped) (runs_reach (Option.some_get _).symm)
  obtain ⟨p, hp, hpar, hactive, -⟩ := htree 3 (by decide +kernel) (by decide)
  exact ⟨⟨⟨p, hp, hpar, hactive (by decide +kernel)⟩, by decide +kernel, by decide +kernel⟩, by decide +kernel,
    by decide +kernel, howners⟩

end SinsOs.Exit
