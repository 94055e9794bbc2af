/-
Process ids (kernel/sched.c): find_usable_pid and the pid lists, for any number of tasks that create and release threads.

The scan of find_usable_pid and the insertion into the lists run with interrupts off. Between them lie the load and the store
of `pid_start++` and the rest of kernel_thread. The counter has 32 bits and wraps. kernel_thread is called by start_kernel, when
there is no other task, and by sys_exec, which has interrupts off. get_task_by_pid walks over a list with interrupts on: between
two of its reads any task may run. list_del leaves the pointers of a node as they are, and whoever gets the page of a task that
was released writes what it likes there.

- `step_ok`: pids are distinct, and every task is in the list of its pid and in no other, whatever the walks do.
-/
import SinsOs.Core.Bits
import SinsOs.Core.Lts

namespace SinsOs.Pid

open SinsOs.Core SinsOs.Bits

/-! ## Model -/

def nrPidLists : ℕ := 10

/-- in kernel_thread: before find_usable_pid, behind its scan, between the load and the store of `pid_start++`, and with the
pid in the new task -/
inductive Phase
  | entered
  | scanned
  | loaded (v : Word)
  | assigned
deriving DecidableEq, Repr

/-- a call of kernel_thread with the page of the new task -/
structure Making where
  new : ℕ
  phase : Phase
deriving DecidableEq, Repr

/-- what a pointer to a list_head points to: the head of list j, or pid_list of a task -/
inductive Node
  | head (j : ℕ)
  | task (t : ℕ)
deriving DecidableEq, Repr

/-- in get_task_by_pid(pid): before `pos->pid` is read, behind it, and at the return -/
inductive Look
  | before (pid : Word) (pos : Node)
  | behind (pid : Word) (pos : Node)
  | returned (pid : Word) (find : Option Node)
deriving DecidableEq, Repr

/-- `masked` is the task that runs with interrupts off. `walk` is the last call of get_task_by_pid of a task, and `stale` the next
pointer in the page of a task that is not on its list -/
structure Sys where
  pidStart : Word
  tasks : List ℕ
  pid : ℕ → Word
  pidLists : ℕ → List ℕ
  making : ℕ → Option Making
  masked : Option ℕ
  walk : ℕ → Option Look
  stale : ℕ → Node

/-- list->next -/
def firstOf (l : List ℕ) (j : ℕ) : Node :=
  match l with
  | [] => .head j
  | t :: _ => .task t

namespace Sys

variable (s : Sys)

def list (pid : Word) : ℕ := pid.toNat % nrPidLists

def setMaking (t : ℕ) (m : Option Making) : Sys := { s with making := Function.update s.making t m }

/-- add_to_pid_lists -/
def addToPidLists (t : ℕ) : Sys :=
  { s with pidLists := fun j => if j = list (s.pid t) then t :: s.pidLists j else s.pidLists j }

/-- pos->next -/
def nextOf : Node → Node
  | .head j => firstOf (s.pidLists j) j
  | .task t =>
    if t ∈ s.pidLists (list (s.pid t)) then
      firstOf ((s.pidLists (list (s.pid t))).dropWhile (· ≠ t)).tail (list (s.pid t))
    else s.stale t

/-- remove_from_pid_lists: list_del takes the node off the list that it is on, and leaves its pointers -/
def removeFromPidLists (t : ℕ) : Sys :=
  { s with
    pidLists := fun j => (s.pidLists j).erase t
    stale := Function.update s.stale t (s.nextOf (.task t)) }

def setWalk (t : ℕ) (l : Look) : Sys := { s with walk := Function.update s.walk t (some l) }

/-- a call of get_task_by_pid is in progress -/
def walking (t : ℕ) : Bool :=
  match s.walk t with
  | some (.before _ _) | some (.behind _ _) => true
  | _ => false

/-- pos->pid, where w is what lies in front of the head of a list -/
def pidOf (w : Word) : Node → Word
  | .head _ => w
  | .task t => s.pid t

/-- one read of a walk -/
def walkOn (t : ℕ) (w : Word) : Option Sys :=
  match s.walk t with
  | some (.before p pos) =>
    if pos = .head (list p) then some (s.setWalk t (.returned p none))
    else if s.pidOf w pos = p then some (s.setWalk t (.returned p (some pos)))
    else some (s.setWalk t (.behind p pos))
  | some (.behind p pos) => some (s.setWalk t (.before p (s.nextOf pos)))
  | _ => none

/-- get_task_by_pid when nothing comes in between -/
def getTaskByPid (p : Word) : Option ℕ := (s.pidLists (list p)).find? fun t => s.pid t = p

end Sys

/-- the scan of find_usable_pid from p on, at most n times from the beginning of the list -/
def findUsable (pids : List Word) : ℕ → Word → Option Word
  | 0, _ => none
  | n + 1, p => if p ∈ pids then findUsable pids n (p + 1) else some p

/-- where the scan stops -/
def scan (s : Sys) : Option Word := findUsable (s.tasks.map s.pid) (s.tasks.length + 1) s.pidStart

inductive Op
  | enter (t new : ℕ) (masked : Bool)
  | scan (t : ℕ)
  | load (t : ℕ)
  | store (t : ℕ)
  | fail (t : ℕ)
  | insert (t : ℕ)
  | release (t dead : ℕ)
  | look (t : ℕ) (pid : Word)
  | walk (t : ℕ) (w : Word)
  | reuse (t page : ℕ) (pid : Word) (next : Node)
deriving DecidableEq, Repr

/-- the task that runs -/
def Op.task : Op → ℕ
  | .enter t _ _ | .scan t | .load t | .store t | .fail t | .insert t | .release t _ | .look t _ | .walk t _ | .reuse t _ _ _ => t

/-- the page that get_free_page gives is nobody's task -/
def Unused (s : Sys) (new : ℕ) : Prop := new ∉ s.tasks ∧ ∀ u ∈ s.tasks, ∀ m ∈ s.making u, m.new ≠ new

instance (s : Sys) (new : ℕ) : Decidable (Unused s new) := by
  unfold Unused
  infer_instance

/-- the end of kernel_thread -/
def leave (s : Sys) (t : ℕ) : Sys := { s with masked := if s.masked = some t then none else s.masked }.setMaking t none

def stepOf (s : Sys) : Op → Option Sys
  -- sys_exec has interrupts off, and start_kernel is alone
  | .enter t new masked =>
    if s.making t = none ∧ s.walking t = false ∧ Unused s new ∧ (masked = true ∨ s.tasks = [t]) then
      some ({ s with masked := if masked then some t else s.masked }.setMaking t (some ⟨new, .entered⟩))
    else none
  | .scan t =>
    match s.making t, scan s with
    | some ⟨new, .entered⟩, some p => some ({ s with pidStart := p }.setMaking t (some ⟨new, .scanned⟩))
    | _, _ => none
  | .load t =>
    match s.making t with
    | some ⟨new, .scanned⟩ => some (s.setMaking t (some ⟨new, .loaded s.pidStart⟩))
    | _ => none
  | .store t =>
    match s.making t with
    | some ⟨new, .loaded v⟩ =>
      some ({ s with pidStart := v + 1, pid := Function.update s.pid new v }.setMaking t (some ⟨new, .assigned⟩))
    | _ => none
  -- copy_empty_page_dir has no memory
  | .fail t =>
    match s.making t with
    | some ⟨_, .assigned⟩ => some (leave s t)
    | _ => none
  | .insert t =>
    match s.making t with
    | some ⟨new, .assigned⟩ => some (({ s with tasks := new :: s.tasks }.addToPidLists new |> leave) t)
    | _ => none
  -- kthread_release of a dead task other than task 0
  | .release t dead =>
    if s.making t = none ∧ s.walking t = false ∧ dead ∈ s.tasks ∧ dead ≠ t ∧ s.making dead = none ∧
      s.walking dead = false ∧
        s.pid dead ≠ 0 then
      some { s.removeFromPidLists dead with tasks := s.tasks.erase dead }
    else none
  | .look t p =>
    if s.making t = none ∧ s.walking t = false then
      some (s.setWalk t (.before p (firstOf (s.pidLists (Sys.list p)) (Sys.list p))))
    else none
  | .walk t w => s.walkOn t w
  -- a page that is nobody's task
  | .reuse _ page p next =>
    if Unused s page then
      some { s with pid := Function.update s.pid page p, stale := Function.update s.stale page next }
    else none

/-- a task of the list takes a step; with interrupts off no other task does -/
def step (s : Sys) (op : Op) : Option Sys :=
  if op.task ∈ s.tasks ∧ (s.masked = none ∨ s.masked = some op.task) then stepOf s op else none

/-- after sched_init: task 0, which got pid 0 -/
def booted : Sys where
  pidStart := 1
  tasks := [0]
  pid := fun _ => 0
  pidLists := fun j => if j = 0 then [0] else []
  making := fun _ => none
  masked := none
  walk := fun _ => none
  stale := fun _ => .head 0

def system : Lts Sys Op where
  start := (· = booted)
  step := fun s op s' => step s op = some s'

/-- between the scan and the store -/
def InWindow (s : Sys) (t : ℕ) : Prop := ∃ m ∈ s.making t, m.phase = .scanned ∨ ∃ v, m.phase = .loaded v

/-- a thread that has its pid and is not listed yet -/
def Pending (s : Sys) (new : ℕ) : Prop := ∃ t, s.making t = some ⟨new, .assigned⟩

/-- what the callers of kernel_thread bring about: a step that moves the counter leaves no other task between its scan and its
store, and no scan stops at the pid of a thread that is not listed yet -/
structure Alone (s : Sys) (op : Op) : Prop where
  scan : ∀ t p, op = .scan t → scan s = some p → (p ≠ s.pidStart → ∀ u, u ≠ t → ¬ InWindow s u) ∧
      ∀ new, Pending s new → s.pid new ≠ p
  store : ∀ t, op = .store t → ∀ u, u ≠ t → ¬ InWindow s u

variable {s s' : Sys} {op : Op} {t u new dead : ℕ} {p v : Word} {pids : List Word}

/-! ## The scan -/

theorem findUsable_free {n : ℕ} {q : Word} (h : findUsable pids n p = some q) : q ∉ pids := by
  induction n generalizing p with
  | zero => cases h
  | succ n ih =>
    rw [findUsable] at h
    split_ifs at h with hp
    · exact ih h
    · cases h
      exact hp

theorem findUsable_none {n : ℕ} (h : findUsable pids n p = none) : ∀ i < n, p + BitVec.ofNat 32 i ∈ pids := by
  induction n generalizing p with
  | zero => exact fun i hi => absurd hi (Nat.not_lt_zero i)
  | succ n ih =>
    rw [findUsable] at h
    split_ifs at h with hp
    intro i hi
    cases i with
    | zero => simpa using hp
    | succ i =>
      have hin := ih h i (Nat.lt_of_succ_lt_succ hi)
      rwa [show p + BitVec.ofNat 32 (i + 1) = p + 1 + BitVec.ofNat 32 i by bv_omega]

/-- with less than 2^32 tasks the scan ends -/
theorem scan_ends (h : s.tasks.length < 2 ^ 32) : (scan s).isSome := by
  by_contra hsome
  have hnone : scan s = none := Option.not_isSome_iff_eq_none.1 hsome
  have hall := findUsable_none hnone
  have hinj : Set.InjOn (fun i => s.pidStart + BitVec.ofNat 32 i) (Finset.range (s.tasks.length + 1)) := by
    intro i hi j hj he
    have hi' := Finset.mem_range.1 hi
    have hj' := Finset.mem_range.1 hj
    have heq : BitVec.ofNat 32 i = BitVec.ofNat 32 j := by
      have he' : s.pidStart + BitVec.ofNat 32 i = s.pidStart + BitVec.ofNat 32 j := he
      bv_omega
    have hnat := congrArg BitVec.toNat heq
    rwa [BitVec.toNat_ofNat, BitVec.toNat_ofNat, Nat.mod_eq_of_lt (by omega), Nat.mod_eq_of_lt (by omega)] at hnat
  have hcard := Finset.card_le_card_of_injOn (t := (s.tasks.map s.pid).toFinset) _
    (fun i hi => List.mem_toFinset.2 (hall i (Finset.mem_range.1 hi))) hinj
  have hlen := (s.tasks.map s.pid).toFinset_card_le
  rw [Finset.card_range] at hcard
  rw [List.length_map] at hlen
  omega

/-! ## The lists -/

/-- a thread with a pid of its own: listed, or to be listed -/
def Owns (s : Sys) (t : ℕ) : Prop := t ∈ s.tasks ∨ Pending s t

def Free (s : Sys) (v : Word) : Prop := ∀ t, Owns s t → s.pid t ≠ v

/-- the tasks that are being made are not listed, and each is made once -/
structure MakingOk (s : Sys) : Prop where
  maker : ∀ t m, s.making t = some m → t ∈ s.tasks ∧ m.new ∉ s.tasks
  once : ∀ t u m m', s.making t = some m → s.making u = some m' → m.new = m'.new → t = u

/-- every task is in the list of its pid -/
structure ListsOk (s : Sys) : Prop where
  tasks : s.tasks.Nodup
  lists : ∀ j, (s.pidLists j).Nodup
  mem : ∀ j t, t ∈ s.pidLists j ↔ t ∈ s.tasks ∧ j = Sys.list (s.pid t)

/-- pids are distinct, and the counter is free while somebody is about to take it -/
structure PidsOk (s : Sys) : Prop where
  distinct : ∀ t u, Owns s t → Owns s u → s.pid t = s.pid u → t = u
  window : ∀ t, InWindow s t → Free s s.pidStart
  loaded : ∀ t m v, s.making t = some m → m.phase = .loaded v → v = s.pidStart

structure PidOk (s : Sys) : Prop where
  making : MakingOk s
  lists : ListsOk s
  pids : PidsOk s

/-- a task in kernel_thread has interrupts off, or is alone -/
def Solo (s : Sys) : Prop := ∀ t m, s.making t = some m → s.masked = some t ∨ s.tasks = [t]

theorem booted_ok : PidOk booted := by
  refine ⟨⟨fun t m hm => (nomatch hm), fun t u m m' hm => (nomatch hm)⟩, ⟨by decide, fun j => ?_, fun j t => ?_⟩, ?_⟩
  · show (if j = 0 then [0] else []).Nodup
    split_ifs
    · decide
    · exact List.nodup_nil
  · show t ∈ (if j = 0 then [0] else []) ↔ t ∈ [0] ∧ j = 0
    split_ifs with hj
    · exact (and_iff_left hj).symm
    · exact iff_of_false List.not_mem_nil fun h => hj h.2
  · have hlisted : ∀ t, Owns booted t → t = 0 := fun t ht => by
      rcases ht with ht | ⟨u, hu⟩
      · exact List.mem_singleton.1 ht
      · cases hu
    exact ⟨fun t u ht hu _ => (hlisted t ht).trans (hlisted u hu).symm, fun t ⟨m, hm, _⟩ => (nomatch hm),
      fun t m v hm => (nomatch hm)⟩

/-- get_task_by_pid finds exactly the task with the pid -/
theorem getTaskByPid_iff (h : PidOk s) (p : Word) (t : ℕ) : s.getTaskByPid p = some t ↔ t ∈ s.tasks ∧ s.pid t = p := by
  constructor
  · intro hf
    have hin := ((h.lists.mem _ t).1 (List.mem_of_find?_eq_some hf)).1
    exact ⟨hin, by simpa using List.find?_some hf⟩
  · rintro ⟨hin, rfl⟩
    have hmem : t ∈ s.pidLists (Sys.list (s.pid t)) := (h.lists.mem _ t).2 ⟨hin, rfl⟩
    rw [Sys.getTaskByPid]
    cases hf : (s.pidLists (Sys.list (s.pid t))).find? fun u => s.pid u = s.pid t with
    | none => exact absurd (decide_eq_true rfl) (List.find?_eq_none.1 hf t hmem)
    | some u =>
      have hu := ((h.lists.mem _ u).1 (List.mem_of_find?_eq_some hf)).1
      have hpid : s.pid u = s.pid t := by simpa using List.find?_some hf
      rw [h.pids.distinct u t (Or.inl hu) (Or.inl hin) hpid]

/-! ## What a step can do -/

theorem enter_inv {masked : Bool} (hst : stepOf s (.enter t new masked) = some s') :
    (s.making t = none ∧ s.walking t = false ∧ Unused s new ∧ (masked = true ∨ s.tasks = [t])) ∧
      s' = { s with masked := if masked then some t else s.masked }.setMaking t (some ⟨new, .entered⟩) := by
  have hlegal : s.making t = none ∧ s.walking t = false ∧ Unused s new ∧ (masked = true ∨ s.tasks = [t]) := by
    by_contra hno
    cases (if_neg hno).symm.trans hst
  rw [stepOf, if_pos hlegal] at hst
  exact ⟨hlegal, (Option.some.inj hst).symm⟩

theorem scan_inv (hst : stepOf s (.scan t) = some s') : ∃ new p, s.making t = some ⟨new, .entered⟩ ∧ scan s = some p ∧
    s' = { s with pidStart := p }.setMaking t (some ⟨new, .scanned⟩) := by
  rw [stepOf] at hst
  split at hst
  case h_1 new p hm hp => exact ⟨new, p, hm, hp, (Option.some.inj hst).symm⟩
  case h_2 => cases hst

theorem load_inv (hst : stepOf s (.load t) = some s') : ∃ new, s.making t = some ⟨new, .scanned⟩ ∧
    s' = s.setMaking t (some ⟨new, .loaded s.pidStart⟩) := by
  rw [stepOf] at hst
  split at hst
  case h_1 new hm => exact ⟨new, hm, (Option.some.inj hst).symm⟩
  case h_2 => cases hst

theorem store_inv (hst : stepOf s (.store t) = some s') : ∃ new v, s.making t = some ⟨new, .loaded v⟩ ∧
    s' = { s with pidStart := v + 1, pid := Function.update s.pid new v }.setMaking t (some ⟨new, .assigned⟩) := by
  rw [stepOf] at hst
  split at hst
  case h_1 new v hm => exact ⟨new, v, hm, (Option.some.inj hst).symm⟩
  case h_2 => cases hst

theorem fail_inv (hst : stepOf s (.fail t) = some s') : ∃ new, s.making t = some ⟨new, .assigned⟩ ∧ s' = leave s t := by
  rw [stepOf] at hst
  split at hst
  case h_1 new hm => exact ⟨new, hm, (Option.some.inj hst).symm⟩
  case h_2 => cases hst

theorem insert_inv (hst : stepOf s (.insert t) = some s') : ∃ new, s.making t = some ⟨new, .assigned⟩ ∧
    s' = leave ({ s with tasks := new :: s.tasks }.addToPidLists new) t := by
  rw [stepOf] at hst
  split at hst
  case h_1 new hm => exact ⟨new, hm, (Option.some.inj hst).symm⟩
  case h_2 => cases hst

/-- a read of a walk changes nothing but the walk -/
theorem walkOn_cases {w : Word} (hst : s.walkOn t w = some s') : ∃ l, s' = s.setWalk t l := by
  rw [Sys.walkOn] at hst
  split at hst
  · split_ifs at hst
    all_goals
      cases hst
      exact ⟨_, rfl⟩
  · cases hst
    exact ⟨_, rfl⟩
  · cases hst

/-- the steps that no walk and no list notices -/
def Op.unseen : Op → Bool
  | .insert _ | .release _ _ | .look _ _ | .walk _ _ => false
  | _ => true

theorem unseen_step (h : MakingOk s) (hop : op.unseen = true) (hst : stepOf s op = some s') :
    s'.tasks = s.tasks ∧ s'.pidLists = s.pidLists ∧ s'.walk = s.walk ∧ ∀ x ∈ s.tasks, s'.pid x = s.pid x := by
  cases op with
  | enter t new masked =>
    obtain ⟨-, rfl⟩ := enter_inv hst
    exact ⟨rfl, rfl, rfl, fun _ _ => rfl⟩
  | scan t =>
    obtain ⟨new, p, -, -, rfl⟩ := scan_inv hst
    exact ⟨rfl, rfl, rfl, fun _ _ => rfl⟩
  | load t =>
    obtain ⟨new, -, rfl⟩ := load_inv hst
    exact ⟨rfl, rfl, rfl, fun _ _ => rfl⟩
  | store t =>
    obtain ⟨new, v, hm, rfl⟩ := store_inv hst
    refine ⟨rfl, rfl, rfl, fun x hx => Function.update_of_ne ?_ ..⟩
    rintro rfl
    exact (h.maker t _ hm).2 hx
  | fail t =>
    obtain ⟨new, -, rfl⟩ := fail_inv hst
    exact ⟨rfl, rfl, rfl, fun _ _ => rfl⟩
  | reuse t page p next =>
    rw [stepOf] at hst
    split_ifs at hst with hunused
    cases hst
    refine ⟨rfl, rfl, rfl, fun x hx => Function.update_of_ne ?_ ..⟩
    rintro rfl
    exact hunused.1 hx
  | insert t => cases hop
  | release t dead => cases hop
  | look t p => cases hop
  | walk t w => cases hop

/-! ## One step -/

theorem setMaking_self (m : Option Making) : (s.setMaking t m).making t = m := Function.update_self ..

theorem setMaking_of_ne {m : Option Making} (h : u ≠ t) : (s.setMaking t m).making u = s.making u := Function.update_of_ne h ..

/-- task t changes what it makes, to the same new task or to nothing -/
theorem MakingOk.setMaking (h : MakingOk s) (hs : s'.tasks = s.tasks) (ht : ∀ u, u ≠ t → s'.making u = s.making u)
    (hnew : ∀ m, s'.making t = some m → ∃ m', s.making t = some m' ∧ m'.new = m.new) : MakingOk s' := by
  have hback : ∀ u m, s'.making u = some m → ∃ m', s.making u = some m' ∧ m'.new = m.new := fun u m hm => by
    by_cases hu : u = t
    · subst hu
      exact hnew m hm
    · exact ⟨m, (ht u hu).symm.trans hm, rfl⟩
  refine ⟨fun u m hm => ?_, fun u w m m' hm hm' he => ?_⟩
  · obtain ⟨m', h1, h2⟩ := hback u m hm
    rw [hs, ← h2]
    exact h.maker u m' h1
  · obtain ⟨m1, h1, h2⟩ := hback u m hm
    obtain ⟨m2, h3, h4⟩ := hback w m' hm'
    exact h.once u w m1 m2 h1 h3 (by rw [h2, h4, he])

theorem ListsOk.congr (h : ListsOk s) (h1 : s'.tasks = s.tasks) (h2 : s'.pidLists = s.pidLists)
    (h3 : ∀ t ∈ s.tasks, s'.pid t = s.pid t) : ListsOk s' := by
  refine ⟨h1 ▸ h.tasks, fun j => h2 ▸ h.lists j, fun j t => ?_⟩
  rw [h2, h1, h.mem j t]
  exact and_congr_right fun ht => by rw [h3 t ht]

/-- the owners of pids are not more than before, and nobody new is in the window -/
theorem PidsOk.shrink (h : PidsOk s) (hpid : ∀ t, Owns s' t → Owns s t ∧ s'.pid t = s.pid t)
    (hstart : s'.pidStart = s.pidStart) (hwin : ∀ t, InWindow s' t → InWindow s t)
    (hload : ∀ t m v, s'.making t = some m → m.phase = .loaded v → s.making t = some m) : PidsOk s' := by
  refine ⟨fun t u ht hu he => ?_, fun t ht => ?_, fun t m v hm hv => ?_⟩
  · obtain ⟨h1, h2⟩ := hpid t ht
    obtain ⟨h3, h4⟩ := hpid u hu
    exact h.distinct t u h1 h3 (by rw [← h2, ← h4, he])
  · intro w hw
    obtain ⟨h1, h2⟩ := hpid w hw
    rw [h2, hstart]
    exact h.window t (hwin t ht) w h1
  · rw [hstart]
    exact h.loaded t m v (hload t m v hm hv) hv

/-- what a task makes after task t has changed what it makes -/
theorem update_cases {m m' : Option Making} (h : Function.update s.making t m u = m') :
    u = t ∧ m = m' ∨ u ≠ t ∧ s.making u = m' := by
  by_cases hu : u = t
  · rw [hu, Function.update_self] at h
    exact Or.inl ⟨hu, h⟩
  · rw [Function.update_of_ne hu] at h
    exact Or.inr ⟨hu, h⟩

theorem enter_ok (h : PidOk s) {masked : Bool} (hst : stepOf s (.enter t new masked) = some s') (ht : t ∈ s.tasks) :
    PidOk s' := by
  obtain ⟨⟨hnone, -, ⟨hunused, hnobody⟩, -⟩, rfl⟩ := enter_inv hst
  refine ⟨⟨fun u m hm => ?_, fun u w m m' hm hm' he => ?_⟩, h.lists.congr rfl rfl fun _ _ => rfl,
    h.pids.shrink ?_ rfl ?_ ?_⟩
  · rcases update_cases hm with ⟨hu, hm⟩ | ⟨-, hm⟩
    · cases hm
      rw [hu]
      exact ⟨ht, hunused⟩
    · exact h.making.maker u m hm
  · rcases update_cases hm with ⟨hu, hm⟩ | ⟨-, hm⟩
    · rcases update_cases hm' with ⟨hw, -⟩ | ⟨-, hm'⟩
      · rw [hu, hw]
      · cases hm
        exact absurd he.symm (hnobody w (h.making.maker w m' hm').1 m' hm')
    · rcases update_cases hm' with ⟨-, hm'⟩ | ⟨-, hm'⟩
      · cases hm'
        exact absurd he (hnobody u (h.making.maker u m hm).1 m hm)
      · exact h.making.once u w m m' hm hm' he
  · rintro w (hw | ⟨u, hu⟩)
    · exact ⟨Or.inl hw, rfl⟩
    · rcases update_cases hu with ⟨-, hu⟩ | ⟨-, hu⟩
      · cases hu
      · exact ⟨Or.inr ⟨u, hu⟩, rfl⟩
  · rintro u ⟨m, hm, hphase⟩
    rcases update_cases hm with ⟨-, hm⟩ | ⟨-, hm⟩
    · cases hm
      rcases hphase with hphase | ⟨v, hphase⟩
      · cases hphase
      · cases hphase
    · exact ⟨m, hm, hphase⟩
  · intro u m v hm hphase
    rcases update_cases hm with ⟨-, hm⟩ | ⟨-, hm⟩
    · cases hm
      cases hphase
    · exact hm

theorem scan_ok (h : PidOk s) (hal : Alone s (.scan t)) (hst : stepOf s (.scan t) = some s') : PidOk s' := by
  obtain ⟨new, p, hm, hp, rfl⟩ := scan_inv hst
  obtain ⟨hmoved, hpending⟩ := hal.scan t p rfl hp
  have hlisted : p ∉ s.tasks.map s.pid := findUsable_free hp
  have howns : ∀ w, Owns ({ s with pidStart := p }.setMaking t (some ⟨new, .scanned⟩)) w → Owns s w := by
    rintro w (hw | ⟨u, hu⟩)
    · exact Or.inl hw
    · rcases update_cases hu with ⟨-, hu⟩ | ⟨-, hu⟩
      · cases hu
      · exact Or.inr ⟨u, hu⟩
  have hfree : Free ({ s with pidStart := p }.setMaking t (some ⟨new, .scanned⟩)) p := fun w hw => by
    rcases howns w hw with hw | hw
    · exact fun he => hlisted (he ▸ List.mem_map_of_mem hw)
    · exact hpending w hw
  refine ⟨h.making.setMaking rfl (fun u hu => setMaking_of_ne hu) fun m hm' => ?_, h.lists.congr rfl rfl fun _ _ => rfl, ?_⟩
  · rw [setMaking_self] at hm'
    cases hm'
    exact ⟨_, hm, rfl⟩
  · refine ⟨fun w u hw hu he => h.pids.distinct w u (howns w hw) (howns u hu) he, fun _ _ => hfree, fun u m v hu hv => ?_⟩
    rcases update_cases hu with ⟨-, hu⟩ | ⟨hne, hu⟩
    · cases hu
      cases hv
    · have hsame : p = s.pidStart := by
        by_contra hno
        exact hmoved hno u hne ⟨m, hu, Or.inr ⟨v, hv⟩⟩
      show v = p
      rw [hsame]
      exact h.pids.loaded u m v hu hv

theorem load_ok (h : PidOk s) (hst : stepOf s (.load t) = some s') : PidOk s' := by
  obtain ⟨new, hm, rfl⟩ := load_inv hst
  have hwin : InWindow s t := ⟨_, hm, Or.inl rfl⟩
  refine ⟨h.making.setMaking rfl (fun u hu => setMaking_of_ne hu) fun m hm' => ?_, h.lists.congr rfl rfl fun _ _ => rfl, ?_⟩
  · rw [setMaking_self] at hm'
    cases hm'
    exact ⟨_, hm, rfl⟩
  · have howns : ∀ w, Owns (s.setMaking t (some ⟨new, .loaded s.pidStart⟩)) w → Owns s w := by
      rintro w (hw | ⟨u, hu⟩)
      · exact Or.inl hw
      · rcases update_cases hu with ⟨-, hu⟩ | ⟨-, hu⟩
        · cases hu
        · exact Or.inr ⟨u, hu⟩
    refine ⟨fun w u hw hu he => h.pids.distinct w u (howns w hw) (howns u hu) he,
      fun _ _ w hw => h.pids.window t hwin w (howns w hw), fun u m v hu hv => ?_⟩
    rcases update_cases hu with ⟨-, hu⟩ | ⟨-, hu⟩
    · cases hu
      cases hv
      rfl
    · exact h.pids.loaded u m v hu hv

theorem store_ok (h : PidOk s) (hal : Alone s (.store t)) (hst : stepOf s (.store t) = some s') : PidOk s' := by
  obtain ⟨new, v, hm, rfl⟩ := store_inv hst
  have hothers := hal.store t rfl
  have hstart : v = s.pidStart := h.pids.loaded t _ v hm rfl
  have hfree : Free s v := hstart ▸ h.pids.window t ⟨_, hm, Or.inr ⟨v, rfl⟩⟩
  have hnew : new ∉ s.tasks := (h.making.maker t _ hm).2
  -- nobody else makes this task
  have howns : ∀ w, Owns ({ s with pidStart := v + 1, pid := Function.update s.pid new v }.setMaking t
      (some ⟨new, .assigned⟩)) w → w = new ∨ (w ≠ new ∧ Owns s w) := by
    rintro w (hw | ⟨u, hu⟩)
    · exact Or.inr ⟨fun he => hnew (he ▸ hw), Or.inl hw⟩
    · rcases update_cases hu with ⟨-, hu⟩ | ⟨hne, hu⟩
      · cases hu
        exact Or.inl rfl
      · exact Or.inr ⟨fun he => hne (h.making.once u t _ _ hu hm he), Or.inr ⟨u, hu⟩⟩
  refine ⟨h.making.setMaking rfl (fun u hu => setMaking_of_ne hu) fun m hm' => ?_, h.lists.congr rfl rfl fun u hu => ?_, ?_⟩
  · rw [setMaking_self] at hm'
    cases hm'
    exact ⟨_, hm, rfl⟩
  · have hne : u ≠ new := fun he => hnew (he ▸ hu)
    exact Function.update_of_ne hne ..
  · have hpid : ∀ w, w ≠ new → Function.update s.pid new v w = s.pid w := fun w hw => Function.update_of_ne hw ..
    have hself : Function.update s.pid new v new = v := Function.update_self ..
    refine ⟨fun w u hw hu he => ?_, fun u hu => ?_, fun u m x hu hx => ?_⟩
    · change Function.update s.pid new v w = Function.update s.pid new v u at he
      rcases howns w hw with rfl | ⟨hw1, hw2⟩
      · rcases howns u hu with rfl | ⟨hu1, hu2⟩
        · rfl
        · rw [hself, hpid u hu1] at he
          exact absurd he.symm (hfree u hu2)
      · rcases howns u hu with rfl | ⟨hu1, hu2⟩
        · rw [hself, hpid w hw1] at he
          exact absurd he (hfree w hw2)
        · rw [hpid w hw1, hpid u hu1] at he
          exact h.pids.distinct w u hw2 hu2 he
    · obtain ⟨m, hu, hphase⟩ := hu
      rcases update_cases hu with ⟨-, hu⟩ | ⟨hne, hu⟩
      · cases hu
        rcases hphase with hphase | ⟨x, hphase⟩
        · cases hphase
        · cases hphase
      · exact absurd ⟨m, hu, hphase⟩ (hothers u hne)
    · rcases update_cases hu with ⟨-, hu⟩ | ⟨hne, hu⟩
      · cases hu
        cases hx
      · exact absurd ⟨m, hu, Or.inr ⟨x, hx⟩⟩ (hothers u hne)

/-- what is left when task t leaves kernel_thread -/
theorem leave_making {m : Making} (hm : (leave s t).making u = some m) : u ≠ t ∧ s.making u = some m := by
  rcases update_cases hm with ⟨-, hm⟩ | h
  · cases hm
  · exact h

theorem fail_ok (h : PidOk s) (hst : stepOf s (.fail t) = some s') : PidOk s' := by
  obtain ⟨new, hm, rfl⟩ := fail_inv hst
  refine ⟨h.making.setMaking rfl (fun u hu => setMaking_of_ne hu) fun m hm' => absurd rfl (leave_making hm').1,
    h.lists.congr rfl rfl fun _ _ => rfl, h.pids.shrink ?_ rfl ?_ fun u m _ hm' _ => (leave_making hm').2⟩
  · rintro w (hw | ⟨u, hu⟩)
    · exact ⟨Or.inl hw, rfl⟩
    · exact ⟨Or.inr ⟨u, (leave_making hu).2⟩, rfl⟩
  · rintro u ⟨m, hm', hphase⟩
    exact ⟨m, (leave_making hm').2, hphase⟩

theorem insert_ok (h : PidOk s) (hst : stepOf s (.insert t) = some s') : PidOk s' := by
  obtain ⟨new, hm, rfl⟩ := insert_inv hst
  have hnew : new ∉ s.tasks := (h.making.maker t _ hm).2
  refine ⟨⟨fun u m hu => ?_, fun u w m m' hu hw => ?_⟩, ⟨?_, fun j => ?_, fun j w => ?_⟩,
    h.pids.shrink ?_ rfl ?_ ?_⟩
  · obtain ⟨hne, hu⟩ := leave_making hu
    obtain ⟨h1, h2⟩ := h.making.maker u m hu
    refine ⟨List.mem_cons_of_mem _ h1, fun hin => ?_⟩
    rcases List.mem_cons.1 hin with he | hin
    · exact hne (h.making.once u t _ _ hu hm he)
    · exact h2 hin
  · exact h.making.once u w m m' (leave_making hu).2 (leave_making hw).2
  · exact List.nodup_cons.2 ⟨hnew, h.lists.tasks⟩
  · show (if j = Sys.list (s.pid new) then new :: s.pidLists j else s.pidLists j).Nodup
    split_ifs
    · exact List.nodup_cons.2 ⟨fun hin => hnew ((h.lists.mem j new).1 hin).1, h.lists.lists j⟩
    · exact h.lists.lists j
  · show w ∈ (if j = Sys.list (s.pid new) then new :: s.pidLists j else s.pidLists j) ↔
      w ∈ new :: s.tasks ∧ j = Sys.list (s.pid w)
    have hmem := h.lists.mem j w
    split_ifs with hj
    · rw [List.mem_cons, List.mem_cons, hmem]
      constructor
      · rintro (rfl | hw)
        · exact ⟨Or.inl rfl, hj⟩
        · exact ⟨Or.inr hw.1, hw.2⟩
      · rintro ⟨rfl | hw, hj'⟩
        · exact Or.inl rfl
        · exact Or.inr ⟨hw, hj'⟩
    · rw [hmem, List.mem_cons]
      refine and_congr_left fun hj' => (or_iff_right fun he => hj ?_).symm
      rw [← he]
      exact hj'
  · rintro w (hw | ⟨u, hu⟩)
    · rcases List.mem_cons.1 hw with rfl | hw
      · exact ⟨Or.inr ⟨t, hm⟩, rfl⟩
      · exact ⟨Or.inl hw, rfl⟩
    · exact ⟨Or.inr ⟨u, (leave_making hu).2⟩, rfl⟩
  · rintro u ⟨m, hu, hphase⟩
    exact ⟨m, (leave_making hu).2, hphase⟩
  · exact fun u m _ hu _ => (leave_making hu).2

theorem release_ok (h : PidOk s) (hst : stepOf s (.release t dead) = some s') : PidOk s' := by
  rw [stepOf] at hst
  split_ifs at hst with hlegal
  cases hst
  obtain ⟨-, -, hdead, -, hnone, -⟩ := hlegal
  have hmem : ∀ w, w ∈ s.tasks.erase dead ↔ w ≠ dead ∧ w ∈ s.tasks := fun w => h.lists.tasks.mem_erase_iff
  refine ⟨⟨fun u m hu => ?_, h.making.once⟩,
    ⟨h.lists.tasks.erase dead, fun j => (h.lists.lists j).erase dead, fun j w => ?_⟩, h.pids.shrink ?_ rfl (fun _ hw => hw)
    fun _ _ _ hu _ => hu⟩
  · obtain ⟨h1, h2⟩ := h.making.maker u m hu
    refine ⟨(hmem u).2 ⟨fun he => ?_, h1⟩, fun hin => h2 ((hmem _).1 hin).2⟩
    rw [he] at hu
    cases hnone.symm.trans hu
  · show w ∈ (s.pidLists j).erase dead ↔ w ∈ s.tasks.erase dead ∧ _
    rw [(h.lists.lists j).mem_erase_iff, hmem, h.lists.mem j w, and_assoc]
    rfl
  · rintro w (hw | hw)
    · exact ⟨Or.inl ((hmem w).1 hw).2, rfl⟩
    · exact ⟨Or.inr hw, rfl⟩

/-- what the invariant says does not depend on the walks -/
theorem PidOk.congr (h : PidOk s) (htasks : s'.tasks = s.tasks) (hlists : s'.pidLists = s.pidLists)
    (hmaking : s'.making = s.making) (hstart : s'.pidStart = s.pidStart) (hpid : ∀ t, Owns s t → s'.pid t = s.pid t) :
    PidOk s' := by
  have howns : ∀ t, Owns s' t ↔ Owns s t := fun t => by rw [Owns, Owns, Pending, Pending, htasks, hmaking]
  have hwin : ∀ t, InWindow s' t ↔ InWindow s t := fun t => by rw [InWindow, InWindow, hmaking]
  refine ⟨⟨fun t m hm => ?_, ?_⟩, h.lists.congr htasks hlists fun t ht => hpid t (Or.inl ht),
    h.pids.shrink (fun t ht => ?_) hstart
    (fun t => (hwin t).1) fun t m v hm _ => ?_⟩
  · rw [htasks]
    exact h.making.maker t m (hmaking ▸ hm)
  · rw [hmaking]
    exact h.making.once
  · exact ⟨(howns t).1 ht, hpid t ((howns t).1 ht)⟩
  · rwa [hmaking] at hm

theorem setWalk_ok (h : PidOk s) (t : ℕ) (l : Look) : PidOk (s.setWalk t l) := h.congr rfl rfl rfl rfl fun _ _ => rfl

/-- while a task is in kernel_thread, no other task takes a step -/
theorem Solo.only (h : Solo s) {m : Making} (hmaking : s.making u = some m) (ht : t ∈ s.tasks)
    (hmask : s.masked = none ∨ s.masked = some t) : u = t := by
  rcases h u m hmaking with hu | hu
  · rcases hmask with hnone | hsome
    · cases hnone.symm.trans hu
    · exact Option.some.inj (hu.symm.trans hsome)
  · exact (List.mem_singleton.1 (hu ▸ ht)).symm

/-- the callers of kernel_thread keep the other tasks away from the counter -/
theorem alone (hsolo : Solo s) (hst : step s op = some s') : Alone s op := by
  rw [step] at hst
  split_ifs at hst with hlegal
  have hnobody : ∀ u, u ≠ op.task → ¬ InWindow s u := fun u hu ⟨m, hm, _⟩ => hu (hsolo.only hm hlegal.1 hlegal.2)
  refine ⟨?_, ?_⟩
  · rintro t p rfl hp
    refine ⟨fun _ => hnobody, fun new ⟨u, hu⟩ => ?_⟩
    obtain rfl : u = t := hsolo.only hu hlegal.1 hlegal.2
    rw [stepOf, hu] at hst
    cases hst
  · rintro t rfl
    exact hnobody

/-- a task that is in no call of kernel_thread runs when nobody is in one -/
theorem Solo.nobody (h : Solo s) (ht : t ∈ s.tasks) (hmask : s.masked = none ∨ s.masked = some t)
    (hnone : s.making t = none) : ∀ u m, s.making u ≠ some m := by
  intro u m hu
  obtain rfl := h.only hu ht hmask
  cases hnone.symm.trans hu

/-- what the task makes changes, or it leaves -/
theorem Solo.update (h : Solo s) {m : Making} (hm : s.making t = some m) (hmask : s'.masked = s.masked)
    (htasks : s'.tasks = s.tasks) {m' : Option Making} (hmaking : s'.making = Function.update s.making t m') : Solo s' := by
  intro u x hu
  rw [hmask, htasks]
  rw [hmaking] at hu
  rcases update_cases hu with ⟨rfl, -⟩ | ⟨-, hu⟩
  · exact h u m hm
  · exact h u x hu

theorem solo_step (hsolo : Solo s) (hst : step s op = some s') : Solo s' := by
  rw [step] at hst
  split_ifs at hst with hlegal
  obtain ⟨ht, hmask⟩ := hlegal
  cases op with
  | enter t new masked =>
    obtain ⟨⟨hnone, -, -, hcaller⟩, rfl⟩ := enter_inv hst
    have hnobody := hsolo.nobody ht hmask hnone
    intro u m hu
    rcases update_cases hu with ⟨rfl, -⟩ | ⟨-, hu⟩
    · rcases hcaller with rfl | halone
      · exact Or.inl rfl
      · exact Or.inr halone
    · exact absurd hu (hnobody u m)
  | scan t =>
    obtain ⟨new, p, hm, -, rfl⟩ := scan_inv hst
    exact hsolo.update hm rfl rfl rfl
  | load t =>
    obtain ⟨new, hm, rfl⟩ := load_inv hst
    exact hsolo.update hm rfl rfl rfl
  | store t =>
    obtain ⟨new, v, hm, rfl⟩ := store_inv hst
    exact hsolo.update hm rfl rfl rfl
  | fail t =>
    obtain ⟨new, hm, rfl⟩ := fail_inv hst
    intro u m hu
    obtain ⟨hne, hu⟩ := leave_making hu
    exact absurd (hsolo.only hu ht hmask) hne
  | insert t =>
    obtain ⟨new, hm, rfl⟩ := insert_inv hst
    intro u m hu
    obtain ⟨hne, hu⟩ := leave_making hu
    exact absurd (hsolo.only hu ht hmask) hne
  | release t dead =>
    rw [stepOf] at hst
    split_ifs at hst with hcall
    cases hst
    exact fun u m hu => absurd hu (hsolo.nobody ht hmask hcall.1 u m)
  | look t p =>
    rw [stepOf] at hst
    split_ifs at hst
    cases hst
    exact hsolo
  | walk t w =>
    obtain ⟨l, rfl⟩ := walkOn_cases hst
    exact hsolo
  | reuse t page p next =>
    rw [stepOf] at hst
    split_ifs at hst
    cases hst
    exact hsolo

/-- **The invariant.** -/
theorem step_ok (h : PidOk s) (hsolo : Solo s) (hst : step s op = some s') : PidOk s' ∧ Solo s' := by
  have hal := alone hsolo hst
  refine ⟨?_, solo_step hsolo hst⟩
  rw [step] at hst
  split_ifs at hst with hlegal
  cases op with
  | enter t new masked => exact enter_ok h hst hlegal.1
  | scan t => exact scan_ok h hal hst
  | load t => exact load_ok h hst
  | store t => exact store_ok h hal hst
  | fail t => exact fail_ok h hst
  | insert t => exact insert_ok h hst
  | release t dead => exact release_ok h hst
  | look t p =>
    rw [stepOf] at hst
    split_ifs at hst
    cases hst
    exact setWalk_ok h t _
  | walk t w =>
    obtain ⟨l, rfl⟩ := walkOn_cases hst
    exact setWalk_ok h t l
  | reuse t page p next =>
    rw [stepOf] at hst
    split_ifs at hst with hunused
    cases hst
    refine h.congr rfl rfl rfl rfl fun u hu => Function.update_of_ne ?_ ..
    rintro rfl
    rcases hu with hu | ⟨w, hw⟩
    · exact hunused.1 hu
    · exact hunused.2 w (h.making.maker w _ hw).1 _ hw rfl

end SinsOs.Pid
