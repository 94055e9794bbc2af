/-
A child in the process tree, from the kernel_thread that creates it to the kthread_release of its parent: what the others see of
it is one entry of a child list and one of a pid list, which come and go at the heads of the lists.

- `thread_forked`, `Forked.exit`, `Forked.wait`: the child is on chld_active, and on chld_zombie once it has exited.
- `Forked.release`: the end of sys_wait_pid leaves the lists of children and the pid table as they were.
-/
import SinsOs.Kernel.Exit

namespace SinsOs.Exit

open SinsOs.Core SinsOs.Sched

variable {s0 s s' : Sys} {c pid new : ℕ} {z : Bool} {x : Option Call}

/-- the tasks, their fields and lists, and the pid table are those of s0 -/
structure Unforked (s0 s : Sys) : Prop where
  tasks : s.tasks = s0.tasks
  task : ∀ u ∈ s0.tasks, s.task u = s0.task u
  pidLists : s.pidLists = s0.pidLists

theorem Unforked.refl (s : Sys) : Unforked s s := ⟨rfl, fun _ _ => rfl, rfl⟩

/-- s0 with a child of c that has no children, and that has exited if `z`; the call that c is in -/
structure Forked (s0 s : Sys) (c pid new : ℕ) (z : Bool) (x : Option Call) : Prop where
  ok : TreeOk s
  tasks : s.tasks = insert new s0.tasks
  parent : (s.task new).parent = some c
  named : (s.task new).pid = pid
  state : (s.task new).state = if z then .zombie else .runnable
  childless : (s.task new).chldActive = [] ∧ (s.task new).chldZombie = []
  other : ∀ u ∈ s0.tasks, s.task u = { s0.task u with
    chldActive := if u = c ∧ z = false then new :: (s0.task u).chldActive else (s0.task u).chldActive
    chldZombie := if u = c ∧ z = true then new :: (s0.task u).chldZombie else (s0.task u).chldZombie }
  pidLists : ∀ k, s.pidLists k = if k = pid % nrPidLists then new :: s0.pidLists k else s0.pidLists k
  caller : s.calls c = x
  idle : s.calls new = none

theorem Task.eq {a b : Task} (h1 : a.pid = b.pid) (h2 : a.state = b.state) (h3 : a.exitCode = b.exitCode)
    (h4 : a.parent = b.parent) (h5 : a.chldActive = b.chldActive) (h6 : a.chldZombie = b.chldZombie) : a = b := by
  cases a
  cases b
  cases h1
  cases h2
  cases h3
  cases h4
  cases h5
  cases h6
  rfl

/-- a task that is not there is on no list -/
theorem TreeOk.absent (h : TreeOk s0) (hnew : new ∉ s0.tasks) {u : ℕ} (hu : u ∈ s0.tasks) :
    new ∉ (s0.task u).chldActive ∧ new ∉ (s0.task u).chldZombie ∧ ∀ k, new ∉ s0.pidLists k :=
  ⟨fun hin => hnew ((h.family.active u hu new).1 hin).1, fun hin => hnew ((h.family.zombie u hu new).1 hin).1,
    fun k hin => hnew ((h.named.lists k new).1 hin).1⟩

/-- a new task is neither idle nor init -/
theorem TreeOk.fresh (h : TreeOk s0) (hnew : new ∉ s0.tasks) : new ≠ 0 ∧ new ≠ 1 :=
  ⟨fun he => hnew (he ▸ h.named.idle.1), fun he => hnew (he ▸ h.named.init.1)⟩

/-- kernel_thread with the pid of find_usable_pid -/
theorem thread_forked (h : TreeOk s0) (hc : Runs s0 c) (hf : findUsablePid s0 = some (pid, s)) (hnew : new ∉ s0.tasks)
    (hfresh : new ∉ s0.released) : Unforked s0 s ∧ Forked s0 (kernelThread s c pid new) c pid new false none := by
  have hok := endCall_ok (c := c) (findPid_ok h hc hf)
  have hpid := (findPid_ok h hc hf).named.threads c pid (if_pos rfl)
  obtain ⟨-, rfl⟩ := findUsablePid_fresh hf
  have hsame : (({ s0 with pidStart := (pid + 1) % 2 ^ 32 } : Sys).setCall c (some (.thread pid))).setCall c none =
      ({ s0 with pidStart := (pid + 1) % 2 ^ 32 } : Sys) := by
    have hcalls : (fun u => if u = c then none else if u = c then some (Call.thread pid) else s0.calls u) = s0.calls := by
      funext u
      split_ifs with hu
      · rw [hu, hc.2.2]
      · rfl
    exact congrArg (fun calls => ({ s0 with pidStart := (pid + 1) % 2 ^ 32, calls := calls } : Sys)) hcalls
  rw [hsame] at hok
  have hth : Threaded ({ s0 with pidStart := (pid + 1) % 2 ^ 32 } : Sys) _ c pid new :=
    kernelThread_threaded fun he => hnew (he ▸ hc.1)
  have hidle : s0.calls new = none := by
    by_contra hcall
    exact hnew (h.told.chld new hcall).1
  refine ⟨⟨rfl, fun _ _ => rfl, rfl⟩, kernelThread_ok hok hc.1 hpid.1 hpid.2 hnew hfresh, hth.tasks, ?_, ?_, ?_, ?_,
    fun u hu => ?_, hth.pidLists, ?_, ?_⟩
  · rw [hth.self]
  · rw [hth.self]
  · rw [hth.self]
    rfl
  · rw [hth.self]
    exact ⟨rfl, rfl⟩
  · rw [hth.other u fun he => hnew (he ▸ hu)]
    simp
  · rw [hth.calls]
    exact hc.2.2
  · rw [hth.calls]
    exact hidle

namespace Forked

theorem mem (h : Forked s0 s c pid new z x) : new ∈ s.tasks := h.tasks ▸ Finset.mem_insert_self new s0.tasks

/-- the child exits -/
theorem exit (h : Forked s0 s c pid new false x) (h0 : TreeOk s0) (hc : c ∈ s0.tasks) (hnew : new ∉ s0.tasks) (code : ℤ) :
    ∃ s', sysExit s new code = some s' ∧ Forked s0 s' c pid new true x := by
  obtain ⟨hne0, hne1⟩ := h0.fresh hnew
  have hruns : Runs s new := ⟨h.mem, h.state, h.idle⟩
  have hpid : (s.task new).pid ≠ 0 := fun he => hne0 ((h.ok.named.pid new h.mem).1 he)
  obtain ⟨s', hexit, he⟩ := sysExit_exited code hpid h.parent
  refine ⟨s', hexit, exit_ok h.ok he hruns hne0 hne1 h.parent, he.tasks.trans h.tasks, (he.parent new).trans h.parent,
    (he.pid new).trans h.named, (he.state new).trans (if_pos rfl), ?_, fun u hu => ?_, fun k => ?_, ?_, ?_⟩
  · have hcn : new ≠ c := fun hcn => hnew (hcn ▸ hc)
    rw [he.active, he.zombie, if_neg hcn, h.childless.1, h.childless.2]
    exact ⟨rfl, rfl⟩
  · have hne : u ≠ new := fun hne => hnew (hne ▸ hu)
    obtain ⟨ha, hz, -⟩ := h0.absent hnew hu
    have hu' := h.other u hu
    have hactive : (s'.task u).chldActive = (s0.task u).chldActive := by
      rw [he.active, hu']
      dsimp only
      split_ifs
      · exact List.erase_cons_head ..
      · exact List.erase_of_not_mem ha
    have hzombie : (s'.task u).chldZombie = if u = c then new :: (s0.task u).chldZombie else (s0.task u).chldZombie := by
      rw [he.zombie, hu']
      simp [List.erase_of_not_mem hz]
    have hparent := he.parent u
    have hpid' := he.pid u
    have hstate := he.state u
    have hcode := he.exitCode u
    rw [hu'] at hparent hpid' hstate hcode
    rw [if_neg hne] at hstate hcode
    refine Task.eq hpid' hstate hcode hparent (hactive.trans (if_neg fun hu => nomatch hu.2).symm) (hzombie.trans ?_)
    exact if_congr (and_iff_left rfl).symm rfl rfl
  · rw [he.pidLists]
    exact h.pidLists k
  · rw [he.calls]
    exact h.caller
  · rw [he.calls]
    exact h.idle

/-- sys_wait_pid finds the child and waits for it -/
theorem wait (h : Forked s0 s c pid new z none) (hc : Runs s0 c) (hnew : new ∉ s0.tasks) :
    (sysWaitPid s c pid).calls c = some (.waitPid new) ∧
      Forked s0 (sysWaitPid s c pid) c pid new z (some (.waitPid new)) := by
  have hlist : s.pidLists (pid % nrPidLists) = new :: s0.pidLists (pid % nrPidLists) := (h.pidLists _).trans (if_pos rfl)
  have hget : getTaskByPid s pid = some new := by
    rw [getTaskByPid, hlist]
    exact List.find?_cons_of_pos (decide_eq_true h.named)
  have hwait : sysWaitPid s c pid = s.setCall c (some (.waitPid new)) := by
    rw [sysWaitPid, hget]
    exact if_pos h.parent
  have hruns : Runs s c := by
    refine ⟨h.tasks ▸ Finset.mem_insert_of_mem hc.1, ?_, h.caller⟩
    rw [h.other c hc.1]
    exact hc.2.1
  have hok := sysWaitPid_ok h.ok hruns pid
  have hcn : new ≠ c := fun he => hnew (he ▸ hc.1)
  rw [hwait] at hok ⊢
  exact ⟨if_pos rfl, hok, h.tasks, h.parent, h.named, h.state, h.childless, h.other, h.pidLists, if_pos rfl,
    (if_neg hcn).trans h.idle⟩

/-- **The child is gone.** -/
theorem release (h : Forked s0 s c pid new true (some (.waitPid new))) (h0 : TreeOk s0) (hc : c ∈ s0.tasks)
    (hnew : new ∉ s0.tasks) : ∃ s', Exit.release s c new = some s' ∧ Unforked s0 s' := by
  have hreaps := waitPidDone_reaps h.ok h.caller h.state
  obtain ⟨s', hrel, hr⟩ := release_released h.ok hreaps
  refine ⟨s', hrel, ?_, fun u hu => ?_, funext fun k => ?_⟩
  · rw [hr.tasks, h.tasks, Finset.erase_insert hnew]
  · have hne : u ≠ new := fun hne => hnew (hne ▸ hu)
    obtain ⟨ha, hz, -⟩ := h0.absent hnew hu
    have hu' := h.other u hu
    have hin : u ∈ s.tasks := h.tasks ▸ Finset.mem_insert_of_mem hu
    have hactive : (s'.task u).chldActive = (s0.task u).chldActive := by
      rw [hr.active u hne, hu', h.childless.1, ite_self, List.nil_append]
      simp [List.erase_of_not_mem ha]
    have hzombie : (s'.task u).chldZombie = (s0.task u).chldZombie := by
      rw [hr.zombie u hne, hu', h.childless.2, ite_self, List.nil_append]
      dsimp only
      split_ifs
      · exact List.erase_cons_head ..
      · exact List.erase_of_not_mem hz
    have hparent := hr.parent u hin hne
    have hpid' := hr.pid u
    have hstate := hr.state u hne
    have hcode := hr.exitCode u
    rw [hu'] at hparent hpid' hstate hcode
    rw [if_neg (no_parent_new h0 hnew hu)] at hparent
    exact Task.eq hpid' hstate hcode hparent hactive hzombie
  · rw [hr.pidLists, h.pidLists]
    split_ifs
    · exact List.erase_cons_head ..
    · exact List.erase_of_not_mem ((h0.absent hnew hc).2.2 k)

end Forked

end SinsOs.Exit
