/-
What a failing sys_exec leaves behind: sys_exec and its child in exec_wrapper (fs/exec.c) over the descriptor tables, the process
tree and the page allocator.

The caller runs with interrupts off up to its wait; from there on the steps of the caller and of the child come in any order, and
others use the page allocator in between, so that each allocation can fail. What open_namei, kmalloc and the reads of the file
give is a parameter of the step. The process tree is the caller's and its child's: no other task forks, exits or opens a file.
`none` is a step that is not next, or a BUG_ON that fires. The bytes of pages are followed as far as they are page tables.
The stores of long filenames and arguments behind printk's buffer, behind the page that copy_argv fills (dest[4096]) and behind
cmd[20] are not followed: a run goes on as if they met nothing.

- `exec_clean`: when sys_exec returns a negative value, the descriptor tables, the files, the lists of children and the pid table
  are as before, no page is held by anyone but the others, and no task has the pointer to the parameters.
- `cleanup_returns`: the steps that clean up go through.
-/
import SinsOs.Fs.Exec
import SinsOs.Fs.ExecFiles
import SinsOs.Kernel.ExitChild
import SinsOs.Mm.HeldPages

namespace SinsOs.ExecFailure

open SinsOs.Core SinsOs.Lib SinsOs.Bits SinsOs.Mm SinsOs.Kmalloc SinsOs.Paging SinsOs.PageTable
open SinsOs.Exec (CString copyArgv)

/-! ## Model -/

def oRdonly : ℕ := 0

/-- the parameters on the stack of sys_exec, as far as the clean-up depends on them -/
structure Params where
  file : ℕ
  ret : ℤ

/-- sys_exec: at its start, with the file open, with the argument page, with the arguments in it, on its wait queue, woken up, in
sys_wait_pid, at its labels, back in its caller -/
inductive Parent
  | start
  | opened (file : ℕ)
  | zeroed (file : ℕ) (argPage : Word)
  | copied (file : ℕ) (argPage : Word)
  | waiting (file : ℕ) (argPage : Word) (pid : ℕ)
  | woken (file : ℕ) (argPage : Word) (pid : ℕ)
  | waitPid (file : ℕ) (argPage : Word) (task : ℕ)
  | releasePage (file : ℕ) (argPage : Word) (ret : ℤ)
  | releaseFile (file : ℕ) (ret : ℤ)
  | returned (ret : ℤ)
deriving DecidableEq, Repr

/-- exec_wrapper: before load_page and before sys_read in write_program_to_user, before each load_page for the arguments and the
stack, before sys_close, before and behind wake_up, in user mode, behind sys_exit -/
inductive Phase
  | loadProgram (loadCount : ℕ)
  | readProgram (loadCount : ℕ)
  | argvPage
  | argcPage
  | stackPage
  | close (ok : Bool)
  | wakeUp (ok : Bool)
  | woke (ok : Bool)
  | userMode
  | zombie
deriving DecidableEq, Repr

/-- the task and the page of its task_struct -/
structure Child where
  task : ℕ
  page : Word
  pageDir : Word
  phase : Phase

/-- `holders` are the tasks that have the pointer to the parameters, `others` the blocks that the others hold -/
structure Sys where
  parent : Parent
  child : Option Child
  params : Params
  holders : Finset ℕ
  files : Open.Sys
  tree : Exit.Sys
  vm : Vm
  others : List (ℕ × ℕ)

section Model

variable (L : Layout) (kernelPageDir : Word) (filename : CString) (argv : List (Option CString)) (c : ℕ)

def openFile (s : Sys) (env : Open.OpenEnv) : Sys :=
  let r := Open.sysOpen s.files c oRdonly env
  { s with files := r.2, parent := if r.1 < 0 then .returned r.1 else .opened r.1.toNat }

def getArgPage (s : Sys) (file : ℕ) : Option Sys :=
  if argv.length > Exec.pageSize / Exec.sizeofPointer then some { s with parent := .releaseFile file (-error) }
  else (getZeroedPage L s.vm (gfpNormal ||| gfpDma)).map fun r =>
    match r.1 with
    | none => { s with vm := r.2, parent := .releaseFile file (-eNomem) }
    | some argPage => { s with vm := r.2, parent := .zeroed file argPage }

def copyArgs (s : Sys) (file : ℕ) (argPage : Word) : Sys :=
  { s with parent :=
      if (copyArgv filename ⟨fun _ => 0, 0⟩ Exec.pageSize argv).1 < 0 then .releasePage file argPage (-error)
      else .copied file argPage }

/-- a pid as an int -/
def intOf (pid : ℕ) : ℤ := if pid < 2 ^ 31 then pid else pid - 2 ^ 32

/-- kernel_thread with exec_wrapper and the parameters -/
def kernelThread (s : Sys) (new : ℕ) : Option (ℤ × Sys) :=
  (getFreePages L s.vm.sys (gfpNormal ||| gfpDma) 0).bind fun r =>
    match r.1 with
    | none => some (-eNomem, { s with vm := ⟨r.2, s.vm.mem⟩ })
    | some task =>
      (Exit.findUsablePid s.tree).bind fun q =>
        (copyEmptyPageDir L ⟨r.2, s.vm.mem⟩ kernelPageDir).bind fun d =>
          match d.1 with
          | none => (freePages L d.2.sys task 0).map fun sys => (-eNomem, { s with tree := q.2, vm := ⟨sys, d.2.mem⟩ })
          | some pageDir => some (intOf q.1, { s with
              child := some ⟨new, task, pageDir, .loadProgram 0⟩
              holders := insert new s.holders
              files := Open.kernelThread s.files c (some new)
              tree := Exit.kernelThread q.2 c q.1 new
              vm := d.2 })

/-- kernel_thread, and wait unless it failed -/
def startChild (s : Sys) (file : ℕ) (argPage : Word) (new : ℕ) : Option Sys :=
  (kernelThread L kernelPageDir c { s with params := { s.params with file } } new).map fun r =>
    { r.2 with parent := if r.1 < 0 then .releasePage file argPage r.1 else .waiting file argPage r.1.toNat }

/-- behind wait -/
def resume (s : Sys) (file : ℕ) (argPage : Word) (pid : ℕ) : Sys :=
  if s.params.ret < 0 then
    let tree := Exit.sysWaitPid s.tree c pid
    match tree.calls c with
    | some (.waitPid t) => { s with tree, parent := .waitPid file argPage t }
    | _ => { s with tree, parent := .releasePage file argPage s.params.ret }
  else { s with parent := .releasePage file argPage pid }

/-- the end of sys_wait_pid with kthread_release -/
def reap (s : Sys) (file : ℕ) (argPage : Word) (t : ℕ) : Option Sys :=
  s.child.bind fun ch =>
    if ch.task = t ∧ (s.tree.task t).state = .zombie then
      (Exit.release s.tree c t).bind fun tree => (freePageDir L s.vm ch.pageDir).bind fun vm =>
        (freePages L vm.sys ch.page 0).map fun sys =>
          { s with
            child := none
            holders := s.holders.erase t
            tree
            vm := ⟨sys, vm.mem⟩
            parent := .releasePage file argPage s.params.ret }
    else none

inductive ParentOp
  | openFile (env : Open.OpenEnv)
  | getArgPage
  | copyArgs
  | startChild (new : ℕ)
  | resume
  | reap
  | freeArgPage
  | closeFile

def parentStep (s : Sys) (o : ParentOp) : Option Sys :=
  match s.parent, o with
  | .start, .openFile env => some (openFile c s env)
  | .opened file, .getArgPage => getArgPage L argv s file
  | .zeroed file argPage, .copyArgs => some (copyArgs filename argv s file argPage)
  | .copied file argPage, .startChild new => startChild L kernelPageDir c s file argPage new
  | .woken file argPage pid, .resume => some (resume c s file argPage pid)
  | .waitPid file argPage t, .reap => reap L c s file argPage t
  | .releasePage file argPage ret, .freeArgPage =>
    (freePages L s.vm.sys argPage 0).map fun sys => { s with vm := ⟨sys, s.vm.mem⟩, parent := .releaseFile file ret }
  | .releaseFile file ret, .closeFile => some { s with files := (Open.sysClose s.files c file).2, parent := .returned ret }
  | _, _ => none

def Parent.wake : Parent → Parent
  | .waiting file argPage pid => .woken file argPage pid
  | parent => parent

def setPhase (s : Sys) (ch : Child) (ret : ℤ) (phase : Phase) : Sys :=
  { s with params := { s.params with ret }, child := some { ch with phase } }

/-- load_page, and `params->ret = -ERROR` when it returns NULL -/
def load (s : Sys) (ch : Child) (addr : Word) (ret : ℤ) (next : Phase) : Option Sys :=
  (loadPage L s.vm ch.pageDir addr).map fun r =>
    match r.1 with
    | none => setPhase { s with vm := r.2 } ch (-error) (.close false)
    | some _ => setPhase { s with vm := r.2 } ch ret next

/-- write_program_to_user, write_argv_to_user and create_user_stack up to the end of a load_page -/
def loadStep (s : Sys) (ch : Child) : Option Sys :=
  match ch.phase with
  | .loadProgram k =>
    if k * Exec.pageSize ≥ Exec.pageOffset then none
    else load L s ch (BitVec.ofNat 32 (k * Exec.pageSize)) s.params.ret (.readProgram k)
  | .argvPage => load L s ch (pageOffset - 2#32 * pageSize) s.params.ret .argcPage
  | .argcPage => load L s ch (pageOffset - pageSize) success .stackPage
  | .stackPage => load L s ch (pageOffset - 3#32 * pageSize) success (.close true)
  | _ => none

/-- sys_read of a page of the program and what write_program_to_user does with the count -/
def readStep (s : Sys) (ch : Child) (readCount : ℤ) (magic : Bool) : Option Sys :=
  match ch.phase with
  | .readProgram k =>
    if readCount > 0 then
      if k = 0 ∧ (readCount < 8 ∨ magic = false) then some (setPhase s ch (-eNoexec) (.close false))
      else some (setPhase s ch s.params.ret (.loadProgram (k + 1)))
    else if readCount = -eIo then some (setPhase s ch success .argvPage)
    else some (setPhase s ch (-error) (.close false))
  | _ => none

inductive ChildOp
  | load
  | read (readCount : ℤ) (magic : Bool)
  | close
  | wakeUp
  | moveToUserMode
  | exit

def childStep (s : Sys) (ch : Child) : ChildOp → Option Sys
  | .load => loadStep L s ch
  | .read readCount magic => readStep s ch readCount magic
  | .close =>
    match ch.phase with
    | .close ok => some (setPhase { s with files := (Open.sysClose s.files ch.task s.params.file).2 } ch s.params.ret
      (.wakeUp ok))
    | _ => none
  | .wakeUp =>
    match ch.phase with
    | .wakeUp ok => some (setPhase { s with parent := s.parent.wake } ch s.params.ret (.woke ok))
    | _ => none
  | .moveToUserMode =>
    match ch.phase with
    | .woke true => some (setPhase { s with holders := s.holders.erase ch.task } ch s.params.ret .userMode)
    | _ => none
  | .exit =>
    match ch.phase with
    | .woke false => (Exit.sysExit s.tree ch.task (-error)).map fun tree =>
        setPhase { s with tree, files := Open.sysExit s.files ch.task } ch s.params.ret .zombie
    | _ => none

inductive Op
  | parent (o : ParentOp)
  | child (o : ChildOp)
  | other (o : BuddyRun.Op)

/-- kmalloc gives memory that is free, a new task is new, and the others give back what they hold -/
def legal (s : Sys) : Op → Prop
  | .parent (.openFile env) => ∀ f ∈ env.memory, f ∉ s.files.alloc
  | .parent (.startChild new) => new ∉ s.files.tasks ∧ new ∉ s.tree.tasks ∧ new ∉ s.tree.released
  | .other o => BuddyRun.legal ⟨s.vm.sys.mm, s.others⟩ o
  | _ => True

instance (s : Sys) (o : Op) : Decidable (legal s o) :=
  match o with
  | .parent (.openFile env) => inferInstanceAs (Decidable (∀ f ∈ env.memory, f ∉ s.files.alloc))
  | .parent (.startChild new) =>
    inferInstanceAs (Decidable (new ∉ s.files.tasks ∧ new ∉ s.tree.tasks ∧ new ∉ s.tree.released))
  | .other o => inferInstanceAs (Decidable (BuddyRun.legal ⟨s.vm.sys.mm, s.others⟩ o))
  | .parent .getArgPage | .parent .copyArgs | .parent .resume | .parent .reap | .parent .freeArgPage | .parent .closeFile
  | .child _ => inferInstanceAs (Decidable True)

def step (s : Sys) : Op → Option Sys
  | .parent o => parentStep L kernelPageDir filename argv c s o
  | .child o => s.child.bind fun ch => childStep L s ch o
  | .other o => (BuddyRun.step L ⟨s.vm.sys.mm, s.others⟩ o).bind fun u => (BuddyRun.step L s.vm.sys o).map fun sys =>
      { s with vm := ⟨sys, s.vm.mem⟩, others := u.live }

/-- the runs of sys_exec from s0 on -/
def system (s0 : Sys) : Lts Sys Op where
  start := fun s => s = s0
  step := fun s o s' => legal s o ∧ step L kernelPageDir filename argv c s o = some s'

end Model

/-! ## Statement -/

variable {L : Layout} {kernelPageDir : Word} {filename : CString} {argv : List (Option CString)} {c : ℕ} {s0 s s' : Sys}

/-- a state in which task c calls sys_exec, with the directory that paging_init made in memory and pids below 2^31 -/
structure Ready (L : Layout) (st : Paging.State) (c : ℕ) (s : Sys) : Prop where
  called : s.parent = .start ∧ s.child = none ∧ s.holders = ∅
  files : Open.system.Reach s.files ∧ c ∈ s.files.tasks
  tree : Exit.system.Reach s.tree ∧ Exit.Runs s.tree c
  pids : ∀ pid tree, Exit.findUsablePid s.tree = some (pid, tree) → pid < 2 ^ 31
  pages : (BuddyRun.system L).Reach s.vm.sys
  others : s.others = s.vm.sys.live
  dir : ∀ k < ptrsPerPgd, s.vm.mem st.pageDir k = st.dir k

/-- the descriptor tables, the files, the child lists and the pid table are as in s0, only the others hold pages, and no task has
the pointer to the parameters -/
structure Clean (L : Layout) (s0 s : Sys) : Prop where
  files : Open.Restored s0.files s.files
  tree : Exit.Unforked s0.tree s.tree
  pages : s.vm.sys.live.Perm s.others
  free : s.others.Perm s0.others → ∀ p, FreePage L s.vm.sys.mm p ↔ FreePage L s0.vm.sys.mm p
  holders : s.child = none ∧ s.holders = ∅

/-! ## The invariant -/

/-- sys_exec has no child and holds the given blocks -/
structure Alone (L : Layout) (s0 s : Sys) (blocks : List (ℕ × ℕ)) : Prop where
  child : s.child = none ∧ s.holders = ∅
  pages : Held L s0.vm.mem s.vm (blocks ++ s.others)

/-- a file is open, and there has been no child -/
structure Before (c : ℕ) (s0 s : Sys) (file : ℕ) : Prop where
  opened : ∃ f, Open.Opened c file f s0.files s.files
  counted : Open.Counted s.files c
  tree : s.tree = s0.tree

/-- a file is open, and there is no child any more -/
structure After (c : ℕ) (s0 s : Sys) (file : ℕ) : Prop where
  opened : ∃ f t n, Open.Opened c file f s0.files t ∧ n ∉ s0.files.tasks ∧ Open.Same n t s.files
  tree : Exit.Unforked s0.tree s.tree

def Phase.gone : Phase → Bool
  | .zombie => true
  | _ => false

/-- its wake_up is before it -/
def Phase.early : Phase → Bool
  | .woke _ | .userMode | .zombie => false
  | _ => true

/-- the caller has a child and is in a call -/
structure Forked (L : Layout) (c : ℕ) (s0 s : Sys) (ch : Child) (file : ℕ) (argPage : Word) (pid : ℕ)
    (call : Option Exit.Call) :
    Prop where
  child : s.child = some ch
  tree : Exit.Forked s0.tree s.tree c pid ch.task ch.phase.gone call
  opened : ∃ f t, Open.Opened c file f s0.files t ∧
    if ch.phase.gone then Open.Same ch.task t s.files else Open.Shared ch.task t s.files
  pages : ∃ p q kernel, L.virtToPage ch.page = some p ∧ L.virtToPage argPage = some q ∧
    Owned L s0.vm.mem kernel s.vm ch.pageDir ([(p, 0), (q, 0)] ++ s.others)
  holders : s.holders ⊆ {ch.task}
  fresh : ch.task ∉ s0.files.tasks ∧ ch.task ∉ s0.tree.tasks

/-- **The invariant.** It says nothing more of a call that returns a pid. -/
def ExecOk (L : Layout) (c : ℕ) (s0 s : Sys) : Prop :=
  match s.parent with
  | .start => Alone L s0 s [] ∧ s.files = s0.files ∧ s.tree = s0.tree
  | .opened file => Alone L s0 s [] ∧ Before c s0 s file
  | .zeroed file argPage | .copied file argPage =>
    (∃ q, L.virtToPage argPage = some q ∧ Alone L s0 s [(q, 0)]) ∧ Before c s0 s file
  | .waiting file argPage pid => ∃ ch, ch.phase.early = true ∧ Forked L c s0 s ch file argPage pid none
  | .woken file argPage pid => ∃ ch, ch.phase.early = false ∧ Forked L c s0 s ch file argPage pid none
  | .waitPid file argPage t => ∃ ch pid, ch.phase.early = false ∧ ch.task = t ∧
    Forked L c s0 s ch file argPage pid (some (.waitPid t))
  | .releasePage file argPage ret => 0 ≤ ret ∨ (∃ q, L.virtToPage argPage = some q ∧ Alone L s0 s [(q, 0)]) ∧
    After c s0 s file
  | .releaseFile file ret => 0 ≤ ret ∨ Alone L s0 s [] ∧ After c s0 s file
  | .returned ret => 0 ≤ ret ∨ Alone L s0 s [] ∧ Open.Restored s0.files s.files ∧ Exit.Unforked s0.tree s.tree

/-! ## The caller -/

variable {st : Paging.State} {img : Image} {limit : BitVec 64} {dir pgt : ℕ → Word} {file : ℕ} {argPage : Word}

theorem Ready.treeOk (h : Ready L st c s0) : Exit.TreeOk s0.tree :=
  Lts.Reach.inv (M := Exit.system) (P := Exit.TreeOk) (fun _ hs => hs ▸ Exit.boot_ok)
    (fun _ _ s' hi hst => (Exit.step_ok hi hst.1).1 s' hst.2) h.tree.1

theorem Ready.start (h : Ready L st c s0) : ExecOk L c s0 s0 := by
  rw [ExecOk, h.called.1]
  exact ⟨⟨h.called.2, BuddyRun.reach_inv h.pages, h.others ▸ List.Perm.refl _, fun _ _ => rfl⟩, rfl, rfl⟩

/-- before there is a child, its number is any that no task has -/
theorem Before.after (h : Before c s0 s file) (hfiles : s'.files = s.files) (htree : Exit.Unforked s0.tree s'.tree) :
    After c s0 s' file := by
  obtain ⟨f, hf⟩ := h.opened
  obtain ⟨n, hn⟩ := Infinite.exists_notMem_finset s0.files.tasks
  exact ⟨⟨f, s.files, n, hf, hn, hfiles ▸ .refl n s.files⟩, htree⟩

theorem Before.unforked (h : Before c s0 s file) : Exit.Unforked s0.tree s.tree := h.tree ▸ .refl s0.tree

theorem openFile_ok (h0 : Ready L st c s0) (h : Alone L s0 s []) (hfiles : s.files = s0.files) (htree : s.tree = s0.tree)
    {env : Open.OpenEnv} (hm : ∀ f ∈ env.memory, f ∉ s.files.alloc) : ExecOk L c s0 (openFile c s env) := by
  have hcounted := Open.counted_reachable h0.files.1 h0.files.2
  have hreach : Open.system.Reach (Open.sysOpen s0.files c oRdonly env).2 :=
    .step (e := .open_ c oRdonly env) h0.files.1 ⟨⟨h0.files.2, hfiles ▸ hm⟩, rfl⟩
  rw [openFile, hfiles]
  rcases @Open.open_cases s0.files c hcounted.1 oRdonly env (hfiles ▸ hm) with ⟨hneg, -, hrest⟩ | ⟨fd, f, hfd, hopen⟩
  · rw [if_pos hneg]
    exact Or.inr ⟨⟨h.child, h.pages⟩, hrest, htree ▸ .refl s0.tree⟩
  · rw [hfd, if_neg (by omega), Int.toNat_natCast]
    refine ⟨⟨h.child, h.pages⟩, ⟨f, hopen⟩, ?_, htree⟩
    exact Open.counted_reachable hreach (hopen.tasks ▸ h0.files.2)

theorem getArgPage_ok (h : Alone L s0 s []) (hb : Before c s0 s file) (hs : getArgPage L argv s file = some s') :
    ExecOk L c s0 s' := by
  rw [getArgPage] at hs
  split_ifs at hs with hargc
  · obtain rfl := Option.some.inj hs
    exact Or.inr ⟨⟨h.child, h.pages⟩, hb.after rfl hb.unforked⟩
  · obtain ⟨r, hr, rfl⟩ := Option.map_eq_some_iff.1 hs
    rcases getZeroedPage_held h.pages hr with ⟨hnone, hheld⟩ | ⟨page, q, hsome, hq, hheld⟩
    · rw [hnone]
      exact Or.inr ⟨⟨h.child, hheld⟩, hb.after rfl hb.unforked⟩
    · rw [hsome]
      exact ⟨⟨q, hq, h.child, hheld⟩, hb.opened, hb.counted, hb.tree⟩

theorem copyArgs_ok (h : ∃ q, L.virtToPage argPage = some q ∧ Alone L s0 s [(q, 0)]) (hb : Before c s0 s file) :
    ExecOk L c s0 (copyArgs filename argv s file argPage) := by
  obtain ⟨q, hq, ha⟩ := h
  rw [copyArgs]
  split_ifs
  · exact Or.inr ⟨⟨q, hq, ha.child, ha.pages⟩, hb.after rfl hb.unforked⟩
  · exact ⟨⟨q, hq, ha.child, ha.pages⟩, hb.opened, hb.counted, hb.tree⟩

/-- kernel_thread: the child has the table, a place in the tree and its pages, or nothing has happened -/
theorem startChild_ok (h0 : Ready L st c s0) (hk : pagingInit img dir pgt limit = some st) {new : ℕ}
    (h : ∃ q, L.virtToPage argPage = some q ∧ Alone L s0 s [(q, 0)]) (hb : Before c s0 s file)
    (hnew : new ∉ s.files.tasks ∧ new ∉ s.tree.tasks ∧ new ∉ s.tree.released)
    (hs : startChild L st.pageDir c s file argPage new = some s') : ExecOk L c s0 s' := by
  obtain ⟨q, hq, ha⟩ := h
  have hnomem : -eNomem < 0 := by decide
  obtain ⟨⟨ret, u⟩, hu, rfl⟩ := Option.map_eq_some_iff.1 hs
  obtain ⟨⟨task, sys⟩, hpage, hu⟩ := Option.bind_eq_some_iff.1 hu
  rcases getFreePage_held ha.pages hpage with ⟨hnone, hheld⟩ | ⟨page, p, hsome, hp, hheld⟩
  · obtain rfl : task = none := hnone
    cases hu
    dsimp only
    rw [if_pos hnomem]
    exact Or.inr ⟨⟨q, hq, ha.child, hheld⟩, hb.after rfl hb.unforked⟩
  obtain rfl : task = some page := hsome
  obtain ⟨⟨pid, tree⟩, hpid, hu⟩ := Option.bind_eq_some_iff.1 hu
  obtain ⟨⟨d, vm⟩, hcopy, hu⟩ := Option.bind_eq_some_iff.1 hu
  have hpid0 : Exit.findUsablePid s0.tree = some (pid, tree) := hb.tree ▸ hpid
  obtain ⟨hun, hforked⟩ := Exit.thread_forked h0.treeOk h0.tree.2 hpid0 (hb.tree ▸ hnew.2.1) (hb.tree ▸ hnew.2.2)
  rcases copy_held hheld (kernel_low hk).1 (kernel_user hk h0.dir) hcopy with ⟨hnone, hheld⟩ | ⟨pageDir, hsome, hown⟩
  · obtain rfl : d = none := hnone
    obtain ⟨sys', hfree, hheld⟩ := freePages_held hheld hp
    obtain ⟨sys'', hfree', hu⟩ := Option.map_eq_some_iff.1 hu
    obtain rfl : sys' = sys'' := Option.some.inj (hfree.symm.trans hfree')
    cases hu
    dsimp only
    rw [if_pos hnomem]
    exact Or.inr ⟨⟨q, hq, ha.child, hheld⟩, hb.after rfl hun⟩
  · obtain rfl : d = some pageDir := hsome
    cases hu
    have hint : intOf pid = pid := if_pos (h0.pids pid tree hpid0)
    obtain ⟨f, hopen⟩ := hb.opened
    dsimp only
    rw [hint, if_neg (by omega), Int.toNat_natCast]
    refine ⟨_, rfl, rfl, hforked, ⟨f, s.files, hopen, (Open.kernelThread_shared hb.counted).1⟩,
      ⟨p, q, _, hp, hq, hown⟩, ?_, hopen.tasks ▸ hnew.1, hb.tree ▸ hnew.2.1⟩
    rw [ha.child.2]
    exact subset_rfl

theorem resume_ok (h0 : Ready L st c s0) {ch : Child} {pid : ℕ} (hearly : ch.phase.early = false)
    (h : Forked L c s0 s ch file argPage pid none) : ExecOk L c s0 (resume c s file argPage pid) := by
  rw [resume]
  split_ifs with hret
  · obtain ⟨hcall, hforked⟩ := h.tree.wait h0.tree.2 h.fresh.2
    dsimp only
    rw [hcall]
    exact ⟨ch, pid, hearly, rfl, h.child, hforked, h.opened, h.pages, h.holders, h.fresh⟩
  · exact Or.inl (Int.natCast_nonneg pid)

/-- **The child is released.** -/
theorem reap_ok (h0 : Ready L st c s0) {ch : Child} {pid : ℕ}
    (h : Forked L c s0 s ch file argPage pid (some (.waitPid ch.task))) (hgone : ch.phase.gone = true) :
    ∃ s', reap L c s file argPage ch.task = some s' ∧ ExecOk L c s0 s' := by
  have hforked := h.tree
  rw [hgone] at hforked
  obtain ⟨tree, hrel, hun⟩ := hforked.release h0.treeOk h0.tree.2.1 h.fresh.2
  obtain ⟨p, q, kernel, hp, hq, hown⟩ := h.pages
  obtain ⟨vm, hdir, hheld⟩ := freePageDir_held hown
  obtain ⟨sys, hfree, hheld⟩ := freePages_held hheld hp
  obtain ⟨f, t, hopen, hsame⟩ := h.opened
  rw [if_pos hgone] at hsame
  have hholders : s.holders.erase ch.task = ∅ := by
    rw [Finset.erase_eq_empty_iff]
    exact Finset.subset_singleton_iff.1 h.holders
  have hreap : reap L c s file argPage ch.task = some { s with
      child := none
      holders := s.holders.erase ch.task
      tree
      vm := ⟨sys, vm.mem⟩
      parent := .releasePage file argPage s.params.ret } := by
    rw [reap, h.child, Option.bind_some, if_pos ⟨rfl, hforked.state⟩, hrel, Option.bind_some, hdir, Option.bind_some, hfree]
    rfl
  exact ⟨_, hreap, Or.inr ⟨⟨q, hq, ⟨rfl, hholders⟩, hheld⟩, ⟨f, t, ch.task, hopen, h.fresh.1, hsame⟩, hun⟩⟩

theorem freeArgPage_ok (h : ∃ q, L.virtToPage argPage = some q ∧ Alone L s0 s [(q, 0)])
    (hafter : After c s0 s file) (ret : ℤ) :
    ∃ sys, freePages L s.vm.sys argPage 0 = some sys ∧
      ExecOk L c s0 { s with vm := ⟨sys, s.vm.mem⟩, parent := .releaseFile file ret } := by
  obtain ⟨q, hq, ha⟩ := h
  obtain ⟨sys, hfree, hheld⟩ := freePages_held ha.pages hq
  exact ⟨sys, hfree, Or.inr ⟨⟨ha.child, hheld⟩, hafter.opened, hafter.tree⟩⟩

theorem closeFile_ok (h0 : Ready L st c s0) (h : Alone L s0 s []) (hafter : After c s0 s file) (ret : ℤ) :
    ExecOk L c s0 { s with files := (Open.sysClose s.files c file).2, parent := .returned ret } := by
  obtain ⟨f, t, n, hopen, hn, hsame⟩ := hafter.opened
  have hlen := (Open.counted_reachable h0.files.1 h0.files.2).1
  exact Or.inr ⟨⟨h.child, h.pages⟩, (Open.close_opened hopen hsame hlen h0.files.2 hn).1, hafter.tree⟩

theorem parentStep_ok (h0 : Ready L st c s0) (hk : pagingInit img dir pgt limit = some st) {o : ParentOp}
    (h : ExecOk L c s0 s) (hl : legal s (.parent o)) (hs : parentStep L st.pageDir filename argv c s o = some s') :
    ExecOk L c s0 s' := by
  unfold parentStep at hs
  split at hs
  · rename_i hp
    rw [ExecOk, hp] at h
    obtain rfl := Option.some.inj hs
    exact openFile_ok h0 h.1 h.2.1 h.2.2 hl
  · rename_i hp
    rw [ExecOk, hp] at h
    exact getArgPage_ok h.1 h.2 hs
  · rename_i hp
    rw [ExecOk, hp] at h
    obtain rfl := Option.some.inj hs
    exact copyArgs_ok h.1 h.2
  · rename_i hp
    rw [ExecOk, hp] at h
    exact startChild_ok h0 hk h.1 h.2 hl hs
  · rename_i hp
    rw [ExecOk, hp] at h
    obtain ⟨ch, hearly, hforked⟩ := h
    obtain rfl := Option.some.inj hs
    exact resume_ok h0 hearly hforked
  · rename_i hp
    rw [ExecOk, hp] at h
    obtain ⟨ch, pid, -, rfl, hforked⟩ := h
    have hgone : ch.phase.gone = true := by
      by_contra hne
      have hstate := hforked.tree.state
      rw [if_neg hne] at hstate
      have hno : ¬ (ch.task = ch.task ∧ (s.tree.task ch.task).state = .zombie) := by
        rw [hstate]
        exact fun hz => nomatch hz.2
      rw [reap, hforked.child, Option.bind_some, if_neg hno] at hs
      cases hs
    obtain ⟨u, hu, hok⟩ := reap_ok h0 hforked hgone
    obtain rfl : u = s' := Option.some.inj (hu.symm.trans hs)
    exact hok
  · rename_i hp
    rw [ExecOk, hp] at h
    obtain ⟨sys, hfree, rfl⟩ := Option.map_eq_some_iff.1 hs
    rcases h with hret | ⟨h, hafter⟩
    · exact Or.inl hret
    · obtain ⟨sys', hfree', hok⟩ := freeArgPage_ok h hafter _
      obtain rfl : sys' = sys := Option.some.inj (hfree'.symm.trans hfree)
      exact hok
  · rename_i hp
    rw [ExecOk, hp] at h
    obtain rfl := Option.some.inj hs
    rcases h with hret | ⟨h, hafter⟩
    · exact Or.inl hret
    · exact closeFile_ok h0 h hafter _
  · cases hs

/-! ## The child -/

section Child

variable {ch : Child} {pid : ℕ} {call : Option Exit.Call} {ret : ℤ} {phase : Phase}

theorem Forked.living (h : Forked L c s0 s ch file argPage pid call) (hgone : ch.phase.gone = false) :
    Exit.Forked s0.tree s.tree c pid ch.task false call := hgone ▸ h.tree

/-- the child goes on with another phase -/
theorem Forked.move (h : Forked L c s0 s ch file argPage pid call) {u : Sys} (hgone : ch.phase.gone = false)
    (htree : Exit.Forked s0.tree u.tree c pid ch.task phase.gone call)
    (hfiles : ∀ t, Open.Shared ch.task t s.files →
      if phase.gone then Open.Same ch.task t u.files else Open.Shared ch.task t u.files)
    (hpages : ∀ kernel others, Owned L s0.vm.mem kernel s.vm ch.pageDir others →
    Owned L s0.vm.mem kernel u.vm ch.pageDir others)
    (hothers : u.others = s.others) (hholders : u.holders ⊆ s.holders) :
    Forked L c s0 (setPhase u ch ret phase) { ch with phase } file argPage pid call := by
  obtain ⟨f, t, hopen, hshared⟩ := h.opened
  rw [hgone, if_neg Bool.false_ne_true] at hshared
  obtain ⟨p, q, kernel, hp, hq, hown⟩ := h.pages
  exact ⟨rfl, htree, ⟨f, t, hopen, hfiles t hshared⟩, ⟨p, q, kernel, hp, hq, hothers ▸ hpages _ _ hown⟩,
    hholders.trans h.holders, h.fresh⟩

/-- only the pages of the directory change, and where the child is -/
theorem Forked.next (h : Forked L c s0 s ch file argPage pid call) (hgone : ch.phase.gone = false) (hphase : phase.gone = false)
    {vm : Vm} (hpages : ∀ kernel others, Owned L s0.vm.mem kernel s.vm ch.pageDir others →
      Owned L s0.vm.mem kernel vm ch.pageDir others) :
    Forked L c s0 (setPhase { s with vm } ch ret phase) { ch with phase } file argPage pid call := by
  refine h.move hgone ?_ (fun t ht => ?_) hpages rfl subset_rfl
  · rw [hphase]
    exact h.living hgone
  · rw [hphase]
    exact ht

/-- what the caller sees of the child behind a step -/
def Moved (L : Layout) (c : ℕ) (s0 s' : Sys) (ch : Child) (file : ℕ) (argPage : Word) (pid : ℕ) (call : Option Exit.Call)
    (early : Bool) : Prop :=
  ∃ phase : Phase, phase.early = early ∧ Forked L c s0 s' { ch with phase } file argPage pid call

theorem load_ok (h : Forked L c s0 s ch file argPage pid call) (hgone : ch.phase.gone = false) {addr : Word}
    (haddr : UserPage addr) (hphase : phase.gone = false) (hearly : phase.early = true)
    (hs : load L s ch addr ret phase = some s') : Moved L c s0 s' ch file argPage pid call true ∧ s'.parent = s.parent := by
  obtain ⟨⟨page, vm⟩, hr, rfl⟩ := Option.map_eq_some_iff.1 hs
  have hpages := fun kernel others (hown : Owned L s0.vm.mem kernel s.vm ch.pageDir others) => load_held hown haddr hr
  cases page with
  | none => exact ⟨⟨.close false, rfl, h.next hgone rfl hpages⟩, rfl⟩
  | some page => exact ⟨⟨phase, hearly, h.next hgone hphase hpages⟩, rfl⟩

theorem program_page {k : ℕ} (h : ¬ k * Exec.pageSize ≥ Exec.pageOffset) :
    UserPage (BitVec.ofNat 32 (k * Exec.pageSize)) := by
  have hoff : pageOffset.toNat = 0xC0000000 := by decide
  have hsize : Exec.pageSize = 4096 := rfl
  have hexec : Exec.pageOffset = 0xC0000000 := rfl
  have hnat : (BitVec.ofNat 32 (k * Exec.pageSize)).toNat = k * Exec.pageSize := by
    rw [BitVec.toNat_ofNat, Nat.mod_eq_of_lt (by omega)]
  refine ⟨?_, ?_⟩
  · rw [hnat]
    exact Nat.dvd_mul_left 4096 k
  · rw [BitVec.lt_def, hnat, hoff]
    omega

theorem loadStep_ok (h : Forked L c s0 s ch file argPage pid call) (hs : loadStep L s ch = some s') :
    ch.phase.early = true ∧ Moved L c s0 s' ch file argPage pid call true ∧ s'.parent = s.parent := by
  unfold loadStep at hs
  split at hs
  · rename_i k hk
    split_ifs at hs with hoff
    exact ⟨by rw [hk]; rfl, load_ok h (by rw [hk]; rfl) (program_page hoff) rfl rfl hs⟩
  · rename_i hk
    exact ⟨by rw [hk]; rfl, load_ok h (by rw [hk]; rfl) (by decide) rfl rfl hs⟩
  · rename_i hk
    exact ⟨by rw [hk]; rfl, load_ok h (by rw [hk]; rfl) (by decide) rfl rfl hs⟩
  · rename_i hk
    exact ⟨by rw [hk]; rfl, load_ok h (by rw [hk]; rfl) (by decide) rfl rfl hs⟩
  · cases hs

theorem readStep_ok (h : Forked L c s0 s ch file argPage pid call) {readCount : ℤ} {magic : Bool}
    (hs : readStep s ch readCount magic = some s') :
    ch.phase.early = true ∧ Moved L c s0 s' ch file argPage pid call true ∧ s'.parent = s.parent := by
  have hpages : ∀ kernel others, Owned L s0.vm.mem kernel s.vm ch.pageDir others →
      Owned L s0.vm.mem kernel s.vm ch.pageDir others := fun _ _ hown => hown
  unfold readStep at hs
  split at hs
  · rename_i k hk
    have hgone : ch.phase.gone = false := by rw [hk]; rfl
    refine ⟨by rw [hk]; rfl, ?_⟩
    split_ifs at hs
    · obtain rfl := Option.some.inj hs
      exact ⟨⟨.close false, rfl, h.next hgone rfl hpages⟩, rfl⟩
    · obtain rfl := Option.some.inj hs
      exact ⟨⟨.loadProgram (k + 1), rfl, h.next hgone rfl hpages⟩, rfl⟩
    · obtain rfl := Option.some.inj hs
      exact ⟨⟨.argvPage, rfl, h.next hgone rfl hpages⟩, rfl⟩
    · obtain rfl := Option.some.inj hs
      exact ⟨⟨.close false, rfl, h.next hgone rfl hpages⟩, rfl⟩
  · cases hs

/-- sys_close in the child -/
theorem close_ok (h : Forked L c s0 s ch file argPage pid call) {ok : Bool} (hk : ch.phase = .close ok) :
    Moved L c s0 (setPhase { s with files := (Open.sysClose s.files ch.task s.params.file).2 } ch ret (.wakeUp ok)) ch
        file argPage
      pid call true := by
  have hgone : ch.phase.gone = false := by rw [hk]; rfl
  exact ⟨.wakeUp ok, rfl, h.move hgone (h.living hgone) (fun t ht => (Open.close_shared ht s.params.file).1)
    (fun _ _ hown => hown) rfl
    subset_rfl⟩

theorem wakeUp_ok (h : Forked L c s0 s ch file argPage pid call) {ok : Bool} (hk : ch.phase = .wakeUp ok) :
    Moved L c s0 (setPhase { s with parent := s.parent.wake } ch ret (.woke ok)) ch file argPage pid call false := by
  have hgone : ch.phase.gone = false := by rw [hk]; rfl
  exact ⟨.woke ok, rfl, h.move hgone (h.living hgone) (fun t ht => ht) (fun _ _ hown => hown) rfl subset_rfl⟩

/-- the kernel stack with the pointer is left -/
theorem userMode_ok (h : Forked L c s0 s ch file argPage pid call) (hk : ch.phase = .woke true) :
    Moved L c s0 (setPhase { s with holders := s.holders.erase ch.task } ch ret .userMode) ch file argPage pid call false := by
  have hgone : ch.phase.gone = false := by rw [hk]; rfl
  exact ⟨.userMode, rfl, h.move hgone (h.living hgone) (fun t ht => ht) (fun _ _ hown => hown) rfl (Finset.erase_subset ..)⟩

/-- **sys_exit in the child** clears its table and makes it a zombie. -/
theorem exit_ok (h : Forked L c s0 s ch file argPage pid call) (h0 : Ready L st c s0) (hk : ch.phase = .woke false)
    {files : Open.Sys} (hfiles : ∀ t, Open.Shared ch.task t s.files → Open.Same ch.task t files) {tree : Exit.Sys}
    (htree : Exit.sysExit s.tree ch.task (-error) = some tree) :
    Moved L c s0 (setPhase { s with tree, files } ch ret .zombie) ch file argPage pid call false := by
  have hgone : ch.phase.gone = false := by rw [hk]; rfl
  obtain ⟨tree', htree', hexit⟩ := (h.living hgone).exit h0.treeOk h0.tree.2.1 h.fresh.2 (-error)
  rw [htree] at htree'
  obtain rfl := Option.some.inj htree'
  exact ⟨.zombie, rfl, h.move hgone hexit hfiles (fun _ _ hown => hown) rfl subset_rfl⟩

theorem childStep_ok (h : Forked L c s0 s ch file argPage pid call) (h0 : Ready L st c s0) {o : ChildOp}
    (hs : childStep L s ch o = some s') :
    (Moved L c s0 s' ch file argPage pid call ch.phase.early ∧ s'.parent = s.parent) ∨
      ch.phase.early = true ∧ Moved L c s0 s' ch file argPage pid call false ∧ s'.parent = s.parent.wake := by
  cases o with
  | load =>
    obtain ⟨hearly, hmoved⟩ := loadStep_ok h hs
    exact Or.inl (hearly ▸ hmoved)
  | read readCount magic =>
    obtain ⟨hearly, hmoved⟩ := readStep_ok h hs
    exact Or.inl (hearly ▸ hmoved)
  | close =>
    unfold childStep at hs
    dsimp only at hs
    split at hs
    · rename_i ok hk
      obtain rfl := Option.some.inj hs
      exact Or.inl ⟨by rw [hk]; exact close_ok h hk, rfl⟩
    · cases hs
  | wakeUp =>
    unfold childStep at hs
    dsimp only at hs
    split at hs
    · rename_i ok hk
      obtain rfl := Option.some.inj hs
      exact Or.inr ⟨by rw [hk]; rfl, wakeUp_ok h hk, rfl⟩
    · cases hs
  | moveToUserMode =>
    unfold childStep at hs
    dsimp only at hs
    split at hs
    · rename_i hk
      obtain rfl := Option.some.inj hs
      exact Or.inl ⟨by rw [hk]; exact userMode_ok h hk, rfl⟩
    · cases hs
  | exit =>
    unfold childStep at hs
    dsimp only at hs
    split at hs
    · rename_i hk
      obtain ⟨tree, htree, rfl⟩ := Option.map_eq_some_iff.1 hs
      exact Or.inl ⟨by rw [hk]; exact exit_ok h h0 hk (fun t ht => (Open.sysExit_same ht).1) htree, rfl⟩
    · cases hs

/-- a step of the child leaves the caller where it is, or wakes it up -/
theorem childStep_parent {o : ChildOp} (hs : childStep L s ch o = some s') :
    s'.parent = s.parent ∨ s'.parent = s.parent.wake := by
  have hload : ∀ {addr ret next}, load L s ch addr ret next = some s' → s'.parent = s.parent := fun hl => by
    obtain ⟨⟨page, vm⟩, -, rfl⟩ := Option.map_eq_some_iff.1 hl
    cases page with
    | none => rfl
    | some page => rfl
  cases o with
  | load =>
    change loadStep L s ch = some s' at hs
    unfold loadStep at hs
    split at hs
    · split_ifs at hs
      exact Or.inl (hload hs)
    · exact Or.inl (hload hs)
    · exact Or.inl (hload hs)
    · exact Or.inl (hload hs)
    · cases hs
  | read readCount magic =>
    change readStep s ch readCount magic = some s' at hs
    unfold readStep at hs
    split at hs
    · split_ifs at hs <;> exact Or.inl (Option.some.inj hs ▸ rfl)
    · cases hs
  | close =>
    unfold childStep at hs
    dsimp only at hs
    split at hs
    · exact Or.inl (Option.some.inj hs ▸ rfl)
    · cases hs
  | wakeUp =>
    unfold childStep at hs
    dsimp only at hs
    split at hs
    · exact Or.inr (Option.some.inj hs ▸ rfl)
    · cases hs
  | moveToUserMode =>
    unfold childStep at hs
    dsimp only at hs
    split at hs
    · exact Or.inl (Option.some.inj hs ▸ rfl)
    · cases hs
  | exit =>
    unfold childStep at hs
    dsimp only at hs
    split at hs
    · obtain ⟨tree, -, rfl⟩ := Option.map_eq_some_iff.1 hs
      exact Or.inl rfl
    · cases hs

end Child

/-- a call without a child makes no step of it -/
theorem Alone.no_child {blocks : List (ℕ × ℕ)} (h : Alone L s0 s blocks) {ch : Child} (hch : s.child = some ch) : False := by
  rw [h.child.1] at hch
  cases hch

theorem child_ok (h0 : Ready L st c s0) (h : ExecOk L c s0 s) {ch : Child} (hch : s.child = some ch) {o : ChildOp}
    (hs : childStep L s ch o = some s') : ExecOk L c s0 s' := by
  have hparent := childStep_parent hs
  have hself : ∀ {ch' : Child} {file argPage pid call}, Forked L c s0 s ch' file argPage pid call → ch' = ch := fun hf =>
    Option.some.inj (hf.child.symm.trans hch)
  cases hp : s.parent with
  | start =>
    rw [ExecOk, hp] at h
    exact (h.1.no_child hch).elim
  | opened file =>
    rw [ExecOk, hp] at h
    exact (h.1.no_child hch).elim
  | zeroed file argPage =>
    rw [ExecOk, hp] at h
    obtain ⟨⟨q, -, ha⟩, -⟩ := h
    exact (ha.no_child hch).elim
  | copied file argPage =>
    rw [ExecOk, hp] at h
    obtain ⟨⟨q, -, ha⟩, -⟩ := h
    exact (ha.no_child hch).elim
  | waiting file argPage pid =>
    rw [ExecOk, hp] at h
    obtain ⟨ch', hearly, hforked⟩ := h
    obtain rfl := hself hforked
    rcases childStep_ok hforked h0 hs with ⟨⟨phase, hphase, hmoved⟩, hsame⟩ | ⟨-, ⟨phase, hphase, hmoved⟩, hwake⟩
    · rw [ExecOk, hsame, hp]
      exact ⟨_, hphase.trans hearly, hmoved⟩
    · rw [ExecOk, hwake, hp]
      exact ⟨_, hphase, hmoved⟩
  | woken file argPage pid =>
    rw [ExecOk, hp] at h
    obtain ⟨ch', hearly, hforked⟩ := h
    obtain rfl := hself hforked
    rcases childStep_ok hforked h0 hs with ⟨⟨phase, hphase, hmoved⟩, hsame⟩ | ⟨hlate, -⟩
    · rw [ExecOk, hsame, hp]
      exact ⟨_, hphase.trans hearly, hmoved⟩
    · rw [hearly] at hlate
      cases hlate
  | waitPid file argPage t =>
    rw [ExecOk, hp] at h
    obtain ⟨ch', pid, hearly, rfl, hforked⟩ := h
    obtain rfl := hself hforked
    rcases childStep_ok hforked h0 hs with ⟨⟨phase, hphase, hmoved⟩, hsame⟩ | ⟨hlate, -⟩
    · rw [ExecOk, hsame, hp]
      exact ⟨{ ch' with phase }, pid, hphase.trans hearly, rfl, hmoved⟩
    · rw [hearly] at hlate
      cases hlate
  -- behind its wait the call has no child, or returns a pid
  | releasePage file argPage ret =>
    rw [ExecOk, hp] at h
    rcases h with hret | ⟨⟨q, -, ha⟩, -⟩
    · rw [hp] at hparent
      rw [ExecOk, hparent.elim id id]
      exact Or.inl hret
    · exact (ha.no_child hch).elim
  | releaseFile file ret =>
    rw [ExecOk, hp] at h
    rcases h with hret | ⟨ha, -⟩
    · rw [hp] at hparent
      rw [ExecOk, hparent.elim id id]
      exact Or.inl hret
    · exact (ha.no_child hch).elim
  | returned ret =>
    rw [ExecOk, hp] at h
    rcases h with hret | ⟨ha, -⟩
    · rw [hp] at hparent
      rw [ExecOk, hparent.elim id id]
      exact Or.inl hret
    · exact (ha.no_child hch).elim

/-! ## The others -/

section Other

variable {o : BuddyRun.Op} (hl : BuddyRun.legal ⟨s.vm.sys.mm, s.others⟩ o) {u sys : BuddyRun.Sys}
  (hu : BuddyRun.step L ⟨s.vm.sys.mm, s.others⟩ o = some u) (hs : BuddyRun.step L s.vm.sys o = some sys)

include hl hu hs in
theorem Alone.other {blocks : List (ℕ × ℕ)} (h : Alone L s0 s blocks) :
    Alone L s0 { s with vm := ⟨sys, s.vm.mem⟩, others := u.live } blocks :=
  ⟨h.child, h.pages.other hl hu hs⟩

include hl hu hs in
theorem Forked.other {ch : Child} {pid : ℕ} {call : Option Exit.Call} (h : Forked L c s0 s ch file argPage pid call) :
    Forked L c s0 { s with vm := ⟨sys, s.vm.mem⟩, others := u.live } ch file argPage pid call := by
  obtain ⟨p, q, kernel, hp, hq, hown⟩ := h.pages
  exact ⟨h.child, h.tree, h.opened, ⟨p, q, kernel, hp, hq, hown.other hl hu hs⟩, h.holders, h.fresh⟩

include hl hu hs in
theorem other_ok (h : ExecOk L c s0 s) : ExecOk L c s0 { s with vm := ⟨sys, s.vm.mem⟩, others := u.live } := by
  generalize ht : ({ s with vm := ⟨sys, s.vm.mem⟩, others := u.live } : Sys) = t
  have hparent : t.parent = s.parent := ht ▸ rfl
  rw [ExecOk] at h
  rw [ExecOk, hparent]
  cases hp : s.parent with
  | start =>
    rw [hp] at h
    subst ht
    exact ⟨h.1.other hl hu hs, h.2⟩
  | opened file =>
    rw [hp] at h
    subst ht
    exact ⟨h.1.other hl hu hs, h.2.opened, h.2.counted, h.2.tree⟩
  | zeroed file argPage =>
    rw [hp] at h
    subst ht
    obtain ⟨⟨q, hq, ha⟩, hb⟩ := h
    exact ⟨⟨q, hq, ha.other hl hu hs⟩, hb.opened, hb.counted, hb.tree⟩
  | copied file argPage =>
    rw [hp] at h
    subst ht
    obtain ⟨⟨q, hq, ha⟩, hb⟩ := h
    exact ⟨⟨q, hq, ha.other hl hu hs⟩, hb.opened, hb.counted, hb.tree⟩
  | waiting file argPage pid =>
    rw [hp] at h
    subst ht
    obtain ⟨ch, hearly, hforked⟩ := h
    exact ⟨ch, hearly, hforked.other hl hu hs⟩
  | woken file argPage pid =>
    rw [hp] at h
    subst ht
    obtain ⟨ch, hearly, hforked⟩ := h
    exact ⟨ch, hearly, hforked.other hl hu hs⟩
  | waitPid file argPage t =>
    rw [hp] at h
    subst ht
    obtain ⟨ch, pid, hearly, ht, hforked⟩ := h
    exact ⟨ch, pid, hearly, ht, hforked.other hl hu hs⟩
  | releasePage file argPage ret =>
    rw [hp] at h
    subst ht
    rcases h with hret | ⟨⟨q, hq, ha⟩, hafter⟩
    · exact Or.inl hret
    · exact Or.inr ⟨⟨q, hq, ha.other hl hu hs⟩, hafter.opened, hafter.tree⟩
  | releaseFile file ret =>
    rw [hp] at h
    subst ht
    rcases h with hret | ⟨ha, hafter⟩
    · exact Or.inl hret
    · exact Or.inr ⟨ha.other hl hu hs, hafter.opened, hafter.tree⟩
  | returned ret =>
    rw [hp] at h
    subst ht
    rcases h with hret | ⟨ha, hafter⟩
    · exact Or.inl hret
    · exact Or.inr ⟨ha.other hl hu hs, hafter⟩

end Other

/-! ## Every run -/

theorem step_ok (h0 : Ready L st c s0) (hk : pagingInit img dir pgt limit = some st) {o : Op} (h : ExecOk L c s0 s)
    (hl : legal s o) (hs : step L st.pageDir filename argv c s o = some s') : ExecOk L c s0 s' := by
  cases o with
  | parent o => exact parentStep_ok h0 hk h hl hs
  | child o =>
    obtain ⟨ch, hch, hs⟩ := Option.bind_eq_some_iff.1 hs
    exact child_ok h0 h hch hs
  | other o =>
    obtain ⟨u, hu, hs⟩ := Option.bind_eq_some_iff.1 hs
    obtain ⟨sys, hsys, rfl⟩ := Option.map_eq_some_iff.1 hs
    exact other_ok hl hu hsys h

theorem reach_ok (h0 : Ready L st c s0) (hk : pagingInit img dir pgt limit = some st)
    (h : (system L st.pageDir filename argv c s0).Reach s) : ExecOk L c s0 s :=
  Lts.Reach.inv (M := system L st.pageDir filename argv c s0) (P := ExecOk L c s0) (fun _ (hs : _ = s0) => hs ▸ h0.start)
    (fun _ _ _ hi hst => step_ok h0 hk hi hst.1 hst.2) h

/-- **A failing sys_exec leaves nothing behind.** In every run, for every filename and argv, with memory or without it at any
allocation: a state in which sys_exec has returned a negative value is clean. -/
theorem exec_clean (hk : pagingInit img dir pgt limit = some st) (h0 : Ready L st c s0)
    (h : (system L st.pageDir filename argv c s0).Reach s) {ret : ℤ} (hret : s.parent = .returned ret) (hneg : ret < 0) :
    Clean L s0 s := by
  have hok := reach_ok h0 hk h
  rw [ExecOk, hret] at hok
  rcases hok with hpos | ⟨ha, hfiles, htree⟩
  · exact absurd hneg (not_lt.2 hpos)
  · refine ⟨hfiles, htree, ha.pages.live, fun hsame p => ?_, ha.child⟩
    have hlive : s.vm.sys.live.Perm s0.vm.sys.live := h0.others ▸ ha.pages.live.trans hsame
    exact free_congr ha.pages.inv (BuddyRun.reach_inv h0.pages) (fun b => hlive.mem_iff) p

/-- **The clean-up goes through.** No BUG_ON fires and no pointer is NULL when the child exits, when the caller releases it, and
when it gives back the argument page. -/
theorem cleanup_returns (hk : pagingInit img dir pgt limit = some st) (h0 : Ready L st c s0)
    (h : (system L st.pageDir filename argv c s0).Reach s) :
    (∀ file argPage t ch, s.parent = .waitPid file argPage t → s.child = some ch → ch.phase = .woke false →
      (step L st.pageDir filename argv c s (.child .exit)).isSome) ∧
    (∀ file argPage t ch, s.parent = .waitPid file argPage t → s.child = some ch → ch.phase = .zombie →
      (step L st.pageDir filename argv c s (.parent .reap)).isSome) ∧
    ∀ file argPage ret, s.parent = .releasePage file argPage ret → ret < 0 →
      (step L st.pageDir filename argv c s (.parent .freeArgPage)).isSome := by
  have hok := reach_ok h0 hk h
  have hwait : ∀ {file argPage t ch}, s.parent = .waitPid file argPage t → s.child = some ch →
      ∃ pid, ch.task = t ∧ Forked L c s0 s ch file argPage pid (some (.waitPid t)) := fun hp hch => by
    rw [ExecOk, hp] at hok
    obtain ⟨ch', pid, -, ht, hforked⟩ := hok
    obtain rfl := Option.some.inj (hforked.child.symm.trans hch)
    exact ⟨pid, ht, hforked⟩
  refine ⟨fun file argPage t ch hp hch hk => ?_, fun file argPage t ch hp hch hk => ?_, fun file argPage ret hp hneg => ?_⟩
  · obtain ⟨pid, -, hforked⟩ := hwait hp hch
    have htree := hforked.tree
    rw [hk] at htree
    obtain ⟨tree, hexit, -⟩ := htree.exit h0.treeOk h0.tree.2.1 hforked.fresh.2 (-error)
    rw [step, hch, Option.bind_some, childStep]
    simp only [hk, hexit, Option.map_some, Option.isSome_some]
  · obtain ⟨pid, rfl, hforked⟩ := hwait hp hch
    obtain ⟨u, hu, -⟩ := reap_ok h0 hforked (by rw [hk]; rfl)
    rw [step]
    unfold parentStep
    simp only [hp, hu, Option.isSome_some]
  · rw [ExecOk, hp] at hok
    obtain ⟨h, hafter⟩ := hok.resolve_left (not_le.2 hneg)
    obtain ⟨sys, hfree, -⟩ := freeArgPage_ok h hafter ret
    rw [step]
    unfold parentStep
    simp only [hp, hfree, Option.map_some, Option.isSome_some]

/-! ## A child without memory -/

/-- init calls sys_exec with no file open, and with three normal pages -/
def calling : Sys where
  parent := .start
  child := none
  params := ⟨0, 0⟩
  holders := ∅
  files := ⟨{1}, fun _ => List.replicate Open.nrOpen none, ∅, fun _ => ⟨0, 0, 0, 0⟩, fun _ => 0⟩
  tree := Exit.boot
  vm := ⟨twoBoot, bootMemory⟩
  others := []

/-- the argument page, the task and the directory take the three pages, and the child finds none for a table -/
def noTable : List Op :=
  [.parent (.openFile ⟨some 0, some 0, true⟩), .parent .getArgPage, .parent .copyArgs, .parent (.startChild 2), .child .load,
    .child .close, .child .wakeUp, .parent .resume, .child .exit, .parent .reap, .parent .freeArgPage, .parent .closeFile]

theorem name_clean : ∀ c ∈ [(0x61 : Byte)], c ≠ 0 := by decide

theorem name_fits : [(0x61 : Byte)].length + 2 * Exec.pageSize < 2 ^ 32 := by decide

def name : CString := ⟨[0x61], name_clean, name_fits⟩

def legalStep (s : Sys) (o : Op) : Option Sys :=
  if legal s o then step two smallImage.kernelPageDir name [] 1 s o else none

theorem noTable_returns : (noTable.foldlM legalStep calling).isSome := by decide +kernel

def cleaned : Sys := (noTable.foldlM legalStep calling).get noTable_returns

theorem calling_ready {st : Paging.State} (hdir : ∀ k < ptrsPerPgd, bootMemory st.pageDir k = st.dir k) :
    Ready two st 1 calling := by
  refine ⟨⟨rfl, rfl, rfl⟩, ⟨.start ⟨⟨1, rfl, rfl⟩, rfl, rfl⟩, by decide⟩, ⟨.start rfl, by decide, rfl, rfl⟩,
    fun pid tree hpid => ?_, reach_two [] rfl, rfl, hdir⟩
  have hfst : (Exit.findUsablePid Exit.boot).map Prod.fst = some 2 := by decide
  have hpid' : Exit.findUsablePid Exit.boot = some (pid, tree) := hpid
  rw [hpid'] at hfst
  cases hfst
  decide

/-- sys_exec returns -ERROR and leaves nothing behind -/
theorem exec_clean_no_table : ∃ st, pagingInit smallImage (fun _ => 0) (fun _ => 0) 0x1003000#64 = some st ∧
    cleaned.parent = .returned (-error) ∧ Clean two calling cleaned := by
  obtain ⟨st, hst, hpage, hdir, -⟩ := boot_dir
  have hret : cleaned.parent = .returned (-error) := by decide +kernel
  have hsteps : ∀ s o s', legalStep s o = some s' →
      (system two st.pageDir name [] 1 calling).step s o s' := fun s o s' hs => by
    rw [legalStep] at hs
    split_ifs at hs with hl
    exact ⟨hl, hpage ▸ hs⟩
  have hreach : (system two st.pageDir name [] 1 calling).Reach cleaned :=
    .fold hsteps (.start rfl) (Option.some_get noTable_returns).symm
  exact ⟨st, hst, hret, exec_clean hst (calling_ready hdir) hreach hret (by decide)⟩

end SinsOs.ExecFailure
