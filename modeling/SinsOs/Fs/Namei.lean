/-
Path lookup: lookup, find_entry, open_namei, sys_chdir, sys_chroot (fs/namei.c), the inode and the mount of the root
(fs/inode.c, fs/super.c), and the references of tasks in kernel_thread and kthread_release (kernel/sched.c).

Any number of tasks walk paths at the same time. A walk is cut at every component, where it sleeps in the lookup of the
file system, and at every mount it crosses. While it sleeps the inode layer may do anything: the inode table that it finds
when it goes on is part of the answer. A component of more than MINIX_NAME_LEN bytes overruns a buffer on the stack of
minix_lookup as soon as an entry is compared with it, and no step follows. A path that is not mapped up to a NUL ends in a
page fault, do_page_fault in die, and die in sys_exit: what lookup holds then is given back by nobody.

- `walkStep_ends`: one step of a walk swaps the references that the walk holds, and leads to iter, below it, or one step up.
-/
import SinsOs.Core.Lts
import SinsOs.Fs.Dentry

namespace SinsOs.Namei

open SinsOs.Core SinsOs.Lib SinsOs.Dcache

/-! ## Model -/

def slash : Byte := 0x2f

def dot : Byte := 0x2e

def minixNameLen : ℕ := 14

/-- who called lookup -/
inductive Goal
  | open_
  | chdir
  | chroot
deriving DecidableEq, Repr

/-- at a component; asleep in the lookup of the file system, with prev_iter and the component; behind the path -/
inductive Phase
  | name
  | disk (prev : ℕ) (comp : List Byte)
  | finish
deriving DecidableEq, Repr

/-- a lookup in progress; `rest` is the string at `begin`, up to its NUL or to a page that is not mapped -/
structure Walk where
  goal : Goal
  root : Option ℕ
  iter : ℕ
  rest : List Byte
  phase : Phase
  nul : Bool
deriving DecidableEq, Repr

structure Task where
  root : Option ℕ
  pwd : Option ℕ
  walk : Option Walk
deriving DecidableEq, Repr

/-- `dead` are the tasks that a page fault has ended in a lookup and that are not released yet, and `lost d` is the number of
references to d that such lookups held -/
structure Sys where
  vfs : Vfs
  tasks : Finset ℕ
  task : ℕ → Task
  dead : Finset ℕ
  lost : ℕ → ℕ

/-- what a walk comes to: it goes on, or lookup returns -/
inductive Outcome
  | going (w : Walk)
  | returned (find : Option ℕ)
deriving DecidableEq, Repr

/-- the dentry found in memory, or the directory to search on the disk -/
inductive Entry
  | cached (entry : ℕ)
  | disk (dir : ℕ)
deriving DecidableEq, Repr

/-- the lookup of the file system: the inodes after its sleep, the inode found, and what kmalloc gives to dget -/
structure Answer where
  inodes : Inodes
  inode : Option ℕ
  mem : Option ℕ

def parentOf (s : Vfs) (iter : ℕ) : Except Bug ℕ :=
  match (s.node iter).parent, (s.node iter).sb with
  | some p, _ => .ok p
  | none, some b => .ok (s.super b).parent
  | none, none => .error .null

/-- the loop over mounts, at most n of them -/
def mountTop : ℕ → Vfs → ℕ → Except Bug ℕ
  | 0, _, _ => .error .loop
  | n + 1, s, iter =>
    match (s.node iter).mount with
    | none => .ok iter
    | some b =>
      match (s.super b).root with
      | none => .error .null
      | some r => mountTop n s r

/-- the loop over the children in find_entry -/
def findCached (s : Vfs) (dir : ℕ) (comp : List Byte) : Option ℕ :=
  (s.node dir).children.find? fun entry => strncmp (cstr (s.node entry).name) (cstr comp) comp.length = 0

/-- find_entry up to the lookup of the file system -/
def findEntry (s : Vfs) (root : ℕ) (comp : List Byte) : Except Bug (Entry × Vfs) := do
  let iter ← mountTop (s.sbs.card + 1) s root
  let s ← dref s iter
  match findCached s iter comp with
  | some entry =>
    let s ← dref s entry
    let s ← dput s iter
    pure (.cached entry, s)
  | none => pure (.disk iter, s)

/-- the end of the lookup of the file system: dget, and the name copied from the directory -/
def lookupDisk (s : Vfs) (parent : ℕ) (comp : List Byte) (a : Answer) : Except Bug (Option ℕ × Vfs) :=
  let s := { s with inodes := a.inodes }
  match a.inode with
  | none => .ok (none, s)
  | some i => do
    let (find, s) ← dget s i (some parent) a.mem
    match find with
    | none =>
      let inodes ← iput s.inodes i
      pure (none, { s with inodes })
    | some d => pure (some d, s.rename d (comp.take minixNameLen))

/-- lookup from iter, which is droot if the task has none -/
def beginsAt (t : Task) (goal : Goal) (rest : List Byte) (nul : Bool) (iter : Option ℕ) : Walk :=
  match goal, iter with
  | .chroot, _ | _, none => ⟨goal, some droot, droot, rest, .name, nul⟩
  | _, some d => ⟨goal, t.root, d, rest, .name, nul⟩

/-- the dentry and the string that lookup begins with -/
def begins (t : Task) (goal : Goal) (path : List Byte) (nul : Bool) : Walk :=
  match path with
  | c :: cs => if c = slash then beginsAt t goal cs nul t.root else beginsAt t goal path nul t.pwd
  | [] => beginsAt t goal [] nul t.pwd

def lookupStart (s : Vfs) (t : Task) (goal : Goal) (path : List Byte) (nul : Bool) : Except Bug (Walk × Vfs) := do
  let w := begins t goal path nul
  let s ← dref s w.iter
  pure (w, s)

/-- on to the component at `tail`, or to the end of lookup -/
def Walk.skip (w : Walk) (tail : List Byte) : Walk :=
  if tail = [] then { w with rest := [], phase := .finish } else { w with rest := tail, phase := .name }

/-- the component at `rest` -/
def nameStep (s : Vfs) (w : Walk) : Except Bug (Outcome × Vfs) :=
  let comp := w.rest.takeWhile (· ≠ slash)
  let tail := w.rest.dropWhile (· ≠ slash)
  if comp = [] then .ok (.going (match tail with
    | [] => w.skip []
    | _ :: begin_ => { w with rest := begin_ }), s)
  else if comp = [dot] then .ok (.going (w.skip tail), s)
  else if comp = [dot, dot] then
    if some w.iter = w.root then .ok (.going (w.skip tail), s)
    else do
      let up ← parentOf s w.iter
      let s ← dref s up
      let s ← dput s w.iter
      pure (.going ({ w with iter := up }.skip tail), s)
  else if (s.inodes.node (s.node w.iter).inode).isDir then do
    let (entry, s) ← findEntry s w.iter comp
    match entry with
    | .cached entry =>
      let s ← dput s w.iter
      pure (.going ({ w with iter := entry }.skip tail), s)
    | .disk dir => pure (.going { w with iter := dir, rest := tail, phase := .disk w.iter comp }, s)
  else do
    let s ← dput s w.iter
    pure (.returned none, s)

/-- the file system answers -/
def diskStep (s : Vfs) (w : Walk) (prev : ℕ) (comp : List Byte) (a : Answer) : Except Bug (Outcome × Vfs) := do
  let (find, s) ← lookupDisk s w.iter comp a
  let s ← dput s w.iter
  let s ← dput s prev
  match find with
  | none => pure (.returned none, s)
  | some d => pure (.going ({ w with iter := d }.skip w.rest), s)

/-- the label finish of lookup -/
def finishStep (s : Vfs) (w : Walk) : Except Bug (Outcome × Vfs) :=
  match (s.node w.iter).mount with
  | none => .ok (.returned (some w.iter), s)
  | some b =>
    match (s.super b).root with
    | none => .error .null
    | some r => do
      let s ← dref s r
      let s ← dput s w.iter
      pure (.going { w with iter := r }, s)

def walkStep (s : Vfs) (w : Walk) (a : Answer) : Except Bug (Outcome × Vfs) :=
  match w.phase with
  | .name => nameStep s w
  | .disk prev comp => diskStep s w prev comp a
  | .finish => finishStep s w

/-- dput of a field of a task, which may be NULL -/
def dputField (s : Vfs) : Option ℕ → Except Bug Vfs
  | none => .error .null
  | some d => dput s d

def drefField (s : Vfs) : Option ℕ → Except Bug Vfs
  | none => .ok s
  | some d => dref s d

/-- open_namei behind its lookup; the reference to the inode goes to the caller -/
def openNamei (s : Vfs) : Option ℕ → Except Bug (ℤ × Option ℕ × Vfs)
  | none => .ok (-error, none, s)
  | some find => do
    let i := (s.node find).inode
    let inodes ← iref s.inodes i
    let s ← dput { s with inodes } find
    pure (success, some i, s)

/-- the loop of sys_chdir: is root met on the way up from iter? -/
def within : ℕ → Vfs → ℕ → ℕ → Except Bug Bool
  | 0, _, _, _ => .error .loop
  | n + 1, s, root, iter =>
    if iter = droot then .ok (iter = root)
    else if iter = root then .ok true
    else do
      let iter ← parentOf s iter
      within n s root iter

/-- sys_chdir behind its lookup -/
def sysChdir (s : Vfs) (t : Task) : Option ℕ → Except Bug (ℤ × Task × Vfs)
  | none => .ok (-error, t, s)
  | some find => do
    let ok ← within (s.dents.card + 1) s (t.root.getD droot) find
    if ok ∧ (s.inodes.node (s.node find).inode).isDir then
      let s ← dputField s t.pwd
      pure (success, { t with pwd := some find }, s)
    else
      let s ← dput s find
      pure (-error, t, s)

/-- dput of a field of a task that is not NULL -/
def dropField (s : Vfs) : Option ℕ → Except Bug Vfs
  | none => .ok s
  | some d => dput s d

/-- sys_chroot behind its lookup -/
def sysChroot (s : Vfs) (t : Task) : Option ℕ → Except Bug (ℤ × Task × Vfs)
  | none => .ok (-error, t, s)
  | some find =>
    if (s.inodes.node (s.node find).inode).isDir then do
      let s ← dropField s t.root
      let s ← dref s find
      let s ← dropField s t.pwd
      pure (success, { t with root := some find, pwd := some find }, s)
    else do
      let s ← dput s find
      pure (-error, t, s)

/-- the caller of lookup goes on with what it returned -/
def finish (s : Vfs) (t : Task) (goal : Goal) (find : Option ℕ) : Except Bug (ℤ × Task × Vfs) :=
  match goal with
  | .open_ => do
    let (ret, _, s) ← openNamei s find
    pure (ret, t, s)
  | .chdir => sysChdir s t find
  | .chroot => sysChroot s t find

namespace Sys

variable (s : Sys)

def setTask (t : ℕ) (x : Task) : Sys := { s with task := Function.update s.task t x }

end Sys

def kernelThread (s : Sys) (t new : ℕ) : Except Bug Sys := do
  let v ← drefField s.vfs (s.task t).pwd
  let v ← drefField v (s.task t).root
  pure ({ s with vfs := v, tasks := insert new s.tasks }.setTask new ⟨(s.task t).root, (s.task t).pwd, none⟩)

/-- the semicolon behind `if (task->root)` lets the dput of a NULL root happen -/
def kthreadRelease (s : Sys) (t : ℕ) : Except Bug Sys := do
  let v ← dputField s.vfs (s.task t).root
  let v ← dropField v (s.task t).pwd
  pure { s with vfs := v, tasks := s.tasks.erase t, dead := s.dead.erase t }

/-- one step of the walk of task t, and the end of the system call if lookup returns -/
def walk (s : Sys) (t : ℕ) (w : Walk) (a : Answer) : Except Bug Sys := do
  let (o, v) ← walkStep s.vfs w a
  match o with
  | .going w => pure ({ s with vfs := v }.setTask t { s.task t with walk := some w })
  | .returned find =>
    let (_, x, v) ← finish v (s.task t) w.goal find
    pure ({ s with vfs := v }.setTask t { x with walk := none })

/-- lookup reads on behind the last byte that is mapped -/
def Walk.Faults (w : Walk) : Prop := w.phase = .name ∧ w.nul = false ∧ w.rest.dropWhile (· ≠ slash) = []

/-- minix_lookup has a component that does not fit in its tmp_name_buf -/
def Walk.Long (w : Walk) : Prop :=
  match w.phase with
  | .disk _ comp => minixNameLen < comp.length
  | .name | .finish => False

instance (w : Walk) : Decidable w.Faults := inferInstanceAs (Decidable (_ ∧ _ ∧ _))

instance (w : Walk) : Decidable w.Long := by
  unfold Walk.Long
  split
  all_goals infer_instance

/-- sys_exit in the middle of a lookup: the task keeps its root and its pwd until kthread_release -/
def fault (s : Sys) (t : ℕ) (w : Walk) : Sys :=
  { s with dead := insert t s.dead, lost := s.lost + one w.iter }.setTask t
    { s.task t with walk := none }

inductive Op
  | start (t : ℕ) (goal : Goal) (path : List Byte) (nul : Bool)
  | walk (t : ℕ) (w : Walk) (a : Answer)
  | kernelThread (t new : ℕ)
  | release (t : ℕ)
  | fault (t : ℕ) (w : Walk)
  | overrun (t : ℕ) (w : Walk)

/-- what a step of a walk meets: kmalloc gives memory that is free; the inode found is of the file system that was asked -/
def Meets (s : Sys) (t : ℕ) (w : Walk) (a : Answer) : Prop :=
  t ∈ s.tasks ∧ (s.task t).walk = some w ∧ (∀ d ∈ a.mem, d ∉ s.vfs.dents) ∧
    ∀ i ∈ a.inode, (a.inodes.node i).sb = (s.vfs.node w.iter).sb

/-- A path has no NUL but the one at its end, and its first byte is mapped. The lookup of a long component finds nothing when no
entry is compared, and else it overruns. -/
def legal (s : Sys) : Op → Prop
  | .start t _ path nul => t ∈ s.tasks ∧ (s.task t).walk = none ∧ (∀ b ∈ path, b ≠ 0) ∧ t ∉ s.dead ∧
    (path = [] → nul = true)
  | .walk t w a => Meets s t w a ∧ ¬ w.Faults ∧ (w.Long → a.inode = none)
  | .kernelThread t new => t ∈ s.tasks ∧ (s.task t).walk = none ∧ new ∉ s.tasks ∧ t ∉ s.dead
  | .release t => t ∈ s.tasks ∧ (s.task t).walk = none
  | .fault t w => t ∈ s.tasks ∧ (s.task t).walk = some w ∧ w.Faults
  | .overrun t w => t ∈ s.tasks ∧ (s.task t).walk = some w ∧ w.Long

def step (s : Sys) : Op → Except Bug Sys
  | .start t goal path nul => do
    let (w, v) ← lookupStart s.vfs (s.task t) goal path nul
    pure ({ s with vfs := v }.setTask t { s.task t with walk := some w })
  | .walk t w a => walk s t w a
  | .kernelThread t new => kernelThread s t new
  | .release t => kthreadRelease s t
  | .fault t w => .ok (fault s t w)
  | .overrun _ _ => .error .overrun

/-! ## The mount of the root -/

/-- the static droot and iroot, and nothing else -/
def boot : Vfs where
  dents := {droot}
  node := Function.update (fun _ => ⟨[], 0, none, none, 0, [], none, 0⟩) droot ⟨[], 0, none, none, 0, [], none, 1⟩
  hash := fun _ => []
  sbs := ∅
  super := fun _ => ⟨0, none⟩
  inodes := ⟨Function.update (fun _ => ⟨0, none, false, 0⟩) iroot ⟨0, none, false, 1⟩, []⟩

def initDroot (s : Vfs) : Except Bug Vfs := do
  let s ← dref s droot
  let inodes ← iref s.inodes iroot
  let s ← dref ({ s with inodes }.setNode droot { s.node droot with inode := iroot, parent := some droot }) droot
  pure { s with inodes := { s.inodes with
    node := Function.update s.inodes.node iroot { s.inodes.node iroot with isDir := true } } }

def allocSuperBlock (s : Vfs) (b de : ℕ) : Except Bug Vfs :=
  if (s.node de).mount ≠ none then .error .mounted
  else do
    let s ← dref s de
    pure { s.setNode de { s.node de with mount := some b } with
      sbs := insert b s.sbs
      super := Function.update s.super b ⟨de, none⟩ }

/-- iget when nobody else runs; `load` is what read_inode gives: whether the inode is a directory -/
def iget (s : Inodes) (sb : Option ℕ) (nr : ℕ) (mem : Option ℕ) (load : Option Bool) : Except Bug (Option ℕ × Inodes) :=
  match s.cached.find? fun i => (s.node i).sb = sb ∧ (s.node i).nr = nr with
  | some i => do
    let s ← iref s i
    pure (some i, s)
  | none =>
    match mem, load with
    | some i, some isDir => .ok (some i, ⟨Function.update s.node i ⟨nr, sb, isDir, 1⟩, i :: s.cached⟩)
    | _, _ => .ok (none, s)

def minixRootInr : ℕ := 1

/-- minix_get_super from its iget on -/
def minixGetSuper (s : Vfs) (b : ℕ) (mem : Option ℕ) (load : Option Bool) (dmem : Option ℕ) : Except Bug (ℤ × Vfs) := do
  let (i, inodes) ← iget s.inodes (some b) minixRootInr mem load
  let s := { s with inodes }
  match i with
  | none => pure (-error, s)
  | some i =>
    let (d, s) ← dget s i none dmem
    let s := { s with super := Function.update s.super b { s.super b with root := d } }
    match d with
    -- dput(sb->root)
    | none => .error .null
    | some _ => pure (success, s)

def doMount (s : Vfs) (b de : ℕ) (mem : Option ℕ) (load : Option Bool) (dmem : Option ℕ) : Except Bug (ℤ × Vfs) := do
  let s ← allocSuperBlock s b de
  minixGetSuper s b mem load dmem

/-- `b`, `mem` and `dmem` are the memory for the super block, the inode and the dentry of the root -/
def mountRoot (s : Vfs) (b : ℕ) (mem : Option ℕ) (load : Option Bool) (dmem : Option ℕ) : Except Bug Vfs := do
  let s ← initDroot s
  let (ret, s) ← doMount s b droot mem load dmem
  if ret ≠ success then .error .panic
  else do
    -- current->root = current->pwd = &droot
    let s ← dref s droot
    dref s droot

/-- task t has mounted the root; the other tasks have no root and no pwd -/
def Mounted (s : Sys) : Prop :=
  ∃ t b mem load dmem, (∀ i ∈ mem, i ≠ iroot) ∧ (∀ d ∈ dmem, d ≠ droot) ∧
  mountRoot boot b mem load dmem = .ok s.vfs ∧
    t ∈ s.tasks ∧ s.task t = ⟨some droot, some droot, none⟩ ∧ (∀ u ≠ t, s.task u = ⟨none, none, none⟩) ∧
    s.dead = ∅ ∧ s.lost = 0

def system : Lts Sys Op where
  start := Mounted
  step := fun s o s' => legal s o ∧ step s o = .ok s'

/-! ## The tree under one mount -/

/-- the one super block b, mounted over droot, with its root r -/
structure OneMount (v : Vfs) (b r : ℕ) : Prop where
  sbs : v.sbs = {b}
  super : v.super b = ⟨droot, some r⟩
  covers : (v.node droot).mount = some b
  root : r ∈ v.dents ∧ r ≠ droot ∧ (v.node r).parent = none
  others : ∀ d ∈ v.dents, d ≠ droot → (v.node d).mount = none ∧ (v.node d).sb = some b

/-- a component of a path that names an entry -/
structure CompOk (comp : List Byte) : Prop where
  ne : comp ≠ []
  clean : ∀ c ∈ comp, c ≠ 0 ∧ c ≠ slash
  dot : comp ≠ [dot]
  dots : comp ≠ [Namei.dot, Namei.dot]

/-- a dentry that is not the root of a file system has a name -/
def Named (x : Dentry) : Prop := x.parent ≠ none → CompOk x.name ∧ x.nameLen = x.name.length

/-- **The invariant of the tree.** The references outside of it are `held`. -/
structure Fine (v : Vfs) (held : ℕ → ℕ) (b r : ℕ) : Prop where
  tree : Tree v held ∅
  mount : OneMount v b r
  names : ∀ x ∈ v.dents, x ≠ droot → Named (v.node x)

/-- the errors that a wrong count of an inode leads to -/
def OfInode (e : Bug) : Prop := e = .iref ∨ e = .iput

/-- one step up, over the root of a mounted file system too -/
def above (v : Vfs) (d : ℕ) : ℕ :=
  match (v.node d).parent, (v.node d).sb with
  | some p, _ => p
  | none, some b => (v.super b).parent
  | none, none => d

variable {v v' v'' : Vfs} {held o : ℕ → ℕ} {b r d i p n : ℕ} {w : Walk} {a : Answer}

theorem owed_some : owed (some d) = one d := by
  funext x
  simp only [owed, one, Option.some.injEq, eq_comm]

theorem owed_none : owed none = 0 := by
  funext x
  rfl

theorem OneMount.shrunk (h : OneMount v b r) (hs : Shrunk v v') (hr : r ∈ v'.dents) : OneMount v' b r := by
  have hmount : ∀ d, (v'.node d).mount = (v.node d).mount := fun d => fixed_mount (hs.fixed d)
  have hsb : ∀ d, (v'.node d).sb = (v.node d).sb := fun d => fixed_sb (hs.fixed d)
  refine ⟨hs.super.1.trans h.sbs, by rw [hs.super.2]; exact h.super, (hmount droot).trans h.covers,
    ⟨hr, h.root.2.1, (fixed_parent (hs.fixed r)).trans h.root.2.2⟩, fun d hd hne => ?_⟩
  rw [hmount, hsb]
  exact h.others d (hs.dents hd) hne

theorem Named.fixed {x y : Dentry} (h : Named x) (hf : y.fixed = x.fixed) : Named y := by
  obtain ⟨h1, h2, h3, -⟩ := fixed_fields hf
  rw [Named, h1, h2, h3]
  exact h

theorem names_shrunk (h : ∀ x ∈ v.dents, x ≠ droot → Named (v.node x)) (hs : Shrunk v v') :
    ∀ x ∈ v'.dents, x ≠ droot → Named (v'.node x) := fun x hx hne => (h x (hs.dents hx) hne).fixed (hs.fixed x)

theorem Fine.live (h : Fine v held b r) (hd : 0 < held d) : d ∈ v.dents := h.tree.live d hd

theorem Fine.dref (h : Fine v held b r) (hd : d ∈ v.dents) :
    Ends (dref v d) OfInode fun v' => Fine v' (held + one d) b r ∧ Shrunk v v' ∧ v'.dents = v.dents ∧
      ∀ x, (v'.node x).children = (v.node x).children := by
  refine (dref_ends h.tree hd).imp (fun _ he => he.elim) fun v' hv' => ?_
  obtain ⟨rfl, htree⟩ := hv'
  exact ⟨⟨htree, h.mount.shrunk .setCount h.mount.root.1, names_shrunk h.names .setCount⟩, .setCount, rfl,
    children_setCount⟩

theorem Fine.dput (h : Fine v (held + one d) b r) (hdroot : 0 < held droot) (hr : 0 < held r) :
    Ends (dput v d) OfInode fun v' => Fine v' held b r ∧ Shrunk v v' :=
  (dput_ends h.tree hdroot).imp (fun _ he => Or.inr he) fun _ hv' =>
    ⟨⟨hv'.1, h.mount.shrunk hv'.2 (hv'.1.live r hr), names_shrunk h.names hv'.2⟩, hv'.2⟩

theorem Fine.sb (h : Fine v held b r) (hd : d ∈ v.dents) (hp : (v.node d).parent = none) : (v.node d).sb = some b := by
  refine (h.mount.others d hd fun he => ?_).2
  rw [he, h.tree.root.2] at hp
  cases hp

theorem Fine.parentOf (h : Fine v held b r) (hd : d ∈ v.dents) : parentOf v d = .ok (above v d) := by
  rw [Namei.parentOf, above]
  cases hp : (v.node d).parent with
  | some p => rfl
  | none =>
    rw [h.sb hd hp]

theorem Fine.above_mem (h : Fine v held b r) (hd : d ∈ v.dents) : above v d ∈ v.dents := by
  have hdroot : droot ∈ v.dents := h.live h.tree.root.1
  rw [above]
  cases hp : (v.node d).parent with
  | some p =>
    by_cases hne : d = droot
    · rw [hne, h.tree.root.2] at hp
      cases hp
      exact hdroot
    · exact (h.tree.parent d hd hne (Finset.notMem_empty d) p hp).1
  | none =>
    rw [h.sb hd hp]
    show (v.super b).parent ∈ v.dents
    rw [h.mount.super]
    exact hdroot

theorem above_congr (hf : (v'.node d).fixed = (v.node d).fixed) (hs : v'.super = v.super) : above v' d = above v d := by
  rw [above, above, fixed_parent hf, fixed_sb hf, hs]

/-- what is over iter: iter itself, or the root of the mounted file system -/
def cover (r d : ℕ) : ℕ := if d = droot then r else d

theorem Fine.cover_mem (h : Fine v held b r) (hd : d ∈ v.dents) : cover r d ∈ v.dents := by
  rw [cover]
  split_ifs
  · exact h.mount.root.1
  · exact hd

theorem Fine.mountTop (h : Fine v held b r) (hd : d ∈ v.dents) : mountTop (v.sbs.card + 1) v d = .ok (cover r d) := by
  have htop : ∀ n x, x ∈ v.dents → x ≠ droot → Namei.mountTop (n + 1) v x = .ok x := fun n x hx hne => by
    rw [Namei.mountTop, (h.mount.others x hx hne).1]
  rw [cover]
  split_ifs with hroot
  · rw [hroot, h.mount.sbs, Finset.card_singleton, Namei.mountTop, h.mount.covers]
    dsimp only
    rw [h.mount.super]
    exact htop 0 r h.mount.root.1 h.mount.root.2.1
  · exact htop _ d hd hroot

theorem Fine.cover_ne (h : Fine v held b r) : cover r d ≠ droot := by
  rw [cover]
  split_ifs with hroot
  · exact h.mount.root.2.1
  · exact hroot

/-! ## One step of a walk -/

/-- the references of a walk besides iter -/
def Phase.refs : Phase → ℕ → ℕ
  | .disk prev _ => one prev
  | .name | .finish => 0

def Walk.refs (w : Walk) : ℕ → ℕ := one w.iter + w.phase.refs

/-- the references that a walk goes on with, or hands to the caller of lookup -/
def Outcome.refs : Outcome → ℕ → ℕ
  | .going w => w.refs
  | .returned find => owed find

def Outcome.iter : Outcome → Option ℕ
  | .going w => some w.iter
  | .returned find => find

/-- it gets smaller with each step of the walk -/
def Walk.measure (w : Walk) : ℕ :=
  match w.phase with
  | .name => 2 * w.rest.length + 4
  | .disk _ _ => 2 * w.rest.length + 5
  | .finish => if w.iter = droot then 2 else 1

/-- x is `top` or below it, in the tree walked upwards -/
def Below (v : Vfs) (top x : ℕ) : Prop := ∃ n, (above v)^[n] x = top

/-- x is iter, or below it, or one step above it if iter is not the root of the walk -/
def Moved (v v' : Vfs) (w : Walk) (x : ℕ) : Prop := Below v' w.iter x ∨ (w.root ≠ some w.iter ∧ x = above v w.iter)

/-- the strings of a walk, and the directory that it asks the file system for -/
structure WalkOk (w : Walk) : Prop where
  rest : ∀ c ∈ w.rest, c ≠ 0
  disk : ∀ prev comp, w.phase = .disk prev comp → w.iter ≠ droot ∧ CompOk comp

/-- what a step of the walk w comes to -/
structure Stepped (v v' : Vfs) (w : Walk) (out : Outcome) : Prop where
  goes : ∀ w', out = .going w' → w'.goal = w.goal ∧ (w'.root = w.root ∧ w'.nul = w.nul) ∧
      w'.measure < w.measure ∧ WalkOk w'
  moved : ∀ x ∈ out.iter, Moved v v' w x

theorem above_shrunk (h : Shrunk v v') (x : ℕ) : above v' x = above v x := above_congr (h.fixed x) h.super.2

theorem skip_refs (w : Walk) (tail : List Byte) : (w.skip tail).refs = one w.iter := by
  rw [Walk.skip]
  split_ifs
  · exact add_zero _
  · exact add_zero _

theorem skip_fields (w : Walk) (tail : List Byte) : (w.skip tail).goal = w.goal ∧
    ((w.skip tail).root = w.root ∧ (w.skip tail).nul = w.nul) ∧ (w.skip tail).iter = w.iter ∧ (w.skip tail).rest = tail ∧
    ∀ prev comp, (w.skip tail).phase ≠ .disk prev comp := by
  rw [Walk.skip]
  split_ifs with h
  · exact ⟨rfl, ⟨rfl, rfl⟩, rfl, h.symm, fun _ _ => nofun⟩
  · exact ⟨rfl, ⟨rfl, rfl⟩, rfl, rfl, fun _ _ => nofun⟩

theorem WalkOk.skip {tail : List Byte} (h : ∀ c ∈ tail, c ≠ 0) (w : Walk) : WalkOk (w.skip tail) := by
  obtain ⟨-, -, -, h4, h5⟩ := skip_fields w tail
  exact ⟨fun c hc => h c (h4 ▸ hc), fun prev comp hp => absurd hp (h5 prev comp)⟩

theorem skip_measure (w : Walk) (tail : List Byte) : (w.skip tail).measure ≤ 2 * tail.length + 4 := by
  rw [Walk.skip]
  split_ifs with h
  · simp only [Walk.measure]
    split_ifs
    · omega
    · omega
  · exact le_rfl

theorem finish_measure (w : Walk) : (w.skip []).measure ≤ 2 := by
  simp only [Walk.skip, Walk.measure, if_true]
  split_ifs
  · exact le_rfl
  · exact Nat.le_succ 1

/-- a step that skips to `tail` with iter x -/
theorem Stepped.skip {x : ℕ} {tail : List Byte} (hm : 2 * tail.length + 4 < w.measure) (hrest : ∀ c ∈ tail, c ≠ 0)
    (hx : Moved v v' w x) : Stepped v v' w (.going ({ w with iter := x }.skip tail)) := by
  obtain ⟨h1, h2, h3, -⟩ := skip_fields { w with iter := x } tail
  refine ⟨fun w' hw' => ?_, fun y hy => ?_⟩
  · cases hw'
    exact ⟨h1, h2, lt_of_le_of_lt (skip_measure _ _) hm, .skip hrest _⟩
  · rw [Outcome.iter, h3] at hy
    cases hy
    exact hx

theorem Moved.refl : Moved v v' w w.iter := Or.inl ⟨0, rfl⟩

/-- the rest behind the component is shorter -/
theorem tail_lt {l : List Byte} (h : l.takeWhile (· ≠ slash) ≠ []) : (l.dropWhile (· ≠ slash)).length < l.length := by
  have hlen := congrArg List.length (List.takeWhile_append_dropWhile (p := (· ≠ slash)) (l := l))
  rw [List.length_append] at hlen
  have := List.length_pos_iff.2 h
  omega

/-- the directory over d is d, or the root of the file system mounted on it -/
theorem Fine.cover_below (h : Fine v held b r) (hs : Shrunk v v') : Below v' d (cover r d) := by
  by_cases hroot : d = droot
  · refine ⟨1, ?_⟩
    show above v' (cover r d) = d
    rw [cover, if_pos hroot, hroot, above_shrunk hs, above, h.mount.root.2.2,
      (h.mount.others r h.mount.root.1 h.mount.root.2.1).2]
    show (v.super b).parent = droot
    rw [h.mount.super]
  · exact ⟨0, if_neg hroot⟩

theorem Fine.child_below (h : Fine v held b r) (hs : Shrunk v v') {entry : ℕ}
    (hp : (v.node entry).parent = some (cover r d)) : Below v' d entry := by
  obtain ⟨n, hn⟩ := h.cover_below (d := d) hs
  have h1 : above v' entry = cover r d := by
    rw [above_shrunk hs, above, hp]
  exact ⟨n + 1, by rw [Function.iterate_succ_apply, h1, hn]⟩

theorem findCached_congr {comp : List Byte} (hc : (v'.node d).children = (v.node d).children)
    (hn : ∀ x, (v'.node x).fixed = (v.node x).fixed) : findCached v' d comp = findCached v d comp := by
  rw [findCached, findCached, hc]
  congr 1
  funext entry
  rw [(fixed_fields (hn entry)).1]

/-- the entry found is a child of the directory -/
theorem Fine.findCached (h : Fine v held b r) (hd : d ∈ v.dents) {entry : ℕ} {comp : List Byte}
    (hf : findCached v d comp = some entry) : entry ∈ v.dents ∧ entry ≠ droot ∧ (v.node entry).parent = some d := by
  obtain ⟨h1, h2, -, h4⟩ := h.tree.child d hd entry (List.mem_of_find?_eq_some hf)
  exact ⟨h1, h2, h4⟩

/-- find_entry takes a reference to the entry found, or to the directory to search -/
theorem findEntry_ends (h : Fine v held b r) (h0 : 0 < held droot) (hr : 0 < held r) (hd : d ∈ v.dents) (comp : List Byte) :
    Ends (findEntry v d comp) OfInode fun res => Shrunk v res.2 ∧ match res.1 with
      | .cached entry => findCached v (cover r d) comp = some entry ∧ Fine res.2 (held + one entry) b r
      | .disk dir => findCached v (cover r d) comp = none ∧ dir = cover r d ∧ Fine res.2 (held + one dir) b r := by
  rw [findEntry, h.mountTop hd]
  refine (h.dref (h.cover_mem hd)).bind fun v1 hv1 => ?_
  obtain ⟨hfine1, hshrunk1, hdents1, hchildren1⟩ := hv1
  rw [findCached_congr (hchildren1 _) hshrunk1.fixed]
  cases hf : Namei.findCached v (cover r d) comp with
  | none => exact ⟨hshrunk1, rfl, rfl, hfine1⟩
  | some entry =>
    have hin : entry ∈ v1.dents := hdents1 ▸ (h.findCached (h.cover_mem hd) hf).1
    refine (hfine1.dref hin).bind fun v2 hv2 => ?_
    obtain ⟨hfine2, hshrunk2, -, -⟩ := hv2
    rw [add_right_comm] at hfine2
    refine (hfine2.dput (Nat.add_pos_left h0 _) (Nat.add_pos_left hr _)).bind fun v3 hv3 => ?_
    exact ⟨(hshrunk1.trans hshrunk2).trans hv3.2, rfl, hv3.1⟩

/-- **A component.** -/
theorem nameStep_ends (h : Fine v (o + w.refs) b r) (h0 : 0 < o droot) (hr : 0 < o r) (hw : WalkOk w)
    (hph : w.phase = .name) :
    Ends (nameStep v w) OfInode fun res => Fine res.2 (o + res.1.refs) b r ∧ Shrunk v res.2 ∧ Stepped v res.2 w res.1 := by
  have hrefs : w.refs = one w.iter := by
    rw [Walk.refs, hph]
    exact add_zero _
  have hmeasure : w.measure = 2 * w.rest.length + 4 := by rw [Walk.measure, hph]
  rw [hrefs] at h
  have hiter : w.iter ∈ v.dents := h.live (by simp [one])
  have hrest : ∀ c ∈ w.rest.dropWhile (· ≠ slash), c ≠ 0 := fun c hc => hw.rest c ((List.dropWhile_sublist _).subset hc)
  have hskip : (w.rest.dropWhile (· ≠ slash)).length < w.rest.length →
      Fine v (o + (Outcome.going (w.skip (w.rest.dropWhile (· ≠ slash)))).refs) b r ∧ Shrunk v v ∧
        Stepped v v w (.going (w.skip (w.rest.dropWhile (· ≠ slash)))) := fun ht => by
    refine ⟨by rw [Outcome.refs, skip_refs]; exact h, .refl v, ?_⟩
    exact Stepped.skip (w := w) (by omega) hrest .refl
  have hend : (Outcome.going (w.skip [])).refs = one w.iter := skip_refs w []
  rw [nameStep]
  by_cases hnil : w.rest.takeWhile (· ≠ slash) = []
  · rw [if_pos hnil]
    cases htail : w.rest.dropWhile (· ≠ slash) with
    | nil =>
      refine ⟨by rw [hend]; exact h, .refl v, fun w' hw' => ?_, fun x hx => ?_⟩
      · cases hw'
        exact ⟨rfl, ⟨rfl, rfl⟩, lt_of_le_of_lt (finish_measure w) (by omega),
          .skip (fun c hc => absurd hc List.not_mem_nil) w⟩
      · cases hx
        exact .refl
    | cons c begin_ =>
      have hlen := (w.rest.dropWhile_sublist (· ≠ slash)).length_le
      rw [htail, List.length_cons] at hlen
      refine ⟨?_, .refl v, fun w' hw' => ?_, fun x hx => ?_⟩
      · show Fine v (o + (one w.iter + w.phase.refs)) b r
        rw [hph]
        exact h
      · cases hw'
        rw [htail] at hrest
        refine ⟨rfl, ⟨rfl, rfl⟩, ?_, fun c hc => hrest c (List.mem_cons_of_mem _ hc),
          fun _ _ hp => Phase.noConfusion (hph.symm.trans hp)⟩
        rw [hmeasure]
        simp only [Walk.measure, hph]
        omega
      · cases hx
        exact .refl
  have htail := tail_lt hnil
  rw [if_neg hnil]
  by_cases hdot : w.rest.takeWhile (· ≠ slash) = [dot]
  · rw [if_pos hdot]
    exact hskip htail
  rw [if_neg hdot]
  by_cases hdots : w.rest.takeWhile (· ≠ slash) = [dot, dot]
  · rw [if_pos hdots]
    by_cases hroot : some w.iter = w.root
    · rw [if_pos hroot]
      exact hskip htail
    rw [if_neg hroot, h.parentOf hiter]
    refine (h.dref (h.above_mem hiter)).bind fun v1 hv1 => ?_
    obtain ⟨hfine1, hshrunk1, -, -⟩ := hv1
    rw [add_right_comm] at hfine1
    refine (hfine1.dput (Nat.add_pos_left h0 _) (Nat.add_pos_left hr _)).bind fun v2 hv2 => ?_
    refine ⟨by rw [Outcome.refs, skip_refs]; exact hv2.1, hshrunk1.trans hv2.2, .skip (by omega) hrest ?_⟩
    exact Or.inr ⟨Ne.symm hroot, rfl⟩
  rw [if_neg hdots]
  by_cases hdir : (v.inodes.node (v.node w.iter).inode).isDir
  · rw [if_pos hdir]
    refine (findEntry_ends h (Nat.add_pos_left h0 _) (Nat.add_pos_left hr _) hiter _).bind fun res hres => ?_
    obtain ⟨entry, v1⟩ := res
    obtain ⟨hshrunk1, hres⟩ := hres
    cases entry with
    | cached entry =>
      obtain ⟨hf, hfine1⟩ := hres
      rw [add_right_comm] at hfine1
      refine (hfine1.dput (Nat.add_pos_left h0 _) (Nat.add_pos_left hr _)).bind fun v2 hv2 => ?_
      have hshrunk := hshrunk1.trans hv2.2
      refine ⟨by rw [Outcome.refs, skip_refs]; exact hv2.1, hshrunk, .skip (by omega) hrest ?_⟩
      exact Or.inl (h.child_below hshrunk (h.findCached (h.cover_mem hiter) hf).2.2)
    | disk dir =>
      obtain ⟨-, rfl, hfine1⟩ := hres
      refine ⟨?_, hshrunk1, fun w' hw' => ?_, fun x hx => ?_⟩
      · show Fine v1 (o + (one (cover r w.iter) + one w.iter)) b r
        rw [add_comm (one _), ← add_assoc]
        exact hfine1
      · cases hw'
        refine ⟨rfl, ⟨rfl, rfl⟩, ?_, hrest, fun prev comp hp => ⟨h.cover_ne, ?_⟩⟩
        · rw [hmeasure]
          simp only [Walk.measure]
          omega
        · cases hp
          refine ⟨hnil, fun c hc => ⟨hw.rest c ((List.takeWhile_sublist _).subset hc), ?_⟩, hdot, hdots⟩
          simpa using List.all_eq_true.1 List.all_takeWhile c hc
      · cases hx
        exact Or.inl (h.cover_below hshrunk1)
  · rw [if_neg hdir]
    refine (h.dput h0 hr).bind fun v1 hv1 => ?_
    refine ⟨?_, hv1.2, fun w' hw' => (by cases hw'), fun x hx => (by cases hx)⟩
    rw [Outcome.refs, owed_none, add_zero]
    exact hv1.1

/-- **Behind the path.** -/
theorem finishStep_ends (h : Fine v (o + w.refs) b r) (h0 : 0 < o droot) (hr : 0 < o r) (hw : WalkOk w)
    (hph : w.phase = .finish) :
    Ends (finishStep v w) OfInode fun res => Fine res.2 (o + res.1.refs) b r ∧ Shrunk v res.2 ∧ Stepped v res.2 w res.1 := by
  have hrefs : w.refs = one w.iter := by
    rw [Walk.refs, hph]
    exact add_zero _
  rw [hrefs] at h
  have hiter : w.iter ∈ v.dents := h.live (by simp [one])
  rw [finishStep]
  by_cases hroot : w.iter = droot
  · have hmount : (v.node w.iter).mount = some b := hroot ▸ h.mount.covers
    rw [hmount]
    dsimp only
    rw [h.mount.super]
    refine (h.dref h.mount.root.1).bind fun v1 hv1 => ?_
    obtain ⟨hfine1, hshrunk1, -, -⟩ := hv1
    rw [add_right_comm] at hfine1
    refine (hfine1.dput (Nat.add_pos_left h0 _) (Nat.add_pos_left hr _)).bind fun v2 hv2 => ?_
    have hshrunk := hshrunk1.trans hv2.2
    refine ⟨?_, hshrunk, fun w' hw' => ?_, fun x hx => ?_⟩
    · show Fine v2 (o + (one r + w.phase.refs)) b r
      rw [hph]
      exact hv2.1
    · cases hw'
      refine ⟨rfl, ⟨rfl, rfl⟩, ?_, hw.rest, fun _ _ hp => Phase.noConfusion (hph.symm.trans hp)⟩
      simp only [Walk.measure, hph, hroot, if_true, if_neg h.mount.root.2.1]
      exact Nat.lt_succ_self 1
    · cases hx
      have hbelow := h.cover_below (d := droot) hshrunk
      rw [cover, if_pos rfl] at hbelow
      exact Or.inl (hroot ▸ hbelow)
  · rw [(h.mount.others w.iter hiter hroot).1]
    refine ⟨?_, .refl v, fun w' hw' => (by cases hw'), fun x hx => ?_⟩
    · rw [Outcome.refs, owed_some]
      exact h
    · cases hx
      exact .refl

theorem Fine.inodes (h : Fine v held b r) (I : Inodes) : Fine { v with inodes := I } held b r :=
  ⟨h.tree.inodes I, ⟨h.mount.sbs, h.mount.super, h.mount.covers, h.mount.root, h.mount.others⟩, h.names⟩

theorem OneMount.rename (h : OneMount v b r) (name : List Byte) : OneMount (v.rename d name) b r := by
  have hmount : ∀ x, ((v.rename d name).node x).mount = (v.node x).mount := fun x => (rename_fields _ _ _ x).2.2.2.2.1
  refine ⟨h.sbs, h.super, (hmount droot).trans h.covers,
    ⟨h.root.1, h.root.2.1, (rename_fields _ _ _ r).1.trans h.root.2.2⟩, fun x hx hne => ?_⟩
  rw [hmount, (rename_fields _ _ _ x).2.1]
  exact h.others x hx hne

theorem OneMount.grown (h : OneMount v b r) {parent : Option ℕ} (hg : Grown v v' d i parent) (h0 : droot ∈ v.dents)
    (hsb : (v.inodes.node i).sb = some b) : OneMount v' b r := by
  refine ⟨hg.super.1.trans h.sbs, by rw [hg.super.2]; exact h.super, (fixed_mount (hg.fixed droot h0)).trans h.covers,
    ⟨?_, h.root.2.1, (fixed_parent (hg.fixed r h.root.1)).trans h.root.2.2⟩, fun x hx hne => ?_⟩
  · rw [hg.dents]
    exact Finset.mem_insert_of_mem h.root.1
  · by_cases hin : x ∈ v.dents
    · rw [fixed_mount (hg.fixed x hin), fixed_sb (hg.fixed x hin)]
      exact h.others x hin hne
    · rw [hg.dents] at hx
      obtain rfl := (Finset.mem_insert.1 hx).resolve_right hin
      rw [hg.new hin]
      exact ⟨rfl, hsb⟩

/-- the first bytes of a component -/
theorem CompOk.take {comp : List Byte} (h : CompOk comp) : CompOk (comp.take minixNameLen) := by
  have hshort : comp.length ≤ minixNameLen → comp.take minixNameLen = comp := List.take_of_length_le
  have hlong : minixNameLen < comp.length → (comp.take minixNameLen).length = minixNameLen := fun hl => by
    rw [List.length_take, min_eq_left hl.le]
  by_cases hl : comp.length ≤ minixNameLen
  · rw [hshort hl]
    exact h
  · have hlen := hlong (not_le.1 hl)
    refine ⟨fun he => ?_, fun c hc => h.clean c (List.mem_of_mem_take hc), fun he => ?_, fun he => ?_⟩
    · rw [he] at hlen
      exact absurd hlen (by decide)
    · rw [he] at hlen
      exact absurd hlen (by decide)
    · rw [he] at hlen
      exact absurd hlen (by decide)

/-- the dentry that is found gets its name -/
theorem names_grown {parent : Option ℕ} {comp : List Byte} (hg : Grown v v' d i parent)
    (h : ∀ x ∈ v.dents, x ≠ droot → Named (v.node x)) (hcomp : CompOk comp) :
    ∀ x ∈ (v'.rename d (comp.take minixNameLen)).dents, x ≠ droot →
      Named ((v'.rename d (comp.take minixNameLen)).node x) := by
  intro x hx hne
  by_cases hxd : x = d
  · rw [hxd, Vfs.rename, Vfs.setNode_self]
    exact fun _ => ⟨hcomp.take, rfl⟩
  · rw [Vfs.rename, Vfs.setNode_of_ne hxd]
    have hin : x ∈ v.dents := by
      have hx' : x ∈ v'.dents := hx
      rw [hg.dents] at hx'
      exact (Finset.mem_insert.1 hx').resolve_left hxd
    exact (h x hin hne).fixed (hg.fixed x hin)

/-- what lookupDisk leaves: the inodes have changed, and perhaps there is a dentry more, and it has got its name -/
def Asked (v : Vfs) (dir : ℕ) (comp : List Byte) (a : Answer) (held : ℕ → ℕ) (b r : ℕ) (v' : Vfs) : Option ℕ → Prop
  | none => Fine v' held b r ∧ ∃ I, v' = { v with inodes := I } ∧
      (a.inode = none ∧ I = a.inodes ∨ ∃ i, a.inode = some i ∧ iput a.inodes i = .ok I)
  | some d => Fine v' (held + one d) b r ∧ d ≠ droot ∧ ∃ i v1, a.inode = some i ∧
      Grown { v with inodes := a.inodes } v1 d i (some dir) ∧ v' = v1.rename d (comp.take minixNameLen)

theorem lookupDisk_ends (h : Fine v held b r) (h0 : 0 < held droot) {dir : ℕ} (hdir : dir ∈ v.dents) (hne : dir ≠ droot)
    (hmem : ∀ d ∈ a.mem, d ∉ v.dents) (hsb : ∀ i ∈ a.inode, (a.inodes.node i).sb = (v.node dir).sb) {comp : List Byte}
    (hcomp : CompOk comp) : Ends (lookupDisk v dir comp a) OfInode fun res => Asked v dir comp a held b r res.2 res.1 := by
  have hfine := h.inodes a.inodes
  rw [lookupDisk]
  cases hi : a.inode with
  | none => exact ⟨hfine, _, rfl, Or.inl ⟨hi, rfl⟩⟩
  | some i =>
    have hsbi : (a.inodes.node i).sb = some b := (hsb i hi).trans (h.mount.others dir hdir hne).2
    have hget := dget_ends i (some dir) a.mem hfine.tree h0 hmem
      (fun p hp => by cases hp; exact hdir) (by show (a.inodes.node i).sb ≠ none; rw [hsbi]; exact nofun)
    refine (hget.imp (fun _ he => Or.inl he) fun _ hr => hr).bind fun res hres => ?_
    obtain ⟨find, v1⟩ := res
    cases find with
    | none =>
      cases hres
      refine ((iput_ends _ i).with_value.imp (fun _ he => Or.inr he) fun _ hI => hI).bind fun I hI => ?_
      exact ⟨h.inodes I, I, rfl, Or.inr ⟨i, hi, hI.2⟩⟩
    | some d =>
      obtain ⟨hned, htree, hgrown⟩ := hres
      have hmount := hfine.mount.grown hgrown (hfine.live h0) hsbi
      exact ⟨⟨htree.rename, hmount.rename _, names_grown hgrown hfine.names hcomp⟩, hned, i, v1, hi, hgrown, rfl⟩

/-- **The file system answers.** -/
theorem diskStep_ends {prev : ℕ} {comp : List Byte} (h : Fine v (o + w.refs) b r) (h0 : 0 < o droot) (hr : 0 < o r)
    (hw : WalkOk w) (hph : w.phase = .disk prev comp) (hmem : ∀ d ∈ a.mem, d ∉ v.dents)
    (hsb : ∀ i ∈ a.inode, (a.inodes.node i).sb = (v.node w.iter).sb) :
    Ends (diskStep v w prev comp a) OfInode fun res => Fine res.2 (o + res.1.refs) b r ∧ Stepped v res.2 w res.1 ∧
      ∃ find v1, Asked v w.iter comp a (o + w.refs) b r v1 find ∧ Shrunk v1 res.2 ∧ res.1 = match find with
        | none => .returned none
        | some d => .going ({ w with iter := d }.skip w.rest) := by
  have hrefs : w.refs = one w.iter + one prev := by rw [Walk.refs, hph]; rfl
  have hmeasure : w.measure = 2 * w.rest.length + 5 := by rw [Walk.measure, hph]
  have hiter : w.iter ∈ v.dents := h.live (by simp [hrefs, one])
  obtain ⟨hne, hcomp⟩ := hw.disk prev comp hph
  rw [diskStep]
  refine (lookupDisk_ends h (Nat.add_pos_left h0 _) hiter hne hmem hsb hcomp).bind fun res hres => ?_
  obtain ⟨find, v1⟩ := res
  change Asked v w.iter comp a (o + w.refs) b r v1 find at hres
  -- what is held besides iter and prev
  obtain ⟨x, hx, hfine⟩ : ∃ x, x = o + owed find ∧ Fine v1 (x + one prev + one w.iter) b r := by
    refine ⟨_, rfl, ?_⟩
    have hsum : o + owed find + one prev + one w.iter = o + w.refs + owed find := by rw [hrefs]; abel
    rw [hsum]
    cases find with
    | none =>
      rw [owed_none, add_zero]
      exact hres.1
    | some d =>
      rw [owed_some]
      exact hres.1
  have hx0 : 0 < x droot := by rw [hx]; exact Nat.add_pos_left h0 _
  have hxr : 0 < x r := by rw [hx]; exact Nat.add_pos_left hr _
  refine (hfine.dput (Nat.add_pos_left hx0 _) (Nat.add_pos_left hxr _)).bind fun v2 hv2 => ?_
  refine (hv2.1.dput hx0 hxr).bind fun v3 hv3 => ?_
  have hshrunk := hv2.2.trans hv3.2
  have hfine3 := hv3.1
  rw [hx] at hfine3
  cases find with
  | none => exact ⟨hfine3, ⟨fun w' hw' => (by cases hw'), fun y hy => (by cases hy)⟩, none, v1, hres, hshrunk, rfl⟩
  | some d =>
    have hasked := hres
    obtain ⟨-, -, i, v0, hi, hgrown, hv1⟩ := hres
    have habove : above v3 d = w.iter := by
      have hp : (v1.node d).parent = some w.iter := by
        rw [hv1, (rename_fields _ _ _ d).1]
        exact congrArg Prod.snd hgrown.found
      rw [above_shrunk hshrunk, above, hp]
    refine ⟨?_, .skip (by omega) hw.rest (Or.inl ⟨1, habove⟩), some d, v1, hasked, hshrunk, rfl⟩
    show Fine v3 (o + ({ w with iter := d }.skip w.rest).refs) b r
    rw [skip_refs, ← owed_some]
    exact hfine3

/-- the dentries that stay have their parents, their super blocks and their inodes -/
structure Kept (v v' : Vfs) : Prop where
  super : v'.super = v.super
  same : ∀ x ∈ v.dents, x ∈ v'.dents → (v'.node x).parent = (v.node x).parent ∧ (v'.node x).sb = (v.node x).sb ∧
    (v'.node x).inode = (v.node x).inode

theorem Kept.of_shrunk (h : Shrunk v v') : Kept v v' :=
  ⟨h.super.2, fun x _ _ => ⟨fixed_parent (h.fixed x), fixed_sb (h.fixed x), fixed_inode (h.fixed x)⟩⟩

theorem Kept.trans (h : Kept v v') (h' : Kept v' v'') (hsub : v''.dents ⊆ v'.dents) : Kept v v'' := by
  refine ⟨h'.super.trans h.super, fun x hx hx' => ?_⟩
  obtain ⟨h1, h2, h3⟩ := h.same x hx (hsub hx')
  obtain ⟨h4, h5, h6⟩ := h'.same x (hsub hx') hx'
  exact ⟨h4.trans h1, h5.trans h2, h6.trans h3⟩

theorem Kept.shrunk (h : Kept v v') (hs : Shrunk v' v'') : Kept v v'' := h.trans (.of_shrunk hs) hs.dents

theorem Kept.asked {dir : ℕ} {comp : List Byte} {find : Option ℕ} (h : Asked v dir comp a held b r v' find) : Kept v v' := by
  cases find with
  | none =>
    obtain ⟨-, I, rfl, -⟩ := h
    exact ⟨rfl, fun _ _ _ => ⟨rfl, rfl, rfl⟩⟩
  | some d =>
    obtain ⟨-, -, i, v1, -, hg, rfl⟩ := h
    refine ⟨hg.super.2, fun x hx _ => ?_⟩
    obtain ⟨h1, h2, h3, -⟩ := rename_fields v1 d (comp.take minixNameLen) x
    have hf := hg.fixed x hx
    exact ⟨h1.trans (fixed_parent hf), h2.trans (fixed_sb hf), h3.trans (fixed_inode hf)⟩

/-- **One step of a walk.** It swaps the references that the walk holds, and fails only on the count of an inode. -/
theorem walkStep_ends (h : Fine v (o + w.refs) b r) (h0 : 0 < o droot) (hr : 0 < o r)
    (hw : WalkOk w) (hmem : ∀ d ∈ a.mem, d ∉ v.dents)
    (hsb : ∀ i ∈ a.inode, (a.inodes.node i).sb = (v.node w.iter).sb) :
    Ends (walkStep v w a) OfInode fun res => Fine res.2 (o + res.1.refs) b r ∧ Kept v res.2 ∧ Stepped v res.2 w res.1 := by
  rw [walkStep]
  cases hph : w.phase with
  | name => exact (nameStep_ends h h0 hr hw hph).imp (fun _ he => he) fun _ ⟨h1, h2, h3⟩ => ⟨h1, .of_shrunk h2, h3⟩
  | finish => exact (finishStep_ends h h0 hr hw hph).imp (fun _ he => he) fun _ ⟨h1, h2, h3⟩ => ⟨h1, .of_shrunk h2, h3⟩
  | disk prev comp =>
    exact (diskStep_ends h h0 hr hw hph hmem hsb).imp (fun _ he => he)
      fun _ ⟨h1, h2, find, v1, h3, h4, _⟩ => ⟨h1, (Kept.asked h3).shrunk h4, h2⟩

end SinsOs.Namei
