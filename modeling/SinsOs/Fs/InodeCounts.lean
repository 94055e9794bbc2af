/-
The counts of inodes over whole runs on the mounted root: path lookups, opens and closes, kernel threads and releases, one
call after the other (iget, iput in fs/inode.c, minix_lookup in fs/minix/inode.c, sys_open, sys_close in fs/open.c).

minix_lookup has a reference from iget, and dget takes one for the dentry. The first one is given back if dget fails, and
kept if it does not; minix_get_super does the same with the root. The paths end with a NUL, and the lookup of a long
component gets an answer like any other (what it does to the stack is in Fs/LongNames).

- `counts_never`: in every reachable state every inode of the cache has more references than dentries and open files, and no
  inode leaves the cache.
- `forgotten_stays`: a sys_open that fails leaves an inode in the cache that nothing points to.
-/
import SinsOs.Fs.NameiRun
import SinsOs.Fs.Open

namespace SinsOs.InodeCounts

open SinsOs.Core SinsOs.Lib SinsOs.Dcache

/-! ## Model -/

/-- the dentries and inodes with the fields of tasks, and the descriptors with the struct files -/
structure State where
  names : Namei.Sys
  files : Open.Sys

/-- what minix_lookup meets: the number in the entry that it finds, memory for the inode, what read_inode gives (is it a
directory?), and memory for the dentry -/
structure Disk where
  nr : Option ℕ
  inode : Option ℕ
  load : Option Bool
  dentry : Option ℕ

/-- the disk, and what sys_open meets behind its lookup: memory for the struct file, and whether fops->open succeeds -/
structure Env where
  disk : Disk
  flags : ℕ
  memory : Option ℕ
  ok : Bool

/-- the lookup of the file system when nobody else runs, up to its iget -/
def answer (v : Vfs) (w : Namei.Walk) (d : Disk) : Except Bug Namei.Answer :=
  match w.phase, d.nr with
  | .disk _ _, some nr => do
    let (i, inodes) ← Namei.iget v.inodes (v.inodes.node (v.node w.iter).inode).sb nr d.inode d.load
    pure ⟨inodes, i, d.dentry⟩
  | _, _ => .ok ⟨v.inodes, none, d.dentry⟩

/-- sys_open behind its lookup -/
def sysOpen (v : Vfs) (files : Open.Sys) (t : ℕ) (e : Env) (find : Option ℕ) : Except Bug (ℤ × Vfs × Open.Sys) := do
  let (ret, i, v) ← Namei.openNamei v find
  match i with
  | none => pure (ret, v, files)
  | some i =>
    let (ret, files) := Open.sysOpen files t e.flags ⟨some i, e.memory, e.ok⟩
    -- error_release_inode
    if ret < 0 then do
      let inodes ← iput v.inodes i
      pure (ret, { v with inodes }, files)
    else pure (ret, v, files)

/-- one step of the walk of task t, and the end of the system call if lookup returns -/
def walk (s : State) (t : ℕ) (w : Namei.Walk) (e : Env) : Except Bug State := do
  let a ← answer s.names.vfs w e.disk
  let (o, v) ← Namei.walkStep s.names.vfs w a
  match o with
  | .going w => pure { s with names := { s.names with vfs := v }.setTask t { s.names.task t with walk := some w } }
  | .returned find =>
    match w.goal with
    | .open_ =>
      let (_, v, files) ← sysOpen v s.files t e find
      pure ⟨{ s.names with vfs := v }.setTask t { s.names.task t with walk := none }, files⟩
    | goal =>
      let (_, x, v) ← Namei.finish v (s.names.task t) goal find
      pure { s with names := { s.names with vfs := v }.setTask t { x with walk := none } }

def sysClose (s : State) (t fd : ℕ) : Except Bug State :=
  let files := (Open.sysClose s.files t fd).2
  if Open.nrOpen ≤ fd then .ok s
  else match s.files.slot t fd with
    | none => .ok s
    | some f =>
      if (files.file f).refCount = 0 then do
        let inodes ← iput s.names.vfs.inodes (s.files.file f).inode
        pure ⟨{ s.names with vfs := { s.names.vfs with inodes } }, files⟩
      else pure { s with files }

def kernelThread (s : State) (t new : ℕ) : Except Bug State := do
  let names ← Namei.kernelThread s.names t new
  pure ⟨names, Open.kernelThread s.files t (some new)⟩

def release (s : State) (t : ℕ) : Except Bug State := do
  let names ← Namei.kthreadRelease s.names t
  pure ⟨names, { s.files with tasks := s.files.tasks.erase t }⟩

inductive Op
  | start (t : ℕ) (goal : Namei.Goal) (path : List Byte)
  | walk (t : ℕ) (w : Namei.Walk) (e : Env)
  | close (t fd : ℕ)
  | kernelThread (t new : ℕ)
  | release (t : ℕ)

/-- no call is in progress -/
def State.Idle (s : State) : Prop := ∀ t ∈ s.names.tasks, (s.names.task t).walk = none

/-- A call begins when no other is in progress, and sys_open when it has found a free descriptor. kmalloc and get_free_page
give memory that is not in use. A task that is released has closed its descriptors. -/
def legal (s : State) : Op → Prop
  | .start t goal path => t ∈ s.names.tasks ∧ s.Idle ∧ (∀ b ∈ path, b ≠ 0) ∧
    (goal = .open_ → Open.getUnusedFd (s.files.fdt t) ≠ none)
  | .walk t w e => t ∈ s.names.tasks ∧ (s.names.task t).walk = some w ∧
    (∀ d ∈ e.disk.dentry, d ∉ s.names.vfs.dents) ∧
    (∀ i ∈ e.disk.inode, i ∉ s.names.vfs.inodes.cached ∧ i ≠ iroot) ∧ ∀ f ∈ e.memory, f ∉ s.files.alloc
  | .close t _ => t ∈ s.names.tasks ∧ s.Idle
  | .kernelThread t new => t ∈ s.names.tasks ∧ s.Idle ∧ new ∉ s.names.tasks
  | .release t => t ∈ s.names.tasks ∧ s.Idle ∧ s.files.fdt t = List.replicate Open.nrOpen none

def step (s : State) : Op → Except Bug State
  | .start t goal path => do
    let names ← Namei.step s.names (.start t goal path true)
    pure { s with names }
  | .walk t w e => walk s t w e
  | .close t fd => sysClose s t fd
  | .kernelThread t new => InodeCounts.kernelThread s t new
  | .release t => InodeCounts.release s t

/-- the root is mounted, and no file is open -/
def Mounted (s : State) : Prop :=
  Namei.Mounted s.names ∧ s.files.tasks = s.names.tasks ∧
    (∀ t ∈ s.files.tasks, s.files.fdt t = List.replicate Open.nrOpen none) ∧ s.files.alloc = ∅ ∧
    s.files.iref = fun _ => 0

def system : Lts State Op where
  start := Mounted
  step := fun s o s' => legal s o ∧ step s o = .ok s'

/-- the open struct files on inode i -/
def uses (files : Open.Sys) (i : ℕ) : ℕ := (files.openOn i).card

/-- every cached inode is counted by its dentries and its open files -/
def State.Exact (s : State) : Prop :=
  ∀ i ∈ s.names.vfs.inodes.cached, (s.names.vfs.inodes.node i).refCount = s.names.vfs.onInode i + uses s.files i

/-! ## The surplus -/

/-- **The invariant.** Every cached inode has a reference that neither a dentry nor one of the `c i` users accounts for. -/
structure Surplus (v : Vfs) (c : ℕ → ℕ) (b : ℕ) : Prop where
  sb : ∀ i ∈ v.inodes.cached, (v.inodes.node i).sb = some b
  root : iroot ∉ v.inodes.cached ∧ (v.node droot).inode = iroot
  dents : ∀ d ∈ v.dents, d ≠ droot → (v.node d).inode ∈ v.inodes.cached
  users : ∀ i, 0 < c i → i = iroot ∨ i ∈ v.inodes.cached
  more : ∀ i ∈ v.inodes.cached, v.onInode i + c i < (v.inodes.node i).refCount

variable {v v' : Vfs} {c c' : ℕ → ℕ} {b r i d n : ℕ} {I : Inodes}

/-- v' has the surplus too, and every inode that v has in its cache -/
structure Leaks (v v' : Vfs) (c' : ℕ → ℕ) (b : ℕ) : Prop where
  surplus : Surplus v' c' b
  stays : v.inodes.cached ⊆ v'.inodes.cached

theorem Surplus.leaks (h : Surplus v c b) : Leaks v v c b := ⟨h, List.Subset.refl _⟩

theorem Leaks.trans {v'' : Vfs} (h : Leaks v v' c b) (h' : Leaks v' v'' c' b) : Leaks v v'' c' b :=
  ⟨h'.surplus, fun _ hi => h'.stays (h.stays hi)⟩

theorem onInode_congr (hdents : v'.dents = v.dents) (hnode : ∀ x, (v'.node x).inode = (v.node x).inode) (i : ℕ) :
    v'.onInode i = v.onInode i := by
  rw [Vfs.onInode, Vfs.onInode, hdents]
  exact congrArg _ (Finset.filter_congr fun x _ => by rw [hnode])

/-- only the inodes of the cache count -/
theorem Surplus.congr (h : Surplus v c b) (hdents : v'.dents = v.dents) (hnode : ∀ x, (v'.node x).inode = (v.node x).inode)
    (hcached : v'.inodes.cached = v.inodes.cached) (hinode : ∀ i ∈ v.inodes.cached, v'.inodes.node i = v.inodes.node i) :
    Leaks v v' c b := by
  refine ⟨⟨fun i hi => ?_, ?_, fun d hd hne => ?_, fun i hi => ?_, fun i hi => ?_⟩, by
    rw [hcached]; exact List.Subset.refl _⟩
  · rw [hcached] at hi
    rw [hinode i hi]
    exact h.sb i hi
  · rw [hcached, hnode]
    exact h.root
  · rw [hcached, hnode]
    exact h.dents d (hdents ▸ hd) hne
  · rw [hcached]
    exact h.users i hi
  · rw [hcached] at hi
    rw [hinode i hi, onInode_congr hdents hnode]
    exact h.more i hi

/-- no inode loses its last reference with a dentry -/
theorem Surplus.shrunk (h : Surplus v c b) (hs : Shrunk v v') : Leaks v v' c b := by
  have hstays : ∀ i ∈ v.inodes.cached, i ∈ v'.inodes.cached := fun i hi => by
    refine hs.kept i hi ?_
    have hmore := h.more i hi
    have hbalance := hs.balance i
    omega
  refine ⟨⟨fun i hi => ?_, ⟨fun hi => h.root.1 (hs.cached.subset hi), ?_⟩, fun d hd hne => ?_, fun i hi => ?_,
    fun i hi => ?_⟩, hstays⟩
  · rw [(hs.inode i).2.1]
    exact h.sb i (hs.cached.subset hi)
  · rw [fixed_inode (hs.fixed droot)]
    exact h.root.2
  · rw [fixed_inode (hs.fixed d)]
    exact hstays _ (h.dents d (hs.dents hd) hne)
  · exact (h.users i hi).imp_right (hstays i)
  · have hmore := h.more i (hs.cached.subset hi)
    have hbalance := hs.balance i
    omega

/-- a dentry that is found or made has its own reference to the inode -/
theorem Surplus.grown {parent : Option ℕ} (h : Surplus v c b) (hg : Grown v v' d i parent) (h0 : droot ∈ v.dents)
    (hi : i ∈ v.inodes.cached) : Leaks v v' c b := by
  refine ⟨⟨fun j hj => ?_, ?_, fun x hx hne => ?_, fun j hj => ?_, fun j hj => ?_⟩, by
    rw [hg.cached]; exact List.Subset.refl _⟩
  · rw [hg.cached] at hj
    rw [(hg.inode j).2.1]
    exact h.sb j hj
  · rw [hg.cached, fixed_inode (hg.fixed droot h0)]
    exact h.root
  · rw [hg.cached]
    by_cases hin : x ∈ v.dents
    · rw [fixed_inode (hg.fixed x hin)]
      exact h.dents x hin hne
    · rw [hg.dents] at hx
      obtain rfl := (Finset.mem_insert.1 hx).resolve_right hin
      rw [show (v'.node x).inode = i from congrArg Prod.fst hg.found]
      exact hi
  · rw [hg.cached]
    exact h.users j hj
  · rw [hg.cached] at hj
    have hmore := h.more j hj
    have hbalance := hg.balance j
    omega

/-- the count of inode i goes up for one more user -/
theorem Surplus.iref (h : Surplus v c b) (hi : i = iroot ∨ i ∈ v.inodes.cached) (hI : iref v.inodes i = .ok I) :
    Leaks v { v with inodes := I } (c + one i) b := by
  obtain rfl := (iref_ends v.inodes i).value hI
  refine ⟨⟨fun j hj => ?_, h.root, h.dents, fun j hj => ?_, fun j hj => ?_⟩, List.Subset.refl _⟩
  · exact (inode_setCount v.inodes j).2.1.trans (h.sb j hj)
  · by_cases hji : j = i
    · exact hji ▸ hi
    · simp only [Pi.add_apply, one, if_neg hji] at hj
      exact h.users j hj
  · have hmore := h.more j hj
    show v.onInode j + (c + one i) j < _
    by_cases hji : j = i
    · subst hji
      simp only [Inodes.setCount_self, Pi.add_apply, one, if_true]
      omega
    · simp only [v.inodes.setCount_of_ne hji, Pi.add_apply, one, if_neg hji]
      omega

/-- a user gives its reference back -/
theorem Surplus.iput (h : Surplus v (c + one i) b) (hI : iput v.inodes i = .ok I) : Leaks v { v with inodes := I } c b := by
  obtain ⟨hcount, hother, -, hsb, -, hsub, hkept⟩ := (iput_ends v.inodes i).value hI
  have hmore : ∀ j ∈ v.inodes.cached, v.onInode j + c j < (I.node j).refCount := fun j hj => by
    have hold := h.more j hj
    simp only [Pi.add_apply, one] at hold
    by_cases hji : j = i
    · subst hji
      simp only [if_true] at hold
      omega
    · rw [hother j hji]
      omega
  have hstays : ∀ j ∈ v.inodes.cached, j ∈ I.cached := fun j hj => hkept j hj (Nat.zero_lt_of_lt (hmore j hj))
  refine ⟨⟨fun j hj => ?_, ⟨fun hj => h.root.1 (hsub.subset hj), h.root.2⟩, fun d hd hne => hstays _ (h.dents d hd hne),
    fun j hj => (h.users j (Nat.add_pos_left hj _)).imp_right (hstays j), fun j hj => hmore j (hsub.subset hj)⟩, hstays⟩
  have hold := h.sb j (hsub.subset hj)
  by_cases hji : j = i
  · subst hji
    exact hsb.trans hold
  · rw [hother j hji]
    exact hold

/-- with fewer users -/
theorem Surplus.le (h : Surplus v c b) (hle : ∀ i, c' i ≤ c i) : Surplus v c' b :=
  ⟨h.sb, h.root, h.dents, fun i hi => h.users i (hi.trans_le (hle i)),
    fun i hi => (Nat.add_le_add_left (hle i) _).trans_lt (h.more i hi)⟩

/-! ## iget -/

variable {nr : ℕ} {mem : Option ℕ} {load : Option Bool}

/-- an inode of the cache with one reference more, or a new one with one reference -/
theorem iget_found (I : Inodes) (sb : Option ℕ) (nr : ℕ) (mem : Option ℕ) (load : Option Bool) :
    Ends (Namei.iget I sb nr mem load) (fun _ => True) fun res => match res.1 with
      | none => res.2 = I
      | some i => (i ∈ I.cached ∧ iref I i = .ok res.2) ∨
          i ∈ mem ∧ ∃ isDir, res.2 = ⟨Function.update I.node i ⟨nr, sb, isDir, 1⟩, i :: I.cached⟩ := by
  unfold Namei.iget
  cases hf : I.cached.find? fun i => (I.node i).sb = sb ∧ (I.node i).nr = nr with
  | some i =>
    refine ((iref_ends I i).with_value.imp (fun _ _ => trivial) fun _ hI => hI).bind fun I1 hI => ?_
    exact Or.inl ⟨List.mem_of_find?_eq_some hf, hI.2⟩
  | none =>
    cases mem with
    | none => exact rfl
    | some i =>
      cases load with
      | none => exact rfl
      | some isDir => exact Or.inr ⟨rfl, isDir, rfl⟩

/-- nothing points to an inode that is not in the cache -/
theorem Surplus.fresh (h : Surplus v c b) (hi : i ∉ v.inodes.cached) (hne : i ≠ iroot) : v.onInode i = 0 ∧ c i = 0 := by
  constructor
  · refine Finset.card_eq_zero.2 (Finset.filter_eq_empty_iff.2 fun d hd hdi => ?_)
    by_cases h0 : d = droot
    · exact hne (by rw [← hdi, h0, h.root.2])
    · exact hi (hdi ▸ h.dents d hd h0)
  · by_contra hpos
    exact (h.users i (Nat.pos_of_ne_zero hpos)).elim hne hi

/-- the reference of iget is the surplus of a new inode -/
theorem Surplus.new (h : Surplus v c b) (hi : i ∉ v.inodes.cached) (hne : i ≠ iroot) (isDir : Bool) :
    Leaks v { v with inodes := ⟨Function.update v.inodes.node i ⟨nr, some b, isDir, 1⟩, i :: v.inodes.cached⟩ } c b := by
  obtain ⟨hdents, husers⟩ := h.fresh hi hne
  have hself : Function.update v.inodes.node i ⟨nr, some b, isDir, 1⟩ i = ⟨nr, some b, isDir, 1⟩ :=
    Function.update_self ..
  have hother : ∀ j, j ≠ i → Function.update v.inodes.node i ⟨nr, some b, isDir, 1⟩ j = v.inodes.node j :=
    fun j hj => Function.update_of_ne hj ..
  refine ⟨⟨fun j hj => ?_, ⟨fun hj => ?_, h.root.2⟩, fun d hd h0 => List.mem_cons_of_mem _ (h.dents d hd h0),
    fun j hj => (h.users j hj).imp_right (List.mem_cons_of_mem _), fun j hj => ?_⟩, List.subset_cons_self _ _⟩
  · show (Function.update v.inodes.node i ⟨nr, some b, isDir, 1⟩ j).sb = some b
    rcases List.mem_cons.1 hj with rfl | hj
    · rw [hself]
    · rw [hother j fun he => hi (he ▸ hj)]
      exact h.sb j hj
  · rcases List.mem_cons.1 hj with hj | hj
    · exact hne hj.symm
    · exact h.root.1 hj
  · show v.onInode j + c j < (Function.update v.inodes.node i ⟨nr, some b, isDir, 1⟩ j).refCount
    rcases List.mem_cons.1 hj with rfl | hj
    · rw [hself, hdents, husers]
      exact Nat.one_pos
    · rw [hother j fun he => hi (he ▸ hj)]
      exact h.more j hj

/-- what iget gives is in the cache, and the iput of a caller that fails takes it back -/
theorem Surplus.iget (h : Surplus v c b) (hmem : ∀ i ∈ mem, i ∉ v.inodes.cached ∧ i ≠ iroot)
    (hI : Namei.iget v.inodes (some b) nr mem load = .ok (some i, I)) : Leaks v { v with inodes := I } c b ∧ i ∈ I.cached ∧
      ∀ I', Dcache.iput I i = .ok I' → Leaks v { v with inodes := I' } c b := by
  rcases (iget_found v.inodes (some b) nr mem load).value hI with ⟨hi, href⟩ | ⟨hi, isDir, hI⟩
  · have hleaks := h.iref (Or.inr hi) href
    refine ⟨⟨hleaks.surplus.le fun j => Nat.le_add_right _ _, hleaks.stays⟩, hleaks.stays hi, fun I' hput => ?_⟩
    exact hleaks.trans (hleaks.surplus.iput hput)
  · obtain ⟨hfresh, hne⟩ := hmem i hi
    change I = _ at hI
    subst hI
    refine ⟨h.new hfresh hne isDir, List.mem_cons_self, fun I' hput => ?_⟩
    have hself : Function.update v.inodes.node i ⟨nr, some b, isDir, 1⟩ i = ⟨nr, some b, isDir, 1⟩ :=
      Function.update_self ..
    simp only [Dcache.iput, hself, Nat.one_ne_zero, if_false, Nat.sub_self, Inodes.setCount_self, if_true,
      Except.ok.injEq] at hput
    subst hput
    refine h.congr rfl (fun _ => rfl) (List.erase_cons_head ..) fun j hj => ?_
    have hji : j ≠ i := fun he => hfresh (he ▸ hj)
    exact (Inodes.setCount_of_ne _ hji).trans (Function.update_of_ne hji ..)

/-! ## One step of a walk -/

variable {o : ℕ → ℕ} {w : Namei.Walk} {a : Namei.Answer} {find : Option ℕ}

/-- what the file system has done to the cache when it answers -/
structure Answered (v : Vfs) (c : ℕ → ℕ) (b : ℕ) (a : Namei.Answer) : Prop where
  none : a.inode = none → a.inodes = v.inodes
  found : ∀ i ∈ a.inode, Leaks v { v with inodes := a.inodes } c b ∧ i ∈ a.inodes.cached ∧
    ∀ I, Dcache.iput a.inodes i = .ok I → Leaks v { v with inodes := I } c b

theorem answer_ends (h : Surplus v c b) (hf : Namei.Fine v o b r) (hiter : w.iter ∈ v.dents) (hw : Namei.WalkOk w) {e : Disk}
    (hmem : ∀ i ∈ e.inode, i ∉ v.inodes.cached ∧ i ≠ iroot) : Ends (answer v w e) (fun _ => True) fun a =>
      a.mem = e.dentry ∧ Answered v c b a ∧ ∀ i ∈ a.inode, (a.inodes.node i).sb = (v.node w.iter).sb := by
  have hnothing : (⟨v.inodes, none, e.dentry⟩ : Namei.Answer).mem = e.dentry ∧
      Answered v c b ⟨v.inodes, none, e.dentry⟩ ∧ ∀ i ∈ (none : Option ℕ), (v.inodes.node i).sb =
      (v.node w.iter).sb :=
    ⟨rfl, ⟨fun _ => rfl, fun i hi => by cases hi⟩, fun i hi => by cases hi⟩
  rw [answer]
  cases hph : w.phase with
  | name => exact hnothing
  | finish => exact hnothing
  | disk prev comp =>
    cases e.nr with
    | none => exact hnothing
    | some nr =>
      have hne := (hw.disk prev comp hph).1
      have hsb : (v.inodes.node (v.node w.iter).inode).sb = some b := h.sb _ (h.dents w.iter hiter hne)
      rw [hsb]
      refine ((iget_found v.inodes (some b) nr e.inode e.load).with_value.imp (fun _ _ => trivial) fun _ hI => hI).bind
        fun res hres => ?_
      obtain ⟨i, I⟩ := res
      obtain ⟨hfound, hI⟩ := hres
      cases i with
      | none => exact ⟨rfl, ⟨fun _ => hfound, fun i hi => by cases hi⟩, fun i hi => by cases hi⟩
      | some i =>
        have hleaks := h.iget hmem hI
        refine ⟨rfl, ⟨fun hi => (by cases hi), fun j hj => ?_⟩, fun j hj => ?_⟩
        · cases hj
          exact hleaks
        · cases hj
          exact (hleaks.1.surplus.sb i hleaks.2.1).trans (hf.mount.others w.iter hiter hne).2.symm

/-- a dget that fails costs the reference of iget, and one that does not keeps it -/
theorem Answered.asked {dir : ℕ} {comp : List Byte} (ha : Answered v c b a) (h : Surplus v c b) (h0 : droot ∈ v.dents)
    (hasked : Namei.Asked v dir comp a o b r v' find) : Leaks v v' c b := by
  cases find with
  | none =>
    obtain ⟨-, I, rfl, hcase⟩ := hasked
    rcases hcase with ⟨hnone, rfl⟩ | ⟨i, hi, hput⟩
    · have hsame := ha.none hnone
      exact h.congr rfl (fun _ => rfl) (by rw [hsame]) fun i _ => by rw [hsame]
    · exact (ha.found i hi).2.2 I hput
  | some d =>
    obtain ⟨-, -, i, v1, hi, hgrown, rfl⟩ := hasked
    obtain ⟨hleaks, hin, -⟩ := ha.found i hi
    have hleaks1 := hleaks.trans (hleaks.surplus.grown hgrown h0 hin)
    exact hleaks1.trans (hleaks1.surplus.congr rfl (fun x => (rename_fields _ _ _ x).2.2.1) rfl fun _ _ => rfl)

theorem walkStep_leaks (h : Surplus v c b) (hf : Namei.Fine v (o + w.refs) b r) (h0 : 0 < o droot) (hr : 0 < o r)
    (hw : Namei.WalkOk w) (hmem : ∀ d ∈ a.mem, d ∉ v.dents)
    (hsb : ∀ i ∈ a.inode, (a.inodes.node i).sb = (v.node w.iter).sb)
    (ha : Answered v c b a) : Ends (Namei.walkStep v w a) (fun _ => True) fun res => Leaks v res.2 c b := by
  rw [Namei.walkStep]
  cases hph : w.phase with
  | name => exact (Namei.nameStep_ends hf h0 hr hw hph).imp (fun _ _ => trivial) fun _ hres => h.shrunk hres.2.1
  | finish => exact (Namei.finishStep_ends hf h0 hr hw hph).imp (fun _ _ => trivial) fun _ hres => h.shrunk hres.2.1
  | disk prev comp =>
    refine (Namei.diskStep_ends hf h0 hr hw hph hmem hsb).imp (fun _ _ => trivial) fun res hres => ?_
    obtain ⟨-, -, found, v1, hasked, hshrunk, -⟩ := hres
    have hleaks := ha.asked h (hf.live (Nat.add_pos_left h0 _)) hasked
    exact hleaks.trans (hleaks.surplus.shrunk hshrunk)

/-- the end of chdir and chroot gives back dentries only -/
theorem finish_shrunk {t : Namei.Task} {goal : Namei.Goal}
    (h : Namei.Fine v (o + (owed t.root + owed t.pwd) + owed find) b r) (h0 : 0 < o droot) (hr : 0 < o r)
    (hbelow : ∀ d ∈ find, Namei.Below v (Namei.top t goal) d) (hgoal : goal ≠ .open_) :
    Ends (Namei.finish v t goal find) (fun _ => True) fun res => Shrunk v res.2.2 := by
  rw [← add_assoc] at h
  cases goal with
  | open_ => exact absurd rfl hgoal
  | chdir =>
    exact (Namei.sysChdir_ends h (Nat.add_pos_left h0 _) (Nat.add_pos_left hr _) hbelow).imp (fun _ _ => trivial)
      fun _ hres => hres.2.1
  | chroot => exact (Namei.sysChroot_ends h h0 hr).imp (fun _ _ => trivial) fun _ hres => hres.2.1

/-! ## Struct files -/

variable {files files' : Open.Sys} {t new fd : ℕ}

/-- files that have the same references to inodes -/
theorem uses_congr (h : Open.RefsOk files) (h' : Open.RefsOk files') (hiref : files'.iref = files.iref) :
    uses files' = uses files := by
  funext i
  have h1 := h.owes.inodes i
  have h2 := h'.owes.inodes i
  rw [hiref, h1] at h2
  exact Nat.cast_injective h2.symm

theorem uses_addIref (h : Open.RefsOk files) (h' : Open.RefsOk files') {n : ℤ} (hiref : files'.iref = (files.addIref i n).iref)
    (j : ℕ) : (uses files' j : ℤ) = uses files j + if j = i then n else 0 := by
  have h1 : files.iref j = uses files j := h.owes.inodes j
  have h2 : files'.iref j = uses files' j := h'.owes.inodes j
  rw [← h1, ← h2, hiref]
  simp only [Open.Sys.addIref]
  split_ifs
  · rfl
  · exact (add_zero _).symm

theorem uses_more (h : Open.RefsOk files) (h' : Open.RefsOk files') (hiref : files'.iref = (files.addIref i 1).iref) :
    uses files' = uses files + one i := by
  funext j
  have hj := uses_addIref h h' hiref j
  simp only [Pi.add_apply, one]
  split_ifs at hj ⊢ <;> omega

theorem uses_less (h : Open.RefsOk files) (h' : Open.RefsOk files') (hiref : files'.iref = (files.addIref i (-1)).iref) :
    uses files = uses files' + one i := by
  funext j
  have hj := uses_addIref h h' hiref j
  simp only [Pi.add_apply, one]
  split_ifs at hj ⊢ <;> omega

/-- sys_open fails without a reference, or gives a descriptor with one -/
theorem open_iref (files : Open.Sys) (t flags i : ℕ) (mem : Option ℕ) (ok : Bool) {ret : ℤ}
    (h : Open.sysOpen files t flags ⟨some i, mem, ok⟩ = (ret, files')) :
    (ret < 0 ∧ files'.iref = files.iref ∨ 0 ≤ ret ∧ files'.iref = (files.addIref i 1).iref) ∧
    files'.tasks = files.tasks := by
  have hback : (fun j => if j = i then (if j = i then files.iref j + 1 else files.iref j) + -1
      else if j = i then files.iref j + 1 else files.iref j) = files.iref := by
    funext j
    split_ifs <;> ring
  cases hfd : Open.getUnusedFd (files.fdt t) with
  | none =>
    rw [Open.sysOpen, hfd] at h
    cases h
    exact ⟨Or.inl ⟨by decide, rfl⟩, rfl⟩
  | some r =>
    obtain ⟨fd, fdt⟩ := r
    rw [Open.sysOpen_eq hfd] at h
    cases mem with
    | none =>
      cases h
      exact ⟨Or.inl ⟨by decide, hback⟩, rfl⟩
    | some f =>
      cases ok with
      | true =>
        cases h
        exact ⟨Or.inr ⟨Int.natCast_nonneg fd, rfl⟩, rfl⟩
      | false =>
        cases h
        refine ⟨Or.inl ⟨by decide, ?_⟩, rfl⟩
        simp only [Open.Sys.setSlot, Open.Sys.freeFile, Open.Sys.addIref, Open.Sys.setFile, if_true]
        exact hback

/-- sys_close gives the reference of the struct file back when it frees it -/
theorem close_iref (files : Open.Sys) {f : ℕ} (hfd : ¬ Open.nrOpen ≤ fd) (hslot : files.slot t fd = some f)
    (h : Open.sysClose files t fd = (success, files')) : files'.iref =
      if (files'.file f).refCount = 0 then (files.addIref (files.file f).inode (-1)).iref else files.iref := by
  rw [Open.sysClose, if_neg hfd, hslot] at h
  obtain rfl := (Prod.mk.inj h).2
  have hinode : (((files.setSlot t fd none).addRef f (-1)).file f).inode = (files.file f).inode := by
    simp [Open.Sys.addRef, Open.Sys.setFile, Open.Sys.setSlot]
  by_cases hzero : (((files.setSlot t fd none).addRef f (-1)).file f).refCount = 0
  · rw [if_pos hzero]
    refine Eq.trans ?_ (if_pos hzero).symm
    rw [← hinode]
    rfl
  · rw [if_neg hzero, if_neg hzero]
    rfl

theorem copyTable_frame (new : ℕ) (fs : List (Option ℕ)) (fd : ℕ) (files : Open.Sys) :
    (Open.copyTable files new fs fd).iref = files.iref ∧ (Open.copyTable files new fs fd).tasks = files.tasks := by
  induction fs generalizing files fd with
  | nil => exact ⟨rfl, rfl⟩
  | cons f fs ih =>
    cases f with
    | none => exact ih (fd + 1) (files.setSlot new fd none)
    | some f => exact ih (fd + 1) ((files.setSlot new fd (some f)).addRef f 1)

theorem kernelThread_frame (files : Open.Sys) (t new : ℕ) : (Open.kernelThread files t (some new)).iref = files.iref ∧
    (Open.kernelThread files t (some new)).tasks = insert new files.tasks := copyTable_frame ..

/-- a task without descriptors goes -/
theorem erase_ok (h : Open.RefsOk files) (ht : t ∈ files.tasks) (hfdt : files.fdt t = List.replicate Open.nrOpen none) :
    Open.RefsOk { files with tasks := files.tasks.erase t } := by
  have hslots : ∀ f, ({ files with tasks := files.tasks.erase t } : Open.Sys).slots f = files.slots f := fun f => by
    rw [Open.Sys.slots, Open.Sys.slots, ← Finset.add_sum_erase _ _ ht, hfdt, List.count_replicate, if_neg (by simp), zero_add]
  refine ⟨⟨fun u hu => h.owes.len u (Finset.mem_of_mem_erase hu), fun f hf => ?_,
    fun u hu => h.owes.live u (Finset.mem_of_mem_erase hu), h.owes.inodes⟩, fun f hf => ?_⟩
  · rw [hslots]
    exact h.owes.refs f hf
  · rw [hslots]
    exact h.used f hf

/-! ## The invariant -/

variable {s s' : State}

/-- the two sides know the same tasks, count dentries and struct files rightly, and every cached inode has its surplus -/
structure Ok (s : State) (b r : ℕ) : Prop where
  names : Namei.NameiOk s.names b r
  files : Open.RefsOk s.files
  tasks : s.files.tasks = s.names.tasks
  surplus : Surplus s.names.vfs (uses s.files) b

/-- what a step keeps -/
def Kept (s s' : State) (b r : ℕ) : Prop := Ok s' b r ∧ s.names.vfs.inodes.cached ⊆ s'.names.vfs.inodes.cached

/-- the counts of inodes are none of the business of the dentry tree -/
theorem names_inodes {n : Namei.Sys} (h : Namei.NameiOk n b r) (I : Inodes) :
    Namei.NameiOk { n with vfs := { n.vfs with inodes := I } } b r := by
  refine ⟨h.fine.inodes I, fun t ht => ?_⟩
  have hkept : Namei.Kept n.vfs { n.vfs with inodes := I } := ⟨rfl, fun _ _ _ => ⟨rfl, rfl, rfl⟩⟩
  refine (h.tasks t ht).kept h.fine (h.fine.inodes I) hkept fun d hd => ?_
  have hlive := Namei.task_live h.fine (show t ∈ n.tasks from ht) hd
  exact ⟨hlive, hlive⟩

/-- sys_open behind its lookup: what open_namei has done to the names, and then perhaps an iput -/
theorem sysOpen_ends {e : Env} (hf : Namei.Fine v (o + owed find) b r) (h0 : 0 < o droot) (hr : 0 < o r)
    (h : Surplus v (uses files) b) (hrefs : Open.RefsOk files) (ht : t ∈ files.tasks)
    (hm : ∀ f ∈ e.memory, f ∉ files.alloc) :
    Ends (sysOpen v files t e find) (fun _ => True) fun res => Leaks v res.2.1 (uses res.2.2) b ∧ Open.RefsOk res.2.2 ∧
      res.2.2.tasks = files.tasks ∧
      ∃ ret i v1 I, Namei.openNamei v find = .ok (ret, i, v1) ∧ res.2.1 = { v1 with inodes := I } := by
  rw [sysOpen]
  refine ((Namei.openNamei_ends hf h0 hr).with_value.imp (fun _ _ => trivial) fun _ hv => hv).bind fun res hres => ?_
  obtain ⟨ret, i, v1⟩ := res
  obtain ⟨⟨-, hres⟩, hvalue⟩ := hres
  cases find with
  | none =>
    cases hres
    exact ⟨h.leaks, hrefs, rfl, _, _, v, v.inodes, hvalue, rfl⟩
  | some d =>
    obtain ⟨-, hi, I, hiref, hshrunk⟩ := hres
    change i = _ at hi
    subst hi
    have hd : d ∈ v.dents := hf.live (by simp [owed])
    have hin : (v.node d).inode = iroot ∨ (v.node d).inode ∈ v.inodes.cached := by
      by_cases hne : d = droot
      · exact Or.inl (hne ▸ h.root.2)
      · exact Or.inr (h.dents d hd hne)
    have hleaks := h.iref hin hiref
    have hleaks1 := hleaks.trans (hleaks.surplus.shrunk hshrunk)
    obtain ⟨ret', files', hopen⟩ : ∃ ret' files', Open.sysOpen files t e.flags ⟨some (v.node d).inode, e.memory, e.ok⟩ =
      (ret', files') := ⟨_, _, rfl⟩
    obtain ⟨hcase, htasks⟩ := open_iref _ _ _ _ _ _ hopen
    have hrefs' : Open.RefsOk files' := by
      have hok : Open.RefsOk (Open.sysOpen files t e.flags ⟨some (v.node d).inode, e.memory, e.ok⟩).2 :=
        Open.open_ok hrefs ht hm
      rw [hopen] at hok
      exact hok
    simp only [hopen]
    rcases hcase with ⟨hneg, hsame⟩ | ⟨hpos, hmore⟩
    · rw [if_pos hneg]
      refine ((Ends.any (Dcache.iput v1.inodes (v.node d).inode)).with_value).bind fun I' hI' => ?_
      refine ⟨?_, hrefs', htasks, _, _, v1, I', hvalue, rfl⟩
      rw [uses_congr hrefs hrefs' hsame]
      exact hleaks1.trans (hleaks1.surplus.iput hI'.2)
    · rw [if_neg (not_lt.2 hpos)]
      refine ⟨?_, hrefs', htasks, _, _, v1, v1.inodes, hvalue, rfl⟩
      rw [uses_more hrefs hrefs' hmore]
      exact hleaks1

/-! ## One step -/

/-- **One step of a walk, and the end of its system call.** -/
theorem walk_ok {e : Env} (h : Ok s b r) (hl : legal s (.walk t w e)) :
    Ends (walk s t w e) (fun _ => True) fun s' => Kept s s' b r := by
  obtain ⟨ht, hwalk, hdentry, hinode, hmem⟩ := hl
  have hwok := ((h.names.tasks t ht).walk w hwalk).2.2
  have hiter : w.iter ∈ s.names.vfs.dents := Namei.task_live h.names.fine ht (Namei.iter_refs hwalk)
  have hfine := h.names.walk_fine ht hwalk
  obtain ⟨h0, hr⟩ := Namei.rest_pos s.names t r
  rw [walk]
  refine (answer_ends h.surplus hfine hiter hwok hinode).bind fun a ha => ?_
  obtain ⟨hamem, hans, hsb⟩ := ha
  have hlegal : Namei.Meets s.names t w a := ⟨ht, hwalk, by rw [hamem]; exact hdentry, hsb⟩
  have hleaks := walkStep_leaks h.surplus hfine (Nat.add_pos_left h0 _) (Nat.add_pos_left hr _) hwok
    (by rw [hamem]; exact hdentry) hsb hans
  refine (((Namei.walk_outcome h.names hlegal).and hleaks).with_value.imp (fun _ _ => trivial) fun _ hv => hv).bind
    fun res hres => ?_
  obtain ⟨out, v1⟩ := res
  obtain ⟨⟨⟨hfine1, -, -, hbelow⟩, hleaks1⟩, hstep⟩ := hres
  cases out with
  | going w' =>
    have hnames := (Namei.walk_ok h.names hlegal).value (by rw [Namei.walk, hstep]; rfl)
    exact ⟨⟨hnames.1, h.files, h.tasks, hleaks1.surplus⟩, hleaks1.stays⟩
  | returned find =>
    -- chdir and chroot change the names only
    have hnames_only : w.goal ≠ .open_ → Ends (do
        let (_, x, v) ← Namei.finish v1 (s.names.task t) w.goal find
        pure { s with names := { s.names with vfs := v }.setTask t { x with walk := none } }) (fun _ => True)
        fun s' => Kept s s' b r := fun hgoal => by
      refine ((finish_shrunk hfine1 h0 hr hbelow hgoal).with_value.imp (fun _ _ => trivial) fun _ hv => hv).bind
        fun res hres => ?_
      obtain ⟨ret, x, v2⟩ := res
      obtain ⟨hshrunk, hfin⟩ := hres
      have hnames := (Namei.walk_ok h.names hlegal).value (by
        rw [Namei.walk, hstep]
        show (Namei.finish v1 (s.names.task t) w.goal find >>= _) = _
        rw [hfin]
        rfl)
      have hleaks2 := hleaks1.surplus.shrunk hshrunk
      exact ⟨⟨hnames.1, h.files, h.tasks, hleaks2.surplus⟩, (hleaks1.trans hleaks2).stays⟩
    cases hgoal : w.goal with
    | chdir =>
      rw [hgoal] at hnames_only
      exact hnames_only (by decide)
    | chroot =>
      rw [hgoal] at hnames_only
      exact hnames_only (by decide)
    | open_ =>
      have hends := sysOpen_ends (e := e) hfine1 (Nat.add_pos_left h0 _) (Nat.add_pos_left hr _) hleaks1.surplus h.files
        (h.tasks ▸ ht) hmem
      refine hends.bind fun res hres => ?_
      obtain ⟨ret, v2, files⟩ := res
      obtain ⟨hleaks2, hrefs, htasks, ret', i, v', I, hopen, hv2⟩ := hres
      change v2 = _ at hv2
      subst hv2
      have hnames := (Namei.walk_ok h.names hlegal).value (by
        rw [Namei.walk, hstep]
        show (Namei.finish v1 (s.names.task t) w.goal find >>= _) = _
        rw [hgoal, Namei.finish, hopen]
        rfl)
      exact ⟨⟨names_inodes hnames.1 I, hrefs, htasks.trans h.tasks, hleaks2.surplus⟩, (hleaks1.trans hleaks2).stays⟩

theorem close_ok (h : Ok s b r) (ht : t ∈ s.names.tasks) (fd : ℕ) :
    Ends (sysClose s t fd) (fun _ => True) fun s' => Kept s s' b r := by
  have ht' : t ∈ s.files.tasks := h.tasks.symm ▸ ht
  have hrefs := Open.close_ok h.files ht' fd
  have htasks := (Open.close_tasks s.files t fd).trans h.tasks
  rw [sysClose]
  by_cases hfd : Open.nrOpen ≤ fd
  · rw [if_pos hfd]
    exact ⟨h, List.Subset.refl _⟩
  rw [if_neg hfd]
  cases hslot : s.files.slot t fd with
  | none => exact ⟨h, List.Subset.refl _⟩
  | some f =>
    obtain ⟨files, hclose⟩ : ∃ files, Open.sysClose s.files t fd = (success, files) := by
      rw [Open.sysClose, if_neg hfd, hslot]
      exact ⟨_, rfl⟩
    rw [hclose] at hrefs htasks
    have hiref := close_iref s.files hfd hslot hclose
    simp only [hclose]
    by_cases hzero : (files.file f).refCount = 0
    · rw [if_pos hzero] at hiref ⊢
      refine (Ends.any (Dcache.iput s.names.vfs.inodes (s.files.file f).inode)).with_value.bind fun I hI => ?_
      have hsurplus := h.surplus
      rw [uses_less h.files hrefs hiref] at hsurplus
      have hleaks := hsurplus.iput hI.2
      exact ⟨⟨names_inodes h.names I, hrefs, htasks, hleaks.surplus⟩, hleaks.stays⟩
    · rw [if_neg hzero] at hiref ⊢
      have hsurplus := h.surplus
      rw [← uses_congr h.files hrefs hiref] at hsurplus
      exact ⟨⟨h.names, hrefs, htasks, hsurplus⟩, List.Subset.refl _⟩

/-- the steps that change the counts of inodes only with dentries -/
theorem Ok.shrunk {n : Namei.Sys} (h : Ok s b r) (hn : Namei.NameiOk n b r) (hs : Shrunk s.names.vfs n.vfs)
    (hrefs : Open.RefsOk files) (htasks : files.tasks = n.tasks) (hiref : files.iref = s.files.iref) :
    Kept s ⟨n, files⟩ b r := by
  have hleaks := h.surplus.shrunk hs
  refine ⟨⟨hn, hrefs, htasks, ?_⟩, hleaks.stays⟩
  show Surplus n.vfs (uses files) b
  rw [uses_congr h.files hrefs hiref]
  exact hleaks.surplus

/-- **One step.** -/
theorem step_ok {op : Op} (h : Ok s b r) (hl : legal s op) : Ends (step s op) (fun _ => True) fun s' => Kept s s' b r := by
  cases op with
  | start t goal path =>
    obtain ⟨ht, hidle, hpath, -⟩ := hl
    have htasks : Ends (Namei.step s.names (.start t goal path true)) (fun _ => True) fun n => n.tasks = s.names.tasks :=
      (Ends.any _).bind fun _ _ => rfl
    rw [step]
    refine (((Namei.start_ok h.names ht (hidle t ht) hpath).and htasks).imp (fun _ _ => trivial) fun _ hn => hn).bind
      fun n hn => ?_
    exact h.shrunk hn.1.1 hn.1.2 h.files (h.tasks.trans hn.2.symm) rfl
  | walk t w e => exact walk_ok h hl
  | close t fd => exact close_ok h hl.1 fd
  | kernelThread t new =>
    obtain ⟨ht, hidle, hnew⟩ := hl
    have htasks : Ends (Namei.kernelThread s.names t new) (fun _ => True) fun n => n.tasks = insert new s.names.tasks :=
      (Ends.any _).bind fun _ _ => (Ends.any _).bind fun _ _ => rfl
    have hnames := (Namei.kernelThread_ok h.names ht hnew).and htasks
    obtain ⟨hiref, htasks'⟩ := kernelThread_frame s.files t new
    have hrefs : Open.RefsOk (Open.kernelThread s.files t (some new)) := by
      refine Open.kernelThread_ok h.files (h.tasks.symm ▸ ht) fun m hm => ?_
      cases hm
      rw [h.tasks]
      exact hnew
    rw [step, kernelThread]
    refine (hnames.imp (fun _ _ => trivial) fun _ hn => hn).bind fun n hn => ?_
    refine h.shrunk hn.1.1 hn.1.2 hrefs ?_ hiref
    rw [htasks', h.tasks, hn.2]
  | release t =>
    obtain ⟨ht, hidle, hfdt⟩ := hl
    have htasks : Ends (Namei.kthreadRelease s.names t) (fun _ => True) fun n => n.tasks = s.names.tasks.erase t :=
      (Ends.any _).bind fun _ _ => (Ends.any _).bind fun _ _ => rfl
    have hnames := (Namei.release_ok h.names ⟨ht, hidle t ht⟩).and htasks
    rw [step, release]
    refine (hnames.imp (fun _ _ => trivial) fun _ hn => hn).bind fun n hn => ?_
    refine h.shrunk hn.1.1 hn.1.2 (erase_ok h.files (h.tasks.symm ▸ ht) hfdt) ?_ rfl
    rw [hn.2, ← h.tasks]

/-! ## The mount of the root -/

/-- droot alone, and no inode in the cache -/
structure Blank (v : Vfs) : Prop where
  dents : v.dents = {droot}
  inode : (v.node droot).inode = iroot
  cached : v.inodes.cached = []

theorem Blank.surplus (h : Blank v) (b : ℕ) : Surplus v (fun _ => 0) b := by
  have hnone : ∀ i, i ∉ v.inodes.cached := fun i => by
    rw [h.cached]
    exact List.not_mem_nil
  refine ⟨fun i hi => absurd hi (hnone i), ⟨hnone iroot, h.inode⟩, fun d hd hne => ?_, fun i hi => absurd hi (lt_irrefl 0),
    fun i hi => absurd hi (hnone i)⟩
  rw [h.dents, Finset.mem_singleton] at hd
  exact absurd hd hne

theorem dref_count (v : Vfs) (d : ℕ) :
    Ends (dref v d) (fun _ => True) fun v' => v' = v.setCount d ((v.node d).refCount + 1) := by
  rw [dref]
  split_ifs
  · trivial
  · rfl

theorem allocSuperBlock_blank (h : Blank v) (b de : ℕ) : Ends (Namei.allocSuperBlock v b de) (fun _ => True) Blank := by
  rw [Namei.allocSuperBlock]
  split_ifs
  · trivial
  · refine (dref_count v de).bind fun v1 hv1 => ?_
    subst hv1
    have hmount : ∀ v1 : Vfs,
        ((v1.setNode de { v1.node de with mount := some b }).node droot).inode = (v1.node droot).inode := by
      intro v1
      by_cases hde : droot = de
      · rw [hde, Vfs.setNode_self]
      · rw [Vfs.setNode_of_ne hde]
    exact ⟨h.dents, (hmount _).trans ((fixed_inode (fixed_setCount droot)).trans h.inode), h.cached⟩

/-- the root has one reference from iget and one from dget -/
theorem minixGetSuper_surplus (h : Namei.Covered v b) (hb : Blank v) {dmem : Option ℕ} (hmem : ∀ i ∈ mem, i ≠ iroot)
    (hd : ∀ d ∈ dmem, d ≠ droot) : Ends (Namei.minixGetSuper v b mem load dmem) (fun _ => True) fun res =>
      res.1 = success → Surplus res.2 (fun _ => 0) b ∧ res.2.inodes.cached ≠ [] := by
  have hsurplus := hb.surplus b
  have hdroot : droot ∈ v.dents := h.tree.live droot h.tree.root.1
  rw [Namei.minixGetSuper]
  refine ((iget_found v.inodes (some b) Namei.minixRootInr mem load).with_value.imp (fun _ _ => trivial) fun _ hv => hv).bind
    fun res hres => ?_
  obtain ⟨i, I⟩ := res
  cases i with
  | none => exact fun he => absurd (show -error = success from he) (by decide)
  | some i =>
    obtain ⟨hleaks, hin, -⟩ := hsurplus.iget (fun i hi => ⟨by rw [h.cached]; exact List.not_mem_nil, hmem i hi⟩) hres.2
    have hsb : (I.node i).sb = some b := hleaks.surplus.sb i hin
    have hget := dget_ends i none dmem (h.tree.inodes I) (by decide)
      (fun d hdm => by show d ∉ v.dents; rw [h.dents, Finset.mem_singleton]; exact hd d hdm) (fun p hp => by cases hp)
      (by show (I.node i).sb ≠ none; rw [hsb]; exact Option.some_ne_none b)
    refine (hget.imp (fun _ _ => trivial) fun _ hv => hv).bind fun res hres => ?_
    obtain ⟨d, v1⟩ := res
    cases d with
    | none => trivial
    | some d =>
      have hleaks1 := hleaks.surplus.grown hres.2.2 hdroot hin
      have hleaks2 : Leaks v1 { v1 with super := Function.update v1.super b { v1.super b with root := some d } } (fun _ => 0) b :=
        hleaks1.surplus.congr rfl (fun _ => rfl) rfl fun _ _ => rfl
      exact fun _ => ⟨hleaks2.surplus, List.ne_nil_of_mem (hleaks2.stays (hleaks1.stays hin))⟩

theorem mountRoot_surplus (b : ℕ) {dmem : Option ℕ} (hmem : ∀ i ∈ mem, i ≠ iroot) (hd : ∀ d ∈ dmem, d ≠ droot) :
    Ends (Namei.mountRoot Namei.boot b mem load dmem) (fun _ => True) fun v =>
      Surplus v (fun _ => 0) b ∧ v.inodes.cached ≠ [] := by
  have hblank : Ends (Namei.initDroot Namei.boot) (fun _ => False) Blank := show Blank _ from ⟨rfl, rfl, rfl⟩
  rw [Namei.mountRoot]
  refine ((Namei.initDroot_ends.and hblank).imp (fun _ _ => trivial) fun _ hv => hv).bind fun v1 hv1 => ?_
  have hmount : Ends (Namei.doMount v1 b droot mem load dmem) (fun _ => True) fun res =>
      res.1 = success → Surplus res.2 (fun _ => 0) b ∧ res.2.inodes.cached ≠ [] := by
    have halloc := (Namei.allocSuperBlock_ends hv1.1 b).and (allocSuperBlock_blank hv1.2 b droot)
    exact (halloc.imp (fun _ _ => trivial) fun _ hv => hv).bind fun v2 hv2 => minixGetSuper_surplus hv2.1 hv2.2 hmem hd
  refine hmount.bind fun res hres => ?_
  obtain ⟨ret, v2⟩ := res
  by_cases hret : ret = success
  · obtain ⟨hsurplus, hcached⟩ := hres hret
    show Ends (if ret ≠ success then _ else _) _ _
    rw [if_neg (not_not.2 hret)]
    refine (dref_count v2 droot).bind fun v3 hv3 => ?_
    refine (dref_count v3 droot).imp (fun _ he => he) fun v4 hv4 => ?_
    subst hv3
    subst hv4
    exact ⟨((hsurplus.shrunk .setCount).surplus.shrunk .setCount).surplus, hcached⟩
  · show Ends (if ret ≠ success then _ else _) _ _
    rw [if_pos hret]
    trivial

theorem mounted_ok (h : Mounted s) : ∃ b r, Ok s b r ∧ s.names.vfs.inodes.cached ≠ [] := by
  obtain ⟨hnames, htasks, hfdt, halloc, hiref⟩ := h
  obtain ⟨b', r, hok, -⟩ := Namei.mounted_ok hnames
  obtain ⟨t, b, mem, load, dmem, hmem, hd, hv, -⟩ := hnames
  obtain ⟨hsurplus, hcached⟩ := (mountRoot_surplus b hmem hd).value hv
  obtain ⟨r', hfine, -⟩ := (Namei.mountRoot_ends b mem load dmem hd).value hv
  have hb : b' = b := Finset.singleton_injective (hok.fine.mount.sbs.symm.trans hfine.mount.sbs)
  subst hb
  refine ⟨b', r, ⟨hok, Open.empty_ok hfdt halloc hiref, htasks, ?_⟩, hcached⟩
  have huses : uses s.files = fun _ => 0 := funext fun i => by simp [uses, Open.Sys.openOn, halloc]
  rw [huses]
  exact hsurplus

theorem reachable_ok (h : system.Reach s) : ∃ b r, Ok s b r ∧ s.names.vfs.inodes.cached ≠ [] :=
  Lts.Reach.inv (M := system) (P := fun s => ∃ b r, Ok s b r ∧ s.names.vfs.inodes.cached ≠ []) (fun _ => mounted_ok)
    (fun _ _ _ ⟨b, r, hok, hne⟩ hst => by
      obtain ⟨hok', hstays⟩ := (step_ok hok hst.1).value hst.2
      obtain ⟨i, hi⟩ := List.exists_mem_of_ne_nil _ hne
      exact ⟨b, r, hok', List.ne_nil_of_mem (hstays hi)⟩) h

/-- **The reference of iget is never given back.** In every state of a run on the mounted root every cached inode has more
references than dentries and open files, so that the counts are exact in none, and no step takes an inode out of the cache. -/
theorem counts_never (h : system.Reach s) : ¬ s.Exact ∧
    (∀ i ∈ s.names.vfs.inodes.cached, s.names.vfs.onInode i + uses s.files i < (s.names.vfs.inodes.node i).refCount) ∧
    ∀ op s', system.step s op s' → s.names.vfs.inodes.cached ⊆ s'.names.vfs.inodes.cached := by
  obtain ⟨b, r, hok, hne⟩ := reachable_ok h
  refine ⟨fun hexact => ?_, hok.surplus.more, fun op s' hst => ((step_ok hok hst.1).value hst.2).2⟩
  obtain ⟨i, hi⟩ := List.exists_mem_of_ne_nil _ hne
  exact (hok.surplus.more i hi).ne' (hexact i hi)

/-! ## One lookup -/

def first : State := ⟨Namei.first, Open.boot⟩

theorem first_reached : system.Reach first :=
  .start ⟨Namei.first_mounted, rfl, fun _ _ => rfl, rfl, rfl⟩

/-- entry a of the root leads to inode 5, and there is memory for the inode and its dentry -/
def fileA : Env := ⟨⟨some 5, some 3, some false, some 3⟩, 0, none, true⟩

/-- there is no memory, so that sys_open has no struct file -/
def noMemory : Env := ⟨⟨none, none, none, none⟩, 0, none, true⟩

/-- a sys_open of a -/
def openA : List Op :=
  [.start 0 .open_ [0x61], .walk 0 ⟨.open_, some droot, droot, [0x61], .name, true⟩ fileA,
    .walk 0 ⟨.open_, some droot, 2, [], .disk droot [0x61], true⟩ fileA,
    .walk 0 ⟨.open_, some droot, 3, [], .finish, true⟩ noMemory]

instance (s : State) : Decidable s.Idle := inferInstanceAs (Decidable (∀ t ∈ s.names.tasks, _))

instance (s : State) (op : Op) : Decidable (legal s op) :=
  match op with
  | .start _ _ _ | .close _ _ | .kernelThread _ _ | .release _ => inferInstanceAs (Decidable (_ ∧ _))
  | .walk _ _ _ => inferInstanceAs (Decidable (_ ∧ _ ∧ _))

def legalStep (s : State) (op : Op) : Option State := if legal s op then (step s op).toOption else none

theorem legalStep_step (s : State) (op : Op) (s' : State) (h : legalStep s op = some s') : system.step s op s' := by
  rw [legalStep] at h
  split_ifs at h with hl
  cases hs : step s op with
  | error e =>
    rw [hs] at h
    cases h
  | ok s1 =>
    rw [hs] at h
    cases h
    exact ⟨hl, hs⟩

/-- there is memory for the struct file -/
def fileMemory : Env := ⟨⟨none, none, none, none⟩, 0, some 7, true⟩

/-- a is opened and closed again -/
def openCloseA : List Op := openA.dropLast ++ [.walk 0 ⟨.open_, some droot, 3, [], .finish, true⟩ fileMemory, .close 0 0]

/-- the inode of a has a reference, and neither a dentry nor an open file -/
theorem closed_never : ∃ s : State, ¬ s.Exact ∧ 3 ∈ s.names.vfs.inodes.cached ∧ s.files.alloc = ∅ ∧
    s.names.vfs.onInode 3 + uses s.files 3 < (s.names.vfs.inodes.node 3).refCount := by
  have hfields : (openCloseA.foldlM legalStep first).any (fun s => 3 ∈ s.names.vfs.inodes.cached ∧ s.files.alloc = ∅) =
      true := by
    decide +kernel
  obtain ⟨s, hs, hp⟩ := (Option.any_eq_true _ _).1 hfields
  obtain ⟨hcached, halloc⟩ := of_decide_eq_true hp
  obtain ⟨hexact, hmore, -⟩ := counts_never (.fold legalStep_step first_reached hs)
  exact ⟨s, hexact, hcached, halloc, hmore 3 hcached⟩

theorem openA_returns : (openA.foldlM legalStep first).isSome := by decide +kernel

def opened : State := (openA.foldlM legalStep first).get openA_returns

/-- sys_open has failed, and the inode of a stays in the cache, without a dentry and without an open file -/
theorem forgotten_stays : system.Reach opened ∧ ¬ opened.Exact ∧ 3 ∈ opened.names.vfs.inodes.cached ∧
    (opened.names.vfs.inodes.node 3).refCount = 1 ∧ opened.names.vfs.onInode 3 + uses opened.files 3 = 0 := by
  have hcached : 3 ∈ opened.names.vfs.inodes.cached := by decide +kernel
  have hcount : (opened.names.vfs.inodes.node 3).refCount = 1 := by decide +kernel
  have hnone : opened.names.vfs.onInode 3 + uses opened.files 3 = 0 := by decide +kernel
  refine ⟨.fold legalStep_step first_reached (Option.some_get openA_returns).symm, fun hexact => ?_, hcached, hcount, hnone⟩
  have hsame := hexact 3 hcached
  rw [hnone, hcount] at hsame
  exact absurd hsame Nat.one_ne_zero

end SinsOs.InodeCounts
