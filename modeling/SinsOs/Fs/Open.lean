/-
Descriptor tables and open files: sys_open, sys_close, sys_dup, sys_dup2 (fs/open.c), and the loops over the table in
kernel_thread (kernel/sched.c) and sys_exit (kernel/exit.c).

The state has the tables of all tasks, the allocated struct files and the inode references that open files hold. Each
call runs to its end, and open_namei, kmalloc and the open function of the inode are parameters of the call. get_unused_fd
marks the slot that it finds with the address of the table itself. A page fault on the path in open_namei ends the task with
sys_exit, which takes the mark for a struct file: its ref_count is where fdt[4] is.

- `refs_reachable`: while no sys_dup2 overwrites an open descriptor and no sys_open faults with a slot marked, the ref_count of
  every struct file is the number of slots that point to it, and it is freed exactly when the last one is cleared.
- `dup2_leaks`: sys_dup2 of one open descriptor over another leaves a struct file that no slot points to.
- `fault_wild`: a sys_open that faults behind five open descriptors leaves a slot that points to no struct file.
-/
import SinsOs.Core.Lts
import SinsOs.Lib.Str

namespace SinsOs.Open

open SinsOs.Core SinsOs.Lib

/-! ## Model -/

def nrOpen : ℕ := 20

structure File where
  flags : ℕ
  pos : ℤ
  inode : ℕ
  refCount : ℤ
deriving DecidableEq, Repr

/-- `fdt t` is the table of task t, `alloc` the struct files that are not freed, `iref i` the references to inode i -/
structure Sys where
  tasks : Finset ℕ
  fdt : ℕ → List (Option ℕ)
  alloc : Finset ℕ
  file : ℕ → File
  iref : ℕ → ℤ

namespace Sys

variable (s : Sys)

def slot (t fd : ℕ) : Option ℕ := ((s.fdt t)[fd]?).join

def setSlot (t fd : ℕ) (f : Option ℕ) : Sys :=
  { s with fdt := fun u => if u = t then (s.fdt t).set fd f else s.fdt u }

def setTable (t : ℕ) (fdt : List (Option ℕ)) : Sys := { s with fdt := fun u => if u = t then fdt else s.fdt u }

def setFile (f : ℕ) (x : File) : Sys := { s with file := fun g => if g = f then x else s.file g }

def addRef (f : ℕ) (n : ℤ) : Sys := s.setFile f { s.file f with refCount := (s.file f).refCount + n }

def addIref (i : ℕ) (n : ℤ) : Sys := { s with iref := fun j => if j = i then s.iref j + n else s.iref j }

/-- `iput(inode); kfree(f)` -/
def freeFile (f : ℕ) : Sys := { s.addIref (s.file f).inode (-1) with alloc := s.alloc.erase f }

end Sys

/-- (struct file *)fdt, which is the address of no struct file -/
def mark : ℕ := 2 ^ 32

/-- the first free slot, and the table with the mark in it -/
def getUnusedFd (fdt : List (Option ℕ)) : Option (ℕ × List (Option ℕ)) :=
  (fdt.findIdx? (· == none)).map fun fd => (fd, fdt.set fd (some mark))

def oMask : ℕ := 0x0f

/-- what the functions that sys_open calls give back: the inode of open_namei, the memory of kmalloc, and whether
fops->open succeeds -/
structure OpenEnv where
  inode : Option ℕ
  memory : Option ℕ
  ok : Bool
deriving DecidableEq, Repr

def sysOpen (s : Sys) (t flags : ℕ) (env : OpenEnv) : ℤ × Sys :=
  match getUnusedFd (s.fdt t) with
  | none => (-error, s)
  | some (fd, fdt) =>
    let s := s.setTable t fdt
    match env.inode with
    | none => (-error, s.setSlot t fd none)
    | some i =>
      let s := s.addIref i 1
      match env.memory with
      | none => (-eNomem, (s.addIref i (-1)).setSlot t fd none)
      | some f =>
        let s := { s.setFile f ⟨flags &&& oMask, 0, i, 1⟩ with alloc := insert f s.alloc }.setSlot t fd (some f)
        if env.ok then (fd, s) else (-error, (s.freeFile f).setSlot t fd none)

def sysClose (s : Sys) (t fd : ℕ) : ℤ × Sys :=
  if nrOpen ≤ fd then (-eInval, s)
  else match s.slot t fd with
    | none => (-eInval, s)
    | some f =>
      let s := (s.setSlot t fd none).addRef f (-1)
      (success, if (s.file f).refCount = 0 then s.freeFile f else s)

def sysDup (s : Sys) (t oldFd : ℕ) : ℤ × Sys :=
  if nrOpen ≤ oldFd then (-eInval, s)
  else match s.slot t oldFd with
    | none => (-eInval, s)
    | some f =>
      match getUnusedFd (s.fdt t) with
      | none => (-error, s)
      | some (newFd, fdt) => (newFd, ((s.setTable t fdt).setSlot t newFd (some f)).addRef f 1)

/-- the slot newFd must be open, and its file is forgotten -/
def sysDup2 (s : Sys) (t oldFd newFd : ℕ) : ℤ × Sys :=
  if nrOpen ≤ oldFd ∨ nrOpen ≤ newFd then (-eInval, s)
  else match s.slot t oldFd, s.slot t newFd with
    | some f, some _ => if oldFd = newFd then (oldFd, s) else (newFd, (s.setSlot t newFd (some f)).addRef f 1)
    | _, _ => (-eInval, s)

/-- the loop of kernel_thread over the table of the current task -/
def copyTable (s : Sys) (new : ℕ) : List (Option ℕ) → ℕ → Sys
  | [], _ => s
  | f :: fs, fd =>
    let s := s.setSlot new fd f
    copyTable (match f with
      | none => s
      | some f => s.addRef f 1) new fs (fd + 1)

/-- `new` is the page of the new task_struct -/
def kernelThread (s : Sys) (t : ℕ) (new : Option ℕ) : Sys :=
  match new with
  | none => s
  | some n =>
    copyTable { s with
      tasks := insert n s.tasks
      fdt := fun u => if u = n then List.replicate nrOpen none else s.fdt u } n (s.fdt t) 0

/-- the loop of sys_exit -/
def closeAll (s : Sys) (t : ℕ) : List ℕ → Sys
  | [] => s
  | fd :: fds => closeAll (if (s.slot t fd).isSome then (sysClose s t fd).2 else s) t fds

def sysExit (s : Sys) (t : ℕ) : Sys := closeAll s t (List.range nrOpen)

/-- sys_close of the mark: the word of fdt[4] is taken for its ref_count, which does not come to 0, as the word is a pointer or
0 -/
def closeMark (s : Sys) (t fd : ℕ) : Sys :=
  let s := s.setSlot t fd none
  s.setSlot t 4 (some (((s.slot t 4).getD 0 + (2 ^ 32 - 1)) % 2 ^ 32))

/-- the loop of sys_exit over a table with a mark. What sys_close does to the memory at a pointer to no struct file is not
followed -/
def closeMarked (s : Sys) (t : ℕ) : List ℕ → Option Sys
  | [] => some s
  | fd :: fds =>
    match s.slot t fd with
    | none => closeMarked s t fds
    | some f =>
      if f = mark then closeMarked (closeMark s t fd) t fds
      else if f ∈ s.alloc then closeMarked (sysClose s t fd).2 t fds
      else none

/-- sys_open of a path that open_namei cannot read: do_page_fault, die and sys_exit. Without a free slot it is not read -/
def sysOpenFault (s : Sys) (t : ℕ) : Option Sys :=
  match getUnusedFd (s.fdt t) with
  | none => some s
  | some (_, fdt) => closeMarked (s.setTable t fdt) t (List.range nrOpen)

inductive Op
  | open_ (t flags : ℕ) (env : OpenEnv)
  | close (t fd : ℕ)
  | dup (t oldFd : ℕ)
  | dup2 (t oldFd newFd : ℕ)
  | kernelThread (t : ℕ) (new : Option ℕ)
  | exit (t : ℕ)

/-- kmalloc and get_free_page return memory that is not in use -/
def legal (s : Sys) : Op → Prop
  | .open_ t _ env => t ∈ s.tasks ∧ ∀ f ∈ env.memory, f ∉ s.alloc
  | .close t _ | .dup t _ | .dup2 t _ _ | .exit t => t ∈ s.tasks
  | .kernelThread t new => t ∈ s.tasks ∧ ∀ n ∈ new, n ∉ s.tasks

def step (s : Sys) : Op → Sys
  | .open_ t flags env => (sysOpen s t flags env).2
  | .close t fd => (sysClose s t fd).2
  | .dup t oldFd => (sysDup s t oldFd).2
  | .dup2 t oldFd newFd => (sysDup2 s t oldFd newFd).2
  | .kernelThread t new => Open.kernelThread s t new
  | .exit t => sysExit s t

/-- calls one after the other -/
def run (s : Sys) (os : List Op) : Sys := os.foldl step s

/-- one task with no descriptor -/
def Booted (s : Sys) : Prop :=
  (∃ t, s.tasks = {t} ∧ s.fdt t = List.replicate nrOpen none) ∧ s.alloc = ∅ ∧ s.iref = fun _ => 0

def system : Lts Sys Op where
  start := Booted
  step := fun s o s' => legal s o ∧ step s o = s'

/-- a call that comes to its end, or a sys_open that faults on its path -/
inductive Event
  | call (o : Op)
  | openFault (t : ℕ)

/-- the calls of all tasks, with those that end in a page fault -/
def machine : Lts Sys Event where
  start := Booted
  step := fun s e s' =>
    match e with
    | .call o => legal s o ∧ step s o = s'
    | .openFault t => t ∈ s.tasks ∧ sysOpenFault s t = some s'

/-- a sys_dup2 that overwrites an open descriptor -/
def Overwrites (s : Sys) : Event → Prop
  | .call (.dup2 t oldFd newFd) =>
    oldFd < nrOpen ∧ newFd < nrOpen ∧ (s.slot t oldFd).isSome ∧ (s.slot t newFd).isSome ∧ oldFd ≠ newFd
  | _ => False

/-- a sys_open that has marked a slot when it faults -/
def Faults (s : Sys) : Event → Prop
  | .openFault t => (getUnusedFd (s.fdt t)).isSome
  | _ => False

/-! ## Counting slots -/

namespace Sys

/-- the number of (task, fd) slots that point to f -/
def slots (s : Sys) (f : ℕ) : ℕ := ∑ t ∈ s.tasks, (s.fdt t).count (some f)

/-- the allocated struct files on inode i -/
def openOn (s : Sys) (i : ℕ) : Finset ℕ := s.alloc.filter fun f => (s.file f).inode = i

end Sys

variable {s s' : Sys} {t fd f : ℕ}

/-- one slot changes its value -/
theorem slots_setSlot (ht : t ∈ s.tasks) (hfd : fd < (s.fdt t).length) (x : Option ℕ) (g : ℕ) :
    (s.setSlot t fd x).slots g + (if s.slot t fd = some g then 1 else 0) = s.slots g + if x = some g then 1 else 0 := by
  have hslot : s.slot t fd = (s.fdt t)[fd] := by rw [Sys.slot, List.getElem?_eq_getElem hfd]; rfl
  have hother : ∑ u ∈ s.tasks.erase t, ((s.setSlot t fd x).fdt u).count (some g) =
      ∑ u ∈ s.tasks.erase t, (s.fdt u).count (some g) :=
    Finset.sum_congr rfl fun u hu => congrArg _ (if_neg (Finset.ne_of_mem_erase hu))
  have hself : (s.setSlot t fd x).fdt t = (s.fdt t).set fd x := if_pos rfl
  have hcount : ((s.fdt t).set fd x).count (some g) = (s.fdt t).count (some g) -
      (if s.slot t fd = some g then 1 else 0) + if x = some g then 1 else 0 := by
    rw [List.count_set hfd, hslot]
    simp only [beq_iff_eq]
  have hle : s.slot t fd = some g → 0 < (s.fdt t).count (some g) := fun h => by
    rw [List.count_pos_iff, ← h, hslot]
    exact List.getElem_mem hfd
  calc (s.setSlot t fd x).slots g + (if s.slot t fd = some g then 1 else 0)
      = ((s.fdt t).set fd x).count (some g) + ∑ u ∈ s.tasks.erase t, (s.fdt u).count (some g) +
          (if s.slot t fd = some g then 1 else 0) := by
        rw [Sys.slots, ← Finset.add_sum_erase _ _ (show t ∈ (s.setSlot t fd x).tasks from ht)]
        change _ + ∑ u ∈ s.tasks.erase t, _ + _ = _
        rw [hother, hself]
    _ = (s.fdt t).count (some g) + ∑ u ∈ s.tasks.erase t, (s.fdt u).count (some g) + (if x = some g then 1 else 0) := by
        rw [hcount]
        split_ifs with h1 h2
        · have := hle h1; omega
        · have := hle h1; omega
        · omega
        · omega
    _ = s.slots g + if x = some g then 1 else 0 := by rw [Sys.slots, ← Finset.add_sum_erase _ _ ht]

/-- the ref_counts are the numbers of slots, up to what is owed -/
structure Owes (s : Sys) (d : ℕ → ℤ) : Prop where
  len : ∀ t ∈ s.tasks, (s.fdt t).length = nrOpen
  refs : ∀ f ∈ s.alloc, (s.file f).refCount = s.slots f + d f
  live : ∀ t ∈ s.tasks, ∀ f, some f ∈ s.fdt t → f ∈ s.alloc
  inodes : ∀ i, s.iref i = (s.openOn i).card

/-- **The invariant.** Every struct file is counted by its slots, and every open inode by its struct files. -/
structure RefsOk (s : Sys) : Prop where
  owes : Owes s fun _ => 0
  used : ∀ f ∈ s.alloc, 0 < s.slots f

/-- what is owed for f alone -/
def owe (f : ℕ) (n : ℤ) : ℕ → ℤ := fun g => if g = f then n else 0

variable {d : ℕ → ℤ}

theorem Owes.slot_live (h : Owes s d) (ht : t ∈ s.tasks) (hf : s.slot t fd = some f) :
    fd < (s.fdt t).length ∧ f ∈ s.alloc := by
  rw [Sys.slot, Option.join_eq_some_iff] at hf
  have hlt := (List.getElem?_eq_some_iff.1 hf).1
  exact ⟨hlt, h.live t ht f (List.mem_of_getElem? hf)⟩

/-- a file that is not allocated has no slot -/
theorem Owes.slots_fresh (h : Owes s d) (hf : f ∉ s.alloc) : s.slots f = 0 :=
  Finset.sum_eq_zero fun t ht => List.count_eq_zero_of_not_mem fun hin => hf (h.live t ht f hin)

theorem slots_pos (ht : t ∈ s.tasks) (hin : some f ∈ s.fdt t) : 0 < s.slots f := by
  have hle := Finset.single_le_sum (f := fun u => (s.fdt u).count (some f)) (fun _ _ => Nat.zero_le _) ht
  have hpos := List.count_pos_iff.2 hin
  exact Nat.lt_of_lt_of_le hpos hle

theorem Owes.addRef (h : Owes s d) (n : ℤ) : Owes (s.addRef f n) (fun g => d g + owe f n g) := by
  refine ⟨h.len, fun g hg => ?_, h.live, fun i => ?_⟩
  · have hr := h.refs g hg
    by_cases hgf : g = f
    · subst hgf
      simp only [Sys.addRef, Sys.setFile, if_true, owe]
      rw [hr, add_assoc]
      rfl
    · simp only [Sys.addRef, Sys.setFile, hgf, if_false, owe, add_zero]
      exact hr
  · rw [show (s.addRef f n).iref i = s.iref i from rfl, h.inodes i]
    congr 2
    refine Finset.filter_congr fun g _ => ?_
    simp only [Sys.addRef, Sys.setFile]
    split_ifs with hgf
    · rw [hgf]
    · rfl

theorem Owes.setSlot (h : Owes s d) (ht : t ∈ s.tasks) (hfd : fd < nrOpen) (x : Option ℕ) (hx : ∀ g ∈ x, g ∈ s.alloc) :
    Owes (s.setSlot t fd x) fun g => d g + (if s.slot t fd = some g then 1 else 0) - if x = some g then 1 else 0 := by
  refine ⟨fun u hu => ?_, fun g hg => ?_, fun u hu g hin => ?_, h.inodes⟩
  · have hlen := h.len u hu
    simp only [Sys.setSlot]
    split_ifs with hut
    · subst hut; rw [List.length_set, hlen]
    · exact hlen
  · have hcount := slots_setSlot ht (by rw [h.len t ht]; exact hfd) x g
    have hr := h.refs g hg
    rw [show ((s.setSlot t fd x).file g).refCount = (s.file g).refCount from rfl, hr]
    split_ifs at hcount ⊢ <;> omega
  · simp only [Sys.setSlot] at hin
    split_ifs at hin with hut
    · rcases List.mem_or_eq_of_mem_set hin with hin | rfl
      · exact h.live t ht g hin
      · exact hx g rfl
    · exact h.live u hu g hin

/-- only the files that are allocated matter -/
theorem RefsOk.congr (h : RefsOk s) (ht : s'.tasks = s.tasks) (hfdt : s'.fdt = s.fdt) (ha : s'.alloc = s.alloc)
    (hi : s'.iref = s.iref) (hf : ∀ g ∈ s.alloc, s'.file g = s.file g) : RefsOk s' := by
  have hslots : ∀ g, s'.slots g = s.slots g := fun g => by simp only [Sys.slots, ht, hfdt]
  refine ⟨⟨by rw [ht, hfdt]; exact h.owes.len, fun g hg => ?_, by rw [ht, hfdt, ha]; exact h.owes.live, fun i => ?_⟩,
    fun g hg => by rw [hslots]; exact h.used g (ha ▸ hg)⟩
  · rw [ha] at hg
    rw [hf g hg, hslots]
    exact h.owes.refs g hg
  · rw [hi, h.owes.inodes i]
    congr 2
    change s.alloc.filter _ = s'.alloc.filter _
    rw [ha]
    exact Finset.filter_congr fun g hg => by rw [hf g hg]

/-! ## One call at a time -/

theorem slot_setSlot_ne {u k : ℕ} (x : Option ℕ) (hk : k ≠ fd) : (s.setSlot t fd x).slot u k = s.slot u k := by
  simp only [Sys.slot, Sys.setSlot]
  split_ifs with hu
  · rw [List.getElem?_set_ne (Ne.symm hk), hu]
  · rfl

/-- a struct file without slots is freed -/
theorem Owes.freeFile (h : Owes s fun _ => 0) (hf : f ∈ s.alloc) (h0 : s.slots f = 0) : Owes (s.freeFile f) fun _ => 0 := by
  refine ⟨h.len, fun g hg => h.refs g (Finset.mem_of_mem_erase hg), fun t ht g hin => ?_, fun i => ?_⟩
  · refine Finset.mem_erase.2 ⟨?_, h.live t ht g hin⟩
    rintro rfl
    have hpos : 0 < s.slots g := slots_pos ht hin
    omega
  · have hfilter : (s.freeFile f).openOn i = (s.openOn i).erase f := Finset.filter_erase ..
    have hi := h.inodes i
    rw [hfilter]
    simp only [Sys.freeFile, Sys.addIref]
    split_ifs with hif
    · have hin : f ∈ s.openOn i := Finset.mem_filter.2 ⟨hf, hif.symm⟩
      have hpos := Finset.card_pos.2 ⟨f, hin⟩
      rw [Finset.card_erase_of_mem hin, hi]
      omega
    · have hnin : f ∉ s.openOn i := fun hin => hif (Finset.mem_filter.1 hin).2.symm
      rw [Finset.erase_eq_of_notMem hnin, hi]

theorem close_ok (h : RefsOk s) (ht : t ∈ s.tasks) (fd : ℕ) : RefsOk (sysClose s t fd).2 := by
  rw [sysClose]
  split_ifs with hfd
  · exact h
  have hfd : fd < nrOpen := Nat.lt_of_not_le hfd
  cases hslot : s.slot t fd with
  | none => exact h
  | some f =>
    obtain ⟨hlt, hf⟩ := h.owes.slot_live ht hslot
    have ho := (h.owes.setSlot ht hfd none (by simp)).addRef (f := f) (-1)
    have hd : (fun g => (0 : ℤ) + (if s.slot t fd = some g then 1 else 0) - (if (none : Option ℕ) = some g then 1 else 0) +
        owe f (-1) g) = fun _ => 0 := by
      funext g
      rw [hslot]
      by_cases hg : g = f
      · subst hg; simp [owe]
      · simp [owe, hg, Ne.symm hg]
    rw [hd] at ho
    -- the other files keep their slots
    have hcount := slots_setSlot ht hlt none (s := s)
    have hother : ∀ g ∈ s.alloc, g ≠ f → 0 < (s.setSlot t fd none).slots g := fun g hg hne => by
      have h1 := hcount g
      have h2 := h.used g hg
      rw [hslot] at h1
      simp only [Option.some.injEq, Ne.symm hne, if_false, reduceCtorEq] at h1
      omega
    set s2 := (s.setSlot t fd none).addRef f (-1) with hs2
    have hr := ho.refs f hf
    change RefsOk (if (s2.file f).refCount = 0 then s2.freeFile f else s2)
    split_ifs with hz
    · refine ⟨ho.freeFile hf (by omega), fun g hg => ?_⟩
      exact hother g (Finset.mem_of_mem_erase hg) (Finset.ne_of_mem_erase hg)
    · refine ⟨ho, fun g hg => ?_⟩
      by_cases hgf : g = f
      · subst hgf; omega
      · exact hother g hg hgf

/-- an empty slot gets a counted pointer to an open file -/
theorem RefsOk.point (h : RefsOk s) (ht : t ∈ s.tasks) (hfd : fd < nrOpen) (hnone : s.slot t fd = none) (hf : f ∈ s.alloc) :
    RefsOk ((s.setSlot t fd (some f)).addRef f 1) := by
  have ho := (h.owes.setSlot ht hfd (some f) (by simpa using hf)).addRef (f := f) 1
  have hd : (fun g => (0 : ℤ) + (if s.slot t fd = some g then 1 else 0) - (if some f = some g then 1 else 0) +
      owe f 1 g) = fun _ => 0 := by
    funext g
    rw [hnone]
    by_cases hg : g = f
    · subst hg; simp [owe]
    · simp [owe, hg, Ne.symm hg]
  rw [hd] at ho
  refine ⟨ho, fun g hg => ?_⟩
  have h1 := slots_setSlot ht (by rw [h.owes.len t ht]; exact hfd) (some f) g (s := s)
  have h2 := h.used g hg
  rw [hnone, if_neg (by simp)] at h1
  change 0 < (s.setSlot t fd (some f)).slots g
  omega

theorem getUnusedFd_spec {fdt fdt' : List (Option ℕ)} (h : getUnusedFd fdt = some (fd, fdt')) :
    fd < fdt.length ∧ (fdt[fd]?).join = none ∧ fdt' = fdt.set fd (some mark) := by
  obtain ⟨k, hk, heq⟩ := Option.map_eq_some_iff.1 h
  obtain ⟨rfl, rfl⟩ := Prod.mk.inj heq
  obtain ⟨hlt, hnone, -⟩ := List.findIdx?_eq_some_iff_getElem.1 hk
  exact ⟨hlt, by rw [List.getElem?_eq_getElem hlt]; simpa using hnone, rfl⟩

/-- the mark is gone when the slot is set -/
theorem setSlot_marked {fdt : List (Option ℕ)} (h : getUnusedFd (s.fdt t) = some (fd, fdt)) (x : Option ℕ) :
    (s.setTable t fdt).setSlot t fd x = s.setSlot t fd x := by
  obtain ⟨-, -, rfl⟩ := getUnusedFd_spec h
  simp only [Sys.setTable, Sys.setSlot, if_true, List.set_set]
  congr 1
  funext u
  split_ifs <;> rfl

theorem setSlot_same (hlt : fd < (s.fdt t).length) (hnone : s.slot t fd = none) : s.setSlot t fd none = s := by
  have hset : (s.fdt t).set fd none = s.fdt t := by
    rw [Sys.slot, List.getElem?_eq_getElem hlt, Option.join_some] at hnone
    rw [← hnone, List.set_getElem_self]
  have hfdt : (fun u => if u = t then (s.fdt t).set fd none else s.fdt u) = s.fdt := by
    funext u
    split_ifs with hu
    · rw [hu, hset]
    · rfl
  rw [Sys.setSlot, hfdt]

/-- sys_open as its caller sees it, when there is a free slot -/
theorem sysOpen_eq {fdt : List (Option ℕ)} (h : getUnusedFd (s.fdt t) = some (fd, fdt)) (flags : ℕ) (env : OpenEnv) :
    sysOpen s t flags env =
      match env.inode with
      | none => (-error, s)
      | some i =>
        let s := s.addIref i 1
        match env.memory with
        | none => (-eNomem, s.addIref i (-1))
        | some f =>
          let s := { s.setFile f ⟨flags &&& oMask, 0, i, 1⟩ with alloc := insert f s.alloc }.setSlot t fd (some f)
          if env.ok then (fd, s) else (-error, (s.freeFile f).setSlot t fd none) := by
  obtain ⟨hlt, hnone, -⟩ := getUnusedFd_spec h
  rw [sysOpen, h]
  cases env.inode with
  | none =>
    dsimp only
    rw [setSlot_marked h, setSlot_same hlt hnone]
  | some i =>
    cases env.memory with
    | none =>
      have hmark : (((s.setTable t fdt).addIref i 1).addIref i (-1)).setSlot t fd none =
          ((((s.setTable t fdt).setSlot t fd none).addIref i 1).addIref i (-1)) := rfl
      dsimp only
      rw [hmark, setSlot_marked h, setSlot_same hlt hnone]
    | some f =>
      have hmark : { ((s.setTable t fdt).addIref i 1).setFile f ⟨flags &&& oMask, 0, i, 1⟩ with
            alloc := insert f s.alloc }.setSlot t fd (some f) =
          { (((s.setTable t fdt).setSlot t fd (some f)).addIref i 1).setFile f ⟨flags &&& oMask, 0, i, 1⟩ with
            alloc := insert f s.alloc } := rfl
      rw [setSlot_marked h] at hmark
      exact congrArg (fun s : Sys => if env.ok then ((fd : ℤ), s) else (-error, (s.freeFile f).setSlot t fd none)) hmark

/-- sys_dup changes nothing, or puts a struct file of the table into a free slot -/
theorem dup_cases (s : Sys) (t oldFd : ℕ) : (sysDup s t oldFd).2 = s ∨ ∃ f newFd fdt, s.slot t oldFd = some f ∧
    getUnusedFd (s.fdt t) = some (newFd, fdt) ∧ (sysDup s t oldFd).2 = (s.setSlot t newFd (some f)).addRef f 1 := by
  rw [sysDup]
  split_ifs
  · exact Or.inl rfl
  cases hslot : s.slot t oldFd with
  | none => exact Or.inl rfl
  | some f =>
    cases hnew : getUnusedFd (s.fdt t) with
    | none => exact Or.inl rfl
    | some r =>
      obtain ⟨newFd, fdt⟩ := r
      exact Or.inr ⟨f, newFd, fdt, rfl, rfl, congrArg (Sys.addRef · f 1) (setSlot_marked hnew (some f))⟩

theorem dup_ok (h : RefsOk s) (ht : t ∈ s.tasks) (oldFd : ℕ) : RefsOk (sysDup s t oldFd).2 := by
  rcases dup_cases s t oldFd with heq | ⟨f, newFd, fdt, hslot, hnew, heq⟩
  · rw [heq]
    exact h
  · obtain ⟨hlt, hnone, -⟩ := getUnusedFd_spec hnew
    rw [heq]
    exact h.point ht (by rwa [h.owes.len t ht] at hlt) hnone (h.owes.slot_live ht hslot).2

/-- the loop of kernel_thread: the slots of the new table from fd on are still empty -/
theorem copyTable_ok (fs : List (Option ℕ)) (fd : ℕ) (h : RefsOk s) (ht : t ∈ s.tasks) (hlen : fd + fs.length ≤ nrOpen)
    (hnone : ∀ k, fd ≤ k → s.slot t k = none) (hfs : ∀ f, some f ∈ fs → f ∈ s.alloc) :
    RefsOk (copyTable s t fs fd) := by
  induction fs generalizing s fd with
  | nil => exact h
  | cons x fs ih =>
    rw [List.length_cons] at hlen
    have hrest : ∀ x, ∀ k, fd + 1 ≤ k → (s.setSlot t fd x).slot t k = none := fun x k hk => by
      rw [slot_setSlot_ne _ (by omega)]; exact hnone k (by omega)
    have htail : ∀ f, some f ∈ fs → f ∈ s.alloc := fun f hf => hfs f (List.mem_cons_of_mem _ hf)
    cases x with
    | none =>
      refine ih (fd + 1) ?_ ht (by omega) (hrest none) htail
      refine h.congr rfl ?_ rfl rfl fun _ _ => rfl
      funext u
      simp only [Sys.setSlot]
      split_ifs with hu
      · subst hu
        have hlt : fd < (s.fdt u).length := by rw [h.owes.len u ht]; omega
        have hfd := hnone fd le_rfl
        rw [Sys.slot, List.getElem?_eq_getElem hlt, Option.join_some] at hfd
        rw [← hfd, List.set_getElem_self]
      · rfl
    | some f =>
      have hpoint := h.point ht (by omega) (hnone fd le_rfl) (hfs f List.mem_cons_self)
      exact ih (fd + 1) hpoint ht (by omega) (hrest (some f)) htail

theorem kernelThread_ok (h : RefsOk s) (ht : t ∈ s.tasks) {new : Option ℕ} (hnew : ∀ n ∈ new, n ∉ s.tasks) :
    RefsOk (kernelThread s t new) := by
  cases new with
  | none => exact h
  | some n =>
    have hn : n ∉ s.tasks := hnew n rfl
    set s1 : Sys := { s with
      tasks := insert n s.tasks
      fdt := fun u => if u = n then List.replicate nrOpen none else s.fdt u } with hs1
    have hself : s1.fdt n = List.replicate nrOpen none := if_pos rfl
    have hother : ∀ u ∈ s.tasks, s1.fdt u = s.fdt u := fun u hu => if_neg (by rintro rfl; exact hn hu)
    have hslots : ∀ g, s1.slots g = s.slots g := fun g => by
      rw [Sys.slots, hs1]
      simp only [Finset.sum_insert hn, if_true]
      rw [List.count_eq_zero_of_not_mem (by simp), zero_add]
      exact Finset.sum_congr rfl fun u hu => congrArg _ (hother u hu)
    have hok : RefsOk s1 := by
      refine ⟨⟨fun u hu => ?_, fun g hg => ?_, fun u hu g hin => ?_, h.owes.inodes⟩, fun g hg => ?_⟩
      · rcases Finset.mem_insert.1 hu with rfl | hu
        · rw [hself, List.length_replicate]
        · rw [hother u hu, h.owes.len u hu]
      · rw [hslots]; exact h.owes.refs g hg
      · rcases Finset.mem_insert.1 hu with rfl | hu
        · rw [hself] at hin; simp at hin
        · rw [hother u hu] at hin; exact h.owes.live u hu g hin
      · rw [hslots]; exact h.used g hg
    refine copyTable_ok (s.fdt t) 0 hok (Finset.mem_insert_self n s.tasks) (by rw [h.owes.len t ht]; omega) (fun k _ => ?_)
      fun f hf => h.owes.live t ht f hf
    rw [Sys.slot, hself]
    by_cases hk : k < nrOpen
    · rw [List.getElem?_replicate_of_lt hk]; rfl
    · rw [List.getElem?_eq_none (by rw [List.length_replicate]; omega)]; rfl

theorem close_tasks (s : Sys) (t fd : ℕ) : (sysClose s t fd).2.tasks = s.tasks := by
  rw [sysClose]
  split_ifs
  · rfl
  cases s.slot t fd with
  | none => rfl
  | some f => dsimp only; split_ifs <;> rfl

theorem closeAll_ok (fds : List ℕ) (h : RefsOk s) (ht : t ∈ s.tasks) : RefsOk (closeAll s t fds) := by
  induction fds generalizing s with
  | nil => exact h
  | cons fd fds ih =>
    rw [closeAll]
    split_ifs
    · exact ih (close_ok h ht fd) (by rwa [close_tasks])
    · exact ih h ht

/-- a new struct file and its slot -/
theorem RefsOk.opened (h : RefsOk s) (ht : t ∈ s.tasks) (hfd : fd < nrOpen) (hnone : s.slot t fd = none) (hf : f ∉ s.alloc)
    (flags i : ℕ) :
    RefsOk ({ (s.addIref i 1).setFile f ⟨flags, 0, i, 1⟩ with alloc := insert f s.alloc }.setSlot t fd (some f)) := by
  set s1 : Sys := { (s.addIref i 1).setFile f ⟨flags, 0, i, 1⟩ with alloc := insert f s.alloc } with hs1
  have hself : s1.file f = ⟨flags, 0, i, 1⟩ := if_pos rfl
  have hother : ∀ g ∈ s.alloc, s1.file g = s.file g := fun g hg => if_neg (by rintro rfl; exact hf hg)
  have h0 := h.owes.slots_fresh hf
  have ho : Owes s1 (owe f 1) := by
    refine ⟨h.owes.len, fun g hg => ?_, fun u hu g hin => Finset.mem_insert_of_mem (h.owes.live u hu g hin), fun j => ?_⟩
    · change _ = ((s.slots g : ℕ) : ℤ) + _
      rcases Finset.mem_insert.1 hg with rfl | hg
      · rw [hself, h0]; simp [owe]
      · have hne : g ≠ f := fun he => hf (he ▸ hg)
        rw [hother g hg, h.owes.refs g hg, owe, if_neg hne]
    · have hi := h.owes.inodes j
      have hold : (s.alloc.filter fun g => (s1.file g).inode = j) = s.openOn j :=
        Finset.filter_congr fun g hg => by rw [hother g hg]
      have hnin : f ∉ s.openOn j := fun hin => hf (Finset.mem_filter.1 hin).1
      rw [Sys.openOn]
      change (if j = i then s.iref j + 1 else s.iref j) = ((Finset.filter _ (insert f s.alloc)).card : ℤ)
      rw [Finset.filter_insert, hself]
      by_cases hji : j = i
      · rw [if_pos hji, if_pos hji.symm, hold, Finset.card_insert_of_notMem hnin, hi]; push_cast; rfl
      · rw [if_neg hji, if_neg (Ne.symm hji), hold, hi]
  have hnone1 : s1.slot t fd = none := hnone
  have hset := ho.setSlot ht hfd (some f) (by simp [hs1])
  have hd : (fun g => owe f 1 g + (if s1.slot t fd = some g then 1 else 0) - if some f = some g then 1 else 0) =
      fun _ => (0 : ℤ) := by
    funext g
    rw [hnone1]
    by_cases hg : g = f
    · subst hg; simp [owe]
    · simp [owe, hg, Ne.symm hg]
  rw [hd] at hset
  refine ⟨hset, fun g hg => ?_⟩
  have hlen : fd < (s1.fdt t).length := by
    change fd < (s.fdt t).length
    rw [h.owes.len t ht]; exact hfd
  have h1 := slots_setSlot (s := s1) ht hlen (some f) g
  rw [hnone1, if_neg (by simp)] at h1
  rcases Finset.mem_insert.1 hg with rfl | hg
  · rw [if_pos rfl] at h1; omega
  · have h2 : 0 < s1.slots g := h.used g hg
    omega

theorem open_ok (h : RefsOk s) (ht : t ∈ s.tasks) {flags : ℕ} {env : OpenEnv} (hm : ∀ f ∈ env.memory, f ∉ s.alloc) :
    RefsOk (sysOpen s t flags env).2 := by
  cases hfd : getUnusedFd (s.fdt t) with
  | none =>
    rw [sysOpen, hfd]
    exact h
  | some r =>
    obtain ⟨fd, fdt⟩ := r
    rw [sysOpen_eq hfd]
    cases env.inode with
    | none => exact h
    | some i =>
      have hiref : (fun j => if j = i then (if j = i then s.iref j + 1 else s.iref j) + -1
          else if j = i then s.iref j + 1 else s.iref j) = s.iref := by
        funext j; split_ifs <;> ring
      cases hmem : env.memory with
      | none => exact h.congr rfl rfl rfl hiref fun _ _ => rfl
      | some f =>
        have hf := hm f hmem
        obtain ⟨hlt, hnone, -⟩ := getUnusedFd_spec hfd
        rw [h.owes.len t ht] at hlt
        dsimp only
        split_ifs with hok
        · exact h.opened ht hlt hnone hf _ i
        · -- the slot, the file and the reference are taken back
          refine h.congr rfl ?_ (Finset.erase_insert hf) ?_ fun g hg => if_neg (by rintro rfl; exact hf hg)
          · funext u
            simp only [Sys.setSlot, Sys.freeFile, Sys.addIref, Sys.setFile, if_true]
            split_ifs with hu
            · subst hu
              have hl : fd < (s.fdt u).length := by rw [h.owes.len u ht]; exact hlt
              have hget : (s.fdt u)[fd] = none := by
                rw [List.getElem?_eq_getElem hl, Option.join_some] at hnone; exact hnone
              rw [List.set_set, ← hget, List.set_getElem_self]
            · rfl
          · set s2 : Sys := ({ (s.addIref i 1).setFile f ⟨flags &&& oMask, 0, i, 1⟩ with
              alloc := insert f (s.addIref i 1).alloc } : Sys).setSlot t fd (some f) with hs2
            have hino : (s2.file f).inode = i := by simp [hs2, Sys.setSlot, Sys.setFile]
            change (s2.addIref (s2.file f).inode (-1)).iref = s.iref
            rw [hino]
            exact hiref

/-! ## Runs -/

theorem dup2_same {old new : ℕ} (h : ¬ Overwrites s (.call (.dup2 t old new))) : (sysDup2 s t old new).2 = s := by
  rw [sysDup2]
  by_cases hr : nrOpen ≤ old ∨ nrOpen ≤ new
  · rw [if_pos hr]
  rw [if_neg hr]
  rw [not_or, not_le, not_le] at hr
  cases hold : s.slot t old with
  | none => rfl
  | some x =>
    cases hnew : s.slot t new with
    | none => rfl
    | some y =>
      have heq : old = new := by
        by_contra hne
        exact h ⟨hr.1, hr.2, by rw [hold]; rfl, by rw [hnew]; rfl, hne⟩
      exact congrArg Prod.snd (if_pos heq)

theorem step_ok {o : Op} (h : RefsOk s) (hl : legal s o) (hno : ¬ Overwrites s (.call o)) : RefsOk (step s o) := by
  cases o with
  | open_ t flags env => exact open_ok h hl.1 hl.2
  | close t fd => exact close_ok h hl fd
  | dup t oldFd => exact dup_ok h hl oldFd
  | dup2 t oldFd newFd => rw [step, dup2_same hno]; exact h
  | kernelThread t new => exact kernelThread_ok h hl.1 hl.2
  | exit t => exact closeAll_ok _ h hl

theorem machine_ok {e : Event} (h : RefsOk s) (hno : ¬ Overwrites s e ∧ ¬ Faults s e) (hst : machine.step s e s') :
    RefsOk s' := by
  cases e with
  | call o => exact hst.2 ▸ step_ok h hst.1 hno.1
  | openFault t =>
    obtain ⟨-, hrun⟩ := hst
    cases hfd : getUnusedFd (s.fdt t) with
    | none =>
      rw [sysOpenFault, hfd] at hrun
      cases hrun
      exact h
    | some r => exact absurd (show (getUnusedFd (s.fdt t)).isSome by rw [hfd]; rfl) hno.2

theorem empty_ok (hempty : ∀ u ∈ s.tasks, s.fdt u = List.replicate nrOpen none) (ha : s.alloc = ∅)
    (hi : s.iref = fun _ => 0) :
    RefsOk s := by
  refine ⟨⟨fun u hu => ?_, fun f hf => ?_, fun u hu f hin => ?_, fun i => ?_⟩, fun f hf => ?_⟩
  · rw [hempty u hu, List.length_replicate]
  · rw [ha] at hf; exact absurd hf (Finset.notMem_empty f)
  · rw [hempty u hu] at hin; simp at hin
  · simp [hi, Sys.openOn, ha]
  · rw [ha] at hf; exact absurd hf (Finset.notMem_empty f)

theorem boot_ok (hb : Booted s) : RefsOk s := by
  obtain ⟨⟨t, ht, hfdt⟩, ha, hi⟩ := hb
  refine empty_ok (fun u hu => ?_) ha hi
  rw [ht] at hu
  rw [Finset.mem_singleton.1 hu, hfdt]

/-- **Struct files are counted by descriptors.** While no sys_dup2 overwrites an open descriptor and no sys_open faults with a
slot marked: the ref_count of every allocated struct file is the number of slots that point to it, every slot points to an
allocated one, an inode has one reference for each struct file on it, and a step frees a struct file exactly when it clears the
last of its slots. -/
theorem refs_reachable (h : (machine.only fun s e => ¬ Overwrites s e ∧ ¬ Faults s e).Reach s) :
    (∀ f ∈ s.alloc, (s.file f).refCount = s.slots f) ∧
    (∀ t ∈ s.tasks, ∀ fd f, s.slot t fd = some f → f ∈ s.alloc) ∧
    (∀ i, s.iref i = (s.openOn i).card) ∧
    ∀ e s', ¬ Overwrites s e ∧ ¬ Faults s e → machine.step s e s' → ∀ f ∈ s.alloc, f ∉ s'.alloc ↔
    s'.slots f = 0 := by
  have hok : RefsOk s := Lts.Reach.inv (M := machine.only fun s e => ¬ Overwrites s e ∧ ¬ Faults s e) (P := RefsOk)
    (fun _ => boot_ok) (fun _ _ _ hi hst => machine_ok hi hst.1 hst.2) h
  refine ⟨fun f hf => by rw [hok.owes.refs f hf, add_zero], fun t ht fd f hs => (hok.owes.slot_live ht hs).2,
    hok.owes.inodes, fun e s' hno hst f _ => ?_⟩
  have hok' : RefsOk s' := machine_ok hok hno hst
  exact ⟨hok'.owes.slots_fresh, fun h0 hin => (hok'.used f hin).ne' h0⟩

/-! ## One task -/

def boot : Sys := ⟨{0}, fun _ => List.replicate nrOpen none, ∅, fun _ => ⟨0, 0, 0, 0⟩, fun _ => 0⟩

theorem booted_boot : Booted boot := ⟨⟨0, rfl, rfl⟩, rfl, rfl⟩

def openA : Op := .open_ 0 0 ⟨some 7, some 100, true⟩

def openB : Op := .open_ 0 0 ⟨some 8, some 101, true⟩

/-- a call that overwrites nothing -/
theorem reach_call {o : Op} (h : (machine.only fun s e => ¬ Overwrites s e ∧ ¬ Faults s e).Reach s) (hl : legal s o)
    (hno : ¬ Overwrites s (.call o)) : (machine.only fun s e => ¬ Overwrites s e ∧ ¬ Faults s e).Reach (step s o) :=
  .step (e := .call o) h ⟨⟨hno, fun hf => hf⟩, hl, rfl⟩

/-- a file is opened and dup'ed, a child gets the table, and the parent closes the first descriptor -/
theorem refs_opened : ((run boot [openA, .dup 0 0, .kernelThread 0 (some 1), .close 0 0]).file 100).refCount = 3 := by
  have h0 : (machine.only fun s e => ¬ Overwrites s e ∧ ¬ Faults s e).Reach boot := .start booted_boot
  have h1 := reach_call (o := openA) h0 ⟨by decide, by decide⟩ fun hno => hno
  have h2 := reach_call (o := .dup 0 0) h1 (by decide : 0 ∈ boot.tasks) fun hno => hno
  have h3 := reach_call (o := .kernelThread 0 (some 1)) h2 ⟨by decide, by decide⟩ fun hno => hno
  have h4 := reach_call (o := .close 0 0) h3 (by decide : 0 ∈ ({1, 0} : Finset ℕ)) fun hno => hno
  exact ((refs_reachable h4).1 100 (by decide)).trans (by decide)

/-- two opened files and a sys_dup2 of the first one over the second one -/
def overwritten : Sys := run boot [openA, openB, .dup2 0 0 1]

theorem dup2_leaks : machine.Reach overwritten ∧ 101 ∈ overwritten.alloc ∧ (overwritten.file 101).refCount = 1 ∧
    overwritten.slots 101 = 0 ∧ overwritten.iref 8 = 1 := by
  refine ⟨?_, by decide, by decide, by decide, by decide⟩
  have hA : machine.Reach (step boot openA) :=
    .step (e := .call openA) (.start booted_boot) ⟨(⟨by decide, by decide⟩ : legal boot openA), rfl⟩
  have hB : machine.Reach (step (step boot openA) openB) :=
    .step (e := .call openB) hA ⟨(⟨by decide, by decide⟩ : legal (step boot openA) openB), rfl⟩
  exact .step (e := .call (.dup2 0 0 1)) hB ⟨(by decide : 0 ∈ boot.tasks), rfl⟩

/-- one opened file with five descriptors -/
def five : Sys := run boot [openA, .dup 0 0, .dup 0 0, .dup 0 0, .dup 0 0]

/-- a sys_open that faults leaves -1 in slot 4 -/
theorem fault_wild : ∃ s, machine.Reach s ∧ s.slot 0 4 = some (2 ^ 32 - 1) ∧ 2 ^ 32 - 1 ∉ s.alloc := by
  have h1 : machine.Reach (step boot openA) :=
    .step (e := .call openA) (.start booted_boot) ⟨(⟨by decide, by decide⟩ : legal boot openA), rfl⟩
  have hdup : ∀ {s}, machine.Reach s → 0 ∈ s.tasks → machine.Reach (step s (.dup 0 0)) := fun h ht =>
    .step (e := .call (.dup 0 0)) h ⟨ht, rfl⟩
  have h5 : machine.Reach five := hdup (hdup (hdup (hdup h1 (by decide)) (by decide)) (by decide)) (by decide)
  obtain ⟨s, hs⟩ : ∃ s, sysOpenFault five 0 = some s := Option.isSome_iff_exists.1 (by decide)
  have hslot : (sysOpenFault five 0).map (fun s => s.slot 0 4) = some (some (2 ^ 32 - 1)) := by decide
  have halloc : (sysOpenFault five 0).map Sys.alloc = some ∅ := by decide
  rw [hs] at hslot halloc
  refine ⟨s, .step (e := .openFault 0) h5 ⟨by decide, hs⟩, Option.some.inj hslot, ?_⟩
  rw [Option.some.inj halloc]
  exact Finset.notMem_empty _

end SinsOs.Open
