/-
Character devices (fs/char_dev.c): the table of drivers, and struct files that are opened, used and closed on it while drivers
come and go.

register_chrdev and unregister_chrdev have interrupts off and are one step each. chrdev_open, chrdev_close and the operations
between them read device->fops anew each time they need it, and every read is a step of its own: a driver's function may
sleep. The function of a driver is not modelled; its result is a parameter of the step in which it returns. `none` is a BUG or
a call through a NULL pointer. Names are the bytes before the NUL, for which strcmp says whether they are equal
(`Lib.strcmp_eq_zero`). The caller passes a string as name, and a struct file is closed when nothing is done with it any
more: the last descriptor is gone (fs/open.c), and a task in a system call has one.

- `driver_stays`: every function that is called for a struct file is a function of the driver that chrdev_open found, and no
  read of device->fops finds NULL; the ref_count of a driver is the struct files that are not closed, also those that are
  being opened.
- `unregister_iff`: a driver can go exactly when there are none of these.
-/
import SinsOs.Core.Guard
import SinsOs.Core.Lts
import SinsOs.Lib.Str

namespace SinsOs.CharDev

open SinsOs.Core SinsOs.Lib SinsOs.Guard

/-! ## Model -/

def nrChrdevs : ℕ := 32

/-- of a 32-bit dev_t -/
def majorOf (dev : ℕ) : ℕ := dev >>> 20

inductive Fn
  | open | read | write | ioctl | lseek | close
deriving DecidableEq, Repr

/-- struct file_operations: the functions that are not NULL -/
abbrev FileOperations := Fn → Bool

/-- drivers/tty.c -/
def ttyFops : FileOperations
  | .open | .read | .write | .close => true
  | .ioctl | .lseek => false

/-- drivers/proc.c -/
def procFops : FileOperations
  | .read => true
  | _ => false

abbrev Name := List Byte

/-- struct char_device; `fops` is an address -/
structure CharDevice where
  name : Option Name
  fops : Option ℕ
  refCount : ℤ
deriving DecidableEq, Repr

/-- the loop of register_chrdev over the majors from `major` down to 1 -/
def freeMajor (chrdevs : ℕ → CharDevice) : ℕ → Option ℕ
  | 0 => none
  | major + 1 => if (chrdevs (major + 1)).fops = none then some (major + 1) else freeMajor chrdevs major

def setDriver (chrdevs : ℕ → CharDevice) (major : ℕ) (name : Option Name) (fops : Option ℕ) : ℕ → CharDevice :=
  Function.update chrdevs major { chrdevs major with name, fops }

def registerChrdev (chrdevs : ℕ → CharDevice) (major : ℕ) (name : Name) (fops : Option ℕ) : ℤ × (ℕ → CharDevice) :=
  match fops with
  | none => (-error, chrdevs)
  | some fops =>
    if nrChrdevs ≤ major then (-eInval, chrdevs)
    else if major = 0 then
      match freeMajor chrdevs (nrChrdevs - 1) with
      | some major => (major, setDriver chrdevs major (some name) (some fops))
      | none => (-eBusy, chrdevs)
    else if (chrdevs major).fops ≠ none ∧ (chrdevs major).fops ≠ some fops then (-eBusy, chrdevs)
    else (success, setDriver chrdevs major (some name) (some fops))

def unregisterChrdev (chrdevs : ℕ → CharDevice) (major : ℕ) (name : Name) : ℤ × (ℕ → CharDevice) :=
  if nrChrdevs ≤ major then (-eInval, chrdevs)
  else if (chrdevs major).refCount ≠ 0 then (-eBusy, chrdevs)
  else if (chrdevs major).fops = none ∨ (chrdevs major).name ≠ some name then (-eInval, chrdevs)
  else (success, setDriver chrdevs major none none)

/-- where a struct file is -/
inductive Pc
  -- chrdev_open has raised ref_count
  | counted
  -- device->fops was not NULL
  | found
  -- device->fops->open was not NULL and is called next
  | calling
  | inOpen
  -- chrdev_open lowers ref_count next
  | failed
  | opened
  -- device->fops->close was not NULL and is called next
  | closing
  | inClose
  -- chrdev_close lowers ref_count next
  | leaving
  | closed
deriving DecidableEq, Repr

/-- `fops` is what chrdev_open found, and nothing in the code reads it -/
structure File where
  major : ℕ
  fops : Option ℕ
  pc : Pc
deriving DecidableEq, Repr

/-- a call of a driver's function for a struct file, through the table at `fops` -/
structure Call where
  file : ℕ
  fops : ℕ
  fn : Fn
deriving DecidableEq, Repr

/-- `pending` are the operations that saw their function in the table and call it next; `calls` are the calls so far -/
structure Sys where
  chrdevs : ℕ → CharDevice
  files : List File
  pending : List (ℕ × Fn)
  calls : List Call

namespace Sys

variable (s : Sys)

def put (i : ℕ) (f : File) : Sys := { s with files := s.files.set i f }

/-- `device->fops`, read for the struct file f -/
def fops (f : File) : Option ℕ := (s.chrdevs f.major).fops

def addCount (major : ℕ) (n : ℤ) : Sys :=
  { s with chrdevs := Function.update s.chrdevs major { s.chrdevs major with refCount := (s.chrdevs major).refCount + n } }

def log (c : Call) : Sys := { s with calls := c :: s.calls }

end Sys

variable (tables : ℕ → FileOperations)

/-- chrdev_open up to the atomic_inc -/
def chrdevOpen (s : Sys) (rdev : ℕ) : Option Sys :=
  if nrChrdevs ≤ majorOf rdev then none
  else
    let s := s.addCount (majorOf rdev) 1
    some { s with files := s.files ++ [⟨majorOf rdev, none, .counted⟩] }

/-- `device->fops != NULL` -/
def lookFops (s : Sys) (i : ℕ) (f : File) : Sys :=
  match s.fops f with
  | none => s.put i { f with pc := .failed }
  | some d => s.put i { f with fops := some d, pc := .found }

/-- `device->fops->fn != NULL`: the struct file goes on to the call, or past it -/
def testFn (s : Sys) (i : ℕ) (f : File) (fn : Fn) (call past : Pc) : Option Sys :=
  (s.fops f).map fun d => s.put i { f with pc := if tables d fn then call else past }

/-- `device->fops->fn(...)` -/
def callFn (s : Sys) (i : ℕ) (f : File) (fn : Fn) : Option Sys :=
  (s.fops f).bind fun d => if tables d fn then some (s.log ⟨i, d, fn⟩) else none

/-- the driver's open returns -/
def openReturn (s : Sys) (i : ℕ) (f : File) (ret : ℤ) : Sys := s.put i { f with pc := if ret < 0 then .failed else .opened }

/-- atomic_dec, the last step of chrdev_open and chrdev_close -/
def lower (s : Sys) (i : ℕ) (f : File) : Sys := (s.put i { f with pc := .closed }).addCount f.major (-1)

/-- the test of chrdev_read, chrdev_write, chrdev_ioctl and chrdev_lseek -/
def testOp (s : Sys) (i : ℕ) (f : File) (fn : Fn) : Option Sys :=
  (s.fops f).map fun d => if tables d fn then { s with pending := s.pending ++ [(i, fn)] } else s

inductive Op
  | register (major : ℕ) (name : Name) (fops : Option ℕ)
  | unregister (major : ℕ) (name : Name)
  | open (rdev : ℕ)
  | look (i : ℕ)
  | testOpen (i : ℕ)
  | callOpen (i : ℕ)
  | openReturn (i : ℕ) (ret : ℤ)
  | testOp (i : ℕ) (fn : Fn)
  -- the j-th pending operation calls its function
  | callOp (j : ℕ)
  | testClose (i : ℕ)
  | callClose (i : ℕ)
  | closeReturn (i : ℕ)
  | lower (i : ℕ)
deriving DecidableEq, Repr

def Sys.At (s : Sys) (i : ℕ) (pc : Pc) : Prop := (s.files[i]?).map File.pc = some pc

/-- each struct file takes its steps in the order of the code -/
def legal (s : Sys) : Op → Prop
  | .register _ _ _ | .unregister _ _ | .open _ => True
  | .look i => s.At i .counted
  | .testOpen i => s.At i .found
  | .callOpen i => s.At i .calling
  | .openReturn i _ => s.At i .inOpen
  | .testOp i fn => s.At i .opened ∧ fn ≠ .open ∧ fn ≠ .close
  | .callOp j => j < s.pending.length
  | .testClose i => s.At i .opened ∧ ∀ p ∈ s.pending, p.1 ≠ i
  | .callClose i => s.At i .closing
  | .closeReturn i => s.At i .inClose
  | .lower i => s.At i .failed ∨ s.At i .leaving

def step (s : Sys) : Op → Option Sys
  | .register major name fops => some { s with chrdevs := (registerChrdev s.chrdevs major name fops).2 }
  | .unregister major name => some { s with chrdevs := (unregisterChrdev s.chrdevs major name).2 }
  | .open rdev => chrdevOpen s rdev
  | .look i => (s.files[i]?).map (lookFops s i)
  | .testOpen i => (s.files[i]?).bind fun f => testFn tables s i f .open .calling .opened
  | .callOpen i => (s.files[i]?).bind fun f => callFn tables (s.put i { f with pc := .inOpen }) i f .open
  | .openReturn i ret => (s.files[i]?).map fun f => openReturn s i f ret
  | .testOp i fn => (s.files[i]?).bind fun f => testOp tables s i f fn
  | .callOp j => (s.pending[j]?).bind fun p => (s.files[p.1]?).bind fun f =>
      callFn tables { s with pending := s.pending.eraseIdx j } p.1 f p.2
  | .testClose i => (s.files[i]?).bind fun f => testFn tables s i f .close .closing .leaving
  | .callClose i => (s.files[i]?).bind fun f => callFn tables (s.put i { f with pc := .inClose }) i f .close
  | .closeReturn i => (s.files[i]?).map fun f => s.put i { f with pc := .leaving }
  | .lower i => (s.files[i]?).map (lower s i)

def boot : Sys := ⟨fun _ => ⟨none, none, 0⟩, [], [], []⟩

def system : Lts Sys Op where
  start := fun s => s = boot
  step := fun s o s' => legal s o ∧ step tables s o = some s'

/-! ## The invariant -/

def view : View File ℕ where
  slot := File.major
  inside := fun f => f.pc != .closed
  held := fun f => if f.pc = .closed then none else f.fops

/-- what a struct file knows of the driver's table -/
def FileOk (fops : Option ℕ) : Pc → Prop
  | .counted => fops = none
  | .failed | .closed => True
  | .calling => ∃ d, fops = some d ∧ tables d .open = true
  | .closing => ∃ d, fops = some d ∧ tables d .close = true
  | .found | .inOpen | .opened | .inClose | .leaving => ∃ d, fops = some d

structure Inv (s : Sys) : Prop where
  guard : Guarded view (fun k => (s.chrdevs k).fops) (fun k => (s.chrdevs k).refCount) s.files
  file : ∀ f ∈ s.files, FileOk tables f.fops f.pc
  pending : ∀ p ∈ s.pending, ∃ f, s.files[p.1]? = some f ∧ f.pc = .opened ∧ ∃ d, f.fops = some d ∧
      tables d p.2 = true
  calls : ∀ c ∈ s.calls, ∃ f, s.files[c.file]? = some f ∧ f.fops = some c.fops ∧ tables c.fops c.fn = true

variable {tables} {s s' : Sys} {i : ℕ} {f f' : File} {d : ℕ} {fn : Fn}

theorem view_inside (f : File) : view.inside f = true ↔ f.pc ≠ .closed := bne_iff_ne

theorem view_held (hpc : f.pc ≠ .closed) : view.held f = f.fops := if_neg hpc

theorem sound_of {content : ℕ → Option ℕ} (h : ∀ d, f.fops = some d → content f.major = some d)
    (hpc : f.pc ≠ .closed) :
    view.Sound content f := by
  intro d hd
  rw [view_held hpc] at hd
  exact ⟨(view_inside f).2 hpc, h d hd⟩

theorem mem_files (hf : s.files[i]? = some f) : f ∈ s.files := List.mem_of_getElem? hf

namespace Inv

theorem fileAt (h : Inv tables s) {pc : Pc} (hat : s.At i pc) : ∃ f, s.files[i]? = some f ∧ f.pc = pc ∧
    FileOk tables f.fops pc := by
  obtain ⟨f, hf, rfl⟩ := Option.map_eq_some_iff.1 hat
  exact ⟨f, hf, rfl, h.file f (mem_files hf)⟩

/-- the driver that was found is in the table -/
theorem held (h : Inv tables s) (hf : f ∈ s.files) (hpc : f.pc ≠ .closed) (hd : f.fops = some d) : s.fops f = some d := by
  refine (h.guard.sound f hf d ?_).2
  rw [view_held hpc, hd]

theorem boot : Inv tables CharDev.boot :=
  ⟨.nil _ _, fun _ h => absurd h List.not_mem_nil, fun _ h => absurd h List.not_mem_nil, fun _ h => absurd h List.not_mem_nil⟩

/-! ## The steps of a struct file -/

/-- a struct file goes on -/
theorem put (h : Inv tables s) (hf : s.files[i]? = some f) (hmajor : f'.major = f.major) (hpc : f.pc ≠ .closed)
    (hpc' : f'.pc ≠ .closed) (hfops : f'.fops = f.fops ∨ f.fops = none ∧ f'.fops = s.fops f)
    (hok : FileOk tables f'.fops f'.pc)
    (hidle : f.pc = .opened → ∀ p ∈ s.pending, p.1 ≠ i) : Inv tables (s.put i f') := by
  have hi := (List.getElem?_eq_some_iff.1 hf).1
  have hself : (s.files.set i f')[i]? = some f' := List.getElem?_set_self hi
  have hother : ∀ {j}, j ≠ i → (s.files.set i f')[j]? = s.files[j]? := fun hj => List.getElem?_set_ne (Ne.symm hj)
  refine ⟨h.guard.advance hf hmajor ?_ (sound_of (fun d hd => ?_) hpc'), fun w hw => ?_, fun p hp => ?_, fun c hc => ?_⟩
  · rw [(view_inside f').2 hpc', (view_inside f).2 hpc]
  · rw [hmajor]
    rcases hfops with he | ⟨-, he⟩
    · exact h.held (mem_files hf) hpc (he.symm.trans hd)
    · exact he.symm.trans hd
  · rcases List.mem_or_eq_of_mem_set hw with hw | rfl
    · exact h.file w hw
    · exact hok
  · obtain ⟨g, hg, hgpc, hgd⟩ := h.pending p hp
    by_cases hpi : p.1 = i
    · rw [hpi, hf] at hg
      cases hg
      exact absurd hpi (hidle hgpc p hp)
    · exact ⟨g, (hother hpi).trans hg, hgpc, hgd⟩
  · obtain ⟨g, hg, hgd, hfn⟩ := h.calls c hc
    by_cases hci : c.file = i
    · rw [hci, hf] at hg
      cases hg
      rcases hfops with he | ⟨hnone, -⟩
      · exact ⟨f', (congrArg _ hci).trans hself, he.trans hgd, hfn⟩
      · rw [hnone] at hgd
        cases hgd
    · exact ⟨g, (hother hci).trans hg, hgd, hfn⟩

theorem addCount_fops (s : Sys) (major : ℕ) (n : ℤ) :
    (fun k => ((s.addCount major n).chrdevs k).fops) = fun k => (s.chrdevs k).fops :=
  (Function.comp_update CharDevice.fops s.chrdevs major _).trans (Function.update_eq_self major _)

theorem addCount_refCount (s : Sys) (major : ℕ) (n : ℤ) : (fun k => ((s.addCount major n).chrdevs k).refCount) =
    Function.update (fun k => (s.chrdevs k).refCount) major ((s.chrdevs major).refCount + n) :=
  Function.comp_update CharDevice.refCount s.chrdevs major _

theorem openFile (h : Inv tables s) (major : ℕ) :
    Inv tables { s.addCount major 1 with files := s.files ++ [⟨major, none, .counted⟩] } := by
  have hkeep : ∀ {j g}, s.files[j]? = some g → (s.files ++ [⟨major, none, .counted⟩])[j]? = some g := fun hg =>
    (List.getElem?_append_left (List.getElem?_eq_some_iff.1 hg).1).trans hg
  refine ⟨?_, fun w hw => ?_, fun p hp => ?_, fun c hc => ?_⟩
  · rw [addCount_fops, addCount_refCount]
    exact h.guard.enter (u := ⟨major, none, .counted⟩) rfl rfl
  · rcases List.mem_append.1 hw with hw | hw
    · exact h.file w hw
    · rw [List.mem_singleton.1 hw]
      exact rfl
  · obtain ⟨g, hg, hgpc⟩ := h.pending p hp
    exact ⟨g, hkeep hg, hgpc⟩
  · obtain ⟨g, hg, hgd⟩ := h.calls c hc
    exact ⟨g, hkeep hg, hgd⟩

theorem lower (h : Inv tables s) (hf : s.files[i]? = some f) (hpc : f.pc = .failed ∨ f.pc = .leaving) :
    Inv tables (CharDev.lower s i f) := by
  have hin : f.pc ≠ .closed := by rcases hpc with hpc | hpc <;> rw [hpc] <;> decide
  have hi := (List.getElem?_eq_some_iff.1 hf).1
  have hput : ∀ {j g}, s.files[j]? = some g → ∃ g', (s.put i { f with pc := .closed }).files[j]? = some g' ∧
      g'.fops = g.fops ∧ (j ≠ i → g' = g) := by
    intro j g hg
    by_cases hj : j = i
    · rw [hj, hf] at hg
      cases hg
      exact ⟨_, (congrArg _ hj).trans (List.getElem?_set_self hi), rfl, fun hne => absurd hj hne⟩
    · exact ⟨g, (List.getElem?_set_ne (Ne.symm hj)).trans hg, rfl, fun _ => rfl⟩
  refine ⟨?_, fun w hw => ?_, fun p hp => ?_, fun c hc => ?_⟩
  · rw [CharDev.lower, addCount_fops, addCount_refCount]
    exact h.guard.leave hf ((view_inside f).2 hin) rfl rfl
  · rcases List.mem_or_eq_of_mem_set hw with hw | rfl
    · exact h.file w hw
    · trivial
  · obtain ⟨g, hg, hgpc, hgd⟩ := h.pending p hp
    have hne : p.1 ≠ i := by
      intro hp
      rw [hp, hf] at hg
      cases hg
      rw [hgpc] at hpc
      rcases hpc with hpc | hpc <;> cases hpc
    obtain ⟨g', hg', -, he⟩ := hput hg
    rw [he hne] at hg'
    exact ⟨g, hg', hgpc, hgd⟩
  · obtain ⟨g, hg, hgd, hfn⟩ := h.calls c hc
    obtain ⟨g', hg', hfops, -⟩ := hput hg
    exact ⟨g', hg', hfops.trans hgd, hfn⟩

/-! ## The steps of the table -/

theorem setDriver_fops (chrdevs : ℕ → CharDevice) (major : ℕ) (name : Option Name) (fops : Option ℕ) :
    (fun k => (setDriver chrdevs major name fops k).fops) = Function.update (fun k => (chrdevs k).fops) major fops :=
  Function.comp_update CharDevice.fops chrdevs major _

theorem setDriver_refCount (chrdevs : ℕ → CharDevice) (major : ℕ) (name : Option Name) (fops : Option ℕ) :
    (fun k => (setDriver chrdevs major name fops k).refCount) = fun k => (chrdevs k).refCount :=
  (Function.comp_update CharDevice.refCount chrdevs major _).trans (Function.update_eq_self major _)

theorem freeMajor_free {chrdevs : ℕ → CharDevice} {n major : ℕ} (h : freeMajor chrdevs n = some major) :
    (chrdevs major).fops = none := by
  induction n with
  | zero => cases h
  | succ n ih =>
    rw [freeMajor] at h
    split_ifs at h with hfree
    · cases h
      exact hfree
    · exact ih h

/-- register_chrdev leaves the table as it is, or enters the driver at a major that is free or has it -/
theorem registerChrdev_cases (chrdevs : ℕ → CharDevice) (major : ℕ) (name : Name) (fops : Option ℕ) :
    (registerChrdev chrdevs major name fops).2 = chrdevs ∨ ∃ k d, ((chrdevs k).fops = none ∨ (chrdevs k).fops = some d) ∧
      (registerChrdev chrdevs major name fops).2 = setDriver chrdevs k (some name) (some d) := by
  unfold registerChrdev
  cases fops with
  | none => exact Or.inl rfl
  | some d =>
    dsimp only
    split_ifs with hmajor h0 hbusy
    · exact Or.inl rfl
    · cases hfree : freeMajor chrdevs (nrChrdevs - 1) with
      | none => exact Or.inl rfl
      | some k => exact Or.inr ⟨k, d, Or.inl (freeMajor_free hfree), rfl⟩
    · exact Or.inl rfl
    · rw [not_and_or, not_not, not_not] at hbusy
      exact Or.inr ⟨major, d, hbusy, rfl⟩

theorem register (h : Inv tables s) (major : ℕ) (name : Name) (fops : Option ℕ) :
    Inv tables { s with chrdevs := (registerChrdev s.chrdevs major name fops).2 } := by
  rcases registerChrdev_cases s.chrdevs major name fops with he | ⟨k, d, hfree, he⟩
  · rw [he]
    exact h
  · rw [he]
    refine ⟨?_, h.file, h.pending, h.calls⟩
    rw [setDriver_fops, setDriver_refCount]
    exact h.guard.install hfree

theorem unregister (h : Inv tables s) (major : ℕ) (name : Name) :
    Inv tables { s with chrdevs := (unregisterChrdev s.chrdevs major name).2 } := by
  rw [unregisterChrdev]
  split_ifs with hmajor hcount hname
  · exact h
  · exact h
  · exact h
  · refine ⟨?_, h.file, h.pending, h.calls⟩
    dsimp only
    rw [setDriver_fops, setDriver_refCount]
    exact h.guard.remove (not_not.1 hcount)

/-! ## All steps -/

theorem log (h : Inv tables s) (hf : s.files[i]? = some f) (hd : f.fops = some d) (hfn : tables d fn = true) :
    Inv tables (s.log ⟨i, d, fn⟩) := by
  refine ⟨h.guard, h.file, h.pending, fun c hc => ?_⟩
  rcases List.mem_cons.1 hc with rfl | hc
  · exact ⟨f, hf, hd, hfn⟩
  · exact h.calls c hc

/-- a test of the table finds the driver, and the struct file goes on -/
theorem test (h : Inv tables s) (hf : s.files[i]? = some f) (hpc : f.pc ≠ .closed) (hd : f.fops = some d) {call past : Pc}
    (hcall : tables d fn = true → FileOk tables f.fops call) (hpast : FileOk tables f.fops past)
    (hcall' : call ≠ .closed) (hpast' : past ≠ .closed) (hidle : f.pc = .opened → ∀ p ∈ s.pending, p.1 ≠ i) :
    ∃ s', testFn tables s i f fn call past = some s' ∧ Inv tables s' := by
  have hfops := h.held (mem_files hf) hpc hd
  refine ⟨_, by rw [testFn, hfops, Option.map_some], ?_⟩
  by_cases hfn : tables d fn = true
  · rw [if_pos hfn]
    exact h.put hf rfl hpc hcall' (Or.inl rfl) (hcall hfn) hidle
  · rw [if_neg hfn]
    exact h.put hf rfl hpc hpast' (Or.inl rfl) hpast hidle

/-- a call that follows a test reaches the driver's function -/
theorem call (h : Inv tables s) (hf : s.files[i]? = some f') (hmajor : f'.major = f.major) (hpc : f'.pc ≠ .closed)
    (hd : f'.fops = some d) (hfn : tables d fn = true) : ∃ s', callFn tables s i f fn = some s' ∧ Inv tables s' := by
  have hfops : s.fops f = some d := by
    rw [Sys.fops, ← hmajor]
    exact h.held (mem_files hf) hpc hd
  refine ⟨_, ?_, h.log hf hd hfn⟩
  rw [callFn, hfops, Option.bind_some, if_pos hfn]

/-- chrdev_open and chrdev_close enter the function that they saw -/
theorem enterFn (h : Inv tables s) (hf : s.files[i]? = some f) {pc : Pc} (hpc : f.pc ≠ .closed) (hopened : f.pc ≠ .opened)
    (hd : f.fops = some d) (hfn : tables d fn = true) (hpc' : pc ≠ .closed) (hok : FileOk tables f.fops pc) :
    ∃ s', callFn tables (s.put i { f with pc }) i f fn = some s' ∧ Inv tables s' := by
  have hi := (List.getElem?_eq_some_iff.1 hf).1
  have hput : Inv tables (s.put i { f with pc }) := h.put hf rfl hpc hpc' (Or.inl rfl) hok fun he => absurd he hopened
  exact hput.call (List.getElem?_set_self hi) rfl hpc' hd hfn

end Inv

theorem step_ok (h : Inv tables s) {o : Op} (hl : legal s o) :
    (∃ rdev, o = .open rdev ∧ nrChrdevs ≤ majorOf rdev) ∨ ∃ s', step tables s o = some s' ∧ Inv tables s' := by
  cases o with
  | register major name fops => exact Or.inr ⟨_, rfl, h.register major name fops⟩
  | unregister major name => exact Or.inr ⟨_, rfl, h.unregister major name⟩
  | «open» rdev =>
    by_cases hmajor : nrChrdevs ≤ majorOf rdev
    · exact Or.inl ⟨rdev, rfl, hmajor⟩
    · exact Or.inr ⟨_, if_neg hmajor, h.openFile (majorOf rdev)⟩
  | look i =>
    obtain ⟨f, hf, hpc, hnone⟩ := h.fileAt hl
    refine Or.inr ⟨_, by rw [step, hf, Option.map_some], ?_⟩
    rw [lookFops]
    cases hfops : s.fops f with
    | none => exact h.put hf rfl (by simp [hpc]) (by simp) (Or.inl rfl) trivial (by simp [hpc])
    | some d => exact h.put hf rfl (by simp [hpc]) (by simp) (Or.inr ⟨hnone, hfops.symm⟩) ⟨d, rfl⟩ (by simp [hpc])
  | testOpen i =>
    obtain ⟨f, hf, hpc, d, hd⟩ := h.fileAt hl
    rw [step, hf, Option.bind_some]
    exact Or.inr (h.test hf (by simp [hpc]) hd (fun hfn => ⟨d, hd, hfn⟩) ⟨d, hd⟩ (by simp) (by simp) (by simp [hpc]))
  | callOpen i =>
    obtain ⟨f, hf, hpc, d, hd, hfn⟩ := h.fileAt hl
    rw [step, hf, Option.bind_some]
    exact Or.inr (h.enterFn hf (by simp [hpc]) (by simp [hpc]) hd hfn (by simp) ⟨d, hd⟩)
  | openReturn i ret =>
    obtain ⟨f, hf, hpc, d, hd⟩ := h.fileAt hl
    refine Or.inr ⟨_, by rw [step, hf, Option.map_some], ?_⟩
    rw [openReturn]
    split_ifs
    · exact h.put hf rfl (by simp [hpc]) (by simp) (Or.inl rfl) trivial (by simp [hpc])
    · exact h.put hf rfl (by simp [hpc]) (by simp) (Or.inl rfl) ⟨d, hd⟩ (by simp [hpc])
  | testOp i fn =>
    obtain ⟨f, hf, hpc, d, hd⟩ := h.fileAt hl.1
    have hfops := h.held (mem_files hf) (by simp [hpc]) hd
    refine Or.inr ⟨_, by rw [step, hf, Option.bind_some, testOp, hfops, Option.map_some], ?_⟩
    split_ifs with hfn
    · refine ⟨h.guard, h.file, fun p hp => ?_, h.calls⟩
      rcases List.mem_append.1 hp with hp | hp
      · exact h.pending p hp
      · rw [List.mem_singleton.1 hp]
        exact ⟨f, hf, hpc, d, hd, hfn⟩
    · exact h
  | callOp j =>
    obtain ⟨p, hp⟩ : ∃ p, s.pending[j]? = some p := ⟨_, List.getElem?_eq_getElem hl⟩
    obtain ⟨f, hf, hpc, d, hd, hfn⟩ := h.pending p (List.mem_of_getElem? hp)
    have hrest : Inv tables { s with pending := s.pending.eraseIdx j } :=
      ⟨h.guard, h.file, fun q hq => h.pending q (List.mem_of_mem_eraseIdx hq), h.calls⟩
    rw [step, hp, Option.bind_some, hf, Option.bind_some]
    exact Or.inr (hrest.call hf rfl (by simp [hpc]) hd hfn)
  | testClose i =>
    obtain ⟨f, hf, hpc, d, hd⟩ := h.fileAt hl.1
    rw [step, hf, Option.bind_some]
    exact Or.inr (h.test hf (by simp [hpc]) hd (fun hfn => ⟨d, hd, hfn⟩) ⟨d, hd⟩ (by simp) (by simp) fun _ => hl.2)
  | callClose i =>
    obtain ⟨f, hf, hpc, d, hd, hfn⟩ := h.fileAt hl
    rw [step, hf, Option.bind_some]
    exact Or.inr (h.enterFn hf (by simp [hpc]) (by simp [hpc]) hd hfn (by simp) ⟨d, hd⟩)
  | closeReturn i =>
    obtain ⟨f, hf, hpc, d, hd⟩ := h.fileAt hl
    refine Or.inr ⟨_, by rw [step, hf, Option.map_some], ?_⟩
    exact h.put hf rfl (by simp [hpc]) (by simp) (Or.inl rfl) ⟨d, hd⟩ (by simp [hpc])
  | lower i =>
    obtain ⟨f, hf, hpc⟩ : ∃ f, s.files[i]? = some f ∧ (f.pc = .failed ∨ f.pc = .leaving) := by
      rcases hl with hl | hl
      · exact (h.fileAt hl).imp fun f hf => ⟨hf.1, Or.inl hf.2.1⟩
      · exact (h.fileAt hl).imp fun f hf => ⟨hf.1, Or.inr hf.2.1⟩
    exact Or.inr ⟨_, by rw [step, hf, Option.map_some], h.lower hf hpc⟩

theorem reach_inv (h : (system tables).Reach s) : Inv tables s := by
  refine h.inv (fun s hs => hs ▸ Inv.boot) fun s o s' hi hnext => ?_
  obtain ⟨hl, hst⟩ := hnext
  rcases step_ok hi hl with ⟨rdev, rfl, hmajor⟩ | ⟨t, ht, hinv⟩
  · have hnone : step tables s (.open rdev) = none := if_pos hmajor
    rw [hnone] at hst
    cases hst
  · rw [hst] at ht
    cases ht
    exact hinv

theorem unregister_iff (h : Inv tables s) (major : ℕ) (name : Name) : (unregisterChrdev s.chrdevs major name).1 = success ↔
    major < nrChrdevs ∧ (s.chrdevs major).fops ≠ none ∧ (s.chrdevs major).name = some name ∧
      ∀ f ∈ s.files, f.major = major → f.pc = .closed := by
  have hzero : (s.chrdevs major).refCount = 0 ↔ ∀ f ∈ s.files, f.major = major → f.pc = .closed := by
    rw [h.guard.count major, Int.natCast_eq_zero, List.countP_eq_zero]
    refine forall₂_congr fun f _ => ?_
    rw [View.on_iff, not_and', view_inside, not_not]
    rfl
  rw [unregisterChrdev]
  split_ifs with hmajor hcount hname
  · exact iff_of_false (by simp [eInval, success]) fun hall => by omega
  · exact iff_of_false (by simp [eBusy, success]) fun hall => hcount (hzero.2 hall.2.2.2)
  · exact iff_of_false (by simp [eInval, success]) fun hall => hname.elim hall.2.1 fun hne => hne hall.2.2.1
  · rw [not_or, not_not] at hname
    exact iff_of_true rfl ⟨by omega, hname.1, hname.2, hzero.1 (not_not.1 hcount)⟩

/-- **Drivers stay while they are in use.** In every order of registrations, opens, uses and closes: ref_count counts the struct
files of the driver that are not closed, those that are being opened too; the driver that chrdev_open found is in the table
until chrdev_close lowers the count; each function that was called for a struct file is one of this driver; no step reads or
calls through NULL, and the only one that fails is chrdev_open of a major that is too large; and unregister_chrdev succeeds
exactly when it names the driver and all of its struct files are closed. -/
theorem driver_stays (h : (system tables).Reach s) :
    (∀ k, (s.chrdevs k).refCount = s.files.countP fun f => f.pc != .closed && f.major == k) ∧
    (∀ f ∈ s.files, f.pc ≠ .closed → ∀ d, f.fops = some d → (s.chrdevs f.major).fops = some d) ∧
    (∀ c ∈ s.calls, ∃ f, s.files[c.file]? = some f ∧ f.fops = some c.fops ∧ tables c.fops c.fn = true) ∧
    (∀ o, legal s o → step tables s o = none → ∃ rdev, o = .open rdev ∧ nrChrdevs ≤ majorOf rdev) ∧
    ∀ major name, (unregisterChrdev s.chrdevs major name).1 = success ↔
      major < nrChrdevs ∧ (s.chrdevs major).fops ≠ none ∧ (s.chrdevs major).name = some name ∧
        ∀ f ∈ s.files, f.major = major → f.pc = .closed := by
  have hi := reach_inv h
  refine ⟨hi.guard.count, fun f hf hpc d hd => hi.held hf hpc hd, hi.calls, fun o hl hnone => ?_, unregister_iff hi⟩
  rcases step_ok hi hl with hbug | ⟨s', hs', -⟩
  · exact hbug
  · rw [hnone] at hs'
    cases hs'

/-! ## A run with both drivers -/

instance (s : Sys) (i : ℕ) (pc : Pc) : Decidable (s.At i pc) := inferInstanceAs (Decidable (_ = _))

instance (s : Sys) (o : Op) : Decidable (legal s o) :=
  match o with
  | .register _ _ _ | .unregister _ _ | .open _ => inferInstanceAs (Decidable True)
  | .look i => inferInstanceAs (Decidable (s.At i .counted))
  | .testOpen i => inferInstanceAs (Decidable (s.At i .found))
  | .callOpen i => inferInstanceAs (Decidable (s.At i .calling))
  | .openReturn i _ => inferInstanceAs (Decidable (s.At i .inOpen))
  | .testOp i fn => inferInstanceAs (Decidable (s.At i .opened ∧ fn ≠ .open ∧ fn ≠ .close))
  | .callOp j => inferInstanceAs (Decidable (j < s.pending.length))
  | .testClose i => inferInstanceAs (Decidable (s.At i .opened ∧ ∀ p ∈ s.pending, p.1 ≠ i))
  | .callClose i => inferInstanceAs (Decidable (s.At i .closing))
  | .closeReturn i => inferInstanceAs (Decidable (s.At i .inClose))
  | .lower i => inferInstanceAs (Decidable (s.At i .failed ∨ s.At i .leaving))

/-- the steps one after the other, as long as they are legal and do not fail -/
def run (tables : ℕ → FileOperations) (s : Sys) (os : List Op) : Option Sys :=
  os.foldlM (fun s o => if legal s o then step tables s o else none) s

theorem reach_run {os : List Op} (h : run tables boot os = some s) : (system tables).Reach s := by
  refine Lts.Reach.fold (fun s o s' hst => ?_) (.start rfl) h
  split_ifs at hst with hl
  exact ⟨hl, hst⟩

/-- tty_fops and proc_fops, at two addresses -/
def kernelTables (d : ℕ) : FileOperations := if d = 1 then ttyFops else procFops

def tty : Name := [0x74#8, 0x74#8, 0x79#8]

def proc : Name := [0x70#8, 0x72#8, 0x6f#8, 0x63#8]

/-- /dev/tty is opened, read and closed while /dev/proc is opened; the tty driver cannot go in between -/
def bothRun : Sys :=
  (run kernelTables boot [.register 1 tty (some 1), .register 8 proc (some 2), .open (1 <<< 20), .look 0, .testOpen 0,
    .open (8 <<< 20), .callOpen 0, .look 1, .unregister 1 tty, .openReturn 0 0, .testOpen 1, .testOp 0 .read, .callOp 0,
    .testClose 0, .callClose 0]).get (by decide +kernel)

theorem both_stay :
    (∀ k, (bothRun.chrdevs k).refCount = bothRun.files.countP fun f => f.pc != .closed && f.major == k) ∧
    (∀ f ∈ bothRun.files, f.pc ≠ .closed → ∀ d, f.fops = some d → (bothRun.chrdevs f.major).fops = some d) ∧
    (∀ c ∈ bothRun.calls, ∃ f, bothRun.files[c.file]? = some f ∧ f.fops = some c.fops ∧
    kernelTables c.fops c.fn = true) ∧ (∀ o, legal bothRun o → step kernelTables bothRun o = none →
    ∃ rdev, o = .open rdev ∧ nrChrdevs ≤ majorOf rdev) ∧
    ∀ major name, (unregisterChrdev bothRun.chrdevs major name).1 = success ↔
      major < nrChrdevs ∧ (bothRun.chrdevs major).fops ≠ none ∧ (bothRun.chrdevs major).name = some name ∧
        ∀ f ∈ bothRun.files, f.major = major → f.pc = .closed :=
  driver_stays (reach_run (Option.some_get _).symm)

end SinsOs.CharDev
