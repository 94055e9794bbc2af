/-
The table of block devices (fs/block_dev.c): register_blkdev, unregister_blkdev, and the reads of device->rw_handler by
blkdev_open, bread and brelse, for struct files that are opened and closed while drivers come and go.

As for the character devices (Fs.CharDev), register_blkdev and unregister_blkdev are one step each and every read of
rw_handler is one. The ioctl, the position and the blocks of a device are not in the state; bread and brelse are modelled for
one partition in Fs.BlockDev. A file system reads its blocks with bread too, without a struct file. `none` is a BUG, the panic
of bread or a read through NULL.

- `handler_stays`: the handler that blkdev_open found serves every transfer of the struct file, and no such transfer panics.
  What can: blkdev_open of a major that is too large, unregister_blkdev of a major without driver (strcmp with NULL), and bread
  for a file system when the driver has gone, as unregister_blkdev does not look for mounts.
-/
import SinsOs.Core.Guard
import SinsOs.Core.Lts
import SinsOs.Fs.CharDev

namespace SinsOs.BlockTable

open SinsOs.Core SinsOs.Lib SinsOs.Guard SinsOs.CharDev

/-! ## Model -/

def nrBlkdevs : ℕ := 32

/-- struct block_device -/
structure BlockDevice where
  name : Option Name
  refCount : ℤ
  blockSize : ℕ
  rwHandler : Option ℕ
deriving DecidableEq, Repr

/-- the loop of register_blkdev over the majors from `major` down to 1 -/
def findMajor (blkdevs : ℕ → BlockDevice) : ℕ → Option ℕ
  | 0 => none
  | major + 1 => if (blkdevs (major + 1)).name = none then some (major + 1) else findMajor blkdevs major

/-- the three assignments of register_blkdev and unregister_blkdev -/
def setDriver (blkdevs : ℕ → BlockDevice) (major : ℕ) (name : Option Name) (rwHandler : Option ℕ) (blockSize : ℕ) :
    ℕ → BlockDevice :=
  Function.update blkdevs major { blkdevs major with name, rwHandler, blockSize }

/-- a major that was chosen here is not returned -/
def registerBlkdev (blkdevs : ℕ → BlockDevice) (major : ℕ) (name : Option Name) (rwHandler : Option ℕ) (blockSize : ℕ) :
    ℤ × (ℕ → BlockDevice) :=
  if name = none ∨ rwHandler = none then (-eInval, blkdevs)
  else if nrBlkdevs ≤ major then (-eInval, blkdevs)
  else if major = 0 then
    match findMajor blkdevs (nrBlkdevs - 1) with
    | some major => (success, setDriver blkdevs major name rwHandler blockSize)
    | none => (-eBusy, blkdevs)
  else if (blkdevs major).name ≠ none then (-eBusy, blkdevs)
  else (success, setDriver blkdevs major name rwHandler blockSize)

def unregisterBlkdev (blkdevs : ℕ → BlockDevice) (major : ℕ) (name : Name) : Option (ℤ × (ℕ → BlockDevice)) :=
  if nrBlkdevs ≤ major then some (-eInval, blkdevs)
  else if (blkdevs major).refCount ≠ 0 then some (-eBusy, blkdevs)
  else (blkdevs major).name.map fun registered =>
    if registered ≠ name then (-eInval, blkdevs) else (success, setDriver blkdevs major none none 0)

/-- where a struct file is -/
inductive Pc
  -- blkdev_open has raised ref_count
  | counted
  -- there was no handler; blkdev_open lowers ref_count next
  | failed
  | opened
  | closed
deriving DecidableEq, Repr

/-- `handler` is what blkdev_open found, and nothing in the code reads it -/
structure File where
  major : ℕ
  handler : Option ℕ
  pc : Pc
deriving DecidableEq, Repr

inductive Rw
  | read | write
deriving DecidableEq, Repr

/-- a call of a handler for a struct file -/
structure Call where
  file : ℕ
  handler : ℕ
  rw : Rw
deriving DecidableEq, Repr

structure Sys where
  blkdevs : ℕ → BlockDevice
  files : List File
  calls : List Call

namespace Sys

variable (s : Sys)

def put (i : ℕ) (f : File) : Sys := { s with files := s.files.set i f }

def handler (major : ℕ) : Option ℕ := (s.blkdevs major).rwHandler

def addCount (major : ℕ) (n : ℤ) : Sys :=
  { s with blkdevs := Function.update s.blkdevs major { s.blkdevs major with refCount := (s.blkdevs major).refCount + n } }

def At (i : ℕ) (pc : Pc) : Prop := (s.files[i]?).map File.pc = some pc

end Sys

/-- blkdev_open up to the atomic_inc -/
def blkdevOpen (s : Sys) (rdev : ℕ) : Option Sys :=
  if nrBlkdevs ≤ majorOf rdev then none
  else
    let s := s.addCount (majorOf rdev) 1
    some { s with files := s.files ++ [⟨majorOf rdev, none, .counted⟩] }

/-- `device->rw_handler != NULL` in blkdev_open -/
def lookHandler (s : Sys) (i : ℕ) (f : File) : Sys :=
  match s.handler f.major with
  | none => s.put i { f with pc := .failed }
  | some d => s.put i { f with handler := some d, pc := .opened }

/-- the test of bread -/
def testHandler (s : Sys) (major : ℕ) : Option Sys := (s.handler major).map fun _ => s

/-- the call in bread, and the one in brelse, which has no test -/
def callHandler (s : Sys) (i : ℕ) (f : File) (rw : Rw) : Option Sys :=
  (s.handler f.major).map fun d => { s with calls := ⟨i, d, rw⟩ :: s.calls }

/-- atomic_dec in blkdev_open and blkdev_close -/
def lower (s : Sys) (i : ℕ) (f : File) : Sys := (s.put i { f with pc := .closed }).addCount f.major (-1)

inductive Op
  | register (major : ℕ) (name : Option Name) (rwHandler : Option ℕ) (blockSize : ℕ)
  | unregister (major : ℕ) (name : Name)
  | open (rdev : ℕ)
  | look (i : ℕ)
  | test (i : ℕ)
  | call (i : ℕ) (rw : Rw)
  | close (i : ℕ)
  -- bread for a file system on the device
  | mounted (major : ℕ)
deriving DecidableEq, Repr

/-- a struct file is read and written while it is opened -/
def legal (s : Sys) : Op → Prop
  | .register _ _ _ _ | .unregister _ _ | .open _ | .mounted _ => True
  | .look i => s.At i .counted
  | .test i | .call i _ => s.At i .opened
  | .close i => s.At i .failed ∨ s.At i .opened

def step (s : Sys) : Op → Option Sys
  | .register major name rwHandler blockSize =>
      some { s with blkdevs := (registerBlkdev s.blkdevs major name rwHandler blockSize).2 }
  | .unregister major name => (unregisterBlkdev s.blkdevs major name).map fun r => { s with blkdevs := r.2 }
  | .open rdev => blkdevOpen s rdev
  | .look i => (s.files[i]?).map (lookHandler s i)
  | .test i => (s.files[i]?).bind fun f => testHandler s f.major
  | .call i rw => (s.files[i]?).bind fun f => callHandler s i f rw
  | .close i => (s.files[i]?).map (lower s i)
  | .mounted major => testHandler s major

def boot : Sys := ⟨fun _ => ⟨none, 0, 0, none⟩, [], []⟩

def system : Lts Sys Op where
  start := fun s => s = boot
  step := fun s o s' => legal s o ∧ step s o = some s'

/-! ## The invariant -/

def view : View File ℕ where
  slot := File.major
  inside := fun f => f.pc != .closed
  held := fun f => if f.pc = .closed then none else f.handler

/-- what a struct file knows of the driver -/
def FileOk (handler : Option ℕ) : Pc → Prop
  | .counted => handler = none
  | .opened => ∃ d, handler = some d
  | .failed | .closed => True

structure Inv (s : Sys) : Prop where
  guard : Guarded view (fun k => (s.blkdevs k).rwHandler) (fun k => (s.blkdevs k).refCount) s.files
  named : ∀ k, (s.blkdevs k).name = none ↔ (s.blkdevs k).rwHandler = none
  file : ∀ f ∈ s.files, FileOk f.handler f.pc
  calls : ∀ c ∈ s.calls, ∃ f, s.files[c.file]? = some f ∧ f.handler = some c.handler

variable {s s' : Sys} {i : ℕ} {f f' : File} {d : ℕ}

theorem mem_files (hf : s.files[i]? = some f) : f ∈ s.files := List.mem_of_getElem? hf

theorem view_inside (f : File) : view.inside f = true ↔ f.pc ≠ .closed := bne_iff_ne

theorem view_held (hpc : f.pc ≠ .closed) : view.held f = f.handler := if_neg hpc

namespace Inv

theorem fileAt (h : Inv s) {pc : Pc} (hat : s.At i pc) : ∃ f, s.files[i]? = some f ∧ f.pc = pc ∧ FileOk f.handler pc := by
  obtain ⟨f, hf, rfl⟩ := Option.map_eq_some_iff.1 hat
  exact ⟨f, hf, rfl, h.file f (mem_files hf)⟩

/-- the handler that was found is in the table -/
theorem held (h : Inv s) (hf : f ∈ s.files) (hpc : f.pc ≠ .closed) (hd : f.handler = some d) : s.handler f.major = some d :=
  (h.guard.sound f hf d ((view_held hpc).trans hd)).2

theorem boot : Inv BlockTable.boot :=
  ⟨.nil _ _, fun _ => iff_of_true rfl rfl, fun _ h => absurd h List.not_mem_nil, fun _ h => absurd h List.not_mem_nil⟩

/-! ## The steps -/

theorem addCount_rwHandler (s : Sys) (major : ℕ) (n : ℤ) :
    (fun k => ((s.addCount major n).blkdevs k).rwHandler) = fun k => (s.blkdevs k).rwHandler :=
  (Function.comp_update BlockDevice.rwHandler s.blkdevs major _).trans (Function.update_eq_self major _)

theorem addCount_name (s : Sys) (major : ℕ) (n : ℤ) :
    (fun k => ((s.addCount major n).blkdevs k).name) = fun k => (s.blkdevs k).name :=
  (Function.comp_update BlockDevice.name s.blkdevs major _).trans (Function.update_eq_self major _)

theorem addCount_refCount (s : Sys) (major : ℕ) (n : ℤ) : (fun k => ((s.addCount major n).blkdevs k).refCount) =
    Function.update (fun k => (s.blkdevs k).refCount) major ((s.blkdevs major).refCount + n) :=
  Function.comp_update BlockDevice.refCount s.blkdevs major _

theorem addCount_named (h : Inv s) (major : ℕ) (n : ℤ) (k : ℕ) :
    ((s.addCount major n).blkdevs k).name = none ↔ ((s.addCount major n).blkdevs k).rwHandler = none := by
  have hname : ((s.addCount major n).blkdevs k).name = (s.blkdevs k).name := congrFun (addCount_name s major n) k
  have hrw : ((s.addCount major n).blkdevs k).rwHandler = (s.blkdevs k).rwHandler := congrFun (addCount_rwHandler s major n) k
  rw [hname, hrw]
  exact h.named k

theorem setDriver_rwHandler (blkdevs : ℕ → BlockDevice) (major : ℕ) (name : Option Name)
    (rwHandler : Option ℕ) (n : ℕ) :
    (fun k => (setDriver blkdevs major name rwHandler n k).rwHandler) =
      Function.update (fun k => (blkdevs k).rwHandler) major rwHandler :=
  Function.comp_update BlockDevice.rwHandler blkdevs major _

theorem setDriver_refCount (blkdevs : ℕ → BlockDevice) (major : ℕ) (name : Option Name) (rwHandler : Option ℕ) (n : ℕ) :
    (fun k => (setDriver blkdevs major name rwHandler n k).refCount) = fun k => (blkdevs k).refCount :=
  (Function.comp_update BlockDevice.refCount blkdevs major _).trans (Function.update_eq_self major _)

theorem setDriver_named (h : Inv s) (major : ℕ) {name : Option Name} {rwHandler : Option ℕ} (n : ℕ)
    (hboth : name = none ↔ rwHandler = none) (k : ℕ) : (setDriver s.blkdevs major name rwHandler n k).name = none ↔
      (setDriver s.blkdevs major name rwHandler n k).rwHandler = none := by
  by_cases hk : k = major
  · rw [hk, setDriver, Function.update_self]
    exact hboth
  · rw [setDriver, Function.update_of_ne hk]
    exact h.named k

theorem findMajor_free {blkdevs : ℕ → BlockDevice} {n major : ℕ} (h : findMajor blkdevs n = some major) :
    (blkdevs major).name = none := by
  induction n with
  | zero => cases h
  | succ n ih =>
    rw [findMajor] at h
    split_ifs at h with hfree
    · cases h
      exact hfree
    · exact ih h

/-- a driver is entered where the name is free -/
theorem install (h : Inv s) {major : ℕ} {name : Option Name} {rwHandler : Option ℕ} (n : ℕ)
    (hname : name ≠ none) (hrw : rwHandler ≠ none) (hfree : (s.blkdevs major).name = none) :
    Inv { s with blkdevs := setDriver s.blkdevs major name rwHandler n } := by
  obtain ⟨d, rfl⟩ := Option.ne_none_iff_exists'.1 hrw
  refine ⟨?_, h.setDriver_named major n (iff_of_false hname hrw), h.file, h.calls⟩
  rw [setDriver_rwHandler, setDriver_refCount]
  exact h.guard.install (Or.inl ((h.named major).1 hfree))

theorem register (h : Inv s) (major : ℕ) (name : Option Name) (rwHandler : Option ℕ) (n : ℕ) :
    Inv { s with blkdevs := (registerBlkdev s.blkdevs major name rwHandler n).2 } := by
  unfold registerBlkdev
  split_ifs with hnull hmajor h0 hbusy
  · exact h
  · exact h
  · obtain ⟨hname, hrw⟩ := not_or.1 hnull
    cases hfree : findMajor s.blkdevs (nrBlkdevs - 1) with
    | none => exact h
    | some k => exact h.install n hname hrw (findMajor_free hfree)
  · exact h
  · obtain ⟨hname, hrw⟩ := not_or.1 hnull
    exact h.install n hname hrw (not_not.1 hbusy)

/-- unregister_blkdev compares the name, which is NULL when there is no driver -/
theorem unregister (h : Inv s) (major : ℕ) (name : Name) :
    (unregisterBlkdev s.blkdevs major name = none ↔ major < nrBlkdevs ∧ (s.blkdevs major).refCount = 0 ∧
    s.handler major = none) ∧
      ∀ r, unregisterBlkdev s.blkdevs major name = some r → Inv { s with blkdevs := r.2 } := by
  rw [unregisterBlkdev]
  split_ifs with hmajor hcount
  · refine ⟨iff_of_false (by simp) fun hall => by omega, fun r hr => ?_⟩
    cases hr
    exact h
  · refine ⟨iff_of_false (by simp) fun hall => hcount hall.2.1, fun r hr => ?_⟩
    cases hr
    exact h
  · refine ⟨?_, fun r hr => ?_⟩
    · rw [Option.map_eq_none_iff, h.named major]
      exact ⟨fun hnone => ⟨by omega, not_not.1 hcount, hnone⟩, fun hall => hall.2.2⟩
    · obtain ⟨registered, -, rfl⟩ := Option.map_eq_some_iff.1 hr
      split_ifs
      · exact h
      · refine ⟨?_, h.setDriver_named major 0 (iff_of_true rfl rfl), h.file, h.calls⟩
        dsimp only
        rw [setDriver_rwHandler, setDriver_refCount]
        exact h.guard.remove (not_not.1 hcount)

theorem openFile (h : Inv s) (major : ℕ) :
    Inv { s.addCount major 1 with files := s.files ++ [⟨major, none, .counted⟩] } := by
  refine ⟨?_, h.addCount_named major 1, fun w hw => ?_, fun c hc => ?_⟩
  · rw [addCount_rwHandler, addCount_refCount]
    exact h.guard.enter (u := ⟨major, none, .counted⟩) rfl rfl
  · rcases List.mem_append.1 hw with hw | hw
    · exact h.file w hw
    · rw [List.mem_singleton.1 hw]
      exact rfl
  · obtain ⟨g, hg, hgd⟩ := h.calls c hc
    exact ⟨g, (List.getElem?_append_left (List.getElem?_eq_some_iff.1 hg).1).trans hg, hgd⟩

/-- a call that was made stays a call of the struct file's handler -/
theorem calls_put (h : Inv s) (hf : s.files[i]? = some f) (hkeep : f'.handler = f.handler ∨ f.handler = none) :
    ∀ c ∈ s.calls, ∃ g, (s.files.set i f')[c.file]? = some g ∧ g.handler = some c.handler := by
  intro c hc
  have hi := (List.getElem?_eq_some_iff.1 hf).1
  obtain ⟨g, hg, hgd⟩ := h.calls c hc
  by_cases hci : c.file = i
  · rw [hci, hf] at hg
    cases hg
    rcases hkeep with he | hnone
    · exact ⟨f', (congrArg _ hci).trans (List.getElem?_set_self hi), he.trans hgd⟩
    · rw [hnone] at hgd
      cases hgd
  · exact ⟨g, (List.getElem?_set_ne (Ne.symm hci)).trans hg, hgd⟩

theorem look (h : Inv s) (hf : s.files[i]? = some f) (hpc : f.pc = .counted) (hnone : f.handler = none) :
    Inv (lookHandler s i f) := by
  have hput : ∀ g : File, g.major = f.major → g.pc ≠ .closed →
      (∀ d, g.handler = some d → s.handler f.major = some d) → FileOk g.handler g.pc → Inv (s.put i g) := by
    intro g hmajor hgpc hfound hok
    refine ⟨h.guard.advance hf hmajor ?_ fun d hd => ?_, h.named, fun w hw => ?_, h.calls_put hf (Or.inr hnone)⟩
    · rw [(view_inside g).2 hgpc, (view_inside f).2 (by simp [hpc])]
    · rw [view_held hgpc] at hd
      exact ⟨(view_inside g).2 hgpc, (congrArg s.handler hmajor).trans (hfound d hd)⟩
    · rcases List.mem_or_eq_of_mem_set hw with hw | rfl
      · exact h.file w hw
      · exact hok
  rw [lookHandler]
  cases hd : s.handler f.major with
  | none => exact hput _ rfl (by simp) (fun d hg => by rw [hnone] at hg; cases hg) trivial
  | some d => exact hput _ rfl (by simp) (fun e hg => hd.trans hg) ⟨d, rfl⟩

theorem lower (h : Inv s) (hf : s.files[i]? = some f) (hpc : f.pc ≠ .closed) : Inv (BlockTable.lower s i f) := by
  refine ⟨?_, ?_, fun w hw => ?_, h.calls_put hf (Or.inl rfl)⟩
  · rw [BlockTable.lower, addCount_rwHandler, addCount_refCount]
    exact h.guard.leave hf ((view_inside f).2 hpc) rfl rfl
  · exact h.addCount_named f.major (-1)
  · rcases List.mem_or_eq_of_mem_set hw with hw | rfl
    · exact h.file w hw
    · trivial

end Inv

/-- the steps that panic -/
def Fails (s : Sys) : Op → Prop
  | .open rdev => nrBlkdevs ≤ majorOf rdev
  | .unregister major _ => major < nrBlkdevs ∧ (s.blkdevs major).refCount = 0 ∧ s.handler major = none
  | .mounted major => s.handler major = none
  | _ => False

theorem step_ok (h : Inv s) {o : Op} (hl : legal s o) : (step s o = none ↔ Fails s o) ∧ ∀ s', step s o = some s' →
    Inv s' := by
  have hdone : ∀ {t : Sys}, step s o = some t → ¬ Fails s o → Inv t → (step s o = none ↔ Fails s o) ∧
      ∀ s', step s o = some s' → Inv s' := by
    intro t ht hno hinv
    refine ⟨iff_of_false (by rw [ht]; exact Option.some_ne_none t) hno, fun s' hs' => ?_⟩
    rw [ht] at hs'
    cases hs'
    exact hinv
  cases o with
  | register major name rwHandler n => exact hdone rfl not_false (h.register major name rwHandler n)
  | unregister major name =>
    obtain ⟨hiff, hinv⟩ := h.unregister major name
    refine ⟨Option.map_eq_none_iff.trans hiff, fun s' hs' => ?_⟩
    obtain ⟨r, hr, rfl⟩ := Option.map_eq_some_iff.1 hs'
    exact hinv r hr
  | «open» rdev =>
    by_cases hmajor : nrBlkdevs ≤ majorOf rdev
    · have hnone : step s (.open rdev) = none := if_pos hmajor
      rw [hnone]
      exact ⟨iff_of_true rfl hmajor, fun s' hs' => by cases hs'⟩
    · exact hdone (if_neg hmajor) hmajor (h.openFile (majorOf rdev))
  | look i =>
    obtain ⟨f, hf, hpc, hnone⟩ := h.fileAt hl
    exact hdone (by rw [step, hf, Option.map_some]) not_false (h.look hf hpc hnone)
  | test i =>
    obtain ⟨f, hf, hpc, d, hd⟩ := h.fileAt hl
    have hheld := h.held (mem_files hf) (by simp [hpc]) hd
    exact hdone (by rw [step, hf, Option.bind_some, testHandler, hheld, Option.map_some]) not_false h
  | call i rw =>
    obtain ⟨f, hf, hpc, d, hd⟩ := h.fileAt hl
    have hheld := h.held (mem_files hf) (by simp [hpc]) hd
    have hinv : Inv { s with calls := ⟨i, d, rw⟩ :: s.calls } := by
      refine ⟨h.guard, h.named, h.file, fun c hc => ?_⟩
      rcases List.mem_cons.1 hc with rfl | hc
      · exact ⟨f, hf, hd⟩
      · exact h.calls c hc
    exact hdone (by rw [step, hf, Option.bind_some, callHandler, hheld, Option.map_some]) not_false hinv
  | close i =>
    obtain ⟨f, hf, hpc⟩ : ∃ f, s.files[i]? = some f ∧ f.pc ≠ .closed := by
      rcases hl with hl | hl
      · exact (h.fileAt hl).imp fun f hf => ⟨hf.1, by simp [hf.2.1]⟩
      · exact (h.fileAt hl).imp fun f hf => ⟨hf.1, by simp [hf.2.1]⟩
    exact hdone (by rw [step, hf, Option.map_some]) not_false (h.lower hf hpc)
  | mounted major =>
    refine ⟨Option.map_eq_none_iff, fun s' hs' => ?_⟩
    obtain ⟨-, -, rfl⟩ := Option.map_eq_some_iff.1 hs'
    exact h

theorem reach_inv (h : system.Reach s) : Inv s := by
  refine h.inv (fun s hs => hs ▸ Inv.boot) fun s o s' hi hst => ?_
  exact (step_ok hi hst.1).2 s' hst.2

/-- **A handler serves the struct files that found it to their end.** In every order of registrations, opens, transfers and
closes: ref_count counts the struct files of the driver that are not closed; the handler that blkdev_open found is in the table
until then; each transfer of a struct file was served by it; and a step panics exactly when it is blkdev_open of a major that
is too large, unregister_blkdev of a major with no driver and no struct file, or bread for a file system whose driver is gone. -/
theorem handler_stays (h : system.Reach s) :
    (∀ k, (s.blkdevs k).refCount = s.files.countP fun f => f.pc != .closed && f.major == k) ∧
    (∀ f ∈ s.files, f.pc ≠ .closed → ∀ d, f.handler = some d → s.handler f.major = some d) ∧
    (∀ c ∈ s.calls, ∃ f, s.files[c.file]? = some f ∧ f.handler = some c.handler) ∧
    ∀ o, legal s o → (step s o = none ↔ Fails s o) := by
  have hi := reach_inv h
  exact ⟨hi.guard.count, fun f hf hpc d hd => hi.held hf hpc hd, hi.calls, fun o hl => (step_ok hi hl).1⟩

/-! ## A run with a mount -/

instance (s : Sys) (i : ℕ) (pc : Pc) : Decidable (s.At i pc) := inferInstanceAs (Decidable (_ = _))

instance (s : Sys) (o : Op) : Decidable (legal s o) :=
  match o with
  | .register _ _ _ _ | .unregister _ _ | .open _ | .mounted _ => inferInstanceAs (Decidable True)
  | .look i => inferInstanceAs (Decidable (s.At i .counted))
  | .test i | .call i _ => inferInstanceAs (Decidable (s.At i .opened))
  | .close i => inferInstanceAs (Decidable (s.At i .failed ∨ s.At i .opened))

/-- the steps one after the other, as long as they are legal and do not fail -/
def run (s : Sys) (os : List Op) : Option Sys := os.foldlM (fun s o => if legal s o then step s o else none) s

theorem reach_run {os : List Op} (h : run boot os = some s) : system.Reach s := by
  refine Lts.Reach.fold (fun s o s' hst => ?_) (.start rfl) h
  split_ifs at hst with hl
  exact ⟨hl, hst⟩

def hd : Name := [0x68#8, 0x64#8]

/-- the disk is read as a file, unregister_blkdev waits for its close, and the file system that is mounted stays behind -/
def mountRun : Sys :=
  (run boot [.register 1 (some hd) (some 7) 512, .mounted 1, .open (1 <<< 20), .look 0, .unregister 1 hd, .test 0, .call 0 .read,
    .close 0, .unregister 1 hd]).get (by decide +kernel)

theorem mount_fails :
    (∀ k, (mountRun.blkdevs k).refCount = mountRun.files.countP fun f => f.pc != .closed && f.major == k) ∧
    (∀ f ∈ mountRun.files, f.pc ≠ .closed → ∀ d, f.handler = some d → mountRun.handler f.major = some d) ∧
    (∀ c ∈ mountRun.calls, ∃ f, mountRun.files[c.file]? = some f ∧ f.handler = some c.handler) ∧
    ∀ o, legal mountRun o → (step mountRun o = none ↔ Fails mountRun o) :=
  handler_stays (reach_run (Option.some_get _).symm)

end SinsOs.BlockTable
