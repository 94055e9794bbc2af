/-
Switching between tasks: arch_switch_to and arch_get_current (include/asm/sched.h), arch_kthread_context_init (arch/sched.c),
kthread_wrapper (arch/entry.S) and write_esp0 (arch/gdt.c).

A task_struct and the kernel stack of its task share a page. There is one processor, and `current` is computed from its stack
pointer. What a task that does not run needs is on its own stack and in its context.

- `switch_refines`: the one processor is as good as a processor for each task. In any order of switches, of what the running
  tasks do in between and of new threads, a task that is switched to has the registers, the flags and the stack it had.
-/
import SinsOs.Core.Lts
import SinsOs.Arch.Entry
import SinsOs.Arch.Signal
import SinsOs.Mm.Page

namespace SinsOs.Switch

open SinsOs.Core SinsOs.Bits SinsOs.X86

/-! ## Model -/

/-- the processor; `esp0` is the field of the tss -/
structure Cpu extends Machine where
  eflags : Word
  cs : Word
  eip : Word
  esp0 : ℕ

/-- fields of struct task_struct, and its size -/
def contextEsp : ℕ := 224
def contextEip : ℕ := 228
def sizeofTask : ℕ := 232

def pageSize : ℕ := 4096
def gdtKernelCs : Word := 1

/-- what `movl $(GDT_KERNEL_DS << 3)` leaves in a segment register -/
def kernelSeg : Seg → BitVec 16 := fun _ => (Entry.gdtKernelDs <<< 3).setWidth 16

/-- addresses in the code: where schedule switches, the label 1 and what follows popa, the two wrappers, and where pfn
returns to -/
structure Code where
  switch : Word
  one : Word
  after : Word
  kthreadWrapper : Word
  kthreadWrapper' : Word
  pfnReturn : Word
  apart : one ≠ kthreadWrapper

def getCurrent (esp : ℕ) : ℕ := (Mm.pageAlign (BitVec.ofNat 32 esp - Mm.pageSize)).toNat

/-- the instructions of arch_switch_to, up to ret -/
inductive Ins
  | pusha
  | pushf
  | saveEsp (a : ℕ)
  | loadEsp (a : ℕ)
  | saveEip (w : Word) (a : ℕ)
  | pushM (a : ℕ)

namespace Cpu

variable (c : Cpu)

def onMachine (f : Machine → Machine) : Cpu := { c with toMachine := f c.toMachine }

/-- popa does not pop esp -/
def popaSlot : Reg → ℕ
  | .edi => 0
  | .esi => 4
  | .ebp => 8
  | .ebx => 16
  | .edx => 20
  | .ecx => 24
  | .eax => 28

/-- in the order of pusha -/
def pushaWords : List Word :=
  [c.reg .eax, c.reg .ecx, c.reg .edx, c.reg .ebx, BitVec.ofNat 32 c.esp, c.reg .ebp, c.reg .esi, c.reg .edi]

def popa : Cpu := c.onMachine fun m => { m with reg := fun r => m.mem (m.esp + popaSlot r), esp := m.esp + 32 }

/-- `ja` reads CF and ZF -/
def setFlags (w : Word) : Cpu := { c.onMachine fun m => { m with above := !testBit w 0 && !testBit w 6 } with eflags := w }

def popf : Cpu := (c.setFlags (c.mem c.esp)).onMachine (·.drop 4)

def ret : Cpu := { c.onMachine (·.drop 4) with eip := c.mem c.esp }

/-- iret to the same ring -/
def iret : Cpu := { (c.setFlags (c.mem (c.esp + 8))).onMachine (·.drop 12) with eip := c.mem c.esp, cs := c.mem (c.esp + 4) }

end Cpu

def Ins.exec (c : Cpu) : Ins → Cpu
  | pusha => c.onMachine (·.pushes c.pushaWords)
  | pushf => c.onMachine (·.push c.eflags)
  | saveEsp a => c.onMachine (·.store a (BitVec.ofNat 32 c.esp))
  | loadEsp a => c.onMachine fun m => { m with esp := (m.mem a).toNat }
  | saveEip w a => c.onMachine (·.store a w)
  | pushM a => c.onMachine fun m => m.push (m.mem a)

variable (K : Code)

/-- kthread_wrapper, and _kthread_wrapper up to the first instruction of pfn -/
def kthreadStart (c : Cpu) : Option Cpu :=
  let c := (c.onMachine fun m => execAll m Entry.restoreAll).iret
  if c.cs &&& 3 ≠ 0 ∨ c.eip ≠ K.kthreadWrapper' then none
  else
    let pfn := c.reg .ecx
    let c := c.onMachine fun m => ((m.push (m.reg .ecx)).push (m.reg .edx)).push K.pfnReturn
    some { c with eip := pfn }

/-- from the ret of arch_switch_to to the next instruction of C code -/
def resume (c : Cpu) : Option Cpu :=
  if c.eip = K.one then some { c.popf.popa with eip := K.after }
  else if c.eip = K.kthreadWrapper then kthreadStart K c
  else none

def switchBlock (prev next : ℕ) : List Ins :=
  [.pusha, .pushf, .saveEsp (prev + contextEsp), .loadEsp (next + contextEsp), .saveEip K.one (prev + contextEip),
    .pushM (next + contextEip)]

def switchTo (prev next : ℕ) (c : Cpu) : Option Cpu :=
  resume K ((switchBlock K prev next).foldl Ins.exec { c with esp0 := next + pageSize }).ret

/-- the struct pt_regs of a new thread, by offset -/
def kthreadRegs (pfn data : Word) (off : ℕ) : Word :=
  if off = Entry.slot .ecx then pfn
  else if off = Entry.slot .edx then data
  else if off = Entry.cs then gdtKernelCs <<< 3
  else if off = Entry.segSlot .ds ∨ off = Entry.segSlot .es ∨ off = Entry.segSlot .fs ∨ off = Entry.segSlot .gs then
    Entry.gdtKernelDs <<< 3
  else if off = Entry.eflags then Signal.eflagsIf
  else if off = Entry.eip then K.kthreadWrapper'
  else 0

/-- arch_kthread_context_init for the page t -/
def kthreadContextInit (t : ℕ) (pfn data : Word) (m : Machine) : Machine :=
  let regs := t + pageSize - Entry.sizeofPtRegs
  let m := { m with
    mem := fun a => if regs ≤ a ∧ a < regs + Entry.sizeofPtRegs then kthreadRegs K pfn data (a - regs) else m.mem a }
  (m.store (t + contextEip) K.kthreadWrapper).store (t + contextEsp) (BitVec.ofNat 32 regs)

/-! ## The machine -/

structure Sys where
  tasks : Finset ℕ
  cpu : Cpu

def Sys.current (s : Sys) : ℕ := getCurrent s.cpu.esp

/-- the words of a task that does not run: its context and its stack -/
def Kept (mem : ℕ → Word) (t a : ℕ) : Prop :=
  a = t + contextEsp ∨ a = t + contextEip ∨ (mem (t + contextEsp)).toNat ≤ a ∧ a < t + pageSize

/-- the stack pointer of a task, above its task_struct -/
structure InStack (t esp : ℕ) : Prop where
  low : t + sizeofTask < esp
  high : esp ≤ t + pageSize

/-- a page for a task -/
structure TaskPage (t : ℕ) : Prop where
  aligned : t % pageSize = 0
  low : pageSize ≤ t
  high : t + pageSize < 2 ^ 32

/-- what the running task does, with the interrupts on its stack: it stays on its stack, and what is not its own it leaves to
the others -/
structure Ran (s s' : Sys) : Prop where
  tasks : s'.tasks = s.tasks
  esp0 : s'.cpu.esp0 = s.cpu.esp0
  stack : InStack s.current s'.cpu.esp
  others : ∀ t ∈ s.tasks, t ≠ s.current → ∀ a, Kept s.cpu.mem t a → s'.cpu.mem a = s.cpu.mem a

inductive Op
  | run
  | switch (next : ℕ)
  | spawn (t : ℕ) (pfn data : Word)
  | reap (t : ℕ)

/-- schedule switches with the segments of the kernel, to another task, and there is room for the registers -/
structure MaySwitch (s : Sys) (next : ℕ) : Prop where
  task : next ∈ s.tasks
  other : next ≠ s.current
  eip : s.cpu.eip = K.switch
  seg : s.cpu.seg = kernelSeg
  room : s.current + sizeofTask + 40 < s.cpu.esp

def step (s : Sys) : Op → Sys → Prop
  | .run, s' => Ran s s'
  | .switch next, s' => MaySwitch K s next ∧ switchTo K s.current next s.cpu = some s'.cpu ∧ s'.tasks = s.tasks
  | .spawn t pfn data, s' => t ∉ s.tasks ∧ TaskPage t ∧
      s' = ⟨insert t s.tasks, s.cpu.onMachine (kthreadContextInit K t pfn data)⟩
  | .reap t, s' => t ≠ s.current ∧ s' = { s with tasks := s.tasks.erase t }

/-- one task, on its page -/
structure Boot (s : Sys) : Prop where
  task : s.tasks = {s.current}
  page : TaskPage s.current
  stack : InStack s.current s.cpu.esp
  esp0 : s.cpu.esp0 = s.current + pageSize

def machine : Lts Sys Op where
  start := Boot
  step := step K

/-! ## A processor for each task -/

/-- what a task sees: its registers and its stack -/
@[ext] structure View where
  reg : Reg → Word
  seg : Seg → BitVec 16
  eflags : Word
  eip : Word
  esp : ℕ
  stack : ℕ → Word

def stackOf (mem : ℕ → Word) (t esp : ℕ) : ℕ → Word := fun a => if esp ≤ a ∧ a < t + pageSize then mem a else 0

def viewOf (t : ℕ) (c : Cpu) : View := ⟨c.reg, c.seg, c.eflags, c.eip, c.esp, stackOf c.mem t c.esp⟩

/-- a new thread is at the start of pfn, with data as its argument -/
def threadView (t : ℕ) (pfn data : Word) : View where
  reg := fun r => if r = .ecx then pfn else if r = .edx then data else 0
  seg := kernelSeg
  eflags := Signal.eflagsIf
  eip := pfn
  esp := t + pageSize - 20
  stack := fun a =>
    if a = t + pageSize - 20 then K.pfnReturn
    else if a = t + pageSize - 16 then data
    else if a = t + pageSize - 12 then pfn
    else 0

structure Multi where
  tasks : Finset ℕ
  current : ℕ
  view : ℕ → View

namespace Multi

def setView (s : Multi) (t : ℕ) (v : View) : Multi := { s with view := fun u => if u = t then v else s.view u }

def goTo (s : Multi) (next : ℕ) : Multi := { s with current := next }

def setTasks (s : Multi) (tasks : Finset ℕ) : Multi := { s with tasks := tasks }

/-- a switch only goes past the call of switch_to and to the other processor -/
def step (s : Multi) : Op → Multi → Prop
  | .run, s' => ∃ v, s' = s.setView s.current v
  | .switch next, s' => next ∈ s.tasks ∧ next ≠ s.current ∧ (s.view s.current).eip = K.switch ∧
      s' = (s.setView s.current { s.view s.current with eip := K.after }).goTo next
  | .spawn t pfn data, s' => t ∉ s.tasks ∧ s' = (s.setView t (threadView K t pfn data)).setTasks (insert t s.tasks)
  | .reap t, s' => t ≠ s.current ∧ s' = s.setTasks (s.tasks.erase t)

def system : Lts Multi Op where
  start := fun s => s.tasks = {s.current}
  step := step K

end Multi

/-! ## Tasks that do not run -/

variable {K} {mem mem' : ℕ → Word} {t u next : ℕ} {v : View} {c c' : Cpu}

/-- the stack pointer in the context -/
def savedEsp (mem : ℕ → Word) (t : ℕ) : ℕ := (mem (t + contextEsp)).toNat

/-- switched from: the flags and registers are on the stack -/
structure Switched (K : Code) (mem : ℕ → Word) (t : ℕ) (v : View) : Prop where
  context : mem (t + contextEip) = K.one
  low : t + sizeofTask + 4 < savedEsp mem t
  high : savedEsp mem t + 36 ≤ t + pageSize
  reg : ∀ r, v.reg r = mem (savedEsp mem t + 4 + Cpu.popaSlot r)
  seg : v.seg = kernelSeg
  eflags : v.eflags = mem (savedEsp mem t)
  eip : v.eip = K.after
  esp : v.esp = savedEsp mem t + 36
  stack : v.stack = stackOf mem t (savedEsp mem t + 36)

/-- never run -/
structure Fresh (K : Code) (mem : ℕ → Word) (t : ℕ) (pfn data : Word) : Prop where
  context : mem (t + contextEip) = K.kthreadWrapper
  esp : savedEsp mem t = t + pageSize - Entry.sizeofPtRegs
  regs : ∀ a, savedEsp mem t ≤ a → a < t + pageSize → mem a = kthreadRegs K pfn data (a - savedEsp mem t)

/-- the task sees v when it is switched to -/
def Parked (K : Code) (mem : ℕ → Word) (t : ℕ) (v : View) : Prop :=
  Switched K mem t v ∨ ∃ pfn data, Fresh K mem t pfn data ∧ v = threadView K t pfn data

theorem savedEsp_congr (h : ∀ a, Kept mem t a → mem' a = mem a) : savedEsp mem' t = savedEsp mem t :=
  congrArg BitVec.toNat (h _ (Or.inl rfl))

theorem popaSlot_le (r : Reg) : Cpu.popaSlot r ≤ 28 := by cases r <;> decide

/-- **The frame of a parked task**: only its context and the words from its stack pointer on count. -/
theorem Parked.frame (hp : Parked K mem t v) (h : ∀ a, Kept mem t a → mem' a = mem a) : Parked K mem' t v := by
  have hesp := savedEsp_congr h
  have hstack : ∀ a, savedEsp mem t ≤ a → a < t + pageSize → mem' a = mem a :=
    fun a h1 h2 => h a (Or.inr (Or.inr ⟨h1, h2⟩))
  have heip : mem' (t + contextEip) = mem (t + contextEip) := h _ (Or.inr (Or.inl rfl))
  rcases hp with hs | ⟨pfn, data, hf, rfl⟩
  · have hhigh := hs.high
    refine Or.inl ⟨heip.trans hs.context, hesp ▸ hs.low, hesp ▸ hhigh, fun r => ?_, hs.seg, ?_, hs.eip,
      hesp ▸ hs.esp, ?_⟩
    · have := popaSlot_le r
      rw [hesp, hstack _ (by omega) (by omega), hs.reg]
    · rw [hesp, hstack _ le_rfl (by omega), hs.eflags]
    · rw [hesp, hs.stack]
      funext a
      simp only [stackOf]
      split_ifs with ha
      · exact (hstack a (by omega) ha.2).symm
      · rfl
  · refine Or.inr ⟨pfn, data, ⟨heip.trans hf.context, hesp.trans hf.esp, fun a h1 h2 => ?_⟩, rfl⟩
    rw [hesp] at h1 ⊢
    rw [hstack a h1 h2, hf.regs a h1 h2]

/-- a parked task's stack pointer is above its context, and a word can be pushed -/
theorem Parked.low (hp : Parked K mem t v) : t + sizeofTask + 4 ≤ savedEsp mem t := by
  rcases hp with hs | ⟨pfn, data, hf, -⟩
  · exact hs.low.le
  · rw [hf.esp]
    simp only [sizeofTask, pageSize, Entry.sizeofPtRegs]
    omega

/-! ## Back to a task -/

/-- a machine that has come back to task t with view v: only words of its stack are written -/
structure Back (t : ℕ) (v : View) (c c' : Cpu) : Prop where
  view : viewOf t c' = v
  stack : InStack t c'.esp
  esp0 : c'.esp0 = c.esp0
  mem : ∀ a, a < t + sizeofTask ∨ t + pageSize ≤ a → c'.mem a = c.mem a

theorem resume_switched (hs : Switched K c.mem t v) (heip : c.eip = c.mem (t + contextEip)) (hesp : c.esp = savedEsp c.mem t)
    (hseg : c.seg = kernelSeg) : ∃ c', resume K c = some c' ∧ Back t v c c' := by
  have hlow := hs.low
  have hhigh := hs.high
  refine ⟨{ c.popf.popa with eip := K.after }, by rw [resume, if_pos (heip.trans hs.context)], ?_, ⟨?_, ?_⟩, rfl,
    fun _ _ => rfl⟩
  · refine View.ext (funext fun r => ?_) (hseg.trans hs.seg.symm) ?_ hs.eip.symm ?_ ?_
    · rw [hs.reg, ← hesp]
      rfl
    · rw [hs.eflags, ← hesp]
      rfl
    · rw [hs.esp, ← hesp]
      rfl
    · rw [hs.stack, ← hesp]
      rfl
  · change t + sizeofTask < c.esp + 4 + 32
    omega
  · change c.esp + 4 + 32 ≤ t + pageSize
    omega

theorem kthreadRegs_reg (pfn data : Word) (r : Reg) :
    kthreadRegs K pfn data (Entry.slot r) = if r = .ecx then pfn else if r = .edx then data else 0 := by
  cases r <;> rfl

theorem kthreadRegs_seg (pfn data : Word) (x : Seg) : (kthreadRegs K pfn data (Entry.segSlot x)).setWidth 16 = kernelSeg x := by
  cases x <;> rfl

/-- what lies above the words that iret pops -/
theorem kthreadRegs_rest (pfn data : Word) {off : ℕ} (h : Entry.eip ≤ off) (h1 : off ≠ Entry.eip) (h2 : off ≠ Entry.cs)
    (h3 : off ≠ Entry.eflags) : kthreadRegs K pfn data off = 0 := by
  have hslot : ∀ r, off ≠ Entry.slot r := fun r he => by
    have := Entry.slot_le r
    simp only [Entry.eip] at h
    omega
  have hseg : ∀ x, off ≠ Entry.segSlot x := fun x he => by
    have := (Entry.segSlot_bounds x).2
    simp only [Entry.eip] at h
    omega
  have hsegs : ¬ (off = Entry.segSlot .ds ∨ off = Entry.segSlot .es ∨ off = Entry.segSlot .fs ∨
      off = Entry.segSlot .gs) := by
    rintro (he | he | he | he)
    all_goals exact hseg _ he
  rw [kthreadRegs, if_neg (hslot _), if_neg (hslot _), if_neg h2, if_neg hsegs, if_neg h3, if_neg h1]

theorem resume_fresh {pfn data : Word} (hf : Fresh K c.mem t pfn data) (heip : c.eip = c.mem (t + contextEip))
    (hesp : c.esp = savedEsp c.mem t) : ∃ c', resume K c = some c' ∧ Back t (threadView K t pfn data) c c' := by
  have hbase := hf.esp
  have hsize : Entry.sizeofPtRegs = 72 := rfl
  have hpage : pageSize = 4096 := rfl
  have hword : ∀ off, off < Entry.sizeofPtRegs → c.mem (c.esp + off) = kthreadRegs K pfn data off := fun off hoff => by
    rw [hesp, hf.regs _ (by omega) (by omega), Nat.add_sub_cancel_left]
  obtain ⟨hesp1, hmem1, hreg1, hseg1⟩ := Entry.restoreAll_spec c.toMachine
  set m1 := execAll c.toMachine Entry.restoreAll with hm1
  set c1 := (c.onMachine fun m => execAll m Entry.restoreAll).iret with hc1
  have hreg : c1.reg = fun r => if r = .ecx then pfn else if r = .edx then data else 0 := funext fun r => by
    have := Entry.slot_le r
    calc c1.reg r = m1.reg r := rfl
      _ = c.mem (c.esp + Entry.slot r) := hreg1 r
      _ = _ := by rw [hword _ (by omega), kthreadRegs_reg]
  have htop : ∀ off, 0x34 + off < Entry.sizeofPtRegs → m1.mem (m1.esp + off) = kthreadRegs K pfn data (0x34 + off) := by
    intro off hoff
    rw [hmem1, hesp1, Nat.add_assoc, hword _ hoff]
  have hcs : c1.cs = gdtKernelCs <<< 3 := htop 4 (by decide)
  have hip : c1.eip = K.kthreadWrapper' := htop 0 (by decide)
  have hgo : resume K c = some { c1.onMachine fun m => ((m.push (m.reg .ecx)).push (m.reg .edx)).push K.pfnReturn with
      eip := c1.reg .ecx } := by
    rw [resume, if_neg (by rw [heip, hf.context]; exact K.apart.symm), if_pos (heip.trans hf.context), kthreadStart]
    rw [← hc1, if_neg]
    rw [hcs, hip]
    simp [gdtKernelCs]
  have hesp' : c1.esp = t + pageSize - 8 := by
    change m1.esp + 12 = _
    omega
  have hmem' : c1.mem = c.mem := hmem1
  have hecx : c1.reg .ecx = pfn := by rw [hreg]; rfl
  have hedx : c1.reg .edx = data := by rw [hreg]; rfl
  set c2 := { c1.onMachine fun m => ((m.push (m.reg .ecx)).push (m.reg .edx)).push K.pfnReturn with eip := c1.reg .ecx } with hc2
  have hesp2 : c2.esp = t + pageSize - 20 := by
    change c1.esp - 4 - 4 - 4 = _
    omega
  have hmem2 : ∀ a, c2.mem a = if a = t + pageSize - 20 then K.pfnReturn else if a = t + pageSize - 16 then data else
      if a = t + pageSize - 12 then pfn else c.mem a := fun a => by
    have h1 : c1.esp - 4 - 4 - 4 = t + pageSize - 20 := by omega
    have h2 : c1.esp - 4 - 4 = t + pageSize - 16 := by omega
    have h3 : c1.esp - 4 = t + pageSize - 12 := by omega
    calc c2.mem a = if a = c1.esp - 4 - 4 - 4 then K.pfnReturn else if a = c1.esp - 4 - 4 then c1.reg .edx else
          if a = c1.esp - 4 then c1.reg .ecx else c1.mem a := rfl
      _ = _ := by rw [h1, h2, h3, hecx, hedx, hmem']
  refine ⟨c2, hgo, View.ext ?_ (funext fun x => ?_) (htop 8 (by decide)) hecx hesp2 (funext fun a => ?_),
    ⟨?_, ?_⟩, rfl, ?_⟩
  · exact hreg
  · have hx := Entry.segSlot_bounds x
    calc c2.seg x = m1.seg x := rfl
      _ = (c.mem (c.esp + Entry.segSlot x)).setWidth 16 := hseg1 x
      _ = kernelSeg x := by rw [hword _ (by omega), kthreadRegs_seg]
  · change stackOf c2.mem t c2.esp a = _
    rw [stackOf, hesp2, hmem2, threadView]
    dsimp only
    split_ifs with h1 h2 h3 h4 h5 h6 h7
    all_goals first | rfl | omega | skip
    -- the two words of the pt_regs that iret does not pop
    rw [hf.regs a (by omega) (by omega)]
    exact kthreadRegs_rest pfn data (by simp only [Entry.eip]; omega) (by simp only [Entry.eip]; omega)
      (by simp only [Entry.cs]; omega) (by simp only [Entry.eflags]; omega)
  · rw [hesp2, sizeofTask]
    omega
  · rw [hesp2]
    omega
  · intro a ha
    simp only [sizeofTask] at ha
    rw [hmem2, if_neg (by omega), if_neg (by omega), if_neg (by omega)]

theorem Parked.resume (hp : Parked K c.mem t v) (heip : c.eip = c.mem (t + contextEip)) (hesp : c.esp = savedEsp c.mem t)
    (hseg : c.seg = kernelSeg) : ∃ c', resume K c = some c' ∧ Back t v c c' := by
  rcases hp with hs | ⟨pfn, data, hf, rfl⟩
  · exact resume_switched hs heip hesp hseg
  · exact resume_fresh hf heip hesp

/-! ## The switch -/

/-- **current** is the task of the stack. -/
theorem getCurrent_eq (ht : TaskPage t) {esp : ℕ} (h : InStack t esp) : getCurrent esp = t := by
  obtain ⟨haligned, hlow, hhigh⟩ := ht
  obtain ⟨hesp, htop⟩ := h
  simp only [pageSize, sizeofTask] at *
  have hsize : Mm.pageSize = 4096#32 := by decide
  have hval : (BitVec.ofNat 32 esp).toNat = esp := by rw [BitVec.toNat_ofNat, Nat.mod_eq_of_lt (by omega)]
  have hsub : (BitVec.ofNat 32 esp - Mm.pageSize).toNat = esp - 4096 := by
    rw [hsize]
    bv_omega
  rw [getCurrent, Mm.pageAlign_toNat, hsub, Nat.mod_eq_of_lt (by omega)]
  omega

/-- a word of a parked task is in its page -/
theorem Parked.kept_page (hp : Parked K mem t v) {a : ℕ} (h : Kept mem t a) : t ≤ a ∧ a < t + pageSize := by
  have hlow := hp.low
  simp only [savedEsp, sizeofTask, contextEsp] at hlow
  obtain rfl | rfl | ⟨h1, h2⟩ := h
  · exact ⟨by omega, by simp only [contextEsp, pageSize]; omega⟩
  · exact ⟨by omega, by simp only [contextEip, pageSize]; omega⟩
  · exact ⟨by simp only [contextEsp] at h1; omega, h2⟩

theorem Parked.high (hp : Parked K mem t v) : savedEsp mem t ≤ t + pageSize := by
  rcases hp with hs | ⟨pfn, data, hf, -⟩
  · have := hs.high
    omega
  · rw [hf.esp]
    omega

/-- what arch_switch_to pushes -/
def savedWords (c : Cpu) : List Word := c.pushaWords ++ [c.eflags]

def pushed (c : Cpu) : Cpu := c.onMachine (·.pushes (savedWords c))

theorem pushed_esp (c : Cpu) : (pushed c).esp = c.esp - 36 := c.toMachine.pushes_esp (savedWords c)

theorem pushed_other (hroom : 36 ≤ c.esp) {a : ℕ} (ha : a < c.esp - 36 ∨ c.esp ≤ a) : (pushed c).mem a = c.mem a := by
  rcases ha with ha | ha
  · exact c.toMachine.pushes_below (savedWords c) hroom ha
  · exact c.toMachine.pushes_above (savedWords c) hroom ha

theorem pushed_word (hroom : 36 ≤ c.esp) (i : ℕ) {w : Word} (hi : (savedWords c)[i]? = some w) :
    (pushed c).mem (c.esp - 4 * (i + 1)) = w := c.toMachine.pushes_mem (savedWords c) hroom hi

/-- the memory with the context of cur set -/
def contextMem (K : Code) (cur : ℕ) (d : Cpu) : ℕ → Word := fun a =>
  if a = cur + contextEip then K.one
  else if a = cur + contextEsp then BitVec.ofNat 32 d.esp
  else d.mem a

/-- the memory once cur is saved -/
def savedMem (K : Code) (cur : ℕ) (c : Cpu) : ℕ → Word := contextMem K cur (pushed c)

variable {cur : ℕ}

theorem savedMem_other (hstack : InStack cur c.esp) (hroom : cur + sizeofTask + 40 < c.esp) {a : ℕ}
    (ha : a < cur ∨ cur + pageSize ≤ a) : savedMem K cur c a = c.mem a := by
  have htop := hstack.high
  simp only [pageSize, sizeofTask] at *
  rw [savedMem, contextMem, if_neg (by simp only [contextEip]; omega), if_neg (by simp only [contextEsp]; omega)]
  exact pushed_other (by omega) (by omega)

theorem savedMem_switched (hcur : TaskPage cur) (hstack : InStack cur c.esp) (hroom : cur + sizeofTask + 40 < c.esp)
    (hseg : c.seg = kernelSeg) : Switched K (savedMem K cur c) cur { viewOf cur c with eip := K.after } := by
  have htop := hstack.high
  have hpage := hcur.high
  simp only [pageSize, sizeofTask] at htop hpage hroom
  have hesp : savedEsp (savedMem K cur c) cur = c.esp - 36 := by
    have h1 : savedMem K cur c (cur + contextEsp) = BitVec.ofNat 32 (c.esp - 36) := by
      rw [savedMem, contextMem, if_neg (by simp only [contextEsp, contextEip]; omega), if_pos rfl, pushed_esp]
    rw [savedEsp, h1, BitVec.toNat_ofNat, Nat.mod_eq_of_lt (by omega)]
  have hstk : ∀ a, c.esp - 36 ≤ a → savedMem K cur c a = (pushed c).mem a := fun a ha => by
    rw [savedMem, contextMem, if_neg (by simp only [contextEip]; omega), if_neg (by simp only [contextEsp]; omega)]
  have hword : ∀ i w, (savedWords c)[i]? = some w → i ≤ 8 → savedMem K cur c (c.esp - 4 * (i + 1)) = w := by
    intro i w hi h8
    rw [hstk _ (by omega)]
    exact pushed_word (by omega) i hi
  refine ⟨if_pos rfl, ?_, ?_, fun r => ?_, hseg, ?_, rfl, ?_, ?_⟩
  · simp only [hesp, sizeofTask]
    omega
  · simp only [hesp, pageSize]
    omega
  · have hslot : ∀ i, c.esp - 4 * (i + 1) = c.esp - 36 + 4 + Cpu.popaSlot r → i ≤ 8 →
        (savedWords c)[i]? = some (c.reg r) →
        c.reg r = savedMem K cur c (savedEsp (savedMem K cur c) cur + 4 + Cpu.popaSlot r) := fun i he h8 hi => by
      rw [hesp, ← he]
      exact (hword i _ hi h8).symm
    cases r
    case eax => exact hslot 0 (by simp only [Cpu.popaSlot]; omega) (by decide) rfl
    case ecx => exact hslot 1 (by simp only [Cpu.popaSlot]; omega) (by decide) rfl
    case edx => exact hslot 2 (by simp only [Cpu.popaSlot]; omega) (by decide) rfl
    case ebx => exact hslot 3 (by simp only [Cpu.popaSlot]; omega) (by decide) rfl
    case ebp => exact hslot 5 (by simp only [Cpu.popaSlot]; omega) (by decide) rfl
    case esi => exact hslot 6 (by simp only [Cpu.popaSlot]; omega) (by decide) rfl
    case edi => exact hslot 7 (by simp only [Cpu.popaSlot]; omega) (by decide) rfl
  · rw [hesp]
    exact (hword 8 _ rfl le_rfl).symm
  · rw [hesp]
    change c.esp = c.esp - 36 + 36
    omega
  · rw [hesp]
    funext a
    have hback : c.esp - 36 + 36 = c.esp := by omega
    simp only [viewOf, stackOf, hback]
    split_ifs with ha
    · rw [hstk a (by omega), pushed_other (by omega) (Or.inr ha.1)]
    · rfl

/-! ## The instructions -/

/-- the stack pointer of next is loaded between the two stores to the context of cur -/
def loadedEsp (cur next : ℕ) (d : Cpu) : ℕ :=
  (if next + contextEsp = cur + contextEsp then BitVec.ofNat 32 d.esp else d.mem (next + contextEsp)).toNat

def switchTail (K : Code) (cur next : ℕ) : List Ins :=
  [.saveEsp (cur + contextEsp), .loadEsp (next + contextEsp), .saveEip K.one (cur + contextEip), .pushM (next + contextEip)]

/-- the last four instructions and ret -/
def tailRet (K : Code) (cur next : ℕ) (d : Cpu) : Cpu := ((switchTail K cur next).foldl Ins.exec d).ret

theorem tailRet_mem (d : Cpu) (a : ℕ) : (tailRet K cur next d).mem a =
    if a = loadedEsp cur next d - 4 then contextMem K cur d (next + contextEip) else contextMem K cur d a := rfl

theorem tailRet_esp (d : Cpu) : (tailRet K cur next d).esp = loadedEsp cur next d - 4 + 4 := rfl

theorem tailRet_eip (d : Cpu) : (tailRet K cur next d).eip = (tailRet K cur next d).mem (loadedEsp cur next d - 4) := rfl

theorem ret_rest (c : Cpu) : c.ret.seg = c.seg ∧ c.ret.esp0 = c.esp0 := ⟨rfl, rfl⟩

/-- the instructions leave the segments and the tss alone -/
theorem exec_rest (c : Cpu) (i : Ins) : (i.exec c).seg = c.seg ∧ (i.exec c).esp0 = c.esp0 := by
  cases i with
  | pusha => simp only [Ins.exec, Cpu.onMachine, Machine.pushes_seg, and_self]
  | _ => exact ⟨rfl, rfl⟩

theorem execs_rest (is : List Ins) (c : Cpu) : (is.foldl Ins.exec c).seg = c.seg ∧ (is.foldl Ins.exec c).esp0 = c.esp0 := by
  induction is generalizing c with
  | nil => exact ⟨rfl, rfl⟩
  | cons i is ih =>
    obtain ⟨hseg, hesp0⟩ := exec_rest c i
    exact ⟨(ih (i.exec c)).1.trans hseg, (ih (i.exec c)).2.trans hesp0⟩

theorem switchBlock_eq (c : Cpu) : (switchBlock K cur next).foldl Ins.exec c =
    (switchTail K cur next).foldl Ins.exec (pushed c) := by
  have hpush : Ins.exec (Ins.exec c .pusha) .pushf = pushed c := by
    simp only [Ins.exec, pushed, Cpu.onMachine, savedWords, Machine.pushes_concat]
  rw [switchBlock, List.foldl_cons, List.foldl_cons, hpush, switchTail]

/-- the machine c1 after the ret of arch_switch_to: it is on the stack of next, and cur is parked -/
structure Left (K : Code) (cur next : ℕ) (c c1 : Cpu) : Prop where
  eip : c1.eip = c1.mem (next + contextEip)
  esp : c1.esp = savedEsp c1.mem next
  seg : c1.seg = c.seg
  esp0 : c1.esp0 = c.esp0
  kept : ∀ a, Kept c.mem next a → c1.mem a = c.mem a
  others : ∀ t, TaskPage t → t ≠ cur → t ≠ next → ∀ a, t ≤ a → a < t + pageSize → c1.mem a = c.mem a
  off : Parked K c1.mem cur { viewOf cur c with eip := K.after }

/-- what the instructions leave, of the memory and the stack pointer -/
theorem left_of {c1 : Cpu} (hcur : TaskPage cur) (hnext : TaskPage next) (hne : next ≠ cur) (hstack : InStack cur c.esp)
    (hroom : cur + sizeofTask + 40 < c.esp) (hseg : c.seg = kernelSeg) (hp : Parked K c.mem next v)
    (hmem : ∀ a, c1.mem a = if a = savedEsp c.mem next - 4 then savedMem K cur c (next + contextEip) else savedMem K cur c a)
    (hesp : c1.esp = savedEsp c.mem next) (heip : c1.eip = savedMem K cur c (next + contextEip)) (hseg1 : c1.seg = c.seg)
    (hesp0 : c1.esp0 = c.esp0) : Left K cur next c c1 := by
  have hlow := hp.low
  have hhigh := hp.high
  have halign : cur % 4096 = 0 := hcur.aligned
  have halign' : next % 4096 = 0 := hnext.aligned
  have hpage : pageSize = 4096 := rfl
  have hsize : sizeofTask = 232 := rfl
  have hother : ∀ a, next ≤ a → a < next + pageSize → savedMem K cur c a = c.mem a := fun a h1 h2 =>
    savedMem_other hstack hroom (by omega)
  have hkept : ∀ a, Kept c.mem next a → c1.mem a = c.mem a := fun a ha => by
    have hin := hp.kept_page ha
    have hne4 : a ≠ savedEsp c.mem next - 4 := by
      obtain rfl | rfl | ⟨h, -⟩ := ha
      · simp only [contextEsp]; omega
      · simp only [contextEip]; omega
      · change savedEsp c.mem next ≤ a at h
        omega
    rw [hmem, if_neg hne4, hother a hin.1 hin.2]
  refine ⟨?_, ?_, hseg1, hesp0, hkept, fun t ht htc htn a h1 h2 => ?_, ?_⟩
  · have hctx : next + contextEip < next + pageSize := by simp only [contextEip]; omega
    rw [hkept _ (Or.inr (Or.inl rfl)), heip, hother _ (Nat.le_add_right _ _) hctx]
  · rw [hesp, savedEsp_congr hkept]
  · have : t % 4096 = 0 := ht.aligned
    rw [hmem, if_neg (by omega), savedMem_other hstack hroom (by omega)]
  · have hoff : Parked K (savedMem K cur c) cur { viewOf cur c with eip := K.after } :=
      Or.inl (savedMem_switched hcur hstack hroom hseg)
    refine hoff.frame fun a ha => ?_
    have hin := hoff.kept_page ha
    rw [hmem, if_neg (by omega)]

theorem switchBlock_left (hcur : TaskPage cur) (hnext : TaskPage next) (hne : next ≠ cur) (hstack : InStack cur c.esp)
    (hroom : cur + sizeofTask + 40 < c.esp) (hseg : c.seg = kernelSeg) (hp : Parked K c.mem next v) :
    Left K cur next c ((switchBlock K cur next).foldl Ins.exec c).ret := by
  have hlow := hp.low
  have hhigh := hp.high
  have htop := hstack.high
  have halign : cur % 4096 = 0 := hcur.aligned
  have halign' : next % 4096 = 0 := hnext.aligned
  have hpage : pageSize = 4096 := rfl
  have hsize : sizeofTask = 232 := rfl
  have hn : loadedEsp cur next (pushed c) = savedEsp c.mem next := by
    rw [loadedEsp, if_neg (by omega), savedEsp, pushed_other (by omega) (by simp only [contextEsp]; omega)]
  obtain ⟨hregs, hesp0⟩ := execs_rest (switchBlock K cur next) c
  obtain ⟨hret, hret0⟩ := ret_rest ((switchBlock K cur next).foldl Ins.exec c)
  refine left_of hcur hnext hne hstack hroom hseg hp (fun a => ?_) ?_ ?_ (hret.trans hregs) (hret0.trans hesp0)
  · rw [switchBlock_eq, ← tailRet, tailRet_mem, hn, savedMem]
  · rw [switchBlock_eq, ← tailRet, tailRet_esp]
    omega
  · rw [switchBlock_eq, ← tailRet, tailRet_eip, tailRet_mem, if_pos rfl, savedMem]

/-- **switch_to.** The next task has its view, the last one is parked with the view it had, the others are as they were. -/
theorem switchTo_spec (hcur : TaskPage cur) (hnext : TaskPage next) (hne : next ≠ cur) (hstack : InStack cur c.esp)
    (hroom : cur + sizeofTask + 40 < c.esp) (hseg : c.seg = kernelSeg) (hp : Parked K c.mem next v) :
    ∃ c', switchTo K cur next c = some c' ∧ viewOf next c' = v ∧ InStack next c'.esp ∧ c'.esp0 = next + pageSize ∧
      Parked K c'.mem cur { viewOf cur c with eip := K.after } ∧
      ∀ t, TaskPage t → t ≠ cur → t ≠ next → ∀ a, t ≤ a → a < t + pageSize → c'.mem a = c.mem a := by
  have hleft := switchBlock_left (c := { c with esp0 := next + pageSize }) hcur hnext hne hstack hroom hseg hp
  have halign : cur % 4096 = 0 := hcur.aligned
  have halign' : next % 4096 = 0 := hnext.aligned
  have hpage : pageSize = 4096 := rfl
  obtain ⟨c', hgo, hback⟩ := (hp.frame hleft.kept).resume hleft.eip hleft.esp (hleft.seg.trans hseg)
  refine ⟨c', hgo, hback.view, hback.stack, hback.esp0.trans hleft.esp0, hleft.off.frame fun a ha => ?_, ?_⟩
  · have hin := hleft.off.kept_page ha
    exact hback.mem a (by omega)
  · intro t ht htc htn a h1 h2
    have : t % 4096 = 0 := ht.aligned
    rw [hback.mem a (by omega), hleft.others t ht htc htn a h1 h2]

/-! ## New threads -/

theorem contextInit_mem (t : ℕ) (pfn data : Word) (m : Machine) (a : ℕ) : (kthreadContextInit K t pfn data m).mem a =
    if a = t + contextEsp then BitVec.ofNat 32 (t + pageSize - Entry.sizeofPtRegs)
    else if a = t + contextEip then K.kthreadWrapper
    else if t + pageSize - Entry.sizeofPtRegs ≤ a ∧ a < t + pageSize - Entry.sizeofPtRegs + Entry.sizeofPtRegs then
      kthreadRegs K pfn data (a - (t + pageSize - Entry.sizeofPtRegs))
    else m.mem a := rfl

theorem contextInit_fresh (ht : TaskPage t) (pfn data : Word) (m : Machine) :
    Fresh K (kthreadContextInit K t pfn data m).mem t pfn data := by
  have hhigh := ht.high
  have hsize : Entry.sizeofPtRegs = 72 := rfl
  have hpage : pageSize = 4096 := rfl
  have hesp : savedEsp (kthreadContextInit K t pfn data m).mem t = t + pageSize - Entry.sizeofPtRegs := by
    rw [savedEsp, contextInit_mem, if_pos rfl, BitVec.toNat_ofNat, Nat.mod_eq_of_lt (by omega)]
  refine ⟨?_, hesp, fun a h1 h2 => ?_⟩
  · rw [contextInit_mem, if_neg (by simp only [contextEip, contextEsp]; omega), if_pos rfl]
  · rw [hesp] at h1 ⊢
    rw [contextInit_mem, if_neg (by simp only [contextEsp]; omega), if_neg (by simp only [contextEip]; omega),
      if_pos ⟨h1, by omega⟩]

theorem contextInit_other (pfn data : Word) (m : Machine) {a : ℕ} (ha : a < t ∨ t + pageSize ≤ a) :
    (kthreadContextInit K t pfn data m).mem a = m.mem a := by
  have hsize : Entry.sizeofPtRegs = 72 := rfl
  have hpage : pageSize = 4096 := rfl
  rw [contextInit_mem, if_neg (by simp only [contextEsp]; omega), if_neg (by simp only [contextEip]; omega), if_neg (by omega)]

/-! ## One step at a time -/

/-- the processor shows the view of the running task, and the others are parked with theirs -/
structure Abs (K : Code) (s : Sys) (a : Multi) : Prop where
  tasks : s.tasks = a.tasks
  current : a.current ∈ a.tasks
  pages : ∀ t ∈ a.tasks, TaskPage t
  stack : InStack a.current s.cpu.esp
  esp0 : s.cpu.esp0 = a.current + pageSize
  running : viewOf a.current s.cpu = a.view a.current
  parked : ∀ t ∈ a.tasks, t ≠ a.current → Parked K s.cpu.mem t (a.view t)

variable {s s' : Sys} {a : Multi}

theorem Abs.current_eq (h : Abs K s a) : s.current = a.current := getCurrent_eq (h.pages _ h.current) h.stack

theorem setView_self (t : ℕ) (v : View) : (a.setView t v).view t = v := if_pos rfl

theorem setView_ne (v : View) (h : u ≠ t) : (a.setView t v).view u = a.view u := if_neg h

theorem run_refines (h : Abs K s a) (hr : Ran s s') : ∃ a', a.step K .run a' ∧ Abs K s' a' := by
  have hcur := h.current_eq
  refine ⟨a.setView a.current (viewOf a.current s'.cpu), ⟨_, rfl⟩, hr.tasks.trans h.tasks, h.current, h.pages,
    hcur ▸ hr.stack, ?_, ?_, fun t ht hne => ?_⟩
  · rw [hr.esp0, h.esp0]
    rfl
  · exact (setView_self _ _).symm
  · have hview : (a.setView a.current (viewOf a.current s'.cpu)).view t = a.view t := setView_ne _ hne
    rw [hview]
    refine (h.parked t ht hne).frame (hr.others t (h.tasks ▸ ht) ?_)
    rw [hcur]
    exact hne

theorem spawn_refines (h : Abs K s a) {pfn data : Word} (hnew : t ∉ s.tasks) (hpage : TaskPage t) :
    ∃ a', a.step K (.spawn t pfn data) a' ∧
      Abs K ⟨insert t s.tasks, s.cpu.onMachine (kthreadContextInit K t pfn data)⟩ a' := by
  rw [h.tasks] at hnew
  have hne : a.current ≠ t := fun he => hnew (he ▸ h.current)
  have halign : t % 4096 = 0 := hpage.aligned
  have hcalign : a.current % 4096 = 0 := (h.pages _ h.current).aligned
  have hsize : pageSize = 4096 := rfl
  refine ⟨(a.setView t (threadView K t pfn data)).setTasks (insert t a.tasks), ⟨hnew, rfl⟩, ?_,
    Finset.mem_insert_of_mem h.current, fun u hu => ?_, h.stack, h.esp0, ?_, fun u hu hucur => ?_⟩
  · exact congrArg (insert t) h.tasks
  · obtain rfl | hu := Finset.mem_insert.1 hu
    · exact hpage
    · exact h.pages u hu
  · have hsame : viewOf a.current (s.cpu.onMachine (kthreadContextInit K t pfn data)) = viewOf a.current s.cpu := by
      refine View.ext rfl rfl rfl rfl rfl (funext fun x => ?_)
      have hlow := h.stack.low
      simp only [viewOf, stackOf]
      split_ifs with hx hx' hx'
      · exact contextInit_other pfn data _ (by omega)
      · exact absurd hx hx'
      · exact absurd hx' hx
      · rfl
    exact hsame.trans (h.running.trans (setView_ne _ hne).symm)
  · by_cases hut : u = t
    · have hview : ((a.setView t (threadView K t pfn data)).setTasks (insert t a.tasks)).view u = threadView K t pfn data :=
        if_pos hut
      rw [hview, hut]
      exact Or.inr ⟨pfn, data, contextInit_fresh hpage pfn data _, rfl⟩
    · have hmem := (Finset.mem_insert.1 hu).resolve_left hut
      have hview : ((a.setView t (threadView K t pfn data)).setTasks (insert t a.tasks)).view u = a.view u := setView_ne _ hut
      have hp := h.parked u hmem hucur
      have hualign : u % 4096 = 0 := (h.pages u hmem).aligned
      rw [hview]
      refine hp.frame fun x hx => ?_
      have hin := hp.kept_page hx
      exact contextInit_other pfn data _ (by omega)

theorem switch_refines_step (h : Abs K s a) (hm : MaySwitch K s next) :
    ∃ c', switchTo K s.current next s.cpu = some c' ∧ ∃ a', a.step K (.switch next) a' ∧ Abs K ⟨s.tasks, c'⟩ a' := by
  have hcur := h.current_eq
  have hnext : next ∈ a.tasks := h.tasks ▸ hm.task
  have hne : next ≠ a.current := hcur ▸ hm.other
  have hroom := hm.room
  rw [hcur] at hroom
  obtain ⟨c', hgo, hview, hstack, hesp0, hoff, hothers⟩ :=
    switchTo_spec (h.pages _ h.current) (h.pages _ hnext) hne h.stack hroom
    hm.seg (h.parked next hnext hne)
  rw [hcur]
  have heip : (a.view a.current).eip = K.switch := by
    rw [← h.running]
    exact hm.eip
  refine ⟨c', hgo, (a.setView a.current { a.view a.current with eip := K.after }).goTo next,
    ⟨hnext, hne, heip, rfl⟩, h.tasks, hnext, h.pages, hstack, hesp0, hview.trans (setView_ne _ hne).symm,
    fun t ht htn => ?_⟩
  by_cases htc : t = a.current
  · have hsame : ((a.setView a.current { a.view a.current with eip := K.after }).goTo next).view t =
        { a.view a.current with eip := K.after } := if_pos htc
    rw [hsame, ← h.running, htc]
    exact hoff
  · have hsame : ((a.setView a.current { a.view a.current with eip := K.after }).goTo next).view t = a.view t := setView_ne _ htc
    have hp := h.parked t ht htc
    rw [hsame]
    refine hp.frame fun x hx => ?_
    have hin := hp.kept_page hx
    exact hothers t (h.pages t ht) htc htn x hin.1 hin.2

theorem reap_refines (h : Abs K s a) (ht : t ≠ s.current) :
    ∃ a', a.step K (.reap t) a' ∧ Abs K { s with tasks := s.tasks.erase t } a' := by
  rw [h.current_eq] at ht
  refine ⟨a.setTasks (a.tasks.erase t), ⟨ht, rfl⟩, ?_, Finset.mem_erase.2 ⟨ht.symm, h.current⟩, fun u hu => ?_, h.stack,
    h.esp0, h.running, fun u hu hne => ?_⟩
  · exact congrArg (fun tasks : Finset ℕ => tasks.erase t) h.tasks
  · exact h.pages u (Finset.mem_of_mem_erase hu)
  · exact h.parked u (Finset.mem_of_mem_erase hu) hne

theorem step_refines (h : Abs K s a) {o : Op} (hs : step K s o s') : ∃ a', a.step K o a' ∧ Abs K s' a' := by
  cases o with
  | run => exact run_refines h hs
  | switch next =>
    obtain ⟨hm, hgo, htasks⟩ := hs
    obtain ⟨c', hgo', a', ha, habs⟩ := switch_refines_step h hm
    obtain rfl := Option.some.inj (hgo'.symm.trans hgo)
    have hs' : s' = ⟨s.tasks, s'.cpu⟩ := by rw [← htasks]
    rw [hs']
    exact ⟨a', ha, habs⟩
  | spawn t pfn data =>
    obtain ⟨hnew, hpage, rfl⟩ := hs
    exact spawn_refines h hnew hpage
  | reap t =>
    obtain ⟨ht, rfl⟩ := hs
    exact reap_refines h ht

/-! ## Every run -/

theorem boot_abs (h : Boot s) : ∃ a, (Multi.system K).start a ∧ Abs K s a := by
  refine ⟨⟨{s.current}, s.current, fun _ => viewOf s.current s.cpu⟩, rfl, h.task, Finset.mem_singleton_self _,
    fun t ht => ?_, h.stack, h.esp0, rfl, fun t ht hne => ?_⟩
  · exact Finset.mem_singleton.1 ht ▸ h.page
  · exact absurd (Finset.mem_singleton.1 ht) hne

theorem run_abs {os : List Op} (hr : (machine K).Run s os s') (h : Abs K s a) :
    ∃ a', (Multi.system K).Run a os a' ∧ Abs K s' a' := by
  induction hr generalizing a with
  | nil => exact ⟨a, .nil a, h⟩
  | cons hst _ ih =>
    obtain ⟨a1, h1, habs1⟩ := step_refines h hst
    obtain ⟨a', hrun, habs⟩ := ih habs1
    exact ⟨a', .cons h1 hrun, habs⟩

/-- **One processor is as good as many.** Whatever the tasks run, in any order of switches, new threads and exits, the run of
the one processor is a run, with the same steps, of a machine in which each task has registers, flags and a stack of its own
that nobody else touches. `current` is the task that runs, and the tss sends the interrupts from user mode to the end of its
page. A switch that schedule makes never jumps anywhere but to where its task left off, or to the start of its thread. -/
theorem switch_refines {os : List Op} {s₀ : Sys} (h₀ : Boot s₀) (hr : (machine K).Run s₀ os s) :
    ∃ a₀ a, (Multi.system K).start a₀ ∧ (Multi.system K).Run a₀ os a ∧ s.tasks = a.tasks ∧ s.current = a.current ∧
      s.cpu.esp0 = a.current + pageSize ∧ viewOf a.current s.cpu = a.view a.current ∧
      ∀ next, MaySwitch K s next → ∃ c', switchTo K s.current next s.cpu = some c' ∧ viewOf next c' = a.view next := by
  obtain ⟨a₀, hstart, habs₀⟩ := boot_abs h₀
  obtain ⟨a, hrun, habs⟩ := run_abs hr habs₀
  refine ⟨a₀, a, hstart, hrun, habs.tasks, habs.current_eq, habs.esp0, habs.running, fun next hm => ?_⟩
  obtain ⟨c', hgo, a', ha, habs'⟩ := switch_refines_step habs hm
  refine ⟨c', hgo, ?_⟩
  obtain ⟨-, hne, -, rfl⟩ := ha
  exact habs'.running.trans (setView_ne _ hne)

/-! ## A first thread -/

theorem labels_apart : (2 : Word) ≠ 4 := by decide

def labels : Code := ⟨1, 2, 3, 4, 5, 6, labels_apart⟩

/-- the first task is about to switch -/
def bootCpu : Cpu := ⟨⟨fun _ => 0, kernelSeg, 0x2000, fun _ => 0, false⟩, 0, 8, 1, 0x2000⟩

def bootSys : Sys := ⟨{0x1000}, bootCpu⟩

theorem bootSys_current : bootSys.current = 0x1000 :=
  getCurrent_eq ⟨by decide, by decide, by decide⟩ ⟨by decide, by decide⟩

/-- a thread is made on the page 0x3000 and switched to: it is at the start of its function -/
theorem switch_thread : ∃ s, (machine labels).Run bootSys [.spawn 0x3000 7 9, .switch 0x3000] s ∧ s.current = 0x3000 ∧
    viewOf 0x3000 s.cpu = threadView labels 0x3000 7 9 := by
  have hboot : Boot bootSys := by
    exact ⟨by rw [bootSys_current]; rfl, by rw [bootSys_current]; exact ⟨by decide, by decide, by decide⟩,
      by rw [bootSys_current]; exact ⟨by decide, by decide⟩, by rw [bootSys_current]; rfl⟩
  set s₁ : Sys := ⟨insert 0x3000 {0x1000}, bootCpu.onMachine (kthreadContextInit labels 0x3000 7 9)⟩ with hs₁
  have hcur : s₁.current = 0x1000 := bootSys_current
  have hspawn : (machine labels).step bootSys (.spawn 0x3000 7 9) s₁ :=
    ⟨by decide, ⟨by decide, by decide, by decide⟩, rfl⟩
  have hmay : MaySwitch labels s₁ 0x3000 := ⟨by decide, by rw [hcur]; decide, rfl, rfl, by rw [hcur]; decide⟩
  obtain ⟨_, _, -, -, -, -, -, -, hgo⟩ := switch_refines hboot (.cons hspawn (.nil s₁))
  obtain ⟨c, hc, -⟩ := hgo 0x3000 hmay
  have hswitch : (machine labels).step s₁ (.switch 0x3000) ⟨s₁.tasks, c⟩ := ⟨hmay, hc, rfl⟩
  have hrun : (machine labels).Run bootSys [.spawn 0x3000 7 9, .switch 0x3000] ⟨s₁.tasks, c⟩ :=
    .cons hspawn (.cons hswitch (.nil _))
  obtain ⟨a₀, a, -, ha, -, hcurrent, -, hview, -⟩ := switch_refines hboot hrun
  cases ha with
  | cons h1 h =>
    cases h with
    | cons h2 h =>
      cases h
      obtain ⟨-, rfl⟩ := h1
      obtain ⟨-, hne, -, rfl⟩ := h2
      have hthread : ((a₀.setView 0x3000 (threadView labels 0x3000 7 9)).setTasks (insert 0x3000 a₀.tasks)).view 0x3000 =
          threadView labels 0x3000 7 9 := by
        simp only [Multi.setTasks, Multi.setView, if_true]
      exact ⟨_, hrun, hcurrent, hview.trans ((setView_ne _ hne).trans hthread)⟩

end SinsOs.Switch
