/-
Kernel entry and exit: the stubs of arch/entry.S, SAVE_ALL and RESTORE_ALL (include/asm/processor.h) and the gates of
idt_setup (arch/idt.c).

A task in user mode enters through int 0x80, an external interrupt or an exception. The CPU pushes ss, esp, eflags, cs
and eip on the task's kernel stack, and for some exceptions an error code; the stubs complete this to a struct pt_regs of
72 bytes at the end of the stack. The C functions are called through `World.call`: they keep the stack pointer and may
write their arguments and the general registers, eip, eflags and esp of the pt_regs.

- `saveAll_spec`, `restoreAll_spec`: what the two macros do to any machine.
- `entry_returns_iff`: the way back is right exactly when the entry is not an int 0x80 above the last system call and not
  an exception whose error code the gate `reserved` leaves on the stack.
-/
import SinsOs.Arch.X86

namespace SinsOs.Entry

open SinsOs.Bits SinsOs.X86

/-! ## Names -/

/-- the exceptions that entry.S has a stub for -/
inductive Exc
  | divideError | debug | nmi | int3 | overflow | bounds | invalidOp | deviceNotAvailable | coprocessorSegmentOverrun
  | reserved | coprocessorError | doubleFault | invalidTss | segmentNotPresent | stackSegment | generalProtection
  | pageFault
deriving DecidableEq, Repr

inductive Sys
  | open_ | creat | close | read | write | ioctl | lseek | exec | exit | waitPid | waitChld | chdir | chroot | getcwd
  | dup | dup2 | readdir | sigreturn | sigaction | sigmask | kill | getpid | getppid | time
deriving DecidableEq, Repr

/-- the C functions that entry.S calls -/
inductive CFun
  | doIrq | doSignal | badSyscall
  | doExc (x : Exc)
  | sys (s : Sys)
deriving DecidableEq, Repr

/-- words of arguments on the stack, which the callee may write; at most three for a system call -/
def CFun.args : CFun → ℕ
  | doIrq | doSignal | badSyscall => 1
  | doExc _ => 2
  | sys _ => 3

inductive Label
  | irqStart (i : ℕ)
  | doIrqStart
  | exc (x : Exc)
  | errorCode
  | systemCall
  | badSystemCall
deriving DecidableEq, Repr

/-! ## struct pt_regs -/

def slot : Reg → ℕ
  | .ebx => 0x00
  | .ecx => 0x04
  | .edx => 0x08
  | .edi => 0x0C
  | .esi => 0x10
  | .ebp => 0x14
  | .eax => 0x18

def segSlot : Seg → ℕ
  | .gs => 0x1C
  | .fs => 0x20
  | .es => 0x24
  | .ds => 0x28

def oriEax : ℕ := 0x2C
def errCode : ℕ := 0x30
def eip : ℕ := 0x34
def cs : ℕ := 0x38
def eflags : ℕ := 0x3C
def esp : ℕ := 0x40
def ss : ℕ := 0x44

def sizeofPtRegs : ℕ := 72

/-- the slots do_signal and sys_sigreturn are meant to write -/
def Rewritten (off : ℕ) : Prop := (∃ r, off = slot r) ∨ off = eip ∨ off = eflags ∨ off = esp

/-! ## The C functions -/

/-- a call that keeps the stack, its own arguments and the rewritten slots of the pt_regs apart -/
structure Keeps (esp0 args : ℕ) (m m' : Machine) : Prop where
  esp : m'.esp = m.esp
  mem : ∀ a, m.esp + 4 * args ≤ a → a < esp0 → (∀ off, Rewritten off → a ≠ esp0 - sizeofPtRegs + off) →
      m'.mem a = m.mem a

/-- kernel stacks are a page; bad_syscall and do_reserved only print -/
structure World where
  esp0 : ℕ
  page : 4096 ≤ esp0
  addr : CFun → Word
  call : Word → Machine → Option Machine
  keeps : ∀ f m m', call (addr f) m = some m' → Keeps esp0 f.args m m'
  bad_returns : ∀ m, (call (addr .badSyscall) m).isSome
  reserved_returns : ∀ m, (call (addr (.doExc .reserved)) m).isSome

/-! ## Model: arch/entry.S -/

def gdtKernelDs : Word := 2
def nrSystemCalls : ℕ := 24

/-- syscall_table of kernel/syscall.c -/
def syscallTable : List Sys :=
  [.open_, .creat, .close, .read, .write, .ioctl, .lseek, .exec, .exit, .waitPid, .waitChld, .chdir, .chroot, .getcwd,
    .dup, .dup2, .readdir, .sigreturn, .sigaction, .sigmask, .kill, .getpid, .getppid, .time]

open Instr

def saveAll : List (Instr Label) :=
  [pushS .ds, pushS .es, pushS .fs, pushS .gs, pushR .eax, pushR .ebp, pushR .esi, pushR .edi, pushR .edx, pushR .ecx,
    pushR .ebx]

def restoreAll : List (Instr Label) :=
  [popR .ebx, popR .ecx, popR .edx, popR .edi, popR .esi, popR .ebp, popR .eax, popS .gs, popS .fs, popS .es, popS .ds,
    addEsp 8]

def loadKernelDs (segs : List Seg) : List (Instr Label) := movI (gdtKernelDs <<< 3) .eax :: segs.map (movS .eax)

/-- the argument of do_signal -/
def pushRegs : List (Instr Label) := [lea 0 .eax, pushR .eax]

variable (K : World)

/-- ENTRY_ERROR_CODE, as against ENTRY_NO_ERROR_CODE -/
def Exc.hasCode : Exc → Bool
  | .doubleFault | .invalidTss | .segmentNotPresent | .stackSegment | .generalProtection | .pageFault => true
  | _ => false

/-- system_call behind the check of the number -/
def dispatch : List (Instr Label) :=
  [subEsp 8] ++ saveAll ++ loadKernelDs [.ds, .es, .fs, .gs] ++ [load (slot .eax) .eax] ++
    [callTable (syscallTable.map fun s => K.addr (.sys s)) .eax] ++
    [Instr.store .eax (slot .eax)] ++ pushRegs ++
    [callI (K.addr .doSignal)] ++
    [addEsp 4] ++ restoreAll ++ [iret]

def prog : Label → List (Instr Label)
  | .irqStart i => [pushI (BitVec.ofNat 32 i), jmp .doIrqStart]
  | .doIrqStart =>
    [pushI (K.addr .doIrq)] ++ saveAll ++ [load errCode .eax, load oriEax .ebx, pushR .eax] ++
      loadKernelDs [.es, .ds, .fs, .gs] ++ [movLow 0x20 .eax, out .eax 0x20, nop, nop, out .eax 0xA0] ++
      [callR .ebx] ++
      [addEsp 4] ++ pushRegs ++
      [callI (K.addr .doSignal)] ++
      [addEsp 4] ++ restoreAll ++ [iret]
  | .exc x =>
    (if x.hasCode then [] else [pushI 0]) ++ [pushI (K.addr (.doExc x)), jmp .errorCode]
  | .errorCode =>
    saveAll ++ [load errCode .eax, load oriEax .ebx, pushR .eax, lea 4 .eax, pushR .eax] ++
      loadKernelDs [.es, .ds, .fs, .gs] ++
      [callR .ebx] ++
      [addEsp 8] ++ restoreAll ++ [iret]
  | .systemCall => [cmpI (BitVec.ofNat 32 (nrSystemCalls - 1)) .eax, ja .badSystemCall] ++ dispatch K
  | .badSystemCall =>
    [pushR .eax] ++
      [callI (K.addr .badSyscall)] ++
      [addEsp 4] ++ [ret]

/-! ## Model: arch/idt.c and the CPU -/

def nrExternalVectors : ℕ := 0x20
def nrIrqs : ℕ := 16

/-- the gate that idt_setup sets last for a vector -/
def idt (v : ℕ) : Label :=
  if nrExternalVectors ≤ v ∧ v < nrExternalVectors + nrIrqs then .irqStart (v - nrExternalVectors)
  else if v = 0x80 then .systemCall
  else match v with
    | 0 => .exc .divideError
    | 1 => .exc .debug
    | 2 => .exc .nmi
    | 3 => .exc .int3
    | 4 => .exc .overflow
    | 5 => .exc .bounds
    | 6 => .exc .invalidOp
    | 7 => .exc .deviceNotAvailable
    | 8 => .exc .doubleFault
    | 9 => .exc .coprocessorSegmentOverrun
    | 10 => .exc .invalidTss
    | 11 => .exc .segmentNotPresent
    | 12 => .exc .stackSegment
    | 13 => .exc .generalProtection
    | 14 => .exc .pageFault
    | 16 => .exc .coprocessorError
    | _ => .exc .reserved

/-- the exceptions for which the CPU pushes an error code; the last three only on later processors -/
def cpuErrorCode (v : ℕ) : Bool := v = 8 || (10 ≤ v && v ≤ 14) || v = 17 || v = 21 || v = 29 || v = 30

/-- a task in user mode: its registers, the frame the CPU pushes and what is left on its kernel stack -/
structure User where
  reg : Reg → Word
  seg : Seg → BitVec 16
  eip : Word
  cs : Word
  eflags : Word
  esp : Word
  ss : Word
  stack : ℕ → Word
  ring3 : cs &&& 3#32 = 3#32

inductive Event
  | int80
  | irq (i : Fin nrIrqs)
  | exception (v : Fin nrExternalVectors) (code : Word)

def Event.vector : Event → ℕ
  | int80 => 0x80
  | irq i => nrExternalVectors + i
  | exception v _ => v

def Event.code : Event → List Word
  | exception v code => if cpuErrorCode v then [code] else []
  | _ => []

/-- what the CPU does on an entry from user mode -/
def cpuEnter (u : User) (e : Event) : Machine :=
  (⟨u.reg, u.seg, K.esp0, u.stack, false⟩ : Machine).pushes ([u.ss, u.esp, u.eflags, u.cs, u.eip] ++ e.code)

/-- an entry path jumps at most twice -/
def enter (u : User) (e : Event) : Outcome := run K.call (prog K) 3 (idt e.vector) (cpuEnter K u e)

/-! ## The way back -/

def World.ptRegs : ℕ := K.esp0 - sizeofPtRegs

/-- at an iret: the stack pointer is on the frame the CPU pushed, cs and ss are the ones it pushed, the segment registers
are the user's and all registers are those of the pt_regs -/
structure Resumes (u : User) (m : Machine) : Prop where
  esp : m.esp = K.esp0 - 20
  cs : m.mem (m.esp + 4) = u.cs
  ss : m.mem (m.esp + 16) = u.ss
  reg : ∀ r, m.reg r = m.mem (K.ptRegs + slot r)
  seg : ∀ s, m.seg s = (m.mem (K.ptRegs + segSlot s)).setWidth 16
  userSeg : m.seg = u.seg

/-- the entry path does not return, or returns by such an iret -/
def Returns (u : User) : Outcome → Prop
  | .iret m => Resumes K u m
  | .ret _ => False
  | .stopped => True
  | .wild => False

/-- no int 0x80 above the last system call, no error code on the stack of the gate `reserved` -/
def Event.Balanced (u : User) : Event → Prop
  | int80 => (u.reg .eax).toNat < nrSystemCalls
  | irq _ => True
  | exception v _ => cpuErrorCode v = true → idt v ≠ .exc .reserved

/-! ## The two macros -/

/-- the words SAVE_ALL pushes -/
def saved (m : Machine) : List Word :=
  ([.ds, .es, .fs, .gs].map fun s => (m.seg s).setWidth 32) ++ [.eax, .ebp, .esi, .edi, .edx, .ecx, .ebx].map m.reg

theorem saveAll_pushes (m : Machine) : execAll m saveAll = m.pushes (saved m) := rfl

/-- SAVE_ALL lays the registers out as struct pt_regs has them -/
structure SaveAll (m m' : Machine) : Prop where
  esp : m'.esp = m.esp - 0x2C
  above : ∀ a, m.esp ≤ a → m'.mem a = m.mem a
  reg : ∀ r, m'.mem (m'.esp + slot r) = m.reg r
  seg : ∀ s, m'.mem (m'.esp + segSlot s) = (m.seg s).setWidth 32

theorem saveAll_spec (m : Machine) (hroom : 0x2C ≤ m.esp) : SaveAll m (execAll m saveAll) := by
  have hesp : (execAll m saveAll).esp = m.esp - 0x2C := by rw [saveAll_pushes, Machine.pushes_esp]; rfl
  have hword : ∀ i w, (saved m)[i]? = some w → (execAll m saveAll).mem (m.esp - 4 * (i + 1)) = w := fun i w =>
    m.pushes_mem (saved m) hroom
  refine ⟨hesp, fun a => m.pushes_above (saved m) hroom, fun r => ?_, fun s => ?_⟩
  · have hslot : ∀ i, m.esp - 4 * (i + 1) = m.esp - 0x2C + slot r → (saved m)[i]? = some (m.reg r) →
        (execAll m saveAll).mem ((execAll m saveAll).esp + slot r) = m.reg r := fun i he hi => by
      rw [hesp, ← he]; exact hword i _ hi
    cases r
    case eax => exact hslot 4 (by simp only [slot]; omega) rfl
    case ebp => exact hslot 5 (by simp only [slot]; omega) rfl
    case esi => exact hslot 6 (by simp only [slot]; omega) rfl
    case edi => exact hslot 7 (by simp only [slot]; omega) rfl
    case edx => exact hslot 8 (by simp only [slot]; omega) rfl
    case ecx => exact hslot 9 (by simp only [slot]; omega) rfl
    case ebx => exact hslot 10 (by simp only [slot]; omega) rfl
  · have hslot : ∀ i, m.esp - 4 * (i + 1) = m.esp - 0x2C + segSlot s → (saved m)[i]? = some ((m.seg s).setWidth 32) →
        (execAll m saveAll).mem ((execAll m saveAll).esp + segSlot s) = (m.seg s).setWidth 32 := fun i he hi => by
      rw [hesp, ← he]; exact hword i _ hi
    cases s
    case ds => exact hslot 0 (by simp only [segSlot]; omega) rfl
    case es => exact hslot 1 (by simp only [segSlot]; omega) rfl
    case fs => exact hslot 2 (by simp only [segSlot]; omega) rfl
    case gs => exact hslot 3 (by simp only [segSlot]; omega) rfl

/-- RESTORE_ALL takes the same layout back and drops two words -/
structure RestoreAll (m m' : Machine) : Prop where
  esp : m'.esp = m.esp + 0x34
  mem : m'.mem = m.mem
  reg : ∀ r, m'.reg r = m.mem (m.esp + slot r)
  seg : ∀ s, m'.seg s = (m.mem (m.esp + segSlot s)).setWidth 16

theorem restoreAll_spec (m : Machine) : RestoreAll m (execAll m restoreAll) :=
  ⟨rfl, rfl, fun r => by cases r <;> rfl, fun s => by cases s <;> rfl⟩

/-! ## What survives on the stack -/

variable {K} {u : User} {m m' : Machine}

/-- the machine in front of SAVE_ALL: the frame of the CPU and two more words are on the stack -/
structure Ready (K : World) (u : User) (m : Machine) : Prop where
  esp : m.esp = K.ptRegs + 0x2C
  seg : m.seg = u.seg
  cs : m.mem (K.esp0 - 16) = u.cs
  ss : m.mem (K.esp0 - 4) = u.ss

/-- the slots of the pt_regs that no C function may write -/
structure Saved (K : World) (u : User) (m : Machine) : Prop where
  seg : ∀ s, m.mem (K.ptRegs + segSlot s) = (u.seg s).setWidth 32
  cs : m.mem (K.esp0 - 16) = u.cs
  ss : m.mem (K.esp0 - 4) = u.ss

theorem segSlot_bounds (s : Seg) : 0x1C ≤ segSlot s ∧ segSlot s ≤ 0x28 := by cases s <;> decide

theorem slot_le (r : Reg) : slot r ≤ 0x18 := by cases r <;> decide

theorem Ready.save (h : Ready K u m) : (execAll m saveAll).esp = K.ptRegs ∧ Saved K u (execAll m saveAll) := by
  have hpage := K.page
  have hesp := h.esp
  have hbase : K.ptRegs = K.esp0 - 72 := rfl
  have hs := saveAll_spec m (by omega)
  have he : (execAll m saveAll).esp = K.ptRegs := by rw [hs.esp, hesp]; rfl
  refine ⟨he, fun s => ?_, ?_, ?_⟩
  · rw [← he, hs.seg, h.seg]
  · rw [hs.above _ (by omega), h.cs]
  · rw [hs.above _ (by omega), h.ss]

/-- code that writes only below the segment slots keeps them -/
theorem Saved.frame (h : Saved K u m) (hmem : ∀ a, K.ptRegs + 0x1C ≤ a → m'.mem a = m.mem a) : Saved K u m' := by
  have hpage := K.page
  have hbase : K.ptRegs = K.esp0 - 72 := rfl
  refine ⟨fun s => ?_, ?_, ?_⟩
  · have := (segSlot_bounds s).1
    rw [hmem _ (by omega), h.seg]
  · rw [hmem _ (by omega), h.cs]
  · rw [hmem _ (by omega), h.ss]

/-- a push below the pt_regs keeps them -/
theorem Saved.push (h : Saved K u m) (w : Word) (hesp : m.esp ≤ K.ptRegs) (hroom : 4 ≤ m.esp) : Saved K u (m.push w) :=
  h.frame fun a ha => m.push_above w hroom (by omega)

theorem Saved.call (h : Saved K u m) {args : ℕ} (hk : Keeps K.esp0 args m m') (hesp : m.esp + 4 * args ≤ K.ptRegs + 0x1C) :
    Saved K u m' := by
  have hpage := K.page
  have hbase : K.ptRegs = K.esp0 - 72 := rfl
  have hother : ∀ off, 0x1C ≤ off → off < 0x48 → ¬ Rewritten off →
      m'.mem (K.ptRegs + off) = m.mem (K.ptRegs + off) := by
    intro off hlo hhi hne
    refine hk.mem _ (by omega) (by omega) fun off' hr he => hne ?_
    have heq : off = off' := by simp only [sizeofPtRegs] at he; omega
    exact heq ▸ hr
  have hkept : ∀ off, 0x1C ≤ off → off ≠ eip → off ≠ eflags → off ≠ esp → ¬ Rewritten off := by
    rintro off hlo h1 h2 h3 (⟨r, hr⟩ | hr | hr | hr)
    · have := slot_le r; omega
    · exact h1 hr
    · exact h2 hr
    · exact h3 hr
  refine ⟨fun s => ?_, ?_, ?_⟩
  · obtain ⟨hlo, hhi⟩ := segSlot_bounds s
    rw [hother _ hlo (by omega) (hkept _ hlo (by simp only [eip]; omega) (by simp only [eflags]; omega)
      (by simp only [Entry.esp]; omega)), h.seg]
  · have heq : K.esp0 - 16 = K.ptRegs + Entry.cs := by simp only [Entry.cs]; omega
    rw [heq, hother _ (by decide) (by decide) (hkept _ (by decide) (by decide) (by decide) (by decide)), ← heq, h.cs]
  · have heq : K.esp0 - 4 = K.ptRegs + Entry.ss := by simp only [Entry.ss]; omega
    rw [heq, hother _ (by decide) (by decide) (hkept _ (by decide) (by decide) (by decide) (by decide)), ← heq, h.ss]

/-- RESTORE_ALL and iret from the start of the pt_regs -/
theorem Saved.leave (h : Saved K u m) (hesp : m.esp = K.ptRegs) : Resumes K u (execAll m restoreAll) := by
  have hpage := K.page
  have hbase : K.ptRegs = K.esp0 - 72 := rfl
  have hr := restoreAll_spec m
  have he : (execAll m restoreAll).esp = K.esp0 - 20 := by rw [hr.esp]; omega
  refine ⟨he, ?_, ?_, fun r => ?_, fun s => ?_, ?_⟩
  · rw [he, hr.mem, show K.esp0 - 20 + 4 = K.esp0 - 16 by omega, h.cs]
  · rw [he, hr.mem, show K.esp0 - 20 + 16 = K.esp0 - 4 by omega, h.ss]
  · rw [hr.reg, hr.mem, hesp]
  · rw [hr.seg, hr.mem, hesp]
  · funext s
    rw [hr.seg, hesp, h.seg, BitVec.setWidth_setWidth_of_le _ (by norm_num), BitVec.setWidth_eq]

theorem cpuEnter_esp (e : Event) : (cpuEnter K u e).esp = K.esp0 - 20 - 4 * e.code.length := by
  rw [cpuEnter, Machine.pushes_esp, List.length_append]
  change K.esp0 - 4 * (5 + e.code.length) = _
  omega

theorem code_length (e : Event) : e.code.length ≤ 1 := by
  cases e with
  | exception v code => simp only [Event.code]; split_ifs <;> simp
  | _ => simp [Event.code]

/-- the CPU left the user's segment registers and pushed cs and ss -/
theorem cpuEnter_frame (e : Event) : (cpuEnter K u e).seg = u.seg ∧ (cpuEnter K u e).reg = u.reg ∧
    (cpuEnter K u e).mem (K.esp0 - 16) = u.cs ∧ (cpuEnter K u e).mem (K.esp0 - 4) = u.ss := by
  have hpage := K.page
  have hlen := code_length e
  have hroom : 4 * ([u.ss, u.esp, u.eflags, u.cs, u.eip] ++ e.code).length ≤ K.esp0 := by
    simp only [List.length_append, List.length_cons, List.length_nil]
    omega
  refine ⟨Machine.pushes_seg _ _, Machine.pushes_reg _ _, ?_, ?_⟩
  · exact Machine.pushes_mem ⟨u.reg, u.seg, K.esp0, u.stack, false⟩ _ hroom (i := 3) rfl
  · exact Machine.pushes_mem ⟨u.reg, u.seg, K.esp0, u.stack, false⟩ _ hroom (i := 0) rfl

/-- the stub's words in front of SAVE_ALL: with the frame and, if there is one, the error code they are seven -/
theorem ready_pushes (e : Event) (ws : List Word) (hlen : ws.length + e.code.length = 2) :
    Ready K u ((cpuEnter K u e).pushes ws) := by
  have hpage := K.page
  have hbase : K.ptRegs = K.esp0 - 72 := rfl
  have hesp := cpuEnter_esp (K := K) (u := u) e
  obtain ⟨hseg, -, hcs, hss⟩ := cpuEnter_frame (K := K) (u := u) e
  refine ⟨?_, ?_, ?_, ?_⟩
  · rw [Machine.pushes_esp, hesp]; omega
  · rw [Machine.pushes_seg, hseg]
  · rw [Machine.pushes_above _ _ (by omega) (by omega), hcs]
  · rw [Machine.pushes_above _ _ (by omega) (by omega), hss]

/-! ## The paths -/

/-- a call either stops the path or goes on from a machine the callee kept -/
theorem call_cases (f : CFun) {goto : Label → Machine → Outcome} {is : List (Instr Label)} {P : Outcome → Prop}
    (hstop : P .stopped) (hgo : ∀ m', K.call (K.addr f) m = some m' → P (runBlock K.call goto is m')) :
    P ((K.call (K.addr f) m).elim .stopped (runBlock K.call goto is)) := by
  cases hc : K.call (K.addr f) m with
  | none => exact hstop
  | some m' => exact hgo m' hc

/-- the last word in front of SAVE_ALL is the slot ori_eax -/
theorem ori_eax (m : Machine) (w : Word) (hroom : 0x30 ≤ m.esp) :
    (execAll (m.push w) saveAll).mem ((execAll (m.push w) saveAll).esp + oriEax) = w := by
  have hesp : (m.push w).esp = m.esp - 4 := rfl
  have hs := saveAll_spec (m.push w) (by omega)
  have htop : (execAll (m.push w) saveAll).esp + oriEax = (m.push w).esp := by rw [hs.esp, hesp, oriEax]; omega
  rw [htop, hs.above _ le_rfl]
  exact if_pos rfl

/-- the end of a path: do_signal, RESTORE_ALL and iret -/
theorem signal_leave (h : Saved K u m) (hesp : m.esp = K.ptRegs) (goto : Label → Machine → Outcome) :
    Returns K u (runBlock K.call goto
      (pushRegs ++ [callI (K.addr .doSignal)] ++ [addEsp 4] ++ restoreAll ++ [iret]) m) := by
  have hpage := K.page
  have hbase : K.ptRegs = K.esp0 - 72 := rfl
  refine call_cases (m := m.setReg .eax (BitVec.ofNat 32 (m.esp + 0)) |>.push (BitVec.ofNat 32 (m.esp + 0))) .doSignal
    trivial fun m' hc => ?_
  set m1 := (m.setReg .eax (BitVec.ofNat 32 (m.esp + 0))).push (BitVec.ofNat 32 (m.esp + 0)) with hm1
  have hs1 : Saved K u m1 := (h.push _ hesp.le (by omega)).frame fun _ _ => rfl
  have hesp1 : m1.esp = m.esp - 4 := rfl
  have hk := K.keeps _ _ _ hc
  have hs2 : Saved K u m' := hs1.call hk (by simp only [CFun.args]; omega)
  have hesp2 := hk.esp
  have hleave : Resumes K u (execAll (m'.drop 4) restoreAll) :=
    Saved.leave (hs2.frame fun _ _ => rfl) (by change m'.esp + 4 = _; omega)
  exact hleave

theorem doIrqStart_returns (h : Ready K u (m.push (K.addr .doIrq))) (n : ℕ) :
    Returns K u (run K.call (prog K) (n + 1) .doIrqStart m) := by
  have hpage := K.page
  have hbase : K.ptRegs = K.esp0 - 72 := rfl
  obtain ⟨hesp, hs⟩ := h.save
  have hpush : (m.push (K.addr .doIrq)).esp = m.esp - 4 := rfl
  have hready := h.esp
  have hori := ori_eax m (K.addr .doIrq) (by omega)
  set m0 := execAll (m.push (K.addr .doIrq)) saveAll with hm0
  set m1 := execAll m0 ([load errCode .eax, load oriEax .ebx, pushR .eax] ++ loadKernelDs [.es, .ds, .fs, .gs] ++
    [movLow 0x20 .eax, out .eax 0x20, nop, nop, out .eax 0xA0] : List (Instr Label)) with hm1
  have hebx : m1.reg .ebx = K.addr .doIrq := hori
  have hesp1 : m1.esp = m0.esp - 4 := rfl
  have hs1 : Saved K u m1 := (hs.push (m0.mem (m0.esp + errCode)) hesp.le (by omega)).frame fun _ _ => rfl
  change Returns K u ((K.call (m1.reg .ebx) m1).elim .stopped _)
  rw [hebx]
  refine call_cases .doIrq trivial fun m2 hc => ?_
  have hk := K.keeps _ _ _ hc
  have hesp2 := hk.esp
  have hs2 : Saved K u m2 := hs1.call hk (by simp only [CFun.args]; omega)
  exact signal_leave (m := m2.drop 4) (hs2.frame fun _ _ => rfl) (by change m2.esp + 4 = _; omega) _

theorem errorCode_returns {x : Exc} (h : Ready K u (m.push (K.addr (.doExc x)))) (n : ℕ) :
    Returns K u (run K.call (prog K) (n + 1) .errorCode (m.push (K.addr (.doExc x)))) := by
  have hpage := K.page
  have hbase : K.ptRegs = K.esp0 - 72 := rfl
  obtain ⟨hesp, hs⟩ := h.save
  have hpush : (m.push (K.addr (.doExc x))).esp = m.esp - 4 := rfl
  have hready := h.esp
  have hori := ori_eax m (K.addr (.doExc x)) (by omega)
  set m0 := execAll (m.push (K.addr (.doExc x))) saveAll with hm0
  set m1 := execAll m0 ([load errCode .eax, load oriEax .ebx, pushR .eax, lea 4 .eax, pushR .eax] ++
    loadKernelDs [.es, .ds, .fs, .gs] : List (Instr Label)) with hm1
  have hebx : m1.reg .ebx = K.addr (.doExc x) := hori
  have hesp1 : m1.esp = m0.esp - 4 - 4 := rfl
  have hs1 : Saved K u m1 := by
    have h1 := hs.push (m0.mem (m0.esp + errCode)) hesp.le (by omega)
    have hesp' : (m0.push (m0.mem (m0.esp + errCode))).esp = m0.esp - 4 := rfl
    exact (h1.push (BitVec.ofNat 32 (m0.esp - 4 + 4)) (by omega) (by omega)).frame fun _ _ => rfl
  change Returns K u ((K.call (m1.reg .ebx) m1).elim .stopped _)
  rw [hebx]
  refine call_cases (.doExc x) trivial fun m2 hc => ?_
  have hk := K.keeps _ _ _ hc
  have hesp2 := hk.esp
  have hs2 : Saved K u m2 := hs1.call hk (by simp only [CFun.args]; omega)
  have hleave : Resumes K u (execAll (m2.drop 8) restoreAll) :=
    Saved.leave (hs2.frame fun _ _ => rfl) (by change m2.esp + 8 = _; omega)
  exact hleave

/-- error_code ends two words above the handler's address, whatever is there -/
theorem errorCode_esp (x : Exc) (hroom : 0x1000 - 0x40 ≤ m.esp)
    (hret : ∀ m, (K.call (K.addr (.doExc x)) m).isSome) (n : ℕ) :
    ∃ m', run K.call (prog K) (n + 1) .errorCode (m.push (K.addr (.doExc x))) = .iret m' ∧ m'.esp = m.esp + 4 := by
  have hori := ori_eax m (K.addr (.doExc x)) (by omega)
  have hesp := (saveAll_spec (m.push (K.addr (.doExc x))) (by change 0x2C ≤ m.esp - 4; omega)).esp
  have hpush : (m.push (K.addr (.doExc x))).esp = m.esp - 4 := rfl
  set m0 := execAll (m.push (K.addr (.doExc x))) saveAll with hm0
  set m1 := execAll m0 ([load errCode .eax, load oriEax .ebx, pushR .eax, lea 4 .eax, pushR .eax] ++
    loadKernelDs [.es, .ds, .fs, .gs] : List (Instr Label)) with hm1
  have hebx : m1.reg .ebx = K.addr (.doExc x) := hori
  have hesp1 : m1.esp = m0.esp - 4 - 4 := rfl
  obtain ⟨m2, hc⟩ := Option.isSome_iff_exists.1 (hret m1)
  have hesp2 := (K.keeps _ _ _ hc).esp
  have hrun : run K.call (prog K) (n + 1) .errorCode (m.push (K.addr (.doExc x))) =
      (K.call (m1.reg .ebx) m1).elim .stopped
        (runBlock K.call (run K.call (prog K) n) ([addEsp 8] ++ restoreAll ++ [iret])) := rfl
  refine ⟨execAll (m2.drop 8) restoreAll, ?_, ?_⟩
  · rw [hrun, hebx, hc]
    rfl
  · rw [(restoreAll_spec _).esp]
    change m2.esp + 8 + 0x34 = _
    omega

/-- the machine after `cmpl` -/
def compared (m : Machine) : Machine := (cmpI (BitVec.ofNat 32 (nrSystemCalls - 1)) .eax : Instr Label).exec m

theorem compared_above (m : Machine) : (compared m).above = true ↔ ¬ (m.reg .eax).toNat < nrSystemCalls := by
  have h23 : (BitVec.ofNat 32 (nrSystemCalls - 1)).toNat = 23 := by decide
  change decide (m.reg .eax > BitVec.ofNat 32 (nrSystemCalls - 1)) = true ↔ _
  rw [decide_eq_true_eq, gt_iff_lt, BitVec.lt_def, h23, nrSystemCalls]
  omega

theorem systemCall_run (n : ℕ) (m : Machine) : run K.call (prog K) (n + 1) .systemCall m =
    if (compared m).above then run K.call (prog K) n .badSystemCall (compared m)
    else runBlock K.call (run K.call (prog K) n) (dispatch K) (compared m) := by
  calc run K.call (prog K) (n + 1) .systemCall m
      = runBlock K.call (run K.call (prog K) n) ([cmpI (BitVec.ofNat 32 (nrSystemCalls - 1)) .eax] ++
          (ja .badSystemCall :: dispatch K)) m := rfl
    _ = _ := by rw [runBlock_append _ _ rfl, runBlock_ja]; rfl

/-- a number below NR_SYSTEM_CALLS finds its function in the table -/
theorem table_hit {k : ℕ} (h : k < nrSystemCalls) :
    ∃ s, (syscallTable.map fun s => K.addr (.sys s))[k]? = some (K.addr (.sys s)) := by
  have hlen : k < syscallTable.length := h
  exact ⟨syscallTable[k], by rw [List.getElem?_map, List.getElem?_eq_getElem hlen]; rfl⟩

/-- what system_call does behind SAVE_ALL, up to the call through the table -/
def toCall (m : Machine) : Machine :=
  execAll m (loadKernelDs [.ds, .es, .fs, .gs] ++ [load (slot .eax) .eax] : List (Instr Label))

theorem toCall_spec (m : Machine) : (toCall m).esp = m.esp ∧ (toCall m).mem = m.mem ∧
    (toCall m).reg .eax = m.mem (m.esp + slot .eax) := ⟨rfl, rfl, rfl⟩

theorem dispatch_run (goto : Label → Machine → Outcome) (m m1 : Machine)
    (hm1 : m1 = toCall (execAll { m with esp := m.esp - 8 } saveAll)) : runBlock K.call goto (dispatch K) m =
    ((syscallTable.map fun s => K.addr (.sys s))[(m1.reg .eax).toNat]?).elim .wild fun f =>
      (K.call f m1).elim .stopped (runBlock K.call goto ([Instr.store .eax (slot .eax)] ++
        (pushRegs ++ [callI (K.addr .doSignal)] ++ [addEsp 4] ++ restoreAll ++ [iret]))) := by
  subst hm1
  rfl

theorem dispatch_returns (h : Ready K u { m with esp := m.esp - 8 }) (heax : (m.reg .eax).toNat < nrSystemCalls)
    (goto : Label → Machine → Outcome) : Returns K u (runBlock K.call goto (dispatch K) m) := by
  have hpage := K.page
  have hbase : K.ptRegs = K.esp0 - 72 := rfl
  have hready := h.esp
  have hsave := saveAll_spec { m with esp := m.esp - 8 } (by omega)
  obtain ⟨hesp, hs⟩ := h.save
  obtain ⟨hesp1, hmem1, heax1⟩ := toCall_spec (execAll { m with esp := m.esp - 8 } saveAll)
  rw [hsave.reg] at heax1
  have hs1 := hs.frame fun a _ => congrFun hmem1 a
  obtain ⟨s, hsys⟩ := table_hit (K := K) heax
  rw [dispatch_run goto m _ rfl]
  generalize toCall (execAll { m with esp := m.esp - 8 } saveAll) = m1 at *
  rw [heax1, hsys]
  refine call_cases (.sys s) trivial fun m2 hc => ?_
  have hk := K.keeps _ _ _ hc
  have hesp2 := hk.esp
  have hs2 : Saved K u m2 := hs1.call hk (by simp only [CFun.args]; omega)
  refine signal_leave (m := m2.store (m2.esp + slot .eax) (m2.reg .eax)) (hs2.frame fun a ha => if_neg ?_) ?_ _
  · simp only [slot]; omega
  · change m2.esp = _; omega

/-- an int 0x80 above the last system call leaves by `ret` -/
theorem badSystemCall_ret (m : Machine) (n : ℕ) : ∃ m', run K.call (prog K) (n + 1) .badSystemCall m = .ret m' := by
  obtain ⟨m2, hc⟩ := Option.isSome_iff_exists.1 (K.bad_returns (m.push (m.reg .eax)))
  have hrun : run K.call (prog K) (n + 1) .badSystemCall m =
      (K.call (K.addr .badSyscall) (m.push (m.reg .eax))).elim .stopped
        (runBlock K.call (run K.call (prog K) n) ([addEsp 4] ++ [ret])) := rfl
  exact ⟨m2.drop 4, by rw [hrun, hc]; rfl⟩

/-! ## Every entry -/

theorem int80_returns_iff : Returns K u (enter K u .int80) ↔ Event.int80.Balanced u := by
  have hpage := K.page
  have hbase : K.ptRegs = K.esp0 - 72 := rfl
  obtain ⟨hseg, hreg, hcs, hss⟩ := cpuEnter_frame (K := K) (u := u) .int80
  have hesp := cpuEnter_esp (K := K) (u := u) .int80
  have habove := compared_above (cpuEnter K u .int80)
  rw [hreg] at habove
  have hidt : idt Event.int80.vector = .systemCall := by decide
  rw [enter, hidt, systemCall_run]
  change _ ↔ (u.reg .eax).toNat < nrSystemCalls
  by_cases heax : (u.reg .eax).toNat < nrSystemCalls
  · rw [if_neg (fun h => habove.1 h heax)]
    refine iff_of_true (dispatch_returns (m := compared (cpuEnter K u .int80)) ⟨?_, hseg, hcs, hss⟩ ?_ _) heax
    · change (cpuEnter K u .int80).esp - 8 = _
      rw [hesp]
      change K.esp0 - 20 - 4 * 0 - 8 = _
      omega
    · change ((cpuEnter K u .int80).reg .eax).toNat < _
      rwa [hreg]
  · rw [if_pos (habove.2 heax)]
    obtain ⟨m', hm'⟩ := badSystemCall_ret (K := K) (compared (cpuEnter K u .int80)) 1
    rw [hm']
    exact iff_of_false id heax

theorem irq_returns (i : Fin nrIrqs) : Returns K u (enter K u (.irq i)) := by
  have hidt : idt (Event.irq i).vector = .irqStart i := by
    have hi := i.isLt
    simp only [nrIrqs] at hi
    have hrange : nrExternalVectors ≤ nrExternalVectors + (i : ℕ) ∧
        nrExternalVectors + (i : ℕ) < nrExternalVectors + nrIrqs :=
      ⟨by omega, by simp only [nrIrqs]; omega⟩
    calc idt (Event.irq i).vector = .irqStart (nrExternalVectors + i - nrExternalVectors) := if_pos hrange
      _ = .irqStart i := by rw [Nat.add_sub_cancel_left]
  have hready : Ready K u ((cpuEnter K u (.irq i)).pushes [BitVec.ofNat 32 i, K.addr .doIrq]) := ready_pushes _ _ rfl
  have hrun : enter K u (.irq i) =
      run K.call (prog K) 2 .doIrqStart ((cpuEnter K u (.irq i)).push (BitVec.ofNat 32 i)) := by
    rw [enter, hidt]; rfl
  rw [hrun]
  exact doIrqStart_returns hready 1

/-- the exception of a gate -/
def Label.exc? : Label → Option Exc
  | .exc x => some x
  | _ => none

/-- the gate of an exception for which the CPU pushes an error code expects one, unless it is `reserved` -/
theorem idt_exc (v : Fin nrExternalVectors) : ∃ x, idt v = .exc x ∧ (cpuErrorCode v = false → x.hasCode = false) ∧
    (cpuErrorCode v = true → x ≠ .reserved → x.hasCode = true) := by
  have hall : ∀ v : Fin 32, ∃ x ∈ (idt v).exc?, (cpuErrorCode v = false → x.hasCode = false) ∧
      (cpuErrorCode v = true → x ≠ .reserved → x.hasCode = true) := by decide
  obtain ⟨x, hx, hno, hyes⟩ := hall v
  refine ⟨x, ?_, hno, hyes⟩
  cases hidt : idt v with
  | exc y => rw [hidt] at hx; cases hx; rfl
  | _ => rw [hidt] at hx; cases hx

theorem exception_returns_iff (v : Fin nrExternalVectors) (code : Word) :
    Returns K u (enter K u (.exception v code)) ↔ (Event.exception v code).Balanced u := by
  have hpage := K.page
  have hbase : K.ptRegs = K.esp0 - 72 := rfl
  obtain ⟨x, hx, hno, hyes⟩ := idt_exc v
  set m := cpuEnter K u (.exception v code) with hm
  rw [enter, Event.vector, hx, Event.Balanced, hx, ← hm]
  -- the words the stub pushes
  have hrun : run K.call (prog K) 3 (.exc x) m = run K.call (prog K) 2 .errorCode
      ((m.pushes (if x.hasCode then [] else [0])).push (K.addr (.doExc x))) := by
    cases hcode : x.hasCode <;> simp only [run, prog, hcode] <;> rfl
  rw [hrun]
  have hlen : ((Event.exception v code).code).length = if cpuErrorCode v = true then 1 else 0 := by
    simp only [Event.code]; split_ifs <;> rfl
  have hgood : cpuErrorCode v = x.hasCode →
      Returns K u (run K.call (prog K) 2 .errorCode ((m.pushes (if x.hasCode then [] else [0])).push (K.addr (.doExc x)))) := by
    intro he
    have hpush : (m.pushes (if x.hasCode then [] else [0])).push (K.addr (.doExc x)) =
        m.pushes ((if x.hasCode then [] else [0]) ++ [K.addr (.doExc x)]) := by
      rw [Machine.pushes, Machine.pushes, List.foldl_append]; rfl
    refine errorCode_returns (n := 1) ?_
    rw [hpush]
    refine ready_pushes _ _ ?_
    rw [hlen, he]
    cases x.hasCode <;> rfl
  cases hc : cpuErrorCode v with
  | false => exact iff_of_true (hgood (by rw [hc, hno hc])) (by simp)
  | true =>
    by_cases hres : x = .reserved
    · -- the error code stays on the stack, one word above the frame
      subst hres
      refine iff_of_false (fun hr => ?_) (by simp)
      have hesp : (m.pushes [0]).esp = K.esp0 - 28 := by
        rw [Machine.pushes_esp, hm, cpuEnter_esp, hlen, hc]
        simp only [List.length_cons, List.length_nil, if_true]
        omega
      obtain ⟨m', hm', hesp'⟩ := errorCode_esp (K := K) .reserved (m := m.pushes [0]) (by omega) K.reserved_returns 1
      have hcode : Exc.reserved.hasCode = false := rfl
      rw [hcode, if_neg (by simp), hm'] at hr
      have := hr.esp
      omega
    · exact iff_of_true (hgood (by rw [hc, hyes hc hres])) (by simp [hres])

/-- **The entry code returns to the frame of the CPU for every entry but two kinds.** The path returns, if it returns,
by iret on the frame of the CPU with cs, ss and the segment registers of the user and all registers from the pt_regs,
if and only if it is not an int 0x80 above the last system call and not an exception with an error code at `reserved`. -/
theorem entry_returns_iff (K : World) (u : User) (e : Event) : Returns K u (enter K u e) ↔ e.Balanced u := by
  cases e with
  | int80 => exact int80_returns_iff
  | irq i => exact iff_of_true (irq_returns i) trivial
  | exception v code => exact exception_returns_iff v code

/-! ## A system call that does not exist -/

/-- C functions that return at once -/
def quiet : World where
  esp0 := 0x2000
  page := by norm_num
  addr _ := 0
  call _ m := some m
  keeps _ m m' h := by cases h; exact ⟨rfl, fun _ _ _ _ => rfl⟩
  bad_returns _ := rfl
  reserved_returns _ := rfl

/-- int 0x80 with eax = 24 -/
def call24 : User where
  reg r := if r = .eax then 24 else 0
  seg _ := 0x23
  eip := 0x1000
  cs := 0x1B
  eflags := 0x202
  esp := 0x8000
  ss := 0x23
  stack _ := 0
  ring3 := by decide

/-- the path ends in `ret` with the user's eip on top of the stack, so that eip runs with the kernel's cs -/
theorem call24_ret : (∃ m, enter quiet call24 .int80 = .ret m ∧ m.mem m.esp = call24.eip) ∧
    ¬ Returns quiet call24 (enter quiet call24 .int80) := by
  have hrun : ∃ m, enter quiet call24 .int80 = .ret m ∧ m.mem m.esp = call24.eip := ⟨_, rfl, rfl⟩
  refine ⟨hrun, ?_⟩
  obtain ⟨m, hm, -⟩ := hrun
  rw [hm]
  exact id

end SinsOs.Entry
