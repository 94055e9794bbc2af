/-
The signal frame (arch/signal.c): the words that arch_setup_sig_handler stores on the stack of the user.

Addresses are words of 32 bits, so that the stack pointer wraps as on the machine.

- `stores_below_iff`: for a frame that arch_check_user_regs accepts, every word is stored below PAGE_OFFSET exactly when
  esp is at least 52. The check bounds esp from above only.
-/
import SinsOs.Core.Bits
import SinsOs.Lib.Str

namespace SinsOs.Signal

open SinsOs.Bits SinsOs.Lib

/-! ## Model -/

/-- struct arch_pt_regs -/
structure PtRegs where
  ebx : Word
  ecx : Word
  edx : Word
  edi : Word
  esi : Word
  ebp : Word
  eax : Word
  gs : Word
  fs : Word
  es : Word
  ds : Word
  oriEax : Word
  errCode : Word
  eip : Word
  cs : Word
  eflags : Word
  esp : Word
  ss : Word
deriving DecidableEq, Repr

def pageOffset : Word := 0xC0000000
def eflagsIf : Word := 0x00000200
def eflagsIopl : Word := 0x00003000

def archCheckUserRegs (regs : PtRegs) : ℤ :=
  if regs.esp > pageOffset ∨ regs.eip ≥ pageOffset ∨ regs.eflags &&& eflagsIopl ≠ 0 ∨
    regs.eflags &&& eflagsIf = 0 then -error
  else 0

def archFromKernel (regs : PtRegs) : Bool := regs.cs &&& 3 ≠ 3

/-- the pointer esp, and the words that were stored through it with their addresses -/
structure Frame where
  esp : Word
  stores : List (Word × Word)
deriving DecidableEq, Repr

namespace Frame

variable (f : Frame)

/-- `*p = w` -/
def store (p w : Word) : Frame := { f with stores := f.stores ++ [(p, w)] }

/-- `*(--esp) = w` -/
def push (w : Word) : Frame := { f with esp := f.esp - 4 }.store (f.esp - 4) w

end Frame

def nrSigreturn : Word := 17

/-- the packed struct `retcode`: movl $__NR_sigreturn, %eax; int $0x80, as the two words that memcpy stores -/
def retcode : Word × Word := (0xb8 ||| nrSigreturn <<< 8, nrSigreturn >>> 24 ||| 0x80cd <<< 8)

/-- the words that go on the stack, one after the other, and the registers that the handler begins with; what it returns is the
last esp -/
def archSetupSigHandler (regs : PtRegs) (sHandler : Word) : Frame × PtRegs :=
  let f := Frame.mk regs.esp []
  let f := ((f.push regs.eax).push regs.ebx).push regs.ecx
  let f := (((f.push regs.edx).push regs.edi).push regs.esi).push regs.ebp
  let f := ((f.push regs.eip).push regs.eflags).push regs.esp
  let f := { f with esp := f.esp - 8 }
  let f := (f.store f.esp retcode.1).store (f.esp + 4) retcode.2
  let f := f.push f.esp
  (f, { regs with eip := sHandler, esp := f.esp })

/-- setup_sig_handler on a stack of which `mapped` knows the words that can be written. At another word a page fault ends it (die,
and sys_exit); the words before that one are stored -/
def setupSigHandler (mapped : Word → Bool) (regs : PtRegs) (sHandler : Word) : Except (List (Word × Word)) (Frame × PtRegs) :=
  let r := archSetupSigHandler regs sHandler
  if r.1.stores.all fun w => mapped w.1 then .ok r else .error (r.1.stores.takeWhile fun w => mapped w.1)

variable {regs : PtRegs} {sHandler : Word}

/-! ## Where the words are stored -/

/-- the bytes of the frame -/
def frameSize : Word := 52

/-- the frame begins 52 bytes below esp -/
theorem setup_esp (regs : PtRegs) (sHandler : Word) : (archSetupSigHandler regs sHandler).1.esp = regs.esp - frameSize := by
  simp only [archSetupSigHandler, Frame.push, Frame.store, frameSize]
  bv_omega

/-- the thirteen words lie one below the other under esp -/
theorem setup_addresses (regs : PtRegs) (sHandler : Word) (a : Word) :
    a ∈ (archSetupSigHandler regs sHandler).1.stores.map Prod.fst ↔
    ∃ k ∈ List.range 13, a = regs.esp - BitVec.ofNat 32 (4 * (k + 1)) := by
  have hlist : (archSetupSigHandler regs sHandler).1.stores.map Prod.fst =
      (List.map (fun k => regs.esp - BitVec.ofNat 32 (4 * (k + 1))) [0, 1, 2, 3, 4, 5, 6, 7, 8, 9, 11, 10, 12]) := by
    simp only [archSetupSigHandler, Frame.push, Frame.store, List.nil_append, List.cons_append, List.map_cons, List.map_nil,
      List.cons.injEq, and_true]
    refine ⟨?_, ?_, ?_, ?_, ?_, ?_, ?_, ?_, ?_, ?_, ?_, ?_, ?_⟩
    all_goals bv_omega
  have hperm : ∀ k, k ∈ [0, 1, 2, 3, 4, 5, 6, 7, 8, 9, 11, 10, 12] ↔ k ∈ List.range 13 := fun k => by
    simp only [List.mem_cons, List.not_mem_nil, or_false, List.mem_range]
    omega
  rw [hlist, List.mem_map]
  constructor
  · rintro ⟨k, hk, rfl⟩
    exact ⟨k, (hperm k).1 hk, rfl⟩
  · rintro ⟨k, hk, rfl⟩
    exact ⟨k, (hperm k).2 hk, rfl⟩

theorem accepted_iff (regs : PtRegs) : archCheckUserRegs regs = 0 ↔ regs.esp ≤ pageOffset ∧ regs.eip < pageOffset ∧
    regs.eflags &&& eflagsIopl = 0 ∧ regs.eflags &&& eflagsIf ≠ 0 := by
  rw [archCheckUserRegs]
  split_ifs with h
  · refine iff_of_false (by decide) fun ⟨h1, h2, h3, h4⟩ => ?_
    rcases h with h | h | h | h
    · exact absurd h (BitVec.not_lt.2 h1)
    · exact absurd h2 (BitVec.not_lt.2 h)
    · exact h h3
    · exact h4 h
  · simp only [not_or, not_not, gt_iff_lt, ge_iff_le, BitVec.not_lt, BitVec.not_le] at h
    exact iff_of_true rfl h

/-- the thirteen words under esp can be written -/
def FrameMapped (mapped : Word → Bool) (esp : Word) : Prop := ∀ k < 13, mapped (esp - BitVec.ofNat 32 (4 * (k + 1))) = true

instance (mapped : Word → Bool) (esp : Word) : Decidable (FrameMapped mapped esp) :=
  inferInstanceAs (Decidable (∀ k < 13, _))

theorem stores_mapped_iff (mapped : Word → Bool) (regs : PtRegs) (sHandler : Word) :
    ((archSetupSigHandler regs sHandler).1.stores.all fun w => mapped w.1) = true ↔ FrameMapped mapped regs.esp := by
  rw [List.all_eq_true]
  constructor
  · intro h k hk
    obtain ⟨w, hw, he⟩ := List.mem_map.1 ((setup_addresses regs sHandler _).2 ⟨k, List.mem_range.2 hk, rfl⟩)
    exact he ▸ h w hw
  · intro h w hw
    obtain ⟨k, hk, he⟩ := (setup_addresses regs sHandler _).1 (List.mem_map_of_mem hw)
    rw [he]
    exact h k (List.mem_range.1 hk)

/-- setup_sig_handler comes back exactly when the frame is on the stack -/
theorem setupSigHandler_eq (mapped : Word → Bool) (regs : PtRegs) (sHandler : Word) :
    setupSigHandler mapped regs sHandler =
      if FrameMapped mapped regs.esp then .ok (archSetupSigHandler regs sHandler)
      else .error ((archSetupSigHandler regs sHandler).1.stores.takeWhile fun w => mapped w.1) := by
  rw [setupSigHandler]
  exact if_congr (stores_mapped_iff mapped regs sHandler) rfl rfl

/-- **The words of the frame.** They are stored below PAGE_OFFSET, where the memory of the user is, exactly when the stack
pointer has room for them above address 0. -/
theorem stores_below_iff (regs : PtRegs) (sHandler : Word) (hregs : archCheckUserRegs regs = 0) :
    (∀ x ∈ (archSetupSigHandler regs sHandler).1.stores, x.1 < pageOffset) ↔ frameSize ≤ regs.esp := by
  have hesp : regs.esp ≤ pageOffset := ((accepted_iff regs).1 hregs).1
  have hstores : (∀ x ∈ (archSetupSigHandler regs sHandler).1.stores, x.1 < pageOffset) ↔
      ∀ k < 13, regs.esp - BitVec.ofNat 32 (4 * (k + 1)) < pageOffset := by
    constructor
    · intro h k hk
      have hmem := (setup_addresses regs sHandler _).2 ⟨k, List.mem_range.2 hk, rfl⟩
      obtain ⟨x, hx, he⟩ := List.mem_map.1 hmem
      exact he ▸ h x hx
    · intro h x hx
      obtain ⟨k, hk, he⟩ := (setup_addresses regs sHandler _).1 (List.mem_map_of_mem hx)
      rw [he]
      exact h k (List.mem_range.1 hk)
  rw [hstores]
  constructor
  · intro h
    have hlast := h 12 (by decide)
    have hpage : pageOffset.toNat = 0xC0000000 := rfl
    have hsize : frameSize.toNat = 52 := rfl
    bv_omega
  · intro h k hk
    have hpage : pageOffset.toNat = 0xC0000000 := rfl
    have hsize : frameSize.toNat = 52 := rfl
    have hword : (BitVec.ofNat 32 (4 * (k + 1))).toNat = 4 * (k + 1) := Nat.mod_eq_of_lt (by omega)
    rw [BitVec.lt_def, BitVec.toNat_sub, hword]
    rw [BitVec.le_def] at hesp h
    omega

/-- registers of a user with the stack pointer `esp` -/
def userRegs (esp : Word) : PtRegs where
  ebx := 0
  ecx := 0
  edx := 0
  edi := 0
  esi := 0
  ebp := 0
  eax := 0
  gs := 0x23
  fs := 0x23
  es := 0x23
  ds := 0x23
  oriEax := 0
  errCode := 0
  eip := 0
  cs := 0x1b
  eflags := eflagsIf
  esp := esp
  ss := 0x23

theorem stores_room : archCheckUserRegs (userRegs 0x1000) = 0 ∧
    ∀ x ∈ (archSetupSigHandler (userRegs 0x1000) 0x400).1.stores, x.1 < pageOffset :=
  ⟨by decide, (stores_below_iff (userRegs 0x1000) 0x400 (by decide)).2 (by decide)⟩

/-- an accepted stack pointer at 4: the second word is stored at the last address -/
theorem stores_wrap : archCheckUserRegs (userRegs 4) = 0 ∧ (0x400 : Word) < pageOffset ∧
    (0xFFFFFFFC, (userRegs 4).ebx) ∈ (archSetupSigHandler (userRegs 4) 0x400).1.stores ∧
    ¬ (0xFFFFFFFC : Word) < pageOffset := by
  decide

end SinsOs.Signal
