/-
The part of a 32-bit x86 that interrupt entry code uses: general and segment registers, a stack that grows down in a
memory of words, and blocks of instructions that end in a jump, `ret` or `iret`.

Functions that are not part of the modelled code are called by their address through a parameter, which gives the machine
they return with or `none` when they do not return.

- `pushes_mem`, `pushes_above`: what a sequence of pushes leaves in memory, and that it leaves the words above alone.
- `runBlock_append`: a run through a straight-line block is a run from the machine after the block.
-/
import SinsOs.Core.Bits

namespace SinsOs.X86

open SinsOs.Bits

inductive Reg
  | eax | ebx | ecx | edx | esi | edi | ebp
deriving DecidableEq, Repr

inductive Seg
  | ds | es | fs | gs
deriving DecidableEq, Repr

/-- `mem` holds the aligned words by byte address, `above` is the condition of `ja` -/
structure Machine where
  reg : Reg → Word
  seg : Seg → BitVec 16
  esp : ℕ
  mem : ℕ → Word
  above : Bool

namespace Machine

def setReg (m : Machine) (r : Reg) (w : Word) : Machine := { m with reg := fun q => if q = r then w else m.reg q }

def setSeg (m : Machine) (s : Seg) (w : BitVec 16) : Machine := { m with seg := fun q => if q = s then w else m.seg q }

def store (m : Machine) (a : ℕ) (w : Word) : Machine := { m with mem := fun b => if b = a then w else m.mem b }

def push (m : Machine) (w : Word) : Machine := { m.store (m.esp - 4) w with esp := m.esp - 4 }

def drop (m : Machine) (n : ℕ) : Machine := { m with esp := m.esp + n }

/-- the words in the order they are pushed -/
def pushes (m : Machine) (ws : List Word) : Machine := ws.foldl push m

variable (m : Machine)

theorem pushes_concat (ws : List Word) (w : Word) : m.pushes (ws ++ [w]) = (m.pushes ws).push w := by
  rw [pushes, List.foldl_append]
  rfl

theorem pushes_reg (ws : List Word) : (m.pushes ws).reg = m.reg := by
  induction ws generalizing m with
  | nil => rfl
  | cons w ws ih => exact ih (m.push w)

theorem pushes_seg (ws : List Word) : (m.pushes ws).seg = m.seg := by
  induction ws generalizing m with
  | nil => rfl
  | cons w ws ih => exact ih (m.push w)

theorem pushes_esp (ws : List Word) : (m.pushes ws).esp = m.esp - 4 * ws.length := by
  induction ws generalizing m with
  | nil => rfl
  | cons w ws ih =>
    have := ih (m.push w)
    rw [pushes, List.foldl_cons, ← pushes, this, List.length_cons]
    change m.esp - 4 - 4 * ws.length = _
    omega

theorem push_above (w : Word) {a : ℕ} (hroom : 4 ≤ m.esp) (ha : m.esp ≤ a) : (m.push w).mem a = m.mem a :=
  if_neg (by omega)

/-- pushes change nothing at or above the stack pointer -/
theorem pushes_above (ws : List Word) (hroom : 4 * ws.length ≤ m.esp) {a : ℕ} (ha : m.esp ≤ a) :
    (m.pushes ws).mem a = m.mem a := by
  induction ws generalizing m with
  | nil => rfl
  | cons w ws ih =>
    rw [List.length_cons] at hroom
    have hesp : (m.push w).esp = m.esp - 4 := rfl
    calc (m.pushes (w :: ws)).mem a = ((m.push w).pushes ws).mem a := rfl
      _ = (m.push w).mem a := ih (m.push w) (by omega) (by omega)
      _ = m.mem a := m.push_above w (by omega) ha

/-- pushes write only between the new stack pointer and the old one -/
theorem pushes_below (ws : List Word) (hroom : 4 * ws.length ≤ m.esp) {a : ℕ} (ha : a < m.esp - 4 * ws.length) :
    (m.pushes ws).mem a = m.mem a := by
  induction ws generalizing m with
  | nil => rfl
  | cons w ws ih =>
    rw [List.length_cons] at hroom ha
    have hesp : (m.push w).esp = m.esp - 4 := rfl
    calc (m.pushes (w :: ws)).mem a = ((m.push w).pushes ws).mem a := rfl
      _ = (m.push w).mem a := ih (m.push w) (by omega) (by omega)
      _ = m.mem a := if_neg (by omega)

/-- the i-th word pushed lies i + 1 words below the old stack pointer -/
theorem pushes_mem (ws : List Word) (hroom : 4 * ws.length ≤ m.esp) {i : ℕ} {w : Word} (hi : ws[i]? = some w) :
    (m.pushes ws).mem (m.esp - 4 * (i + 1)) = w := by
  induction ws generalizing m i with
  | nil => cases hi
  | cons v ws ih =>
    rw [List.length_cons] at hroom
    have hesp : (m.push v).esp = m.esp - 4 := rfl
    cases i with
    | zero =>
      cases hi
      calc (m.pushes (w :: ws)).mem (m.esp - 4 * (0 + 1)) = ((m.push w).pushes ws).mem (m.esp - 4) := rfl
        _ = (m.push w).mem (m.esp - 4) := (m.push w).pushes_above ws (by omega) (by omega)
        _ = w := if_pos rfl
    | succ i =>
      have := ih (m.push v) (by omega) (i := i) hi
      rwa [hesp, show m.esp - 4 - 4 * (i + 1) = m.esp - 4 * (i + 1 + 1) by omega] at this

end Machine

/-- instructions over labels of type L; offsets are from the stack pointer -/
inductive Instr (L : Type)
  | pushI (w : Word)
  | pushR (r : Reg)
  | pushS (s : Seg)
  | popR (r : Reg)
  | popS (s : Seg)
  | addEsp (n : ℕ)
  | subEsp (n : ℕ)
  | movI (w : Word) (r : Reg)
  | movLow (b : BitVec 8) (r : Reg)
  | movS (r : Reg) (s : Seg)
  | load (off : ℕ) (r : Reg)
  | store (r : Reg) (off : ℕ)
  | lea (off : ℕ) (r : Reg)
  | out (r : Reg) (port : ℕ)
  | nop
  | cmpI (w : Word) (r : Reg)
  | callI (f : Word)
  | callR (r : Reg)
  | callTable (table : List Word) (r : Reg)
  | ja (l : L)
  | jmp (l : L)
  | ret
  | iret

namespace Instr

variable {L : Type}

/-- the next machine, for instructions that go on with the next one and call nothing -/
def exec (m : Machine) : Instr L → Machine
  | pushI w => m.push w
  | pushR r => m.push (m.reg r)
  | pushS s => m.push ((m.seg s).setWidth 32)
  | popR r => (m.setReg r (m.mem m.esp)).drop 4
  | popS s => (m.setSeg s ((m.mem m.esp).setWidth 16)).drop 4
  | addEsp n => m.drop n
  | subEsp n => { m with esp := m.esp - n }
  | movI w r => m.setReg r w
  | movLow b r => m.setReg r (m.reg r &&& ~~~ 0xff#32 ||| b.setWidth 32)
  | movS r s => m.setSeg s ((m.reg r).setWidth 16)
  | load off r => m.setReg r (m.mem (m.esp + off))
  | store r off => m.store (m.esp + off) (m.reg r)
  | lea off r => m.setReg r (BitVec.ofNat 32 (m.esp + off))
  | cmpI w r => { m with above := decide (m.reg r > w) }
  | _ => m

/-- calls, jumps and returns -/
def Straight : Instr L → Bool
  | callI _ | callR _ | callTable _ _ | ja _ | jmp _ | ret | iret => false
  | _ => true

end Instr

/-- how a run of entry code ends: by iret or ret at a machine, inside a call that never returns, or outside the code -/
inductive Outcome
  | iret (m : Machine)
  | ret (m : Machine)
  | stopped
  | wild

section Run

variable {L : Type} (call : Word → Machine → Option Machine) (prog : L → List (Instr L))

/-- a block, with the continuation of its jumps -/
def runBlock (goto : L → Machine → Outcome) : List (Instr L) → Machine → Outcome
  | [], _ => .wild
  | i :: is, m =>
    let called := fun f => (call f m).elim .stopped (runBlock goto is)
    match i with
    | .callI f => called f
    | .callR r => called (m.reg r)
    | .callTable table r => (table[(m.reg r).toNat]?).elim .wild called
    | .ja l => if m.above then goto l m else runBlock goto is m
    | .jmp l => goto l m
    | .ret => .ret m
    | .iret => .iret m
    | i => runBlock goto is (i.exec m)

/-- at most `n` blocks -/
def run : ℕ → L → Machine → Outcome
  | 0, _, _ => .wild
  | n + 1, l, m => runBlock call (run n) (prog l) m

variable {call} {goto : L → Machine → Outcome}

/-- the machine after a straight-line block -/
def execAll (m : Machine) (is : List (Instr L)) : Machine := is.foldl Instr.exec m

theorem runBlock_append (is js : List (Instr L)) (hs : is.all Instr.Straight = true) (m : Machine) :
    runBlock call goto (is ++ js) m = runBlock call goto js (execAll m is) := by
  induction is generalizing m with
  | nil => rfl
  | cons i is ih =>
    rw [List.all_cons, Bool.and_eq_true] at hs
    have hrest := ih hs.2 (i.exec m)
    cases i <;> first | exact hrest | cases hs.1

theorem runBlock_ja (l : L) (is : List (Instr L)) (m : Machine) :
    runBlock call goto (.ja l :: is) m = if m.above then goto l m else runBlock call goto is m := rfl

end Run

end SinsOs.X86
