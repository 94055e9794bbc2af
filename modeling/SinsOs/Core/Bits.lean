/-
32-bit machine words and their low and high bits.

`floor_toNat`: clearing the low k bits of a word rounds it down to a multiple of 2^k; `low_toNat`: keeping only the low
k bits is the remainder. `setBit`, `clearBit` and `testBit` of one bit are related by the four simp lemmas at the end,
which is all that the descriptor and mask code needs to know about flag words.
-/
import Mathlib.Tactic

namespace SinsOs.Bits

/-- an `unsigned long` of the 32-bit target -/
abbrev Word := BitVec 32

/-- a word with the low k bits set -/
def lowMask (k : ℕ) : Word := BitVec.ofNat 32 (2 ^ k - 1)

theorem lowMask_toNat {k : ℕ} (hk : k ≤ 32) : (lowMask k).toNat = 2 ^ k - 1 := by
  have h1 : 2 ^ k ≤ 2 ^ 32 := Nat.pow_le_pow_right (by norm_num) hk
  have h2 := Nat.two_pow_pos k
  rw [lowMask, BitVec.toNat_ofNat, Nat.mod_eq_of_lt (by omega)]

theorem low_toNat {k : ℕ} (hk : k ≤ 32) (x : Word) : (x &&& lowMask k).toNat = x.toNat % 2 ^ k := by
  rw [BitVec.toNat_and, lowMask_toNat hk, Nat.and_two_pow_sub_one_eq_mod]

theorem floor_toNat {k : ℕ} (hk : k ≤ 32) (x : Word) : (x &&& ~~~ lowMask k).toNat = x.toNat / 2 ^ k * 2 ^ k := by
  have hsplit : (x &&& lowMask k) + (x &&& ~~~ lowMask k) = x := by
    rw [BitVec.add_eq_or_of_and_eq_zero]
    · ext i; simp only [BitVec.getElem_or, BitVec.getElem_and, BitVec.getElem_not]; cases x[i] <;> simp
    · ext i; simp only [BitVec.getElem_and, BitVec.getElem_not, BitVec.getElem_zero]; cases x[i] <;> simp
  have hle : (x &&& ~~~ lowMask k).toNat ≤ x.toNat := by rw [BitVec.toNat_and]; exact Nat.and_le_left
  have hlow := low_toNat hk x
  have hdm := Nat.div_add_mod' x.toNat (2 ^ k)
  have hadd := congrArg BitVec.toNat hsplit
  rw [BitVec.toNat_add, hlow] at hadd
  have hx := x.isLt
  have hmod : x.toNat % 2 ^ k ≤ x.toNat := Nat.mod_le _ _
  omega

/-! ## Single bits -/

/-- the mask of bit nr -/
def bit (nr : ℕ) : Word := 1#32 <<< nr

def setBit (op : Word) (nr : ℕ) : Word := op ||| bit nr

def clearBit (op : Word) (nr : ℕ) : Word := op &&& ~~~ bit nr

def testBit (op : Word) (nr : ℕ) : Bool := op &&& bit nr != 0#32

theorem bit_getLsbD {nr i : ℕ} (h : nr < 32) : (bit nr).getLsbD i = decide (i = nr) := by
  simp only [bit, BitVec.getLsbD_shiftLeft, BitVec.getLsbD_one]
  by_cases hi : i = nr
  · subst hi; simp [h]
  · simp only [hi, decide_false]
    by_cases h2 : i < nr
    · simp [h2]
    · have : i - nr ≠ 0 := by omega
      simp [this]

theorem testBit_eq {nr : ℕ} (h : nr < 32) (op : Word) : testBit op nr = op.getLsbD nr := by
  have hand : op &&& bit nr = if op.getLsbD nr then bit nr else 0#32 := by
    apply BitVec.eq_of_getLsbD_eq
    intro i hi
    rw [BitVec.getLsbD_and, bit_getLsbD h]
    by_cases hin : i = nr
    · subst hin; cases hb : op.getLsbD i <;> simp [bit_getLsbD h]
    · cases hb : op.getLsbD nr <;> simp [hin, bit_getLsbD h]
  have hne : bit nr ≠ 0#32 := by
    intro h0
    have := bit_getLsbD (i := nr) h
    simp [h0] at this
  unfold testBit
  rw [hand]
  cases op.getLsbD nr <;> simp [hne]

theorem testBit_setBit {i j : ℕ} (hi : i < 32) (hj : j < 32) (op : Word) :
    testBit (setBit op i) j = (decide (j = i) || testBit op j) := by
  rw [testBit_eq hj, testBit_eq hj, setBit, BitVec.getLsbD_or, bit_getLsbD hi, Bool.or_comm]

theorem testBit_clearBit {i j : ℕ} (hi : i < 32) (hj : j < 32) (op : Word) :
    testBit (clearBit op i) j = (!decide (j = i) && testBit op j) := by
  rw [testBit_eq hj, testBit_eq hj, clearBit, BitVec.getLsbD_and, BitVec.getLsbD_not, bit_getLsbD hi, Bool.and_comm]
  simp [hj]

@[simp] theorem testBit_zero (j : ℕ) : testBit 0#32 j = false := by simp [testBit]

end SinsOs.Bits
