/-
Pages: the constants and macros of include/sins/page.h, and the zone limits of include/sins/mm.h.

Addresses are 32-bit words, so `pageAlign` wraps above the last page as the macro does (`pageAlign_toNat`).
-/
import SinsOs.Core.Bits

namespace SinsOs.Mm

open SinsOs.Bits

/-! ## include/sins/page.h -/

def pageOffset : Word := 0xC0000000#32
def pageShift : ℕ := 12
def pgdShift : ℕ := 22
def pageSize : Word := 1#32 <<< pageShift
def pgdSize : Word := 1#32 <<< pgdShift
def pageMask : Word := ~~~ (pageSize - 1)
def pgdMask : Word := ~~~ (pgdSize - 1)
def pgtMask : Word := pageMask ^^^ pgdMask

def pageAlign (addr : Word) : Word := (addr + pageSize - 1) &&& pageMask
def pageFloor (addr : Word) : Word := addr &&& pageMask
def pageCeil (addr : Word) : Word := pageAlign addr

def va (addr : Word) : Word := addr + pageOffset
def pa (addr : Word) : Word := addr - pageOffset

theorem pageMask_eq : pageMask = ~~~ lowMask 12 := by decide

theorem pageFloor_toNat (a : Word) : (pageFloor a).toNat = a.toNat / 4096 * 4096 := by
  rw [pageFloor, pageMask_eq, floor_toNat (by norm_num)]
  norm_num

theorem pageAlign_toNat (a : Word) : (pageAlign a).toNat = (a.toNat + 4095) % 2 ^ 32 / 4096 * 4096 := by
  rw [pageAlign, pageMask_eq, floor_toNat (by norm_num)]
  have : (a + pageSize - 1).toNat = (a.toNat + 4095) % 2 ^ 32 := by
    have hp : pageSize = 4096#32 := by decide
    rw [hp]; bv_omega
  rw [this]
  norm_num

theorem pa_va (a : Word) : pa (va a) = a := by unfold pa va; bv_omega

def ptrsPerPgt : ℕ := 1024
def ptrsPerPgd : ℕ := 1024

def pgtIndex (addr : Word) : Word := (addr &&& pgtMask) >>> pageShift
def pgdIndex (addr : Word) : Word := (addr &&& pgdMask) >>> pgdShift

def pagePresent : Word := 1#32 <<< 0
def pageRw : Word := 1#32 <<< 1
def pageUser : Word := 1#32 <<< 2
def pageAddrMask : Word := ~~~ (1#32 <<< 12 - 1)
def pageFlagsMask : Word := 1#32 <<< 12 - 1

/-- pgt_check and pgd_check -/
def pgtCheck (pgt prot : Word) : Word := pgt &&& pageFlagsMask &&& prot

def pgtPresent (pgt : Word) : Bool := pgtCheck pgt pagePresent != 0

def mkPgt (addr prot : Word) : Word := addr ||| prot

/-- pgt_page and pgd_page: the address an entry contains -/
def pgdPage (pgd : Word) : Word := pgd &&& pageAddrMask

theorem pgdIndex_toNat (a : Word) : (pgdIndex a).toNat = a.toNat / 2 ^ 22 := by
  have hm : pgdMask = ~~~ lowMask 22 := by decide
  rw [pgdIndex, hm, BitVec.toNat_ushiftRight, floor_toNat (by norm_num), Nat.shiftRight_eq_div_pow, pgdShift,
    Nat.mul_div_cancel _ (by norm_num)]

theorem pgtIndex_toNat (a : Word) : (pgtIndex a).toNat = a.toNat / 4096 % 1024 := by
  have hm : ∀ i < 32, pgtMask.getLsbD i = decide (12 ≤ i ∧ i < 22) := by decide
  apply Nat.eq_of_testBit_eq
  intro i
  rw [pgtIndex, BitVec.testBit_toNat, BitVec.getLsbD_ushiftRight, BitVec.getLsbD_and, show (4096 : ℕ) = 2 ^ 12 by norm_num,
    show (1024 : ℕ) = 2 ^ 10 by norm_num, Nat.testBit_mod_two_pow, Nat.testBit_div_two_pow, BitVec.testBit_toNat, pageShift,
    Nat.add_comm i 12]
  by_cases hi : 12 + i < 32
  · rw [hm _ hi, Bool.and_comm]
    simp only [show (12 ≤ 12 + i ∧ 12 + i < 22) ↔ i < 10 by omega]
  · rw [BitVec.getLsbD_of_ge a _ (by omega)]
    simp

/-- an entry for a page keeps the address of the page beside its flags -/
theorem pgdPage_flags {a prot : Word} (h : 4096 ∣ a.toNat) (hp : prot &&& pageAddrMask = 0#32) :
    pgdPage (mkPgt a prot) = a := by
  have hlow : a &&& lowMask 12 = 0#32 := by
    apply BitVec.eq_of_toNat_eq
    rw [low_toNat (by norm_num)]
    exact Nat.mod_eq_zero_of_dvd h
  have hm : pageAddrMask = ~~~ lowMask 12 := by decide
  have hdist : ∀ x y m : Word, (x ||| y) &&& m = (x &&& m) ||| (y &&& m) := fun x y m => by
    ext i; simp only [BitVec.getElem_and, BitVec.getElem_or]; cases x[i] <;> cases y[i] <;> cases m[i] <;> rfl
  have hsplit : a = (a &&& lowMask 12) ||| (a &&& ~~~ lowMask 12) := by
    ext i; simp only [BitVec.getElem_or, BitVec.getElem_and, BitVec.getElem_not]; cases a[i] <;> simp
  rw [pgdPage, mkPgt, hdist, hp, BitVec.or_zero, hm]
  rw [hlow, BitVec.zero_or] at hsplit
  exact hsplit.symm

theorem pgtPresent_flags (a : Word) {prot : Word} (hp : prot.getLsbD 0 = true) : pgtPresent (mkPgt a prot) = true := by
  have h : testBit (mkPgt a prot) 0 = true := by
    rw [testBit_eq (by norm_num), mkPgt, BitVec.getLsbD_or, hp, Bool.or_true]
  have hmask : pageFlagsMask &&& pagePresent = bit 0 := by decide
  rw [pgtPresent, pgtCheck, BitVec.and_assoc, hmask]
  exact h

theorem pgdPage_mkPgt {a : Word} (h : 4096 ∣ a.toNat) : pgdPage (mkPgt a (pagePresent ||| pageRw)) = a :=
  pgdPage_flags h (by decide)

theorem pgtPresent_mkPgt (a : Word) : pgtPresent (mkPgt a (pagePresent ||| pageRw)) = true := pgtPresent_flags a (by decide)

theorem pgtPresent_zero : pgtPresent 0#32 = false := by decide

/-- the loop of `get_order` and `get_order_floor`: shift, count, go on while something is left -/
def orderLoop (size : ℕ) (order : ℤ) : ℤ :=
  if size >>> 1 = 0 then order + 1 else orderLoop (size >>> 1) (order + 1)
termination_by size
decreasing_by
  rw [Nat.shiftRight_eq_div_pow] at *
  omega

/-- the smallest order whose block has at least `size` bytes, for a size above 0 -/
def getOrder (size : Word) : ℤ := orderLoop ((size - 1).toNat >>> (pageShift - 1)) (-1)

/-- order of the largest block that fits into `size` bytes -/
def getOrderFloor (size : ℕ) : ℤ := orderLoop (size >>> pageShift) (-1)

theorem orderLoop_eq (size : ℕ) (order : ℤ) : orderLoop size order = order + 1 + Nat.log2 size := by
  induction size using Nat.strong_induction_on generalizing order with
  | _ size ih =>
    rw [orderLoop, Nat.log2_def, Nat.shiftRight_eq_div_pow, pow_one]
    split_ifs with h1 h2 h2
    · omega
    · simp
    · rw [ih _ (by omega)]; push_cast; ring
    · omega

theorem getOrderFloor_eq (size : ℕ) : getOrderFloor size = Nat.log2 (size / 4096) := by
  rw [getOrderFloor, orderLoop_eq, pageShift, Nat.shiftRight_eq_div_pow]
  simp

/-! ## include/sins/mm.h -/

def zoneDma : ℕ := 0
def zoneNormal : ℕ := 1
def zoneHighmem : ℕ := 2
def nrZoneTypes : ℕ := 3
def nrZones : ℕ := 10

def zoneDmaLimit : Word := 0x1000000#32
def zoneNormalLimit : Word := 0x38000000#32
def zoneHighmemSize : Word := 0x8000000#32

def maxOrder : ℕ := 8

end SinsOs.Mm
