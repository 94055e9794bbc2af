/-
Divisions of 64-bit numbers: lib/div64.c and include/div64.h.

Numbers are naturals, cut to 64 or 32 bits where the code cuts them. A loop that runs out of fuel is `none`.

- `doDiv64_eq`: both paths of do_div64 divide exactly.
- `div64U64_near`: div64_u64 divides exactly by a 32-bit divisor. For others it drops the low bits of both numbers, and the
  quotient is at most one too large.
-/
import Mathlib.Tactic

namespace SinsOs.Div64

/-! ## Model -/

/-- while ((s64)b > 0 && b < rem) -/
def grow (rem : ℕ) : ℕ → ℕ → ℕ → Option (ℕ × ℕ)
  | 0, _, _ => none
  | fuel + 1, b, d =>
    if 0 < b ∧ b < 2 ^ 63 ∧ b < rem then grow rem fuel ((b + b) % 2 ^ 64) ((d + d) % 2 ^ 64) else some (b, d)

/-- do ... while (d) -/
def subtract : ℕ → ℕ → ℕ → ℕ → ℕ → Option (ℕ × ℕ)
  | 0, _, _, _, _ => none
  | fuel + 1, rem, b, d, res =>
    let rem' := if b ≤ rem then rem - b else rem
    let res' := if b ≤ rem then (res + d) % 2 ^ 64 else res
    if d / 2 = 0 then some (res', rem') else subtract fuel rem' (b / 2) (d / 2) res'

/-- __div64_32, the quotient and the remainder -/
def div64_32 (n base : ℕ) : Option (ℕ × ℕ) := do
  let high := n / 2 ^ 32
  let res := if base ≤ high then high / base * 2 ^ 32 else 0
  let rem := if base ≤ high then n - high / base * base % 2 ^ 32 * 2 ^ 32 else n
  let (b, d) ← grow rem 65 base 1
  let (res, rem) ← subtract 65 rem b d res
  some (res, rem % 2 ^ 32)

/-- do_div64: the fast case is inline -/
def doDiv64 (n base : ℕ) : Option (ℕ × ℕ) :=
  if n / 2 ^ 32 = 0 then some (n % 2 ^ 32 / base, n % 2 ^ 32 % base) else div64_32 n base

def divU64Rem (dividend divisor : ℕ) : Option (ℕ × ℕ) := doDiv64 dividend divisor

/-- the words of two's complement -/
def u64 (x : ℤ) : ℕ := (x % (2 ^ 64 : ℕ)).toNat
def u32 (x : ℤ) : ℕ := (x % (2 ^ 32 : ℕ)).toNat
def s64 (n : ℕ) : ℤ := Int.bmod n (2 ^ 64)
def s32 (n : ℕ) : ℤ := Int.bmod n (2 ^ 32)

/-- the macro abs, in an int -/
def abs32 (x : ℤ) : ℤ := if 0 < x then x else Int.bmod (-x) (2 ^ 32)

def divS64Rem (dividend divisor : ℤ) : Option (ℤ × ℤ) :=
  if dividend < 0 then do
    let (quotient, remainder) ← divU64Rem (u64 (-dividend)) (u32 (abs32 divisor))
    let quotient := if 0 < divisor then u64 (-quotient) else quotient
    some (s64 quotient, Int.bmod (-s32 remainder) (2 ^ 32))
  else do
    let (quotient, remainder) ← divU64Rem (u64 dividend) (u32 (abs32 divisor))
    let quotient := if divisor < 0 then u64 (-quotient) else quotient
    some (s64 quotient, s32 remainder)

/-- the number of the highest bit set, from 1 -/
def fls (word : ℕ) : ℕ := if word = 0 then 0 else Nat.log2 word + 1

def div64U64 (dividend divisor : ℕ) : Option ℕ :=
  let high := divisor / 2 ^ 32
  if high ≠ 0 then
    let shift := fls high
    (divU64Rem (dividend / 2 ^ shift) (divisor / 2 ^ shift % 2 ^ 32)).map Prod.fst
  else (divU64Rem dividend (divisor % 2 ^ 32)).map Prod.fst

/-! ## The two loops -/

variable {n base rem b d res k fuel : ℕ}

/-- the first loop ends with a power of two times the base that is more than half of the rest -/
theorem grow_spec (hb : 0 < b) (hbd : b = base * 2 ^ k) (hlt : b < 2 ^ 64) (hrem : rem < 2 ^ 64)
    (hfuel : 2 ^ 63 ≤ b * 2 ^ fuel) :
    ∃ j, grow rem (fuel + 1) b (2 ^ k) = some (base * 2 ^ j, 2 ^ j) ∧ base * 2 ^ j < 2 ^ 64 ∧ rem < 2 * (base * 2 ^ j) := by
  induction fuel generalizing b k with
  | zero =>
    have hstop : ¬ (0 < b ∧ b < 2 ^ 63 ∧ b < rem) := by omega
    exact ⟨k, by rw [grow, if_neg hstop, hbd], hbd ▸ hlt, by omega⟩
  | succ fuel ih =>
    rw [grow]
    split_ifs with hgo
    · obtain ⟨-, hsmall, hless⟩ := hgo
      have hk : 2 ^ k ≤ b := by
        have hbase : 0 < base := Nat.pos_of_ne_zero fun h0 => by simp [h0] at hbd; omega
        rw [hbd]
        exact Nat.le_mul_of_pos_left _ hbase
      have hbb : (b + b) % 2 ^ 64 = b + b := Nat.mod_eq_of_lt (by omega)
      have hdd : (2 ^ k + 2 ^ k) % 2 ^ 64 = 2 ^ (k + 1) := by
        rw [Nat.mod_eq_of_lt (by omega), pow_succ]
        omega
      rw [hbb, hdd]
      refine ih (by omega) ?_ (by omega) ?_
      · rw [pow_succ, ← Nat.mul_assoc, ← hbd]
        omega
      · rw [pow_succ] at hfuel
        calc 2 ^ 63 ≤ b * (2 ^ fuel * 2) := hfuel
          _ = (b + b) * 2 ^ fuel := by ring
    · exact ⟨k, by rw [hbd], hbd ▸ hlt, by omega⟩

/-- the second loop divides what is less than twice b -/
theorem subtract_spec (hbase : 0 < base) (hrem : rem < 2 * (base * 2 ^ k)) (hfuel : k < fuel) (hres : res + rem / base < 2 ^ 64) :
    subtract fuel rem (base * 2 ^ k) (2 ^ k) res = some (res + rem / base, rem % base) := by
  induction k generalizing fuel rem res with
  | zero =>
    obtain ⟨fuel, rfl⟩ := Nat.exists_eq_add_one.2 hfuel
    have hone : rem / base = if base ≤ rem then 1 else 0 := by
      split_ifs with h
      · exact Nat.div_eq_of_lt_le (by omega) (by omega)
      · exact Nat.div_eq_of_lt (by omega)
    have hmod := Nat.div_add_mod rem base
    rw [subtract, pow_zero, Nat.mul_one, if_pos (by norm_num)]
    rw [hone] at hres hmod ⊢
    split_ifs at hres hmod ⊢ with h
    · rw [Nat.mod_eq_of_lt hres, show rem % base = rem - base by omega]
    · rw [show rem % base = rem by omega, Nat.add_zero]
  | succ k ih =>
    obtain ⟨fuel, rfl⟩ := Nat.exists_eq_add_one.2 (Nat.zero_lt_of_lt hfuel)
    have hhalf : base * 2 ^ (k + 1) / 2 = base * 2 ^ k := by
      rw [pow_succ, ← Nat.mul_assoc, Nat.mul_div_cancel _ (by norm_num)]
    have hdhalf : 2 ^ (k + 1) / 2 = 2 ^ k := by rw [pow_succ, Nat.mul_div_cancel _ (by norm_num)]
    have hdouble : base * 2 ^ (k + 1) = 2 * (base * 2 ^ k) := by ring
    have hpos := Nat.two_pow_pos k
    rw [subtract, hhalf, hdhalf, if_neg (by omega)]
    split_ifs with h
    · have hdiv : rem / base = 2 ^ (k + 1) + (rem - base * 2 ^ (k + 1)) / base := by
        calc rem / base = (rem - base * 2 ^ (k + 1) + base * 2 ^ (k + 1)) / base := by rw [Nat.sub_add_cancel h]
          _ = _ := by rw [Nat.add_mul_div_left _ _ hbase, Nat.add_comm]
      have hmod : rem % base = (rem - base * 2 ^ (k + 1)) % base := by
        calc rem % base = (rem - base * 2 ^ (k + 1) + base * 2 ^ (k + 1)) % base := by rw [Nat.sub_add_cancel h]
          _ = _ := Nat.add_mul_mod_self_left _ _ _
      have hle : 2 ^ (k + 1) ≤ rem / base := (Nat.le_div_iff_mul_le hbase).2 (by rw [Nat.mul_comm]; exact h)
      rw [Nat.mod_eq_of_lt (by omega), hmod, hdiv, ← Nat.add_assoc]
      exact ih (by omega) (by omega) (by omega)
    · exact ih (by omega) (by omega) hres

/-! ## The functions -/

/-- what is left after the high words are divided -/
theorem div64_32_rest (hbase : 0 < base) (hbase' : base < 2 ^ 32) (hrem : rem < 2 ^ 64) (hres : res + rem / base < 2 ^ 64) :
    (do
      let (b, d) ← grow rem 65 base 1
      let (res, rem) ← subtract 65 rem b d res
      some (res, rem % 2 ^ 32) : Option (ℕ × ℕ)) = some (res + rem / base, rem % base) := by
  obtain ⟨j, hgrow, hlt, htwice⟩ :=
    @grow_spec base rem base 0 64 hbase (by rw [pow_zero, Nat.mul_one]) (by omega) hrem (by omega)
  have hj : j < 65 := by
    have h1 : 2 ^ j ≤ base * 2 ^ j := Nat.le_mul_of_pos_left _ hbase
    have h2 : 2 ^ j < 2 ^ 64 := by omega
    exact Nat.lt_succ_of_lt ((Nat.pow_lt_pow_iff_right (by norm_num)).1 h2)
  have hmod := Nat.mod_lt rem hbase
  rw [pow_zero] at hgrow
  simp only [hgrow, Option.bind_eq_bind, Option.bind_some, subtract_spec hbase htwice hj hres,
    Nat.mod_eq_of_lt (show rem % base < 2 ^ 32 by omega)]

theorem div64_32_eq (hn : n < 2 ^ 64) (hbase : 0 < base) (hbase' : base < 2 ^ 32) :
    div64_32 n base = some (n / base, n % base) := by
  have hsplit := Nat.div_add_mod n (2 ^ 32)
  by_cases hhigh : base ≤ n / 2 ^ 32
  · have hq := Nat.div_mul_le_self (n / 2 ^ 32) base
    set q := n / 2 ^ 32 / base with hqdef
    have hle : q * base * 2 ^ 32 ≤ n := by omega
    -- the multiple of the base that is taken off first
    have hmul : q * base * 2 ^ 32 = base * (q * 2 ^ 32) := by ring
    have hdiv : n / base = q * 2 ^ 32 + (n - q * base * 2 ^ 32) / base := by
      calc n / base = (n - q * base * 2 ^ 32 + base * (q * 2 ^ 32)) / base := by rw [← hmul, Nat.sub_add_cancel hle]
        _ = _ := by rw [Nat.add_mul_div_left _ _ hbase, Nat.add_comm]
    have hmod : n % base = (n - q * base * 2 ^ 32) % base := by
      calc n % base = (n - q * base * 2 ^ 32 + base * (q * 2 ^ 32)) % base := by rw [← hmul, Nat.sub_add_cancel hle]
        _ = _ := Nat.add_mul_mod_self_left _ _ _
    have hn' : n / base < 2 ^ 64 := (Nat.div_le_self n base).trans_lt hn
    rw [div64_32]
    simp only [if_pos hhigh, ← hqdef, Nat.mod_eq_of_lt (show q * base < 2 ^ 32 by omega)]
    rw [hdiv, hmod]
    exact div64_32_rest hbase hbase' (by omega) (hdiv ▸ hn')
  · rw [div64_32]
    simp only [if_neg hhigh]
    have := @div64_32_rest _ _ 0 hbase hbase' hn (by rw [Nat.zero_add]; exact (Nat.div_le_self n base).trans_lt hn)
    rwa [Nat.zero_add] at this

/-- **do_div64** divides exactly, on both paths. -/
theorem doDiv64_eq (hn : n < 2 ^ 64) (hbase : 0 < base) (hbase' : base < 2 ^ 32) :
    doDiv64 n base = some (n / base, n % base) := by
  rw [doDiv64]
  split_ifs with h
  · rw [Nat.mod_eq_of_lt (show n < 2 ^ 32 by omega)]
  · exact div64_32_eq hn hbase hbase'

theorem fls_bounds {word : ℕ} (h : word ≠ 0) : 2 ^ (fls word - 1) ≤ word ∧ word < 2 ^ fls word := by
  rw [fls, if_neg h, Nat.add_sub_cancel]
  exact ⟨Nat.log2_self_le h, Nat.lt_log2_self⟩

/-- a divisor that is cut by less than w divides at most one too high, when the quotient is small against it -/
theorem div_cut {n divisor cut w : ℕ} (hcut : 0 < cut) (hle : cut ≤ divisor) (hw : divisor < cut + w)
    (hsmall : (n / divisor + 1) * (w - 1) ≤ cut) : n / divisor ≤ n / cut ∧ n / cut ≤ n / divisor + 1 := by
  refine ⟨Nat.div_le_div_left hle hcut, Nat.lt_succ_iff.1 ((Nat.div_lt_iff_lt_mul hcut).2 ?_)⟩
  calc n < (n / divisor + 1) * divisor := by rw [Nat.mul_comm]; exact Nat.lt_mul_div_succ n (hcut.trans_le hle)
    _ ≤ (n / divisor + 1) * (cut + (w - 1)) := Nat.mul_le_mul_left _ (by omega)
    _ = (n / divisor + 1) * cut + (n / divisor + 1) * (w - 1) := Nat.mul_add _ _ _
    _ ≤ (n / divisor + 1) * cut + cut := Nat.add_le_add_left hsmall _
    _ = (n / divisor + 1 + 1) * cut := (Nat.succ_mul _ _).symm

/-- the quotient by a divisor of s bits more than 32 is small against the divisor -/
theorem quotient_small {dividend divisor s : ℕ} (hn : dividend < 2 ^ 64) (hs1 : 1 ≤ s) (hs32 : s ≤ 32)
    (hge : 2 ^ 31 * 2 ^ s ≤ divisor) (hd31 : 2 ^ 31 ≤ divisor / 2 ^ s) :
    (dividend / divisor + 1) * (2 ^ s - 1) ≤ divisor / 2 ^ s * 2 ^ s := by
  have h33 : 2 ^ (33 - s) * 2 ^ s = 2 ^ 33 := by rw [← pow_add, Nat.sub_add_cancel (by omega)]
  have hcut : 2 ^ 31 * 2 ^ s ≤ divisor / 2 ^ s * 2 ^ s := Nat.mul_le_mul_right _ hd31
  have hqp : dividend / divisor * 2 ^ s < 2 ^ (33 - s) * 2 ^ s := by
    have h1 : dividend / divisor * (2 ^ 31 * 2 ^ s) ≤ dividend / divisor * divisor := Nat.mul_le_mul_left _ hge
    have h2 := Nat.div_mul_le_self dividend divisor
    have h3 : dividend / divisor * (2 ^ 31 * 2 ^ s) = 2 ^ 31 * (dividend / divisor * 2 ^ s) := by ring
    omega
  have hq : dividend / divisor + 1 ≤ 2 ^ (33 - s) := Nat.lt_of_mul_lt_mul_right hqp
  obtain hs | hs2 := Nat.eq_or_lt_of_le hs1
  · rw [← hs] at hq hcut ⊢
    norm_num at hq hcut ⊢
    omega
  · have h4 : 2 ^ 2 ≤ 2 ^ s := Nat.pow_le_pow_right (by norm_num) hs2
    calc (dividend / divisor + 1) * (2 ^ s - 1) ≤ 2 ^ (33 - s) * 2 ^ s := Nat.mul_le_mul hq (Nat.sub_le _ _)
      _ = 2 ^ 33 := h33
      _ ≤ 2 ^ 31 * 2 ^ s := by omega
      _ ≤ divisor / 2 ^ s * 2 ^ s := hcut

/-- **div64_u64** is exact for a divisor of 32 bits, and never too small; otherwise it is at most one too large. -/
theorem div64U64_near {dividend divisor : ℕ} (hn : dividend < 2 ^ 64) (hd : divisor < 2 ^ 64) (h0 : 0 < divisor) :
    ∃ q, div64U64 dividend divisor = some q ∧ dividend / divisor ≤ q ∧ q ≤ dividend / divisor + 1 ∧
      (divisor < 2 ^ 32 → q = dividend / divisor) := by
  rw [div64U64]
  dsimp only
  split_ifs with hhigh
  · set s := fls (divisor / 2 ^ 32) with hs
    obtain ⟨hlow, hup⟩ := fls_bounds hhigh
    rw [← hs] at hlow hup
    have hs1 : 1 ≤ s := by rw [hs, fls, if_neg hhigh]; omega
    have hs32 : s ≤ 32 := by
      have : 2 ^ (s - 1) < 2 ^ 32 := by omega
      have := (Nat.pow_lt_pow_iff_right (by norm_num)).1 this
      omega
    have hpow : 2 ^ s = 2 * 2 ^ (s - 1) := by rw [← pow_succ', Nat.sub_add_cancel hs1]
    have hpos := Nat.two_pow_pos s
    have hpos' := Nat.two_pow_pos (s - 1)
    -- the divisor has 32 bits once it is shifted
    have hge : 2 ^ 31 * 2 ^ s ≤ divisor := by omega
    have hlt : divisor < 2 ^ 32 * 2 ^ s := by omega
    have hd31 : 2 ^ 31 ≤ divisor / 2 ^ s := (Nat.le_div_iff_mul_le hpos).2 hge
    have hd32 : divisor / 2 ^ s < 2 ^ 32 := (Nat.div_lt_iff_lt_mul hpos).2 hlt
    have hgo : (divU64Rem (dividend / 2 ^ s) (divisor / 2 ^ s % 2 ^ 32)).map Prod.fst =
        some (dividend / (divisor / 2 ^ s * 2 ^ s)) := by
      rw [Nat.mod_eq_of_lt hd32, divU64Rem, doDiv64_eq ((Nat.div_le_self _ _).trans_lt hn) (by omega) hd32, Option.map_some,
        Nat.div_div_eq_div_mul, Nat.mul_comm]
    have hmod := Nat.div_add_mod' divisor (2 ^ s)
    have hmodlt := Nat.mod_lt divisor hpos
    have hsmall := quotient_small hn hs1 hs32 hge hd31
    obtain ⟨hle, hnear⟩ := div_cut (n := dividend) (by positivity) (by omega) (by omega) hsmall
    exact ⟨_, hgo, hle, hnear, fun hsmall => absurd hsmall (by omega)⟩
  · refine ⟨dividend / divisor, ?_, le_rfl, Nat.le_succ _, fun _ => rfl⟩
    rw [Nat.mod_eq_of_lt (show divisor < 2 ^ 32 by omega), divU64Rem, doDiv64_eq hn h0 (by omega)]
    rfl

/-! ## With signs -/

theorem toNat_bmod (x : ℤ) {m : ℕ} (hm : (m : ℤ) ≠ 0) : Int.bmod (x % m).toNat m = Int.bmod x m := by
  rw [Int.toNat_of_nonneg (Int.emod_nonneg x hm), Int.emod_bmod]

theorem s64_u64 (x : ℤ) : s64 (u64 x) = Int.bmod x (2 ^ 64) := toNat_bmod x (by norm_num)

theorem s32_natCast (h : n < 2 ^ 31) : s32 n = n := Int.bmod_eq_of_le (by omega) (by omega)

theorem u64_natCast (h : n < 2 ^ 64) : u64 n = n := by
  rw [u64]
  omega

/-- also of the divisor whose absolute value is no int -/
theorem u32_abs32 {divisor : ℤ} (hlow : -2 ^ 31 ≤ divisor) (hup : divisor < 2 ^ 31) :
    u32 (abs32 divisor) = divisor.natAbs := by
  rw [u32, abs32]
  split_ifs with h
  · omega
  · rw [Int.bmod_emod]
    omega

theorem tdiv_natAbs {a b : ℕ} {divisor : ℤ} (hb : b = divisor.natAbs) :
    (a : ℤ).tdiv divisor = if 0 < divisor then ((a / b : ℕ) : ℤ) else -((a / b : ℕ) : ℤ) := by
  split_ifs with h
  · obtain rfl : divisor = b := by omega
    rfl
  · obtain rfl : divisor = -b := by omega
    rw [Int.tdiv_neg]
    rfl

theorem tmod_natAbs {a b : ℕ} {divisor : ℤ} (hb : b = divisor.natAbs) : (a : ℤ).tmod divisor = (a % b : ℕ) := by
  obtain rfl | rfl : divisor = b ∨ divisor = -b := by omega
  · rfl
  · rw [Int.tmod_neg]
    rfl

/-- **div_s64_rem** divides towards zero, as C does; the quotient wraps where it is no s64. -/
theorem divS64Rem_eq {dividend divisor : ℤ} (hn : -2 ^ 63 ≤ dividend ∧ dividend < 2 ^ 63)
    (hd : -2 ^ 31 ≤ divisor ∧ divisor < 2 ^ 31) (h0 : divisor ≠ 0) :
    divS64Rem dividend divisor = some (Int.bmod (dividend.tdiv divisor) (2 ^ 64), dividend.tmod divisor) := by
  obtain ⟨hn1, hn2⟩ := hn
  have habs := u32_abs32 hd.1 hd.2
  obtain ⟨b, hb⟩ : ∃ b : ℕ, b = divisor.natAbs := ⟨_, rfl⟩
  obtain ⟨a, ha⟩ : ∃ a : ℕ, a = dividend.natAbs := ⟨_, rfl⟩
  rw [← hb] at habs
  have hgo : divU64Rem a b = some (a / b, a % b) := doDiv64_eq (by omega) (by omega) (by omega)
  have hrem : s32 (a % b : ℕ) = (a % b : ℕ) := s32_natCast ((Nat.mod_lt a (by omega)).trans_le (by omega))
  have hmod : a % b < 2 ^ 31 := (Nat.mod_lt a (by omega)).trans_le (by omega)
  rw [divS64Rem, habs]
  by_cases hneg : dividend < 0
  · obtain rfl : dividend = -a := by omega
    have hminus : Int.bmod (-(a % b : ℕ)) (2 ^ 32) = -(a % b : ℕ) := Int.bmod_eq_of_le (by omega) (by omega)
    rw [if_pos hneg, neg_neg, u64_natCast (by omega), hgo]
    simp only [Option.bind_eq_bind, Option.bind_some, hrem, hminus, Int.neg_tdiv, Int.neg_tmod, tdiv_natAbs hb, tmod_natAbs hb]
    split_ifs with hpos
    · rw [s64_u64]
    · rw [neg_neg]
      rfl
  · obtain rfl : dividend = a := by omega
    rw [if_neg hneg, u64_natCast (by omega), hgo]
    simp only [Option.bind_eq_bind, Option.bind_some, hrem, tdiv_natAbs hb, tmod_natAbs hb]
    split_ifs with hpos hpos' hpos'
    · omega
    · rw [s64_u64]
    · rfl
    · omega

/-- **The divisions.** By a base of 32 bits do_div64 divides every number exactly, whether its inline path or the loops of
__div64_32 run; div_s64_rem divides towards zero; div64_u64 is exact for divisors of 32 bits and otherwise at most one too
large. -/
theorem div64_divides :
    (∀ n base : ℕ, n < 2 ^ 64 → 0 < base → base < 2 ^ 32 → doDiv64 n base = some (n / base, n % base)) ∧
    (∀ dividend divisor : ℤ, -2 ^ 63 ≤ dividend ∧ dividend < 2 ^ 63 → -2 ^ 31 ≤ divisor ∧ divisor < 2 ^ 31 →
    divisor ≠ 0 →
      divS64Rem dividend divisor = some (Int.bmod (dividend.tdiv divisor) (2 ^ 64), dividend.tmod divisor)) ∧
    ∀ dividend divisor : ℕ, dividend < 2 ^ 64 → divisor < 2 ^ 64 → 0 < divisor →
    ∃ q, div64U64 dividend divisor = some q ∧
      dividend / divisor ≤ q ∧ q ≤ dividend / divisor + 1 ∧ (divisor < 2 ^ 32 → q = dividend / divisor) :=
  ⟨fun _ _ => doDiv64_eq, fun _ _ => divS64Rem_eq, fun _ _ => div64U64_near⟩

/-- the quotient one too large -/
example : div64U64 (2 ^ 33 - 2) (2 ^ 33 - 1) = some 1 ∧ (2 ^ 33 - 2) / (2 ^ 33 - 1) = 0 := by decide

end SinsOs.Div64
