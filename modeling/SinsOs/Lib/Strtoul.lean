/-
ctype.h with the table of lib/ctype.c, and the numbers that lib/vsprintf.c reads out of a string.

A string is the list of its bytes in front of the NUL, and a pointer into it is what is left of it.

- `strto_numeral`: a numeral in a base up to 16, in small or in capital letters and behind any zeros, is read as its number cut to
  the width of the result, up to the first byte that is no digit of the base.
-/
import SinsOs.Lib.Str

namespace SinsOs.Strtoul

open Lib

def ch (c : Char) : Byte := BitVec.ofNat 8 c.toNat

/-! ## include/ctype.h and lib/ctype.c -/

def U : ℕ := 0x01
def L : ℕ := 0x02
def D : ℕ := 0x04
def C : ℕ := 0x08
def P : ℕ := 0x10
def S : ℕ := 0x20
def X : ℕ := 0x40
def SP : ℕ := 0x80

def ctype : List ℕ :=
  .replicate 9 C ++ .replicate 5 (C ||| S) ++ .replicate 18 C ++ [S ||| SP] ++ .replicate 15 P ++ .replicate 10 D ++
  .replicate 7 P ++ .replicate 6 (U ||| X) ++ .replicate 20 U ++ .replicate 6 P ++ .replicate 6 (L ||| X) ++ .replicate 20 L ++
  .replicate 4 P ++ [C] ++ .replicate 32 0 ++ [S ||| SP] ++ .replicate 31 P ++ .replicate 23 U ++ [P] ++ .replicate 7 U ++
  .replicate 24 L ++ [P] ++ .replicate 8 L

def ismask (c : Byte) : ℕ := ctype.getD c.toNat 0

def isdigit (c : Byte) : Bool := ismask c &&& D != 0
def islower (c : Byte) : Bool := ismask c &&& L != 0
def isspace (c : Byte) : Bool := ismask c &&& S != 0
def isxdigit (c : Byte) : Bool := ismask c &&& (D ||| X) != 0
def toupper (c : Byte) : Byte := if islower c then c - (ch 'a' - ch 'A') else c

/-! ## Reading numbers -/

/-- value, of a byte with isxdigit -/
def value (c : Byte) : ℕ := if isdigit c then c.toNat - '0'.toNat else (toupper c).toNat - 'A'.toNat + 10

def Digit (base : ℕ) (c : Byte) : Prop := isxdigit c ∧ value c < base

instance (base : ℕ) (c : Byte) : Decidable (Digit base c) := inferInstanceAs (Decidable (_ ∧ _))

/-- the result has w bits -/
def digitLoop (w base : ℕ) : ℕ → List Byte → ℕ × List Byte
  | result, [] => (result, [])
  | result, c :: cp => if Digit base c then digitLoop w base ((result * base + value c) % 2 ^ w) cp else (result, c :: cp)

/-- the base that a string shows when the caller gives 0 -/
def guessBase (cp : List Byte) : ℕ × List Byte :=
  if cp.headD 0 = ch '0' then
    let cp := cp.tail
    if cp.headD 0 = ch 'x' ∧ isxdigit (cp.tail.headD 0) then (16, cp.tail) else (8, cp)
  else (10, cp)

/-- the number and what is behind it -/
def strto (w : ℕ) (cp : List Byte) (base : ℕ) : ℕ × List Byte :=
  if base = 0 then digitLoop w (guessBase cp).1 0 (guessBase cp).2 else digitLoop w base 0 cp

def strtoSigned (w : ℕ) (cp : List Byte) (base : ℕ) : ℤ × List Byte :=
  if cp.headD 0 = ch '-' then (Int.bmod (-(strto w cp.tail base).1) (2 ^ w), (strto w cp.tail base).2)
  else (Int.bmod (strto w cp base).1 (2 ^ w), (strto w cp base).2)

def simpleStrtoul : List Byte → ℕ → ℕ × List Byte := strto 32
def simpleStrtoull : List Byte → ℕ → ℕ × List Byte := strto 64
def simpleStrtol : List Byte → ℕ → ℤ × List Byte := strtoSigned 32
def simpleStrtoll : List Byte → ℕ → ℤ × List Byte := strtoSigned 64

/-! ## Numerals -/

def smallDigits : List Byte :=
  ['0', '1', '2', '3', '4', '5', '6', '7', '8', '9', 'a', 'b', 'c', 'd', 'e', 'f', 'g', 'h', 'i', 'j', 'k', 'l', 'm', 'n', 'o',
  'p', 'q', 'r', 's', 't', 'u', 'v', 'w', 'x', 'y', 'z'].map ch

def largeDigits : List Byte :=
  ['0', '1', '2', '3', '4', '5', '6', '7', '8', '9', 'A', 'B', 'C', 'D', 'E', 'F', 'G', 'H', 'I', 'J', 'K', 'L', 'M', 'N', 'O',
  'P', 'Q', 'R', 'S', 'T', 'U', 'V', 'W', 'X', 'Y', 'Z'].map ch

def digits (large : Bool) : List Byte := if large then largeDigits else smallDigits

/-- a number written out, the highest digit first -/
def numeral (large : Bool) (base n : ℕ) : List Byte :=
  if n = 0 then [ch '0'] else ((base.digits n).map ((digits large).getD · 0)).reverse

variable {w base n r k : ℕ} {large : Bool} {l rest : List Byte} {c : Byte}

theorem digit_value : ∀ large : Bool, ∀ d < 16, isxdigit ((digits large).getD d 0) ∧
    value ((digits large).getD d 0) = d := by
  decide

theorem digit_of_lt {d : ℕ} (hd : d < base) (hbase : base ≤ 16) : Digit base ((digits large).getD d 0) := by
  have h := digit_value large d (by omega)
  exact ⟨h.1, by rw [h.2]; exact hd⟩

theorem digit_zero (hbase : 0 < base) : Digit base (ch '0') := ⟨by decide, hbase⟩

theorem numeral_digits (hbase : 2 ≤ base) (h16 : base ≤ 16) : ∀ c ∈ numeral large base n, Digit base c := by
  intro c hc
  rw [numeral] at hc
  split_ifs at hc
  · rw [List.mem_singleton.1 hc]
    exact digit_zero (by omega)
  · obtain ⟨d, hd, rfl⟩ := List.mem_map.1 (List.mem_reverse.1 hc)
    exact digit_of_lt (Nat.digits_lt_base hbase hd) h16

/-- what the digits of a string add up to, behind what was read before -/
def readOff (base : ℕ) (r : ℕ) (l : List Byte) : ℕ := l.foldl (fun r c => r * base + value c) r

theorem digitLoop_readOff (hl : ∀ c ∈ l, Digit base c) (hrest : ∀ c ∈ rest.head?, ¬ Digit base c) :
    digitLoop w base (r % 2 ^ w) (l ++ rest) = (readOff base r l % 2 ^ w, rest) := by
  induction l generalizing r with
  | nil =>
    cases rest with
    | nil => rfl
    | cons c rest => exact if_neg (hrest c rfl)
  | cons c l ih =>
    have hcut : (r % 2 ^ w * base + value c) % 2 ^ w = (r * base + value c) % 2 ^ w := by
      rw [Nat.add_mod, Nat.mod_mul_mod, ← Nat.add_mod]
    rw [List.cons_append, digitLoop, if_pos (hl c List.mem_cons_self), hcut, ih fun d hd => hl d (List.mem_cons_of_mem _ hd)]
    rfl

theorem readOff_zeros : readOff base 0 (List.replicate k (ch '0') ++ l) = readOff base 0 l := by
  induction k with
  | zero => rfl
  | succ k ih =>
    have h0 : 0 * base + value (ch '0') = 0 := by rw [Nat.zero_mul]; rfl
    rw [List.replicate_succ, List.cons_append, readOff, List.foldl_cons, h0]
    exact ih

theorem readOff_numeral (hbase : 2 ≤ base) (h16 : base ≤ 16) : readOff base 0 (numeral large base n) = n := by
  rw [numeral]
  split_ifs with h0
  · rw [h0, readOff, List.foldl_cons, Nat.zero_mul]
    rfl
  · have hval : ((base.digits n).map ((digits large).getD · 0)).map value = base.digits n := by
      rw [List.map_map]
      refine (List.map_congr_left fun d hd => ?_).trans (List.map_id _)
      exact (digit_value large d ((Nat.digits_lt_base hbase hd).trans_le h16)).2
    have hfold : ∀ l : List Byte, readOff base 0 l.reverse = (l.map value).foldr (fun d r => d + base * r) 0 := by
      intro l
      rw [readOff, List.foldl_reverse, List.foldr_map]
      simp only [Nat.mul_comm, Nat.add_comm]
    calc readOff base 0 ((base.digits n).map ((digits large).getD · 0)).reverse
        = (base.digits n).foldr (fun d r => d + base * r) 0 := by rw [hfold, hval]
      _ = Nat.ofDigits base (base.digits n) := (Nat.ofDigits_eq_foldr base _).symm
      _ = n := Nat.ofDigits_digits base n

/-- a numeral behind zeros -/
def padded (large : Bool) (base n k : ℕ) : List Byte := List.replicate k (ch '0') ++ numeral large base n

theorem padded_digits (hbase : 2 ≤ base) (h16 : base ≤ 16) : ∀ c ∈ padded large base n k, Digit base c := by
  intro c hc
  rcases List.mem_append.1 hc with h | h
  · rw [List.eq_of_mem_replicate h]
    exact digit_zero (by omega)
  · exact numeral_digits hbase h16 c h

theorem numeral_ne_nil : numeral large base n ≠ [] := by
  rw [numeral]
  split_ifs with h0
  · exact List.cons_ne_nil _ _
  · rw [Ne, List.reverse_eq_nil_iff, List.map_eq_nil_iff]
    exact Nat.digits_ne_nil_iff_ne_zero.2 h0

theorem padded_head (hbase : 2 ≤ base) (h16 : base ≤ 16) :
    ∃ c l, padded large base n k = c :: l ∧ Digit base c := by
  have hne : padded large base n k ≠ [] := fun h => numeral_ne_nil (List.append_eq_nil_iff.1 h).2
  obtain ⟨c, l, hcons⟩ := List.exists_cons_of_ne_nil hne
  exact ⟨c, l, hcons, padded_digits hbase h16 c (hcons ▸ List.mem_cons_self)⟩

theorem digitLoop_numeral (hbase : 2 ≤ base) (h16 : base ≤ 16) (hrest : ∀ c ∈ rest.head?, ¬ Digit base c) :
    digitLoop w base 0 (padded large base n k ++ rest) = (n % 2 ^ w, rest) := by
  have hloop := digitLoop_readOff (w := w) (r := 0) (@padded_digits base n k large hbase h16) hrest
  rwa [Nat.zero_mod, padded, readOff_zeros, readOff_numeral hbase h16] at hloop

/-- **A numeral is read as its number.** -/
theorem strto_numeral (hbase : 2 ≤ base) (h16 : base ≤ 16) (hrest : ∀ c ∈ rest.head?, ¬ Digit base c) :
    strto w (padded large base n k ++ rest) base = (n % 2 ^ w, rest) := by
  rw [strto, if_neg (by omega), digitLoop_numeral hbase h16 hrest]

end SinsOs.Strtoul
