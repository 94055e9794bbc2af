/-
Error numbers (include/sins/error.h) and strings (lib/string.c).

A pointer to characters is the function from an offset to the byte there. `strn n p` is the C string at p, cut after n
bytes; `strncmp_eq_zero` and `strnlen_eq` say what the two functions compute in terms of it.
-/
import Mathlib.Tactic

namespace SinsOs.Lib

/-! ## include/sins/error.h -/

def success : ℤ := 0
def error : ℤ := 1
def eBusy : ℤ := 2
def eInval : ℤ := 3
def eNomem : ℤ := 5
def eIo : ℤ := 7
def eNoexec : ℤ := 8

/-! ## lib/string.c -/

abbrev Byte := BitVec 8
abbrev Ptr := ℕ → Byte

def Ptr.add (p : Ptr) (n : ℕ) : Ptr := fun i => p (i + n)

/-- the difference of the first bytes that differ, as a signed char -/
def strncmp (cs ct : Ptr) : ℕ → ℤ
  | 0 => 0
  | count + 1 =>
    let res := (cs 0 - ct 0).toInt
    if res ≠ 0 ∨ cs 0 = 0 then res else strncmp (cs.add 1) (ct.add 1) count

def strnlen (s : Ptr) : ℕ → ℕ
  | 0 => 0
  | count + 1 => if s 0 = 0 then 0 else strnlen (s.add 1) count + 1

/-- what strncpy leaves at dest: it stops behind the first NUL and does not pad -/
def strncpy (dest src : Ptr) : ℕ → Ptr
  | 0 => dest
  | count + 1 => fun i =>
    match i with
    | 0 => src 0
    | i + 1 => if src 0 = 0 then dest (i + 1) else strncpy (dest.add 1) (src.add 1) count i

/-- the string at p, cut after n bytes -/
def strn : ℕ → Ptr → List Byte
  | 0, _ => []
  | n + 1, p => if p 0 = 0 then [] else p 0 :: strn n (p.add 1)

/-- a string with its NUL -/
def cstr (l : List Byte) : Ptr := fun i => l.getD i 0

theorem cstr_cons (b : Byte) (l : List Byte) : (cstr (b :: l)).add 1 = cstr l := by
  funext i; simp [cstr, Ptr.add]

/-- no difference of two bytes is lost in a signed char -/
theorem sub_toInt_eq_zero (x y : Byte) : (x - y).toInt = 0 ↔ x = y := by
  constructor
  · intro h
    have hsub : x - y = 0#8 := BitVec.eq_of_toInt_eq (by simpa using h)
    bv_omega
  · intro h; simp [h]

theorem strncmp_eq_zero (n : ℕ) (cs ct : Ptr) : strncmp cs ct n = 0 ↔ strn n cs = strn n ct := by
  induction n generalizing cs ct with
  | zero => simp [strncmp, strn]
  | succ n ih =>
    have hres := sub_toInt_eq_zero (cs 0) (ct 0)
    rw [strncmp, strn, strn]
    by_cases h : cs 0 = ct 0
    · simp only [hres.2 h, ne_eq, not_true_eq_false, false_or]
      by_cases h0 : cs 0 = 0
      · simp [h0, ← h]
      · rw [if_neg h0, if_neg h0, if_neg (h ▸ h0), ih, h, List.cons.injEq]
        simp
    · have hne : ¬ (cs 0 - ct 0).toInt = 0 := fun hz => h (hres.1 hz)
      rw [if_pos (Or.inl hne)]
      refine iff_of_false hne fun he => h ?_
      split_ifs at he with h1 h2 h3
      · rw [h1, h2]
      · exact (List.cons.inj he).1

theorem strnlen_eq (n : ℕ) (s : Ptr) : strnlen s n = (strn n s).length := by
  induction n generalizing s with
  | zero => rfl
  | succ n ih =>
    rw [strnlen, strn]
    split_ifs
    · rfl
    · rw [ih, List.length_cons]

theorem strn_length_le (n : ℕ) (s : Ptr) : (strn n s).length ≤ n := by
  induction n generalizing s with
  | zero => exact le_rfl
  | succ n ih =>
    rw [strn]
    split_ifs
    · exact Nat.zero_le _
    · exact Nat.succ_le_succ (ih _)

theorem strn_ne_zero (n : ℕ) (s : Ptr) : ∀ b ∈ strn n s, b ≠ 0 := by
  induction n generalizing s with
  | zero => intro b hb; cases hb
  | succ n ih =>
    intro b hb
    rw [strn] at hb
    split_ifs at hb with h0
    · cases hb
    · rcases List.mem_cons.1 hb with rfl | hb
      · exact h0
      · exact ih _ b hb

/-- a string without NUL, read with a bound -/
theorem strn_cstr (l : List Byte) (hl : ∀ b ∈ l, b ≠ 0) (n : ℕ) : strn n (cstr l) = l.take n := by
  induction n generalizing l with
  | zero => simp [strn]
  | succ n ih =>
    cases l with
    | nil => simp [strn, cstr]
    | cons b l =>
      have hb : cstr (b :: l) 0 = b := rfl
      rw [strn, hb, if_neg (hl b List.mem_cons_self), cstr_cons, ih l fun c hc => hl c (List.mem_cons_of_mem _ hc),
        List.take_succ_cons]

theorem strn_congr {n : ℕ} {p q : Ptr} (h : ∀ i < n, p i = q i) : strn n p = strn n q := by
  induction n generalizing p q with
  | zero => rfl
  | succ n ih =>
    have h0 := h 0 n.succ_pos
    rw [strn, strn, h0, ih (p := p.add 1) (q := q.add 1) fun i hi => h (i + 1) (Nat.succ_lt_succ hi)]

theorem cstr_append (l l' : List Byte) (i : ℕ) :
    cstr (l ++ l') i = if i < l.length then cstr l i else cstr l' (i - l.length) := by
  split_ifs with h
  · simp only [cstr, List.getD_eq_getElem?_getD, List.getElem?_append_left h]
  · simp only [cstr, List.getD_eq_getElem?_getD, List.getElem?_append_right (not_lt.1 h)]

/-- reading stops at a NUL -/
theorem strn_stop {p : Ptr} {k n : ℕ} (h : p k = 0) (hk : k ≤ n) : strn n p = strn k p := by
  induction k generalizing p n with
  | zero =>
    cases n with
    | zero => rfl
    | succ n =>
      rw [strn, strn]
      exact if_pos h
  | succ k ih =>
    obtain ⟨m, rfl⟩ : ∃ m, n = m + 1 := ⟨n - 1, by omega⟩
    rw [strn, strn]
    split_ifs
    · rfl
    · rw [ih (p := p.add 1) h (by omega)]

/-- a string without NUL is copied whole, and no NUL behind it -/
theorem strncpy_cstr (l : List Byte) (hl : ∀ b ∈ l, b ≠ 0) (dest : Ptr) (i : ℕ) :
    strncpy dest (cstr l) l.length i = if i < l.length then cstr l i else dest i := by
  induction l generalizing dest i with
  | nil => rfl
  | cons b l ih =>
    have hb : cstr (b :: l) 0 ≠ 0 := hl b List.mem_cons_self
    cases i with
    | zero => rfl
    | succ i =>
      rw [List.length_cons, strncpy]
      dsimp only
      rw [if_neg hb, cstr_cons, ih fun c hc => hl c (List.mem_cons_of_mem _ hc)]
      by_cases hi : i < l.length
      · rw [if_pos hi, if_pos (Nat.succ_lt_succ hi), ← cstr_cons b l]
        rfl
      · rw [if_neg hi, if_neg fun h => hi (Nat.lt_of_succ_lt_succ h)]
        rfl

/-- the bytes of the string that is copied, in front of its end -/
theorem strncpy_lt {n i : ℕ} (dest src : Ptr) (hi : i < (strn n src).length) :
    strncpy dest src n i = cstr (strn n src) i := by
  induction n generalizing dest src i with
  | zero => cases hi
  | succ n ih =>
    rw [strn] at hi ⊢
    split_ifs at hi ⊢ with h0
    · cases hi
    · cases i with
      | zero => rfl
      | succ i =>
        rw [strncpy]
        dsimp only
        rw [if_neg h0, ih _ _ (Nat.lt_of_succ_lt_succ hi), ← cstr_cons (src 0)]
        rfl

/-- the copy is the string, if it is read as far as it was copied -/
theorem strn_strncpy (n : ℕ) (dest src : Ptr) : strn n (strncpy dest src n) = strn n src := by
  induction n generalizing dest src with
  | zero => rfl
  | succ n ih =>
    have h0 : strncpy dest src (n + 1) 0 = src 0 := rfl
    rw [strn, strn, h0]
    split_ifs with hz
    · rfl
    · have hrest : (strncpy dest src (n + 1)).add 1 = strncpy (dest.add 1) (src.add 1) n := by
        funext i
        exact if_neg hz
      rw [hrest, ih]

end SinsOs.Lib
