/-
A buffer of bytes with the log of the writes to it, and the copies of lib/string.c into one.

A copy stops behind the first NUL. `strncpy` is bounded by its count and always ends; `strcpy` is not, so it gets the number
of bytes that may be read from its source, and `none` is a read behind them.
- `mem_strncpy`, `writes_strncpy`: what a bounded copy leaves and where it writes.
- `strcpy_str`: a copy of a string writes its bytes and its NUL, one after the other, and nothing else.
- `strcmp_eq_zero`: two strings compare equal if and only if they are equal.
-/
import SinsOs.Lib.Str

namespace SinsOs.Lib

structure Buf where
  mem : Ptr
  /-- the offsets written so far, the last one first -/
  writes : List ℕ

/-- the string l and its NUL are at p -/
def StrAt (mem : Ptr) (p : ℕ) (l : List Byte) : Prop := ∀ i ≤ l.length, mem (p + i) = cstr l i

namespace Buf

def set (b : Buf) (i : ℕ) (c : Byte) : Buf := ⟨Function.update b.mem i c, i :: b.writes⟩

/-- while (count-- && (*dest++ = *src++) != 0) -/
def strncpy (b : Buf) (dest : ℕ) (src : Ptr) : ℕ → Buf
  | 0 => b
  | count + 1 => if src 0 = 0 then b.set dest (src 0) else (b.set dest (src 0)).strncpy (dest + 1) (src.add 1) count

/-- while ((*dest++ = *src++) != 0) -/
def strcpy (b : Buf) (dest : ℕ) (src : Ptr) : ℕ → Option Buf
  | 0 => none
  | readable + 1 =>
    if src 0 = 0 then some (b.set dest (src 0)) else (b.set dest (src 0)).strcpy (dest + 1) (src.add 1) readable

variable (b : Buf)

theorem mem_set (i : ℕ) (c : Byte) : (b.set i c).mem = Function.update b.mem i c := rfl
theorem writes_set (i : ℕ) (c : Byte) : (b.set i c).writes = i :: b.writes := rfl

end Buf

/-- the difference of the first bytes that differ, as a signed char; with the number of bytes that may be read -/
def strcmp (cs ct : Ptr) : ℕ → Option ℤ
  | 0 => none
  | readable + 1 =>
    let res := (cs 0 - ct 0).toInt
    if res ≠ 0 ∨ cs 0 = 0 then some res else strcmp (cs.add 1) (ct.add 1) readable

/-! ## strncpy -/

variable {b : Buf} {l l' : List Byte}

theorem mem_strncpy (count : ℕ) : ∀ (b : Buf) (dest : ℕ) (src : Ptr) (i : ℕ),
    (b.strncpy dest src count).mem i =
      if i < dest then b.mem i else strncpy (b.mem.add dest) src count (i - dest) := by
  induction count with
  | zero =>
    intro b dest src i
    rw [Buf.strncpy, strncpy, Ptr.add]
    split_ifs with h
    · rfl
    · rw [Nat.sub_add_cancel (Nat.not_lt.1 h)]
  | succ count ih =>
    intro b dest src i
    -- the first byte is written, and what is behind it comes from the rest of the loop
    have hset : ∀ j, j ≠ dest → (b.set dest (src 0)).mem j = b.mem j := fun j hj => Function.update_of_ne hj _ _
    have hfirst : (b.set dest (src 0)).mem dest = src 0 := Function.update_self ..
    have hadd : (b.set dest (src 0)).mem.add (dest + 1) = (b.mem.add dest).add 1 := by
      funext j
      change (b.set dest (src 0)).mem (j + (dest + 1)) = b.mem (j + 1 + dest)
      rw [hset _ (by omega), Nat.add_right_comm j 1 dest, Nat.add_assoc]
    rw [Buf.strncpy]
    rcases Nat.lt_trichotomy i dest with h | rfl | h
    · rw [if_pos h]
      split_ifs
      · exact hset i h.ne
      · rw [ih, if_pos (by omega), hset i h.ne]
    · rw [if_neg (lt_irrefl i), Nat.sub_self, strncpy]
      split_ifs
      · exact hfirst
      · rw [ih, if_pos (by omega), hfirst]
    · obtain ⟨j, rfl⟩ : ∃ j, i = dest + (j + 1) := ⟨i - dest - 1, by omega⟩
      have hge : ¬ dest + (j + 1) < dest := by omega
      rw [if_neg hge, Nat.add_sub_cancel_left, strncpy]
      dsimp only
      split_ifs
      · rw [hset _ (by omega), Ptr.add, Nat.add_comm dest]
      · rw [ih, if_neg (by omega), hadd, show dest + (j + 1) - (dest + 1) = j from by omega]

theorem writes_strncpy (count : ℕ) : ∀ (b : Buf) (dest : ℕ) (src : Ptr),
    ∀ k ∈ (b.strncpy dest src count).writes, k ∈ b.writes ∨ (dest ≤ k ∧ k < dest + count) := by
  induction count with
  | zero => intro b dest src k hk; exact Or.inl hk
  | succ count ih =>
    intro b dest src k hk
    have hset : ∀ j ∈ (b.set dest (src 0)).writes, j = dest ∨ j ∈ b.writes := fun j hj => List.mem_cons.1 hj
    rw [Buf.strncpy] at hk
    split_ifs at hk
    · rcases hset k hk with rfl | h
      · exact Or.inr ⟨le_rfl, by omega⟩
      · exact Or.inl h
    · rcases ih _ _ _ k hk with h | ⟨h1, h2⟩
      · rcases hset k h with rfl | h
        · exact Or.inr ⟨le_rfl, by omega⟩
        · exact Or.inl h
      · exact Or.inr ⟨by omega, by omega⟩

/-! ## Strings in a buffer -/

theorem cstr_end (l : List Byte) : cstr l l.length = 0 := by
  rw [cstr, List.getD_eq_getElem?_getD, List.getElem?_eq_none le_rfl]
  rfl

theorem StrAt.congr {mem mem' : Ptr} {p : ℕ} (h : StrAt mem p l) (hmem : ∀ i ≤ l.length, mem' (p + i) = mem (p + i)) :
    StrAt mem' p l := fun i hi => (hmem i hi).trans (h i hi)

/-- a string behind its first byte -/
theorem StrAt.tail {mem : Ptr} {p : ℕ} {c : Byte} (h : StrAt mem p (c :: l)) : StrAt mem (p + 1) l := by
  intro i hi
  have := h (i + 1) (Nat.succ_le_succ hi)
  rw [Nat.add_right_comm, Nat.add_assoc, this, ← cstr_cons c l]
  rfl

theorem StrAt.add_one {mem : Ptr} {c : Byte} (h : StrAt mem 0 (c :: l)) : StrAt (mem.add 1) 0 l := by
  intro i hi
  have := h.tail i hi
  rw [Nat.zero_add, Nat.add_comm] at this
  rwa [Nat.zero_add]

theorem StrAt.add {mem : Ptr} {p : ℕ} (h : StrAt mem p l) : StrAt (mem.add p) 0 l := by
  intro i hi
  rw [Nat.zero_add, Ptr.add, Nat.add_comm]
  exact h i hi

theorem StrAt.left {mem : Ptr} {p : ℕ} (h : StrAt mem p (l ++ l')) : StrAt mem (p + l.length) l' := by
  intro i hi
  have := h (l.length + i) (by rw [List.length_append]; omega)
  rw [← Nat.add_assoc, cstr_append, if_neg (by omega), Nat.add_sub_cancel_left] at this
  exact this

/-- a string cut with a NUL -/
theorem StrAt.cut {mem : Ptr} {p : ℕ} (h : StrAt mem p (l ++ l')) :
    StrAt (Function.update mem (p + l.length) 0) p l := by
  intro i hi
  rcases Nat.eq_or_lt_of_le hi with rfl | hlt
  · rw [Function.update_self, cstr_end]
  · rw [Function.update_of_ne (by omega), h i (by rw [List.length_append]; omega), cstr_append, if_pos hlt]

/-! ## Strings read with a bound -/

variable {p : Ptr} {n : ℕ}

theorem strn_end (h : (strn n p).length < n) : p (strn n p).length = 0 := by
  induction n generalizing p with
  | zero => cases h
  | succ n ih =>
    rw [strn] at h ⊢
    split_ifs at h ⊢ with h0
    · exact h0
    · rw [List.length_cons] at h ⊢
      exact ih (p := p.add 1) (Nat.lt_of_succ_lt_succ h)

theorem terminated_iff : (∃ k < n, p k = 0) ↔ (strn n p).length < n := by
  constructor
  · rintro ⟨k, hk, h0⟩
    calc (strn n p).length = (strn k p).length := by rw [strn_stop h0 hk.le]
      _ ≤ k := strn_length_le k p
      _ < n := hk
  · exact fun h => ⟨_, h, strn_end h⟩

/-- a string that goes on behind its first k bytes -/
theorem strn_append (k : ℕ) (h : ∀ i < k, p i ≠ 0) : strn (k + n) p = strn k p ++ strn n (p.add k) := by
  induction k generalizing p with
  | zero => rw [Nat.zero_add]; rfl
  | succ k ih =>
    have h0 := h 0 k.succ_pos
    have hadd : (p.add 1).add k = p.add (k + 1) := by funext i; exact congrArg p (Nat.add_assoc i k 1)
    rw [Nat.add_right_comm, strn, if_neg h0, ih (p := p.add 1) fun i hi => h (i + 1) (Nat.succ_lt_succ hi), hadd,
      strn, if_neg h0, List.cons_append]

/-- what is read of a memory with a NUL is a string there -/
theorem strAt_strn (h : (strn n p).length < n) : StrAt p 0 (strn n p) := by
  induction n generalizing p with
  | zero => cases h
  | succ n ih =>
    rw [strn] at h ⊢
    intro i hi
    rw [Nat.zero_add]
    split_ifs at h hi ⊢ with h0
    · obtain rfl : i = 0 := Nat.le_zero.1 hi
      exact h0
    · cases i with
      | zero => rfl
      | succ i =>
        rw [List.length_cons] at h hi
        have := ih (p := p.add 1) (Nat.lt_of_succ_lt_succ h) i (Nat.le_of_succ_le_succ hi)
        rw [Nat.zero_add, ← cstr_cons (p 0)] at this
        exact this

theorem strn_nonzero {i : ℕ} (h : i < (strn n p).length) : p i ≠ 0 := by
  intro h0
  have hin : i < n := h.trans_le (strn_length_le n p)
  rw [strn_stop h0 hin.le] at h
  exact absurd (strn_length_le i p) (Nat.not_le.2 h)

/-! ## strcpy and strcmp -/

/-- **strcpy of a string.** -/
theorem strcpy_str (l : List Byte) : ∀ (b : Buf) (dest : ℕ) (src : Ptr) (readable : ℕ), (∀ c ∈ l, c ≠ 0) →
    StrAt src 0 l → l.length < readable →
    ∃ b', b.strcpy dest src readable = some b' ∧ StrAt b'.mem dest l ∧
      (∀ i, i < dest ∨ dest + l.length < i → b'.mem i = b.mem i) ∧
      b'.writes = (List.range' dest (l.length + 1)).reverse ++ b.writes := by
  induction l with
  | nil =>
    intro b dest src readable _ hsrc hr
    obtain ⟨r, rfl⟩ : ∃ r, readable = r + 1 := ⟨readable - 1, by simp only [List.length_nil] at hr; omega⟩
    have h0 : src 0 = 0 := hsrc 0 le_rfl
    refine ⟨b.set dest (src 0), if_pos h0, ?_, ?_, rfl⟩
    · intro i hi
      obtain rfl : i = 0 := Nat.le_zero.1 hi
      rw [Nat.add_zero, Buf.mem_set, Function.update_self, h0]
      rfl
    · intro i hi
      exact Function.update_of_ne (by simp only [List.length_nil] at hi; omega) _ _
  | cons c l ih =>
    intro b dest src readable hl hsrc hr
    rw [List.length_cons] at hr
    obtain ⟨r, rfl⟩ : ∃ r, readable = r + 1 := ⟨readable - 1, by omega⟩
    have h0 : src 0 = c := hsrc 0 (Nat.zero_le _)
    obtain ⟨b', hb', hstr, hframe, hwrites⟩ :=
      ih (b.set dest (src 0)) (dest + 1) (src.add 1) r (fun d hd => hl d (List.mem_cons_of_mem _ hd)) hsrc.add_one (by omega)
    refine ⟨b', ?_, ?_, ?_, ?_⟩
    · rw [Buf.strcpy, if_neg (h0 ▸ hl c List.mem_cons_self), hb']
    · intro i hi
      cases i with
      | zero =>
        rw [Nat.add_zero, hframe dest (Or.inl dest.lt_succ_self), Buf.mem_set, Function.update_self, h0]
        rfl
      | succ i =>
        rw [Nat.add_comm i 1, ← Nat.add_assoc, hstr i (Nat.le_of_succ_le_succ hi), ← cstr_cons c l, Ptr.add, Nat.add_comm]
    · intro i hi
      rw [List.length_cons] at hi
      rw [hframe i (by omega), Buf.mem_set, Function.update_of_ne (by omega)]
    · rw [hwrites, Buf.writes_set, List.length_cons, List.range'_succ (n := l.length + 1), List.reverse_cons,
        List.append_assoc]
      rfl

/-- **strcmp of two strings.** -/
theorem strcmp_eq_zero (l : List Byte) : ∀ (l' : List Byte) (cs ct : Ptr) (readable : ℕ), (∀ c ∈ l, c ≠ 0) →
    (∀ c ∈ l', c ≠ 0) → StrAt cs 0 l → StrAt ct 0 l' → l.length < readable →
    ∃ res, strcmp cs ct readable = some res ∧ (res = 0 ↔ l = l') := by
  induction l with
  | nil =>
    intro l' cs ct readable _ hl' hcs hct hr
    obtain ⟨r, rfl⟩ : ∃ r, readable = r + 1 := ⟨readable - 1, by simp only [List.length_nil] at hr; omega⟩
    have h0 : cs 0 = 0 := hcs 0 le_rfl
    refine ⟨_, if_pos (Or.inr h0), (sub_toInt_eq_zero _ _).trans ?_⟩
    have hct0 : ct 0 = cstr l' 0 := hct 0 (Nat.zero_le _)
    rw [h0, hct0]
    cases l' with
    | nil => exact iff_of_true rfl rfl
    | cons c l' => exact iff_of_false (fun h => hl' c List.mem_cons_self h.symm) (List.cons_ne_nil c l').symm
  | cons c l ih =>
    intro l' cs ct readable hl hl' hcs hct hr
    rw [List.length_cons] at hr
    obtain ⟨r, rfl⟩ : ∃ r, readable = r + 1 := ⟨readable - 1, by omega⟩
    have h0 : cs 0 = c := hcs 0 (Nat.zero_le _)
    have hc : c ≠ 0 := hl c List.mem_cons_self
    have hct0 : ct 0 = cstr l' 0 := hct 0 (Nat.zero_le _)
    rw [strcmp]
    by_cases heq : cs 0 = ct 0
    · -- the same byte: both strings go on
      rw [if_neg]
      · cases l' with
        | nil => exact absurd (h0.symm.trans (heq.trans hct0)) hc
        | cons d l' =>
          obtain rfl : c = d := h0.symm.trans (heq.trans hct0)
          obtain ⟨res, hres, hiff⟩ := ih l' (cs.add 1) (ct.add 1) r (fun x hx => hl x (List.mem_cons_of_mem _ hx))
            (fun x hx => hl' x (List.mem_cons_of_mem _ hx)) hcs.add_one hct.add_one (by omega)
          exact ⟨res, hres, hiff.trans ⟨congrArg (c :: ·), List.tail_eq_of_cons_eq⟩⟩
      · exact fun h => h.elim (fun h => h ((sub_toInt_eq_zero _ _).2 heq)) (h0 ▸ hc)
    · have hne : ¬ (cs 0 - ct 0).toInt = 0 := fun h => heq ((sub_toInt_eq_zero _ _).1 h)
      refine ⟨_, if_pos (Or.inl hne), iff_of_false hne ?_⟩
      rintro rfl
      exact heq (h0.trans hct0.symm)

end SinsOs.Lib
