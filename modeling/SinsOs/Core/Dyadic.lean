/-
Tilings of an interval of cells by aligned power-of-two blocks, and buddies.

A tiling of [0, n) is a set of blocks [o, o + 2^k), each aligned to its own size and of order k ≤ K, that cover every
cell once. It is carried as the partial function `ord` from the first cell of a block to the order of the block, with
the well-formedness facts as fields, so the operations that change a tiling (`snoc`, `split`, `shatter`, `merge`) return
tilings and not only functions.

- `ord_buddy_eq`: a cell half a block away from a block's head decides the order of the neighbour. If (h, k) is a block,
  a block starts at h's buddy and none starts in the middle of the buddy's range, then that block has order k.
- `coalesced_unique`: a tiling in which no two buddies of equal order below K are both blocks is determined by n and K.
  Every such tiling consists of the largest aligned blocks that fit (`coalesced_maximal`).
- `coalesced_free`: where only some blocks are free and no two free buddies are both blocks, the blocks that are not free
  determine the free ones.
-/
import Mathlib.Tactic

namespace SinsOs.Dyadic

theorem add_le_of_dvd {d a b : ℕ} (ha : d ∣ a) (hb : d ∣ b) (h : a < b) : a + d ≤ b := by
  obtain ⟨x, rfl⟩ := ha
  obtain ⟨y, rfl⟩ := hb
  have hxy : x + 1 ≤ y := Nat.lt_of_mul_lt_mul_left h
  calc d * x + d = d * (x + 1) := by ring
    _ ≤ d * y := Nat.mul_le_mul_left d hxy

/-- a tiling of the cells [0, n): `ord o` is the order of the block that starts at o -/
structure Tiling (K n : ℕ) where
  ord : ℕ → Option ℕ
  le_max : ∀ o k, ord o = some k → k ≤ K
  aligned : ∀ o k, ord o = some k → 2 ^ k ∣ o
  inside : ∀ o k, ord o = some k → o + 2 ^ k ≤ n
  apart : ∀ o k o' k', ord o = some k → ord o' = some k' → o < o' → o + 2 ^ k ≤ o'
  cover : ∀ x < n, ∃ o k, ord o = some k ∧ o ≤ x ∧ x < o + 2 ^ k

variable {K n : ℕ}

namespace Tiling

theorem lt_of_ord (t : Tiling K n) {o k : ℕ} (h : t.ord o = some k) : o < n := by
  have := t.inside o k h
  have : 0 < 2 ^ k := Nat.two_pow_pos k
  omega

/-- a block that contains a cell aligned to the block's size starts at that cell -/
theorem start_eq (t : Tiling K n) {o k x : ℕ} (h : t.ord o = some k) (hx : 2 ^ k ∣ x) (h1 : o ≤ x)
    (h2 : x < o + 2 ^ k) : o = x := by
  rcases Nat.lt_or_eq_of_le h1 with hlt | heq
  · have := add_le_of_dvd (t.aligned o k h) hx hlt
    omega
  · exact heq

/-- two blocks that share a cell are the same block -/
theorem ord_unique (t : Tiling K n) {o k o' k' x : ℕ} (h : t.ord o = some k) (h' : t.ord o' = some k')
    (h1 : o ≤ x) (h2 : x < o + 2 ^ k) (h1' : o' ≤ x) (h2' : x < o' + 2 ^ k') : o = o' := by
  rcases Nat.lt_trichotomy o o' with hlt | heq | hgt
  · have := t.apart o k o' k' h h' hlt
    omega
  · exact heq
  · have := t.apart o' k' o k h' h hgt
    omega

/-! ## Operations -/

/-- the tiling of no cells -/
def empty (K : ℕ) : Tiling K 0 where
  ord := fun _ => none
  le_max := by simp
  aligned := by simp
  inside := by simp
  apart := by simp
  cover := by simp

/-- append a block of order k behind the last cell -/
def snoc (t : Tiling K n) (k : ℕ) (hk : k ≤ K) (hn : 2 ^ k ∣ n) : Tiling K (n + 2 ^ k) where
  ord := fun x => if x = n then some k else t.ord x
  le_max := by
    intro o j h
    split_ifs at h with ho
    · cases h; exact hk
    · exact t.le_max o j h
  aligned := by
    intro o j h
    split_ifs at h with ho
    · cases h; exact ho ▸ hn
    · exact t.aligned o j h
  inside := by
    intro o j h
    split_ifs at h with ho
    · cases h; exact ho ▸ le_rfl
    · exact (t.inside o j h).trans (Nat.le_add_right _ _)
  apart := by
    intro o j o' j' h h' hlt
    split_ifs at h with ho
    · subst ho
      split_ifs at h' with ho'
      · omega
      · have := t.lt_of_ord h'; omega
    · split_ifs at h' with ho'
      · exact ho' ▸ t.inside o j h
      · exact t.apart o j o' j' h h' hlt
  cover := by
    intro x hx
    by_cases hxn : x < n
    · obtain ⟨o, j, h, h1, h2⟩ := t.cover x hxn
      have := t.lt_of_ord h
      exact ⟨o, j, by rw [if_neg (by omega)]; exact h, h1, h2⟩
    · exact ⟨n, k, by simp, by omega, hx⟩

/-- cut a block of order k + 1 into its two halves -/
def split (t : Tiling K n) {o k : ℕ} (h : t.ord o = some (k + 1)) : Tiling K n where
  ord := fun x => if x = o ∨ x = o + 2 ^ k then some k else t.ord x
  le_max := by
    intro x j hx
    split_ifs at hx
    · cases hx; exact (Nat.le_succ _).trans (t.le_max o _ h)
    · exact t.le_max x j hx
  aligned := by
    intro x j hx
    split_ifs at hx with hc
    · cases hx
      have ho : 2 ^ k ∣ o := (pow_dvd_pow 2 (Nat.le_succ k)).trans (t.aligned o _ h)
      rcases hc with rfl | rfl
      · exact ho
      · exact Dvd.dvd.add ho dvd_rfl
    · exact t.aligned x j hx
  inside := by
    intro x j hx
    have hin := t.inside o _ h
    have := pow_succ 2 k
    split_ifs at hx with hc
    · cases hx; rcases hc with rfl | rfl <;> omega
    · exact t.inside x j hx
  apart := by
    intro x j x' j' hx hx' hlt
    have hp := pow_succ 2 k
    have hpos := Nat.two_pow_pos k
    split_ifs at hx with hc <;> split_ifs at hx' with hc'
    · cases hx; cases hx'; omega
    · cases hx
      have hox : o + 2 ^ (k + 1) ≤ x' ∨ x' ≤ o := by
        rcases Nat.lt_or_ge o x' with h1 | h1
        · exact Or.inl (t.apart o _ x' j' h hx' h1)
        · exact Or.inr h1
      omega
    · cases hx'
      rcases Nat.lt_or_ge x o with h1 | h1
      · have := t.apart x j o _ hx h h1
        omega
      · have := t.apart o _ x j h hx (by omega)
        omega
    · exact t.apart x j x' j' hx hx' hlt
  cover := by
    intro x hx
    obtain ⟨o', k', h', h1, h2⟩ := t.cover x hx
    by_cases ho : o' = o
    · subst ho
      rw [h] at h'
      cases h'
      have := pow_succ 2 k
      by_cases hx2 : x < o' + 2 ^ k
      · exact ⟨o', k, by simp, h1, hx2⟩
      · exact ⟨o' + 2 ^ k, k, by simp, by omega, by omega⟩
    · have hne : o' ≠ o + 2 ^ k := by
        rintro rfl
        have := t.apart o _ _ k' h h' (Nat.lt_add_of_pos_right (Nat.two_pow_pos k))
        have := pow_succ 2 k
        have := Nat.two_pow_pos k
        omega
      exact ⟨o', k', by simp [ho, hne, h'], h1, h2⟩

/-- cut a block into single cells -/
def shatter (t : Tiling K n) {h k : ℕ} (hh : t.ord h = some k) : Tiling K n where
  ord := fun x => if h ≤ x ∧ x < h + 2 ^ k then some 0 else t.ord x
  le_max := by
    intro x j hx
    split_ifs at hx
    · cases hx; exact Nat.zero_le K
    · exact t.le_max x j hx
  aligned := by
    intro x j hx
    split_ifs at hx
    · cases hx; exact one_dvd x
    · exact t.aligned x j hx
  inside := by
    intro x j hx
    split_ifs at hx with hc
    · cases hx
      have := t.inside h k hh
      omega
    · exact t.inside x j hx
  apart := by
    intro x j x' j' hx hx' hlt
    split_ifs at hx with hc
    · cases hx; omega
    · split_ifs at hx' with hc'
      · rcases Nat.lt_or_ge x h with h1 | h1
        · exact (t.apart x j h k hx hh h1).trans hc'.1
        · exact absurd ⟨h1, hlt.trans hc'.2⟩ hc
      · exact t.apart x j x' j' hx hx' hlt
  cover := by
    intro x hx
    by_cases hc : h ≤ x ∧ x < h + 2 ^ k
    · exact ⟨x, 0, if_pos hc, le_rfl, by omega⟩
    · obtain ⟨o', k', h', h1, h2⟩ := t.cover x hx
      refine ⟨o', k', ?_, h1, h2⟩
      rw [if_neg, h']
      rintro ⟨h3, h4⟩
      obtain rfl := t.ord_unique (x := o') h' hh le_rfl (Nat.lt_add_of_pos_right (Nat.two_pow_pos k')) h3 h4
      rw [hh] at h'
      cases h'
      exact hc ⟨h1, h2⟩

/-- join two neighbouring blocks of order k into one of order k + 1 -/
def merge (t : Tiling K n) {o k : ℕ} (h1 : t.ord o = some k) (h2 : t.ord (o + 2 ^ k) = some k)
    (hd : 2 ^ (k + 1) ∣ o) (hk : k < K) : Tiling K n where
  ord := fun x => if x = o then some (k + 1) else if x = o + 2 ^ k then none else t.ord x
  le_max := by
    intro x j hx
    split_ifs at hx
    · cases hx; exact hk
    · exact t.le_max x j hx
  aligned := by
    intro x j hx
    split_ifs at hx with hc
    · cases hx; exact hc ▸ hd
    · exact t.aligned x j hx
  inside := by
    intro x j hx
    split_ifs at hx with hc
    · cases hx
      have := t.inside _ _ h2
      have := pow_succ 2 k
      omega
    · exact t.inside x j hx
  apart := by
    intro x j x' j' hx hx' hlt
    have hp := pow_succ 2 k
    split_ifs at hx with hc <;> split_ifs at hx' with hc' hc''
    · omega
    · cases hx
      subst hc
      have := t.apart x k x' j' h1 hx' hlt
      have := t.apart _ k x' j' h2 hx' (by omega)
      omega
    · exact hc' ▸ t.apart x j o k hx h1 (hc' ▸ hlt)
    · exact t.apart x j x' j' hx hx' hlt
  cover := by
    intro x hx
    have hp := pow_succ 2 k
    obtain ⟨o', k', h', h1', h2'⟩ := t.cover x hx
    by_cases ho : o' = o
    · subst ho
      rw [h1] at h'
      cases h'
      exact ⟨o', k + 1, by simp, h1', by omega⟩
    · by_cases ho2 : o' = o + 2 ^ k
      · subst ho2
        rw [h2] at h'
        cases h'
        exact ⟨o, k + 1, by simp, by omega, by omega⟩
      · exact ⟨o', k', by simp [ho, ho2, h'], h1', h2'⟩

@[simp] theorem snoc_ord (t : Tiling K n) (k : ℕ) (hk : k ≤ K) (hn : 2 ^ k ∣ n) (x : ℕ) :
    (t.snoc k hk hn).ord x = if x = n then some k else t.ord x := rfl

@[simp] theorem split_ord (t : Tiling K n) {o k : ℕ} (h : t.ord o = some (k + 1)) (x : ℕ) :
    (t.split h).ord x = if x = o ∨ x = o + 2 ^ k then some k else t.ord x := rfl

@[simp] theorem shatter_ord (t : Tiling K n) {h k : ℕ} (hh : t.ord h = some k) (x : ℕ) :
    (t.shatter hh).ord x = if h ≤ x ∧ x < h + 2 ^ k then some 0 else t.ord x := rfl

@[simp] theorem merge_ord (t : Tiling K n) {o k : ℕ} (h1 : t.ord o = some k) (h2 : t.ord (o + 2 ^ k) = some k)
    (hd : 2 ^ (k + 1) ∣ o) (hk : k < K) (x : ℕ) :
    (t.merge h1 h2 hd hk).ord x = if x = o then some (k + 1) else if x = o + 2 ^ k then none else t.ord x := rfl

end Tiling

/-! ## Buddies -/

/-- the other half of the block of order k + 1 that contains the aligned block [o, o + 2^k) -/
def buddy (o k : ℕ) : ℕ := if 2 ^ (k + 1) ∣ o then o + 2 ^ k else o - 2 ^ k

/-- an aligned block that is not aligned to twice its size is the right half -/
theorem right_half {o k : ℕ} (h : 2 ^ k ∣ o) (hn : ¬ 2 ^ (k + 1) ∣ o) : 2 ^ k ≤ o ∧ 2 ^ (k + 1) ∣ o - 2 ^ k := by
  obtain ⟨x, rfl⟩ := h
  have hodd : x % 2 = 1 := by
    by_contra hx
    exact hn (pow_succ 2 k ▸ Nat.mul_dvd_mul_left _ (Nat.dvd_of_mod_eq_zero (by omega)))
  obtain ⟨y, rfl⟩ : ∃ y, x = 2 * y + 1 := ⟨x / 2, by omega⟩
  refine ⟨Nat.le_mul_of_pos_right _ (by omega), y, ?_⟩
  have : 2 ^ k * (2 * y + 1) = 2 ^ (k + 1) * y + 2 ^ k := by ring
  omega

theorem not_dvd_right {o k : ℕ} (h : 2 ^ (k + 1) ∣ o) : ¬ 2 ^ (k + 1) ∣ o + 2 ^ k := by
  intro hd
  have h2 : 2 ^ (k + 1) ∣ 2 ^ k := (Nat.dvd_add_right h).1 hd
  exact absurd (Nat.le_of_dvd (Nat.two_pow_pos k) h2) (by have := pow_succ 2 k; have := Nat.two_pow_pos k; omega)

theorem buddy_left {o k : ℕ} (h : 2 ^ (k + 1) ∣ o) : buddy o k = o + 2 ^ k := if_pos h

theorem buddy_right {o k : ℕ} (h : ¬ 2 ^ (k + 1) ∣ o) : buddy o k = o - 2 ^ k := if_neg h

theorem buddy_ne {o k : ℕ} (h : 2 ^ k ∣ o) : buddy o k ≠ o := by
  have := Nat.two_pow_pos k
  unfold buddy
  split_ifs with hd
  · omega
  · have := (right_half h hd).1; omega

theorem dvd_buddy {o k : ℕ} (h : 2 ^ k ∣ o) : 2 ^ k ∣ buddy o k := by
  unfold buddy
  split_ifs
  · exact Dvd.dvd.add h dvd_rfl
  · exact Nat.dvd_sub h dvd_rfl

theorem buddy_buddy {o k : ℕ} (h : 2 ^ k ∣ o) : buddy (buddy o k) k = o := by
  by_cases hd : 2 ^ (k + 1) ∣ o
  · rw [buddy_left hd, buddy_right (not_dvd_right hd)]; omega
  · obtain ⟨h1, h2⟩ := right_half h hd
    rw [buddy_right hd, buddy_left h2]; omega

/-- the left one of two buddies and the right one -/
theorem buddy_cases {o k : ℕ} (h : 2 ^ k ∣ o) :
    (2 ^ (k + 1) ∣ o ∧ buddy o k = o + 2 ^ k) ∨
      (2 ^ (k + 1) ∣ buddy o k ∧ o = buddy o k + 2 ^ k) := by
  by_cases hd : 2 ^ (k + 1) ∣ o
  · exact Or.inl ⟨hd, buddy_left hd⟩
  · obtain ⟨h1, h2⟩ := right_half h hd
    rw [buddy_right hd]
    exact Or.inr ⟨h2, by omega⟩

namespace Tiling

/-- no block of order below k lies at the head of a range of 2^k cells whose middle cell starts no block -/
theorem le_ord_of_mid (t : Tiling K n) {b j k : ℕ} (hb : t.ord b = some j) (hd : 2 ^ k ∣ b) (hn : b + 2 ^ k ≤ n)
    (hmid : k = 0 ∨ t.ord (b + 2 ^ (k - 1)) = none) : k ≤ j := by
  by_contra hlt
  obtain ⟨k, rfl⟩ : ∃ i, k = i + 1 := ⟨k - 1, by omega⟩
  simp only [Nat.add_eq_zero_iff, one_ne_zero, and_false, Nat.add_sub_cancel, false_or] at hmid
  have hp := pow_succ 2 k
  have hpos := Nat.two_pow_pos k
  have hj : 2 ^ j ≤ 2 ^ k := Nat.pow_le_pow_right (by norm_num) (by omega)
  -- the middle cell is covered by a block that starts strictly between b and it
  obtain ⟨o', k', h', h1, h2⟩ := t.cover (b + 2 ^ k) (by omega)
  have hne : o' ≠ b + 2 ^ k := by rintro rfl; rw [hmid] at h'; cases h'
  have hbo : b < o' := by
    rcases Nat.lt_trichotomy o' b with hl | rfl | hg
    · have := t.apart o' k' b j h' hb hl; omega
    · rw [hb] at h'; cases h'; omega
    · exact hg
  have hkd : 2 ^ k ∣ b + 2 ^ k := Dvd.dvd.add ((pow_dvd_pow 2 (Nat.le_succ k)).trans hd) dvd_rfl
  rcases Nat.lt_or_ge k k' with hk | hk
  · have := add_le_of_dvd hd ((pow_dvd_pow 2 hk).trans (t.aligned o' k' h')) hbo
    omega
  · exact hne (t.start_eq h' ((pow_dvd_pow 2 hk).trans hkd) h1 h2)

/-- **The order of a buddy from one more head.** -/
theorem ord_buddy_eq (t : Tiling K n) {h k j : ℕ} (hh : t.ord h = some k) (hb : t.ord (buddy h k) = some j)
    (hn : buddy h k + 2 ^ k ≤ n) (hmid : k = 0 ∨ t.ord (buddy h k + 2 ^ (k - 1)) = none) : j = k := by
  have hal := t.aligned h k hh
  refine le_antisymm ?_ (t.le_ord_of_mid hb (dvd_buddy hal) hn hmid)
  rcases buddy_cases hal with ⟨hd, he⟩ | ⟨_, he⟩
  · by_contra hlt
    exact not_dvd_right hd (he ▸ (pow_dvd_pow 2 (by omega : k + 1 ≤ j)).trans (t.aligned _ _ hb))
  · have hlt : buddy h k < h := by have := Nat.two_pow_pos k; omega
    have := t.apart _ j h k hb hh hlt
    exact (Nat.pow_le_pow_iff_right (by norm_num)).1 (by omega : 2 ^ j ≤ 2 ^ k)

/-- no block starts in the middle of a block -/
theorem ord_mid_none (t : Tiling K n) {b k : ℕ} (hb : t.ord b = some k) : k = 0 ∨ t.ord (b + 2 ^ (k - 1)) = none := by
  rcases Nat.eq_zero_or_pos k with h0 | hpos
  · exact Or.inl h0
  · right
    cases hm : t.ord (b + 2 ^ (k - 1)) with
    | none => rfl
    | some j =>
      have h1 := Nat.two_pow_pos (k - 1)
      have := t.apart b k _ j hb hm (by omega)
      have h2 : 2 ^ (k - 1) < 2 ^ k := Nat.pow_lt_pow_right (by norm_num) (by omega)
      omega

/-! ## Coalesced tilings -/

/-- no two buddies of one order below K are both free blocks -/
def Coalesced (t : Tiling K n) (free : ℕ → Prop) : Prop :=
  ∀ o k, k < K → t.ord o = some k → free o → t.ord (buddy o k) = some k → ¬ free (buddy o k)

/-- in a coalesced tiling the block of twice the size around a block below order K leaves [0, n) -/
theorem coalesced_maximal (t : Tiling K n) (hc : t.Coalesced fun _ => True) :
    ∀ k o, t.ord o = some k → k < K → n < o / 2 ^ (k + 1) * 2 ^ (k + 1) + 2 ^ (k + 1) := by
  intro k
  induction k using Nat.strong_induction_on with
  | _ k ih =>
    intro o ho hk
    by_contra hle
    have hp := pow_succ 2 k
    have hal := t.aligned o k ho
    have hb : buddy o k + 2 ^ k ≤ n := by
      rcases buddy_cases hal with ⟨hd, he⟩ | ⟨hd, he⟩
      · rw [Nat.div_mul_cancel hd] at hle; omega
      · have := t.inside o k ho; omega
    obtain ⟨o', k', h', h1, h2⟩ := t.cover (buddy o k) (by have := Nat.two_pow_pos k; omega)
    rcases Nat.lt_trichotomy k' k with hlt | heq | hgt
    · -- a smaller block at the buddy's head would itself have room to grow
      have hs := t.start_eq h' ((pow_dvd_pow 2 hlt.le).trans (dvd_buddy hal)) h1 h2
      have hgrow := ih k' hlt o' h' (hlt.trans hk)
      have hdv : 2 ^ (k' + 1) ∣ o' := hs ▸ (pow_dvd_pow 2 hlt).trans (dvd_buddy hal)
      rw [Nat.div_mul_cancel hdv] at hgrow
      have : 2 ^ (k' + 1) ≤ 2 ^ k := Nat.pow_le_pow_right (by norm_num) hlt
      omega
    · subst heq
      have hs := t.start_eq h' (dvd_buddy hal) h1 h2
      exact hc o k' hk ho trivial (hs ▸ h') trivial
    · -- a larger block around the buddy contains o
      have hdv : 2 ^ (k + 1) ∣ o' := (pow_dvd_pow 2 hgt).trans (t.aligned o' k' h')
      have hpow : 2 ^ (k + 1) ≤ 2 ^ k' := Nat.pow_le_pow_right (by norm_num) hgt
      have hend : 2 ^ (k + 1) ∣ o' + 2 ^ k' := Dvd.dvd.add hdv (pow_dvd_pow 2 hgt)
      have hoo : o' ≤ o ∧ o < o' + 2 ^ k' := by
        rcases buddy_cases hal with ⟨hd, he⟩ | ⟨hd, he⟩
        · refine ⟨?_, by omega⟩
          by_contra hlt
          have := add_le_of_dvd hd hdv (by omega)
          omega
        · have := add_le_of_dvd hd hend h2
          omega
      have heq := t.ord_unique ho h' le_rfl (Nat.lt_add_of_pos_right (Nat.two_pow_pos k)) hoo.1 hoo.2
      rw [heq, h'] at ho
      cases ho
      omega

theorem coalesced_ord_le (t t' : Tiling K n) (hc : t.Coalesced fun _ => True) (hc' : t'.Coalesced fun _ => True)
    {o k : ℕ} (h : t.ord o = some k) : t'.ord o = some k := by
  obtain ⟨o', k', h', h1, h2⟩ := t'.cover o (t.lt_of_ord h)
  rcases Nat.lt_trichotomy k' k with hlt | heq | hgt
  · -- the block of t' at o could grow inside the block of t
    have hs := t'.start_eq h' ((pow_dvd_pow 2 hlt.le).trans (t.aligned o k h)) h1 h2
    have hgrow := coalesced_maximal t' hc' k' o' h' (hlt.trans_le (t.le_max o k h))
    rw [Nat.div_mul_cancel (hs ▸ (pow_dvd_pow 2 hlt).trans (t.aligned o k h))] at hgrow
    have := t.inside o k h
    have : 2 ^ (k' + 1) ≤ 2 ^ k := Nat.pow_le_pow_right (by norm_num) hlt
    omega
  · subst heq
    have hs := t'.start_eq h' (t.aligned o k' h) h1 h2
    exact hs ▸ h'
  · -- the block of t at o could grow inside the block of t'
    have hgrow := coalesced_maximal t hc k o h (hgt.trans_le (t'.le_max o' k' h'))
    have hin := t'.inside o' k' h'
    have hend : 2 ^ (k + 1) ∣ o' + 2 ^ k' :=
      Dvd.dvd.add ((pow_dvd_pow 2 hgt).trans (t'.aligned o' k' h')) (pow_dvd_pow 2 hgt)
    have hlt : o / 2 ^ (k + 1) * 2 ^ (k + 1) < o' + 2 ^ k' := (Nat.div_mul_le_self o _).trans_lt h2
    have := add_le_of_dvd (Dvd.intro_left _ rfl) hend hlt
    omega

/-- **A coalesced tiling is unique.** -/
theorem coalesced_unique (t t' : Tiling K n) (hc : t.Coalesced fun _ => True) (hc' : t'.Coalesced fun _ => True) :
    t.ord = t'.ord := by
  funext o
  cases h : t.ord o with
  | some k => exact (coalesced_ord_le t t' hc hc' h).symm
  | none =>
    cases h' : t'.ord o with
    | none => rfl
    | some k => rw [coalesced_ord_le t' t hc' hc h'] at h; cases h

/-- two blocks of which one reaches into the other are nested -/
theorem block_inside (t : Tiling K n) {o k a m : ℕ} (h : t.ord o = some k) (ha : 2 ^ m ∣ a) (hkm : k ≤ m)
    (h1 : a < o + 2 ^ k) (h2 : o < a + 2 ^ m) : a ≤ o ∧ o + 2 ^ k ≤ a + 2 ^ m := by
  have hal := t.aligned o k h
  have hak : 2 ^ k ∣ a := (pow_dvd_pow 2 hkm).trans ha
  have hle : a ≤ o := by
    by_contra hlt
    have := add_le_of_dvd hal hak (by omega)
    omega
  exact ⟨hle, add_le_of_dvd hal (Dvd.dvd.add hak (pow_dvd_pow 2 hkm)) h2⟩

/-- in a coalesced tiling an aligned stretch of free blocks has no block smaller than itself -/
theorem coalesced_fill (t : Tiling K n) {free : ℕ → Prop} (hc : t.Coalesced free) {a m : ℕ} (ha : 2 ^ m ∣ a)
    (hin : a + 2 ^ m ≤ n) (hm : m ≤ K) (hfree : ∀ o k, t.ord o = some k → a < o + 2 ^ k → o < a + 2 ^ m → free o) :
    ∀ k o, t.ord o = some k → a < o + 2 ^ k → o < a + 2 ^ m → m ≤ k := by
  intro k
  induction k using Nat.strong_induction_on with
  | _ k ih =>
    intro o ho h1 h2
    by_contra hlt
    have hp := pow_succ 2 k
    have hal := t.aligned o k ho
    have hpos := Nat.two_pow_pos k
    obtain ⟨hlo, hhi⟩ := t.block_inside ho ha (by omega) h1 h2
    have hgrow : 2 ^ (k + 1) ∣ a := (pow_dvd_pow 2 (by omega)).trans ha
    have hend : 2 ^ (k + 1) ∣ a + 2 ^ m := Dvd.dvd.add hgrow (pow_dvd_pow 2 (by omega))
    -- the buddy is in the stretch
    have hb : a ≤ buddy o k ∧ buddy o k + 2 ^ k ≤ a + 2 ^ m := by
      rcases buddy_cases hal with ⟨hd, he⟩ | ⟨hd, he⟩
      · have := add_le_of_dvd hd hend h2
        omega
      · refine ⟨?_, by omega⟩
        by_contra hlt'
        have := add_le_of_dvd hd hgrow (by omega)
        omega
    obtain ⟨o', k', h', h1', h2'⟩ := t.cover (buddy o k) (by omega)
    rcases Nat.lt_trichotomy k' k with hlt' | rfl | hgt
    · exact absurd (ih k' hlt' o' h' (by omega) (by omega)) (by omega)
    · obtain rfl := t.start_eq h' (dvd_buddy hal) h1' h2'
      exact hc o k' (by omega) ho (hfree o k' ho h1 h2) h' (hfree _ k' h' (by omega) (by omega))
    · -- a larger block around the buddy contains o
      have hdv : 2 ^ (k + 1) ∣ o' := (pow_dvd_pow 2 hgt).trans (t.aligned o' k' h')
      have hdve : 2 ^ (k + 1) ∣ o' + 2 ^ k' := Dvd.dvd.add hdv (pow_dvd_pow 2 hgt)
      have hoo : o' ≤ o ∧ o < o' + 2 ^ k' := by
        rcases buddy_cases hal with ⟨hd, he⟩ | ⟨hd, he⟩
        · refine ⟨?_, by omega⟩
          by_contra hlt'
          have := add_le_of_dvd hd hdv (by omega)
          omega
        · have := add_le_of_dvd hd hdve h2'
          omega
      obtain rfl := t.ord_unique ho h' le_rfl (by omega) hoo.1 hoo.2
      rw [h'] at ho
      cases ho
      omega

/-- what meets a free block is free in every tiling with the same other blocks -/
theorem meets_free (t t' : Tiling K n) {free free' : ℕ → Prop}
    (hsame : ∀ o k, t'.ord o = some k ∧ ¬ free' o → t.ord o = some k ∧ ¬ free o) {o k : ℕ} (h : t.ord o = some k)
    (hf : free o)
    {o' k' : ℕ} (h' : t'.ord o' = some k') (h1 : o < o' + 2 ^ k') (h2 : o' < o + 2 ^ k) : free' o' := by
  by_contra hlive
  obtain ⟨hord, hnot⟩ := hsame o' k' ⟨h', hlive⟩
  have hk := Nat.two_pow_pos k
  have hk' := Nat.two_pow_pos k'
  obtain rfl := t.ord_unique (x := max o o') h hord (le_max_left _ _) (by omega) (le_max_right _ _) (by omega)
  exact hnot hf

/-- **The free blocks of a coalesced tiling are determined by its other blocks.** -/
theorem coalesced_free (t t' : Tiling K n) {free free' : ℕ → Prop} (hc : t.Coalesced free) (hc' : t'.Coalesced free')
    (hsame : ∀ o k, t.ord o = some k ∧ ¬ free o ↔ t'.ord o = some k ∧ ¬ free' o) {o k : ℕ} (h : t.ord o = some k)
    (hf : free o) :
    t'.ord o = some k ∧ free' o := by
  have hpos := Nat.two_pow_pos k
  obtain ⟨o', k', h', h1, h2⟩ := t'.cover o (t.lt_of_ord h)
  have hf' := meets_free t t' (fun o k => (hsame o k).2) h hf h' h2 (by omega)
  rcases Nat.lt_or_ge k' k with hlt | hge
  · -- the block of t' at o would fill the block of t
    have hfill := t'.coalesced_fill hc' (t.aligned o k h) (t.inside o k h) (t.le_max o k h)
      (fun o2 k2 h2 m1 m2 => meets_free t t' (fun o k => (hsame o k).2) h hf h2 m1 m2) k' o' h' h2 (by omega)
    omega
  · have hfill := t.coalesced_fill hc (t'.aligned o' k' h') (t'.inside o' k' h') (t'.le_max o' k' h')
      (fun o2 k2 h2 m1 m2 => meets_free t' t (fun o k => (hsame o k).1) h' hf' h2 m1 m2) k o h (by omega) h2
    obtain rfl := le_antisymm hfill hge
    obtain rfl := t'.start_eq h' (t.aligned o k' h) h1 h2
    exact ⟨h', hf'⟩

end Tiling

end SinsOs.Dyadic
