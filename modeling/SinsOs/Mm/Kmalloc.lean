/-
kmalloc and kfree (kernel/mm/kmalloc.c) on top of get_free_pages and free_pages (kernel/mm/page_alloc.c).

A slab page starts with a page_head_t of 28 bytes; behind it lie the objects, each an obj_head_t of 8 bytes followed by
2^(index + 4) bytes for the caller. The used and free lists of a page hold the addresses of its obj_heads, page_list[k]
the addresses of the slab pages of class k. `none` is a BUG_ON that fires.

- `kmallocIndex_fits`: the class that kmalloc_index picks is large enough exactly when the size is no multiple of 16 or is
  a power of two.
- `mem_carve`: the objects init_page carves out of a page.
-/
import SinsOs.Mm.BuddyRun

namespace SinsOs.Kmalloc

open SinsOs.Bits SinsOs.Mm SinsOs.PageAlloc SinsOs.BuddyRun

variable (L : Layout)

/-! ## get_free_pages and free_pages -/

def gfpDma : Word := 0x1#32
def gfpNormal : Word := 0x2#32

/-- the code works on `s.mm`; `s.live` records what it hands out -/
def getFreePages (s : Sys) (gfpMask : Word) (order : ℕ) : Option (Option Word × Sys) :=
  let page :=
    if gfpMask &&& gfpNormal ≠ 0#32 then (allocPages L s.mm zoneNormal order).map fun r => (r.1, s.took order r)
    else if gfpMask &&& gfpDma ≠ 0#32 then (allocPages L s.mm zoneDma order).map fun r => (r.1, s.took order r)
    else some (none, s)
  page.bind fun r =>
    match r.1 with
    | some page => (L.pageToVirt page).map fun addr => (some addr, r.2)
    | none => some (none, r.2)

/-- an address of no page is a NULL page, which dealloc_pages dereferences -/
def freePages (s : Sys) (addr : Word) (order : ℕ) : Option Sys :=
  match L.virtToPage addr with
  | none => none
  | some page => step L s (.dealloc page order)

/-! ## Slab pages -/

def kmallocMaxOrder : ℕ := 5
def kmallocShift : ℕ := 4
def kmallocMask : Word := (1#32 <<< kmallocShift) - 1#32

structure PageHead where
  index : ℕ
  usedList : List Word
  freeList : List Word
deriving DecidableEq, Repr

def sizeofPageHead : ℕ := 28
def sizeofObjHead : ℕ := 8

structure Slab where
  pageList : ℕ → List Word
  /-- the page_head_t at the address of a page -/
  head : Word → PageHead

namespace Slab

variable (b : Slab)

def setHead (page : Word) (h : PageHead) : Slab := { b with head := fun a => if a = page then h else b.head a }

/-- list_add to page_list[k] -/
def listAdd (page : Word) (k : ℕ) : Slab :=
  { b with pageList := fun j => if j = k then page :: b.pageList j else b.pageList j }

/-- list_del of page_head->page_list -/
def listDel (page : Word) : Slab := { b with pageList := fun j => (b.pageList j).erase page }

/-- list_move of page_head->page_list to page_list[page_head->index] -/
def listMove (page : Word) : Slab := (b.listDel page).listAdd page (b.head page).index

end Slab

/-- the while loop of init_page -/
def carveLoop (page : Word) (objSize offset : ℕ) (freeList : List Word) : List Word :=
  if offset + sizeofObjHead + objSize ≤ 4096 then
    carveLoop page objSize (offset + (sizeofObjHead + objSize)) ((page + BitVec.ofNat 32 offset) :: freeList)
  else freeList
termination_by 4096 - offset
decreasing_by simp only [sizeofObjHead] at *; omega

def initPage (page : Word) (order : ℕ) : PageHead :=
  ⟨order, [], carveLoop page (2 ^ (order + kmallocShift)) sizeofPageHead []⟩

/-! ## kmalloc and kfree -/

def indexLoop (size : ℕ) (index : ℤ) : ℤ :=
  if size = 0 then index else indexLoop (size >>> 1) (index + 1)
termination_by size
decreasing_by rw [Nat.shiftRight_eq_div_pow]; omega

def kmallocIndex (size : Word) : ℤ :=
  let index := indexLoop (size >>> kmallocShift).toNat (if size &&& kmallocMask ≠ 0#32 then 0 else -1)
  if index > kmallocMaxOrder then -1 else index

def kmallocInit (b : Slab) : Slab := { b with pageList := fun _ => [] }

/-- the first page of the class, if there is one and it has a free object -/
def pageWithFree (b : Slab) (k : ℕ) : Option Word :=
  match b.pageList k with
  | [] => none
  | page :: _ => if (b.head page).freeList = [] then none else some page

/-- fetch the first free object of a page -/
def fetchObj (b : Slab) (page : Word) : Option (Word × Slab) :=
  let h := b.head page
  match h.freeList with
  | [] => none
  | fetch :: rest =>
    let b := b.setHead page ⟨h.index, fetch :: h.usedList, rest⟩
    some (fetch + BitVec.ofNat 32 sizeofObjHead, if rest = [] then b.listMove page else b)

def kmalloc (s : Sys) (b : Slab) (size : Word) : Option (Option Word × Sys × Slab) :=
  let index := kmallocIndex size
  if index = -1 then none
  else match pageWithFree b index.toNat with
    | some page => (fetchObj b page).map fun r => (some r.1, s, r.2)
    | none => (getFreePages L s (gfpNormal ||| gfpDma) 0).bind fun r =>
      match r.1 with
      | none => some (none, r.2, b)
      | some page =>
        let b := (b.setHead page (initPage page index.toNat)).listAdd page index.toNat
        (fetchObj b page).map fun q => (some q.1, r.2, q.2)

def kfree (s : Sys) (b : Slab) (addr : Word) : Option (Sys × Slab) :=
  if addr = 0#32 then some (s, b)
  else
    let page := pageFloor addr
    let obj := addr - BitVec.ofNat 32 sizeofObjHead
    let h := b.head page
    let usedList := h.usedList.erase obj
    let b := b.setHead page ⟨h.index, usedList, obj :: h.freeList.erase obj⟩
    if usedList = [] then (freePages L s page 0).map fun s => (s, b.listDel page)
    else some (s, b.listMove page)

/-! ## Size classes -/

theorem indexLoop_eq (size : ℕ) (index : ℤ) :
    indexLoop size index = if size = 0 then index else index + 1 + Nat.log2 size := by
  induction size using Nat.strong_induction_on generalizing index with
  | _ size ih =>
    rw [indexLoop, Nat.shiftRight_eq_div_pow, pow_one]
    by_cases h0 : size = 0
    · rw [if_pos h0, if_pos h0]
    · rw [if_neg h0, if_neg h0, ih _ (by omega), Nat.log2_def size]
      by_cases h1 : size / 2 = 0
      · rw [if_pos h1, if_neg (by omega)]; simp
      · rw [if_neg h1, if_pos (by omega)]; push_cast; ring

theorem kmallocMask_toNat (size : Word) : (size &&& kmallocMask).toNat = size.toNat % 16 := by
  have : kmallocMask = lowMask 4 := by decide
  rw [this, low_toNat (by norm_num)]
  norm_num

/-- the size is no multiple of 16 or is a power of two -/
def RoundsUp (size : Word) : Prop := ¬ 16 ∣ size.toNat ∨ ∃ k, size.toNat = 2 ^ k

/-- the index of a size that kmalloc accepts, by the size's quotient and remainder -/
theorem kmallocIndex_cases {size : Word} (h : kmallocIndex size ≠ -1) :
    ∃ k ≤ kmallocMaxOrder, kmallocIndex size = k ∧
      ((size.toNat / 16 = 0 ∧ size.toNat % 16 ≠ 0 ∧ k = 0) ∨
        (size.toNat / 16 ≠ 0 ∧ size.toNat % 16 ≠ 0 ∧ k = Nat.log2 (size.toNat / 16) + 1) ∨
        (size.toNat / 16 ≠ 0 ∧ size.toNat % 16 = 0 ∧ k = Nat.log2 (size.toNat / 16))) := by
  have hshift : (size >>> kmallocShift).toNat = size.toNat / 16 := by
    rw [BitVec.toNat_ushiftRight, Nat.shiftRight_eq_div_pow]; rfl
  have hmask : size &&& kmallocMask ≠ 0#32 ↔ size.toNat % 16 ≠ 0 := by
    rw [← kmallocMask_toNat, ne_eq, ne_eq, ← BitVec.toNat_inj]; rfl
  have hmax : ((kmallocMaxOrder : ℕ) : ℤ) = 5 := rfl
  simp only [kmallocIndex, hshift, hmask, indexLoop_eq, hmax] at h ⊢
  by_cases hq : size.toNat / 16 = 0 <;> by_cases hr : size.toNat % 16 = 0
  · rw [if_pos hq, if_neg (not_not.2 hr)] at h
    exact absurd rfl h
  · refine ⟨0, by decide, ?_, Or.inl ⟨hq, hr, rfl⟩⟩
    rw [if_pos hq, if_pos hr]; rfl
  · rw [if_neg hq, if_neg (not_not.2 hr)] at h ⊢
    by_cases hle : (-1 + 1 + Nat.log2 (size.toNat / 16) : ℤ) > 5
    · rw [if_pos hle] at h; exact absurd rfl h
    · rw [if_neg hle]
      exact ⟨Nat.log2 (size.toNat / 16), by simp only [kmallocMaxOrder]; omega, by ring, Or.inr (Or.inr ⟨hq, hr, rfl⟩)⟩
  · rw [if_neg hq, if_pos hr] at h ⊢
    by_cases hle : (0 + 1 + Nat.log2 (size.toNat / 16) : ℤ) > 5
    · rw [if_pos hle] at h; exact absurd rfl h
    · rw [if_neg hle]
      exact ⟨Nat.log2 (size.toNat / 16) + 1, by simp only [kmallocMaxOrder]; omega, by push_cast; ring,
        Or.inr (Or.inl ⟨hq, hr, rfl⟩)⟩

/-- **The class is large enough exactly for the sizes that `RoundsUp` describes.** -/
theorem kmallocIndex_fits {size : Word} (h : kmallocIndex size ≠ -1) :
    ∃ k ≤ kmallocMaxOrder, kmallocIndex size = k ∧ (size.toNat ≤ 2 ^ (k + kmallocShift) ↔ RoundsUp size) := by
  obtain ⟨k, hk, he, hcase⟩ := kmallocIndex_cases h
  refine ⟨k, hk, he, ?_⟩
  have hdm := Nat.div_add_mod size.toNat 16
  have hmod := Nat.mod_lt size.toNat (by norm_num : 0 < 16)
  have h16 : 2 ^ (k + kmallocShift) = 16 * 2 ^ k := by rw [kmallocShift, pow_add]; ring
  rw [h16, RoundsUp, Nat.dvd_iff_mod_eq_zero]
  rcases hcase with ⟨hq, hr, rfl⟩ | ⟨hq, hr, rfl⟩ | ⟨hq, hr, rfl⟩
  · exact ⟨fun _ => Or.inl hr, fun _ => by omega⟩
  · have hlt := Nat.lt_log2_self (n := size.toNat / 16)
    exact ⟨fun _ => Or.inl hr, fun _ => by omega⟩
  · have hle := Nat.log2_self_le hq
    constructor
    · intro hfit
      exact Or.inr ⟨Nat.log2 (size.toNat / 16) + 4, by rw [pow_add]; omega⟩
    · rintro (hc | ⟨j, hj⟩)
      · exact absurd hr hc
      · have h4 : 4 ≤ j := by
          by_contra hlt
          have : 2 ^ j < 2 ^ 4 := Nat.pow_lt_pow_right (by norm_num) (by omega)
          omega
        obtain ⟨i, rfl⟩ : ∃ i, j = i + 4 := ⟨j - 4, by omega⟩
        have hdiv : size.toNat / 16 = 2 ^ i := by rw [hj, pow_add]; omega
        rw [hdiv, Nat.log2_two_pow, hj, pow_add]
        omega

/-! ## The objects of a page -/

/-- an obj_head that init_page puts into a page of class k -/
def Slot (page : Word) (k : ℕ) (o : Word) : Prop :=
  ∃ i, o = page + BitVec.ofNat 32 (sizeofPageHead + i * (sizeofObjHead + 2 ^ (k + kmallocShift))) ∧
    sizeofPageHead + i * (sizeofObjHead + 2 ^ (k + kmallocShift)) + sizeofObjHead + 2 ^ (k + kmallocShift) ≤ 4096

theorem mem_carveLoop (page : Word) (objSize offset : ℕ) (freeList : List Word) (o : Word) :
    o ∈ carveLoop page objSize offset freeList ↔ o ∈ freeList ∨
      ∃ i, o = page + BitVec.ofNat 32 (offset + i * (sizeofObjHead + objSize)) ∧
        offset + i * (sizeofObjHead + objSize) + sizeofObjHead + objSize ≤ 4096 := by
  induction offset, freeList using carveLoop.induct page objSize with
  | case1 offset freeList hc ih =>
    rw [carveLoop, if_pos hc, ih, List.mem_cons]
    constructor
    · rintro ((rfl | h) | ⟨i, rfl, hi⟩)
      · exact Or.inr ⟨0, by simp, by simpa using hc⟩
      · exact Or.inl h
      · refine Or.inr ⟨i + 1, ?_, ?_⟩ <;> rw [Nat.add_mul, Nat.one_mul]
        · congr 2; omega
        · omega
    · rintro (h | ⟨i, rfl, hi⟩)
      · exact Or.inl (Or.inr h)
      · cases i with
        | zero => exact Or.inl (Or.inl (by simp))
        | succ i =>
          rw [Nat.add_mul, Nat.one_mul] at hi ⊢
          exact Or.inr ⟨i, by congr 2; omega, by omega⟩
  | case2 offset freeList hc =>
    rw [carveLoop, if_neg hc]
    constructor
    · exact Or.inl
    · rintro (h | ⟨i, -, hi⟩)
      · exact h
      · exact absurd (by omega) hc

theorem Slot.toNat {page o : Word} {k : ℕ} (hw : page.toNat + 4096 ≤ 2 ^ 32) (h : Slot page k o) :
    ∃ i, o.toNat = page.toNat + (sizeofPageHead + i * (sizeofObjHead + 2 ^ (k + kmallocShift))) ∧
      sizeofPageHead + i * (sizeofObjHead + 2 ^ (k + kmallocShift)) + sizeofObjHead + 2 ^ (k + kmallocShift) ≤ 4096 := by
  obtain ⟨i, rfl, hi⟩ := h
  have hpos := Nat.two_pow_pos (k + kmallocShift)
  refine ⟨i, ?_, hi⟩
  rw [BitVec.toNat_add, BitVec.toNat_ofNat, Nat.mod_eq_of_lt (b := 2 ^ 32) (by omega), Nat.mod_eq_of_lt (by omega)]

/-- two objects of one page do not overlap, heads included -/
theorem Slot.apart {page o o' : Word} {k : ℕ} (hw : page.toNat + 4096 ≤ 2 ^ 32) (h : Slot page k o) (h' : Slot page k o')
    (hne : o ≠ o') : o.toNat + (sizeofObjHead + 2 ^ (k + kmallocShift)) ≤ o'.toNat ∨
      o'.toNat + (sizeofObjHead + 2 ^ (k + kmallocShift)) ≤ o.toNat := by
  obtain ⟨i, hi, -⟩ := h.toNat hw
  obtain ⟨j, hj, -⟩ := h'.toNat hw
  rcases Nat.lt_trichotomy i j with hlt | rfl | hlt
  · have := Nat.mul_le_mul_right (sizeofObjHead + 2 ^ (k + kmallocShift)) (Nat.succ_le_of_lt hlt)
    rw [Nat.succ_mul] at this
    omega
  · exact absurd (BitVec.eq_of_toNat_eq (hi.trans hj.symm)) hne
  · have := Nat.mul_le_mul_right (sizeofObjHead + 2 ^ (k + kmallocShift)) (Nat.succ_le_of_lt hlt)
    rw [Nat.succ_mul] at this
    omega

theorem mem_initPage {page o : Word} {k : ℕ} : o ∈ (initPage page k).freeList ↔ Slot page k o := by
  simp only [initPage, mem_carveLoop, List.not_mem_nil, false_or, Slot]

theorem carveLoop_nodup (page : Word) (objSize offset : ℕ) (freeList : List Word) (hnd : freeList.Nodup)
    (hlt : ∀ o ∈ freeList, ∃ j < offset, o = page + BitVec.ofNat 32 j) (ho : offset ≤ 4096) :
    (carveLoop page objSize offset freeList).Nodup := by
  induction offset, freeList using carveLoop.induct page objSize with
  | case1 offset freeList hc ih =>
    rw [carveLoop, if_pos hc]
    apply ih
    · refine List.nodup_cons.2 ⟨fun hmem => ?_, hnd⟩
      obtain ⟨j, hj, he⟩ := hlt _ hmem
      have he' := congrArg BitVec.toNat ((BitVec.add_right_inj page).1 he)
      rw [BitVec.toNat_ofNat, BitVec.toNat_ofNat, Nat.mod_eq_of_lt (by omega), Nat.mod_eq_of_lt (by omega)] at he'
      omega
    · intro o hmem
      rcases List.mem_cons.1 hmem with rfl | hin
      · exact ⟨offset, by simp only [sizeofObjHead]; omega, rfl⟩
      · obtain ⟨j, hj, he⟩ := hlt o hin
        exact ⟨j, by omega, he⟩
    · omega
  | case2 offset freeList hc =>
    rw [carveLoop, if_neg hc]
    exact hnd

theorem initPage_nodup (page : Word) (k : ℕ) : (initPage page k).freeList.Nodup :=
  carveLoop_nodup page _ _ [] List.nodup_nil (by simp) (by decide)

/-- init_page carves at least one object, whatever the class -/
theorem initPage_free (page : Word) {k : ℕ} (hk : k ≤ kmallocMaxOrder) : (initPage page k).freeList ≠ [] := by
  apply List.ne_nil_of_mem (a := page + BitVec.ofNat 32 sizeofPageHead)
  have hpow : 2 ^ (k + kmallocShift) ≤ 2 ^ 9 := Nat.pow_le_pow_right (by norm_num) (by
    simp only [kmallocShift, kmallocMaxOrder] at *; omega)
  exact mem_initPage.2 ⟨0, by simp, by simp only [sizeofPageHead, sizeofObjHead]; omega⟩

end SinsOs.Kmalloc
