/-
alloc_region and dealloc_region (kernel/mm/page_alloc.c): boot takes the pages of the kernel out of the free lists with them.

alloc_region takes every free block that meets [base, end), cuts it into single pages that are in use, and gives back the pages
in front of base and behind end one by one. `none` is a BUG_ON that fires, or a NULL page that dealloc_pages dereferences.

- `region_taken_iff`: if all pages of the range are free, alloc_region takes exactly these and keeps the blocks in order,
  exactly when the free block with the last page of the range ends below the end of the zone.
- `region_at_end`: the last page of a zone.
-/
import SinsOs.Mm.FreePages

namespace SinsOs.Region

open SinsOs.Core SinsOs.Bits SinsOs.Mm SinsOs.Dyadic SinsOs.PageAlloc SinsOs.BuddyRun SinsOs.Kmalloc

variable (L : Layout)

/-! ## Model -/

/-- the body of the loop of split_to -/
def splitBody (mmap toOrder : ℕ) (m : St) (j : ℕ) : St :=
  let i := mmap + j * 2 ^ toOrder
  let m := if m.mmapTestPrivate mmap then m.mmapSetPrivate i else m
  if m.mmapTestUsed mmap then m.mmapSetUsed i else m

def splitTo (m : St) (mmap fromOrder toOrder : ℕ) : Option St :=
  if fromOrder < toOrder then none else some ((List.range (2 ^ (fromOrder - toOrder))).foldl (splitBody mmap toOrder) m)

/-- the allocator, phys_addr_min and phys_addr_end_max -/
structure Cut where
  mm : St
  physAddrMin : Word
  physAddrEndMax : Word

/-- the body of the list loop of alloc_region -/
def cutBlock (z : ℕ) (base endAddr : Word) (i : ℕ) (c : Cut) (page : ℕ) : Option Cut :=
  (L.pageToPhys page).bind fun physAddr =>
    let physAddrEnd := physAddr + pageSize <<< i
    if (physAddr ≤ base ∧ base < physAddrEnd) ∨ (base < physAddr ∧ physAddr < endAddr) then
      (splitTo ((removeFromFreeArea c.mm z page i).mmapSetUsed page) page i 0).map fun m =>
        ⟨m, if physAddr < c.physAddrMin then physAddr else c.physAddrMin,
          if c.physAddrEndMax < physAddrEnd then physAddrEnd else c.physAddrEndMax⟩
    else some c

/-- the loop over one free list, which only loses the blocks that it has passed -/
def cutList (z : ℕ) (base endAddr : Word) (c : Cut) (i : ℕ) : Option Cut :=
  (c.mm.freeArea z i).list.foldlM (cutBlock L z base endAddr i) c

/-- the loop of dealloc_region, with the number of pages that are left -/
def deallocLoop (m : St) (addr : Word) : ℕ → Option St
  | 0 => some m
  | n + 1 => (L.physToPage addr).bind fun page => (deallocPages L m page 0).bind fun m => deallocLoop m (addr + pageSize) n

def deallocRegion (m : St) (base endAddr : Word) : Option St :=
  if base % pageSize ≠ 0#32 then none
  else if endAddr % pageSize ≠ 0#32 then none
  else if endAddr < base then none
  else match L.physToZone base with
    | none => none
    | some z => if some z ≠ L.physToZone endAddr then none else deallocLoop L m base ((endAddr - base) / pageSize).toNat

def allocRegion (m : St) (base endAddr : Word) : Option St :=
  if base % pageSize ≠ 0#32 then none
  else if endAddr % pageSize ≠ 0#32 then none
  else if endAddr < base then none
  else match L.physToZone base with
    | none => none
    | some z =>
      if some z ≠ L.physToZone endAddr then none
      else ((List.range (maxOrder + 1)).foldlM (cutList L z base endAddr) ⟨m, BitVec.allOnes 32, 0#32⟩).bind fun c =>
        (deallocRegion L c.mm c.physAddrMin base).bind fun m => deallocRegion L m endAddr c.physAddrEndMax

variable {L} {m m' : St} {z h k : ℕ} {t : Tiling maxOrder (L.pages z)}

/-! ## Addresses -/

/-- the address of a page, or of the end of the zone -/
theorem addr_toNat (hz : z ∈ L.all) {o : ℕ} (ho : o ≤ L.pages z) :
    (L.physAddr z o).toNat = (L.zone z).baseAddr.toNat + o * 4096 := by
  obtain ⟨ty, hty⟩ := L.mem_all.1 hz
  have hw := L.no_wrap ty z hty
  rw [L.pages_eq hty] at ho
  have hp : pageSize.toNat = 4096 := by decide
  rw [Layout.physAddr, BitVec.toNat_add, BitVec.toNat_mul, BitVec.toNat_ofNat, hp, Nat.mod_eq_of_lt (a := o) (by omega),
    Nat.mod_eq_of_lt (a := o * 4096) (by omega), Nat.mod_eq_of_lt (by omega)]

theorem addr_dvd (hz : z ∈ L.all) {o : ℕ} (ho : o ≤ L.pages z) : L.physAddr z o % pageSize = 0#32 := by
  obtain ⟨ty, hty⟩ := L.mem_all.1 hz
  have hbd := L.base_dvd ty z hty
  have hp : pageSize.toNat = 4096 := by decide
  apply BitVec.eq_of_toNat_eq
  rw [BitVec.toNat_umod, addr_toNat hz ho, hp]
  exact Nat.mod_eq_zero_of_dvd (Dvd.dvd.add hbd (Dvd.intro_left _ rfl))

theorem addr_le (hz : z ∈ L.all) {o o' : ℕ} (ho : o ≤ L.pages z) (ho' : o' ≤ L.pages z) :
    L.physAddr z o ≤ L.physAddr z o' ↔ o ≤ o' := by
  rw [BitVec.le_def, addr_toNat hz ho, addr_toNat hz ho']
  omega

theorem addr_lt (hz : z ∈ L.all) {o o' : ℕ} (ho : o ≤ L.pages z) (ho' : o' ≤ L.pages z) :
    L.physAddr z o < L.physAddr z o' ↔ o < o' := by
  rw [BitVec.lt_def, addr_toNat hz ho, addr_toNat hz ho']
  omega

theorem addr_add (hz : z ∈ L.all) {o : ℕ} (ho : o + 2 ^ k ≤ L.pages z) (hk : k ≤ maxOrder) :
    L.physAddr z o + pageSize <<< k = L.physAddr z (o + 2 ^ k) := by
  have hw : (L.physAddr z (o + 2 ^ k)).toNat < 2 ^ 32 := BitVec.isLt _
  have hsize : (pageSize <<< k).toNat = 4096 * 2 ^ k := by
    have hp : pageSize.toNat = 4096 := by decide
    have hle : 2 ^ k ≤ 2 ^ maxOrder := Nat.pow_le_pow_right (by norm_num) hk
    rw [BitVec.toNat_shiftLeft, hp, Nat.shiftLeft_eq]
    simp only [maxOrder] at hle
    exact Nat.mod_eq_of_lt (by omega)
  apply BitVec.eq_of_toNat_eq
  rw [addr_toNat hz ho] at hw
  rw [BitVec.toNat_add, hsize, addr_toNat hz (o := o) (by omega), addr_toNat hz ho, Nat.mod_eq_of_lt (by omega)]
  ring

theorem addr_zone (hz : z ∈ L.all) {o : ℕ} (ho : o < L.pages z) : L.physToZone (L.physAddr z o) = some z := by
  obtain ⟨ty, hty⟩ := L.mem_all.1 hz
  refine L.physToZone_eq hty ?_
  rw [L.pageFloor_physAddr hty ho]
  exact L.holds_physAddr hty ho

/-- the end of a zone is not in it -/
theorem end_zone (hz : z ∈ L.all) : L.physToZone (L.physAddr z (L.pages z)) ≠ some z := by
  intro he
  obtain ⟨ty, hty⟩ := L.mem_all.1 hz
  have hin := List.find?_some he
  have hw := L.no_wrap ty z hty
  have hsd := L.size_dvd ty z hty
  have hbd := L.base_dvd ty z hty
  have hpages := L.pages_eq hty
  rw [decide_eq_true_eq, BitVec.lt_def, pageFloor_toNat, addr_toNat hz le_rfl, BitVec.toNat_add, Nat.mod_eq_of_lt hw] at hin
  omega

/-! ## Cutting a block into pages -/

/-- the loop of split_to: the flags of the head go to the pages -/
theorem split_loop (p n : ℕ) (hp : m.mmapTestPrivate p = true) (hu : m.mmapTestUsed p = true) :
    let m' := (List.range n).foldl (splitBody p 0) m
    (∀ q, m'.mmapTestPrivate q = (decide (p ≤ q ∧ q < p + n) || m.mmapTestPrivate q)) ∧
    (∀ q, m'.mmapTestUsed q = (decide (p ≤ q ∧ q < p + n) || m.mmapTestUsed q)) ∧
    m'.freeArea = m.freeArea ∧ ∀ q, ¬ (p ≤ q ∧ q < p + n) → m'.flags q = m.flags q := by
  induction n with
  | zero =>
    simp
  | succ n ih =>
    obtain ⟨h1, h2, h3, h4⟩ := ih
    intro m'
    have hm' : m' = splitBody p 0 ((List.range n).foldl (splitBody p 0) m) n := by
      show (List.range (n + 1)).foldl (splitBody p 0) m = _
      rw [List.range_succ, List.foldl_append]
      rfl
    generalize (List.range n).foldl (splitBody p 0) m = m1 at h1 h2 h3 h4 hm'
    have hp1 : m1.mmapTestPrivate p = true := by rw [h1, hp, Bool.or_true]
    have hu1 : (m1.mmapSetPrivate (p + n)).mmapTestUsed p = true := by rw [St.used_setPrivate, h2, hu, Bool.or_true]
    have hbody : m' = (m1.mmapSetPrivate (p + n)).mmapSetUsed (p + n) := by
      rw [hm', splitBody, pow_zero, Nat.mul_one, if_pos hp1, if_pos hu1]
    have hset : ∀ q, (decide (q = p + n) || decide (p ≤ q ∧ q < p + n)) = decide (p ≤ q ∧ q < p + (n + 1)) := by
      intro q
      rw [← Bool.decide_or, decide_eq_decide]
      omega
    refine ⟨fun q => ?_, fun q => ?_, ?_, fun q hq => ?_⟩
    · rw [hbody, St.private_setUsed, St.private_setPrivate, h1, ← Bool.or_assoc, hset]
    · rw [hbody, St.used_setUsed, St.used_setPrivate, h2, ← Bool.or_assoc, hset]
    · rw [hbody]
      exact h3
    · have hne : q ≠ p + n := by omega
      rw [hbody]
      simp only [St.mmapSetUsed, St.mmapSetPrivate, St.setFlags, if_neg hne]
      exact h4 q (by omega)

/-- a free block becomes single pages in use -/
theorem shatter_rep (hr : Rep L m z t none) (hh : t.ord h = some k) (hu : m.mmapTestUsed (L.base z + h) = false) :
    ∃ m', splitTo ((removeFromFreeArea m z (L.base z + h) k).mmapSetUsed (L.base z + h)) (L.base z + h) k 0 = some m' ∧
      Rep L m' z (t.shatter hh) none ∧ Frame L z m m' ∧
      ∀ o, m'.mmapTestUsed (L.base z + o) = (decide (h ≤ o ∧ o < h + 2 ^ k) || m.mmapTestUsed (L.base z + o)) := by
  have hin := t.inside h k hh
  have hpos := Nat.two_pow_pos k
  set m0 := (removeFromFreeArea m z (L.base z + h) k).mmapSetUsed (L.base z + h) with hm0
  have hpriv0 : ∀ q, m0.mmapTestPrivate q = m.mmapTestPrivate q := fun q => by
    rw [hm0, St.private_setUsed]
    rfl
  have hused0 : ∀ q, m0.mmapTestUsed q = (decide (q = L.base z + h) || m.mmapTestUsed q) := fun q => by
    rw [hm0, St.used_setUsed]
    rfl
  have hp : m0.mmapTestPrivate (L.base z + h) = true := by rw [hpriv0, hr.heads h (by omega), hh]; rfl
  have hu0 : m0.mmapTestUsed (L.base z + h) = true := by rw [hused0]; simp
  obtain ⟨h1, h2, h3, h4⟩ := split_loop (L.base z + h) (2 ^ k) hp hu0
  set m' := (List.range (2 ^ k)).foldl (splitBody (L.base z + h) 0) m0 with hm'
  have hused : ∀ o, m'.mmapTestUsed (L.base z + o) = (decide (h ≤ o ∧ o < h + 2 ^ k) || m.mmapTestUsed (L.base z + o)) := by
    intro o
    rw [h2, hused0, ← Bool.or_assoc, ← Bool.decide_or]
    congr 1
    rw [decide_eq_decide]
    omega
  have hlist : ∀ k', (m'.freeArea z k').list = (m.freeArea z k').list.erase (L.base z + h) := fun k' => by
    rw [h3]
    exact remove_list m z (L.base z + h) k k'
  -- a block that stays listed has no page of the block that is cut
  have hout : ∀ o j, t.ord o = some j → o ≠ h → ¬ (h ≤ o ∧ o < h + 2 ^ k) := fun o j ho hne ⟨hle, hlt⟩ =>
    hne (t.ord_unique ho hh le_rfl (Nat.lt_add_of_pos_right (Nat.two_pow_pos j)) hle hlt)
  have hl : ∀ o j, (t.shatter hh).ord o = some j ∧ Listed L m' z none o ↔ t.ord o = some j ∧
      Listed L m z none o ∧ o ≠ h := by
    intro o j
    simp only [Listed, hused, Tiling.shatter_ord]
    by_cases hc : h ≤ o ∧ o < h + 2 ^ k
    · simp only [hc, and_self, decide_true, Bool.true_or, Bool.true_eq_false, false_and, and_false, false_iff]
      rintro ⟨ho, -, hne⟩
      exact hout o j ho hne hc
    · have hne : o ≠ h := by rintro rfl; exact hc ⟨le_rfl, by omega⟩
      simp [hc, hne]
  refine ⟨m', ?_, ⟨fun o ho => ?_, fun o ho huo => ?_, fun k' p => ?_, fun k' => ?_, fun k' => ?_, ?_, by simp⟩,
    ⟨fun q hq => ?_, ?_⟩, hused⟩
  · rw [splitTo, if_neg (Nat.not_lt_zero k)]
    rfl
  · rw [h1, hpriv0, hr.heads o ho, Tiling.shatter_ord]
    by_cases hc : h ≤ o ∧ o < h + 2 ^ k
    · rw [if_pos hc, decide_eq_true (by omega)]
      rfl
    · rw [if_neg hc, decide_eq_false (by omega), Bool.false_or]
  · rw [hused] at huo
    rw [Tiling.shatter_ord]
    split_ifs with hc
    · rfl
    · rw [decide_eq_false hc, Bool.false_or] at huo
      exact hr.used o ho huo
  · rw [hlist, (hr.nodup k').mem_erase_iff, hr.listed k' p]
    constructor
    · rintro ⟨hne, o, rfl, ho, hlo⟩
      obtain ⟨a, b⟩ := (hl o k').2 ⟨ho, hlo, fun e => hne (by rw [e])⟩
      exact ⟨o, rfl, a, b⟩
    · rintro ⟨o, rfl, ho, hlo⟩
      obtain ⟨a, b, c⟩ := (hl o k').1 ⟨ho, hlo⟩
      exact ⟨fun e => c (Nat.add_left_cancel e), o, rfl, a, b⟩
  · rw [hlist]
    exact (hr.nodup k').erase _
  · rw [h3]
    exact hr.remove_size hh ⟨hu, by simp⟩ k'
  · intro o j hj ho hl1 hb hl2
    obtain ⟨a, b, -⟩ := (hl o j).1 ⟨ho, hl1⟩
    obtain ⟨a', b', -⟩ := (hl _ j).1 ⟨hb, hl2⟩
    exact hr.coal o j hj a b a' b'
  · rw [h4 q (by omega)]
    exact (Frame.remove _ _).trans (Frame.setFlags (by omega) _) |>.flags q hq
  · intro z' hz'
    rw [h3]
    exact (Frame.remove _ _).trans (Frame.setFlags (o := h) (by omega) _) |>.area z' hz'

/-! ## The search for the blocks of the range -/

/-- the pages of the blocks at T -/
def Covered (t : Tiling maxOrder (L.pages z)) (T : Set ℕ) (o : ℕ) : Prop :=
  ∃ h ∈ T, ∃ k, t.ord h = some k ∧ h ≤ o ∧ o < h + 2 ^ k

/-- the heads of the free blocks that meet [from, upto) -/
def hits (m : St) (t : Tiling maxOrder (L.pages z)) (lo hi : ℕ) : Set ℕ :=
  {h | m.mmapTestUsed (L.base z + h) = false ∧ ∃ k, t.ord h = some k ∧ h < hi ∧ lo < h + 2 ^ k}

/-- **The invariant of the loops.** The blocks at T are cut, the others are as they were. -/
structure Scanned (L : Layout) (m : St) (z : ℕ) (t : Tiling maxOrder (L.pages z)) (T : Set ℕ) (c : Cut) : Prop where
  rep : ∃ t' : Tiling maxOrder (L.pages z), Rep L c.mm z t' none ∧ (∀ o, Covered t T o → t'.ord o = some 0) ∧
    ∀ o, ¬ Covered t T o → t'.ord o = t.ord o
  frame : Frame L z m c.mm
  used : ∀ o, c.mm.mmapTestUsed (L.base z + o) = true ↔ Covered t T o ∨ m.mmapTestUsed (L.base z + o) = true
  min_le : ∀ h ∈ T, c.physAddrMin.toNat ≤ (L.physAddr z h).toNat
  min_mem : c.physAddrMin = BitVec.allOnes 32 ∨ ∃ h ∈ T, c.physAddrMin = L.physAddr z h
  le_max : ∀ h ∈ T, ∀ k, t.ord h = some k → (L.physAddr z (h + 2 ^ k)).toNat ≤ c.physAddrEndMax.toNat
  max_mem : c.physAddrEndMax = 0#32 ∨ ∃ h ∈ T, ∃ k, t.ord h = some k ∧ c.physAddrEndMax = L.physAddr z (h + 2 ^ k)

variable {T : Set ℕ} {c : Cut} {lo hi i : ℕ}

theorem covered_insert (hh : t.ord h = some k) (o : ℕ) :
    Covered t (insert h T) o ↔ (h ≤ o ∧ o < h + 2 ^ k) ∨ Covered t T o := by
  simp only [Covered, Set.mem_insert_iff, exists_eq_or_imp, hh, Option.some.injEq, exists_eq_left']

/-- the head of a block is in another block only if it is the same -/
theorem covered_head (hh : t.ord h = some k) (hc : Covered t T h) : h ∈ T := by
  obtain ⟨x, hx, j, hj, h1, h2⟩ := hc
  rwa [t.ord_unique hh hj le_rfl (Nat.lt_add_of_pos_right (Nat.two_pow_pos k)) h1 h2]

theorem least_toNat (a b : Word) : (if a < b then a else b).toNat = min a.toNat b.toNat := by
  split_ifs with hlt
  · exact (min_eq_left (BitVec.lt_def.1 hlt).le).symm
  · exact (min_eq_right (Nat.le_of_not_lt fun h => hlt (BitVec.lt_def.2 h))).symm

theorem greatest_toNat (a b : Word) : (if b < a then a else b).toNat = max a.toNat b.toNat := by
  split_ifs with hlt
  · exact (max_eq_left (BitVec.lt_def.1 hlt).le).symm
  · exact (max_eq_right (Nat.le_of_not_lt fun h => hlt (BitVec.lt_def.2 h))).symm

/-- a cut block joins the blocks at T -/
theorem Scanned.cut (hs : Scanned L m z t T c) (hh : t.ord h = some k) (hu : m.mmapTestUsed (L.base z + h) = false)
    (hT : h ∉ T) : ∃ m', splitTo ((removeFromFreeArea c.mm z (L.base z + h) k).mmapSetUsed (L.base z + h))
    (L.base z + h) k 0 = some m' ∧
      Scanned L m z t (insert h T) ⟨m', if L.physAddr z h < c.physAddrMin then L.physAddr z h else c.physAddrMin,
        if c.physAddrEndMax < L.physAddr z (h + 2 ^ k) then L.physAddr z (h + 2 ^ k) else c.physAddrEndMax⟩ := by
  obtain ⟨t', hr, hcut, hkeep⟩ := hs.rep
  have hnot : ¬ Covered t T h := fun hc => hT (covered_head hh hc)
  have hh' : t'.ord h = some k := (hkeep h hnot).trans hh
  have hu' : c.mm.mmapTestUsed (L.base z + h) = false := by
    rw [← Bool.not_eq_true, hs.used, hu]
    simp [hnot]
  obtain ⟨m', hm', hr', hf', hused'⟩ := shatter_rep hr hh' hu'
  refine ⟨m', hm', ⟨t'.shatter hh', hr', fun o ho => ?_, fun o ho => ?_⟩, hs.frame.trans hf', fun o => ?_,
    fun x hx => ?_, ?_, fun x hx j hj => ?_, ?_⟩
  · rw [Tiling.shatter_ord]
    split_ifs with hc
    · rfl
    · exact hcut o (((covered_insert hh o).1 ho).resolve_left hc)
  · rw [covered_insert hh, not_or] at ho
    rw [Tiling.shatter_ord, if_neg ho.1]
    exact hkeep o ho.2
  · rw [hused', Bool.or_eq_true, decide_eq_true_eq, hs.used, covered_insert hh, or_assoc]
  · rw [least_toNat]
    rcases Set.mem_insert_iff.1 hx with rfl | hx
    · exact min_le_left _ _
    · exact (min_le_right _ _).trans (hs.min_le x hx)
  · dsimp only
    split_ifs
    · exact Or.inr ⟨h, Set.mem_insert h T, rfl⟩
    · exact hs.min_mem.imp id fun ⟨x, hx, he⟩ => ⟨x, Set.mem_insert_of_mem h hx, he⟩
  · rw [greatest_toNat]
    rcases Set.mem_insert_iff.1 hx with rfl | hx
    · rw [hh] at hj
      cases hj
      exact le_max_left _ _
    · exact (hs.le_max x hx j hj).trans (le_max_right _ _)
  · dsimp only
    split_ifs
    · exact Or.inr ⟨h, Set.mem_insert h T, k, hh, rfl⟩
    · exact hs.max_mem.imp id fun ⟨x, hx, he⟩ => ⟨x, Set.mem_insert_of_mem h hx, he⟩

theorem cutBlock_spec (hz : z ∈ L.all) (hlt : lo < hi) (hle : hi ≤ L.pages z) (hs : Scanned L m z t T c)
    (hh : t.ord h = some k) (hu : m.mmapTestUsed (L.base z + h) = false) (hT : h ∉ T) :
    ∃ c', cutBlock L z (L.physAddr z lo) (L.physAddr z hi) k c (L.base z + h) = some c' ∧
      Scanned L m z t (T ∪ {x | x = h ∧ x ∈ hits m t lo hi}) c' := by
  obtain ⟨ty, hty⟩ := L.mem_all.1 hz
  have hin := t.inside h k hh
  have hpos := Nat.two_pow_pos k
  have hcond : ((L.physAddr z h ≤ L.physAddr z lo ∧ L.physAddr z lo < L.physAddr z (h + 2 ^ k)) ∨
      (L.physAddr z lo < L.physAddr z h ∧ L.physAddr z h < L.physAddr z hi)) ↔ h ∈ hits m t lo hi := by
    rw [addr_le hz (by omega) (by omega), addr_lt hz (by omega) hin, addr_lt hz (by omega) (by omega), addr_lt hz (by omega) hle]
    simp only [hits, Set.mem_ofPred_eq, hu, true_and, hh, Option.some.injEq, exists_eq_left']
    omega
  rw [cutBlock, L.pageToPhys_eq hty (t.lt_of_ord hh), Option.bind_some]
  dsimp only
  rw [addr_add hz hin (t.le_max h k hh)]
  by_cases hhit : h ∈ hits m t lo hi
  · obtain ⟨m', hm', hs'⟩ := hs.cut hh hu hT
    rw [if_pos (hcond.2 hhit), hm', Option.map_some]
    refine ⟨_, rfl, ?_⟩
    have hset : T ∪ {x | x = h ∧ x ∈ hits m t lo hi} = insert h T := by
      ext x
      simp only [Set.mem_union, Set.mem_ofPred_eq, Set.mem_insert_iff]
      constructor
      · rintro (hx | ⟨rfl, -⟩)
        · exact Or.inr hx
        · exact Or.inl rfl
      · rintro (rfl | hx)
        · exact Or.inr ⟨rfl, hhit⟩
        · exact Or.inl hx
    rw [hset]
    exact hs'
  · rw [if_neg fun hc => hhit (hcond.1 hc)]
    refine ⟨_, rfl, ?_⟩
    have hset : T ∪ {x | x = h ∧ x ∈ hits m t lo hi} = T :=
      Set.union_eq_self_of_subset_right fun x hx => absurd (hx.1 ▸ hx.2) hhit
    rw [hset]
    exact hs

/-- the loop over one list -/
theorem cutBlocks_spec (hz : z ∈ L.all) (hlt : lo < hi) (hle : hi ≤ L.pages z) (l : List ℕ) (hnd : l.Nodup)
    (hs : Scanned L m z t T c) (hl : ∀ p ∈ l, ∃ h, p = L.base z + h ∧ t.ord h = some k ∧
    m.mmapTestUsed (L.base z + h) = false ∧ h ∉ T) :
    ∃ c', l.foldlM (cutBlock L z (L.physAddr z lo) (L.physAddr z hi) k) c = some c' ∧
      Scanned L m z t (T ∪ {x | L.base z + x ∈ l ∧ x ∈ hits m t lo hi}) c' := by
  induction l generalizing T c with
  | nil =>
    refine ⟨c, rfl, ?_⟩
    simpa using hs
  | cons p l ih =>
    obtain ⟨h, rfl, hh, hu, hT⟩ := hl p List.mem_cons_self
    obtain ⟨hout, hnd⟩ := List.nodup_cons.1 hnd
    obtain ⟨c1, h1, hs1⟩ := cutBlock_spec hz hlt hle hs hh hu hT
    obtain ⟨c2, h2, hs2⟩ := ih hnd hs1 fun q hq => by
      obtain ⟨x, rfl, hx, hux, hxT⟩ := hl q (List.mem_cons_of_mem _ hq)
      refine ⟨x, rfl, hx, hux, ?_⟩
      rintro (hin | ⟨rfl, -⟩)
      · exact hxT hin
      · exact hout hq
    refine ⟨c2, by rw [List.foldlM_cons, h1]; exact h2, ?_⟩
    have hset : T ∪ {x | x = h ∧ x ∈ hits m t lo hi} ∪ {x | L.base z + x ∈ l ∧ x ∈ hits m t lo hi} =
        T ∪ {x | L.base z + x ∈ (L.base z + h) :: l ∧ x ∈ hits m t lo hi} := by
      ext x
      simp only [Set.mem_union, Set.mem_ofPred_eq, List.mem_cons, Nat.add_left_cancel_iff, or_and_right, or_assoc]
    exact hset ▸ hs2

/-- the loop over the orders -/
theorem cutLists_spec (hz : z ∈ L.all) (hlt : lo < hi) (hle : hi ≤ L.pages z) (ks : List ℕ) (hnd : ks.Nodup)
    (hs : Scanned L m z t T c) (hT : ∀ h ∈ T, ∀ k, t.ord h = some k → k ∉ ks) :
    ∃ c', ks.foldlM (cutList L z (L.physAddr z lo) (L.physAddr z hi)) c = some c' ∧
      Scanned L m z t (T ∪ {x | (∃ k ∈ ks, t.ord x = some k) ∧ x ∈ hits m t lo hi}) c' := by
  induction ks generalizing T c with
  | nil =>
    refine ⟨c, rfl, ?_⟩
    simpa using hs
  | cons k ks ih =>
    obtain ⟨hout, hnd⟩ := List.nodup_cons.1 hnd
    obtain ⟨t', hr, hcut, hkeep⟩ := hs.rep
    have hmem : ∀ x, L.base z + x ∈ (c.mm.freeArea z k).list ↔ t.ord x = some k ∧
        m.mmapTestUsed (L.base z + x) = false := by
      intro x
      have hfree : c.mm.mmapTestUsed (L.base z + x) = false ↔ ¬ Covered t T x ∧ m.mmapTestUsed (L.base z + x) = false := by
        rw [← Bool.not_eq_true, hs.used, not_or, Bool.not_eq_true]
      rw [hr.listed]
      constructor
      · rintro ⟨o, he, ho, hu, -⟩
        obtain rfl := Nat.add_left_cancel he
        obtain ⟨hnot, hu⟩ := hfree.1 hu
        exact ⟨(hkeep x hnot).symm.trans ho, hu⟩
      · rintro ⟨hx, hu⟩
        have hnot : ¬ Covered t T x := fun hc => hT x (covered_head hx hc) k hx List.mem_cons_self
        exact ⟨x, rfl, (hkeep x hnot).trans hx, hfree.2 ⟨hnot, hu⟩, by simp⟩
    obtain ⟨c1, h1, hs1⟩ := cutBlocks_spec hz hlt hle (k := k) _ (hr.nodup k) hs fun p hp => by
      obtain ⟨o, rfl, -⟩ := (hr.listed k p).1 hp
      obtain ⟨ho, hu⟩ := (hmem o).1 hp
      exact ⟨o, rfl, ho, hu, fun hin => hT o hin k ho List.mem_cons_self⟩
    simp only [hmem] at hs1
    obtain ⟨c2, h2, hs2⟩ := ih hnd hs1 fun x hx j hj => by
      rcases hx with hin | ⟨⟨hk, -⟩, -⟩
      · exact fun hj' => hT x hin j hj (List.mem_cons_of_mem _ hj')
      · rw [hj] at hk
        cases hk
        exact hout
    refine ⟨c2, by rw [List.foldlM_cons, cutList, h1]; exact h2, ?_⟩
    have hset : T ∪ {x | (t.ord x = some k ∧ m.mmapTestUsed (L.base z + x) = false) ∧ x ∈ hits m t lo hi} ∪
        {x | (∃ j ∈ ks, t.ord x = some j) ∧ x ∈ hits m t lo hi} =
          T ∪ {x | (∃ j ∈ k :: ks, t.ord x = some j) ∧ x ∈ hits m t lo hi} := by
      ext x
      simp only [Set.mem_union, Set.mem_ofPred_eq, List.mem_cons, or_assoc]
      refine or_congr Iff.rfl ⟨?_, ?_⟩
      · rintro (⟨⟨hk, -⟩, hx⟩ | ⟨⟨j, hj, hjk⟩, hx⟩)
        · exact ⟨⟨k, Or.inl rfl, hk⟩, hx⟩
        · exact ⟨⟨j, Or.inr hj, hjk⟩, hx⟩
      · rintro ⟨⟨j, rfl | hj, hjk⟩, hx⟩
        · exact Or.inl ⟨⟨hjk, hx.1⟩, hx⟩
        · exact Or.inr ⟨⟨j, hj, hjk⟩, hx⟩
    exact hset ▸ hs2

/-- **The blocks that alloc_region takes are the free blocks that meet the range.** -/
theorem cut_spec (hz : z ∈ L.all) (hlt : lo < hi) (hle : hi ≤ L.pages z) (hr : Rep L m z t none) :
    ∃ c, (List.range (maxOrder + 1)).foldlM (cutList L z (L.physAddr z lo) (L.physAddr z hi)) ⟨m, BitVec.allOnes 32,
    0#32⟩ = some c ∧
      Scanned L m z t (hits m t lo hi) c := by
  have hnone : ∀ o, ¬ Covered t ∅ o := fun o ⟨h, hh, _⟩ => hh
  have h0 : Scanned L m z t ∅ ⟨m, BitVec.allOnes 32, 0#32⟩ :=
    ⟨⟨t, hr, fun o ho => absurd ho (hnone o), fun _ _ => rfl⟩, .refl, fun o => (or_iff_right (hnone o)).symm,
    fun _ hx => absurd hx id,
      Or.inl rfl, fun _ hx => absurd hx id, Or.inl rfl⟩
  obtain ⟨c, hc, hs⟩ := cutLists_spec hz hlt hle _ List.nodup_range h0 fun x hx => absurd hx id
  have hset : ∅ ∪ {x | (∃ k ∈ List.range (maxOrder + 1), t.ord x = some k) ∧ x ∈ hits m t lo hi} =
      hits m t lo hi := by
    ext x
    simp only [Set.empty_union, Set.mem_ofPred_eq]
    refine and_iff_right_of_imp fun ⟨_, k, hk, _⟩ => ⟨k, List.mem_range.2 ?_, hk⟩
    exact Nat.lt_succ_of_le (t.le_max x k hk)
  exact ⟨c, hc, hset ▸ hs⟩

/-! ## dealloc_region -/

theorem addr_succ (o : ℕ) : L.physAddr z o + pageSize = L.physAddr z (o + 1) := by
  rw [Layout.physAddr, Layout.physAddr, BitVec.ofNat_add, BitVec.add_mul, BitVec.one_mul, BitVec.add_assoc]

/-- single pages in use are given back one by one -/
theorem deallocLoop_spec (hz : z ∈ L.all) (n o : ℕ) (m : St) (t : Tiling maxOrder (L.pages z)) (hr : Rep L m z t none)
    (hle : o + n ≤ L.pages z) (h : ∀ x, o ≤ x → x < o + n → t.ord x = some 0 ∧ m.mmapTestUsed (L.base z + x) = true) :
    ∃ m', ∃ t' : Tiling maxOrder (L.pages z), deallocLoop L m (L.physAddr z o) n = some m' ∧ Rep L m' z t' none ∧
    Frame L z m m' ∧
      (∀ x, m'.mmapTestUsed (L.base z + x) = true ↔ m.mmapTestUsed (L.base z + x) = true ∧ ¬ (o ≤ x ∧ x < o + n)) ∧
      ∀ x, m'.mmapTestUsed (L.base z + x) = true → t'.ord x = t.ord x := by
  induction n generalizing o m t with
  | zero => exact ⟨m, t, rfl, hr, .refl, fun x => ⟨fun hx => ⟨hx, by omega⟩, fun hx => hx.1⟩, fun _ _ => rfl⟩
  | succ n ih =>
    obtain ⟨ty, hty⟩ := L.mem_all.1 hz
    obtain ⟨ho, hu⟩ := h o le_rfl (by omega)
    obtain ⟨m1, t1, he1, hg⟩ := dealloc_spec hz hr ho hu
    have hused1 : ∀ x, m1.mmapTestUsed (L.base z + x) = true ↔ x ≠ o ∧ m.mmapTestUsed (L.base z + x) = true := fun x => by
      rw [hg.used, Bool.and_eq_true, Bool.not_eq_true', decide_eq_false_iff_not, Nat.add_left_cancel_iff]
    obtain ⟨m2, t2, he2, hr2, hf2, hu2, hk2⟩ := ih (o + 1) m1 t1 hg.rep (by omega) fun x hx1 hx2 => by
      obtain ⟨hx, hux⟩ := h x (by omega) (by omega)
      exact ⟨(hg.keep x (by omega) hux).trans hx, (hused1 x).2 ⟨by omega, hux⟩⟩
    refine ⟨m2, t2, ?_, hr2, hg.frame.trans hf2, fun x => ?_, fun x hx => ?_⟩
    · rw [deallocLoop, L.physToPage_eq hty (by omega), Option.bind_some, he1, Option.bind_some, addr_succ]
      exact he2
    · rw [hu2, hused1]
      constructor
      · rintro ⟨⟨hne, hux⟩, hout⟩
        exact ⟨hux, by omega⟩
      · rintro ⟨hux, hout⟩
        exact ⟨⟨by omega, hux⟩, by omega⟩
    · obtain ⟨hne, hux⟩ := (hused1 x).1 ((hu2 x).1 hx).1
      exact (hk2 x hx).trans (hg.keep x hne hux)

theorem deallocRegion_eq (hz : z ∈ L.all) (m : St) {o o' : ℕ} (hle : o ≤ o') (ho' : o' < L.pages z) :
    deallocRegion L m (L.physAddr z o) (L.physAddr z o') = deallocLoop L m (L.physAddr z o) (o' - o) := by
  have hnot : ¬ L.physAddr z o' < L.physAddr z o := by
    rw [addr_lt hz ho'.le (by omega)]
    omega
  have hcount : ((L.physAddr z o' - L.physAddr z o) / pageSize).toNat = o' - o := by
    have hp : pageSize.toNat = 4096 := by decide
    have hsub : L.physAddr z o ≤ L.physAddr z o' := (addr_le hz (by omega) ho'.le).2 hle
    rw [BitVec.toNat_udiv, BitVec.toNat_sub_of_le hsub, addr_toNat hz ho'.le, addr_toNat hz (by omega), hp]
    omega
  rw [deallocRegion, addr_dvd hz (by omega), addr_dvd hz ho'.le, if_neg (not_not.2 rfl), if_neg (not_not.2 rfl), if_neg hnot,
    addr_zone hz (by omega), addr_zone hz ho']
  dsimp only
  rw [if_neg (not_not.2 rfl), hcount]

/-- phys_to_zone does not find a zone at its end, so the BUG_ON fires -/
theorem deallocRegion_end (hz : z ∈ L.all) (m : St) {o : ℕ} (ho : o < L.pages z) :
    deallocRegion L m (L.physAddr z o) (L.physAddr z (L.pages z)) = none := by
  rw [deallocRegion, addr_zone hz ho]
  split_ifs
  · rfl
  · rfl
  · rfl
  · dsimp only
    rw [if_pos (end_zone hz).symm]

/-! ## alloc_region -/

theorem allocRegion_eq (hz : z ∈ L.all) (m : St) (hlt : lo < hi) (hhi : hi < L.pages z) :
    allocRegion L m (L.physAddr z lo) (L.physAddr z hi) =
      ((List.range (maxOrder + 1)).foldlM (cutList L z (L.physAddr z lo) (L.physAddr z hi)) ⟨m, BitVec.allOnes 32, 0#32⟩).bind
      fun c =>
        (deallocRegion L c.mm c.physAddrMin (L.physAddr z lo)).bind
        fun m => deallocRegion L m (L.physAddr z hi) c.physAddrEndMax := by
  have hnot : ¬ L.physAddr z hi < L.physAddr z lo := by
    rw [addr_lt hz hhi.le (by omega)]
    omega
  rw [allocRegion, addr_dvd hz (by omega), addr_dvd hz hhi.le, if_neg (not_not.2 rfl), if_neg (not_not.2 rfl), if_neg hnot,
    addr_zone hz (by omega), addr_zone hz hhi]
  dsimp only
  rw [if_neg (not_not.2 rfl)]

theorem allocRegion_end (hz : z ∈ L.all) (m : St) (hlt : lo < L.pages z) :
    allocRegion L m (L.physAddr z lo) (L.physAddr z (L.pages z)) = none := by
  rw [allocRegion, addr_zone hz hlt]
  split_ifs
  · rfl
  · rfl
  · rfl
  · dsimp only
    rw [if_pos (end_zone hz).symm]

/-- the free blocks that meet a free range reach from the block of its first page to the end of the block of its last one -/
structure Spans (m : St) (t : Tiling maxOrder (L.pages z)) (lo hi first upto : ℕ) : Prop where
  first_le : first ≤ lo
  le_upto : hi ≤ upto
  upto_le : upto ≤ L.pages z
  covered : ∀ o, Covered t (hits m t lo hi) o ↔ first ≤ o ∧ o < upto
  head : first ∈ hits m t lo hi
  last : ∃ h ∈ hits m t lo hi, ∃ k, t.ord h = some k ∧ h + 2 ^ k = upto

theorem spans_of_free (hlt : lo < hi) (hfree : ∀ o, lo ≤ o → o < hi →
    ∃ h k, t.ord h = some k ∧ m.mmapTestUsed (L.base z + h) = false ∧ h ≤ o ∧ o < h + 2 ^ k) :
    ∃ first upto, Spans m t lo hi first upto := by
  obtain ⟨a, i, ha, hau, ha1, ha2⟩ := hfree lo le_rfl hlt
  obtain ⟨b, j, hb, hbu, hb1, hb2⟩ := hfree (hi - 1) (by omega) (by omega)
  refine ⟨a, b + 2 ^ j, ha1, by omega, t.inside b j hb, fun o => ⟨?_, ?_⟩, ⟨hau, i, ha, by omega, ha2⟩,
    b, ⟨hbu, j, hb, by omega, by omega⟩, j, hb, rfl⟩
  · rintro ⟨h, ⟨-, k, hk, h1, h2⟩, k', hk', h3, h4⟩
    obtain rfl : k = k' := Option.some.inj (hk.symm.trans hk')
    constructor
    · -- a block in front of the first one ends there
      rcases Nat.lt_or_ge h a with hl | hg
      · have := t.apart h k a i hk ha hl
        omega
      · omega
    · rcases Nat.lt_trichotomy h b with hl | rfl | hg
      · have := t.apart h k b j hk hb hl
        omega
      · rw [hk] at hb
        cases hb
        omega
      · have := t.apart b j h k hb hk hg
        omega
  · rintro ⟨h1, h2⟩
    rcases Nat.lt_or_ge o lo with hl | hg
    · exact ⟨a, ⟨hau, i, ha, by omega, ha2⟩, i, ha, h1, by omega⟩
    · rcases Nat.lt_or_ge o hi with hl' | hg'
      · obtain ⟨h, k, hk, hu, h3, h4⟩ := hfree o hg hl'
        exact ⟨h, ⟨hu, k, hk, by omega, by omega⟩, k, hk, h3, h4⟩
      · exact ⟨b, ⟨hbu, j, hb, by omega, by omega⟩, j, hb, by omega, h2⟩

variable {first upto : ℕ}

theorem Scanned.min_eq (hz : z ∈ L.all) (hs : Scanned L m z t (hits m t lo hi) c) (hsp : Spans m t lo hi first upto) :
    c.physAddrMin = L.physAddr z first := by
  have hfirst := hsp.first_le
  have hupto := hsp.upto_le
  have hle := hsp.le_upto
  have hmin := hs.min_le first hsp.head
  have hlast : (L.physAddr z (L.pages z)).toNat < 2 ^ 32 := BitVec.isLt _
  obtain ⟨k, hk, hhi, -⟩ := hsp.head.2
  rw [addr_toNat hz le_rfl] at hlast
  rw [addr_toNat hz (by omega)] at hmin
  rcases hs.min_mem with he | ⟨h, hh, he⟩
  · rw [he, BitVec.toNat_allOnes] at hmin
    omega
  · obtain ⟨-, j, hj, -, -⟩ := id hh
    have hcov := (hsp.covered h).1 ⟨h, hh, j, hj, le_rfl, Nat.lt_add_of_pos_right (Nat.two_pow_pos j)⟩
    rw [he, addr_toNat hz (by omega)] at hmin
    obtain rfl : h = first := by omega
    exact he

theorem Scanned.max_eq (hz : z ∈ L.all) (hs : Scanned L m z t (hits m t lo hi) c) (hsp : Spans m t lo hi first upto) :
    c.physAddrEndMax = L.physAddr z upto := by
  have hupto := hsp.upto_le
  obtain ⟨b, hb, j, hj, rfl⟩ := hsp.last
  have hmax := hs.le_max b hb j hj
  have hpos := Nat.two_pow_pos j
  rw [addr_toNat hz hupto] at hmax
  rcases hs.max_mem with he | ⟨h, hh, k, hk, he⟩
  · rw [he, BitVec.toNat_ofNat] at hmax
    omega
  · have hpos' := Nat.two_pow_pos k
    have hcov := (hsp.covered (h + 2 ^ k - 1)).1 ⟨h, hh, k, hk, by omega, by omega⟩
    rw [he, addr_toNat hz (by omega)] at hmax
    rw [he]
    congr 1
    omega

/-- no page of a free block is in use -/
theorem hits_unused (hr : Rep L m z t none) {x : ℕ} (hx : m.mmapTestUsed (L.base z + x) = true) (hlt : x < L.pages z) :
    ¬ Covered t (hits m t lo hi) x := by
  intro hcov
  obtain ⟨j, hj⟩ := Option.isSome_iff_exists.1 (hr.used x hlt hx)
  have hmem := (covered_head hj hcov).1
  rw [hx] at hmem
  cases hmem

/-- what alloc_region does if the last of its blocks ends below the end of the zone -/
theorem allocRegion_spec (hz : z ∈ L.all) (hr : Rep L m z t none) (hlt : lo < hi) (hsp : Spans m t lo hi first upto)
    (hupto : upto < L.pages z) :
    ∃ m', ∃ t' : Tiling maxOrder (L.pages z), allocRegion L m (L.physAddr z lo) (L.physAddr z hi) = some m' ∧
    Rep L m' z t' none ∧
      Frame L z m m' ∧
      (∀ x < L.pages z, m'.mmapTestUsed (L.base z + x) = true ↔ m.mmapTestUsed (L.base z + x) = true ∨
      (lo ≤ x ∧ x < hi)) ∧ (∀ x < L.pages z, m.mmapTestUsed (L.base z + x) = true → t'.ord x = t.ord x) ∧
      ∀ x, lo ≤ x → x < hi → t'.ord x = some 0 := by
  have hfirst := hsp.first_le
  have hhi := hsp.le_upto
  obtain ⟨c, hc, hs⟩ := cut_spec hz hlt (by omega) hr
  obtain ⟨t1, hr1, hcut1, hkeep1⟩ := hs.rep
  have hcov := hsp.covered
  -- the pages in front of the range
  obtain ⟨m2, t2, he2, hr2, hf2, hu2, hk2⟩ := deallocLoop_spec hz (lo - first) first c.mm t1 hr1 (by omega) fun x hx1 hx2 =>
    ⟨hcut1 x ((hcov x).2 ⟨hx1, by omega⟩), (hs.used x).2 (Or.inl ((hcov x).2 ⟨hx1, by omega⟩))⟩
  have hin2 : ∀ x, lo ≤ x → x < upto → m2.mmapTestUsed (L.base z + x) = true ∧ t2.ord x = some 0 := fun x hx1 hx2 => by
    have hcx := (hcov x).2 ⟨by omega, hx2⟩
    have hux := (hu2 x).2 ⟨(hs.used x).2 (Or.inl hcx), by omega⟩
    exact ⟨hux, (hk2 x hux).trans (hcut1 x hcx)⟩
  -- the pages behind it
  obtain ⟨m3, t3, he3, hr3, hf3, hu3, hk3⟩ := deallocLoop_spec hz (upto - hi) hi m2 t2 hr2 (by omega) fun x hx1 hx2 =>
    ⟨(hin2 x (by omega) (by omega)).2, (hin2 x (by omega) (by omega)).1⟩
  have hused : ∀ x < L.pages z,
      m3.mmapTestUsed (L.base z + x) = true ↔ m.mmapTestUsed (L.base z + x) = true ∨ (lo ≤ x ∧ x < hi) := fun x hx => by
    rw [hu3, hu2, hs.used, hcov]
    constructor
    · rintro ⟨⟨hin | hu, h1⟩, h2⟩
      · exact Or.inr (by omega)
      · exact Or.inl hu
    · rintro (hu | hin)
      · have hnot : ¬ (first ≤ x ∧ x < upto) := fun h => hits_unused hr hu hx ((hcov x).2 h)
        exact ⟨⟨Or.inr hu, by omega⟩, by omega⟩
      · exact ⟨⟨Or.inl (by omega), by omega⟩, by omega⟩
  refine ⟨m3, t3, ?_, hr3, (hs.frame.trans hf2).trans hf3, hused, fun x hx hu => ?_, fun x hx1 hx2 => ?_⟩
  · rw [allocRegion_eq hz m hlt (by omega), hc, Option.bind_some, hs.min_eq hz hsp, hs.max_eq hz hsp,
      deallocRegion_eq hz _ hfirst (by omega), he2, Option.bind_some, deallocRegion_eq hz _ hhi hupto]
    exact he3
  · have hu' := (hused x hx).2 (Or.inl hu)
    rw [hk3 x hu', hk2 x ((hu3 x).1 hu').1]
    exact hkeep1 x (hits_unused hr hu hx)
  · have hu' := (hused x (by omega)).2 (Or.inr ⟨hx1, hx2⟩)
    rw [hk3 x hu']
    exact (hin2 x hx1 (by omega)).2

/-- if the last block ends at the end of the zone, a BUG_ON fires -/
theorem allocRegion_none (hz : z ∈ L.all) (hr : Rep L m z t none) (hlt : lo < hi) (hsp : Spans m t lo hi first upto)
    (hupto : upto = L.pages z) : allocRegion L m (L.physAddr z lo) (L.physAddr z hi) = none := by
  have hfirst := hsp.first_le
  have hhi := hsp.le_upto
  rcases Nat.lt_or_eq_of_le (hupto ▸ hhi : hi ≤ L.pages z) with hlt' | rfl
  · obtain ⟨c, hc, hs⟩ := cut_spec hz hlt hlt'.le hr
    rw [allocRegion_eq hz m hlt hlt', hc, Option.bind_some, hs.max_eq hz hsp, hupto]
    simp only [deallocRegion_end hz _ hlt']
    exact Option.bind_fun_none _
  · exact allocRegion_end hz m hlt

/-! ## Every zone and every range -/

/-- the page is one of the zone, at an address in [base, end) -/
def Inside (L : Layout) (z : ℕ) (base endAddr : Word) (p : ℕ) : Prop :=
  ∃ o < L.pages z, p = L.base z + o ∧ base ≤ L.physAddr z o ∧ L.physAddr z o < endAddr

/-- the pages of the range, and no others, are taken: as single pages, and the blocks of all zones are in order -/
structure Taken (L : Layout) (s : Sys) (z : ℕ) (base endAddr : Word) (m : St) : Prop where
  inv : ∃ pages : List (ℕ × ℕ), (∀ b, b ∈ pages ↔ Inside L z base endAddr b.1 ∧ b.2 = 0) ∧
      Inv L ⟨m, pages ++ s.live⟩
  free : ∀ p, FreePage L m p ↔ FreePage L s.mm p ∧ ¬ Inside L z base endAddr p

/-- the free block that holds the page in front of end ends below the end of the zone -/
def EndsBelow (L : Layout) (m : St) (z : ℕ) (endAddr : Word) : Prop :=
  ∀ k, ∀ p ∈ (m.freeArea z k).list, ∀ q, L.physToPage (endAddr - pageSize) = some q → Covers (p, k) q →
    p + 2 ^ k < (L.zone z).mmapEnd

variable {s : Sys}

theorem inside_iff (hz : z ∈ L.all) (hlt : lo < hi) (hle : hi ≤ L.pages z) (p : ℕ) :
    Inside L z (L.physAddr z lo) (L.physAddr z hi) p ↔ ∃ o, lo ≤ o ∧ o < hi ∧ p = L.base z + o := by
  constructor
  · rintro ⟨o, ho, rfl, h1, h2⟩
    exact ⟨o, (addr_le hz (by omega) ho.le).1 h1, (addr_lt hz ho.le hle).1 h2, rfl⟩
  · rintro ⟨o, h1, h2, rfl⟩
    exact ⟨o, by omega, rfl, (addr_le hz (by omega) (by omega)).2 h1, (addr_lt hz (by omega) hle).2 h2⟩

/-- a page-aligned address of a zone, or its end -/
theorem addr_of (hz : z ∈ L.all) {a : Word} (hd : 4096 ∣ a.toNat) (h1 : (L.zone z).baseAddr ≤ a)
    (h2 : a.toNat ≤ (L.zone z).baseAddr.toNat + (L.zone z).size.toNat) : ∃ o ≤ L.pages z, a = L.physAddr z o := by
  obtain ⟨ty, hty⟩ := L.mem_all.1 hz
  have hbd := L.base_dvd ty z hty
  have hsd := L.size_dvd ty z hty
  have hpages := L.pages_eq hty
  have hle := BitVec.le_def.1 h1
  refine ⟨(a.toNat - (L.zone z).baseAddr.toNat) / 4096, by omega, ?_⟩
  apply BitVec.eq_of_toNat_eq
  rw [addr_toNat hz (by omega)]
  omega

/-- the block of a free page -/
theorem free_block (hi : Inv L s) (hz : z ∈ L.all) {t : Tiling maxOrder (L.pages z)} (hr : Rep L s.mm z t none) {o : ℕ}
    (ho : o < L.pages z) (hf : FreePage L s.mm (L.base z + o)) :
    ∃ h k, t.ord h = some k ∧ s.mm.mmapTestUsed (L.base z + h) = false ∧ h ≤ o ∧ o < h + 2 ^ k := by
  obtain ⟨z', hz', k, p, hp, hle, hlt⟩ := hf
  obtain ⟨t', hr', -⟩ := hi.zones z' hz'
  obtain ⟨x, rfl, hx, -⟩ := (hr'.listed k p).1 hp
  have hin := t'.inside x k hx
  obtain rfl : z' = z := L.zone_unique hz' hz (p := L.base z + o) ⟨by omega, by omega⟩ ⟨by omega, by omega⟩
  obtain ⟨y, hy, hk, hu, -⟩ := (hr.listed k _).1 hp
  obtain rfl := Nat.add_left_cancel hy
  exact ⟨x, k, hk, hu, by omega, by omega⟩

theorem taken_of_rep {m' : St} (hi' : Inv L s) (hz : z ∈ L.all) {t t' : Tiling maxOrder (L.pages z)} (hr : Rep L s.mm z t none)
    (hheld : Held L s z t) (hlt : lo < hi) (hsp : Spans s.mm t lo hi first upto) (hr' : Rep L m' z t' none)
    (hf : Frame L z s.mm m')
    (hused : ∀ x < L.pages z, m'.mmapTestUsed (L.base z + x) = true ↔
      s.mm.mmapTestUsed (L.base z + x) = true ∨ (lo ≤ x ∧ x < hi))
    (hkeep : ∀ x < L.pages z, s.mm.mmapTestUsed (L.base z + x) = true → t'.ord x = t.ord x)
    (hone : ∀ x, lo ≤ x → x < hi → t'.ord x = some 0) : Taken L s z (L.physAddr z lo) (L.physAddr z hi) m' := by
  have hfirst := hsp.first_le
  have hhi := hsp.le_upto
  have hupto := hsp.upto_le
  set pages := (List.range' lo (hi - lo)).map fun o => (L.base z + o, 0) with hpages
  have hmem : ∀ p k, (p, k) ∈ pages ↔ (∃ o, lo ≤ o ∧ o < hi ∧ p = L.base z + o) ∧ k = 0 := fun p k => by
    rw [hpages, List.mem_map]
    constructor
    · rintro ⟨o, ho, he⟩
      cases he
      obtain ⟨h1, h2⟩ := List.mem_range'_1.1 ho
      exact ⟨⟨o, h1, by omega, rfl⟩, rfl⟩
    · rintro ⟨⟨o, h1, h2, rfl⟩, rfl⟩
      exact ⟨o, List.mem_range'_1.2 ⟨h1, by omega⟩, rfl⟩
  have hinside : ∀ b, b ∈ pages ↔ Inside L z (L.physAddr z lo) (L.physAddr z hi) b.1 ∧ b.2 = 0 := fun b => by
    rw [inside_iff hz hlt (by omega)]
    exact hmem b.1 b.2
  have hinv : Inv L ⟨m', pages ++ s.live⟩ := by
    refine ⟨fun z' hz' => ?_, fun p k hin => ?_, List.nodup_append.2 ⟨?_, hi'.nodup, fun b hb b' hb' he => ?_⟩⟩
    · by_cases hne : z' = z
      · subst hne
        refine ⟨t', hr', fun o ho k => ?_⟩
        rw [List.mem_append, hmem, hheld o ho k, hused o ho]
        constructor
        · rintro (⟨⟨x, h1, h2, he⟩, rfl⟩ | ⟨hk, hu⟩)
          · obtain rfl := Nat.add_left_cancel he
            exact ⟨hone _ h1 h2, Or.inr ⟨h1, h2⟩⟩
          · exact ⟨(hkeep o ho hu).trans hk, Or.inl hu⟩
        · rintro ⟨hk, hu | ⟨h1, h2⟩⟩
          · exact Or.inr ⟨(hkeep o ho hu).symm.trans hk, hu⟩
          · rw [hone o h1 h2] at hk
            cases hk
            exact Or.inl ⟨⟨o, h1, h2, rfl⟩, rfl⟩
      · obtain ⟨t2, hr2, hh2⟩ := hi'.zones z' hz'
        obtain ⟨hr2', hu2⟩ := hr2.frame hf hz' hz hne
        refine ⟨t2, hr2', fun o ho k => ?_⟩
        have hother : (L.base z' + o, k) ∉ pages := fun hin => by
          obtain ⟨⟨x, h1, h2, he⟩, -⟩ := (hmem _ _).1 hin
          exact hne (L.zone_unique hz' hz (p := L.base z' + o) ⟨by omega, by omega⟩ ⟨by omega, by omega⟩)
        rw [List.mem_append, or_iff_right hother, hh2 o ho k, hu2 o ho]
    · rcases List.mem_append.1 hin with hin | hin
      · obtain ⟨⟨o, h1, h2, rfl⟩, -⟩ := (hmem p k).1 hin
        exact ⟨z, hz, o, by omega, rfl⟩
      · exact hi'.inZone p k hin
    · have hnd : (List.range' lo (hi - lo)).Nodup := List.nodup_range'
      exact hnd.map fun o o' he => Nat.add_left_cancel (Prod.ext_iff.1 he).1
    · -- a page of the range was free
      subst he
      obtain ⟨p, k⟩ := b
      obtain ⟨⟨o, h1, h2, rfl⟩, rfl⟩ := (hmem p k).1 hb
      have hu := ((hheld o (by omega) 0).1 hb').2
      exact hits_unused hr hu (by omega) ((hsp.covered o).2 ⟨by omega, by omega⟩)
  refine ⟨⟨pages, hinside, hinv⟩, fun p => ?_⟩
  rw [free_iff hinv, free_iff hi']
  constructor
  · rintro ⟨hm, hall⟩
    refine ⟨⟨hm, fun b hb => hall b (List.mem_append_right _ hb)⟩, fun hin => ?_⟩
    refine hall (p, 0) (List.mem_append_left _ ((hinside (p, 0)).2 ⟨hin, rfl⟩)) ⟨le_rfl, ?_⟩
    exact Nat.lt_succ_self p
  · rintro ⟨⟨hm, hall⟩, hout⟩
    refine ⟨hm, fun b hb hcov => ?_⟩
    rcases List.mem_append.1 hb with hb | hb
    · obtain ⟨hin, h0⟩ := (hinside b).1 hb
      obtain ⟨h1, h2⟩ := hcov
      rw [h0, pow_zero] at h2
      exact hout ((by omega : b.1 = p) ▸ hin)
    · exact hall b hb hcov

/-- **alloc_region.** For every zone and every range [base, end) of pages of it that are all free, alloc_region returns with
exactly these pages taken, as single pages, and the blocks of all zones in order, if and only if the free block that holds the
last page of the range ends below the end of the zone. -/
theorem region_taken_iff (hi : Inv L s) (hz : z ∈ L.all) {base endAddr : Word} (hbase : 4096 ∣ base.toNat)
    (hend : 4096 ∣ endAddr.toNat) (hlt : base < endAddr) (hlow : (L.zone z).baseAddr ≤ base)
    (hhigh : endAddr.toNat ≤ (L.zone z).baseAddr.toNat + (L.zone z).size.toNat)
    (hfree : ∀ p, Inside L z base endAddr p → FreePage L s.mm p) :
    (∃ m, allocRegion L s.mm base endAddr = some m ∧ Taken L s z base endAddr m) ↔ EndsBelow L s.mm z endAddr := by
  have hlt' := BitVec.lt_def.1 hlt
  have hlow' := BitVec.le_def.1 hlow
  obtain ⟨lo, hlo, rfl⟩ := addr_of hz hbase hlow (by omega)
  obtain ⟨up, hup, rfl⟩ := addr_of hz hend (BitVec.le_def.2 (by omega)) hhigh
  rw [addr_lt hz hlo hup] at hlt
  obtain ⟨ty, hty⟩ := L.mem_all.1 hz
  obtain ⟨t, hr, hheld⟩ := hi.zones z hz
  obtain ⟨first, upto, hsp⟩ := spans_of_free (m := s.mm) (t := t) hlt fun o h1 h2 =>
    free_block hi hz hr (by omega) (hfree _ ((inside_iff hz hlt hup _).2 ⟨o, h1, h2, rfl⟩))
  have hle := hsp.le_upto
  have hupto := hsp.upto_le
  obtain ⟨b, ⟨hbu, j', hj', hbup, -⟩, j, hb, hbj⟩ := hsp.last
  have hlast : L.physToPage (L.physAddr z up - pageSize) = some (L.base z + (up - 1)) := by
    have hadd : L.physAddr z up = L.physAddr z (up - 1) + pageSize := by rw [addr_succ, Nat.sub_add_cancel (by omega)]
    rw [hadd, BitVec.add_sub_cancel, L.physToPage_eq hty (by omega)]
  have hcond : EndsBelow L s.mm z (L.physAddr z up) ↔ upto < L.pages z := by
    rw [EndsBelow, hlast, L.mmapEnd_eq hty]
    constructor
    · intro h
      have hlisted : L.base z + b ∈ (s.mm.freeArea z j).list := (hr.listed j _).2 ⟨b, rfl, hb, hbu, by simp⟩
      have hbelow := h j _ hlisted _ rfl ⟨by simp only; omega, by simp only; omega⟩
      omega
    · intro h k p hp q hq ⟨h1, h2⟩
      cases hq
      obtain ⟨x, rfl, hx, -⟩ := (hr.listed k p).1 hp
      change L.base z + x ≤ L.base z + (up - 1) at h1
      change L.base z + (up - 1) < L.base z + x + 2 ^ k at h2
      -- the block with the last page is the one that ends at upto
      obtain rfl := t.ord_unique (x := up - 1) hx hb (by omega) (by omega) (by omega) (by omega)
      rw [hb] at hx
      cases hx
      omega
  rw [hcond]
  constructor
  · rintro ⟨m, hm, -⟩
    by_contra hnot
    rw [allocRegion_none hz hr hlt hsp (by omega)] at hm
    cases hm
  · intro hbelow
    obtain ⟨m', t', hm, hr', hf, hused, hkeep, hone⟩ := allocRegion_spec hz hr hlt hsp hbelow
    exact ⟨m', hm, taken_of_rep hi hz hr hheld hlt hsp hr' hf hused hkeep hone⟩

/-! ## The small machine -/

theorem inv_small : Inv Layout.small smallBoot := boot_inv booted_small

theorem free_small {p : ℕ} (hp : p < 6) : FreePage Layout.small smallBoot.mm p := by
  refine (free_iff inv_small p).2 ⟨⟨0, by decide, p, ?_, ?_⟩, fun b hb => absurd hb List.not_mem_nil⟩
  · exact hp
  · exact (Nat.zero_add p).symm

theorem inside_small {base endAddr : Word} {p : ℕ} (h : Inside Layout.small 0 base endAddr p) :
    FreePage Layout.small smallBoot.mm p := by
  obtain ⟨o, ho, rfl, -⟩ := h
  rw [show Layout.small.base 0 + o = o from Nat.zero_add o]
  exact free_small ho

/-- two pages from the middle of the block of four -/
theorem region_small : ∃ m, allocRegion Layout.small smallBoot.mm 0x1001000#32 0x1003000#32 = some m ∧
    Taken Layout.small smallBoot 0 0x1001000#32 0x1003000#32 m := by
  have hlists : ∀ k ≤ maxOrder, ∀ p ∈ (smallBoot.mm.freeArea 0 k).list, p ≤ 2 → p + 2 ^ k < 6 := by decide +kernel
  have hpage : Layout.small.physToPage (0x1003000#32 - pageSize) = some 2 := by decide
  refine (region_taken_iff inv_small (by decide) (by decide) (by decide) (by decide) (by decide) (by decide)
    fun p => inside_small).2 fun k p hp q hq hcov => ?_
  obtain ⟨t, hr, -⟩ := inv_small.zones 0 (by decide)
  obtain ⟨o, -, ho, -⟩ := (hr.listed k p).1 hp
  rw [hpage] at hq
  cases hq
  exact hlists k (t.le_max o k ho) p hp hcov.1

/-- The last page of the zone is free, and so is the one in front of it: alloc_region panics for both. -/
theorem region_at_end :
    Inv Layout.small smallBoot ∧
    (∀ p, Inside Layout.small 0 0x1005000#32 0x1006000#32 p → FreePage Layout.small smallBoot.mm p) ∧
    allocRegion Layout.small smallBoot.mm 0x1005000#32 0x1006000#32 = none ∧
    (∀ p, Inside Layout.small 0 0x1004000#32 0x1005000#32 p → FreePage Layout.small smallBoot.mm p) ∧
    allocRegion Layout.small smallBoot.mm 0x1004000#32 0x1005000#32 = none := by
  have hlast : (allocRegion Layout.small smallBoot.mm 0x1005000#32 0x1006000#32).isNone = true := by decide +kernel
  have hnext : (allocRegion Layout.small smallBoot.mm 0x1004000#32 0x1005000#32).isNone = true := by decide +kernel
  exact ⟨inv_small, fun p => inside_small, Option.isNone_iff_eq_none.1 hlast, fun p => inside_small,
    Option.isNone_iff_eq_none.1 hnext⟩

end SinsOs.Region
