/-
The page walk of the processor, over the tables that _paging_init leaves (kernel/mm/init.c), and over those of boot/boot.S.

A directory entry and a table entry hold the address of a page and flags; an access is allowed what both entries allow.

- `linear_map`: after paging_init the walk at PAGE_OFFSET + a ends at a, for reading and writing, for every a in a whole
  page of the directly mapped memory; no entry of the user half is present.
- `boot_map`: before that, exactly the first 8 MB are mapped, to themselves and at PAGE_OFFSET.
-/
import SinsOs.Mm.Paging

namespace SinsOs.Paging

open SinsOs.Bits SinsOs.Mm

/-! ## Model -/

/-- the table entry for an address; `table` reads an entry of the table at a physical address -/
def walkEntry (dir : ℕ → Word) (table : Word → ℕ → Word) (addr : Word) : Option Word :=
  let pgd := dir (pgdIndex addr).toNat
  if pgtPresent pgd then some (table (pgdPage pgd) (pgtIndex addr).toNat) else none

/-- the physical address, and the flags that both entries have -/
def walk (dir : ℕ → Word) (table : Word → ℕ → Word) (addr : Word) : Option (Word × Word) :=
  (walkEntry dir table addr).bind fun pgt =>
    if pgtPresent pgt then
      some (pgdPage pgt ||| (addr &&& pageFlagsMask), dir (pgdIndex addr).toNat &&& pgt &&& pageFlagsMask)
    else none

/-- the entries of a page table behind the directory, by its physical address -/
def State.table (s : State) (addr : Word) (k : ℕ) : Word := s.pgt ((va addr - s.pgtBase).toNat / 4 + k)

/-! ## Entries -/

theorem flags_mkPgt {a : Word} (h : 4096 ∣ a.toNat) (prot : Word) :
    mkPgt a prot &&& pageFlagsMask = prot &&& pageFlagsMask := by
  have hlow : a &&& pageFlagsMask = 0#32 := by
    have hm : pageFlagsMask = lowMask 12 := by decide
    apply BitVec.eq_of_toNat_eq
    rw [hm, low_toNat (by norm_num)]
    exact Nat.mod_eq_zero_of_dvd h
  have hdist : (a ||| prot) &&& pageFlagsMask = (a &&& pageFlagsMask) ||| (prot &&& pageFlagsMask) := by
    ext i
    simp only [BitVec.getElem_and, BitVec.getElem_or]
    exact Bool.and_or_distrib_right ..
  rw [mkPgt, hdist, hlow, BitVec.zero_or]

/-- a page address and an offset in the page make up the address -/
theorem page_or_offset {a b : Word} (h : b.toNat = a.toNat / 4096 * 4096) : b ||| (a &&& pageFlagsMask) = a := by
  have hfloor : b = a &&& ~~~ pageFlagsMask := by
    have hm : pageMask = ~~~ pageFlagsMask := by decide
    apply BitVec.eq_of_toNat_eq
    rw [h, ← pageFloor_toNat, pageFloor, hm]
  rw [hfloor]
  ext i
  simp only [BitVec.getElem_or, BitVec.getElem_and, BitVec.getElem_not]
  cases a[i] <;> simp

variable {img : Image} {s : State} {limit : BitVec 64} {dir pgt : ℕ → Word}

/-- the first loop of _paging_init maps page k of memory with entry k -/
theorem pagingInit_linear (h : pagingInit img dir pgt limit = some s) {k : ℕ} (hk : k < 1024 * lowTables limit) :
    s.pgt k = mkPgt (pageSize * BitVec.ofNat 32 k) (pagePresent ||| pageRw) := by
  have hle := lowTables_le limit
  have h1024 : (BitVec.ofNat 32 ptrsPerPgt).toNat = 1024 := by decide
  have hstop : (BitVec.ofNat 32 ptrsPerPgt * nrTables (virtMemSize limit)).toNat = 1024 * lowTables limit := by
    rw [BitVec.toNat_mul, h1024, ← lowTables]
    exact Nat.mod_eq_of_lt (by omega)
  rw [pagingInit] at h
  split_ifs at h with hbug
  cases h
  simp only [fillAll, hstop]
  rw [fillTables_get, if_neg (by omega), fillTables_get, if_pos ⟨Nat.zero_le _, hk⟩, Nat.sub_zero]
  exact congrArg (mkPgt · _) (BitVec.zero_add _)

/-! ## The walk -/

/-- an address that is mapped directly, and its indices -/
theorem direct_index {a : Word} (ha : a.toNat < 0x38000000) :
    (pgdIndex (pageOffset + a)).toNat = 768 + a.toNat / 2 ^ 22 ∧ (pgtIndex (pageOffset + a)).toNat = a.toNat / 4096 % 1024 ∧
      (pageOffset + a) &&& pageFlagsMask = a &&& pageFlagsMask := by
  have hoff : pageOffset.toNat = 0xC0000000 := by decide
  have hsum : (pageOffset + a).toNat = 0xC0000000 + a.toNat := by
    rw [BitVec.toNat_add, hoff, Nat.mod_eq_of_lt (by omega)]
  refine ⟨?_, ?_, ?_⟩
  · rw [pgdIndex_toNat, hsum]
    omega
  · rw [pgtIndex_toNat, hsum]
    omega
  · have hm : pageFlagsMask = lowMask 12 := by decide
    apply BitVec.eq_of_toNat_eq
    rw [hm, low_toNat (by norm_num), low_toNat (by norm_num), hsum]
    omega

/-- **Memory is mapped linearly.** For every memory limit with which paging_init returns, the walk of the kernel directory at
PAGE_OFFSET + a gives a, present and writable, for every a in a whole page below the usable limit and ZONE_NORMAL_LIMIT, and
no entry of the user half is present. -/
theorem linear_map (h : pagingInit img dir pgt limit = some s) :
    (∀ a : Word, a.toNat / 4096 * 4096 + 4096 ≤ min (usableLimit limit).toNat zoneNormalLimit.toNat →
      walk s.dir s.table (pageOffset + a) = some (a, pagePresent ||| pageRw)) ∧
    ∀ d < (pgdIndex pageOffset).toNat, pgtPresent (s.dir d) = false := by
  have hb := pagingInit_built h
  have hp : (pgdIndex pageOffset).toNat = 768 := by decide
  refine ⟨fun a ha => ?_, fun d hd => ?_⟩
  · have hnormal : zoneNormalLimit.toNat = 0x38000000 := by decide
    rw [hnormal] at ha
    have hlow : a.toNat / 4096 < 1024 * lowTables limit := by
      rw [lowTables_eq]
      omega
    have hle := lowTables_le limit
    obtain ⟨hdi, hti, hoff⟩ := direct_index (a := a) (by omega)
    obtain ⟨hdvd, hge, -⟩ := img.kernelPageDir_spec
    have hbase := hb.base
    have hi : a.toNat / 2 ^ 22 < 256 := by omega
    have htable := hb.tableAt_toNat hi.le
    have hpa : 4096 ∣ (pa (tableAt s.pgtBase (a.toNat / 2 ^ 22))).toNat := by
      rw [pa_toNat (by omega)]
      omega
    -- the entry that the walk reads is entry a / 4096 of all tables
    have hentry : s.table (pgdPage (s.dir (768 + a.toNat / 2 ^ 22))) (a.toNat / 4096 % 1024) =
        mkPgt (pageSize * BitVec.ofNat 32 (a.toNat / 4096)) (pagePresent ||| pageRw) := by
      rw [State.table, hb.points hi, BitVec.toNat_sub_of_le (BitVec.le_def.2 (by omega)), htable,
        show (s.pgtBase.toNat + 4096 * (a.toNat / 2 ^ 22) - s.pgtBase.toNat) / 4 + a.toNat / 4096 % 1024 =
          a.toNat / 4096 by omega,
        pagingInit_linear h hlow]
    have haddr : (pageSize * BitVec.ofNat 32 (a.toNat / 4096)).toNat = a.toNat / 4096 * 4096 := by
      have hsize : pageSize.toNat = 4096 := by decide
      rw [BitVec.toNat_mul, hsize, BitVec.toNat_ofNat]
      omega
    have hpage := pgdPage_mkPgt (a := pageSize * BitVec.ofNat 32 (a.toNat / 4096)) (by omega)
    have hflags : (pagePresent ||| pageRw) &&& pageFlagsMask = pagePresent ||| pageRw := by decide
    rw [walk, walkEntry, hdi, hti, if_pos (by rw [hb.kernel _ hi, pgtPresent_mkPgt]), hentry, Option.bind_some,
      if_pos (pgtPresent_mkPgt _), hpage, hoff, page_or_offset haddr, hb.kernel _ hi, BitVec.and_assoc, flags_mkPgt (by omega),
      hflags]
    congr 2
    rw [← hflags, ← BitVec.and_assoc, BitVec.and_comm (mkPgt _ _), BitVec.and_assoc, flags_mkPgt hpa]
    decide
  · rw [hp] at hd
    rw [hb.user d hd, pgtPresent_zero]

theorem linear_map_gb : ∃ s, pagingInit smallImage (fun _ => 0) (fun _ => 0) 0x40000000#64 = some s ∧
    (∀ a : Word, a.toNat / 4096 * 4096 + 4096 ≤ min (usableLimit 0x40000000#64).toNat zoneNormalLimit.toNat →
      walk s.dir s.table (pageOffset + a) = some (a, pagePresent ||| pageRw)) ∧
    ∀ d < (pgdIndex pageOffset).toNat, pgtPresent (s.dir d) = false := by
  obtain ⟨s, hs⟩ := pagingInit_returns 0x40000000#64 (by decide)
  exact ⟨s, hs, linear_map hs⟩

/-! ## The boot tables -/

theorem bootPgt_eq {k : ℕ} (hk : k < 2048) : bootPgt k = mkPgt (BitVec.ofNat 32 (4096 * k)) (pagePresent ||| pageRw) := by
  have hget := bootFill_get (1024 + 1023) (fun _ => 0#32) k
  rw [if_pos (by omega)] at hget
  have hor : 4096 * k + 3 = 4096 * k ||| 3 := Nat.two_pow_add_eq_or_of_lt (i := 12) (show 3 < 2 ^ 12 by norm_num) k
  have hprot : pagePresent ||| pageRw = BitVec.ofNat 32 3 := by decide
  rw [hprot, mkPgt, ← BitVec.ofNat_or, ← hor]
  exact hget

/-- the walk to a page of the first 8 MB, through either half of the directory -/
theorem boot_walk {v p : Word} (hp : p.toNat < 0x800000)
    (hd : (pgdIndex v).toNat = p.toNat / 2 ^ 22 ∨ (pgdIndex v).toNat = 768 + p.toNat / 2 ^ 22)
    (ht : (pgtIndex v).toNat = p.toNat / 4096 % 1024) (hoff : v &&& pageFlagsMask = p &&& pageFlagsMask) :
    walk bootDir bootTable v = some (p, pagePresent ||| pageRw) := by
  have hpage : (BitVec.ofNat 32 (4096 * (p.toNat / 4096))).toNat = p.toNat / 4096 * 4096 := by
    rw [BitVec.toNat_ofNat]
    omega
  have hmask : (pagePresent ||| pageRw) &&& pageFlagsMask = pagePresent ||| pageRw := by decide
  -- page_dir has the entries of pg0 and pg1 twice
  obtain ⟨e, he, hpresent, hflags, htable⟩ : ∃ e, bootDir (pgdIndex v).toNat = e ∧ pgtPresent e = true ∧
      e &&& (pagePresent ||| pageRw) = pagePresent ||| pageRw ∧
      bootTable (pgdPage e) (p.toNat / 4096 % 1024) = bootPgt (p.toNat / 4096) := by
    have hhalf : p.toNat / 2 ^ 22 = 0 ∨ p.toNat / 2 ^ 22 = 1 := by omega
    rcases hhalf with h0 | h1
    · refine ⟨pg0 + 7, if_pos (by omega), by decide, by decide, ?_⟩
      rw [show pgdPage (pg0 + 7) = pg0 by decide, bootTable, if_pos rfl, Nat.mod_eq_of_lt (by omega)]
    · refine ⟨pg1 + 7, ?_, by decide, by decide, ?_⟩
      · rw [bootDir, if_neg (by omega), if_pos (by omega)]
      · rw [show pgdPage (pg1 + 7) = pg1 by decide, bootTable, if_neg (by decide), if_pos rfl,
          show 1024 + p.toNat / 4096 % 1024 = p.toNat / 4096 by omega]
  rw [walk, walkEntry, he, if_pos hpresent, ht, htable, bootPgt_eq (by omega), Option.bind_some, if_pos (pgtPresent_mkPgt _),
    pgdPage_mkPgt (by omega), hoff, page_or_offset hpage, BitVec.and_assoc, flags_mkPgt (by omega), hmask, hflags]

/-- **The map of boot.S.** With the tables that boot.S fills, an address is mapped exactly when it is in the first 8 MB, to
itself, or in the first 8 MB from PAGE_OFFSET on, to the physical address that pa gives; both can be written, by the kernel
alone. -/
theorem boot_map (v : Word) : walk bootDir bootTable v =
    if v.toNat < 0x800000 then some (v, pagePresent ||| pageRw)
    else if 0xC0000000 ≤ v.toNat ∧ v.toNat < 0xC0800000 then some (pa v, pagePresent ||| pageRw)
    else none := by
  have hd := pgdIndex_toNat v
  split_ifs with hlow hhigh
  · exact boot_walk hlow (Or.inl hd) (pgtIndex_toNat v) rfl
  · have hpa := pa_toNat hhigh.1
    have hv : pageOffset + pa v = v := by
      rw [pa, BitVec.add_comm, BitVec.sub_add_cancel]
    obtain ⟨hdi, hti, hoff⟩ := direct_index (a := pa v) (by omega)
    rw [hv] at hdi hti hoff
    exact boot_walk (by omega) (Or.inr hdi) hti hoff
  · have hzero : bootDir (pgdIndex v).toNat = 0#32 := by
      rw [bootDir, if_neg (by omega), if_neg (by omega)]
    rw [walk, walkEntry, hzero, pgtPresent_zero, if_neg Bool.false_ne_true]
    rfl

end SinsOs.Paging
