/-
The kernel page tables: the boot tables of boot/boot.S, paging_init and _paging_init (kernel/mm/init.c) and the high_map
entries of init_high_map (kernel/mm/highmem.c).

paging_init puts the page directory behind the kernel image and reserves page tables for [base, end): 32 for the highmem
window and as many as the directly mapped memory needs. _paging_init then fills all 256 kernel entries of the directory.

- `pagingInit_eq`: what paging_init leaves, when its BUG_ON does not fire.
- `tables_inside_iff`: the tables the directory points to and the entries of high_map lie in [base, end) exactly when the
  direct mapping needs all 224 tables below the highmem window, which is from a memory limit of 892 MB and one page on.
-/
import SinsOs.Mm.Page

namespace SinsOs.Paging

open SinsOs.Bits SinsOs.Mm

/-- an array of entries after a store -/
def put (pg : ℕ → Word) (k : ℕ) (e : Word) : ℕ → Word := fun j => if j = k then e else pg j

theorem put_self (pg : ℕ → Word) (k : ℕ) (e : Word) : put pg k e k = e := if_pos rfl

theorem put_ne (pg : ℕ → Word) {j k : ℕ} (e : Word) (h : j ≠ k) : put pg k e j = pg j := if_neg h

/-! ## Model: boot/boot.S -/

/-- __boot, a physical address; page_dir, pg0 and pg1 are the first three pages of the .boot section -/
def boot : Word := 0x100000#32
def pg0 : Word := boot + 0x1000#32
def pg1 : Word := boot + 0x2000#32

/-- `1: stosl; subl $0x1000, %eax; jge 1b` with the direction flag set; edi counts entries from pg0 -/
def bootFill (pg : ℕ → Word) (edi : ℕ) (eax : ℤ) : ℕ → Word :=
  let pg := put pg edi (BitVec.ofInt 32 eax)
  if 0 ≤ eax - 0x1000 then bootFill pg (edi - 1) (eax - 0x1000) else pg
termination_by eax.toNat

def bootPgt : ℕ → Word := bootFill (fun _ => 0#32) (1024 + 1023) 0x7ff003

def bootDir (i : ℕ) : Word :=
  if i = 0 ∨ i = 768 then pg0 + 7
  else if i = 1 ∨ i = 769 then pg1 + 7
  else 0#32

/-- what the kernel reads at the physical address of a boot page table -/
def bootTable (addr : Word) (k : ℕ) : Word :=
  if addr = pg0 then bootPgt k
  else if addr = pg1 then bootPgt (1024 + k)
  else 0#32

/-! ## Model: kernel/mm/init.c -/

def ceilDiv (num div : Word) : Word := if num % div ≠ 0 then num / div + 1 else num / div

/-- the entries of a table in front of its first absent one -/
def countTable (pgt : ℕ → Word) (pteIndex : ℕ) : ℕ :=
  if pteIndex < ptrsPerPgt ∧ pgtPresent (pgt pteIndex) then countTable pgt (pteIndex + 1) + 1 else 0
termination_by ptrsPerPgt - pteIndex

def countDir (dirIndex : ℕ) : ℕ :=
  if dirIndex < ptrsPerPgd ∧ pgtPresent (bootDir dirIndex) then
    countTable (bootTable (pgdPage (bootDir dirIndex))) 0 + countDir (dirIndex + 1)
  else 0
termination_by ptrsPerPgd - dirIndex

def nrTotalPages : ℕ := countDir (pgdIndex pageOffset).toNat

/-- the linker symbol __end, in the 8 MB that boot.S maps at PAGE_OFFSET and behind the start of the kernel -/
structure Image where
  end_ : Word
  load_le : 0xC0100000 ≤ end_.toNat
  mapped : end_.toNat ≤ 0xC0800000

/-- the linker symbol __load -/
def load : Word := 0xC0100000#32

def Image.kernelPageDir (img : Image) : Word := pageAlign img.end_

def Image.nrUsedPages (img : Image) : Word :=
  (pgdIndex img.kernelPageDir - pgdIndex pageOffset) * BitVec.ofNat 32 ptrsPerPgt + pgtIndex img.kernelPageDir

/-- mem_info.usable_limit of a mem_info.limit, both u64 -/
def usableLimit (limit : BitVec 64) : BitVec 64 := if limit > 0x100000000#64 then 0x100000000#64 else limit

/-- virt_mem_size of the directly mapped memory -/
def virtMemSize (limit : BitVec 64) : Word :=
  if usableLimit limit > zoneNormalLimit.setWidth 64 then zoneNormalLimit else (usableLimit limit).setWidth 32

def nrTables (size : Word) : Word := ceilDiv (size / pageSize) (BitVec.ofNat 32 ptrsPerPgt)

def nrNeedPages (limit : BitVec 64) : Word := nrTables zoneHighmemSize + 1 + nrTables (virtMemSize limit)

def sizeofPgd : Word := 4#32
def sizeofPgt : Word := 4#32

/-- kernel_page_dir, __kernel_pgt_base, __kernel_pgt_end, and the entries of the directory and of the tables from base on -/
structure State where
  pageDir : Word
  pgtBase : Word
  pgtEnd : Word
  dir : ℕ → Word
  pgt : ℕ → Word

def clearDir (dir : ℕ → Word) (dirIndex : ℕ) : ℕ → Word :=
  if dirIndex < (pgdIndex pageOffset).toNat then
    clearDir (put dir dirIndex (mkPgt 0 0)) (dirIndex + 1)
  else dir
termination_by (pgdIndex pageOffset).toNat - dirIndex

def fillDir (base : Word) (dir : ℕ → Word) (dirIndex i : ℕ) : ℕ → Word :=
  if dirIndex < ptrsPerPgd then
    let pgtBase := base + sizeofPgt * BitVec.ofNat 32 (ptrsPerPgt * i)
    fillDir base (put dir dirIndex (mkPgt (pa pgtBase) (pagePresent ||| pageRw))) (dirIndex + 1) (i + 1)
  else dir
termination_by ptrsPerPgd - dirIndex

/-- both loops that fill page tables: entries pteIndex up to stop, for the pages from addr on -/
def fillTables (pgt : ℕ → Word) (pteIndex stop : ℕ) (addr : Word) : ℕ → Word :=
  if pteIndex < stop then
    fillTables (put pgt pteIndex (mkPgt addr (pagePresent ||| pageRw))) (pteIndex + 1) stop (addr + pageSize)
  else pgt
termination_by stop - pteIndex

/-- _paging_init, from whatever is in the pages behind the kernel -/
def fillAll (s : State) (limit : BitVec 64) : State :=
  let dir := fillDir s.pgtBase (clearDir s.dir 0) (pgdIndex pageOffset).toNat 0
  let stop := (BitVec.ofNat 32 ptrsPerPgt * nrTables (virtMemSize limit)).toNat
  let pgt := fillTables s.pgt 0 stop 0
  { s with dir := dir, pgt := fillTables pgt stop ((s.pgtEnd - s.pgtBase) / sizeofPgt).toNat 0 }

/-- paging_init, from whatever is in the pages behind the kernel; `none` is its BUG_ON -/
def pagingInit (img : Image) (dir pgt : ℕ → Word) (limit : BitVec 64) : Option State :=
  let pgtBase := img.kernelPageDir + sizeofPgd * BitVec.ofNat 32 ptrsPerPgd
  let pgtEnd := pgtBase + sizeofPgt * ((nrNeedPages limit - 1) * BitVec.ofNat 32 ptrsPerPgt)
  if nrNeedPages limit > BitVec.ofNat 32 nrTotalPages - img.nrUsedPages then none
  else some (fillAll ⟨img.kernelPageDir, pgtBase, pgtEnd, dir, pgt⟩ limit)

/-! ## Model: kernel/mm/highmem.c -/

def State.kernelPgtHighmemBase (s : State) : Word := va (pgdPage (s.dir (pgdIndex (pageOffset + zoneNormalLimit)).toNat))

def sizeofHighMap : ℕ := 16

/-- hmap_end - hmap -/
def nrHighMap : ℕ := (zoneHighmemSize / pageSize).toNat * sizeofHighMap / sizeofHighMap

/-- hmap[i].entry after init_high_map -/
def State.entry (s : State) (i : ℕ) : Word := s.kernelPgtHighmemBase + sizeofPgt * BitVec.ofNat 32 i

/-- the entries kmap and ioremap write for a block of high_map -/
def State.mapWrites (s : State) (first order : ℕ) : List Word := (List.range (2 ^ order)).map fun i => s.entry (first + i)

/-! ## Where the tables lie -/

/-- bytes [a, a + n) lie in [__kernel_pgt_base, __kernel_pgt_end) -/
def State.Inside (s : State) (a : Word) (n : ℕ) : Prop := s.pgtBase.toNat ≤ a.toNat ∧ a.toNat + n ≤ s.pgtEnd.toNat

/-- the page of a virtual address is one that page_alloc_init wipes -/
def State.Wiped (s : State) (a : Word) : Prop :=
  (pageFloor (pa load)).toNat ≤ (pageFloor (pa a)).toNat ∧ (pageFloor (pa a)).toNat < (pageCeil (pa s.pgtEnd)).toNat

structure TablesInside (s : State) : Prop where
  tables : ∀ d < ptrsPerPgd, pgtPresent (s.dir d) → s.Inside (va (pgdPage (s.dir d))) 4096
  entries : ∀ i < nrHighMap, s.Inside (s.entry i) 4
  tablesWiped : ∀ d < ptrsPerPgd, pgtPresent (s.dir d) → s.Wiped (va (pgdPage (s.dir d)))
  writesWiped : ∀ first order, first + 2 ^ order ≤ nrHighMap → ∀ a ∈ s.mapWrites first order, s.Wiped a

/-! ## The boot tables -/

theorem bootFill_get (edi : ℕ) : ∀ (pg : ℕ → Word) (k : ℕ),
    bootFill pg edi (0x1000 * edi + 3) k = if k ≤ edi then BitVec.ofNat 32 (0x1000 * k + 3) else pg k := by
  induction edi with
  | zero =>
    intro pg k
    rw [bootFill]
    rcases Nat.eq_zero_or_pos k with rfl | hk
    · simp [put_self]
    · simp [put_ne _ _ hk.ne', hk.ne']
  | succ edi ih =>
    intro pg k
    have hnext : (0x1000 * ((edi + 1 : ℕ) : ℤ) + 3) - 0x1000 = 0x1000 * (edi : ℤ) + 3 := by push_cast; ring
    rw [bootFill, hnext]
    simp only [Nat.add_sub_cancel]
    rw [if_pos (by omega), ih]
    rcases Nat.lt_trichotomy k (edi + 1) with hlt | rfl | hgt
    · rw [if_pos (by omega), if_pos (by omega)]
    · rw [if_neg (by omega), if_pos le_rfl, put_self]
      exact BitVec.ofInt_natCast 32 (0x1000 * (edi + 1) + 3)
    · rw [if_neg (by omega), if_neg (by omega), put_ne _ _ (by omega)]

theorem bootPgt_present {k : ℕ} (hk : k < 2048) : pgtPresent (bootPgt k) = true := by
  have hget : bootPgt k = BitVec.ofNat 32 (0x1000 * k + 3) := by
    have := bootFill_get (1024 + 1023) (fun _ => 0#32) k
    rw [if_pos (by omega)] at this
    exact this
  have hbit : testBit (bootPgt k) 0 = true := by
    rw [testBit_eq (by norm_num), hget, BitVec.getLsbD_ofNat]
    simp only [Nat.testBit_zero]
    simp; omega
  have hmask : pageFlagsMask &&& pagePresent = bit 0 := by decide
  rw [pgtPresent, pgtCheck, BitVec.and_assoc, hmask]
  exact hbit

theorem countTable_full {pgt : ℕ → Word} (h : ∀ k < ptrsPerPgt, pgtPresent (pgt k) = true) (n : ℕ)
    (hn : n ≤ ptrsPerPgt) :
    countTable pgt (ptrsPerPgt - n) = n := by
  induction n with
  | zero => rw [countTable, if_neg (by omega)]
  | succ n ih =>
    have hlt : ptrsPerPgt - (n + 1) < ptrsPerPgt := by omega
    rw [countTable, if_pos ⟨hlt, h _ hlt⟩, show ptrsPerPgt - (n + 1) + 1 = ptrsPerPgt - n by omega, ih (by omega)]

/-- boot.S maps 8 MB -/
theorem nrTotalPages_eq : nrTotalPages = 2048 := by
  have h0 : countTable (bootTable pg0) 0 = 1024 := by
    refine countTable_full (fun k hk => ?_) 1024 le_rfl
    have hk : k < 1024 := hk
    rw [bootTable, if_pos rfl]
    exact bootPgt_present (by omega)
  have h1 : countTable (bootTable pg1) 0 = 1024 := by
    refine countTable_full (fun k hk => ?_) 1024 le_rfl
    have hk : k < 1024 := hk
    rw [bootTable, if_neg (by decide), if_pos rfl]
    exact bootPgt_present (by omega)
  have hp : (pgdIndex pageOffset).toNat = 768 := by decide
  rw [nrTotalPages, hp, countDir, if_pos (by decide), show pgdPage (bootDir 768) = pg0 by decide, h0,
    countDir, if_pos (by decide), show pgdPage (bootDir (768 + 1)) = pg1 by decide, h1,
    countDir, if_neg (by decide)]

/-! ## The loops of _paging_init -/

theorem clearDir_get (d : ℕ) (dir : ℕ → Word) (k : ℕ) :
    clearDir dir d k = if d ≤ k ∧ k < (pgdIndex pageOffset).toNat then 0#32 else dir k := by
  induction dir, d using clearDir.induct with
  | case1 dir d hd ih =>
    rw [clearDir, if_pos hd, ih]
    by_cases hk : k = d
    · subst hk; simp [hd, mkPgt, put_self]
    · rw [put_ne _ _ hk]
      exact if_congr (by omega) rfl rfl
  | case2 dir d hd => rw [clearDir, if_neg hd, if_neg (by omega)]

/-- the page table of the i-th kernel entry of the directory -/
def tableAt (base : Word) (i : ℕ) : Word := base + sizeofPgt * BitVec.ofNat 32 (ptrsPerPgt * i)

theorem fillDir_get (base : Word) (d i : ℕ) (dir : ℕ → Word) (k : ℕ) :
    fillDir base dir d i k =
      if d ≤ k ∧ k < ptrsPerPgd then mkPgt (pa (tableAt base (i + (k - d)))) (pagePresent ||| pageRw) else dir k := by
  induction dir, d, i using fillDir.induct base with
  | case1 dir d i hd pgtBase ih =>
    rw [fillDir, if_pos hd, ih]
    by_cases hk : k = d
    · subst hk
      rw [if_neg (by omega), put_self, if_pos ⟨le_rfl, hd⟩, Nat.sub_self]
      rfl
    · rw [put_ne _ _ hk]
      by_cases hin : d ≤ k ∧ k < ptrsPerPgd
      · rw [if_pos (by omega), if_pos hin, show i + 1 + (k - (d + 1)) = i + (k - d) by omega]
      · rw [if_neg (by omega), if_neg hin]
  | case2 dir d i hd => rw [fillDir, if_neg hd, if_neg (by omega)]

theorem fillTables_get (j stop : ℕ) (addr : Word) (pgt : ℕ → Word) (k : ℕ) :
    fillTables pgt j stop addr k =
      if j ≤ k ∧ k < stop then mkPgt (addr + pageSize * BitVec.ofNat 32 (k - j)) (pagePresent ||| pageRw) else pgt k := by
  induction pgt, j, addr using fillTables.induct stop with
  | case1 pgt j addr hj ih =>
    rw [fillTables, if_pos hj, ih]
    by_cases hk : k = j
    · subst hk
      rw [if_neg (by omega), put_self, if_pos ⟨le_rfl, hj⟩, Nat.sub_self]
      simp
    · rw [put_ne _ _ hk]
      by_cases hin : j ≤ k ∧ k < stop
      · have hstep : addr + pageSize + pageSize * BitVec.ofNat 32 (k - (j + 1)) = addr + pageSize * BitVec.ofNat 32 (k - j) := by
          rw [show k - j = k - (j + 1) + 1 by omega, BitVec.ofNat_add, BitVec.mul_add, BitVec.add_assoc,
            BitVec.add_comm pageSize]
          simp
        rw [if_pos (by omega), if_pos hin, hstep]
      · rw [if_neg (by omega), if_neg hin]
  | case2 pgt j addr hj => rw [fillTables, if_neg hj, if_neg (by omega)]

/-! ## What paging_init leaves -/

theorem ceilDiv_toNat (n : Word) : (ceilDiv n (BitVec.ofNat 32 ptrsPerPgt)).toNat = (n.toNat + 1023) / 1024 := by
  have hd : (BitVec.ofNat 32 ptrsPerPgt).toNat = 1024 := by decide
  have hlt := n.isLt
  have hdiv : (n / BitVec.ofNat 32 ptrsPerPgt).toNat = n.toNat / 1024 := by rw [BitVec.toNat_udiv, hd]
  have hmod : (n % BitVec.ofNat 32 ptrsPerPgt).toNat = n.toNat % 1024 := by rw [BitVec.toNat_umod, hd]
  rw [ceilDiv]
  split_ifs with h
  · have hne : n.toNat % 1024 ≠ 0 := fun h0 => h (BitVec.eq_of_toNat_eq (by rw [hmod, h0]; rfl))
    have hone : (1 : Word).toNat = 1 := by decide
    rw [BitVec.toNat_add, hdiv, hone, Nat.mod_eq_of_lt (by omega)]
    omega
  · have h0 : n.toNat % 1024 = 0 := by
      rw [← hmod, not_not.1 h]; rfl
    rw [hdiv]
    omega

/-- the page tables of the directly mapped memory -/
def lowTables (limit : BitVec 64) : ℕ := (nrTables (virtMemSize limit)).toNat

theorem lowTables_eq (limit : BitVec 64) :
    lowTables limit = (min (usableLimit limit).toNat 0x38000000 / 4096 + 1023) / 1024 := by
  have hvirt : (virtMemSize limit).toNat = min (usableLimit limit).toNat 0x38000000 := by
    have hz : (zoneNormalLimit.setWidth 64).toNat = 0x38000000 := by decide
    rw [virtMemSize]
    split_ifs with h
    · have := BitVec.lt_def.1 h
      rw [hz] at this
      rw [min_eq_right (by omega)]
      rfl
    · have := BitVec.le_def.1 (BitVec.not_lt.1 h)
      rw [hz] at this
      rw [min_eq_left this, BitVec.toNat_setWidth, Nat.mod_eq_of_lt (by omega)]
  have hdiv : (virtMemSize limit / pageSize).toNat = (virtMemSize limit).toNat / 4096 := by rw [BitVec.toNat_udiv]; rfl
  rw [lowTables, nrTables, ceilDiv_toNat, hdiv, hvirt]

theorem lowTables_le (limit : BitVec 64) : lowTables limit ≤ 224 := by rw [lowTables_eq]; omega

theorem lowTables_full (limit : BitVec 64) : lowTables limit = 224 ↔ 223 * 1024 < (usableLimit limit).toNat / 4096 := by
  rw [lowTables_eq]; omega

theorem nrNeedPages_toNat (limit : BitVec 64) : (nrNeedPages limit).toNat = 33 + lowTables limit := by
  have h32 : nrTables zoneHighmemSize + 1 = 33#32 := by decide
  have := lowTables_le limit
  rw [nrNeedPages, h32, BitVec.toNat_add, ← lowTables]
  exact Nat.mod_eq_of_lt (by simp; omega)

variable {img : Image} {s : State} {limit : BitVec 64} {dir pgt : ℕ → Word}

theorem Image.kernelPageDir_spec (img : Image) :
    4096 ∣ img.kernelPageDir.toNat ∧ 0xC0100000 ≤ img.kernelPageDir.toNat ∧ img.kernelPageDir.toNat ≤ 0xC0800000 := by
  have h1 := img.load_le
  have h2 := img.mapped
  have halign : img.kernelPageDir.toNat = (img.end_.toNat + 4095) / 4096 * 4096 := by
    rw [Image.kernelPageDir, pageAlign_toNat, Nat.mod_eq_of_lt (by omega)]
  exact ⟨⟨_, halign.trans (Nat.mul_comm _ _)⟩, by omega, by omega⟩

/-- the addresses paging_init computes, and the directory of _paging_init -/
structure Built (img : Image) (limit : BitVec 64) (s : State) : Prop where
  base : s.pgtBase.toNat = img.kernelPageDir.toNat + 4096
  pgtEnd : s.pgtEnd.toNat = s.pgtBase.toNat + 4096 * (32 + lowTables limit)
  user : ∀ d < 768, s.dir d = 0#32
  kernel : ∀ i < 256, s.dir (768 + i) = mkPgt (pa (tableAt s.pgtBase i)) (pagePresent ||| pageRw)

theorem pagingInit_built (h : pagingInit img dir pgt limit = some s) : Built img limit s := by
  obtain ⟨-, hge, hle⟩ := img.kernelPageDir_spec
  have htab := lowTables_le limit
  have hp : (pgdIndex pageOffset).toNat = 768 := by decide
  have hbase : (img.kernelPageDir + sizeofPgd * BitVec.ofNat 32 ptrsPerPgd).toNat = img.kernelPageDir.toNat + 4096 := by
    rw [show sizeofPgd * BitVec.ofNat 32 ptrsPerPgd = 4096#32 by decide, BitVec.toNat_add]
    exact Nat.mod_eq_of_lt (by simp; omega)
  have hsize : (sizeofPgt * ((nrNeedPages limit - 1) * BitVec.ofNat 32 ptrsPerPgt)).toNat = 4096 * (32 + lowTables limit) := by
    have hsub : (nrNeedPages limit - 1).toNat = 32 + lowTables limit := by
      have hone : (1 : Word).toNat = 1 := by decide
      rw [BitVec.toNat_sub_of_le (BitVec.le_def.2 (by rw [hone, nrNeedPages_toNat]; omega)), nrNeedPages_toNat, hone]
      omega
    have h4 : sizeofPgt.toNat = 4 := by decide
    have h1024 : (BitVec.ofNat 32 ptrsPerPgt).toNat = 1024 := by decide
    rw [BitVec.toNat_mul, BitVec.toNat_mul, hsub, h4, h1024, Nat.mod_eq_of_lt (a := (32 + lowTables limit) * 1024) (by omega),
      Nat.mod_eq_of_lt (by omega)]
    ring
  rw [pagingInit] at h
  split_ifs at h with hbug
  cases h
  refine ⟨hbase, ?_, fun d hd => ?_, fun i hi => ?_⟩
  · simp only [fillAll]
    rw [BitVec.toNat_add, hsize]
    exact Nat.mod_eq_of_lt (by omega)
  · simp only [fillAll]
    rw [fillDir_get, clearDir_get, hp, if_neg (by omega), if_pos (by omega)]
  · simp only [fillAll]
    rw [fillDir_get, hp, if_pos ⟨by omega, by simp only [ptrsPerPgd]; omega⟩, show 0 + (768 + i - 768) = i by omega]

/-! ## Where they lie -/

theorem pa_toNat {a : Word} (h : 0xC0000000 ≤ a.toNat) : (pa a).toNat = a.toNat - 0xC0000000 := by
  have ho : pageOffset.toNat = 0xC0000000 := by decide
  rw [pa, BitVec.toNat_sub_of_le (BitVec.le_def.2 (by omega)), ho]

namespace Built

theorem tableAt_toNat (h : Built img limit s) {i : ℕ} (hi : i ≤ 256) :
    (tableAt s.pgtBase i).toNat = s.pgtBase.toNat + 4096 * i := by
  obtain ⟨-, hge, hle⟩ := img.kernelPageDir_spec
  have hb := h.base
  have h4 : sizeofPgt.toNat = 4 := by decide
  rw [tableAt, BitVec.toNat_add, BitVec.toNat_mul, h4, BitVec.toNat_ofNat, ptrsPerPgt,
    Nat.mod_eq_of_lt (a := 1024 * i) (by omega), Nat.mod_eq_of_lt (a := 4 * (1024 * i)) (by omega),
    Nat.mod_eq_of_lt (by omega)]
  ring

/-- the i-th kernel entry points to the i-th page behind the directory, reserved or not -/
theorem points (h : Built img limit s) {i : ℕ} (hi : i < 256) : va (pgdPage (s.dir (768 + i))) = tableAt s.pgtBase i := by
  obtain ⟨hdvd, hge, hle⟩ := img.kernelPageDir_spec
  have hb := h.base
  have ht := h.tableAt_toNat hi.le
  have hpa := pa_toNat (a := tableAt s.pgtBase i) (by omega)
  rw [h.kernel i hi, pgdPage_mkPgt (by omega), va, pa, BitVec.sub_add_cancel]

theorem present_iff (h : Built img limit s) {d : ℕ} (hd : d < ptrsPerPgd) :
    pgtPresent (s.dir d) = true ↔ ∃ i < 256, d = 768 + i := by
  have hd : d < 1024 := hd
  by_cases hu : d < 768
  · rw [h.user d hu, pgtPresent_zero]
    simp only [Bool.false_eq_true, false_iff, not_exists, not_and]
    intro i _; omega
  · rw [show d = 768 + (d - 768) by omega, h.kernel (d - 768) (by omega), pgtPresent_mkPgt]
    exact iff_of_true rfl ⟨d - 768, by omega, rfl⟩

theorem highmemBase (h : Built img limit s) : s.kernelPgtHighmemBase = tableAt s.pgtBase 224 := by
  have h992 : (pgdIndex (pageOffset + zoneNormalLimit)).toNat = 768 + 224 := by decide
  rw [State.kernelPgtHighmemBase, h992, h.points (by norm_num)]

theorem entry_toNat (h : Built img limit s) {i : ℕ} (hi : i < 32768) :
    (s.entry i).toNat = s.pgtBase.toNat + 4096 * 224 + 4 * i := by
  obtain ⟨-, hge, hle⟩ := img.kernelPageDir_spec
  have hb := h.base
  have h4 : sizeofPgt.toNat = 4 := by decide
  rw [State.entry, h.highmemBase, BitVec.toNat_add, h.tableAt_toNat (by norm_num), BitVec.toNat_mul, h4, BitVec.toNat_ofNat,
    Nat.mod_eq_of_lt (a := i) (by omega), Nat.mod_eq_of_lt (a := 4 * i) (by omega), Nat.mod_eq_of_lt (by omega)]

/-- a page in [base, end) is a page that page_alloc_init wipes -/
theorem wiped (h : Built img limit s) {a : Word} (ha : s.Inside a 1) : s.Wiped a := by
  obtain ⟨hdvd, hge, hle⟩ := img.kernelPageDir_spec
  have hb := h.base
  have he := h.pgtEnd
  have htab := lowTables_le limit
  obtain ⟨h1, h2⟩ := ha
  have hload : (pageFloor (pa load)).toNat = 0x100000 := by decide
  rw [State.Wiped, hload, pageFloor_toNat, pageCeil, pageAlign_toNat, pa_toNat (by omega), pa_toNat (a := s.pgtEnd) (by omega),
    Nat.mod_eq_of_lt (by omega)]
  omega

end Built

/-- **The kernel page tables are reserved exactly for large memories.** When paging_init returns, the page tables of the
directory and the entries of high_map lie in [__kernel_pgt_base, __kernel_pgt_end), and with them in pages the buddy
allocator does not get, if and only if the usable limit is more than 223 * 1024 pages. -/
theorem tables_inside_iff (h : pagingInit img dir pgt limit = some s) :
    TablesInside s ↔ 223 * 1024 < (usableLimit limit).toNat / 4096 := by
  have hb := pagingInit_built h
  have he := hb.pgtEnd
  rw [← lowTables_full]
  constructor
  · intro ht
    have hp : pgtPresent (s.dir (768 + 255)) = true := (hb.present_iff (by decide)).2 ⟨255, by norm_num, rfl⟩
    have hlast := (ht.tables _ (by decide) hp).2
    rw [hb.points (by norm_num), hb.tableAt_toNat (by norm_num)] at hlast
    have := lowTables_le limit
    omega
  · intro hfull
    have htables : ∀ d < ptrsPerPgd, pgtPresent (s.dir d) = true → s.Inside (va (pgdPage (s.dir d))) 4096 := by
      intro d hd hp
      obtain ⟨i, hi, rfl⟩ := (hb.present_iff hd).1 hp
      rw [hb.points hi, State.Inside, hb.tableAt_toNat hi.le]
      omega
    have hentries : ∀ i < nrHighMap, s.Inside (s.entry i) 4 := by
      intro i hi
      have hi : i < 32768 := hi
      rw [State.Inside, hb.entry_toNat hi]
      omega
    refine ⟨htables, hentries, fun d hd hp => ?_, fun first order hle a ha => ?_⟩
    · obtain ⟨h1, h2⟩ := htables d hd hp
      exact hb.wiped ⟨h1, by omega⟩
    · obtain ⟨j, hj, rfl⟩ := List.mem_map.1 ha
      obtain ⟨h1, h2⟩ := hentries (first + j) (by have := List.mem_range.1 hj; omega)
      exact hb.wiped ⟨h1, by omega⟩

/-! ## A kernel of 128 KB -/

def smallImage : Image := ⟨0xC0120000#32, by decide, by decide⟩

theorem pagingInit_returns (limit : BitVec 64) (h : nrNeedPages limit ≤ 2048#32 - smallImage.nrUsedPages) :
    ∃ s, pagingInit smallImage (fun _ => 0) (fun _ => 0) limit = some s := by
  rw [pagingInit, nrTotalPages_eq]
  exact ⟨_, if_neg (BitVec.not_lt.2 h)⟩

/-- 1 GB of memory -/
theorem tables_inside_gb : ∃ s, pagingInit smallImage (fun _ => 0) (fun _ => 0) 0x40000000#64 = some s ∧ TablesInside s := by
  obtain ⟨s, hs⟩ := pagingInit_returns 0x40000000#64 (by decide)
  exact ⟨s, hs, (tables_inside_iff hs).2 (by decide)⟩

/-- 128 MB of memory: the last table of the directory is not reserved, and kmap writes into pages of the allocator -/
theorem tables_outside_mb : ∃ s, pagingInit smallImage (fun _ => 0) (fun _ => 0) 0x8000000#64 = some s ∧
    ¬ TablesInside s ∧ s.entry 0 ∈ s.mapWrites 0 0 ∧ ¬ s.Wiped (s.entry 0) ∧ (pa (s.entry 0)).toNat < 0x8000000 := by
  obtain ⟨s, hs⟩ := pagingInit_returns 0x8000000#64 (by decide)
  have hb := pagingInit_built hs
  have he := hb.pgtEnd
  have hbase := hb.base
  have hdir : smallImage.kernelPageDir.toNat = 0xC0120000 := by decide
  have htab : lowTables 0x8000000#64 = 32 := by decide
  have hent := hb.entry_toNat (i := 0) (by norm_num)
  refine ⟨s, hs, fun ht => ?_, by simp [State.mapWrites], fun hw => ?_, ?_⟩
  · have hp : pgtPresent (s.dir (768 + 255)) = true := (hb.present_iff (by decide)).2 ⟨255, by norm_num, rfl⟩
    have hlast := (ht.tables _ (by decide) hp).2
    rw [hb.points (by norm_num), hb.tableAt_toNat (by norm_num)] at hlast
    omega
  · have := hw.2
    rw [pageFloor_toNat, pageCeil, pageAlign_toNat, pa_toNat (by omega), pa_toNat (by omega), Nat.mod_eq_of_lt (by omega)] at this
    omega
  · rw [pa_toNat (by omega)]
    omega

end SinsOs.Paging
