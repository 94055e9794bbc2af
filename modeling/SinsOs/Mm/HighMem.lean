/-
Temporary kernel mappings (kernel/mm/highmem.c): kmap, kunmap, ioremap and iounmap over the highmem window.

The allocator of high_map descriptors is the one of kernel/mm/page_alloc.c with hmap[0] .. hmap_end for the descriptors of a
zone and high_area for its free areas. So its functions are those of PageAlloc, taken at a layout with the window as its only
zone. A `high_map_t *` is an index into hmap. `none` is a BUG_ON that fires, or a store outside of the page tables.

- `mappings_reachable`: with page tables for the whole window, in every reachable state the entries of a live mapping map
  its pages, live mappings are disjoint blocks of the window that the allocator keeps, calls return, and an unmap leaves
  the page tables and the other mappings as they are.
-/
import SinsOs.Mm.BuddyRun
import SinsOs.Mm.Paging

namespace SinsOs.HighMem

open SinsOs.Core SinsOs.Bits SinsOs.Mm SinsOs.Dyadic SinsOs.PageAlloc SinsOs.Paging

/-! ## Model: the descriptors -/

def windowChain (t : ℕ) : List ℕ := if t = zoneHighmem then [0] else []

theorem mem_windowChain {t z : ℕ} (h : z ∈ windowChain t) : t = zoneHighmem ∧ z = 0 := by
  unfold windowChain at h
  split_ifs at h with h1
  · exact ⟨h1, by simpa using h⟩
  · simp at h

theorem windowChain_types (t : ℕ) (ht : nrZoneTypes ≤ t) : windowChain t = [] := by
  rw [windowChain, if_neg]
  rintro rfl
  exact absurd ht (by decide)

theorem windowChain_nodup (t : ℕ) : (windowChain t).Nodup := by
  unfold windowChain
  split_ifs <;> simp

theorem window_in_type (t z : ℕ) (h : z ∈ windowChain t) (a : Word)
    (ha : (⟨zoneNormalLimit, zoneHighmemSize, 0, nrHighMap⟩ : MemZone).Holds a.toNat) : zoneTypeOf a = t := by
  obtain ⟨rfl, rfl⟩ := mem_windowChain h
  simp only [MemZone.Holds, zoneNormalLimit, BitVec.toNat_ofNat] at ha
  simp only [zoneTypeOf, zoneDmaLimit, zoneNormalLimit, BitVec.lt_def, BitVec.toNat_ofNat]
  rw [if_neg (by omega), if_neg (by omega)]

/-- hmap[0] .. hmap_end as the descriptors of a zone -/
def window : Layout where
  zone := fun _ => ⟨zoneNormalLimit, zoneHighmemSize, 0, nrHighMap⟩
  chain := windowChain
  types := windowChain_types
  nodup := windowChain_nodup
  one_type := by intro t t' z h h'; rw [(mem_windowChain h).1, (mem_windowChain h').1]
  base_dvd := by intro t z h; decide
  size_dvd := by intro t z h; decide
  no_wrap := by intro t z h; decide
  in_type := window_in_type
  descriptors := by intro t z h; decide
  mmap_apart := by
    intro t z h t' z' h' hne
    exact absurd ((mem_windowChain h).2.trans (mem_windowChain h').2.symm) hne
  phys_apart := by
    intro t z h t' z' h' hne
    exact absurd ((mem_windowChain h).2.trans (mem_windowChain h').2.symm) hne

def addToHighArea (m : St) (hmap order : ℕ) : Option St := addToFreeArea m 0 hmap order

/-- init_high_area and build_buddy_system, from the zeroed pages highmem_init gets -/
def highmemInit (m : St) : Option St := buildZoneBuddySystem window m 0

/-- the descriptor is `none` where alloc_high_map returns NULL -/
def allocHighMap (m : St) (order : ℕ) : Option (Option ℕ × St) :=
  if maxOrder < order then some (none, m)
  else match searchZone m 0 order (List.range' order (maxOrder + 1 - order)) with
    | none => none
    | some none => some (none, m)
    | some (some (fetch, m')) => if m'.mmapTestPrivate fetch then some (some fetch, m') else none

def deallocHighMap (m : St) (hmap order : ℕ) : Option St :=
  if !m.mmapTestUsed hmap then none
  else if maxOrder < order then none
  else
    let r := mergeLoop window (m.mmapClearUsed hmap) 0 hmap order
    addToHighArea r.1 r.2.1 r.2.2

def hmapToVirt (map : ℕ) : Option Word :=
  if nrHighMap ≤ map then none else some (pageOffset + zoneNormalLimit + BitVec.ofNat 32 map * pageSize)

/-- the index virt_to_hmap computes -/
def hmapIndex (addr : Word) : ℕ := ((addr - pageOffset - zoneNormalLimit) / pageSize).toNat

def virtToHmap (addr : Word) : Option ℕ := if addr < pageOffset + zoneNormalLimit then none else some (hmapIndex addr)

/-! ## Model: the page tables -/

instance (P : State) (a : Word) (n : ℕ) : Decidable (P.Inside a n) := by unfold State.Inside; infer_instance

/-- the place of an address in [__kernel_pgt_base, __kernel_pgt_end) -/
def indexOf (P : State) (a : Word) : Option ℕ := if P.Inside a 4 then some ((a - P.pgtBase) / sizeofPgt).toNat else none

def store (P : State) (pgt : ℕ → Word) (a e : Word) : Option (ℕ → Word) := (indexOf P a).map fun k => put pgt k e

/-- the page table entry the processor finds for a virtual address -/
def pteOf (P : State) (pgt : ℕ → Word) (v : Word) : Option Word :=
  let pgd := P.dir (pgdIndex v).toNat
  if pgtPresent pgd then (indexOf P (va (pgdPage pgd) + sizeofPgt * pgtIndex v)).map pgt else none

/-- the loop of kmap and ioremap: `*hmap[i].entry = mk_pgt(phys, ..); phys += PAGE_SIZE` -/
def mapLoop (P : State) (hmap stop i : ℕ) (phys : Word) (pgt : ℕ → Word) : Option (ℕ → Word) :=
  if i < stop then
    (store P pgt (P.entry (hmap + i)) (mkPgt phys (pagePresent ||| pageRw))).bind
      (mapLoop P hmap stop (i + 1) (phys + pageSize))
  else some pgt
termination_by stop - i

/-! ## Model: the calls -/

/-- what kmap and ioremap share: a block of descriptors, its entries, its address; the address is `none` for NULL -/
def mapBlock (P : State) (m : St) (pgt : ℕ → Word) (phys : Word) (order : ℕ) :
    Option (Option Word × St × (ℕ → Word)) :=
  (allocHighMap m order).bind fun r =>
    match r.1 with
    | none => some (none, r.2, pgt)
    | some hmap => (mapLoop P hmap (2 ^ order) 0 phys pgt).bind fun pgt' => (hmapToVirt hmap).map fun v => (some v, r.2, pgt')

def kmap (L : Layout) (P : State) (m : St) (pgt : ℕ → Word) (page order : ℕ) :
    Option (Option Word × St × (ℕ → Word)) :=
  (L.pageToPhys page).bind fun phys => mapBlock P m pgt phys order

def kunmap (m : St) (mapped : Word) (order : ℕ) : Option St := (virtToHmap mapped).bind fun hmap => deallocHighMap m hmap order

def ioremap (P : State) (m : St) (pgt : ℕ → Word) (addr size : Word) : Option (Option Word × St × (ℕ → Word)) :=
  if pageAlign addr ≠ addr then none else mapBlock P m pgt addr (getOrder size).toNat

def iounmap (m : St) (mapped size : Word) : Option St := kunmap m mapped (getOrder size).toNat

/-- an address kmap or ioremap returned, the physical address it was called for, and the order -/
structure Mapping where
  virt : Word
  phys : Word
  order : ℕ
deriving DecidableEq, Repr

/-- the descriptors, the words of the page tables, and the mappings the callers hold -/
structure Sys where
  hm : St
  pgt : ℕ → Word
  live : List Mapping

inductive Op
  | kmap (page order : ℕ)
  | ioremap (addr size : Word)
  | kunmap (mapped : Word) (order : ℕ)
  | iounmap (mapped size : Word)
deriving DecidableEq, Repr

def Sys.mapped (s : Sys) (phys : Word) (order : ℕ) (r : Option Word × St × (ℕ → Word)) : Sys :=
  ⟨r.2.1, r.2.2, match r.1 with
    | none => s.live
    | some v => ⟨v, phys, order⟩ :: s.live⟩

def Sys.unmapped (s : Sys) (mapped : Word) (m : St) : Sys :=
  ⟨m, s.pgt, s.live.filter fun x => x.virt ≠ mapped⟩

/-- an unmap gets a live mapping and its order -/
def legal (s : Sys) : Op → Prop
  | .kmap _ _ => True
  | .ioremap _ _ => True
  | .kunmap mapped order => ∃ x ∈ s.live, x.virt = mapped ∧ x.order = order
  | .iounmap mapped size => ∃ x ∈ s.live, x.virt = mapped ∧ x.order = (getOrder size).toNat

def step (L : Layout) (P : State) (s : Sys) : Op → Option Sys
  | .kmap page order => (L.pageToPhys page).bind fun phys => (kmap L P s.hm s.pgt page order).map (s.mapped phys order)
  | .ioremap addr size => (ioremap P s.hm s.pgt addr size).map (s.mapped addr (getOrder size).toNat)
  | .kunmap mapped order => (kunmap s.hm mapped order).map (s.unmapped mapped)
  | .iounmap mapped size => (iounmap s.hm mapped size).map (s.unmapped mapped)

/-- after highmem_init, whatever the page tables hold -/
def Initial (s : Sys) : Prop := (∃ m, Blank window m 0 ∧ highmemInit m = some s.hm) ∧ s.live = []

def system (L : Layout) (P : State) : Lts Sys Op where
  start := Initial
  step := fun s o s' => legal s o ∧ step L P s o = some s'

/-! ## The window -/

theorem window_mem : 0 ∈ window.all := by decide

theorem window_all {z : ℕ} (h : z ∈ window.all) : z = 0 := by
  obtain ⟨t, ht⟩ := window.mem_all.1 h
  exact (mem_windowChain ht).2

theorem window_pages : window.pages 0 = 32768 := by decide

theorem window_base : window.base 0 = 0 := rfl

variable {j k : ℕ} {v : Word}

theorem hmapToVirt_some (h : hmapToVirt j = some v) : j < 32768 ∧ v.toNat = 0xF8000000 + 4096 * j := by
  have hn : nrHighMap = 32768 := by decide
  have hbase : (pageOffset + zoneNormalLimit).toNat = 0xF8000000 := by decide
  have hsize : pageSize.toNat = 4096 := by decide
  rw [hmapToVirt, hn] at h
  split_ifs at h with hj
  cases h
  refine ⟨by omega, ?_⟩
  rw [BitVec.toNat_add, BitVec.toNat_mul, BitVec.toNat_ofNat, hbase, hsize, Nat.mod_eq_of_lt (a := j) (by omega),
    Nat.mod_eq_of_lt (a := j * 4096) (by omega), Nat.mod_eq_of_lt (by omega), Nat.mul_comm]

/-- virt_to_hmap inverts hmap_to_virt -/
theorem virtToHmap_eq (h : hmapToVirt j = some v) : hmapIndex v = j ∧ virtToHmap v = some j := by
  obtain ⟨hj, hv⟩ := hmapToVirt_some h
  have hbase : (pageOffset + zoneNormalLimit).toNat = 0xF8000000 := by decide
  have hsize : pageSize.toNat = 4096 := by decide
  have hsub : (v - pageOffset - zoneNormalLimit).toNat = 4096 * j := by
    rw [BitVec.sub_sub, BitVec.toNat_sub_of_le (BitVec.le_def.2 (by omega)), hv, hbase]
    omega
  have hindex : hmapIndex v = j := by
    rw [hmapIndex, BitVec.toNat_udiv, hsub, hsize]
    omega
  exact ⟨hindex, by rw [virtToHmap, if_neg (BitVec.not_lt.2 (BitVec.le_def.2 (by omega))), hindex]⟩

theorem dvd_of_pageAlign {addr : Word} (h : pageAlign addr = addr) : 4096 ∣ addr.toNat := by
  rw [← h, pageAlign_toNat]
  exact Nat.dvd_mul_left _ _

/-- the pages of a block of descriptors, one after the other -/
theorem virt_add {i : ℕ} (h : hmapToVirt j = some v) (hi : j + i < 32768) :
    (v + BitVec.ofNat 32 i * pageSize).toNat = 0xF8000000 + 4096 * (j + i) := by
  have hv := (hmapToVirt_some h).2
  have hsize : pageSize.toNat = 4096 := by decide
  rw [BitVec.toNat_add, BitVec.toNat_mul, BitVec.toNat_ofNat, hsize, hv, Nat.mod_eq_of_lt (a := i) (by omega),
    Nat.mod_eq_of_lt (a := i * 4096) (by omega), Nat.mod_eq_of_lt (by omega)]
  omega

/-! ## The entries of the window -/

section Entries

variable {img : Image} {limit : BitVec 64} {P : State} {pgt : ℕ → Word}

/-- the tables cover the kernel entries of the directory -/
theorem indexOf_eq (hb : Built img limit P) (hfull : lowTables limit = 224) {a : Word} (hk : k < 262144)
    (ha : a.toNat = P.pgtBase.toNat + 4 * k) : indexOf P a = some k := by
  have he := hb.pgtEnd
  have h4 : sizeofPgt.toNat = 4 := by decide
  rw [indexOf, if_pos ⟨by omega, by omega⟩, BitVec.toNat_udiv, BitVec.toNat_sub_of_le (BitVec.le_def.2 (by omega)), ha, h4]
  congr 1
  omega

theorem store_entry (hb : Built img limit P) (hfull : lowTables limit = 224) (hj : j < 32768) (e : Word) :
    store P pgt (P.entry j) e = some (put pgt (229376 + j) e) := by
  have hentry := hb.entry_toNat hj
  rw [store, indexOf_eq hb hfull (k := 229376 + j) (by omega) (by omega), Option.map_some]

/-- the entry of high_map[j] is the one the processor uses for the address of high_map[j] -/
theorem pteOf_window (hb : Built img limit P) (hfull : lowTables limit = 224) (hj : j < 32768)
    (hv : v.toNat = 0xF8000000 + 4096 * j) : pteOf P pgt v = some (pgt (229376 + j)) := by
  obtain ⟨-, hge, hle⟩ := img.kernelPageDir_spec
  have hbase := hb.base
  have hdir : (pgdIndex v).toNat = 768 + (224 + j / 1024) := by
    rw [pgdIndex_toNat, hv]
    omega
  have hindex : (pgtIndex v).toNat = j % 1024 := by
    rw [pgtIndex_toNat, hv]
    omega
  have h4 : sizeofPgt.toNat = 4 := by decide
  have hslot : (tableAt P.pgtBase (224 + j / 1024) + sizeofPgt * pgtIndex v).toNat =
      P.pgtBase.toNat + 4 * (229376 + j) := by
    rw [BitVec.toNat_add, BitVec.toNat_mul, hb.tableAt_toNat (by omega), hindex, h4,
      Nat.mod_eq_of_lt (a := 4 * (j % 1024)) (by omega), Nat.mod_eq_of_lt (by omega)]
    omega
  have hpresent : pgtPresent (P.dir (768 + (224 + j / 1024))) = true :=
    (hb.present_iff (by simp only [ptrsPerPgd]; omega)).2 ⟨_, by omega, rfl⟩
  simp only [pteOf, hdir, hpresent, if_true]
  rw [hb.points (by omega), indexOf_eq hb hfull (k := 229376 + j) (by omega) hslot, Option.map_some]

/-- the loop fills the entries of its descriptors and no others -/
theorem mapLoop_eq (hb : Built img limit P) (hfull : lowTables limit = 224) {hmap stop : ℕ} (hin : hmap + stop ≤ 32768)
    (i : ℕ) (phys : Word) (pgt : ℕ → Word) (hi : i ≤ stop) :
    ∃ pgt', mapLoop P hmap stop i phys pgt = some pgt' ∧
      (∀ d, i + d < stop → pgt' (229376 + (hmap + (i + d))) =
        mkPgt (phys + BitVec.ofNat 32 d * pageSize) (pagePresent ||| pageRw)) ∧
      ∀ n, (n < 229376 + (hmap + i) ∨ 229376 + (hmap + stop) ≤ n) → pgt' n = pgt n := by
  induction hd : stop - i generalizing i phys pgt with
  | zero =>
    refine ⟨pgt, by rw [mapLoop, if_neg (by omega)], fun d hd' => absurd hd' (by omega), fun n _ => rfl⟩
  | succ m ih =>
    have hlt : i < stop := by omega
    obtain ⟨pgt', hrun, hfill, hkeep⟩ := ih (i + 1) (phys + pageSize)
      (put pgt (229376 + (hmap + i)) (mkPgt phys (pagePresent ||| pageRw))) (by omega) (by omega)
    refine ⟨pgt', ?_, fun d hd' => ?_, fun n hn => ?_⟩
    · rw [mapLoop, if_pos hlt, store_entry hb hfull (by omega), Option.bind_some, hrun]
    · cases d with
      | zero =>
        rw [Nat.add_zero, hkeep _ (Or.inl (by omega)), put_self]
        simp
      | succ d =>
        have hnext : phys + pageSize + BitVec.ofNat 32 d * pageSize = phys + BitVec.ofNat 32 (d + 1) * pageSize := by
          rw [BitVec.ofNat_add, BitVec.add_mul, BitVec.add_assoc, BitVec.add_comm pageSize]
          simp
        rw [show i + (d + 1) = i + 1 + d by omega, hfill d (by omega), hnext]
    · rw [hkeep n (by omega), put_ne _ _ (by omega)]

end Entries

/-! ## The allocator of descriptors -/

section Blocks

variable {m : St} {l l' : List (ℕ × ℕ)}

/-- alloc_high_map is alloc_pages on the window: what it takes is a head, so its BUG_ON does not fire -/
theorem allocHighMap_eq (hi : BuddyRun.Inv window ⟨m, l⟩) (order : ℕ) :
    allocHighMap m order = allocPages window m zoneHighmem order := by
  have hchain : window.chain zoneHighmem = [0] := by decide
  obtain ⟨t, hr, -⟩ := hi.zones 0 window_mem
  rw [allocHighMap, allocPages, if_neg (by decide : ¬ nrZoneTypes ≤ zoneHighmem), hchain]
  split_ifs with ho
  · rfl
  · have hle : ∀ k ∈ List.range' order (maxOrder + 1 - order), order ≤ k := fun k hk => (List.mem_range'_1.1 hk).1
    rw [searchZones]
    rcases hr.searchZone order _ hle with ⟨he, -⟩ | ⟨h, m', t', he, hk⟩
    · rw [he]
      rfl
    · have hhead : m'.mmapTestPrivate (window.base 0 + h) = true := by
        rw [hk.rep.heads h (t'.lt_of_ord hk.head), hk.head]
        rfl
      simp only [he, hhead, if_true]

theorem deallocHighMap_eq (m : St) (hj : j < 32768) (order : ℕ) :
    deallocHighMap m j order = deallocPages window m j order := by
  have hzone : window.pageToZone j = some 0 := by
    have := window.pageToZone_eq window_mem (o := j) (by rw [window_pages]; exact hj)
    rwa [window_base, Nat.zero_add] at this
  rw [deallocHighMap, deallocPages, hzone]
  rfl

/-- the order of the callers' list does not matter -/
theorem Inv.perm (hi : BuddyRun.Inv window ⟨m, l⟩) (hmem : ∀ b, b ∈ l' ↔ b ∈ l) (hnd : l'.Nodup) :
    BuddyRun.Inv window ⟨m, l'⟩ where
  zones := by
    intro z hz
    obtain ⟨t, hr, hh⟩ := hi.zones z hz
    exact ⟨t, hr, fun o ho k => (hmem _).trans (hh o ho k)⟩
  inZone := fun p k hin => hi.inZone p k ((hmem _).1 hin)
  nodup := hnd

/-- the allocator keeps a block: its head is used, and no free block overlaps it -/
structure Reserved (m : St) (j k : ℕ) : Prop where
  used : m.mmapTestUsed j = true
  apart : ∀ k', ∀ p ∈ (m.freeArea 0 k').list, p + 2 ^ k' ≤ j ∨ j + 2 ^ k ≤ p

theorem reserved_of_live (hi : BuddyRun.Inv window ⟨m, l⟩) (h : (j, k) ∈ l) : Reserved m j k ∧ j + 2 ^ k ≤ 32768 := by
  obtain ⟨z, hz, o, hj, t, hr, -, ho, hu⟩ := hi.block h
  obtain rfl := window_all hz
  rw [window_base, Nat.zero_add] at hj hu
  obtain rfl := hj
  have hin := t.inside j k ho
  rw [window_pages] at hin
  refine ⟨⟨hu, fun k' p hp => ?_⟩, hin⟩
  obtain ⟨o, rfl, ho', hfree, -⟩ := (hr.listed k' p).1 hp
  rw [window_base, Nat.zero_add] at hfree ⊢
  rcases Nat.lt_trichotomy o j with hlt | rfl | hgt
  · exact Or.inl (t.apart o k' j k ho' ho hlt)
  · rw [hu] at hfree
    cases hfree
  · exact Or.inr (t.apart j k o k' ho ho' hgt)

end Blocks

/-! ## Invariant -/

theorem mem_unmapped {s : Sys} {m : St} {x : Mapping} : x ∈ (s.unmapped v m).live ↔ x ∈ s.live ∧ x.virt ≠ v := by
  simp [Sys.unmapped]

/-- the descriptor and the order of a mapping -/
def Mapping.block (x : Mapping) : ℕ × ℕ := (hmapIndex x.virt, x.order)

structure Inv (s : Sys) : Prop where
  blocks : BuddyRun.Inv window ⟨s.hm, s.live.map Mapping.block⟩
  virt : ∀ x ∈ s.live, hmapToVirt (hmapIndex x.virt) = some x.virt
  aligned : ∀ x ∈ s.live, 4096 ∣ x.phys.toNat
  entries : ∀ x ∈ s.live, ∀ i < 2 ^ x.order,
    s.pgt (229376 + (hmapIndex x.virt + i)) = mkPgt (x.phys + BitVec.ofNat 32 i * pageSize) (pagePresent ||| pageRw)

theorem start_inv {s : Sys} (h : Initial s) : Inv s := by
  obtain ⟨⟨m, hm, he⟩, hl⟩ := h
  have hboot : BuddyRun.Booted window ⟨s.hm, s.live.map Mapping.block⟩ := by
    refine ⟨⟨m, fun z hz => window_all hz ▸ hm, ?_⟩, by simp [hl]⟩
    have hall : window.all = [0] := by decide
    rw [highmemInit] at he
    simp [hall, buildZones, he]
  exact ⟨BuddyRun.boot_inv hboot, by simp [hl], by simp [hl], by simp [hl]⟩

section Step

variable {img : Image} {limit : BitVec 64} {P : State} {L : Layout} {s s' : Sys}

/-- two live mappings of one descriptor are the same block -/
theorem Inv.block_eq (hi : Inv s) {x y : Mapping} (hx : x ∈ s.live) (hy : y ∈ s.live)
    (h : hmapIndex x.virt = hmapIndex y.virt) : x.block = y.block := by
  by_contra hne
  have hap := BuddyRun.live_apart hi.blocks (List.mem_map_of_mem hx) (List.mem_map_of_mem hy) hne
  have hpx := Nat.two_pow_pos x.order
  have hpy := Nat.two_pow_pos y.order
  simp only [h] at hap
  omega

theorem mapBlock_spec (hb : Built img limit P) (hfull : lowTables limit = 224) (hi : Inv s) {phys : Word}
    (hphys : 4096 ∣ phys.toNat) (order : ℕ) :
    ∃ r, mapBlock P s.hm s.pgt phys order = some r ∧ Inv (s.mapped phys order r) := by
  obtain ⟨⟨fetched, m'⟩, halloc, -⟩ := BuddyRun.alloc_null hi.blocks order (by decide : zoneHighmem < nrZoneTypes)
  have htook : BuddyRun.step window ⟨s.hm, s.live.map Mapping.block⟩ (.alloc zoneHighmem order) =
      some (BuddyRun.Sys.took ⟨s.hm, s.live.map Mapping.block⟩ order (fetched, m')) := by
    rw [BuddyRun.step, halloc, Option.map_some]
  have hstep := BuddyRun.alloc_inv hi.blocks htook
  simp only [mapBlock, allocHighMap_eq hi.blocks, halloc, Option.bind_some]
  cases fetched with
  | none => exact ⟨_, rfl, hstep, hi.virt, hi.aligned, hi.entries⟩
  | some hmap =>
    have hnew : (hmap, order) ∈ (hmap, order) :: s.live.map Mapping.block := List.mem_cons_self
    have hin := (reserved_of_live hstep hnew).2
    have hpos := Nat.two_pow_pos order
    have hn : nrHighMap = 32768 := by decide
    obtain ⟨v, hv⟩ : ∃ v, hmapToVirt hmap = some v := ⟨_, by rw [hmapToVirt, if_neg (by omega)]⟩
    obtain ⟨hindex, -⟩ := virtToHmap_eq hv
    obtain ⟨pgt', hloop, hfill, hkeep⟩ := mapLoop_eq hb hfull hin 0 phys s.pgt (Nat.zero_le _)
    simp only [hloop, hv, Option.bind_some, Option.map_some]
    refine ⟨_, rfl, ?_, ?_, ?_, ?_⟩
    · have hblock : Mapping.block ⟨v, phys, order⟩ = (hmap, order) := by rw [Mapping.block, hindex]
      simpa only [Sys.mapped, List.map_cons, hblock, BuddyRun.Sys.took] using hstep
    · intro x hx
      rcases List.mem_cons.1 hx with rfl | hx
      · rw [hindex, hv]
      · exact hi.virt x hx
    · intro x hx
      rcases List.mem_cons.1 hx with rfl | hx
      · exact hphys
      · exact hi.aligned x hx
    · intro x hx i hlt
      rcases List.mem_cons.1 hx with rfl | hx
      · have hentry := hfill i (by rw [Nat.zero_add]; exact hlt)
        rwa [Nat.zero_add, ← hindex] at hentry
      · -- the new block is apart from the blocks of the others
        have hfresh := (List.nodup_cons.1 hstep.nodup).1
        have hne : (hmap, order) ≠ x.block := fun he => hfresh (he ▸ List.mem_map_of_mem hx)
        have hap : hmap + 2 ^ order ≤ hmapIndex x.virt ∨ hmapIndex x.virt + 2 ^ x.order ≤ hmap :=
          BuddyRun.live_apart hstep hnew (List.mem_cons_of_mem _ (List.mem_map_of_mem hx)) hne
        exact (hkeep _ (by omega)).trans (hi.entries x hx i hlt)

/-- kunmap of a live mapping returns and forgets this mapping only -/
theorem kunmap_spec (hi : Inv s) {x : Mapping} (hx : x ∈ s.live) :
    ∃ m, kunmap s.hm x.virt x.order = some m ∧ Inv (s.unmapped x.virt m) := by
  have hblock : x.block ∈ s.live.map Mapping.block := List.mem_map_of_mem hx
  obtain ⟨hj, -⟩ := hmapToVirt_some (hi.virt x hx)
  have hret := BuddyRun.dealloc_returns hi.blocks hblock
  obtain ⟨m, hm⟩ := Option.isSome_iff_exists.1 hret
  have hgave : BuddyRun.step window ⟨s.hm, s.live.map Mapping.block⟩ (.dealloc (hmapIndex x.virt) x.order) =
      some ⟨m, (s.live.map Mapping.block).erase x.block⟩ := by
    rw [BuddyRun.step]
    exact congrArg _ hm
  have hinv := BuddyRun.dealloc_inv hi.blocks hblock hgave
  refine ⟨m, ?_, ?_, ?_, ?_, ?_⟩
  · rw [kunmap, (virtToHmap_eq (hi.virt x hx)).2, Option.bind_some, deallocHighMap_eq _ hj]
    exact hm
  · refine Inv.perm hinv (fun b => ?_) (hi.blocks.nodup.sublist (List.Sublist.map _ List.filter_sublist))
    have hsame : ∀ y ∈ s.live, y.virt = x.virt ↔ y.block = x.block := by
      intro y hy
      constructor
      · intro h
        exact hi.block_eq hy hx (by rw [h])
      · intro h
        have hindex : hmapIndex y.virt = hmapIndex x.virt := congrArg Prod.fst h
        have hvirt := hi.virt y hy
        rw [hindex, hi.virt x hx] at hvirt
        exact (Option.some.inj hvirt).symm
    rw [hi.blocks.nodup.mem_erase_iff]
    simp only [List.mem_map, mem_unmapped]
    constructor
    · rintro ⟨y, ⟨hy, hne⟩, rfl⟩
      exact ⟨fun he => hne ((hsame y hy).2 he), y, hy, rfl⟩
    · rintro ⟨hne, y, hy, rfl⟩
      exact ⟨y, ⟨hy, fun he => hne ((hsame y hy).1 he)⟩, rfl⟩
  · exact fun y hy => hi.virt y (mem_unmapped.1 hy).1
  · exact fun y hy => hi.aligned y (mem_unmapped.1 hy).1
  · exact fun y hy => hi.entries y (mem_unmapped.1 hy).1

theorem step_inv (hb : Built img limit P) (hfull : lowTables limit = 224) {o : Op} (hi : Inv s)
    (hs : (system L P).step s o s') : Inv s' := by
  obtain ⟨hl, hs⟩ := hs
  cases o with
  | kmap page order =>
    obtain ⟨phys, hphys, hs⟩ := Option.bind_eq_some_iff.1 hs
    obtain ⟨r, hr, hinv⟩ := mapBlock_spec hb hfull hi (L.pageToPhys_dvd hphys) order
    rw [kmap, hphys, Option.bind_some, hr] at hs
    cases hs
    exact hinv
  | ioremap addr size =>
    obtain ⟨r', hr', rfl⟩ := Option.map_eq_some_iff.1 hs
    rw [ioremap] at hr'
    split_ifs at hr' with haddr
    obtain ⟨r, hr, hinv⟩ := mapBlock_spec hb hfull hi (dvd_of_pageAlign (not_not.1 haddr)) (getOrder size).toNat
    rw [hr] at hr'
    cases hr'
    exact hinv
  | kunmap mapped order =>
    obtain ⟨x, hx, rfl, rfl⟩ := hl
    obtain ⟨m, hm, hinv⟩ := kunmap_spec hi hx
    rw [step, hm] at hs
    cases hs
    exact hinv
  | iounmap mapped size =>
    obtain ⟨x, hx, rfl, horder⟩ := hl
    obtain ⟨m, hm, hinv⟩ := kunmap_spec hi hx
    rw [step, iounmap, ← horder, hm] at hs
    cases hs
    exact hinv

theorem reach_inv (hb : Built img limit P) (hfull : lowTables limit = 224) (h : (system L P).Reach s) : Inv s :=
  h.inv (fun _ => start_inv) fun _ _ _ hi hs => step_inv hb hfull hi hs

/-! ## Live mappings -/

/-- the size of a mapping -/
def Mapping.bytes (x : Mapping) : ℕ := 4096 * 2 ^ x.order

structure Mapping.Good (P : State) (s : Sys) (x : Mapping) : Prop where
  /-- the processor finds the pages of the mapping, in order -/
  ptes : ∀ i < 2 ^ x.order, ∃ e, pteOf P s.pgt (x.virt + BitVec.ofNat 32 i * pageSize) = some e ∧
    pgtPresent e = true ∧ pgdPage e = x.phys + BitVec.ofNat 32 i * pageSize
  window : (pageOffset + zoneNormalLimit).toNat ≤ x.virt.toNat ∧
    x.virt.toNat + x.bytes ≤ (pageOffset + zoneNormalLimit).toNat + zoneHighmemSize.toNat
  reserved : Reserved s.hm (hmapIndex x.virt) x.order

/-- two mappings have no address in common -/
def Mapping.Apart (x y : Mapping) : Prop :=
  x.virt.toNat + x.bytes ≤ y.virt.toNat ∨ y.virt.toNat + y.bytes ≤ x.virt.toNat

/-- the mapping an unmap is for -/
def Op.unmaps : Op → Option Word
  | .kunmap mapped _ => some mapped
  | .iounmap mapped _ => some mapped
  | _ => none

/-- a page of the machine, or a page-aligned address -/
def Op.Sane (L : Layout) : Op → Prop
  | .kmap page _ => (L.pageToPhys page).isSome
  | .ioremap addr _ => pageAlign addr = addr
  | _ => True

theorem Inv.good (hb : Built img limit P) (hfull : lowTables limit = 224) (hi : Inv s) {x : Mapping} (hx : x ∈ s.live) :
    x.Good P s := by
  obtain ⟨hreserved, hin⟩ := reserved_of_live hi.blocks (List.mem_map_of_mem hx)
  obtain ⟨hj, hv⟩ := hmapToVirt_some (hi.virt x hx)
  have hbase : (pageOffset + zoneNormalLimit).toNat = 0xF8000000 := by decide
  have hsize : zoneHighmemSize.toNat = 0x8000000 := by decide
  refine ⟨fun i hlt => ?_, ?_, hreserved⟩
  · have hpage : pageSize.toNat = 4096 := by decide
    have hdvd := hi.aligned x hx
    have hin : hmapIndex x.virt + i < 32768 := by omega
    have hpte : pteOf P s.pgt _ = some _ := pteOf_window hb hfull hin (virt_add (hi.virt x hx) hin)
    rw [hi.entries x hx i hlt] at hpte
    refine ⟨_, hpte, pgtPresent_mkPgt _, pgdPage_mkPgt ?_⟩
    rw [BitVec.toNat_add, BitVec.toNat_mul, hpage]
    omega
  · rw [hbase, hsize, Mapping.bytes]
    omega

theorem Inv.apart (hi : Inv s) : s.live.Pairwise Mapping.Apart := by
  refine List.Pairwise.imp_of_mem ?_ (List.pairwise_map.1 hi.blocks.nodup)
  intro x y hx hy hne
  have hap : hmapIndex x.virt + 2 ^ x.order ≤ hmapIndex y.virt ∨ hmapIndex y.virt + 2 ^ y.order ≤ hmapIndex x.virt :=
    BuddyRun.live_apart hi.blocks (List.mem_map_of_mem hx) (List.mem_map_of_mem hy) hne
  have hvx := (hmapToVirt_some (hi.virt x hx)).2
  have hvy := (hmapToVirt_some (hi.virt y hy)).2
  rw [Mapping.Apart, Mapping.bytes, Mapping.bytes]
  omega

theorem step_returns (hb : Built img limit P) (hfull : lowTables limit = 224) (hi : Inv s) {o : Op} (hl : legal s o)
    (hsane : o.Sane L) : (step L P s o).isSome := by
  cases o with
  | kmap page order =>
    obtain ⟨phys, hphys⟩ := Option.isSome_iff_exists.1 hsane
    obtain ⟨r, hr, -⟩ := mapBlock_spec hb hfull hi (L.pageToPhys_dvd hphys) order
    simp [step, kmap, hphys, hr]
  | ioremap addr size =>
    have haddr : pageAlign addr = addr := hsane
    obtain ⟨r, hr, -⟩ := mapBlock_spec hb hfull hi (dvd_of_pageAlign haddr) (getOrder size).toNat
    have hmap : ioremap P s.hm s.pgt addr size = some r := by rw [ioremap, if_neg (not_not.2 haddr), hr]
    rw [step, hmap]
    rfl
  | kunmap mapped order =>
    obtain ⟨x, hx, rfl, rfl⟩ := hl
    obtain ⟨m, hm, -⟩ := kunmap_spec hi hx
    rw [step, hm]
    rfl
  | iounmap mapped size =>
    obtain ⟨x, hx, rfl, horder⟩ := hl
    obtain ⟨m, hm, -⟩ := kunmap_spec hi hx
    rw [step, iounmap, ← horder, hm]
    rfl

/-- an unmap takes one address from the callers and leaves the page tables -/
theorem unmap_frame {o : Op} {mapped : Word} (ho : o.unmaps = some mapped) (hs : step L P s o = some s') :
    s'.pgt = s.pgt ∧ ∀ y ∈ s.live, y.virt ≠ mapped → y ∈ s'.live := by
  have hunmapped : ∃ m, s' = s.unmapped mapped m := by
    cases o with
    | kmap page order => cases ho
    | ioremap addr size => cases ho
    | kunmap v order =>
      cases ho
      obtain ⟨m, -, rfl⟩ := Option.map_eq_some_iff.1 hs
      exact ⟨m, rfl⟩
    | iounmap v size =>
      cases ho
      obtain ⟨m, -, rfl⟩ := Option.map_eq_some_iff.1 hs
      exact ⟨m, rfl⟩
  obtain ⟨m, rfl⟩ := hunmapped
  exact ⟨rfl, fun y hy hne => mem_unmapped.2 ⟨hy, hne⟩⟩

end Step

/-- a memory limit of ZONE_NORMAL_LIMIT gives the window its page tables -/
theorem lowTables_of_limit {limit : BitVec 64} (h : zoneNormalLimit.setWidth 64 ≤ limit) : lowTables limit = 224 := by
  have hz : (zoneNormalLimit.setWidth 64).toNat = 0x38000000 := by decide
  have hle := BitVec.le_def.1 h
  rw [lowTables_full, usableLimit]
  split_ifs
  · decide
  · omega

/-- **Mappings are exact and keep apart.** With page tables for the window, in every reachable state every live mapping
translates page by page to its physical range, lies in the window and is reserved; the live ranges are pairwise disjoint;
the calls return; and an unmap changes no entry and leaves every other mapping live, translated and reserved. -/
theorem mappings_reachable {img : Image} {dir pgt : ℕ → Word} {limit : BitVec 64} {P : State} {L : Layout} {s : Sys}
    (h : pagingInit img dir pgt limit = some P) (hlimit : zoneNormalLimit.setWidth 64 ≤ limit)
    (hr : (system L P).Reach s) :
    (∀ x ∈ s.live, x.Good P s) ∧
    s.live.Pairwise Mapping.Apart ∧
    (∀ o, legal s o → o.Sane L → (step L P s o).isSome) ∧
    ∀ o mapped s', o.unmaps = some mapped → (system L P).step s o s' →
      s'.pgt = s.pgt ∧ ∀ y ∈ s.live, y.virt ≠ mapped → y ∈ s'.live ∧ y.Good P s' := by
  have hb := pagingInit_built h
  have hfull := lowTables_of_limit hlimit
  have hi := reach_inv hb hfull hr
  refine ⟨fun x hx => hi.good hb hfull hx, hi.apart, fun o hl hsane => step_returns hb hfull hi hl hsane, ?_⟩
  intro o mapped s' ho hs
  obtain ⟨hpgt, hkeep⟩ := unmap_frame ho hs.2
  have hi' := step_inv hb hfull hi hs
  exact ⟨hpgt, fun y hy hne => ⟨hkeep y hy hne, hi'.good hb hfull (hkeep y hy hne)⟩⟩

/-! ## Two pages of normal memory -/

def idle : Sys := ⟨(highmemInit BuddyRun.blank).get (by decide +kernel), fun _ => 0#32, []⟩

theorem initial_idle : Initial idle :=
  ⟨⟨BuddyRun.blank, ⟨fun _ _ => rfl, fun _ _ => rfl⟩, by simp [idle]⟩, rfl⟩

/-- the free lists are last in, first out: the last 256 descriptors are halved for the first page -/
theorem idle_fetches : ((allocHighMap idle.hm 0).bind fun r => (allocHighMap r.2 0).bind fun r2 =>
    (deallocHighMap r2.2 32512 0).map fun _ => (r.1, r2.1)) = some (some 32512, some 32513) := by decide +kernel

/-- kmap of one page -/
theorem kmap_page {img : Image} {limit : BitVec 64} {P : State} {L : Layout} {s : Sys} {m : St} {page hmap : ℕ} {phys v : Word}
    (hb : Built img limit P) (hfull : lowTables limit = 224) (halloc : allocHighMap s.hm 0 = some (some hmap, m))
    (hphys : L.pageToPhys page = some phys) (hvirt : hmapToVirt hmap = some v) :
    ∃ pgt, (system L P).step s (.kmap page 0) ⟨m, pgt, ⟨v, phys, 0⟩ :: s.live⟩ := by
  have hin : hmap + 2 ^ 0 ≤ 32768 := (hmapToVirt_some hvirt).1
  obtain ⟨pgt, hloop, -⟩ := mapLoop_eq hb hfull hin 0 phys s.pgt (Nat.zero_le _)
  refine ⟨pgt, trivial, ?_⟩
  simp only [step, kmap, mapBlock, hphys, halloc, hloop, hvirt, Option.bind_some, Option.map_some]
  rfl

/-- the pages at 16 MB of a machine with 1 GB are mapped, and the first one is unmapped -/
theorem mappings_gb : ∃ (P : State) (s : Sys), pagingInit smallImage (fun _ => 0) (fun _ => 0) 0x40000000#64 = some P ∧
    (system Layout.small P).Reach s ∧ s.live = [⟨0xFFF01000#32, 0x1001000#32, 0⟩] ∧
    Mapping.Good P s ⟨0xFFF01000#32, 0x1001000#32, 0⟩ := by
  obtain ⟨P, hP⟩ := pagingInit_returns 0x40000000#64 (by decide)
  have hfull := lowTables_of_limit (by decide : zoneNormalLimit.setWidth 64 ≤ 0x40000000#64)
  obtain ⟨⟨fetched, m1⟩, halloc1, hfetches⟩ := Option.bind_eq_some_iff.1 idle_fetches
  obtain ⟨⟨fetched2, m2⟩, halloc2, hfetches⟩ := Option.bind_eq_some_iff.1 hfetches
  obtain ⟨m3, hdealloc, hfetches⟩ := Option.map_eq_some_iff.1 hfetches
  obtain ⟨rfl, rfl⟩ := Prod.mk.inj hfetches
  have hphys1 : Layout.small.pageToPhys 0 = some 0x1000000#32 := by decide
  have hphys2 : Layout.small.pageToPhys 1 = some 0x1001000#32 := by decide
  have hvirt1 : hmapToVirt 32512 = some 0xFFF00000#32 := by decide
  have hvirt2 : hmapToVirt 32513 = some 0xFFF01000#32 := by decide
  obtain ⟨pgt1, hstep1⟩ := kmap_page (pagingInit_built hP) hfull halloc1 hphys1 hvirt1
  obtain ⟨pgt2, hstep2⟩ := kmap_page (s := ⟨m1, pgt1, _⟩) (pagingInit_built hP) hfull halloc2 hphys2 hvirt2
  have hunmap : kunmap m2 0xFFF00000#32 0 = some m3 := hdealloc
  have hreach : (system Layout.small P).Reach ⟨m3, pgt2, [⟨0xFFF01000#32, 0x1001000#32, 0⟩]⟩ := by
    refine .step (e := .kunmap 0xFFF00000#32 0) (.step (.step (.start initial_idle) hstep1) hstep2)
      ⟨⟨⟨0xFFF00000#32, 0x1000000#32, 0⟩, List.mem_cons_of_mem _ List.mem_cons_self, rfl, rfl⟩, ?_⟩
    rw [step, hunmap]
    rfl
  exact ⟨P, _, hP, hreach, rfl, (mappings_reachable hP (by decide) hreach).1 _ (List.mem_singleton_self _)⟩

end SinsOs.HighMem
