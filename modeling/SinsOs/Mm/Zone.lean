/-
Memory zones after boot (include/sins/mm.h) and the translation between physical addresses and page descriptors
(phys_to_page, phys_to_zone, page_to_phys, page_to_zone of kernel/mm/page_alloc.c).

A `struct page *` is the index of a descriptor in the array `mmap`. A `Layout` is the zone table as boot leaves it: the
elements of zones_list, the chain that starts at each fast_zone_entry[t], and what the boot code promises about them.
Zones are page aligned and do not wrap, each lies inside the limits of its type, no two share a physical page or a
descriptor, and a zone has one descriptor for each of its pages.
-/
import SinsOs.Mm.Page

namespace SinsOs.Mm

open SinsOs.Bits

structure MemZone where
  baseAddr : Word
  size : Word
  mmapBase : ℕ
  mmapEnd : ℕ
deriving DecidableEq, Repr

def MemZone.pages (z : MemZone) : ℕ := z.mmapEnd - z.mmapBase

/-- the zone type whose limits contain an address -/
def zoneTypeOf (addr : Word) : ℕ :=
  if addr < zoneDmaLimit then zoneDma else if addr < zoneNormalLimit then zoneNormal else zoneHighmem

/-- the physical addresses of a zone -/
def MemZone.Holds (z : MemZone) (a : ℕ) : Prop := z.baseAddr.toNat ≤ a ∧ a < z.baseAddr.toNat + z.size.toNat

structure Layout where
  zone : ℕ → MemZone
  /-- the zones chained from fast_zone_entry[t], in list order -/
  chain : ℕ → List ℕ
  types : ∀ t, nrZoneTypes ≤ t → chain t = []
  nodup : ∀ t, (chain t).Nodup
  one_type : ∀ t t' z, z ∈ chain t → z ∈ chain t' → t = t'
  base_dvd : ∀ t, ∀ z ∈ chain t, 4096 ∣ (zone z).baseAddr.toNat
  size_dvd : ∀ t, ∀ z ∈ chain t, 4096 ∣ (zone z).size.toNat
  no_wrap : ∀ t, ∀ z ∈ chain t, (zone z).baseAddr.toNat + (zone z).size.toNat < 2 ^ 32
  in_type : ∀ t, ∀ z ∈ chain t, ∀ a : Word, (zone z).Holds a.toNat → zoneTypeOf a = t
  descriptors : ∀ t, ∀ z ∈ chain t, (zone z).mmapEnd = (zone z).mmapBase + (zone z).size.toNat / 4096
  mmap_apart : ∀ t, ∀ z ∈ chain t, ∀ t', ∀ z' ∈ chain t', z ≠ z' →
    (zone z).mmapEnd ≤ (zone z').mmapBase ∨ (zone z').mmapEnd ≤ (zone z).mmapBase
  phys_apart : ∀ t, ∀ z ∈ chain t, ∀ t', ∀ z' ∈ chain t', z ≠ z' → ∀ a, (zone z).Holds a →
      ¬ (zone z').Holds a

namespace Layout

variable (L : Layout)

/-- zone_all_for_each -/
def all : List ℕ := L.chain zoneDma ++ L.chain zoneNormal ++ L.chain zoneHighmem

def base (z : ℕ) : ℕ := (L.zone z).mmapBase

def pages (z : ℕ) : ℕ := (L.zone z).pages

theorem mem_all {z : ℕ} : z ∈ L.all ↔ ∃ t, z ∈ L.chain t := by
  simp only [all, List.mem_append, zoneDma, zoneNormal, zoneHighmem]
  constructor
  · rintro ((h | h) | h)
    exacts [⟨_, h⟩, ⟨_, h⟩, ⟨_, h⟩]
  · rintro ⟨t, h⟩
    match t, h with
    | 0, h => exact Or.inl (Or.inl h)
    | 1, h => exact Or.inl (Or.inr h)
    | 2, h => exact Or.inr h
    | t + 3, h => rw [L.types (t + 3) (by simp [nrZoneTypes])] at h; simp at h

theorem all_nodup : L.all.Nodup := by
  simp only [all, List.nodup_append, List.mem_append]
  refine ⟨⟨L.nodup _, L.nodup _, ?_⟩, L.nodup _, ?_⟩
  · rintro z h _ h' rfl
    exact absurd (L.one_type _ _ z h h') (by decide)
  · rintro z (h | h) _ h' rfl
    · exact absurd (L.one_type _ _ z h h') (by decide)
    · exact absurd (L.one_type _ _ z h h') (by decide)

theorem mmapEnd_eq {t z : ℕ} (h : z ∈ L.chain t) : (L.zone z).mmapEnd = L.base z + L.pages z := by
  have := L.descriptors t z h
  simp only [base, pages, MemZone.pages]
  omega

theorem pages_eq {t z : ℕ} (h : z ∈ L.chain t) : L.pages z = (L.zone z).size.toNat / 4096 := by
  have := L.descriptors t z h
  simp only [pages, MemZone.pages]
  omega

/-- a zone is smaller than the address space -/
theorem pages_lt {t z : ℕ} (h : z ∈ L.chain t) : L.pages z < 2 ^ 20 := by
  have := (L.zone z).size.isLt
  rw [L.pages_eq h]; omega

/-- two zones that share a descriptor are the same zone -/
theorem zone_unique {z z' p : ℕ} (hz : z ∈ L.all) (hz' : z' ∈ L.all) (h : L.base z ≤ p ∧ p < L.base z + L.pages z)
    (h' : L.base z' ≤ p ∧ p < L.base z' + L.pages z') : z = z' := by
  obtain ⟨t, ht⟩ := L.mem_all.1 hz
  obtain ⟨t', ht'⟩ := L.mem_all.1 hz'
  by_contra hne
  have := L.mmap_apart t z ht t' z' ht' hne
  rw [L.mmapEnd_eq ht, L.mmapEnd_eq ht'] at this
  simp only [base] at *
  omega

/-! ## Address translation -/

def physToZone (addr : Word) : Option ℕ :=
  let addr := pageFloor addr
  (L.chain (zoneTypeOf addr)).find? fun z =>
    decide ((L.zone z).baseAddr ≤ addr ∧ addr < (L.zone z).baseAddr + (L.zone z).size)

def physToPage (addr : Word) : Option ℕ :=
  (L.physToZone addr).map fun z =>
    (L.zone z).mmapBase + ((pageFloor addr - (L.zone z).baseAddr) / pageSize).toNat

def pageToZone (page : ℕ) : Option ℕ :=
  L.all.find? fun z => decide ((L.zone z).mmapBase ≤ page ∧ page < (L.zone z).mmapEnd)

/-- `none`: the BUG_ON on a descriptor of no zone fired -/
def pageToPhys (page : ℕ) : Option Word :=
  (L.pageToZone page).map fun z =>
    (L.zone z).baseAddr + BitVec.ofNat 32 (page - (L.zone z).mmapBase) * pageSize

theorem pageToZone_eq {z o : ℕ} (hz : z ∈ L.all) (ho : o < L.pages z) : L.pageToZone (L.base z + o) = some z := by
  have hin : ∀ z' ∈ L.all, (L.base z + o ≥ (L.zone z').mmapBase ∧ L.base z + o < (L.zone z').mmapEnd) → z' = z := by
    intro z' hz' h
    obtain ⟨t', ht'⟩ := L.mem_all.1 hz'
    rw [L.mmapEnd_eq ht'] at h
    exact L.zone_unique hz' hz h ⟨by omega, by omega⟩
  obtain ⟨t, ht⟩ := L.mem_all.1 hz
  unfold pageToZone
  cases hf : L.all.find? fun z' => decide ((L.zone z').mmapBase ≤ L.base z + o ∧ L.base z + o < (L.zone z').mmapEnd) with
  | none =>
    rw [List.find?_eq_none] at hf
    have := hf z hz
    rw [L.mmapEnd_eq ht] at this
    simp [base] at this
    omega
  | some z' =>
    have h1 := List.find?_some hf
    exact congrArg some (hin z' (List.mem_of_find?_eq_some hf) (by simpa using h1))

theorem pageToZone_some {z p : ℕ} (h : L.pageToZone p = some z) :
    z ∈ L.all ∧ ∃ o < L.pages z, p = L.base z + o := by
  have hm := List.mem_of_find?_eq_some h
  obtain ⟨t, ht⟩ := L.mem_all.1 hm
  have h1 := List.find?_some h
  rw [decide_eq_true_eq, L.mmapEnd_eq ht] at h1
  simp only [base] at *
  exact ⟨hm, p - (L.zone z).mmapBase, by omega, by omega⟩

def pageToVirt (page : ℕ) : Option Word := (L.pageToPhys page).map va

def virtToPage (addr : Word) : Option ℕ := L.physToPage (pa addr)

/-- the physical address of page o of zone z -/
def physAddr (z o : ℕ) : Word := (L.zone z).baseAddr + BitVec.ofNat 32 o * pageSize

theorem physAddr_toNat {t z o : ℕ} (hz : z ∈ L.chain t) (ho : o < L.pages z) :
    (L.physAddr z o).toNat = (L.zone z).baseAddr.toNat + o * 4096 := by
  have hw := L.no_wrap t z hz
  rw [L.pages_eq hz] at ho
  have hp : pageSize.toNat = 4096 := by decide
  rw [physAddr, BitVec.toNat_add, BitVec.toNat_mul, BitVec.toNat_ofNat, hp, Nat.mod_eq_of_lt (a := o) (by omega),
    Nat.mod_eq_of_lt (a := o * 4096) (by omega), Nat.mod_eq_of_lt (by omega)]

theorem holds_physAddr {t z o : ℕ} (hz : z ∈ L.chain t) (ho : o < L.pages z) :
    (L.zone z).Holds (L.physAddr z o).toNat := by
  rw [MemZone.Holds, L.physAddr_toNat hz ho]
  rw [L.pages_eq hz] at ho
  omega

theorem pageToPhys_eq {t z o : ℕ} (hz : z ∈ L.chain t) (ho : o < L.pages z) :
    L.pageToPhys (L.base z + o) = some (L.physAddr z o) := by
  rw [pageToPhys, L.pageToZone_eq (L.mem_all.2 ⟨t, hz⟩) ho, Option.map_some]
  simp only [base, Nat.add_sub_cancel_left, physAddr]

theorem pageToPhys_dvd {p : ℕ} {a : Word} (h : L.pageToPhys p = some a) : 4096 ∣ a.toNat := by
  obtain ⟨z, hz, rfl⟩ := Option.map_eq_some_iff.1 h
  obtain ⟨hmem, o, ho, rfl⟩ := L.pageToZone_some hz
  obtain ⟨t, ht⟩ := L.mem_all.1 hmem
  have hbd := L.base_dvd t z ht
  have hnat := L.physAddr_toNat ht ho
  rw [physAddr] at hnat
  simp only [base, Nat.add_sub_cancel_left] at hnat ⊢
  omega

theorem pageFloor_physAddr {t z o : ℕ} (hz : z ∈ L.chain t) (ho : o < L.pages z) :
    pageFloor (L.physAddr z o) = L.physAddr z o := by
  have hbd := L.base_dvd t z hz
  apply BitVec.eq_of_toNat_eq
  rw [pageFloor_toNat, L.physAddr_toNat hz ho]
  omega

/-- the zone that holds the page of an address -/
theorem physToZone_eq {t z : ℕ} {a : Word} (hz : z ∈ L.chain t) (ha : (L.zone z).Holds (pageFloor a).toNat) :
    L.physToZone a = some z := by
  simp only [physToZone, L.in_type t z hz _ ha]
  -- a zone of the chain that contains the address is z itself
  have hiff : ∀ z' ∈ L.chain t, ((L.zone z').baseAddr ≤ pageFloor a ∧
      pageFloor a < (L.zone z').baseAddr + (L.zone z').size) ↔ (L.zone z').Holds (pageFloor a).toNat := by
    intro z' hz'
    have hw := L.no_wrap t z' hz'
    rw [BitVec.le_def, BitVec.lt_def, BitVec.toNat_add, Nat.mod_eq_of_lt hw, MemZone.Holds]
  cases hf : (L.chain t).find? fun z' => decide ((L.zone z').baseAddr ≤ pageFloor a ∧
      pageFloor a < (L.zone z').baseAddr + (L.zone z').size) with
  | none =>
    rw [List.find?_eq_none] at hf
    exact absurd (decide_eq_true ((hiff z hz).2 ha)) (hf z hz)
  | some z' =>
    have hmem := List.mem_of_find?_eq_some hf
    have hsome := List.find?_some hf
    have hin := (hiff z' hmem).1 (by simpa using hsome)
    by_cases hne : z = z'
    · rw [hne]
    · exact absurd hin (L.phys_apart t z hz t z' hmem hne _ ha)

/-- **phys_to_page inverts page_to_phys.** -/
theorem physToPage_eq {t z o : ℕ} (hz : z ∈ L.chain t) (ho : o < L.pages z) :
    L.physToPage (L.physAddr z o) = some (L.base z + o) := by
  have hfloor := L.pageFloor_physAddr hz ho
  have hzone := L.physToZone_eq hz (a := L.physAddr z o) (by rw [hfloor]; exact L.holds_physAddr hz ho)
  have hnat := L.physAddr_toNat hz ho
  have hp : pageSize.toNat = 4096 := by decide
  rw [physToPage, hzone, Option.map_some, hfloor]
  congr 1
  rw [BitVec.toNat_udiv, BitVec.toNat_sub_of_le (by rw [BitVec.le_def]; omega), hnat, hp]
  simp only [base]
  omega

/-- a page of normal memory is mapped above PAGE_OFFSET, and its address gives the page back -/
theorem pageToVirt_eq {z o : ℕ} (hz : z ∈ L.chain zoneNormal) (ho : o < L.pages z) :
    L.pageToVirt (L.base z + o) = some (va (L.physAddr z o)) ∧ L.virtToPage (va (L.physAddr z o)) = some (L.base z + o) ∧
      4096 ∣ (va (L.physAddr z o)).toNat ∧ 0 < (va (L.physAddr z o)).toNat ∧
      (va (L.physAddr z o)).toNat + 4096 ≤ 2 ^ 32 := by
  have hnat := L.physAddr_toNat hz ho
  have hbd := L.base_dvd _ z hz
  have hlow : (L.physAddr z o).toNat < 0x38000000 := by
    have hin := L.in_type _ z hz _ (L.holds_physAddr hz ho)
    unfold zoneTypeOf at hin
    split_ifs at hin with h1 h2
    · exact absurd hin (by decide)
    · exact h2
    · exact absurd hin (by decide)
  have hva : (va (L.physAddr z o)).toNat = (L.physAddr z o).toNat + 0xC0000000 := by
    have hpo : pageOffset.toNat = 0xC0000000 := by decide
    rw [va, BitVec.toNat_add, hpo, Nat.mod_eq_of_lt (by omega)]
  refine ⟨?_, ?_, by omega, by omega, by omega⟩
  · rw [pageToVirt, L.pageToPhys_eq hz ho, Option.map_some]
  · rw [virtToPage, pa_va, L.physToPage_eq hz ho]

/-! ## A small machine -/

/-- six pages of normal memory at 16 MB -/
def smallChain (t : ℕ) : List ℕ := if t = zoneNormal then [0] else []

theorem mem_smallChain {t z : ℕ} (h : z ∈ smallChain t) : t = zoneNormal ∧ z = 0 := by
  unfold smallChain at h
  split_ifs at h with h1
  · exact ⟨h1, by simpa using h⟩
  · simp at h

def small : Layout where
  zone := fun z => if z = 0 then ⟨0x1000000#32, 0x6000#32, 0, 6⟩ else ⟨0#32, 0#32, 0, 0⟩
  chain := smallChain
  types := by intro t ht; rw [smallChain, if_neg]; rintro rfl; exact absurd ht (by decide)
  nodup := by intro t; unfold smallChain; split_ifs <;> simp
  one_type := by intro t t' z h h'; rw [(mem_smallChain h).1, (mem_smallChain h').1]
  base_dvd := by intro t z h; rw [(mem_smallChain h).2]; decide
  size_dvd := by intro t z h; rw [(mem_smallChain h).2]; decide
  no_wrap := by intro t z h; rw [(mem_smallChain h).2]; decide
  in_type := by
    intro t z h a ha
    obtain ⟨rfl, rfl⟩ := mem_smallChain h
    simp only [MemZone.Holds, if_true, BitVec.toNat_ofNat] at ha
    simp only [zoneTypeOf, zoneDmaLimit, zoneNormalLimit, BitVec.lt_def, BitVec.toNat_ofNat]
    rw [if_neg (by omega), if_pos (by omega)]
  descriptors := by intro t z h; rw [(mem_smallChain h).2]; decide
  mmap_apart := by
    intro t z h t' z' h' hne
    exact absurd ((mem_smallChain h).2.trans (mem_smallChain h').2.symm) hne
  phys_apart := by
    intro t z h t' z' h' hne
    exact absurd ((mem_smallChain h).2.trans (mem_smallChain h').2.symm) hne

end Layout

end SinsOs.Mm
