/-
Address translation on the zone table that boot leaves: init_fast_zone_entry chains the zones, cut_zone_size changes a
size, _mem_map_create lays out the descriptors (kernel/mm/init.c), and phys_to_page, phys_to_zone, page_to_phys and
page_to_zone search the result (kernel/mm/page_alloc.c).

A `Layout` carries the promises of boot as fields. Here they are proved of the tables that the boot code makes: of a
`Family` of zones whose ends are below 4 GB, `Family.layout` is the table of `memMap` as a `Layout`.

- `translation_iff`: for every family of zones, the two translations are inverse to each other on the pages and the
  descriptors of the family exactly when no zone ends at 4 GB, where base_addr + size is 0.
-/
import SinsOs.Mm.ZonesMap
import SinsOs.Mm.MemMap

namespace SinsOs.Translate

open SinsOs.Bits SinsOs.Mm SinsOs.MemMap SinsOs.ZonesCreate

/-! ## Model -/

section Search

variable (T : ZoneTable)

def physToZone (addr : Word) : Option ℕ :=
  let addr := pageFloor addr
  (T.chain (zoneTypeOf addr)).find? fun z =>
    decide ((T.zone z).baseAddr ≤ addr ∧ addr < (T.zone z).baseAddr + (T.zone z).size)

def physToPage (addr : Word) : Option ℕ :=
  let addr := pageFloor addr
  ((T.chain (zoneTypeOf addr)).find? fun z =>
    decide ((T.zone z).baseAddr ≤ addr ∧ addr < (T.zone z).baseAddr + (T.zone z).size)).map fun z =>
      (T.zone z).mmapBase + ((addr - (T.zone z).baseAddr) / pageSize).toNat

def pageToZone (page : ℕ) : Option ℕ :=
  T.all.find? fun z => decide ((T.zone z).mmapBase ≤ page ∧ page < (T.zone z).mmapEnd)

/-- `none`: the BUG_ON on a descriptor of no zone fired -/
def pageToPhys (page : ℕ) : Option Word :=
  (pageToZone T page).map fun z => (T.zone z).baseAddr + BitVec.ofNat 32 (page - (T.zone z).mmapBase) * pageSize

end Search

/-- the zones as cut_zone_size leaves them: their sizes are not those of the list that was classified -/
def table (b : Boot) (size : ℕ → Word) : ZoneTable where
  zone := fun z => ⟨(b.zones z).baseAddr, size z, 0, 0⟩
  chain := b.chain

/-- _mem_map_create -/
def memMap (T : ZoneTable) : ZoneTable := (mapLoop T 0 T.all).1

/-- the end of the addresses of a zone type -/
def typeLimit (t : ℕ) : ℕ := if t = zoneDma then dmaLimit else if t = zoneNormal then normalLimit else 2 ^ 32

/-! ## Statement -/

/-- the zones 0 .. n - 1 of zones_list: page aligned, disjoint, each inside one zone type -/
structure Zones (b : Boot) (n : ℕ) (size : ℕ → Word) : Prop where
  pos : 0 < n
  few : n ≤ nrZones
  linked : ∀ i < n, (b.zones i).next = if i + 1 < n then some (i + 1) else none
  base_dvd : ∀ i < n, 4096 ∣ (b.zones i).baseAddr.toNat
  size_dvd : ∀ i < n, 4096 ∣ (size i).toNat
  one_type : ∀ i < n, (b.zones i).baseAddr.toNat + (size i).toNat ≤ typeLimit (b.type i)
  disjoint : ∀ i < n, ∀ j < n, i ≠ j → ∀ a, ((table b size).zone i).Holds a → ¬ ((table b size).zone j).Holds a

/-- and in the order of a sorted memory map, so that init_fast_zone_entry chains them by type -/
structure Family (b : Boot) (n : ℕ) (size : ℕ → Word) : Prop extends Zones b n size where
  ordered : ∀ i j, i ≤ j → j < n → b.type i ≤ b.type j

/-- the two translations on the zones 0 .. n - 1 of a table -/
structure Translates (T : ZoneTable) (n : ℕ) : Prop where
  mapped : ∀ a : Word, physToPage T a ≠ none ↔ ∃ z < n, (T.zone z).Holds a.toNat
  phys : ∀ a p, physToPage T a = some p → pageToPhys T p = some (pageFloor a)
  page : ∀ z < n, ∀ p, (T.zone z).mmapBase ≤ p → p < (T.zone z).mmapEnd →
    ∃ a, pageToPhys T p = some a ∧ physToPage T a = some p
  zones : ∀ a p, physToPage T a = some p → ∃ z < n, physToZone T a = some z ∧ pageToZone T p = some z
  distinct : ∀ a a' p, physToPage T a = some p → physToPage T a' = some p → pageFloor a = pageFloor a'

/-! ## _mem_map_create -/

/-- one range of descriptors for each zone, in the order of the walk -/
structure LaidOut (T T' : ZoneTable) (base : ℕ) (zs : List ℕ) : Prop where
  baseAddr : ∀ z, (T'.zone z).baseAddr = (T.zone z).baseAddr
  size : ∀ z, (T'.zone z).size = (T.zone z).size
  first : ∀ z ∈ zs, base ≤ (T'.zone z).mmapBase
  last : ∀ z ∈ zs, (T'.zone z).mmapEnd = (T'.zone z).mmapBase + (T.zone z).size.toNat / 4096
  apart : zs.Pairwise fun z z' => (T'.zone z).mmapEnd ≤ (T'.zone z').mmapBase

theorem mapLoop_chain (zs : List ℕ) : ∀ (T : ZoneTable) (base : ℕ), (mapLoop T base zs).1.chain = T.chain := by
  induction zs with
  | nil => exact fun _ _ => rfl
  | cons z zs ih => exact fun _ _ => ih _ _

theorem mapLoop_frame (zs : List ℕ) : ∀ (T : ZoneTable) (base z : ℕ), z ∉ zs →
    (mapLoop T base zs).1.zone z = T.zone z := by
  induction zs with
  | nil => exact fun _ _ _ _ => rfl
  | cons y zs ih =>
    intro T base z hz
    rw [List.mem_cons, not_or] at hz
    rw [mapLoop]
    exact (ih _ _ z hz.2).trans (if_neg hz.1)

/-- **The loop of _mem_map_create on zones that it meets once.** -/
theorem mapLoop_laidOut (zs : List ℕ) : ∀ (T : ZoneTable) (base : ℕ), zs.Nodup →
    LaidOut T (mapLoop T base zs).1 base zs := by
  induction zs with
  | nil => exact fun T base _ => ⟨fun _ => rfl, fun _ => rfl, nofun, nofun, List.Pairwise.nil⟩
  | cons z zs ih =>
    intro T base hnd
    obtain ⟨hz, hnd⟩ := List.nodup_cons.1 hnd
    have hnum : ((T.zone z).size / pageSize).toNat = (T.zone z).size.toNat / 4096 := by
      rw [BitVec.toNat_udiv]; rfl
    rw [mapLoop, hnum]
    dsimp only
    set num := (T.zone z).size.toNat / 4096
    have h := ih (setMmap T z base (base + num)) (base + num) hnd
    have hself := mapLoop_frame zs (setMmap T z base (base + num)) (base + num) z hz
    rw [setMmap] at hself
    simp only [if_true] at hself
    have hbase : ∀ i, ((setMmap T z base (base + num)).zone i).baseAddr = (T.zone i).baseAddr := by
      intro i
      simp only [setMmap]
      split_ifs with hi
      · rw [hi]
      · rfl
    refine ⟨fun i => (h.baseAddr i).trans (hbase i), fun i => (h.size i).trans (size_setMmap ..), ?_, ?_, ?_⟩
    · intro i hi
      rcases List.mem_cons.1 hi with rfl | hi
      · exact (congrArg MemZone.mmapBase hself).ge
      · exact (Nat.le_add_right base num).trans (h.first i hi)
    · intro i hi
      rcases List.mem_cons.1 hi with rfl | hi
      · rw [setMmap, hself]
      · rw [h.last i hi, size_setMmap]
    · refine List.pairwise_cons.2 ⟨fun i hi => ?_, h.apart⟩
      calc _ = base + num := congrArg MemZone.mmapEnd hself
        _ ≤ _ := h.first i hi

/-! ## Tables that keep the promises of boot -/

section Promised

variable (L : Layout)

theorem pageFloor_idem (a : Word) : pageFloor (pageFloor a) = pageFloor a := by
  apply BitVec.eq_of_toNat_eq
  rw [pageFloor_toNat, pageFloor_toNat]
  omega

/-- zones are page aligned, so an address and its page lie in the same ones -/
theorem holds_pageFloor {t z : ℕ} (hz : z ∈ L.chain t) (a : Word) :
    (L.zone z).Holds (pageFloor a).toNat ↔ (L.zone z).Holds a.toNat := by
  have hb := L.base_dvd t z hz
  have hs := L.size_dvd t z hz
  rw [MemZone.Holds, MemZone.Holds, pageFloor_toNat]
  omega

/-- an address of a zone is in one of its pages -/
theorem page_of_holds {t z : ℕ} (hz : z ∈ L.chain t) {a : Word} (ha : (L.zone z).Holds a.toNat) :
    ∃ o < L.pages z, pageFloor a = L.physAddr z o := by
  have hb := L.base_dvd t z hz
  have hs := L.size_dvd t z hz
  obtain ⟨h1, h2⟩ := ha
  have ho : (a.toNat - (L.zone z).baseAddr.toNat) / 4096 < L.pages z := by
    rw [L.pages_eq hz]
    omega
  refine ⟨_, ho, ?_⟩
  apply BitVec.eq_of_toNat_eq
  rw [pageFloor_toNat, L.physAddr_toNat hz ho]
  omega

/-- **phys_to_page on an address of a zone.** -/
theorem physToPage_of_holds {t z : ℕ} (hz : z ∈ L.chain t) {a : Word} (ha : (L.zone z).Holds a.toNat) :
    ∃ o < L.pages z, pageFloor a = L.physAddr z o ∧ L.physToZone a = some z ∧ L.physToPage a = some (L.base z + o) := by
  obtain ⟨o, ho, hfloor⟩ := page_of_holds L hz ha
  refine ⟨o, ho, hfloor, L.physToZone_eq hz ((holds_pageFloor L hz a).2 ha), ?_⟩
  have hpage : L.physToPage a = L.physToPage (pageFloor a) := by
    simp only [Layout.physToPage, Layout.physToZone, pageFloor_idem]
  rw [hpage, hfloor, L.physToPage_eq hz ho]

/-- **phys_to_page finds only zones that hold the address.** -/
theorem holds_of_physToPage {a : Word} {p : ℕ} (h : L.physToPage a = some p) :
    ∃ t z, z ∈ L.chain t ∧ (L.zone z).Holds a.toNat := by
  obtain ⟨z, hz, -⟩ := Option.map_eq_some_iff.1 h
  have hmem := List.mem_of_find?_eq_some hz
  have hfound := List.find?_some hz
  rw [decide_eq_true_eq, BitVec.le_def, BitVec.lt_def, BitVec.toNat_add, Nat.mod_eq_of_lt (L.no_wrap _ z hmem)] at hfound
  exact ⟨_, z, hmem, (holds_pageFloor L hmem a).1 hfound⟩

/-- **The two translations are inverse to each other.** -/
theorem layout_translates {n : ℕ} (hn : ∀ z, z ∈ L.all ↔ z < n) : Translates ⟨L.zone, L.chain⟩ n := by
  have hphys : ∀ a p, L.physToPage a = some p → ∃ z < n, ∃ o < L.pages z, p = L.base z + o ∧
      L.pageToPhys p = some (pageFloor a) ∧ L.physToZone a = some z ∧ L.pageToZone p = some z := by
    intro a p hp
    obtain ⟨t, z, hz, ha⟩ := holds_of_physToPage L hp
    obtain ⟨o, ho, hfloor, hzone, hpage⟩ := physToPage_of_holds L hz ha
    obtain rfl := Option.some.inj (hp.symm.trans hpage)
    have hall := L.mem_all.2 ⟨t, hz⟩
    exact ⟨z, (hn z).1 hall, o, ho, rfl, by rw [hfloor, L.pageToPhys_eq hz ho], hzone, L.pageToZone_eq hall ho⟩
  constructor
  · intro a
    constructor
    · intro ha
      obtain ⟨p, hp⟩ := Option.ne_none_iff_exists'.1 ha
      obtain ⟨t, z, hz, hz'⟩ := holds_of_physToPage L hp
      exact ⟨z, (hn z).1 (L.mem_all.2 ⟨t, hz⟩), hz'⟩
    · rintro ⟨z, hz, ha⟩
      obtain ⟨t, ht⟩ := L.mem_all.1 ((hn z).2 hz)
      obtain ⟨o, -, -, -, hpage⟩ := physToPage_of_holds L ht ha
      exact fun hnone => nomatch hpage.symm.trans hnone
  · intro a p hp
    obtain ⟨-, -, -, -, -, h, -⟩ := hphys a p hp
    exact h
  · intro z hz p h1 h2
    obtain ⟨t, ht⟩ := L.mem_all.1 ((hn z).2 hz)
    have hend : p < L.base z + L.pages z := h2.trans_eq (L.mmapEnd_eq ht)
    obtain ⟨o, rfl⟩ := Nat.exists_eq_add_of_le (show L.base z ≤ p from h1)
    have ho := Nat.add_lt_add_iff_left.1 hend
    exact ⟨_, L.pageToPhys_eq ht ho, L.physToPage_eq ht ho⟩
  · intro a p hp
    obtain ⟨z, hz, -, -, -, -, h1, h2⟩ := hphys a p hp
    exact ⟨z, hz, h1, h2⟩
  · intro a a' p hp hp'
    obtain ⟨-, -, -, -, -, h, -⟩ := hphys a p hp
    obtain ⟨-, -, -, -, -, h', -⟩ := hphys a' p hp'
    exact Option.some.inj (h.symm.trans h')

end Promised

/-! ## Tables that boot makes -/

/-- the table after init_fast_zone_entry, cut_zone_size and _mem_map_create -/
def booted (b : Boot) (size : ℕ → Word) : ZoneTable := memMap (table (initFastZoneEntry b) size)

section Boot

variable {b : Boot} {n : ℕ} {size : ℕ → Word}

theorem Family.classified (h : Family b n size) : Classified b (initFastZoneEntry b) n n :=
  initFastZoneEntry_classified h.pos h.few h.linked h.ordered

theorem Family.chain (h : Family b n size) (t : ℕ) :
    ((booted b size).chain t).Nodup ∧ ∀ z, z ∈ (booted b size).chain t ↔ z < n ∧ b.type z = t := by
  rw [booted, memMap, mapLoop_chain]
  exact h.classified.chain_spec h.ordered h.few t

/-- zone_all_for_each meets every zone once -/
theorem Family.all (h : Family b n size) :
    (booted b size).all.Nodup ∧ ∀ z, z ∈ (booted b size).all ↔ z < n := by
  have happ : ∀ t t', t ≠ t' → ∀ z ∈ (booted b size).chain t, ∀ z' ∈ (booted b size).chain t', z ≠ z' := by
    intro t t' hne z hz z' hz' he
    subst he
    exact hne ((((h.chain t).2 z).1 hz).2.symm.trans (((h.chain t').2 z).1 hz').2)
  constructor
  · rw [ZoneTable.all, List.nodup_append, List.nodup_append]
    refine ⟨⟨(h.chain _).1, (h.chain _).1, happ _ _ (by decide)⟩, (h.chain _).1, fun z hz z' hz' => ?_⟩
    rcases List.mem_append.1 hz with hz | hz
    · exact happ _ _ (by decide) z hz z' hz'
    · exact happ _ _ (by decide) z hz z' hz'
  · intro z
    have htype := zoneTypeOf_le (b.zones z).baseAddr
    rw [ZoneTable.all, List.mem_append, List.mem_append, (h.chain _).2, (h.chain _).2, (h.chain _).2, ← and_or_left,
      ← and_or_left, and_iff_left_iff_imp]
    intro _
    unfold Boot.type zoneDma zoneNormal zoneHighmem
    omega

theorem Family.laidOut (h : Family b n size) :
    LaidOut (table (initFastZoneEntry b) size) (booted b size) 0 (booted b size).all := by
  have hall : (booted b size).all = (table (initFastZoneEntry b) size).all := by
    rw [ZoneTable.all, booted, memMap, mapLoop_chain]
    rfl
  have hnd := h.all.1
  rw [hall] at hnd ⊢
  exact mapLoop_laidOut _ _ 0 hnd

theorem Family.zone_eq (h : Family b n size) (z : ℕ) :
    ((booted b size).zone z).baseAddr = (b.zones z).baseAddr ∧ ((booted b size).zone z).size = size z :=
  ⟨(h.laidOut.baseAddr z).trans (h.classified.base z).1, h.laidOut.size z⟩

theorem Family.holds_iff (h : Family b n size) (z a : ℕ) :
    ((booted b size).zone z).Holds a ↔ ((table b size).zone z).Holds a := by
  rw [MemZone.Holds, (h.zone_eq z).1, (h.zone_eq z).2]
  rfl

theorem Family.types (h : Family b n size) (t : ℕ) (ht : nrZoneTypes ≤ t) : (booted b size).chain t = [] := by
  refine List.eq_nil_iff_forall_not_mem.2 fun z hz => ?_
  have htype := zoneTypeOf_le (b.zones z).baseAddr
  have hz := (((h.chain t).2 z).1 hz).2
  unfold nrZoneTypes at ht
  unfold Boot.type at hz
  omega

/-- a zone holds addresses of its own type -/
theorem Family.in_type (h : Family b n size) (t z : ℕ) (hz : z ∈ (booted b size).chain t) (a : Word)
    (ha : ((booted b size).zone z).Holds a.toNat) : zoneTypeOf a = t := by
  obtain ⟨hlt, rfl⟩ := ((h.chain t).2 z).1 hz
  have hlimit := h.one_type z hlt
  obtain ⟨h1, h2⟩ := (h.holds_iff z a.toNat).1 ha
  change (b.zones z).baseAddr.toNat ≤ a.toNat at h1
  change a.toNat < (b.zones z).baseAddr.toNat + (size z).toNat at h2
  simp only [Boot.type, typeLimit, zoneTypeOf_eq, zoneDma, zoneNormal, zoneHighmem] at hlimit ⊢
  split_ifs at hlimit ⊢ <;> omega

/-- **The table of a family keeps the promises of boot** if no zone ends at 4 GB. -/
def Family.layout (h : Family b n size) (hbelow : ∀ i < n, (b.zones i).baseAddr.toNat + (size i).toNat < 2 ^ 32) :
    Layout where
  zone := (booted b size).zone
  chain := (booted b size).chain
  types := h.types
  nodup := fun t => (h.chain t).1
  one_type := fun t t' z hz hz' => (((h.chain t).2 z).1 hz).2.symm.trans (((h.chain t').2 z).1 hz').2
  base_dvd := fun t z hz => by
    rw [(h.zone_eq z).1]
    exact h.base_dvd z (((h.chain t).2 z).1 hz).1
  size_dvd := fun t z hz => by
    rw [(h.zone_eq z).2]
    exact h.size_dvd z (((h.chain t).2 z).1 hz).1
  no_wrap := fun t z hz => by
    rw [(h.zone_eq z).1, (h.zone_eq z).2]
    exact hbelow z (((h.chain t).2 z).1 hz).1
  in_type := h.in_type
  descriptors := fun t z hz => by
    rw [(h.zone_eq z).2]
    exact h.laidOut.last z ((h.all.2 z).2 (((h.chain t).2 z).1 hz).1)
  mmap_apart := by
    intro t z hz t' z' hz' hne
    have hsymm : Std.Symm fun z z' => ((booted b size).zone z).mmapEnd ≤ ((booted b size).zone z').mmapBase ∨
        ((booted b size).zone z').mmapEnd ≤ ((booted b size).zone z).mmapBase := ⟨fun _ _ => Or.symm⟩
    have hpair := h.laidOut.apart.imp fun {z z'} hle =>
      (Or.inl hle : _ ∨ ((booted b size).zone z').mmapEnd ≤ ((booted b size).zone z).mmapBase)
    exact hpair.forall ((h.all.2 z).2 (((h.chain t).2 z).1 hz).1) ((h.all.2 z').2 (((h.chain t').2 z').1 hz').1) hne
  phys_apart := by
    intro t z hz t' z' hz' hne a ha ha'
    exact h.disjoint z (((h.chain t).2 z).1 hz).1 z' (((h.chain t').2 z').1 hz').1 hne a ((h.holds_iff z a).1 ha)
      ((h.holds_iff z' a).1 ha')

/-- a zone that ends at 4 GB is not found: its end is 0 -/
theorem Family.below (h : Family b n size) (ht : Translates (booted b size) n) :
    ∀ i < n, (b.zones i).baseAddr.toNat + (size i).toNat < 2 ^ 32 := by
  have hle : ∀ i < n, (b.zones i).baseAddr.toNat + (size i).toNat ≤ 2 ^ 32 := by
    intro i hi
    have h1 := h.one_type i hi
    have h2 : typeLimit (b.type i) ≤ 2 ^ 32 := by
      unfold typeLimit dmaLimit normalLimit
      split_ifs <;> decide
    exact h1.trans h2
  intro i hi
  by_contra hend
  have hbase := (b.zones i).baseAddr.isLt
  have hend : (b.zones i).baseAddr.toNat + (size i).toNat = 2 ^ 32 := le_antisymm (hle i hi) (not_lt.1 hend)
  have hfloor : pageFloor (b.zones i).baseAddr = (b.zones i).baseAddr := by
    have := h.base_dvd i hi
    apply BitVec.eq_of_toNat_eq
    rw [pageFloor_toNat]
    omega
  have hholds : ((booted b size).zone i).Holds (b.zones i).baseAddr.toNat := by
    rw [h.holds_iff]
    exact ⟨le_rfl, show (b.zones i).baseAddr.toNat < (b.zones i).baseAddr.toNat + (size i).toNat by omega⟩
  obtain ⟨p, hp⟩ := Option.ne_none_iff_exists'.1 ((ht.mapped _).2 ⟨i, hi, hholds⟩)
  -- the zone that the search finds holds the address too, so it is zone i
  obtain ⟨z, hz, -⟩ := Option.map_eq_some_iff.1 hp
  have hzn := (((h.chain _).2 z).1 (List.mem_of_find?_eq_some hz)).1
  have hfound := List.find?_some hz
  rw [decide_eq_true_eq, hfloor, (h.zone_eq z).1, (h.zone_eq z).2, BitVec.le_def, BitVec.lt_def, BitVec.toNat_add] at hfound
  rcases Nat.lt_or_eq_of_le (hle z hzn) with hlt | heq
  · rw [Nat.mod_eq_of_lt hlt] at hfound
    have hne : z ≠ i := by
      intro he
      rw [he] at hlt
      omega
    exact h.disjoint z hzn i hi hne _ hfound ((h.holds_iff i _).1 hholds)
  · rw [heq] at hfound
    omega

/-- **Address translation is a bijection exactly when no zone ends at 4 GB.** For every family of zones, chained by
init_fast_zone_entry and laid out by _mem_map_create. -/
theorem translation_iff (b : Boot) (n : ℕ) (size : ℕ → Word) (h : Family b n size) :
    Translates (booted b size) n ↔ ∀ i < n, (b.zones i).baseAddr.toNat + (size i).toNat < 2 ^ 32 := by
  constructor
  · exact h.below
  · intro hbelow
    exact layout_translates (h.layout hbelow) h.all.2

/-- zones_list with the given base addresses -/
def listed (bases : List Word) : Boot where
  zones := fun i => ⟨bases.getD i 0#32, 0#32, if i + 1 < bases.length then some (i + 1) else none⟩
  fast := fun _ => none
  writes := []

/-- two pages of DMA memory and three of normal memory -/
def pcSize (i : ℕ) : Word := if i = 0 then 0x2000#32 else 0x3000#32

theorem pc_family : Family (listed [0x100000#32, 0x1000000#32]) 2 pcSize where
  pos := by decide
  few := by decide
  linked := by decide
  base_dvd := by decide
  size_dvd := by decide
  one_type := by decide
  disjoint := by
    intro i hi j hj hne a h1 h2
    obtain ⟨rfl, rfl⟩ | ⟨rfl, rfl⟩ : (i = 0 ∧ j = 1) ∨ (i = 1 ∧ j = 0) := by omega
    · exact absurd (h2.1.trans_lt h1.2) (by decide)
    · exact absurd (h1.1.trans_lt h2.2) (by decide)
  ordered := by
    intro i j hij hj
    obtain ⟨rfl, rfl⟩ | ⟨rfl, rfl⟩ | ⟨rfl, rfl⟩ : (i = 0 ∧ j = 0) ∨ (i = 0 ∧ j = 1) ∨
      (i = 1 ∧ j = 1) := by omega
    all_goals decide

theorem translation_pc : Translates (booted (listed [0x100000#32, 0x1000000#32]) pcSize) 2 :=
  (translation_iff _ _ _ pc_family).2 (by decide)

/-- the last page below 4 GB -/
theorem last_family : Family (listed [0xFFFFF000#32]) 1 (fun _ => 0x1000#32) where
  pos := by decide
  few := by decide
  linked := by decide
  base_dvd := by decide
  size_dvd := by decide
  one_type := by decide
  disjoint := fun i hi j hj hne => absurd ((Nat.lt_one_iff.1 hi).trans (Nat.lt_one_iff.1 hj).symm) hne
  ordered := by
    intro i j hij hj
    obtain rfl := Nat.lt_one_iff.1 hj
    obtain rfl := Nat.le_zero.1 hij
    exact le_rfl

/-- one page of DMA memory, one of normal memory, and one of DMA memory behind it -/
def mixed : Boot := listed [0x100000#32, 0x1000000#32, 0x200000#32]

theorem mixed_zones : Zones mixed 3 (fun _ => 0x1000#32) where
  pos := by decide
  few := by decide
  linked := by decide
  base_dvd := by decide
  size_dvd := by decide
  one_type := by decide
  disjoint := by
    intro i hi j hj hne a h1 h2
    have hapart : ∀ i < 3, ∀ j < 3, i ≠ j →
        (mixed.zones i).baseAddr.toNat + 0x1000 ≤ (mixed.zones j).baseAddr.toNat ∨
        (mixed.zones j).baseAddr.toNat + 0x1000 ≤ (mixed.zones i).baseAddr.toNat := by decide
    rcases hapart i hi j hj hne with hle | hle
    · exact absurd (h1.2.trans_le hle) (not_lt.2 h2.1)
    · exact absurd (h2.2.trans_le hle) (not_lt.2 h1.1)

/-- The page below 4 GB has no descriptor, and a DMA zone behind a zone of normal memory is on no chain of its type. -/
theorem translation_lost :
    (Family (listed [0xFFFFF000#32]) 1 (fun _ => 0x1000#32) ∧
      ¬ Translates (booted (listed [0xFFFFF000#32]) fun _ => 0x1000#32) 1) ∧
    Zones mixed 3 (fun _ => 0x1000#32) ∧ (∀ i < 3, (mixed.zones i).baseAddr.toNat + 0x1000 < 2 ^ 32) ∧
      ¬ Translates (booted mixed fun _ => 0x1000#32) 3 := by
  refine ⟨⟨last_family, fun h => ?_⟩, mixed_zones, by decide, fun h => ?_⟩
  · refine (h.mapped 0xFFFFF000#32).2 ⟨0, by decide, ?_⟩ (by decide +kernel)
    unfold MemZone.Holds
    decide +kernel
  · refine (h.mapped 0x200000#32).2 ⟨2, by decide, ?_⟩ (by decide +kernel)
    unfold MemZone.Holds
    decide +kernel

end Boot

end SinsOs.Translate
