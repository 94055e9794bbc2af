/-
The array of page descriptors: mem_info_init's usable size, cut_zone_size, _mem_map_create and mem_map_create
(kernel/mm/init.c).

mem_map_create computes the bytes it needs from the usable memory U, rounds them down twice, cuts them (rounded up to a
page) off the end of a zone and then lays out one descriptor of 12 bytes for every page that is left. `none` is a BUG_ON
that fires.

- `need_fits`: with P = U / 4096 pages, the descriptors of the pages that are left fit exactly when 3 * P leaves none of
  the remainders 1, 2, 3 on division by 1027 = (4096 + 12) / 4.
- `memMap_fits_iff`: so mem_map_create writes inside the bytes it cut off exactly for these sizes.
-/
import SinsOs.Mm.Zone

namespace SinsOs.MemMap

open SinsOs.Bits SinsOs.Mm

/-! ## Model -/

/-- zones_list and the chains from fast_zone_entry -/
structure ZoneTable where
  zone : ℕ → MemZone
  chain : ℕ → List ℕ

def ZoneTable.all (T : ZoneTable) : List ℕ := T.chain zoneDma ++ T.chain zoneNormal ++ T.chain zoneHighmem

/-- linker symbols: the start of the kernel and the end of its page tables, as virtual addresses -/
structure Image where
  load : Word
  kernelPgtEnd : Word

def sizeofMemMap : ℕ := 12

/-- mem_info.usable_size, a u64 -/
def usableSize (T : ZoneTable) : ℕ := (T.all.map fun z => (T.zone z).size.toNat).sum % 2 ^ 64

/-- the bytes of a zone that are free, which is all of them unless the kernel lies in it -/
def realSize (T : ZoneTable) (img : Image) (z : ℕ) : Word :=
  let kernelEnd := pa (pageAlign img.kernelPgtEnd)
  if pa img.load ≥ (T.zone z).baseAddr ∧ kernelEnd ≤ (T.zone z).baseAddr + (T.zone z).size then
    (T.zone z).size + (T.zone z).baseAddr - kernelEnd
  else (T.zone z).size

/-- real_size, max_size and fix_zone -/
structure Scan where
  realSize : Word
  maxSize : Word
  fixZone : Option ℕ

def scanStep (T : ZoneTable) (img : Image) (s : Scan) (z : ℕ) : Scan :=
  let real := realSize T img z
  if real > s.maxSize then ⟨real, real, some z⟩ else ⟨real, s.maxSize, s.fixZone⟩

def setSize (T : ZoneTable) (z : ℕ) (size : Word) : ZoneTable :=
  { T with zone := fun i => if i = z then { T.zone z with size := size } else T.zone i }

/-- the second BUG_ON compares with real_size, which is that of the last zone of the loop -/
def cutZoneSize (T : ZoneTable) (img : Image) (needSize : Word) : Option (ZoneTable × Word) :=
  let s := (T.chain zoneDma ++ T.chain zoneNormal).foldl (scanStep T img) ⟨0#32, 0#32, none⟩
  match s.fixZone with
  | none => none
  | some z =>
    if s.realSize ≤ pageCeil needSize then none
    else
      let size := (T.zone z).size - pageCeil needSize
      some (setSize T z size, va ((T.zone z).baseAddr + size))

def setMmap (T : ZoneTable) (z first last : ℕ) : ZoneTable :=
  { T with zone := fun i => if i = z then { T.zone z with mmapBase := first, mmapEnd := last } else T.zone i }

/-- the loop of _mem_map_create; the ranges of descriptors that memset clears, as indices into mmap -/
def mapLoop (T : ZoneTable) (base : ℕ) : List ℕ → ZoneTable × List (ℕ × ℕ)
  | [] => (T, [])
  | z :: zs =>
    let num := ((T.zone z).size / pageSize).toNat
    let r := mapLoop (setMmap T z base (base + num)) (base + num) zs
    (r.1, (base, base + num) :: r.2)

/-- need_size, a u64 that goes through an unsigned long -/
def needSize (T : ZoneTable) : ℕ :=
  sizeofMemMap * usableSize T % 2 ^ 64 / (4096 + sizeofMemMap) % 2 ^ 32 / sizeofMemMap * sizeofMemMap

structure Result where
  table : ZoneTable
  mmap : Word
  memsets : List (ℕ × ℕ)

def memMapCreate (T : ZoneTable) (img : Image) : Option Result :=
  (cutZoneSize T img (BitVec.ofNat 32 (needSize T))).map fun r =>
    let q := mapLoop r.1 0 r.1.all
    ⟨q.1, r.2, q.2⟩

/-! ## Assumptions -/

/-- page-aligned zones of physical memory, at most NR_ZONES of them, each on one chain -/
structure TableOk (T : ZoneTable) : Prop where
  types : ∀ t, nrZoneTypes ≤ t → T.chain t = []
  nodup : T.all.Nodup
  bound : ∀ z ∈ T.all, z < nrZones
  size_dvd : ∀ z ∈ T.all, 4096 ∣ (T.zone z).size.toNat
  no_wrap : ∀ z ∈ T.all, (T.zone z).baseAddr.toNat + (T.zone z).size.toNat < 2 ^ 32

/-- the page tables of the kernel lie behind its start -/
def ImageOk (img : Image) : Prop := pa img.load ≤ pa (pageAlign img.kernelPgtEnd)

/-- a zone lost the bytes behind `mmap`, and all descriptors that memset clears lie in them -/
def Fits (T : ZoneTable) (r : Result) : Prop :=
  ∃ z ∈ T.all, r.mmap = va ((T.zone z).baseAddr + (r.table.zone z).size) ∧
    ∀ w ∈ r.memsets, sizeofMemMap * w.2 + (r.table.zone z).size.toNat ≤ (T.zone z).size.toNat

/-- U -/
def totalSize (T : ZoneTable) : ℕ := (T.all.map fun z => (T.zone z).size.toNat).sum

/-! ## Arithmetic -/

/-- the pages cut off for the descriptors of P pages -/
def cutPages (p : ℕ) : ℕ := (12 * (12 * (4096 * p) / 4108 / 12) + 4095) / 4096

/-- **The rounding of need_size.** -/
theorem need_fits (p : ℕ) :
    12 * (p - cutPages p) ≤ 4096 * cutPages p ↔ ¬ (1 ≤ 3 * p % 1027 ∧ 3 * p % 1027 ≤ 3) := by
  have hdiv : 12 * (4096 * p) / 4108 / 12 = 1024 * p / 1027 := by omega
  rw [cutPages, hdiv]
  obtain ⟨a, ha⟩ : ∃ a, a = 1024 * p / 1027 := ⟨_, rfl⟩
  obtain ⟨e, he⟩ : ∃ e, e = 1024 * p % 1027 := ⟨_, rfl⟩
  obtain ⟨q, hq⟩ : ∃ q, q = 3 * p / 1027 := ⟨_, rfl⟩
  obtain ⟨s, hs⟩ : ∃ s, s = 3 * p % 1027 := ⟨_, rfl⟩
  have h1 : 1024 * p = 1027 * a + e := by omega
  have h2 : 3 * p = 1027 * q + s := by omega
  have h3 : e < 1027 := by omega
  have h4 : s < 1027 := by omega
  rw [← ha, ← hs]
  -- the two remainders are both zero or add up to 1027
  obtain ⟨u, hu⟩ : ∃ u, s + e = 1027 * u := ⟨p - q - a, by omega⟩
  have hu1 : u = 0 ∨ u = 1 := by omega
  have h5 : 3 * a + 3 * u = 1024 * q + s := by omega
  clear ha he hq hs hdiv
  rcases hu1 with rfl | rfl
  · have hr : (12 * a + 4095) / 4096 = q := by omega
    rw [hr]
    omega
  · have hr : (12 * a + 4095) / 4096 = if s ≤ 3 then q else q + 1 := by
      split_ifs <;> omega
    rw [hr]
    split_ifs <;> omega

/-! ## Sizes -/

variable {T : ZoneTable} {img : Image}

theorem TableOk.total_lt (h : TableOk T) : totalSize T < 2 ^ 36 := by
  have hlen : T.all.length ≤ nrZones := by
    have hsub : T.all ⊆ List.range nrZones := fun z hz => List.mem_range.2 (h.bound z hz)
    simpa using (List.subperm_of_subset h.nodup hsub).length_le
  have hsum : totalSize T ≤ T.all.length * 2 ^ 32 := by
    rw [totalSize, ← List.length_map (f := fun z => (T.zone z).size.toNat)]
    refine List.sum_le_card_nsmul _ _ fun x hx => ?_
    obtain ⟨z, -, rfl⟩ := List.mem_map.1 hx
    exact (T.zone z).size.isLt.le
  simp only [nrZones] at hlen
  omega

/-- the sizes are multiples of a page, so U is 4096 times the number of pages -/
theorem total_pages (zs : List ℕ) (hd : ∀ z ∈ zs, 4096 ∣ (T.zone z).size.toNat) :
    (zs.map fun z => (T.zone z).size.toNat).sum = 4096 * (zs.map fun z => (T.zone z).size.toNat / 4096).sum := by
  induction zs with
  | nil => rfl
  | cons z zs ih =>
    simp only [List.map_cons, List.sum_cons]
    rw [ih fun z' hz' => hd z' (List.mem_cons_of_mem _ hz'), Nat.mul_add, Nat.mul_div_cancel' (hd z List.mem_cons_self)]

theorem TableOk.need_eq (h : TableOk T) :
    (pageCeil (BitVec.ofNat 32 (needSize T))).toNat = 4096 * cutPages (totalSize T / 4096) := by
  have hlt := h.total_lt
  have hu : usableSize T = totalSize T := Nat.mod_eq_of_lt (by rw [← totalSize]; omega)
  have hp : totalSize T = 4096 * (totalSize T / 4096) := by
    have := total_pages T.all h.size_dvd
    rw [← totalSize] at this
    omega
  have h64 : 12 * totalSize T % 2 ^ 64 = 12 * totalSize T := Nat.mod_eq_of_lt (by omega)
  have h32 : 12 * totalSize T / 4108 % 2 ^ 32 = 12 * totalSize T / 4108 := Nat.mod_eq_of_lt (by omega)
  have hneed : needSize T = 12 * totalSize T / 4108 / 12 * 12 := by
    simp only [needSize, sizeofMemMap, hu, h64]
    rw [h32]
  have hle : needSize T < 2 ^ 31 := by omega
  have hceil : (pageCeil (BitVec.ofNat 32 (needSize T))).toNat = (needSize T + 4095) / 4096 * 4096 := by
    rw [pageCeil, pageAlign_toNat, BitVec.toNat_ofNat, Nat.mod_eq_of_lt (a := needSize T) (by omega),
      Nat.mod_eq_of_lt (by omega)]
  rw [hceil, cutPages, ← hp, hneed, Nat.mul_comm 4096, Nat.mul_comm 12 (12 * totalSize T / 4108 / 12)]

/-! ## cut_zone_size -/

theorem realSize_le {z : ℕ} (hw : (T.zone z).baseAddr.toNat + (T.zone z).size.toNat < 2 ^ 32) (hi : ImageOk img) :
    (realSize T img z).toNat ≤ (T.zone z).size.toNat := by
  unfold ImageOk at hi
  unfold realSize
  simp only
  split_ifs with hc
  · obtain ⟨h1, h2⟩ := hc
    have h3 := BitVec.le_def.1 (BitVec.le_trans h1 hi)
    have h4 := BitVec.le_def.1 h2
    rw [BitVec.toNat_add, Nat.mod_eq_of_lt hw] at h4
    have hadd : ((T.zone z).size + (T.zone z).baseAddr).toNat = (T.zone z).size.toNat + (T.zone z).baseAddr.toNat := by
      rw [BitVec.toNat_add, Nat.mod_eq_of_lt (by omega)]
    rw [BitVec.toNat_sub_of_le (BitVec.le_def.2 (by omega)), hadd]
    omega
  · exact le_rfl

/-- the scan has seen a zone at least as large as the last one -/
structure ScanInv (T : ZoneTable) (img : Image) (zs : List ℕ) (s : Scan) : Prop where
  last : s.realSize ≤ s.maxSize
  fix : ∀ z, s.fixZone = some z → z ∈ zs ∧ s.maxSize = realSize T img z

theorem scan_inv (zs seen : List ℕ) (s : Scan) (h : ScanInv T img seen s) :
    ScanInv T img (seen ++ zs) (zs.foldl (scanStep T img) s) := by
  induction zs generalizing seen s with
  | nil => simpa using h
  | cons z zs ih =>
    rw [List.foldl_cons, show seen ++ z :: zs = (seen ++ [z]) ++ zs by simp]
    refine ih _ _ ?_
    unfold scanStep
    simp only
    split_ifs with hc
    · refine ⟨BitVec.le_refl _, fun z' hz' => ?_⟩
      obtain rfl := Option.some.inj hz'
      exact ⟨by simp, rfl⟩
    · refine ⟨BitVec.not_lt.1 hc, fun z' hz' => ?_⟩
      obtain ⟨h1, h2⟩ := h.fix z' hz'
      exact ⟨List.mem_append_left _ h1, h2⟩

/-- **cut_zone_size takes the bytes from a zone that has them.** -/
theorem cut_spec (h : TableOk T) (hi : ImageOk img) {need addr : Word} {T' : ZoneTable}
    (hc : cutZoneSize T img need = some (T', addr)) :
    ∃ z ∈ T.all, (pageCeil need).toNat ≤ (T.zone z).size.toNat ∧ T' = setSize T z ((T.zone z).size - pageCeil need) ∧
      addr = va ((T.zone z).baseAddr + ((T.zone z).size - pageCeil need)) := by
  have hinv := scan_inv (T.chain zoneDma ++ T.chain zoneNormal) [] (⟨0#32, 0#32, none⟩ : Scan)
    (⟨BitVec.le_refl _, by simp⟩ : ScanInv T img [] _)
  unfold cutZoneSize at hc
  simp only at hc
  set s := (T.chain zoneDma ++ T.chain zoneNormal).foldl (scanStep T img) ⟨0#32, 0#32, none⟩
  cases hf : s.fixZone with
  | none => rw [hf] at hc; cases hc
  | some z =>
    rw [hf] at hc
    simp only at hc
    split_ifs at hc with hle
    simp only [Option.some.injEq, Prod.mk.injEq] at hc
    obtain ⟨hz, hmax⟩ := hinv.fix z hf
    have hall : z ∈ T.all := List.mem_append_left _ hz
    refine ⟨z, hall, ?_, hc.1.symm, hc.2.symm⟩
    calc (pageCeil need).toNat ≤ s.realSize.toNat := (BitVec.lt_def.1 (BitVec.not_le.1 hle)).le
      _ ≤ s.maxSize.toNat := BitVec.le_def.1 hinv.last
      _ = (realSize T img z).toNat := by rw [hmax]
      _ ≤ (T.zone z).size.toNat := realSize_le (h.no_wrap z hall) hi

/-! ## _mem_map_create -/

theorem size_setMmap (z first last i : ℕ) : ((setMmap T z first last).zone i).size = (T.zone i).size := by
  simp only [setMmap]
  split_ifs with h
  · rw [h]
  · rfl

/-- one descriptor for each page: the last range ends at their number -/
theorem mapLoop_spec (zs : List ℕ) : ∀ (T : ZoneTable) (base : ℕ),
    (∀ i, ((mapLoop T base zs).1.zone i).size = (T.zone i).size) ∧
    (∀ w ∈ (mapLoop T base zs).2, w.2 ≤ base + (zs.map fun z => (T.zone z).size.toNat / 4096).sum) ∧
    (zs ≠ [] → ∃ w ∈ (mapLoop T base zs).2, w.2 = base + (zs.map fun z => (T.zone z).size.toNat / 4096).sum) := by
  induction zs with
  | nil => intro T base; exact ⟨fun _ => rfl, by simp [mapLoop], fun h => absurd rfl h⟩
  | cons z zs ih =>
    intro T base
    have hnum : ((T.zone z).size / pageSize).toNat = (T.zone z).size.toNat / 4096 := by
      rw [BitVec.toNat_udiv]; rfl
    simp only [mapLoop, hnum, List.map_cons, List.sum_cons]
    obtain ⟨h1, h2, h3⟩ := ih (setMmap T z base (base + (T.zone z).size.toNat / 4096)) (base + (T.zone z).size.toNat / 4096)
    simp only [size_setMmap] at h1 h2 h3
    refine ⟨h1, fun w hw => ?_, fun _ => ?_⟩
    · rcases List.mem_cons.1 hw with rfl | hin
      · simp only; omega
      · have := h2 w hin; omega
    · by_cases hz : zs = []
      · subst hz; exact ⟨_, List.mem_cons_self, by simp⟩
      · obtain ⟨w, hw, he⟩ := h3 hz
        exact ⟨w, List.mem_cons_of_mem _ hw, by omega⟩

/-- taking d pages from one zone takes d pages from the total -/
theorem pages_cut (zs : List ℕ) (hnd : zs.Nodup) {z d : ℕ} (hz : z ∈ zs) {size : Word}
    (hs : size.toNat / 4096 + d = (T.zone z).size.toNat / 4096) :
    (zs.map fun i => ((setSize T z size).zone i).size.toNat / 4096).sum + d =
      (zs.map fun i => (T.zone i).size.toNat / 4096).sum := by
  have hother : ∀ i, i ≠ z → (setSize T z size).zone i = T.zone i := fun i hne => if_neg hne
  have hself : ((setSize T z size).zone z).size = size := by simp [setSize]
  induction zs with
  | nil => cases hz
  | cons y zs ih =>
    obtain ⟨hnin, hnd⟩ := List.nodup_cons.1 hnd
    simp only [List.map_cons, List.sum_cons]
    by_cases hy : y = z
    · subst hy
      have hrest : (zs.map fun i => ((setSize T y size).zone i).size.toNat / 4096) =
          zs.map fun i => (T.zone i).size.toNat / 4096 := by
        refine List.map_congr_left fun i hi => ?_
        rw [hother i (by rintro rfl; exact hnin hi)]
      rw [hself, hrest]
      omega
    · have := ih hnd ((List.mem_cons.1 hz).resolve_left (Ne.symm hy))
      rw [hother y hy]
      omega

/-- **The descriptors fit in what was cut off exactly for the sizes that round well.** -/
theorem memMap_fits_iff (h : TableOk T) (hi : ImageOk img) {r : Result} (hr : memMapCreate T img = some r) :
    Fits T r ↔ ¬ (1 ≤ 3 * (totalSize T / 4096) % 1027 ∧ 3 * (totalSize T / 4096) % 1027 ≤ 3) := by
  obtain ⟨⟨T', addr⟩, hc, rfl⟩ := Option.map_eq_some_iff.1 hr
  obtain ⟨z, hz, hle, hT', haddr⟩ := cut_spec h hi hc
  have hneed := h.need_eq
  rw [← need_fits]
  set p := totalSize T / 4096 with hp
  set ceil := pageCeil (BitVec.ofNat 32 (needSize T)) with hceil
  have hsub : ((T.zone z).size - ceil).toNat = (T.zone z).size.toNat - 4096 * cutPages p := by
    rw [BitVec.toNat_sub_of_le (BitVec.le_def.2 hle), hneed]
  rw [hneed] at hle
  have hpages : (T.all.map fun i => (T.zone i).size.toNat / 4096).sum = p := by
    have := total_pages T.all h.size_dvd
    rw [← totalSize] at this
    omega
  have hall : T'.all = T.all := by rw [hT']; rfl
  have hcut : (T.all.map fun i => (T'.zone i).size.toNat / 4096).sum + cutPages p = p := by
    rw [hT', ← hpages]
    have hd := h.size_dvd z hz
    refine pages_cut T.all h.nodup hz ?_
    rw [hpages, hsub]
    omega
  obtain ⟨h1, h2, h3⟩ := mapLoop_spec T'.all T' 0
  rw [hall, Nat.zero_add] at h2 h3
  have hsize : ∀ i, ((mapLoop T' 0 T'.all).1.zone i).size = if i = z then (T.zone z).size - ceil else (T.zone i).size := by
    intro i
    rw [h1, hT']
    simp only [setSize]
    split_ifs <;> rfl
  constructor
  · rintro ⟨z', -, -, hw⟩
    obtain ⟨w, hin, he⟩ := h3 (List.ne_nil_of_mem hz)
    have := hw w (by rw [hall]; exact hin)
    simp only [hsize, sizeofMemMap] at this
    split_ifs at this with hzz
    · rw [hsub, hzz] at this; omega
    · omega
  · intro hfit
    refine ⟨z, hz, ?_, fun w hw => ?_⟩
    · simp only [hsize, if_true]; exact haddr
    · have := h2 w (by rw [← hall]; exact hw)
      simp only [hsize, if_true, hsub, sizeofMemMap]
      omega

/-! ## Two machines of about 127 MB -/

/-- 159 and 3840 pages of DMA memory, and the given number of pages of normal memory -/
def pcTable (pages : ℕ) : ZoneTable where
  zone := fun z =>
    if z = 0 then ⟨0#32, 0x9F000#32, 0, 0⟩
    else if z = 1 then ⟨0x100000#32, 0xF00000#32, 0, 0⟩
    else if z = 2 then ⟨0x1000000#32, BitVec.ofNat 32 (4096 * pages), 0, 0⟩
    else ⟨0#32, 0#32, 0, 0⟩
  chain := fun t => if t = zoneDma then [0, 1] else if t = zoneNormal then [2] else []

def pcImage : Image := ⟨0xC0100000#32, 0xC0300000#32⟩

theorem pcImage_ok : ImageOk pcImage := by unfold ImageOk; decide

theorem pcTable_all (pages : ℕ) : (pcTable pages).all = [0, 1, 2] := rfl

theorem mem_pcTable {pages z : ℕ} (h : z ∈ (pcTable pages).all) : z = 0 ∨ z = 1 ∨ z = 2 := by
  rw [pcTable_all] at h
  simpa using h

theorem pcTable_ok {pages : ℕ} (h : pages < 2 ^ 16) : TableOk (pcTable pages) := by
  have h0 : (pcTable pages).zone 0 = ⟨0#32, 0x9F000#32, 0, 0⟩ := rfl
  have h1 : (pcTable pages).zone 1 = ⟨0x100000#32, 0xF00000#32, 0, 0⟩ := rfl
  have h2 : (pcTable pages).zone 2 = ⟨0x1000000#32, BitVec.ofNat 32 (4096 * pages), 0, 0⟩ := rfl
  refine ⟨fun t ht => ?_, ?_, fun z hz => ?_, fun z hz => ?_, fun z hz => ?_⟩
  · simp only [pcTable]
    rw [if_neg, if_neg]
    · rintro rfl; exact absurd ht (by decide)
    · rintro rfl; exact absurd ht (by decide)
  · rw [pcTable_all]; decide
  · rcases mem_pcTable hz with rfl | rfl | rfl <;> decide
  · rcases mem_pcTable hz with rfl | rfl | rfl
    · rw [h0]; decide
    · rw [h1]; decide
    · rw [h2, BitVec.toNat_ofNat, Nat.mod_eq_of_lt (by omega)]
      exact Dvd.intro _ rfl
  · rcases mem_pcTable hz with rfl | rfl | rfl
    · rw [h0]; decide
    · rw [h1]; decide
    · rw [h2, BitVec.toNat_ofNat, BitVec.toNat_ofNat]
      omega

def pcResult : Result := (memMapCreate (pcTable 28522) pcImage).get (by decide +kernel)

theorem memMap_pc : Fits (pcTable 28522) pcResult :=
  (memMap_fits_iff (pcTable_ok (by norm_num)) pcImage_ok (Option.some_get _).symm).2 (by decide)

/-- one page more: 32522 pages, and 3 * 32522 = 95 * 1027 + 1 -/
def overflowResult : Result := (memMapCreate (pcTable 28523) pcImage).get (by decide +kernel)

/-- The descriptors of 32427 pages take 389124 bytes, and 95 pages of 389120 bytes were cut off. -/
theorem memMap_overflow : TableOk (pcTable 28523) ∧ memMapCreate (pcTable 28523) pcImage = some overflowResult ∧
    ¬ Fits (pcTable 28523) overflowResult := by
  refine ⟨pcTable_ok (by norm_num), (Option.some_get _).symm, ?_⟩
  rintro ⟨z, hz, -, hw⟩
  have hlast := hw (3999, 32427) (by decide +kernel)
  rcases mem_pcTable hz with rfl | rfl | rfl <;> revert hlast <;> decide +kernel

end SinsOs.MemMap
