/-
From the boot memory map to the zone table: add_to_zones_list, init_fast_zone_entry and mem_zones_create
(kernel/mm/init.c).

Addresses are 32-bit words, the memory map has 64-bit fields. `segments` says what an entry should give: its whole pages,
cut at the two zone limits. `EntryOk` is the condition under which add_to_zones_list gives that (`add_spec`); the code
compares the aligned base plus the unaligned size with the limits, so the alignment gap of an entry can carry its end
over a limit or below zero (`add_bad`). `none` is the BUG_ON on the number of zones.

`covers_iff`: for every sorted and disjoint memory map with enough room in zones_list, the zones are right if and only if
every usable entry is `EntryOk`.
-/
import SinsOs.Mm.Zone

namespace SinsOs.ZonesCreate

open SinsOs.Bits SinsOs.Mm

/-! ## Model -/

/-- the fields of an element of zones_list that boot fills in -/
structure BootZone where
  baseAddr : Word
  size : Word
  next : Option ℕ
deriving DecidableEq, Repr

structure Boot where
  zones : ℕ → BootZone
  fast : ℕ → Option ℕ
  /-- the elements of zones_list written so far, the last one first -/
  writes : List ℕ

/-- struct memory_map -/
structure MemoryMap where
  baseAddr : BitVec 64
  size : BitVec 64
  type : Word
deriving DecidableEq, Repr

def mmapUsable : Word := 0x1#32

def MemoryMap.usable (e : MemoryMap) : Prop := e.type = mmapUsable

instance (e : MemoryMap) : Decidable e.usable := by unfold MemoryMap.usable; infer_instance

namespace Boot

variable (b : Boot)

def setNext (i : ℕ) (n : Option ℕ) : Boot :=
  { b with zones := fun j => if j = i then { b.zones i with next := n } else b.zones j, writes := i :: b.writes }

def setRange (i : ℕ) (base size : Word) : Boot :=
  { b with
    zones := fun j => if j = i then { b.zones i with baseAddr := base, size := size } else b.zones j
    writes := i :: b.writes }

/-- the part of an entry up to a limit, if it has a page; with the number of zones made -/
def addPart (i : ℕ) (base size : Word) : Boot × ℕ :=
  if size ≥ pageSize then (b.setRange i base size, 1) else (b, 0)

end Boot

/-- the body of add_to_zones_list; a range crosses two limits at most, so three calls are nested at most (`add_eq`) -/
def addLoop : ℕ → Boot → ℕ → Word → Word → Boot × ℕ
  | 0, b, _, _, _ => (b, 0)
  | depth + 1, b, index, base, size =>
    let alignedBase := pageAlign base
    let alignedSize := size - (alignedBase - base)
    if alignedSize < pageSize then (b, 0)
    else
      let b := b.setNext index none
      let r :=
        if alignedBase < zoneDmaLimit ∧ alignedBase + size ≥ zoneDmaLimit then
          let p := b.addPart index alignedBase (zoneDmaLimit - alignedBase)
          let q := addLoop depth p.1 (index + p.2) zoneDmaLimit (base + size - zoneDmaLimit)
          (q.1, p.2 + q.2)
        else if alignedBase < zoneNormalLimit ∧ alignedBase + size ≥ zoneNormalLimit then
          let p := b.addPart index alignedBase (zoneNormalLimit - alignedBase)
          let q := addLoop depth p.1 (index + p.2) zoneNormalLimit (base + size - zoneNormalLimit)
          (q.1, p.2 + q.2)
        else b.addPart index alignedBase (pageFloor alignedSize)
      if r.2 ≠ 0 ∧ index ≠ 0 then (r.1.setNext (index - 1) (some index), r.2) else r

def addToZonesList (b : Boot) (index : ℕ) (base size : Word) : Boot × ℕ := addLoop 3 b index base size

def fourGB : BitVec 64 := 0x100000000#64

/-- the loop of mem_zones_create: the base of the entry before, the number of zones so far -/
def createLoop (b : Boot) (baseAddr : BitVec 64) (zonesIndex : ℕ) : List MemoryMap → Option (Boot × ℕ)
  | [] => some (b, zonesIndex)
  | e :: es =>
    if e.usable ∧ e.baseAddr ≥ baseAddr then
      if e.baseAddr + e.size ≥ fourGB then some (b, zonesIndex)
      else
        let r := addToZonesList b zonesIndex (e.baseAddr.setWidth 32) (e.size.setWidth 32)
        if zonesIndex + r.2 ≥ nrZones then none else createLoop r.1 e.baseAddr (zonesIndex + r.2) es
    else createLoop b e.baseAddr zonesIndex es

/-! ### init_fast_zone_entry -/

def Boot.setFast (b : Boot) (t i : ℕ) : Boot :=
  if b.fast t = none then { b with fast := fun t' => if t' = t then some i else b.fast t' } else b

/-- end the chain at zone i if the next zone starts at the limit or above it -/
def Boot.cutAt (b : Boot) (i : ℕ) (limit : Word) : Boot :=
  match (b.zones i).next with
  | some n => if (b.zones n).baseAddr ≥ limit then b.setNext i none else b
  | none => b

/-- the body of the while loop -/
def classify (b : Boot) (i : ℕ) : Boot :=
  let base := (b.zones i).baseAddr
  if base < zoneDmaLimit then (b.setFast zoneDma i).cutAt i zoneDmaLimit
  else if base ≥ zoneDmaLimit ∧ base < zoneNormalLimit then (b.setFast zoneNormal i).cutAt i zoneNormalLimit
  else if base ≥ zoneNormalLimit then b.setFast zoneHighmem i
  else b

/-- the while loop; a chain has at most as many zones as zones_list has elements -/
def classifyLoop : ℕ → Boot → Option ℕ → Boot
  | 0, b, _ => b
  | _ + 1, b, none => b
  | fuel + 1, b, some i => classifyLoop fuel (classify b i) (b.zones i).next

def initFastZoneEntry (b : Boot) : Boot :=
  classifyLoop nrZones { b with fast := fun _ => none } (some 0)

/-- zones_list and fast_zone_entry in the zeroed data of the kernel -/
def Boot.zero : Boot := ⟨fun _ => ⟨0#32, 0#32, none⟩, fun _ => none, []⟩

/-- the zone table and the number of zones in it -/
def memZonesCreate (es : List MemoryMap) : Option (Boot × ℕ) :=
  (createLoop .zero 0#64 0 es).map fun r => (initFastZoneEntry r.1, r.2)

/-- zone_type_for_each: the zones that the next pointers lead to -/
def Boot.follow (b : Boot) : ℕ → Option ℕ → List ℕ
  | 0, _ => []
  | _ + 1, none => []
  | fuel + 1, some i => i :: b.follow fuel (b.zones i).next

def Boot.chain (b : Boot) (t : ℕ) : List ℕ := b.follow nrZones (b.fast t)

/-! ## What an entry should give -/

/-- the zone limits as numbers -/
def dmaLimit : ℕ := zoneDmaLimit.toNat
def normalLimit : ℕ := zoneNormalLimit.toNat

def roundUp (a : ℕ) : ℕ := (a + 4095) / 4096 * 4096

/-- the part of [a, f) between two limits -/
def piece (lo hi a f : ℕ) : List (ℕ × ℕ) := if max lo a < min hi f then [(max lo a, min hi f)] else []

/-- the whole pages of [base, stop), cut at the limits -/
def segments (base stop : ℕ) : List (ℕ × ℕ) :=
  piece 0 dmaLimit (roundUp base) (stop / 4096 * 4096) ++ piece dmaLimit normalLimit (roundUp base) (stop / 4096 * 4096) ++
    piece normalLimit (2 ^ 32) (roundUp base) (stop / 4096 * 4096)

/-- the addresses of zone i -/
def Boot.range (b : Boot) (i : ℕ) : ℕ × ℕ :=
  ((b.zones i).baseAddr.toNat, (b.zones i).baseAddr.toNat + (b.zones i).size.toNat)

/-- the alignment gap fits in the entry and does not carry its end over a limit -/
def RangeOk (base size : ℕ) : Prop :=
  roundUp base ≤ base + size ∧ (roundUp base + 4096 ≤ base + size →
    ¬ (roundUp base < dmaLimit ∧ base + size < dmaLimit ∧ dmaLimit ≤ roundUp base + size) ∧
    ¬ (dmaLimit ≤ roundUp base ∧ roundUp base < normalLimit ∧ base + size < normalLimit ∧
      normalLimit ≤ roundUp base + size) ∧
    ¬ (roundUp base < normalLimit ∧ 2 ^ 32 ≤ roundUp base + size))

theorem dmaLimit_eq : dmaLimit = 0x1000000 := rfl
theorem normalLimit_eq : normalLimit = 0x38000000 := rfl

/-! ## Filling zones_list -/

/-- the zones from `index` on are `segs`, chained to each other; the zones before are untouched -/
structure Filled (b b' : Boot) (index : ℕ) (segs : List (ℕ × ℕ)) : Prop where
  before : ∀ i < index, b'.zones i = b.zones i
  range : ∀ j r, segs[j]? = some r → b'.range (index + j) = r
  next : ∀ j < segs.length, (b'.zones (index + j)).next = if j + 1 < segs.length then some (index + j + 1) else none

/-- and the zone before `index` is chained to them -/
structure Added (b b' : Boot) (index : ℕ) (segs : List (ℕ × ℕ)) : Prop where
  rangeBefore : ∀ i < index, b'.range i = b.range i
  nextBefore : ∀ i, i + 1 < index → (b'.zones i).next = (b.zones i).next
  nextPrev : ∀ i, i + 1 = index → (b'.zones i).next = if segs = [] then (b.zones i).next else some index
  range : ∀ j r, segs[j]? = some r → b'.range (index + j) = r
  next : ∀ j < segs.length, (b'.zones (index + j)).next = if j + 1 < segs.length then some (index + j + 1) else none

variable {b b' : Boot} {index : ℕ} {segs : List (ℕ × ℕ)}

theorem zones_setNext (i : ℕ) (n : Option ℕ) (j : ℕ) :
    (b.setNext i n).zones j = if j = i then { b.zones i with next := n } else b.zones j := rfl

theorem zones_setRange (i : ℕ) (base size : Word) (j : ℕ) :
    (b.setRange i base size).zones j = if j = i then { b.zones i with baseAddr := base, size := size } else b.zones j :=
  rfl

theorem range_setNext (i : ℕ) (n : Option ℕ) (j : ℕ) : (b.setNext i n).range j = b.range j := by
  simp only [Boot.range, zones_setNext]
  split_ifs with h
  · rw [h]
  · rfl

/-- the last statement of add_to_zones_list -/
def link (r : Boot × ℕ) (index : ℕ) : Boot × ℕ :=
  if r.2 ≠ 0 ∧ index ≠ 0 then (r.1.setNext (index - 1) (some index), r.2) else r

theorem Filled.link {r : Boot × ℕ} (h : Filled b r.1 index segs) (hr : r.2 = segs.length) :
    Added b (link r index).1 index segs ∧ (link r index).2 = segs.length := by
  have hrange : ∀ j, (ZonesCreate.link r index).1.range j = r.1.range j := by
    intro j
    unfold ZonesCreate.link
    split_ifs
    · exact range_setNext _ _ _
    · rfl
  have hcount : (ZonesCreate.link r index).2 = r.2 := by unfold ZonesCreate.link; split_ifs <;> rfl
  have hzones : ∀ j, j + 1 ≠ index → (ZonesCreate.link r index).1.zones j = r.1.zones j := by
    intro j hj
    unfold ZonesCreate.link
    split_ifs with hc
    · rw [zones_setNext, if_neg (by omega)]
    · rfl
  refine ⟨⟨fun i hi => ?_, fun i hi => ?_, fun i hi => ?_, fun j x hj => ?_, fun j hj => ?_⟩, hcount.trans hr⟩
  · rw [hrange, Boot.range, h.before i hi]; rfl
  · rw [hzones i (by omega), h.before i (by omega)]
  · unfold ZonesCreate.link
    have hnil : segs = [] ↔ r.2 = 0 := by rw [hr, List.length_eq_zero_iff]
    by_cases hc : segs = []
    · rw [if_pos hc, if_neg (fun hn => hn.1 (hnil.1 hc)), h.before i (by omega)]
    · rw [if_neg hc, if_pos ⟨fun h0 => hc (hnil.2 h0), by omega⟩, zones_setNext, if_pos (by omega)]
  · rw [hrange, h.range j x hj]
  · rw [hzones _ (by omega), h.next j hj]

theorem Filled.nil : Filled b (b.setNext index none) index [] :=
  ⟨fun i hi => by rw [zones_setNext, if_neg (by omega)], by simp, by simp⟩

/-- one zone, and behind it what a nested call adds -/
theorem Filled.cons {base size : Word}
    (h : Added ((b.setNext index none).setRange index base size) b' (index + 1) segs) :
    Filled b b' index ((base.toNat, base.toNat + size.toNat) :: segs) := by
  have hzero : ((b.setNext index none).setRange index base size).zones index = ⟨base, size, none⟩ := by
    rw [zones_setRange, if_pos rfl, zones_setNext, if_pos rfl]
  have hother : ∀ i, i ≠ index → ((b.setNext index none).setRange index base size).zones i = b.zones i := by
    intro i hi
    rw [zones_setRange, if_neg hi, zones_setNext, if_neg hi]
  refine ⟨fun i hi => ?_, fun j x hj => ?_, fun j hj => ?_⟩
  · have h1 := h.rangeBefore i (by omega)
    have h2 := h.nextBefore i (by omega)
    rw [hother i (by omega)] at h2
    simp only [Boot.range, hother i (by omega), Prod.mk.injEq] at h1
    have h3 : (b'.zones i).baseAddr = (b.zones i).baseAddr := BitVec.eq_of_toNat_eq h1.1
    have h4 : (b'.zones i).size = (b.zones i).size := BitVec.eq_of_toNat_eq (by rw [h3] at h1; omega)
    calc b'.zones i = ⟨(b'.zones i).baseAddr, (b'.zones i).size, (b'.zones i).next⟩ := rfl
      _ = b.zones i := by rw [h2, h3, h4]
  · cases j with
    | zero =>
      rw [Nat.add_zero, h.rangeBefore index (by omega), Boot.range, hzero]
      simpa using hj
    | succ j =>
      rw [← Nat.add_assoc, Nat.add_right_comm]
      exact h.range j x (by simpa using hj)
  · cases j with
    | zero =>
      rw [Nat.add_zero, h.nextPrev index rfl, hzero]
      by_cases hs : segs = []
      · simp [hs]
      · have : 0 < segs.length := List.length_pos_iff.2 hs
        simp [hs]
    | succ j =>
      rw [← Nat.add_assoc, Nat.add_right_comm, h.next j (by simpa using hj)]
      simp

theorem Added.nil : Added b b index [] :=
  ⟨fun _ _ => rfl, fun _ _ => rfl, fun _ _ => by simp, by simp, by simp⟩

/-- the effect of a call that finds `segs` -/
def Adds (index : ℕ) (base size : Word) (segs : List (ℕ × ℕ)) : Prop :=
  ∀ b, Added b (addToZonesList b index base size).1 index segs ∧ (addToZonesList b index base size).2 = segs.length

/-! ## The recursion of the source -/

/-- how many limits lie ahead of an address -/
def limitsAhead (a : Word) : ℕ := if a < zoneDmaLimit then 2 else if a < zoneNormalLimit then 1 else 0

theorem limitsAhead_dma {a : Word} (h : a < zoneDmaLimit) :
    limitsAhead (pageAlign zoneDmaLimit) < limitsAhead a := by
  have h1 : limitsAhead (pageAlign zoneDmaLimit) = 1 := by decide
  rw [h1, limitsAhead, if_pos h]
  norm_num

theorem limitsAhead_normal {a : Word} (h : a < zoneNormalLimit) :
    limitsAhead (pageAlign zoneNormalLimit) < limitsAhead a := by
  have h1 : limitsAhead (pageAlign zoneNormalLimit) = 0 := by decide
  rw [h1, limitsAhead]
  split_ifs
  · norm_num
  · norm_num

theorem addLoop_depth (d : ℕ) : ∀ (d' : ℕ) (b : Boot) (index : ℕ) (base size : Word),
    limitsAhead (pageAlign base) < d → limitsAhead (pageAlign base) < d' →
    addLoop d b index base size = addLoop d' b index base size := by
  induction d with
  | zero => intro d' b index base size h; omega
  | succ d ih =>
    intro d' b index base size h h'
    obtain ⟨d', rfl⟩ : ∃ c, d' = c + 1 := ⟨d' - 1, by omega⟩
    rw [addLoop, addLoop]
    by_cases hs : size - (pageAlign base - base) < pageSize
    · simp only [hs, if_true]
    · by_cases h1 : pageAlign base < zoneDmaLimit ∧ pageAlign base + size ≥ zoneDmaLimit
      · have hlt := limitsAhead_dma h1.1
        simp only [hs, h1, and_self, if_true, if_false, ih d' _ _ zoneDmaLimit _ (by omega) (by omega)]
      · by_cases h2 : pageAlign base < zoneNormalLimit ∧ pageAlign base + size ≥ zoneNormalLimit
        · have hlt := limitsAhead_normal h2.1
          simp only [hs, h1, h2, and_self, if_true, if_false, ih d' _ _ zoneNormalLimit _ (by omega) (by omega)]
        · simp only [hs, h1, h2, if_false]

theorem limitsAhead_le (a : Word) : limitsAhead a ≤ 2 := by
  unfold limitsAhead
  split_ifs <;> omega

/-- add_to_zones_list calls itself -/
theorem add_eq (b : Boot) (index : ℕ) (base size : Word) :
    addToZonesList b index base size =
      if size - (pageAlign base - base) < pageSize then (b, 0)
      else link
        (if pageAlign base < zoneDmaLimit ∧ pageAlign base + size ≥ zoneDmaLimit then
          let p := (b.setNext index none).addPart index (pageAlign base) (zoneDmaLimit - pageAlign base)
          let q := addToZonesList p.1 (index + p.2) zoneDmaLimit (base + size - zoneDmaLimit)
          (q.1, p.2 + q.2)
        else if pageAlign base < zoneNormalLimit ∧ pageAlign base + size ≥ zoneNormalLimit then
          let p := (b.setNext index none).addPart index (pageAlign base) (zoneNormalLimit - pageAlign base)
          let q := addToZonesList p.1 (index + p.2) zoneNormalLimit (base + size - zoneNormalLimit)
          (q.1, p.2 + q.2)
        else (b.setNext index none).addPart index (pageAlign base) (pageFloor (size - (pageAlign base - base)))) index := by
  have hle := limitsAhead_le (pageAlign base)
  rw [addToZonesList, addLoop_depth 3 4 b index base size (by omega) (by omega), addLoop]
  rfl

variable {base size : Word}

/-- a zone up to a limit, and behind it what the nested call adds -/
def cutAdd (b : Boot) (index : ℕ) (base size limit : Word) : Boot × ℕ :=
  let q := addToZonesList ((b.setNext index none).setRange index (pageAlign base) (limit - pageAlign base)) (index + 1)
    limit (base + size - limit)
  link (q.1, 1 + q.2) index

theorem addPart_page {i : ℕ} {len : Word} (h : pageSize ≤ len) : b.addPart i base len = (b.setRange i base len, 1) :=
  if_pos h

/-- between an aligned address and a limit there is a page -/
theorem page_before {limit : Word} (hd : 4096 ∣ limit.toNat) (h : pageAlign base < limit) :
    pageSize ≤ limit - pageAlign base := by
  have hlt := BitVec.lt_def.1 h
  have hp : pageSize.toNat = 4096 := by decide
  have halign : (pageAlign base).toNat % 4096 = 0 := by rw [pageAlign_toNat]; exact Nat.mul_mod_left _ _
  rw [BitVec.le_def, BitVec.toNat_sub_of_le (BitVec.le_def.2 hlt.le)]
  omega

theorem add_small (h : size - (pageAlign base - base) < pageSize) : addToZonesList b index base size = (b, 0) := by
  rw [add_eq, if_pos h]

/-- no limit lies in the entry -/
theorem add_leaf (hs : ¬ size - (pageAlign base - base) < pageSize)
    (h1 : ¬ (pageAlign base < zoneDmaLimit ∧ pageAlign base + size ≥ zoneDmaLimit))
    (h2 : ¬ (pageAlign base < zoneNormalLimit ∧ pageAlign base + size ≥ zoneNormalLimit)) :
    addToZonesList b index base size = link ((b.setNext index none).setRange index (pageAlign base)
      (pageFloor (size - (pageAlign base - base))), 1) index := by
  have hfloor : pageSize ≤ pageFloor (size - (pageAlign base - base)) := by
    rw [BitVec.lt_def] at hs
    rw [BitVec.le_def, pageFloor_toNat]
    have : pageSize.toNat = 4096 := by decide
    omega
  rw [add_eq, if_neg hs, if_neg h1, if_neg h2, addPart_page hfloor]

/-- the DMA limit lies in the entry, or so the comparison says -/
theorem add_dma (hs : ¬ size - (pageAlign base - base) < pageSize)
    (h1 : pageAlign base < zoneDmaLimit ∧ pageAlign base + size ≥ zoneDmaLimit) :
    addToZonesList b index base size = cutAdd b index base size zoneDmaLimit := by
  rw [add_eq, if_neg hs, if_pos h1, addPart_page (page_before (by decide) h1.1)]
  rfl

theorem add_normal (hs : ¬ size - (pageAlign base - base) < pageSize)
    (h1 : ¬ (pageAlign base < zoneDmaLimit ∧ pageAlign base + size ≥ zoneDmaLimit))
    (h2 : pageAlign base < zoneNormalLimit ∧ pageAlign base + size ≥ zoneNormalLimit) :
    addToZonesList b index base size = cutAdd b index base size zoneNormalLimit := by
  rw [add_eq, if_neg hs, if_neg h1, if_pos h2, addPart_page (page_before (by decide) h2.1)]
  rfl

theorem adds_small (h : size - (pageAlign base - base) < pageSize) : Adds index base size [] := by
  intro b
  rw [add_small h]
  exact ⟨Added.nil, rfl⟩

theorem adds_leaf (hs : ¬ size - (pageAlign base - base) < pageSize)
    (h1 : ¬ (pageAlign base < zoneDmaLimit ∧ pageAlign base + size ≥ zoneDmaLimit))
    (h2 : ¬ (pageAlign base < zoneNormalLimit ∧ pageAlign base + size ≥ zoneNormalLimit)) :
    Adds index base size [((pageAlign base).toNat,
      (pageAlign base).toNat + (pageFloor (size - (pageAlign base - base))).toNat)] := by
  intro b
  rw [add_leaf hs h1 h2]
  exact (Filled.cons Added.nil).link rfl

/-- the zone up to a limit in the entry, before those of the nested call -/
theorem adds_cut {limit : Word} (h : pageAlign base < limit)
    (hadd : ∀ b, addToZonesList b index base size = cutAdd b index base size limit)
    (hrest : Adds (index + 1) limit (base + size - limit) segs) :
    Adds index base size (((pageAlign base).toNat, limit.toNat) :: segs) := by
  intro b
  have hlt := BitVec.lt_def.1 h
  have hsub : (limit - pageAlign base).toNat = limit.toNat - (pageAlign base).toNat :=
    BitVec.toNat_sub_of_le (BitVec.le_def.2 hlt.le)
  obtain ⟨ha, hc⟩ := hrest ((b.setNext index none).setRange index (pageAlign base) (limit - pageAlign base))
  have hf := Filled.cons ha
  rw [hsub, Nat.add_sub_cancel' hlt.le] at hf
  rw [hadd]
  refine Filled.link (r := (_, 1 + _)) hf ?_
  simp only [hc, List.length_cons]
  omega

theorem adds_dma (hs : ¬ size - (pageAlign base - base) < pageSize)
    (h1 : pageAlign base < zoneDmaLimit ∧ pageAlign base + size ≥ zoneDmaLimit)
    (hrest : Adds (index + 1) zoneDmaLimit (base + size - zoneDmaLimit) segs) :
    Adds index base size (((pageAlign base).toNat, dmaLimit) :: segs) :=
  adds_cut h1.1 (fun _ => add_dma hs h1) hrest

theorem adds_normal (hs : ¬ size - (pageAlign base - base) < pageSize)
    (h1 : ¬ (pageAlign base < zoneDmaLimit ∧ pageAlign base + size ≥ zoneDmaLimit))
    (h2 : pageAlign base < zoneNormalLimit ∧ pageAlign base + size ≥ zoneNormalLimit)
    (hrest : Adds (index + 1) zoneNormalLimit (base + size - zoneNormalLimit) segs) :
    Adds index base size (((pageAlign base).toNat, normalLimit) :: segs) :=
  adds_cut h2.1 (fun _ => add_normal hs h1 h2) hrest

/-! ## The segments of an entry -/

theorem roundUp_dvd (a : ℕ) : 4096 ∣ roundUp a := Dvd.intro_left _ rfl

theorem roundUp_dma : roundUp dmaLimit = dmaLimit := by norm_num [roundUp, dmaLimit_eq]
theorem roundUp_normal : roundUp normalLimit = normalLimit := by norm_num [roundUp, normalLimit_eq]

theorem piece_nil {lo hi a f : ℕ} (h : f ≤ lo ∨ f ≤ a ∨ hi ≤ a) : piece lo hi a f = [] := by
  rw [piece, if_neg]
  omega

theorem piece_all {lo hi a f : ℕ} (h1 : lo ≤ a) (h2 : f ≤ hi) (h3 : a < f) : piece lo hi a f = [(a, f)] := by
  rw [piece, Nat.max_eq_right h1, Nat.min_eq_right h2, if_pos h3]

theorem piece_cut {lo hi a f : ℕ} (h1 : lo ≤ a) (h2 : hi ≤ f) (h3 : a < hi) : piece lo hi a f = [(a, hi)] := by
  rw [piece, Nat.max_eq_right h1, Nat.min_eq_left h2, if_pos h3]

/-- below the lower limit it does not matter where the entry starts -/
theorem piece_start {lo hi a f : ℕ} (h : a ≤ lo) : piece lo hi a f = piece lo hi lo f := by
  rw [piece, piece, Nat.max_eq_left h, Nat.max_self]

theorem segments_nil {a e : ℕ} (h : e < roundUp a + 4096) : segments a e = [] := by
  obtain ⟨q, hq⟩ := roundUp_dvd a
  have hf : e / 4096 * 4096 ≤ roundUp a := by omega
  rw [segments, piece_nil (Or.inr (Or.inl hf)), piece_nil (Or.inr (Or.inl hf)), piece_nil (Or.inr (Or.inl hf))]
  rfl

theorem segments_low {a e : ℕ} (h : roundUp a + 4096 ≤ e) (he : e < dmaLimit) :
    segments a e = [(roundUp a, e / 4096 * 4096)] := by
  obtain ⟨q, hq⟩ := roundUp_dvd a
  have hle : dmaLimit ≤ normalLimit := by norm_num [dmaLimit_eq, normalLimit_eq]
  rw [segments, piece_all (Nat.zero_le _) (by omega) (by omega), piece_nil (Or.inl (by omega)),
    piece_nil (Or.inl (by omega))]
  rfl

theorem segments_mid {a e : ℕ} (h : roundUp a + 4096 ≤ e) (ha : dmaLimit ≤ roundUp a) (he : e < normalLimit) :
    segments a e = [(roundUp a, e / 4096 * 4096)] := by
  obtain ⟨q, hq⟩ := roundUp_dvd a
  rw [segments, piece_nil (Or.inr (Or.inr ha)), piece_all ha (by omega) (by omega), piece_nil (Or.inl (by omega))]
  rfl

theorem segments_high {a e : ℕ} (h : roundUp a + 4096 ≤ e) (ha : normalLimit ≤ roundUp a) (he : e < 2 ^ 32) :
    segments a e = [(roundUp a, e / 4096 * 4096)] := by
  obtain ⟨q, hq⟩ := roundUp_dvd a
  have hle : dmaLimit ≤ normalLimit := by norm_num [dmaLimit_eq, normalLimit_eq]
  rw [segments, piece_nil (Or.inr (Or.inr (hle.trans ha))), piece_nil (Or.inr (Or.inr ha)),
    piece_all ha (by omega) (by omega)]
  rfl

theorem segments_dma {a e : ℕ} (ha : roundUp a < dmaLimit) (he : dmaLimit ≤ e) :
    segments a e = (roundUp a, dmaLimit) :: segments dmaLimit e := by
  have hle : dmaLimit ≤ normalLimit := by norm_num [dmaLimit_eq, normalLimit_eq]
  have hf : dmaLimit ≤ e / 4096 * 4096 := by rw [dmaLimit_eq] at *; omega
  rw [segments, segments, roundUp_dma, piece_cut (Nat.zero_le _) hf ha,
    piece_nil (a := dmaLimit) (Or.inr (Or.inr le_rfl)), piece_start ha.le, piece_start (ha.le.trans hle),
    piece_start (a := dmaLimit) hle]
  rfl

theorem segments_normal {a e : ℕ} (ha : dmaLimit ≤ roundUp a) (ha' : roundUp a < normalLimit) (he : normalLimit ≤ e) :
    segments a e = (roundUp a, normalLimit) :: segments normalLimit e := by
  have hle : dmaLimit ≤ normalLimit := by norm_num [dmaLimit_eq, normalLimit_eq]
  have hf : normalLimit ≤ e / 4096 * 4096 := by rw [normalLimit_eq] at *; omega
  rw [segments, segments, roundUp_normal, piece_nil (Or.inr (Or.inr ha)), piece_cut ha hf ha',
    piece_nil (Or.inr (Or.inr hle)), piece_nil (Or.inr (Or.inr le_rfl)), piece_start ha'.le]
  rfl

/-! ## add_to_zones_list on an entry -/

theorem aligned_toNat (hr : roundUp base.toNat ≤ base.toNat + size.toNat) (hw : base.toNat + size.toNat < 2 ^ 32) :
    (pageAlign base).toNat = roundUp base.toNat ∧
      (size - (pageAlign base - base)).toNat = base.toNat + size.toNat - roundUp base.toNat := by
  have hle : base.toNat ≤ roundUp base.toNat := by unfold roundUp; omega
  have ha : (pageAlign base).toNat = roundUp base.toNat := by
    rw [pageAlign_toNat]
    unfold roundUp at *
    rw [Nat.mod_eq_of_lt (by omega)]
  have hgap : (pageAlign base - base).toNat = roundUp base.toNat - base.toNat := by
    rw [BitVec.toNat_sub_of_le (BitVec.le_def.2 (by omega)), ha]
  refine ⟨ha, ?_⟩
  rw [BitVec.toNat_sub_of_le (BitVec.le_def.2 (by omega)), hgap]
  omega

/-- **add_to_zones_list on a good range.** -/
theorem add_spec (n : ℕ) : ∀ (index : ℕ) (base size : Word), limitsAhead (pageAlign base) = n →
    base.toNat + size.toNat < 2 ^ 32 → RangeOk base.toNat size.toNat →
    Adds index base size (segments base.toNat (base.toNat + size.toNat)) := by
  induction n using Nat.strong_induction_on with
  | _ n ih =>
    intro index base size hn hw hok
    obtain ⟨hr, hok⟩ := hok
    obtain ⟨ha, hs⟩ := aligned_toNat hr hw
    have hp : pageSize.toNat = 4096 := by decide
    have hd : zoneDmaLimit.toNat = 0x1000000 := rfl
    have hnl : zoneNormalLimit.toNat = 0x38000000 := rfl
    by_cases hsmall : base.toNat + size.toNat < roundUp base.toNat + 4096
    · rw [segments_nil hsmall]
      exact adds_small (BitVec.lt_def.2 (by omega))
    · have hbig : ¬ size - (pageAlign base - base) < pageSize := by rw [BitVec.lt_def]; omega
      obtain ⟨g1, g2, g3⟩ := hok (by omega)
      have hsum : (pageAlign base + size).toNat = (roundUp base.toNat + size.toNat) % 2 ^ 32 := by
        rw [BitVec.toNat_add, ha]
      have hle : base.toNat ≤ roundUp base.toNat := by unfold roundUp; omega
      have hfloor : roundUp base.toNat + (pageFloor (size - (pageAlign base - base))).toNat =
          (base.toNat + size.toNat) / 4096 * 4096 := by
        obtain ⟨q, hq⟩ := roundUp_dvd base.toNat
        rw [pageFloor_toNat, hs, hq]
        omega
      have hleaf : ∀ segs, segs = [(roundUp base.toNat, (base.toNat + size.toNat) / 4096 * 4096)] →
          ¬ (pageAlign base < zoneDmaLimit ∧ pageAlign base + size ≥ zoneDmaLimit) →
          ¬ (pageAlign base < zoneNormalLimit ∧ pageAlign base + size ≥ zoneNormalLimit) → Adds index base size segs := by
        rintro segs rfl hc1 hc2
        have : Adds index base size _ := adds_leaf hbig hc1 hc2
        rw [ha, hfloor] at this
        exact this
      have hinner : ∀ limit : Word, limit.toNat ≤ base.toNat + size.toNat →
          (base + size - limit).toNat = base.toNat + size.toNat - limit.toNat := by
        intro limit hl
        have hadd : (base + size).toNat = base.toNat + size.toNat := by
          rw [BitVec.toNat_add, Nat.mod_eq_of_lt hw]
        rw [BitVec.toNat_sub_of_le (BitVec.le_def.2 (by omega)), hadd]
      simp only [dmaLimit_eq, normalLimit_eq] at g1 g2 g3
      by_cases hlow : roundUp base.toNat < dmaLimit
      · have hlow' := hlow
        rw [dmaLimit_eq] at hlow'
        have hnowrap : (roundUp base.toNat + size.toNat) % 2 ^ 32 = roundUp base.toNat + size.toNat :=
          Nat.mod_eq_of_lt (by omega)
        by_cases hcross : dmaLimit ≤ base.toNat + size.toNat
        · have hcross' := hcross
          rw [dmaLimit_eq] at hcross'
          rw [segments_dma hlow hcross, ← ha]
          refine adds_dma hbig ⟨BitVec.lt_def.2 (by omega), BitVec.le_def.2 (by omega)⟩ ?_
          have hsz := hinner zoneDmaLimit (by omega)
          have hstep := ih 1 (by
            rw [← hn, limitsAhead, if_pos (BitVec.lt_def.2 (by omega))]; norm_num) (index + 1) zoneDmaLimit
            (base + size - zoneDmaLimit) (by decide) (by omega) (by
              rw [hsz, hd]
              refine ⟨by rw [← dmaLimit_eq, roundUp_dma, dmaLimit_eq]; omega, fun _ => ?_⟩
              rw [← dmaLimit_eq, roundUp_dma]
              simp only [dmaLimit_eq, normalLimit_eq]
              refine ⟨by omega, by omega, by omega⟩)
          rw [hsz, hd] at hstep
          rw [dmaLimit_eq]
          rwa [Nat.add_sub_cancel' hcross'] at hstep
        · rw [dmaLimit_eq] at hcross
          refine hleaf _ (segments_low (by omega) (by rw [dmaLimit_eq]; omega)) ?_ ?_
          · rw [BitVec.lt_def, ge_iff_le, BitVec.le_def]; omega
          · rw [BitVec.lt_def, ge_iff_le, BitVec.le_def]; omega
      · have hlow' := hlow
        rw [dmaLimit_eq] at hlow'
        have hc1 : ¬ (pageAlign base < zoneDmaLimit ∧ pageAlign base + size ≥ zoneDmaLimit) := by
          rw [BitVec.lt_def]; omega
        by_cases hmid : roundUp base.toNat < normalLimit
        · have hmid' := hmid
          rw [normalLimit_eq] at hmid'
          have hnowrap : (roundUp base.toNat + size.toNat) % 2 ^ 32 = roundUp base.toNat + size.toNat :=
            Nat.mod_eq_of_lt (by omega)
          by_cases hcross : normalLimit ≤ base.toNat + size.toNat
          · have hcross' := hcross
            rw [normalLimit_eq] at hcross'
            rw [segments_normal (by omega) hmid hcross, ← ha]
            refine adds_normal hbig hc1 ⟨BitVec.lt_def.2 (by omega), BitVec.le_def.2 (by omega)⟩ ?_
            have hsz := hinner zoneNormalLimit (by omega)
            have hstep := ih 0 (by
              rw [← hn, limitsAhead, if_neg (by rw [BitVec.lt_def]; omega), if_pos (BitVec.lt_def.2 (by omega))]
              norm_num) (index + 1) zoneNormalLimit
              (base + size - zoneNormalLimit) (by decide) (by omega) (by
                rw [hsz, hnl]
                refine ⟨by rw [← normalLimit_eq, roundUp_normal, normalLimit_eq]; omega, fun _ => ?_⟩
                rw [← normalLimit_eq, roundUp_normal]
                simp only [dmaLimit_eq, normalLimit_eq]
                refine ⟨by omega, by omega, by omega⟩)
            rw [hsz, hnl] at hstep
            rw [normalLimit_eq]
            rwa [Nat.add_sub_cancel' hcross'] at hstep
          · rw [normalLimit_eq] at hcross
            refine hleaf _ (segments_mid (by omega) (by omega) (by rw [normalLimit_eq]; omega)) hc1 ?_
            rw [BitVec.lt_def, ge_iff_le, BitVec.le_def]; omega
        · refine hleaf _ (segments_high (by omega) (by omega) hw) hc1 ?_
          rw [normalLimit_eq] at hmid
          rw [BitVec.lt_def]; omega

/-- whatever the range, a call adds some zones behind the ones that are there -/
theorem adds_exists (n : ℕ) : ∀ base size : Word, limitsAhead (pageAlign base) = n →
    ∃ segs, ∀ index, Adds index base size segs := by
  induction n using Nat.strong_induction_on with
  | _ n ih =>
    intro base size hn
    by_cases hs : size - (pageAlign base - base) < pageSize
    · exact ⟨[], fun index => adds_small hs⟩
    · by_cases h1 : pageAlign base < zoneDmaLimit ∧ pageAlign base + size ≥ zoneDmaLimit
      · obtain ⟨segs, hrest⟩ := ih _ (hn ▸ limitsAhead_dma h1.1) zoneDmaLimit (base + size - zoneDmaLimit) rfl
        exact ⟨_, fun index => adds_dma hs h1 (hrest (index + 1))⟩
      · by_cases h2 : pageAlign base < zoneNormalLimit ∧ pageAlign base + size ≥ zoneNormalLimit
        · obtain ⟨segs, hrest⟩ := ih _ (hn ▸ limitsAhead_normal h2.1) zoneNormalLimit (base + size - zoneNormalLimit) rfl
          exact ⟨_, fun index => adds_normal hs h1 h2 (hrest (index + 1))⟩
        · exact ⟨_, fun index => adds_leaf hs h1 h2⟩

/-- a zone that no good table has: it straddles a limit, wraps, or starts in [lo, stop) and reaches beyond -/
def Stray (lo stop : ℕ) (r : ℕ × ℕ) : Prop :=
  (r.1 < dmaLimit ∧ dmaLimit < r.2) ∨ (r.1 < normalLimit ∧ normalLimit < r.2) ∨ 2 ^ 32 ≤ r.2 ∨
    (lo ≤ r.1 ∧ r.1 < stop ∧ stop < r.2)

/-- **add_to_zones_list on a bad range.** The first zone it makes is a stray one. -/
theorem add_bad (base size : Word) (hw : base.toNat + size.toNat < 2 ^ 32) (hbad : ¬ RangeOk base.toNat size.toNat) :
    ∃ segs r, segs[0]? = some r ∧ Stray base.toNat (base.toNat + size.toNat) r ∧
      ∀ index, Adds index base size segs := by
  have hp : pageSize.toNat = 4096 := by decide
  have hd : zoneDmaLimit.toNat = 0x1000000 := rfl
  have hnl : zoneNormalLimit.toNat = 0x38000000 := rfl
  have hle : base.toNat ≤ roundUp base.toNat := by unfold roundUp; omega
  obtain ⟨q, hq⟩ := roundUp_dvd base.toNat
  by_cases hr : roundUp base.toNat ≤ base.toNat + size.toNat
  · obtain ⟨ha, hs⟩ := aligned_toNat hr hw
    have hsum : (pageAlign base + size).toNat = (roundUp base.toNat + size.toNat) % 2 ^ 32 := by
      rw [BitVec.toNat_add, ha]
    rw [RangeOk, not_and, Classical.not_imp] at hbad
    obtain ⟨hbig, hbad⟩ := hbad hr
    have hs' : ¬ size - (pageAlign base - base) < pageSize := by rw [BitVec.lt_def]; omega
    simp only [dmaLimit_eq, normalLimit_eq] at hbad
    by_cases h1 : roundUp base.toNat < 0x1000000 ∧ base.toNat + size.toNat < 0x1000000 ∧
        0x1000000 ≤ roundUp base.toNat + size.toNat
    · have hc : pageAlign base < zoneDmaLimit ∧ pageAlign base + size ≥ zoneDmaLimit :=
        ⟨BitVec.lt_def.2 (by omega), BitVec.le_def.2 (by omega)⟩
      obtain ⟨segs, hrest⟩ := adds_exists _ zoneDmaLimit (base + size - zoneDmaLimit) rfl
      refine ⟨_, _, List.getElem?_cons_zero, ?_, fun index => adds_dma hs' hc (hrest (index + 1))⟩
      right; right; right
      rw [ha, dmaLimit_eq]
      exact ⟨hle, by omega, by omega⟩
    · by_cases h2 : 0x1000000 ≤ roundUp base.toNat ∧ roundUp base.toNat < 0x38000000 ∧
          base.toNat + size.toNat < 0x38000000 ∧ 0x38000000 ≤ roundUp base.toNat + size.toNat
      · have hc1 : ¬ (pageAlign base < zoneDmaLimit ∧ pageAlign base + size ≥ zoneDmaLimit) := by
          rw [BitVec.lt_def]; omega
        have hc2 : pageAlign base < zoneNormalLimit ∧ pageAlign base + size ≥ zoneNormalLimit :=
          ⟨BitVec.lt_def.2 (by omega), BitVec.le_def.2 (by omega)⟩
        obtain ⟨segs, hrest⟩ := adds_exists _ zoneNormalLimit (base + size - zoneNormalLimit) rfl
        refine ⟨_, _, List.getElem?_cons_zero, ?_, fun index => adds_normal hs' hc1 hc2 (hrest (index + 1))⟩
        right; right; right
        rw [ha, normalLimit_eq]
        exact ⟨hle, by omega, by omega⟩
      · -- the sum wraps, so neither comparison sees a limit
        have hc1 : ¬ (pageAlign base < zoneDmaLimit ∧ pageAlign base + size ≥ zoneDmaLimit) := by
          rw [BitVec.lt_def, ge_iff_le, BitVec.le_def]; omega
        have hc2 : ¬ (pageAlign base < zoneNormalLimit ∧ pageAlign base + size ≥ zoneNormalLimit) := by
          rw [BitVec.lt_def, ge_iff_le, BitVec.le_def]; omega
        refine ⟨_, _, List.getElem?_cons_zero, ?_, fun index => adds_leaf hs' hc1 hc2⟩
        right; left
        rw [ha, pageFloor_toNat, hs, normalLimit_eq]
        omega
  · -- the gap is larger than the entry, and the aligned size wraps
    have hlow : roundUp base.toNat < base.toNat + 4096 := by unfold roundUp; omega
    have ha : (pageAlign base).toNat = roundUp base.toNat % 2 ^ 32 := by
      have hlt := base.isLt
      rw [pageAlign_toNat, roundUp]
      by_cases hwrap : base.toNat + 4095 < 2 ^ 32
      · rw [Nat.mod_eq_of_lt hwrap, Nat.mod_eq_of_lt (by omega)]
      · have h1 : (base.toNat + 4095) % 2 ^ 32 / 4096 = 0 := by omega
        have h2 : (base.toNat + 4095) / 4096 = 2 ^ 20 := by omega
        rw [h1, h2]
        norm_num
    have hs : (size - (pageAlign base - base)).toNat =
        2 ^ 32 - (roundUp base.toNat - (base.toNat + size.toNat)) := by
      have := base.isLt
      have := size.isLt
      rw [BitVec.toNat_sub, BitVec.toNat_sub, ha]
      omega
    have hsum : (pageAlign base + size).toNat = roundUp base.toNat % 2 ^ 32 + size.toNat := by
      rw [BitVec.toNat_add, ha, Nat.mod_eq_of_lt]
      have := base.isLt
      omega
    have hs' : ¬ size - (pageAlign base - base) < pageSize := by rw [BitVec.lt_def]; omega
    have hc1 : ¬ (pageAlign base < zoneDmaLimit ∧ pageAlign base + size ≥ zoneDmaLimit) := by
      rw [BitVec.lt_def, ge_iff_le, BitVec.le_def]; omega
    have hc2 : ¬ (pageAlign base < zoneNormalLimit ∧ pageAlign base + size ≥ zoneNormalLimit) := by
      rw [BitVec.lt_def, ge_iff_le, BitVec.le_def]; omega
    refine ⟨_, _, List.getElem?_cons_zero, ?_, fun index => adds_leaf hs' hc1 hc2⟩
    rw [ha, pageFloor_toNat, hs, Stray, dmaLimit_eq, normalLimit_eq]
    have := base.isLt
    simp only
    omega

end SinsOs.ZonesCreate
