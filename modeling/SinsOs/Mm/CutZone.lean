/-
cut_zone_size (kernel/mm/init.c) on any zones: the zone that it takes the bytes from, and when it panics although there is one.

The loop keeps the largest real_size in max_size, but the BUG_ON behind it asks for real_size, which is that of the last zone.

- `scanned`: the loop finds the first of the zones with the most room.
- `cut_iff`: if a DMA or normal zone has room, cut_zone_size cuts the bytes off the end of one exactly when the last of these
  zones has room, and no kernel that lies in none of them whole reaches into the bytes.
-/
import SinsOs.Mm.MemMap

namespace SinsOs.MemMap

open SinsOs.Bits SinsOs.Mm

variable {T : ZoneTable} {img : Image} {need : Word} {z : ℕ}

/-! ## Statement -/

/-- the zones of the loop, zone_for_each from ZONE_DMA up to ZONE_HIGHMEM -/
def ZoneTable.low (T : ZoneTable) : List ℕ := T.chain zoneDma ++ T.chain zoneNormal

/-- the physical addresses of the kernel and its page tables, in whole pages -/
def Image.first (img : Image) : ℕ := (pa img.load).toNat
def Image.last (img : Image) : ℕ := (pa (pageAlign img.kernelPgtEnd)).toNat

def Image.Has (img : Image) (a : ℕ) : Prop := img.first ≤ a ∧ a < img.last

/-- the kernel lies in the zone -/
def HoldsKernel (T : ZoneTable) (img : Image) (z : ℕ) : Prop :=
  (T.zone z).baseAddr.toNat ≤ img.first ∧ img.last ≤ (T.zone z).baseAddr.toNat + (T.zone z).size.toNat

instance (T : ZoneTable) (img : Image) (z : ℕ) : Decidable (HoldsKernel T img z) := inferInstanceAs (Decidable (_ ∧ _))

/-- the bytes of a zone behind the kernel -/
def room (T : ZoneTable) (img : Image) (z : ℕ) : ℕ :=
  if HoldsKernel T img z then (T.zone z).baseAddr.toNat + (T.zone z).size.toNat - img.last else (T.zone z).size.toNat

/-- page-aligned zones that share no address -/
structure Separate (T : ZoneTable) : Prop extends TableOk T where
  apart : ∀ z ∈ T.all, ∀ z' ∈ T.all, z ≠ z' → ∀ a, (T.zone z).Holds a → ¬ (T.zone z').Holds a

/-- the first of the zones with the most room -/
structure Roomiest (T : ZoneTable) (img : Image) (zs : List ℕ) (z : ℕ) : Prop where
  mem : z ∈ zs
  most : ∀ y ∈ zs, room T img y ≤ room T img z
  first : ∀ y ∈ zs, zs.idxOf y < zs.idxOf z → room T img y < room T img z

/-- the kernel is not in the last bytes of the zone -/
def TailClear (T : ZoneTable) (img : Image) (need : Word) (z : ℕ) : Prop :=
  ∀ a, (T.zone z).Holds a → (T.zone z).baseAddr.toNat + (T.zone z).size.toNat ≤ a + (pageCeil need).toNat → ¬ img.Has a

/-- cut_zone_size returns, and the bytes are the last ones of a zone with room -/
structure Cut (T : ZoneTable) (img : Image) (need : Word) (z : ℕ) (r : ZoneTable × Word) : Prop where
  returns : cutZoneSize T img need = some r
  low : z ∈ T.low
  room : (pageCeil need).toNat < room T img z
  table : r.1 = setSize T z ((T.zone z).size - pageCeil need)
  size : ((r.1.zone z).size).toNat + (pageCeil need).toNat = (T.zone z).size.toNat
  aligned : 4096 ∣ ((r.1.zone z).size).toNat
  addr : r.2 = va ((T.zone z).baseAddr + (r.1.zone z).size)
  kernel : ∀ a, (T.zone z).Holds a → ¬ (r.1.zone z).Holds a → ¬ img.Has a
  zones : ∀ a, (T.zone z).Holds a → ¬ (r.1.zone z).Holds a → ∀ z' ∈ T.all, ¬ (r.1.zone z').Holds a

/-! ## The loop -/

/-- the real_size of a zone is its room -/
theorem realSize_toNat (hw : (T.zone z).baseAddr.toNat + (T.zone z).size.toNat < 2 ^ 32) (hi : ImageOk img) :
    (realSize T img z).toNat = room T img z := by
  have hle : img.first ≤ img.last := BitVec.le_def.1 hi
  have hcond : (pa img.load ≥ (T.zone z).baseAddr ∧ pa (pageAlign img.kernelPgtEnd) ≤ (T.zone z).baseAddr + (T.zone z).size)
      ↔ HoldsKernel T img z := by
    rw [ge_iff_le, BitVec.le_def, BitVec.le_def, BitVec.toNat_add, Nat.mod_eq_of_lt hw]
    exact Iff.rfl
  rw [realSize, room]
  by_cases h : HoldsKernel T img z
  · rw [if_pos (hcond.2 h), if_pos h]
    obtain ⟨h1, h2⟩ := h
    have hsum : ((T.zone z).size + (T.zone z).baseAddr).toNat = (T.zone z).baseAddr.toNat + (T.zone z).size.toNat := by
      rw [BitVec.toNat_add, Nat.mod_eq_of_lt (by omega), Nat.add_comm]
    rw [BitVec.toNat_sub_of_le (BitVec.le_def.2 (by rw [hsum]; exact h2)), hsum]
    rfl
  · rw [if_neg fun hc => h (hcond.1 hc), if_neg h]

theorem Roomiest.unique {zs : List ℕ} {y : ℕ} (h : Roomiest T img zs z) (h' : Roomiest T img zs y) : y = z := by
  have heq : room T img y = room T img z := le_antisymm (h.most y h'.mem) (h'.most z h.mem)
  rcases Nat.lt_trichotomy (zs.idxOf y) (zs.idxOf z) with hlt | hidx | hgt
  · exact absurd heq (h.first y h'.mem hlt).ne
  · exact (List.idxOf_inj h'.mem).1 hidx
  · exact absurd heq.symm (h'.first z h.mem hgt).ne

/-- the scan keeps real_size of the last zone, and in fix_zone and max_size the first zone with the most room -/
structure Scanned (T : ZoneTable) (img : Image) (zs : List ℕ) (s : Scan) : Prop where
  last : ∀ z, zs.getLast? = some z → s.realSize = realSize T img z
  none : s.fixZone = none → s.maxSize = 0#32
  fix : ∀ z, s.fixZone = some z → s.maxSize.toNat = room T img z ∧ Roomiest T img zs z
  most : ∀ y ∈ zs, room T img y ≤ s.maxSize.toNat

/-- a zone with more room than all before it becomes fix_zone -/
theorem scanned_step {zs : List ℕ} {s : Scan} (hreal : (realSize T img z).toNat = room T img z) (h : Scanned T img zs s) :
    Scanned T img (zs ++ [z]) (scanStep T img s z) := by
  have hlast : ∀ y, (zs ++ [z]).getLast? = some y → y = z := fun y hy => by
    rw [List.getLast?_append_cons, List.getLast?_singleton] at hy
    exact (Option.some.inj hy).symm
  have hmem : ∀ y ∈ zs ++ [z], y ∈ zs ∨ y = z := fun y hy => by simpa using hy
  rw [scanStep]
  by_cases hgt : realSize T img z > s.maxSize
  · rw [if_pos hgt]
    have hbig : ∀ y ∈ zs, room T img y < room T img z := fun y hy =>
      (h.most y hy).trans_lt (hreal ▸ BitVec.lt_def.1 hgt)
    have hall : ∀ y ∈ zs ++ [z], room T img y ≤ room T img z := by
      intro y hy
      rcases hmem y hy with hy | rfl
      · exact (hbig y hy).le
      · exact le_rfl
    refine ⟨fun y hy => by rw [hlast y hy], nofun, fun y hy => ?_, fun y hy => ?_⟩
    · obtain rfl := Option.some.inj hy
      refine ⟨hreal, List.mem_append_right _ (List.mem_singleton_self _), hall, fun x hx hlt => ?_⟩
      rcases hmem x hx with hx | rfl
      · exact hbig x hx
      · exact absurd hlt (lt_irrefl _)
    · exact (hall y hy).trans_eq hreal.symm
  · rw [if_neg hgt]
    have hle : room T img z ≤ s.maxSize.toNat := hreal ▸ BitVec.le_def.1 (BitVec.not_lt.1 hgt)
    have hall : ∀ y ∈ zs ++ [z], room T img y ≤ s.maxSize.toNat := by
      intro y hy
      rcases hmem y hy with hy | rfl
      · exact h.most y hy
      · exact hle
    refine ⟨fun y hy => by rw [hlast y hy], h.none, fun y hy => ?_, hall⟩
    obtain ⟨hmax, hroomy⟩ := h.fix y hy
    refine ⟨hmax, List.mem_append_left _ hroomy.mem, fun x hx => ?_, fun x hx hlt => ?_⟩
    · rcases hmem x hx with hx | rfl
      · exact hroomy.most x hx
      · exact hle.trans_eq hmax
    · rw [List.idxOf_append_of_mem hroomy.mem] at hlt
      have hx : x ∈ zs := by
        by_contra hno
        rw [List.idxOf_append_of_notMem hno] at hlt
        have hlen := List.idxOf_lt_length_iff.2 hroomy.mem
        omega
      rw [List.idxOf_append_of_mem hx] at hlt
      exact hroomy.first x hx hlt

theorem scanned (zs : List ℕ) (hreal : ∀ z ∈ zs, (realSize T img z).toNat = room T img z) :
    Scanned T img zs (zs.foldl (scanStep T img) ⟨0#32, 0#32, none⟩) := by
  induction zs using List.reverseRecOn with
  | nil => exact ⟨nofun, fun _ => rfl, nofun, nofun⟩
  | append_singleton zs z ih =>
    rw [List.foldl_append, List.foldl_cons, List.foldl_nil]
    have hz : z ∈ zs ++ [z] := by simp
    exact scanned_step (hreal z hz) (ih fun y hy => hreal y (List.mem_append_left _ hy))

/-! ## cut_zone_size -/

theorem mem_all_of_low (h : z ∈ T.low) : z ∈ T.all := List.mem_append_left _ h

/-- **Bytes cut off the end of a zone with room.** They hold no part of the kernel if the tail of the zone does not. -/
theorem cut_iff_clear (hT : Separate T) (hi : ImageOk img) (hz : z ∈ T.low) (hroom : (pageCeil need).toNat < room T img z)
    (hcut : cutZoneSize T img need = some (setSize T z ((T.zone z).size - pageCeil need),
      va ((T.zone z).baseAddr + ((T.zone z).size - pageCeil need)))) :
    (∃ r, Cut T img need z r) ↔ TailClear T img need z := by
  have hall := mem_all_of_low hz
  have hw := hT.no_wrap z hall
  have hle : (pageCeil need).toNat ≤ (T.zone z).size.toNat :=
    hroom.le.trans ((realSize_toNat hw hi) ▸ realSize_le hw hi)
  have hself : ((setSize T z ((T.zone z).size - pageCeil need)).zone z) =
      { T.zone z with size := (T.zone z).size - pageCeil need } := if_pos rfl
  have hsub : ((T.zone z).size - pageCeil need).toNat = (T.zone z).size.toNat - (pageCeil need).toNat :=
    BitVec.toNat_sub_of_le (BitVec.le_def.2 hle)
  have hceil : 4096 ∣ (pageCeil need).toNat := ⟨_, (pageAlign_toNat need).trans (Nat.mul_comm _ _)⟩
  -- the addresses that the zone loses are its last ones
  have hcutoff : ∀ a, (T.zone z).Holds a → (¬ ((setSize T z ((T.zone z).size - pageCeil need)).zone z).Holds a ↔
      (T.zone z).baseAddr.toNat + (T.zone z).size.toNat ≤ a + (pageCeil need).toNat) := by
    intro a ha
    have hholds : ((setSize T z ((T.zone z).size - pageCeil need)).zone z).Holds a ↔ (T.zone z).baseAddr.toNat ≤ a ∧
        a < (T.zone z).baseAddr.toNat + ((T.zone z).size - pageCeil need).toNat := by
      rw [hself]
      exact Iff.rfl
    rw [hholds, hsub]
    obtain ⟨hlo, hhi⟩ := ha
    omega
  constructor
  · intro ⟨r, hr⟩ a ha hend
    refine hr.kernel a ha ?_
    rw [hr.table, hcutoff a ha]
    exact hend
  · intro hclear
    refine ⟨_, hcut, hz, hroom, rfl, ?_, ?_, ?_, fun a ha hno => ?_, fun a ha hno z' hz' => ?_⟩
    · rw [hself, hsub]
      omega
    · rw [hself, hsub]
      exact Nat.dvd_sub (hT.size_dvd z hall) hceil
    · rw [hself]
    · exact hclear a ha ((hcutoff a ha).1 hno)
    · by_cases hne : z' = z
      · rw [hne]
        exact hno
      · have hother : (setSize T z ((T.zone z).size - pageCeil need)).zone z' = T.zone z' := if_neg hne
        rw [hother]
        exact hT.apart z hall z' hz' (Ne.symm hne) a ha

/-- a kernel in the zone lies below its room -/
theorem tailClear_of_holds (hk : HoldsKernel T img z) (hroom : (pageCeil need).toNat < room T img z) :
    TailClear T img need z := by
  intro a ha hend hkern
  rw [room, if_pos hk] at hroom
  have hbelow := hkern.2
  omega

/-- **cut_zone_size finds room exactly if the last zone has some.** For all zones, every kernel and every size for which a DMA
or normal zone has room, cut_zone_size cuts the bytes off a zone with room if and only if the last of these zones has room and
the kernel does not reach, from another zone or from behind, into the tail of the first zone with the most room. -/
theorem cut_iff (hT : Separate T) (hi : ImageOk img) (hroom : ∃ z ∈ T.low, (pageCeil need).toNat < room T img z) :
    (∃ z r, Cut T img need z r) ↔
      (∀ z, T.low.getLast? = some z → (pageCeil need).toNat < room T img z) ∧
      ∀ z, Roomiest T img T.low z → HoldsKernel T img z ∨ TailClear T img need z := by
  have hreal : ∀ z ∈ T.low, (realSize T img z).toNat = room T img z := fun z hz =>
    realSize_toNat (hT.no_wrap z (mem_all_of_low hz)) hi
  obtain ⟨s, hs⟩ : ∃ s, T.low.foldl (scanStep T img) ⟨0#32, 0#32, none⟩ = s := ⟨_, rfl⟩
  have hscan : Scanned T img T.low s := hs ▸ scanned T.low hreal
  have hcut : ∀ z, s.fixZone = some z → cutZoneSize T img need = if s.realSize ≤ pageCeil need then none
      else some (setSize T z ((T.zone z).size - pageCeil need),
        va ((T.zone z).baseAddr + ((T.zone z).size - pageCeil need))) := by
    intro z hfix
    rw [← hs, ZoneTable.low] at hfix
    rw [← hs, ZoneTable.low, cutZoneSize]
    simp only [hfix]
  -- some zone has room, so the scan found one, and that is the first with the most room
  obtain ⟨y, hy, hyroom⟩ := hroom
  have hymax := hscan.most y hy
  obtain ⟨z, hfix⟩ : ∃ z, s.fixZone = some z := by
    rcases hnone : s.fixZone with _ | z
    · rw [hscan.none hnone] at hymax
      exact absurd hymax (by simp; omega)
    · exact ⟨z, rfl⟩
  obtain ⟨hmax, hroomiest⟩ := hscan.fix z hfix
  have hzroom : (pageCeil need).toNat < room T img z := hyroom.trans_le (hymax.trans_eq hmax)
  have hcut := hcut z hfix
  have hlast : ∀ x, T.low.getLast? = some x → (s.realSize ≤ pageCeil need ↔ room T img x ≤ (pageCeil need).toNat) := by
    intro x hx
    rw [hscan.last x hx, BitVec.le_def, hreal x (List.mem_of_getLast? hx)]
  obtain ⟨x, hx⟩ : ∃ x, T.low.getLast? = some x := ⟨_, List.getLast?_eq_some_getLast (List.ne_nil_of_mem hy)⟩
  constructor
  · rintro ⟨z', r, hc⟩
    have hret := hc.returns
    rw [hcut] at hret
    split_ifs at hret with hle
    rw [hlast x hx, not_le] at hle
    have hcut' : cutZoneSize T img need = some (setSize T z ((T.zone z).size - pageCeil need),
        va ((T.zone z).baseAddr + ((T.zone z).size - pageCeil need))) := by
      rw [hc.returns, ← hret]
    refine ⟨fun x' hx' => ?_, fun z₀ hz₀ => Or.inr ?_⟩
    · rw [hx] at hx'
      exact Option.some.inj hx' ▸ hle
    · rw [hroomiest.unique hz₀]
      by_cases hzero : (pageCeil need).toNat = 0
      · intro a ha hend
        have hend' := ha.2
        omega
      · -- the zone that gets smaller is the one of the scan
        have hz' : z' = z := by
          by_contra hne
          have hsame : (r.1.zone z').size = (T.zone z').size := by
            rw [← Option.some.inj hret]
            exact congrArg MemZone.size (if_neg hne)
          have hsize := hc.size
          rw [hsame] at hsize
          omega
        exact (cut_iff_clear hT hi hroomiest.mem hzroom hcut').1 ⟨r, hz' ▸ hc⟩
  · rintro ⟨hbig, hclear⟩
    have hnot : ¬ s.realSize ≤ pageCeil need := by
      rw [hlast x hx, not_le]
      exact hbig x hx
    have hcut' := hcut.trans (if_neg hnot)
    refine ⟨z, (cut_iff_clear hT hi hroomiest.mem hzroom hcut').2 ?_⟩
    rcases hclear z hroomiest with hk | ht
    · exact tailClear_of_holds hk hzroom
    · exact ht

/-! ## Small last zones -/

/-- DMA memory around the kernel, and normal memory of the given number of pages -/
def tailTable (pages : ℕ) : ZoneTable where
  zone := fun z =>
    if z = 0 then ⟨0x100000#32, 0xF00000#32, 0, 0⟩
    else if z = 1 then ⟨0x1000000#32, BitVec.ofNat 32 (4096 * pages), 0, 0⟩
    else ⟨0#32, 0#32, 0, 0⟩
  chain := fun t => if t = zoneDma then [0] else if t = zoneNormal then [1] else []

theorem mem_tailTable {pages : ℕ} (h : z ∈ (tailTable pages).all) : z = 0 ∨ z = 1 := by
  have hall : (tailTable pages).all = [0, 1] := rfl
  rw [hall] at h
  simpa using h

theorem tailTable_ok {pages : ℕ} (h : pages < 2 ^ 16) : Separate (tailTable pages) := by
  have hzone : (tailTable pages).zone 1 = ⟨0x1000000#32, BitVec.ofNat 32 (4096 * pages), 0, 0⟩ := rfl
  have hsize : ((tailTable pages).zone 1).size.toNat = 4096 * pages := by
    rw [hzone, BitVec.toNat_ofNat, Nat.mod_eq_of_lt (by omega)]
  have hbase : ((tailTable pages).zone 1).baseAddr.toNat = 0x1000000 := congrArg (BitVec.toNat ∘ MemZone.baseAddr) hzone
  refine ⟨⟨fun t ht => ?_, (by decide : [0, 1].Nodup), fun z hz => ?_, fun z hz => ?_, fun z hz => ?_⟩,
    fun z hz z' hz' hne a ha ha' => ?_⟩
  · have h0 : t ≠ zoneDma := (lt_of_lt_of_le (by decide) ht).ne'
    have h1 : t ≠ zoneNormal := (lt_of_lt_of_le (by decide) ht).ne'
    exact (if_neg h0).trans (if_neg h1)
  · rcases mem_tailTable hz with rfl | rfl <;> decide
  · rcases mem_tailTable hz with rfl | rfl
    · exact (by decide : 4096 ∣ (0xF00000#32).toNat)
    · exact ⟨pages, hsize⟩
  · rcases mem_tailTable hz with rfl | rfl
    · exact (by decide : (0x100000#32).toNat + (0xF00000#32).toNat < 2 ^ 32)
    · rw [hsize, hbase]
      omega
  · -- the zones meet at 16 MB
    have hend : ((tailTable pages).zone 0).baseAddr.toNat + ((tailTable pages).zone 0).size.toNat = 0x1000000 :=
      (by decide : (0x100000#32).toNat + (0xF00000#32).toNat = 0x1000000)
    have hlow : ∀ {b}, ((tailTable pages).zone 0).Holds b → b < 0x1000000 := fun hb => hend ▸ hb.2
    have hhigh : ∀ {b}, ((tailTable pages).zone 1).Holds b → 0x1000000 ≤ b := fun hb => hbase ▸ hb.1
    rcases mem_tailTable hz with rfl | rfl <;> rcases mem_tailTable hz' with rfl | rfl
    · exact hne rfl
    · exact absurd (hlow ha) (Nat.not_lt.2 (hhigh ha'))
    · exact absurd (hlow ha') (Nat.not_lt.2 (hhigh ha))
    · exact hne rfl

/-- Two pages fit thousands of times above the kernel, but not in the one page at 16 MB, and the BUG_ON fires. -/
theorem cut_small_last : Separate (tailTable 1) ∧ ImageOk pcImage ∧ HoldsKernel (tailTable 1) pcImage 0 ∧
    (∃ z ∈ (tailTable 1).low, (pageCeil 0x2000#32).toNat < room (tailTable 1) pcImage z) ∧
    ¬ ∃ z r, Cut (tailTable 1) pcImage 0x2000#32 z r := by
  have hnone : cutZoneSize (tailTable 1) pcImage 0x2000#32 = none := by decide +kernel
  refine ⟨tailTable_ok (by decide), pcImage_ok, by decide +kernel, ⟨0, by decide, by decide +kernel⟩,
    fun ⟨z, r, hc⟩ => ?_⟩
  have hret := hc.returns
  rw [hnone] at hret
  cases hret

/-- with three pages at 16 MB the two are cut off above the kernel -/
theorem cut_larger_last : ∃ z r, Cut (tailTable 3) pcImage 0x2000#32 z r := by
  have hroom : ∀ z, (tailTable 3).low.getLast? = some z → (pageCeil 0x2000#32).toNat < room (tailTable 3) pcImage z := by
    intro z hz
    obtain rfl : 1 = z := Option.some.inj hz
    decide +kernel
  refine (cut_iff (tailTable_ok (by decide)) pcImage_ok ⟨0, by decide, by decide +kernel⟩).2
    ⟨hroom, fun z hz => Or.inl ?_⟩
  have hmost := hz.most 0 (by decide)
  rcases mem_tailTable (mem_all_of_low hz.mem) with rfl | rfl
  · decide +kernel
  · exact absurd hmost (by decide +kernel)

end SinsOs.MemMap
