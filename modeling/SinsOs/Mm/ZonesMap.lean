/-
The zones of a whole memory map (mem_zones_create and init_fast_zone_entry, kernel/mm/init.c).

`covers_iff`: for every sorted and disjoint memory map with enough room in zones_list, the zones are right if and only if
every usable entry is `EntryOk`. In one direction the loop appends the segments of each entry (`createLoop_spec`) and the
classification cuts the list of zones at the two limits (`Classified`); in the other a bad entry leaves a stray zone
behind that nothing removes (`createLoop_bad`).
-/
import SinsOs.Mm.ZonesCreate

namespace SinsOs.ZonesCreate

open SinsOs.Bits SinsOs.Mm

variable {b b' : Boot} {index : ℕ} {segs : List (ℕ × ℕ)}

/-! ## mem_zones_create -/

def MemoryMap.base (e : MemoryMap) : ℕ := e.baseAddr.toNat
def MemoryMap.stop (e : MemoryMap) : ℕ := e.baseAddr.toNat + e.size.toNat

/-- the condition on an entry -/
def EntryOk (e : MemoryMap) : Prop := RangeOk e.base e.size.toNat

def entrySegments (e : MemoryMap) : List (ℕ × ℕ) := if e.usable then segments e.base e.stop else []

/-- the zones that a memory map should give -/
def zonesNeeded (es : List MemoryMap) : List (ℕ × ℕ) := es.flatMap entrySegments

/-- sorted by base address, pairwise disjoint, usable entries below 4 GB, and room in zones_list -/
structure MapOk (es : List MemoryMap) : Prop where
  sorted : es.Pairwise fun e e' => e.base ≤ e'.base
  disjoint : es.Pairwise fun e e' => ∀ a, ¬ ((e.base ≤ a ∧ a < e.stop) ∧ (e'.base ≤ a ∧ a < e'.stop))
  below : ∀ e ∈ es, e.usable → e.stop < 2 ^ 32
  few : (zonesNeeded es).length ≤ nrZones - 1

/-- zones_list holds the zones `segs` from its start, chained in order -/
structure Table (b : Boot) (segs : List (ℕ × ℕ)) : Prop where
  range : ∀ i r, segs[i]? = some r → b.range i = r
  next : ∀ i < segs.length, (b.zones i).next = if i + 1 < segs.length then some (i + 1) else none

theorem Table.add {pre : List (ℕ × ℕ)} (ht : Table b pre) (ha : Added b b' pre.length segs) : Table b' (pre ++ segs) := by
  refine ⟨fun i r hi => ?_, fun i hi => ?_⟩
  · rcases Nat.lt_or_ge i pre.length with hlt | hge
    · rw [List.getElem?_append_left hlt] at hi
      rw [ha.rangeBefore i hlt, ht.range i r hi]
    · rw [List.getElem?_append_right hge] at hi
      have := ha.range _ r hi
      rwa [Nat.add_sub_cancel' hge] at this
  · rw [List.length_append] at hi ⊢
    rcases Nat.lt_trichotomy (i + 1) pre.length with hlt | heq | hgt
    · rw [ha.nextBefore i hlt, ht.next i (by omega), if_pos hlt, if_pos (by omega)]
    · by_cases hs : segs = []
      · rw [ha.nextPrev i heq, if_pos hs, ht.next i (by omega), if_neg (by omega), hs, if_neg (by simp; omega)]
      · have := List.length_pos_iff.2 hs
        rw [ha.nextPrev i heq, if_neg hs, if_pos (by omega), heq]
    · have hn := ha.next (i - pre.length) (by omega)
      rw [Nat.add_sub_cancel' (by omega)] at hn
      rw [hn]
      by_cases hc : i + 1 < pre.length + segs.length
      · rw [if_pos (by omega), if_pos hc]
      · rw [if_neg (by omega), if_neg hc]

/-- the fields of a usable entry as the words that add_to_zones_list gets -/
theorem entry_words {e : MemoryMap} (h : e.stop < 2 ^ 32) :
    (e.baseAddr.setWidth 32).toNat = e.base ∧ (e.size.setWidth 32).toNat = e.size.toNat ∧
      ¬ e.baseAddr + e.size ≥ fourGB := by
  unfold MemoryMap.stop at h
  refine ⟨?_, ?_, ?_⟩
  · rw [BitVec.toNat_setWidth, Nat.mod_eq_of_lt (by omega)]; rfl
  · rw [BitVec.toNat_setWidth, Nat.mod_eq_of_lt (by omega)]
  · have hf : fourGB.toNat = 2 ^ 32 := by decide
    rw [ge_iff_le, BitVec.le_def, BitVec.toNat_add, hf]
    omega

/-- **The loop on good entries.** -/
theorem createLoop_spec (es : List MemoryMap) : ∀ (b : Boot) (pre : List (ℕ × ℕ)) (prev : BitVec 64), Table b pre →
    (∀ e ∈ es, e.usable → e.stop < 2 ^ 32 ∧ EntryOk e) → es.Pairwise (fun e e' => e.base ≤ e'.base) →
    (∀ e ∈ es, prev.toNat ≤ e.base) → (pre ++ zonesNeeded es).length ≤ nrZones - 1 →
    ∃ b', createLoop b prev pre.length es = some (b', (pre ++ zonesNeeded es).length) ∧
      Table b' (pre ++ zonesNeeded es) := by
  induction es with
  | nil =>
    intro b pre prev ht _ _ _ _
    rw [show zonesNeeded [] = [] from rfl, List.append_nil]
    exact ⟨b, rfl, ht⟩
  | cons e es ih =>
    intro b pre prev ht hok hsort hprev hfew
    obtain ⟨hhead, hsort⟩ := List.pairwise_cons.1 hsort
    have hneed : zonesNeeded (e :: es) = entrySegments e ++ zonesNeeded es := List.flatMap_cons
    rw [hneed, ← List.append_assoc] at hfew ⊢
    have hge : e.baseAddr ≥ prev := BitVec.le_def.2 (hprev e List.mem_cons_self)
    have hok' : ∀ e' ∈ es, e'.usable → e'.stop < 2 ^ 32 ∧ EntryOk e' := fun e' h => hok e' (List.mem_cons_of_mem _ h)
    by_cases hu : e.usable
    · obtain ⟨hb, hr⟩ := hok e List.mem_cons_self hu
      obtain ⟨h1, h2, h3⟩ := entry_words hb
      have hseg : entrySegments e = segments e.base e.stop := if_pos hu
      have hadd := add_spec _ pre.length (e.baseAddr.setWidth 32) (e.size.setWidth 32) rfl
        (by rw [h1, h2]; exact hb) (by rw [h1, h2]; exact hr) b
      rw [h1, h2] at hadd
      obtain ⟨ha, hc⟩ := hadd
      rw [show e.base + e.size.toNat = e.stop from rfl, ← hseg] at ha hc
      have hlen : pre.length + (entrySegments e).length = (pre ++ entrySegments e).length := by rw [List.length_append]
      obtain ⟨b', hb', ht'⟩ := ih _ (pre ++ entrySegments e) e.baseAddr (ht.add ha) hok' hsort hhead hfew
      refine ⟨b', ?_, ht'⟩
      rw [createLoop, if_pos ⟨hu, hge⟩, if_neg h3]
      simp only [hc, hlen]
      rw [if_neg, hb']
      rw [List.length_append] at hfew
      simp only [nrZones] at *
      omega
    · have hseg : entrySegments e = [] := if_neg hu
      rw [hseg, List.append_nil] at hfew ⊢
      obtain ⟨b', hb', ht'⟩ := ih b pre e.baseAddr ht hok' hsort hhead hfew
      refine ⟨b', ?_, ht'⟩
      rw [createLoop, if_neg (fun h => hu h.1), hb']

/-- zones that are there stay as they are -/
theorem createLoop_frame (es : List MemoryMap) : ∀ (b b' : Boot) (index n : ℕ) (prev : BitVec 64),
    createLoop b prev index es = some (b', n) → index ≤ n ∧ ∀ i < index, b'.range i = b.range i := by
  induction es with
  | nil => rintro b b' index n prev ⟨⟩; exact ⟨le_rfl, fun _ _ => rfl⟩
  | cons e es ih =>
    intro b b' index n prev h
    simp only [createLoop] at h
    split_ifs at h with h1 h2
    · cases h; exact ⟨le_rfl, fun _ _ => rfl⟩
    · obtain ⟨hle, hr⟩ := ih _ _ _ _ _ h
      obtain ⟨segs, hadd⟩ := adds_exists _ (e.baseAddr.setWidth 32) (e.size.setWidth 32) rfl
      obtain ⟨ha, -⟩ := hadd index b
      exact ⟨by omega, fun i hi => (hr i (by omega)).trans (ha.rangeBefore i hi)⟩
    · exact ih _ _ _ _ _ h

/-- **The loop on a map with a bad entry** makes a stray zone, if it ends at all. -/
theorem createLoop_bad (es : List MemoryMap) : ∀ (b b' : Boot) (index n : ℕ) (prev : BitVec 64),
    (∀ e ∈ es, e.usable → e.stop < 2 ^ 32) → es.Pairwise (fun e e' => e.base ≤ e'.base) →
    (∀ e ∈ es, prev.toNat ≤ e.base) → (∃ e ∈ es, e.usable ∧ ¬ EntryOk e) →
    createLoop b prev index es = some (b', n) →
    ∃ i < n, ∃ e ∈ es, e.usable ∧ Stray e.base e.stop (b'.range i) := by
  induction es with
  | nil => rintro b b' index n prev - - - ⟨e, he, -⟩; cases he
  | cons e es ih =>
    intro b b' index n prev hbelow hsort hprev hbad h
    obtain ⟨hhead, hsort⟩ := List.pairwise_cons.1 hsort
    have hge : e.baseAddr ≥ prev := BitVec.le_def.2 (hprev e List.mem_cons_self)
    have hbelow' : ∀ e' ∈ es, e'.usable → e'.stop < 2 ^ 32 := fun e' h => hbelow e' (List.mem_cons_of_mem _ h)
    by_cases hhere : e.usable ∧ ¬ EntryOk e
    · obtain ⟨hu, hnok⟩ := hhere
      have hb := hbelow e List.mem_cons_self hu
      obtain ⟨h1, h2, h3⟩ := entry_words hb
      simp only [createLoop, if_pos (And.intro hu hge), if_neg h3] at h
      obtain ⟨segs, r, hr, hstray, hadd⟩ := add_bad (e.baseAddr.setWidth 32) (e.size.setWidth 32)
        (by rw [h1, h2]; exact hb) (by rw [h1, h2]; exact hnok)
      obtain ⟨ha, hc⟩ := hadd index b
      rw [h1, h2] at hstray
      split_ifs at h
      obtain ⟨hle, hframe⟩ := createLoop_frame es _ _ _ _ _ h
      have hpos : 0 < segs.length := by
        by_contra h0
        rw [List.getElem?_eq_none (by omega)] at hr
        cases hr
      refine ⟨index, by omega, e, List.mem_cons_self, hu, ?_⟩
      rw [hframe index (by omega)]
      have := ha.range 0 r hr
      rw [Nat.add_zero] at this
      rw [this]
      exact hstray
    · have hbad' : ∃ e' ∈ es, e'.usable ∧ ¬ EntryOk e' := by
        obtain ⟨e', he', hb'⟩ := hbad
        rcases List.mem_cons.1 he' with rfl | hin
        · exact absurd hb' hhere
        · exact ⟨e', hin, hb'⟩
      have hrest : ∃ b1 i1, createLoop b1 e.baseAddr i1 es = some (b', n) := by
        simp only [createLoop] at h
        split_ifs at h with h1 h2
        · exact absurd h2 (entry_words (hbelow e List.mem_cons_self h1.1)).2.2
        · exact ⟨_, _, h⟩
        · exact ⟨_, _, h⟩
      obtain ⟨b1, i1, h1⟩ := hrest
      obtain ⟨i, hi, e', he', hstray⟩ := ih _ _ _ _ _ hbelow' hsort hhead hbad' h1
      exact ⟨i, hi, e', List.mem_cons_of_mem _ he', hstray⟩

/-! ## init_fast_zone_entry -/

def Boot.type (b : Boot) (i : ℕ) : ℕ := zoneTypeOf (b.zones i).baseAddr

theorem zoneTypeOf_eq (a : Word) :
    zoneTypeOf a = if a.toNat < dmaLimit then zoneDma else if a.toNat < normalLimit then zoneNormal else zoneHighmem := by
  unfold zoneTypeOf dmaLimit normalLimit
  by_cases h1 : a < zoneDmaLimit
  · rw [if_pos h1, if_pos (BitVec.lt_def.1 h1)]
  · rw [if_neg h1, if_neg (fun h => h1 (BitVec.lt_def.2 h))]
    by_cases h2 : a < zoneNormalLimit
    · rw [if_pos h2, if_pos (BitVec.lt_def.1 h2)]
    · rw [if_neg h2, if_neg (fun h => h2 (BitVec.lt_def.2 h))]

theorem zoneTypeOf_mono {a a' : Word} (h : a.toNat ≤ a'.toNat) : zoneTypeOf a ≤ zoneTypeOf a' := by
  simp only [zoneTypeOf_eq, zoneDma, zoneNormal, zoneHighmem]
  split_ifs <;> omega

theorem zoneTypeOf_le (a : Word) : zoneTypeOf a ≤ 2 := by
  simp only [zoneTypeOf_eq, zoneDma, zoneNormal, zoneHighmem]
  split_ifs <;> omega

/-- the chain of a zone of type t does not go on to a zone of type t' -/
def Cut (t t' : ℕ) : Prop := (t = zoneDma ∧ t' ≠ zoneDma) ∨ (t = zoneNormal ∧ t' = zoneHighmem)

instance (t t' : ℕ) : Decidable (Cut t t') := by unfold Cut; infer_instance

theorem zones_setFast (t i : ℕ) : (b.setFast t i).zones = b.zones := by unfold Boot.setFast; split_ifs <;> rfl

theorem fast_setFast (t i : ℕ) (u : ℕ) :
    (b.setFast t i).fast u = if b.fast t = none ∧ u = t then some i else b.fast u := by
  unfold Boot.setFast
  by_cases h : b.fast t = none <;> simp [h]

theorem fast_cutAt (i : ℕ) (limit : Word) : (b.cutAt i limit).fast = b.fast := by
  unfold Boot.cutAt
  split
  · split_ifs <;> rfl
  · rfl

theorem zones_cutAt (i : ℕ) (limit : Word) (j : ℕ) :
    (b.cutAt i limit).zones j = if j = i then { b.zones i with
      next := (b.zones i).next.filter fun n => (b.zones n).baseAddr < limit } else b.zones j := by
  unfold Boot.cutAt
  cases hn : (b.zones i).next with
  | none =>
    simp only
    by_cases hj : j = i
    · subst hj; rw [if_pos rfl, Option.filter_none, ← hn]
    · rw [if_neg hj]
  | some n =>
    simp only
    by_cases hc : (b.zones n).baseAddr ≥ limit
    · rw [if_pos hc, zones_setNext]
      by_cases hj : j = i
      · rw [if_pos hj, if_pos hj, Option.filter_some, if_neg]
        simpa using hc
      · rw [if_neg hj, if_neg hj]
    · rw [if_neg hc]
      by_cases hj : j = i
      · subst hj
        rw [if_pos rfl, Option.filter_some, if_pos (by simpa using hc), ← hn]
      · rw [if_neg hj]

theorem type_cases (i : ℕ) :
    ((b.zones i).baseAddr < zoneDmaLimit ∧ b.type i = zoneDma) ∨
      (¬ (b.zones i).baseAddr < zoneDmaLimit ∧ (b.zones i).baseAddr < zoneNormalLimit ∧ b.type i = zoneNormal) ∨
      (¬ (b.zones i).baseAddr < zoneDmaLimit ∧ ¬ (b.zones i).baseAddr < zoneNormalLimit ∧ b.type i = zoneHighmem) := by
  unfold Boot.type zoneTypeOf
  by_cases h1 : (b.zones i).baseAddr < zoneDmaLimit
  · exact Or.inl ⟨h1, if_pos h1⟩
  · by_cases h2 : (b.zones i).baseAddr < zoneNormalLimit
    · exact Or.inr (Or.inl ⟨h1, h2, by rw [if_neg h1, if_pos h2]⟩)
    · exact Or.inr (Or.inr ⟨h1, h2, by rw [if_neg h1, if_neg h2]⟩)

/-- **One zone of the classification**: it is entered under its type if it is the first, and its chain may end there. -/
theorem classify_spec (b : Boot) (k : ℕ) :
    (∀ j, (classify b k).zones j = if j = k then { b.zones k with
      next := (b.zones k).next.filter fun n => ¬ Cut (b.type k) (b.type n) } else b.zones j) ∧
    ∀ t, (classify b k).fast t = if b.fast t = none ∧ t = b.type k then some k else b.fast t := by
  have hcut : ∀ (limit : Word) (p : ℕ → Bool), (∀ n, decide ((b.zones n).baseAddr < limit) = p n) → ∀ j,
      ((b.setFast (b.type k) k).cutAt k limit).zones j = if j = k then { b.zones k with
        next := (b.zones k).next.filter p } else b.zones j := by
    intro limit p hp j
    rw [zones_cutAt, zones_setFast]
    simp only [hp]
  have hfast : ∀ t, (b.setFast (b.type k) k).fast t = if b.fast t = none ∧ t = b.type k then some k else b.fast t := by
    intro t
    rw [fast_setFast]
    by_cases ht : t = b.type k
    · rw [ht]
    · simp [ht]
  have hge : ∀ limit : Word, (b.zones k).baseAddr ≥ limit ↔ ¬ (b.zones k).baseAddr < limit := fun limit => by
    rw [ge_iff_le, BitVec.not_lt]
  rcases type_cases (b := b) k with ⟨h1, ht⟩ | ⟨h1, h2, ht⟩ | ⟨h1, h2, ht⟩
  · have hc : classify b k = (b.setFast (b.type k) k).cutAt k zoneDmaLimit := by rw [classify, if_pos h1, ht]
    rw [hc]
    refine ⟨hcut _ _ fun n => ?_, fun t => by rw [fast_cutAt]; exact hfast t⟩
    rw [ht, decide_eq_decide]
    rcases type_cases (b := b) n with ⟨g, gt⟩ | ⟨g, -, gt⟩ | ⟨g, -, gt⟩ <;>
      simp [g, gt, Cut, zoneDma, zoneNormal, zoneHighmem]
  · have hc : classify b k = (b.setFast (b.type k) k).cutAt k zoneNormalLimit := by
      rw [classify, if_neg h1, if_pos ⟨(hge _).2 h1, h2⟩, ht]
    rw [hc]
    refine ⟨hcut _ _ fun n => ?_, fun t => by rw [fast_cutAt]; exact hfast t⟩
    rw [ht, decide_eq_decide]
    rcases type_cases (b := b) n with ⟨g, gt⟩ | ⟨g, g', gt⟩ | ⟨g, g', gt⟩
    · have g' : (b.zones n).baseAddr < zoneNormalLimit := BitVec.lt_trans g (by decide)
      simp [g', gt, Cut, zoneDma, zoneNormal, zoneHighmem]
    · simp [g', gt, Cut, zoneDma, zoneNormal, zoneHighmem]
    · simp [g', gt, Cut, zoneDma, zoneNormal, zoneHighmem]
  · have hc : classify b k = b.setFast (b.type k) k := by
      rw [classify, if_neg h1, if_neg (fun h => h2 h.2), if_pos ((hge _).2 h2), ht]
    rw [hc]
    refine ⟨fun j => ?_, hfast⟩
    rw [zones_setFast, ht]
    have hnone : ((b.zones k).next.filter fun n => decide ¬ Cut zoneHighmem (b.type n)) = (b.zones k).next := by
      cases (b.zones k).next <;> simp [Cut, zoneDma, zoneNormal, zoneHighmem]
    rw [hnone]
    split_ifs with hj
    · rw [hj]
    · rfl

/-- the first k zones of n are classified -/
structure Classified (b0 b : Boot) (n k : ℕ) : Prop where
  base : ∀ i, (b.zones i).baseAddr = (b0.zones i).baseAddr ∧ (b.zones i).size = (b0.zones i).size
  rest : ∀ i, k ≤ i → (b.zones i).next = (b0.zones i).next
  next : ∀ i < k, (b.zones i).next = if i + 1 < n ∧ b0.type (i + 1) = b0.type i then some (i + 1) else none
  fast : ∀ t, (b.fast t = none ∧ ∀ i < k, b0.type i ≠ t) ∨
    ∃ f < k, b.fast t = some f ∧ b0.type f = t ∧ ∀ i < f, b0.type i ≠ t

variable {b0 : Boot} {n k : ℕ}

theorem Classified.type (h : Classified b0 b n k) (i : ℕ) : b.type i = b0.type i := by
  rw [Boot.type, (h.base i).1]; rfl

theorem Classified.step (h : Classified b0 b n k) (hk : k < n)
    (hchain : ∀ i < n, (b0.zones i).next = if i + 1 < n then some (i + 1) else none)
    (hmono : ∀ i j, i ≤ j → j < n → b0.type i ≤ b0.type j) : Classified b0 (classify b k) n (k + 1) := by
  obtain ⟨hz, hf⟩ := classify_spec b k
  refine ⟨fun i => ?_, fun i hi => ?_, fun i hi => ?_, fun t => ?_⟩
  · rw [hz]
    split_ifs with hik
    · rw [hik]; exact h.base k
    · exact h.base i
  · rw [hz, if_neg (by omega)]
    exact h.rest i (by omega)
  · rw [hz]
    split_ifs with hik hc hc
    · subst hik
      simp only [h.type, h.rest i le_rfl, hchain i hk, if_pos hc.1]
      rw [Option.filter_some, if_pos]
      rw [hc.2]
      simp [Cut, zoneDma, zoneNormal, zoneHighmem]
      omega
    · subst hik
      simp only [h.type, h.rest i le_rfl, hchain i hk]
      by_cases hlt : i + 1 < n
      · have hle := hmono i (i + 1) (by omega) hlt
        have hne : b0.type (i + 1) ≠ b0.type i := fun he => hc ⟨hlt, he⟩
        have h2 := zoneTypeOf_le (b0.zones (i + 1)).baseAddr
        have hcut : Cut (b0.type i) (b0.type (i + 1)) := by
          unfold Cut zoneDma zoneNormal zoneHighmem
          unfold Boot.type at *
          omega
        rw [if_pos hlt, Option.filter_some, if_neg (by simpa using hcut)]
      · rw [if_neg hlt, Option.filter_none]
    · rw [h.next i (by omega), if_pos hc]
    · rw [h.next i (by omega), if_neg hc]
  · rw [hf, h.type]
    rcases h.fast t with ⟨h1, h2⟩ | ⟨f, hfk, h1, h2, h3⟩
    · by_cases ht : t = b0.type k
      · refine Or.inr ⟨k, by omega, by rw [if_pos ⟨h1, ht⟩], ht.symm, h2⟩
      · refine Or.inl ⟨by rw [if_neg (fun hc => ht hc.2)]; exact h1, fun i hi he => ?_⟩
        rcases Nat.lt_or_eq_of_le (Nat.le_of_lt_succ hi) with hlt | rfl
        · exact h2 i hlt he
        · exact ht he.symm
    · exact Or.inr ⟨f, by omega, by rw [if_neg (by rw [h1]; simp)]; exact h1, h2, h3⟩

theorem Classified.loop (fuel : ℕ) (hchain : ∀ i < n, (b0.zones i).next = if i + 1 < n then some (i + 1) else none)
    (hmono : ∀ i j, i ≤ j → j < n → b0.type i ≤ b0.type j) : ∀ (b : Boot) (k : ℕ), Classified b0 b n k → k < n →
    n - k ≤ fuel → Classified b0 (classifyLoop fuel b (some k)) n n := by
  induction fuel with
  | zero => intro b k h hk hfuel; omega
  | succ fuel ih =>
    intro b k h hk hfuel
    have hs := h.step hk hchain hmono
    rw [classifyLoop, h.rest k le_rfl, hchain k hk]
    by_cases hlt : k + 1 < n
    · rw [if_pos hlt]
      exact ih _ (k + 1) hs hlt (by omega)
    · obtain rfl : n = k + 1 := by omega
      rw [if_neg hlt]
      cases fuel <;> exact hs

/-- the chain from zone i on: the zones behind it of its type -/
theorem Classified.follow (h : Classified b0 b n n) (hmono : ∀ i j, i ≤ j → j < n → b0.type i ≤ b0.type j)
    (fuel : ℕ) : ∀ i < n, n - i ≤ fuel → (b.follow fuel (some i)).Nodup ∧
      ∀ j, j ∈ b.follow fuel (some i) ↔ i ≤ j ∧ j < n ∧ b0.type j = b0.type i := by
  induction fuel with
  | zero => intro i hi hfuel; omega
  | succ fuel ih =>
    intro i hi hfuel
    rw [Boot.follow, h.next i hi]
    by_cases hc : i + 1 < n ∧ b0.type (i + 1) = b0.type i
    · obtain ⟨hnd, hmem⟩ := ih (i + 1) hc.1 (by omega)
      rw [if_pos hc]
      refine ⟨List.nodup_cons.2 ⟨fun hin => ?_, hnd⟩, fun j => ?_⟩
      · have := ((hmem i).1 hin).1; omega
      · rw [List.mem_cons, hmem, hc.2]
        constructor
        · rintro (rfl | ⟨h1, h2, h3⟩)
          · exact ⟨le_rfl, hi, rfl⟩
          · exact ⟨by omega, h2, h3⟩
        · rintro ⟨h1, h2, h3⟩
          rcases Nat.lt_or_eq_of_le h1 with hlt | heq
          · exact Or.inr ⟨hlt, h2, h3⟩
          · exact Or.inl heq.symm
    · rw [if_neg hc]
      have hnil : b.follow fuel none = [] := by cases fuel <;> rfl
      rw [hnil]
      refine ⟨List.nodup_singleton i, fun j => ?_⟩
      rw [List.mem_singleton]
      constructor
      · rintro rfl; exact ⟨le_rfl, hi, rfl⟩
      · rintro ⟨h1, h2, h3⟩
        by_contra hne
        have hlt : i + 1 < n := by omega
        have g1 := hmono i (i + 1) (by omega) hlt
        have g2 := hmono (i + 1) j (by omega) h2
        exact hc ⟨hlt, by omega⟩

/-- **A chain lists the zones of its type.** -/
theorem Classified.chain_spec (h : Classified b0 b n n) (hmono : ∀ i j, i ≤ j → j < n → b0.type i ≤ b0.type j)
    (hn : n ≤ nrZones) (t : ℕ) : (b.chain t).Nodup ∧ ∀ i, i ∈ b.chain t ↔ i < n ∧ b0.type i = t := by
  unfold Boot.chain
  rcases h.fast t with ⟨h1, h2⟩ | ⟨f, hf, h1, h2, h3⟩
  · rw [h1]
    exact ⟨List.nodup_nil, fun i => iff_of_false List.not_mem_nil fun hi => h2 i hi.1 hi.2⟩
  · obtain ⟨hnd, hmem⟩ := h.follow hmono nrZones f hf (by omega)
    rw [h1]
    refine ⟨hnd, fun i => (hmem i).trans ⟨fun hi => ⟨hi.2.1, hi.2.2.trans h2⟩,
      fun hi => ⟨?_, hi.1, hi.2.trans h2.symm⟩⟩⟩
    by_contra hlt
    exact h3 i (by omega) hi.2

/-- every zone is on the chain of its type, once, and on no other chain -/
theorem Classified.chain_count (h : Classified b0 b n n) (hmono : ∀ i j, i ≤ j → j < n → b0.type i ≤ b0.type j)
    (hn : n ≤ nrZones) {i : ℕ} (hi : i < n) (t : ℕ) : (b.chain t).count i = if t = b0.type i then 1 else 0 := by
  obtain ⟨hnd, hmem⟩ := h.chain_spec hmono hn t
  split_ifs with ht
  · exact List.count_eq_one_of_mem hnd ((hmem i).2 ⟨hi, ht.symm⟩)
  · exact List.count_eq_zero_of_not_mem fun hin => ht ((hmem i).1 hin).2.symm

/-- **init_fast_zone_entry classifies every zone of the list.** -/
theorem initFastZoneEntry_classified (hpos : 0 < n) (hn : n ≤ nrZones)
    (hchain : ∀ i < n, (b.zones i).next = if i + 1 < n then some (i + 1) else none)
    (hmono : ∀ i j, i ≤ j → j < n → b.type i ≤ b.type j) : Classified b (initFastZoneEntry b) n n := by
  refine Classified.loop nrZones hchain hmono { b with fast := fun _ => none } 0 ?_ hpos (by omega)
  exact ⟨fun _ => ⟨rfl, rfl⟩, fun _ _ => rfl, fun i hi => absurd hi (Nat.not_lt_zero i),
    fun t => Or.inl ⟨rfl, fun i hi => absurd hi (Nat.not_lt_zero i)⟩⟩

/-! ## The segments of a map -/

/-- a segment: whole pages inside the entry, on one side of each limit -/
structure SegmentOk (lo stop : ℕ) (r : ℕ × ℕ) : Prop where
  first : 4096 ∣ r.1
  last : 4096 ∣ r.2
  pos : r.1 < r.2
  low : lo ≤ r.1
  high : r.2 ≤ stop
  dma : r.1 < dmaLimit → r.2 ≤ dmaLimit
  normal : r.1 < normalLimit → r.2 ≤ normalLimit

theorem mem_piece {lo hi a f : ℕ} {r : ℕ × ℕ} (h : r ∈ piece lo hi a f) :
    r = (max lo a, min hi f) ∧ max lo a < min hi f := by
  unfold piece at h
  split_ifs at h with hlt
  · exact ⟨List.mem_singleton.1 h, hlt⟩
  · cases h

theorem dvd_min_max {d x y : ℕ} (hx : d ∣ x) (hy : d ∣ y) : d ∣ min x y ∧ d ∣ max x y := by
  rcases Nat.le_total x y with h | h
  · rw [Nat.min_eq_left h, Nat.max_eq_right h]; exact ⟨hx, hy⟩
  · rw [Nat.min_eq_right h, Nat.max_eq_left h]; exact ⟨hy, hx⟩

theorem mem_segments {a e : ℕ} {r : ℕ × ℕ} (h : r ∈ segments a e) : SegmentOk a e r := by
  have hle : dmaLimit ≤ normalLimit := by norm_num [dmaLimit_eq, normalLimit_eq]
  have hd : 4096 ∣ dmaLimit := by norm_num [dmaLimit_eq]
  have hn : 4096 ∣ normalLimit := by norm_num [normalLimit_eq]
  have ha : a ≤ roundUp a := by unfold roundUp; omega
  have hf : e / 4096 * 4096 ≤ e := Nat.div_mul_le_self e 4096
  have hdf : 4096 ∣ e / 4096 * 4096 := Dvd.intro_left _ rfl
  have hda := roundUp_dvd a
  rw [segments, List.mem_append, List.mem_append] at h
  rcases h with (h | h) | h <;> obtain ⟨rfl, hlt⟩ := mem_piece h
  · rw [Nat.max_eq_right (Nat.zero_le _)] at hlt ⊢
    exact ⟨hda, (dvd_min_max hd hdf).1, hlt, ha, (Nat.min_le_right _ _).trans hf, fun _ => Nat.min_le_left _ _,
      fun _ => (Nat.min_le_left _ _).trans hle⟩
  · exact ⟨(dvd_min_max hd hda).2, (dvd_min_max hn hdf).1, hlt, ha.trans (Nat.le_max_right _ _),
      (Nat.min_le_right _ _).trans hf, fun hc => absurd (Nat.le_max_left _ _) (Nat.not_le.2 hc),
      fun _ => Nat.min_le_left _ _⟩
  · exact ⟨(dvd_min_max hn hda).2, (dvd_min_max (by norm_num) hdf).1, hlt, ha.trans (Nat.le_max_right _ _),
      (Nat.min_le_right _ _).trans hf, fun hc => absurd (hle.trans (Nat.le_max_left _ _)) (Nat.not_le.2 hc),
      fun hc => absurd (Nat.le_max_left _ _) (Nat.not_le.2 hc)⟩

/-- every whole page of the entry lies in a segment -/
theorem segments_cover {a e p : ℕ} (he : e < 2 ^ 32) (hp : 4096 ∣ p) (h1 : a ≤ p) (h2 : p + 4096 ≤ e) :
    ∃ r ∈ segments a e, r.1 ≤ p ∧ p + 4096 ≤ r.2 := by
  obtain ⟨q, rfl⟩ := hp
  have hr : roundUp a ≤ 4096 * q := by unfold roundUp; omega
  have hf : 4096 * q + 4096 ≤ e / 4096 * 4096 := by omega
  simp only [segments, List.mem_append, piece]
  by_cases hd : 4096 * q < dmaLimit
  · refine ⟨(max 0 (roundUp a), min dmaLimit (e / 4096 * 4096)), Or.inl (Or.inl ?_), ?_, ?_⟩
    · rw [if_pos (by omega)]; exact List.mem_singleton.2 rfl
    · simp only; omega
    · rw [dmaLimit_eq] at *; simp only; omega
  · by_cases hn : 4096 * q < normalLimit
    · refine ⟨(max dmaLimit (roundUp a), min normalLimit (e / 4096 * 4096)), Or.inl (Or.inr ?_), ?_, ?_⟩
      · rw [if_pos (by omega)]; exact List.mem_singleton.2 rfl
      · simp only; omega
      · rw [normalLimit_eq] at *; simp only; omega
    · refine ⟨(max normalLimit (roundUp a), min (2 ^ 32) (e / 4096 * 4096)), Or.inr ?_, ?_, ?_⟩
      · rw [if_pos (by omega)]; exact List.mem_singleton.2 rfl
      · simp only; omega
      · simp only; omega

theorem segments_ascending (a e : ℕ) : (segments a e).Pairwise fun r r' => r.2 ≤ r'.1 := by
  have hle : dmaLimit ≤ normalLimit := by norm_num [dmaLimit_eq, normalLimit_eq]
  have hone : ∀ lo hi x f, (piece lo hi x f).Pairwise fun r r' => r.2 ≤ r'.1 := by
    intro lo hi x f
    unfold piece
    split_ifs
    · exact List.pairwise_singleton _ _
    · exact List.Pairwise.nil
  rw [segments, List.pairwise_append, List.pairwise_append]
  refine ⟨⟨hone _ _ _ _, hone _ _ _ _, fun r hr r' hr' => ?_⟩, hone _ _ _ _, fun r hr r' hr' => ?_⟩
  · obtain ⟨rfl, -⟩ := mem_piece hr
    obtain ⟨rfl, -⟩ := mem_piece hr'
    exact (Nat.min_le_left _ _).trans (Nat.le_max_left _ _)
  · obtain ⟨rfl, -⟩ := mem_piece hr'
    rcases List.mem_append.1 hr with h | h <;> obtain ⟨rfl, -⟩ := mem_piece h
    · exact ((Nat.min_le_left _ _).trans hle).trans (Nat.le_max_left _ _)
    · exact (Nat.min_le_left _ _).trans (Nat.le_max_left _ _)

theorem mem_zonesNeeded {es : List MemoryMap} {r : ℕ × ℕ} (h : r ∈ zonesNeeded es) :
    ∃ e ∈ es, e.usable ∧ SegmentOk e.base e.stop r := by
  obtain ⟨e, he, hr⟩ := List.mem_flatMap.1 h
  unfold entrySegments at hr
  split_ifs at hr with hu
  · exact ⟨e, he, hu, mem_segments hr⟩
  · cases hr

theorem zonesNeeded_ascending {es : List MemoryMap} (hok : MapOk es) :
    (zonesNeeded es).Pairwise fun r r' => r.2 ≤ r'.1 := by
  rw [zonesNeeded, List.flatMap_def, List.pairwise_flatten, List.pairwise_map]
  constructor
  · intro l hl
    obtain ⟨e, -, rfl⟩ := List.mem_map.1 hl
    unfold entrySegments
    split_ifs
    · exact segments_ascending _ _
    · exact List.Pairwise.nil
  · refine (hok.sorted.and hok.disjoint).imp ?_
    rintro e e' ⟨hle, hdis⟩ r hr r' hr'
    unfold entrySegments at hr hr'
    split_ifs at hr hr'
    · -- the entry before ends where the next one starts, since both hold addresses
      have h1 := mem_segments hr
      have h2 := mem_segments hr'
      by_contra hc
      have := h1.pos
      have := h1.low
      have := h1.high
      have := h2.pos
      have := h2.low
      have := h2.high
      rcases Nat.lt_or_ge e'.base e.stop with hlt | hge
      · exact hdis e'.base ⟨⟨hle, hlt⟩, le_rfl, by omega⟩
      · omega
    · cases hr'
    · cases hr
    · cases hr

/-! ## The zone table is right -/

/-- the zones 0 .. n - 1 of the table against the memory map -/
structure Covers (es : List MemoryMap) (b : Boot) (n : ℕ) : Prop where
  aligned : ∀ i < n, 4096 ∣ (b.range i).1 ∧ 4096 ∣ (b.range i).2
  inside : ∀ i < n, ∃ e ∈ es, e.usable ∧ e.base ≤ (b.range i).1 ∧ (b.range i).2 ≤ e.stop
  limits : ∀ i < n, ¬ ((b.range i).1 < dmaLimit ∧ dmaLimit < (b.range i).2) ∧
    ¬ ((b.range i).1 < normalLimit ∧ normalLimit < (b.range i).2)
  disjoint : ∀ i < n, ∀ j < n, i ≠ j → (b.range i).2 ≤ (b.range j).1 ∨ (b.range j).2 ≤ (b.range i).1
  pages : ∀ e ∈ es, e.usable → ∀ p, 4096 ∣ p → e.base ≤ p → p + 4096 ≤ e.stop →
    ∃ i < n, (b.range i).1 ≤ p ∧ p + 4096 ≤ (b.range i).2
  chains : ∀ i < n, ∀ t, (b.chain t).count i = if t = b.type i then 1 else 0

/-- mem_zones_create returns and its zones are right -/
def Right (es : List MemoryMap) : Prop := ∃ b n, memZonesCreate es = some (b, n) ∧ Covers es b n

theorem classifyLoop_range (fuel : ℕ) :
    ∀ (b : Boot) (o : Option ℕ) (i : ℕ), (classifyLoop fuel b o).range i = b.range i := by
  induction fuel with
  | zero => intro b o i; rfl
  | succ fuel ih =>
    intro b o i
    cases o with
    | none => rfl
    | some k =>
      rw [classifyLoop, ih, Boot.range, Boot.range, (classify_spec b k).1 i]
      split_ifs with h
      · rw [h]
      · rfl

theorem initFastZoneEntry_range (b : Boot) (i : ℕ) : (initFastZoneEntry b).range i = b.range i :=
  classifyLoop_range _ _ _ _

theorem covers_of_table {es : List MemoryMap} (hok : MapOk es) {b : Boot} (ht : Table b (zonesNeeded es)) :
    Covers es (initFastZoneEntry b) (zonesNeeded es).length := by
  have hasc := zonesNeeded_ascending hok
  have hrange : ∀ i (hi : i < (zonesNeeded es).length), (initFastZoneEntry b).range i = (zonesNeeded es)[i] := by
    intro i hi
    rw [initFastZoneEntry_range, ht.range i _ (List.getElem?_eq_getElem hi)]
  have hseg : ∀ i (hi : i < (zonesNeeded es).length), ∃ e ∈ es, e.usable ∧
      SegmentOk e.base e.stop ((initFastZoneEntry b).range i) := by
    intro i hi
    rw [hrange i hi]
    exact mem_zonesNeeded (List.getElem_mem hi)
  have hlt : ∀ i j, i < j → j < (zonesNeeded es).length →
      ((initFastZoneEntry b).range i).2 ≤ ((initFastZoneEntry b).range j).1 := by
    intro i j hij hj
    rw [hrange i (hij.trans hj), hrange j hj]
    exact List.pairwise_iff_getElem.1 hasc i j (hij.trans hj) hj hij
  refine ⟨fun i hi => ?_, fun i hi => ?_, fun i hi => ?_, fun i hi j hj hne => ?_, fun e he hu p hp h1 h2 => ?_,
    fun i hi t => ?_⟩
  · obtain ⟨e, -, -, hs⟩ := hseg i hi
    exact ⟨hs.first, hs.last⟩
  · obtain ⟨e, he, hu, hs⟩ := hseg i hi
    exact ⟨e, he, hu, hs.low, hs.high⟩
  · obtain ⟨e, -, -, hs⟩ := hseg i hi
    exact ⟨fun hc => absurd (hs.dma hc.1) (Nat.not_le.2 hc.2), fun hc => absurd (hs.normal hc.1) (Nat.not_le.2 hc.2)⟩
  · rcases Nat.lt_or_gt_of_ne hne with h | h
    · exact Or.inl (hlt i j h hj)
    · exact Or.inr (hlt j i h hi)
  · obtain ⟨r, hr, hr1, hr2⟩ := segments_cover (hok.below e he hu) hp h1 h2
    have hmem : r ∈ zonesNeeded es := List.mem_flatMap.2 ⟨e, he, by rw [entrySegments, if_pos hu]; exact hr⟩
    obtain ⟨i, hi, rfl⟩ := List.getElem_of_mem hmem
    exact ⟨i, hi, by rw [hrange i hi]; exact ⟨hr1, hr2⟩⟩
  · -- the zones ascend, so their types do
    have hb : ∀ i < (zonesNeeded es).length, (b.zones i).baseAddr.toNat = ((initFastZoneEntry b).range i).1 := by
      intro i _
      rw [initFastZoneEntry_range]; rfl
    have hmono : ∀ i j, i ≤ j → j < (zonesNeeded es).length → b.type i ≤ b.type j := by
      intro i j hij hj
      refine zoneTypeOf_mono ?_
      rw [hb i (by omega), hb j hj]
      rcases Nat.lt_or_eq_of_le hij with h | rfl
      · obtain ⟨e, -, -, hs⟩ := hseg i (h.trans hj)
        exact hs.pos.le.trans (hlt i j h hj)
      · exact le_rfl
    have hfew : (zonesNeeded es).length ≤ nrZones := hok.few.trans (Nat.sub_le _ _)
    have hall := initFastZoneEntry_classified (by omega) hfew ht.next hmono
    have hcount := hall.chain_count hmono hfew hi t
    rw [show (initFastZoneEntry b).type i = b.type i from hall.type i]
    exact hcount

theorem not_covers_of_stray {es : List MemoryMap} (hok : MapOk es) {b : Boot} {n i : ℕ} (hi : i < n) {e : MemoryMap}
    (he : e ∈ es) (hs : Stray e.base e.stop (b.range i)) : ¬ Covers es b n := by
  intro hc
  obtain ⟨h1, h2⟩ := hc.limits i hi
  obtain ⟨e', he', hu', hlo, hhi⟩ := hc.inside i hi
  have hbelow := hok.below e' he' hu'
  rcases hs with h | h | h | ⟨g1, g2, g3⟩
  · exact h1 h
  · exact h2 h
  · omega
  · by_cases hee : e = e'
    · subst hee; omega
    · -- the start of the stray zone lies in two entries
      have hsymm : Std.Symm fun e e' : MemoryMap =>
          ∀ a, ¬ ((e.base ≤ a ∧ a < e.stop) ∧ (e'.base ≤ a ∧ a < e'.stop)) := ⟨fun _ _ h a hh => h a hh.symm⟩
      exact hok.disjoint.forall he he' hee (b.range i).1 ⟨⟨g1, g2⟩, hlo, by omega⟩

theorem right_of_ok {es : List MemoryMap} (hok : MapOk es) (hall : ∀ e ∈ es, e.usable → EntryOk e) : Right es := by
  have ht0 : Table Boot.zero [] := ⟨by simp, by simp⟩
  obtain ⟨b, hb, ht⟩ := createLoop_spec es Boot.zero [] 0#64 ht0 (fun e he hu => ⟨hok.below e he hu, hall e he hu⟩)
    hok.sorted (fun _ _ => Nat.zero_le _) hok.few
  exact ⟨_, _, congrArg (Option.map _) hb, covers_of_table hok ht⟩

theorem not_right_of_bad {es : List MemoryMap} (hok : MapOk es) (hbad : ∃ e ∈ es, e.usable ∧ ¬ EntryOk e) :
    ¬ Right es := by
  rintro ⟨b, n, hb, hc⟩
  obtain ⟨r, hr, heq⟩ := Option.map_eq_some_iff.1 hb
  obtain ⟨rfl, rfl⟩ := Prod.mk.inj heq
  obtain ⟨i, hi, e, he, -, hs⟩ := createLoop_bad es _ _ _ _ _ hok.below hok.sorted (fun _ _ => Nat.zero_le _) hbad hr
  rw [← initFastZoneEntry_range] at hs
  exact not_covers_of_stray hok hi he hs hc

/-- **The zone table is right exactly when every usable entry is.** -/
theorem covers_iff (es : List MemoryMap) (hok : MapOk es) : Right es ↔ ∀ e ∈ es, e.usable → EntryOk e := by
  constructor
  · intro hr e he hu
    by_contra hbad
    exact not_right_of_bad hok ⟨e, he, hu, hbad⟩ hr
  · exact right_of_ok hok

/-- a PC with 640 KB and 127 MB of memory -/
def pcMap : List MemoryMap :=
  [⟨0x0#64, 0x9FC00#64, 0x1#32⟩, ⟨0x9FC00#64, 0x400#64, 0x2#32⟩, ⟨0x100000#64, 0x7EE0000#64, 0x1#32⟩]

theorem pcMap_ok : MapOk pcMap where
  sorted := by decide
  disjoint := by
    simp only [pcMap, List.pairwise_cons, List.mem_cons, List.not_mem_nil, or_false, forall_eq_or_imp, forall_eq,
      false_imp_iff, implies_true, List.Pairwise.nil, and_true, MemoryMap.base, MemoryMap.stop, BitVec.toNat_ofNat]
    refine ⟨⟨fun a h => ?_, fun a h => ?_⟩, fun a h => ?_⟩ <;> omega
  below := by decide
  few := by decide +kernel

instance (base size : ℕ) : Decidable (RangeOk base size) := by unfold RangeOk; infer_instance

instance (e : MemoryMap) : Decidable (EntryOk e) := by unfold EntryOk; infer_instance

theorem covers_pc : Right pcMap := (covers_iff pcMap pcMap_ok).2 (by decide)

/-- one usable entry that is smaller than its alignment gap -/
def tinyMap : List MemoryMap := [⟨0x1001#64, 0x100#64, 0x1#32⟩]

theorem tinyMap_ok : MapOk tinyMap where
  sorted := by decide
  disjoint := List.pairwise_singleton _ _
  below := by decide
  few := by decide +kernel

/-- The aligned size of the entry wraps, and the zone made of it is [0x2000, 2^32 + 0x1000). -/
theorem tiny_not_right : MapOk tinyMap ∧ ¬ Right tinyMap := by
  refine ⟨tinyMap_ok, not_right_of_bad tinyMap_ok ⟨⟨0x1001#64, 0x100#64, 0x1#32⟩, List.mem_cons_self, rfl, ?_⟩⟩
  intro h
  have := h.1
  revert this
  decide

example : (memZonesCreate tinyMap).map (fun r => r.1.range 0) = some (0x2000, 0x100001000) := by decide +kernel

end SinsOs.ZonesCreate
