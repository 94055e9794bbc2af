/-
The writes of mem_zones_create to zones_list (kernel/mm/init.c).

mem_zones_create tests the number of zones only behind a whole entry, and one entry makes up to three. `pieces` counts
the zones of an entry, `taken` are the entries that the loop gets to see if nothing stops it.
- `add_spec_writes`: a call writes the elements of the zones it makes and the one before them, and no other.
- `memZonesWrites_le`: no memory map makes the code write more than two elements behind the end of zones_list.
- `memZonesCreate_inside`: if it returns, all its writes are inside zones_list.
- `writes_inside_iff`: for every memory map, all the writes are inside zones_list if and only if no entry carries the
  number of zones from below NR_ZONES to above it (`Fits`).
- `tenth_entry_outside`: nine entries of a page, and a tenth one that straddles the DMA limit.
-/
import SinsOs.Mm.ZonesMap
import SinsOs.Kernel.BootParams

namespace SinsOs.ZonesCreate

open SinsOs.Bits SinsOs.Mm

/-! ## mem_zones_create up to the BUG_ON -/

/-- the loop of mem_zones_create: zones_list and the number of zones at its end, or where the BUG_ON stops it -/
def createStop (b : Boot) (baseAddr : BitVec 64) (zonesIndex : ℕ) : List MemoryMap → Boot × ℕ
  | [] => (b, zonesIndex)
  | e :: es =>
    if e.usable ∧ e.baseAddr ≥ baseAddr then
      if e.baseAddr + e.size ≥ fourGB then (b, zonesIndex)
      else
        let r := addToZonesList b zonesIndex (e.baseAddr.setWidth 32) (e.size.setWidth 32)
        if zonesIndex + r.2 ≥ nrZones then (r.1, zonesIndex + r.2) else createStop r.1 e.baseAddr (zonesIndex + r.2) es
    else createStop b e.baseAddr zonesIndex es

/-- the elements of zones_list that mem_zones_create writes -/
def memZonesWrites (es : List MemoryMap) : List ℕ :=
  let r := createStop .zero 0#64 0 es
  if r.2 ≥ nrZones then r.1.writes else (initFastZoneEntry r.1).writes

theorem createLoop_eq_stop (es : List MemoryMap) : ∀ (b : Boot) (prev : BitVec 64) (index : ℕ), index < nrZones →
    createLoop b prev index es =
      if (createStop b prev index es).2 ≥ nrZones then none else some (createStop b prev index es) := by
  induction es with
  | nil => intro b prev index h; rw [createStop, if_neg (Nat.not_le.2 h), createLoop]
  | cons e es ih =>
    intro b prev index h
    rw [createLoop, createStop]
    by_cases hc : e.usable ∧ e.baseAddr ≥ prev
    · rw [if_pos hc, if_pos hc]
      by_cases h4 : e.baseAddr + e.size ≥ fourGB
      · rw [if_pos h4, if_pos h4, if_neg (Nat.not_le.2 h)]
      · rw [if_neg h4, if_neg h4]
        by_cases hb : index + (addToZonesList b index (e.baseAddr.setWidth 32) (e.size.setWidth 32)).2 ≥ nrZones
        · simp only [if_pos hb]
        · simp only [if_neg hb]
          exact ih _ _ _ (Nat.not_le.1 hb)
    · rw [if_neg hc, if_neg hc]
      exact ih b e.baseAddr index h

/-- where mem_zones_create returns, its writes are those of the zone table -/
theorem memZonesWrites_of_some {es : List MemoryMap} {b : Boot} {n : ℕ} (h : memZonesCreate es = some (b, n)) :
    memZonesWrites es = b.writes := by
  rw [memZonesCreate, createLoop_eq_stop es _ _ 0 (by decide)] at h
  rw [memZonesWrites]
  split_ifs at h with hc
  · cases h
  · simp only [if_neg hc]
    cases h
    rfl

/-! ## The zones of an entry -/

/-- the number of zones that add_to_zones_list makes of a range -/
def pieces (base size : Word) : ℕ :=
  let a := pageAlign base
  let stop := base + size
  if size - (a - base) < pageSize then 0
  else if a < zoneDmaLimit ∧ a + size ≥ zoneDmaLimit then
    if stop - zoneDmaLimit < pageSize then 1
    else if stop ≥ zoneNormalLimit ∧ ¬ stop - zoneNormalLimit < pageSize then 3
    else 2
  else if a < zoneNormalLimit ∧ a + size ≥ zoneNormalLimit then
    if stop - zoneNormalLimit < pageSize then 1 else 2
  else 1

def MemoryMap.pieces (e : MemoryMap) : ℕ := ZonesCreate.pieces (e.baseAddr.setWidth 32) (e.size.setWidth 32)

/-- the entries that mem_zones_create adds: usable, not below the entry before, and before the first that ends at 4 GB
or above -/
def taken (prev : BitVec 64) : List MemoryMap → List MemoryMap
  | [] => []
  | e :: es =>
    if e.usable ∧ e.baseAddr ≥ prev then if e.baseAddr + e.size ≥ fourGB then [] else e :: taken e.baseAddr es
    else taken e.baseAddr es

def total (es : List MemoryMap) : ℕ := (es.map MemoryMap.pieces).sum

/-- no entry carries the number of zones from below NR_ZONES to above it -/
def Fits (es : List MemoryMap) : Prop :=
  ∀ pre e post, taken 0#64 es = pre ++ e :: post → total pre < nrZones → total pre + e.pieces ≤ nrZones

theorem total_cons (e : MemoryMap) (es : List MemoryMap) : total (e :: es) = e.pieces + total es := by
  rw [total, List.map_cons, List.sum_cons, total]

/-- a range that straddles both limits gives three zones -/
theorem pieces_le (base size : Word) : pieces base size ≤ 3 := by
  simp only [pieces]
  split_ifs <;> omega

/-! ## The writes of add_to_zones_list -/

/-- `n` elements from `index` on are new: they and the one before them are written, and only they are chained to -/
structure Wrote (b b' : Boot) (index n : ℕ) : Prop where
  mem : ∀ k, k ∈ b'.writes ↔ k ∈ b.writes ∨ (index ≤ k ∧ k < index + n) ∨ (n ≠ 0 ∧ k + 1 = index)
  next : ∀ i m, (b'.zones i).next = some m → (b.zones i).next = some m ∨ (index ≤ m ∧ m < index + n)

variable {b b' : Boot} {index n : ℕ} {base size : Word}

theorem Wrote.nothing : Wrote b b index 0 :=
  ⟨fun k => ⟨Or.inl, by rintro (h | ⟨h1, h2⟩ | ⟨h, -⟩) <;> [exact h; omega; exact absurd rfl h]⟩,
  fun _ _ h => Or.inl h⟩

theorem writes_link {r : Boot × ℕ} (hr : r.2 ≠ 0) (k : ℕ) :
    k ∈ (link r index).1.writes ↔ k ∈ r.1.writes ∨ k + 1 = index := by
  unfold link
  split_ifs with h
  · have : k + 1 = index ↔ k = index - 1 := by omega
    rw [this, or_comm]
    exact List.mem_cons
  · have : index = 0 := by by_contra h0; exact h ⟨hr, h0⟩
    exact ⟨Or.inl, by rintro (h | h) <;> [exact h; omega]⟩

theorem next_link {r : Boot × ℕ} {i m : ℕ} (h : ((link r index).1.zones i).next = some m) :
    (r.1.zones i).next = some m ∨ m = index := by
  unfold link at h
  split_ifs at h
  · rw [zones_setNext] at h
    split_ifs at h
    · exact Or.inr (Option.some.inj h).symm
    · exact Or.inl h
  · exact Or.inl h

theorem snd_link (r : Boot × ℕ) : (link r index).2 = r.2 := by
  unfold link
  split_ifs <;> rfl

/-- the two writes to a new element -/
theorem Wrote.element (b : Boot) (index : ℕ) (base size : Word) : let s := (b.setNext index none).setRange index base size
    (∀ k, k ∈ s.writes ↔ k = index ∨ k ∈ b.writes) ∧ ∀ i m, (s.zones i).next = some m →
    (b.zones i).next = some m := by
  refine ⟨fun k => ?_, fun i m h => ?_⟩
  · have : ((b.setNext index none).setRange index base size).writes = index :: index :: b.writes := rfl
    rw [this, List.mem_cons, List.mem_cons, or_self_left]
  · rw [zones_setRange] at h
    split_ifs at h with h1
    · rw [zones_setNext, if_pos rfl] at h; cases h
    · rwa [zones_setNext, if_neg h1] at h

/-- an element, the rest of the range behind it, and the link to the element -/
theorem Wrote.cons (base size : Word) {c : ℕ}
    (h : Wrote ((b.setNext index none).setRange index base size) b' (index + 1) n) (hc : c = 1 + n) :
    Wrote b (link (b', c) index).1 index (1 + n) := by
  obtain ⟨hw, hn⟩ := Wrote.element b index base size
  refine ⟨fun k => ?_, fun i m hm => ?_⟩
  · rw [writes_link (show (b', c).2 ≠ 0 by simp only; omega), h.mem, hw]
    constructor
    · rintro (((rfl | h) | h | h) | h)
      · exact Or.inr (Or.inl ⟨le_rfl, by omega⟩)
      · exact Or.inl h
      · exact Or.inr (Or.inl ⟨by omega, by omega⟩)
      · exact Or.inr (Or.inl ⟨by omega, by omega⟩)
      · exact Or.inr (Or.inr ⟨by omega, h⟩)
    · rintro (h | ⟨h1, h2⟩ | ⟨-, h⟩)
      · exact Or.inl (Or.inl (Or.inr h))
      · rcases Nat.eq_or_lt_of_le h1 with rfl | hlt
        · exact Or.inl (Or.inl (Or.inl rfl))
        · exact Or.inl (Or.inr (Or.inl ⟨hlt, by omega⟩))
      · exact Or.inr h
  · rcases next_link hm with h1 | rfl
    · rcases h.next i m h1 with h2 | h2
      · exact Or.inl (hn i m h2)
      · exact Or.inr ⟨by omega, by omega⟩
    · exact Or.inr ⟨le_rfl, by omega⟩

/-- a call makes `n` zones, wherever it starts -/
def Makes (base size : Word) (n : ℕ) : Prop :=
  ∀ b index, (addToZonesList b index base size).2 = n ∧ Wrote b (addToZonesList b index base size).1 index n

theorem makes_small (h : size - (pageAlign base - base) < pageSize) : Makes base size 0 := by
  intro b index
  rw [add_small h]
  exact ⟨rfl, Wrote.nothing⟩

theorem makes_leaf (hs : ¬ size - (pageAlign base - base) < pageSize)
    (h1 : ¬ (pageAlign base < zoneDmaLimit ∧ pageAlign base + size ≥ zoneDmaLimit))
    (h2 : ¬ (pageAlign base < zoneNormalLimit ∧ pageAlign base + size ≥ zoneNormalLimit)) : Makes base size 1 := by
  intro b index
  rw [add_leaf hs h1 h2]
  exact ⟨snd_link _, Wrote.cons _ _ Wrote.nothing rfl⟩

theorem makes_cut {limit : Word} (hadd : ∀ b index, addToZonesList b index base size = cutAdd b index base size limit)
    (hrest : Makes limit (base + size - limit) n) : Makes base size (1 + n) := by
  intro b index
  obtain ⟨hc, hw⟩ := hrest ((b.setNext index none).setRange index (pageAlign base) (limit - pageAlign base)) (index + 1)
  rw [hadd, cutAdd]
  simp only [hc]
  exact ⟨snd_link _, Wrote.cons _ _ hw rfl⟩

/-- the range behind the normal limit -/
theorem makes_above (stop : Word) :
    Makes zoneNormalLimit (stop - zoneNormalLimit) (if stop - zoneNormalLimit < pageSize then 0 else 1) := by
  have ha : pageAlign zoneNormalLimit = zoneNormalLimit := by decide
  split_ifs with hs
  · exact makes_small (by rwa [ha, BitVec.sub_self, BitVec.sub_zero])
  · refine makes_leaf (by rwa [ha, BitVec.sub_self, BitVec.sub_zero]) ?_ ?_
    · rw [ha]; exact fun h => absurd h.1 (by decide)
    · rw [ha]; exact fun h => absurd h.1 (by decide)

/-- **The writes of add_to_zones_list.** -/
theorem add_spec_writes (base size : Word) : Makes base size (pieces base size) := by
  simp only [pieces]
  by_cases hs : size - (pageAlign base - base) < pageSize
  · rw [if_pos hs]
    exact makes_small hs
  · rw [if_neg hs]
    by_cases h1 : pageAlign base < zoneDmaLimit ∧ pageAlign base + size ≥ zoneDmaLimit
    · rw [if_pos h1]
      have hcut : ∀ n, Makes zoneDmaLimit (base + size - zoneDmaLimit) n → Makes base size (1 + n) :=
        fun n h => makes_cut (fun _ _ => add_dma hs h1) h
      -- the nested call: its range starts at the DMA limit and ends where this one does
      have ha : pageAlign zoneDmaLimit = zoneDmaLimit := by decide
      have hstop : zoneDmaLimit + (base + size - zoneDmaLimit) = base + size := by
        rw [BitVec.add_comm, BitVec.sub_add_cancel]
      have hd : ¬ (pageAlign zoneDmaLimit < zoneDmaLimit ∧
          pageAlign zoneDmaLimit + (base + size - zoneDmaLimit) ≥ zoneDmaLimit) := by
        rw [ha]; exact fun h => absurd h.1 (by decide)
      by_cases h2 : base + size - zoneDmaLimit < pageSize
      · rw [if_pos h2]
        exact hcut 0 (makes_small (by rwa [ha, BitVec.sub_self, BitVec.sub_zero]))
      · rw [if_neg h2]
        have h2' : ¬ base + size - zoneDmaLimit - (pageAlign zoneDmaLimit - zoneDmaLimit) < pageSize := by
          rwa [ha, BitVec.sub_self, BitVec.sub_zero]
        by_cases h3 : base + size ≥ zoneNormalLimit
        · have h3' : pageAlign zoneDmaLimit < zoneNormalLimit ∧
              pageAlign zoneDmaLimit + (base + size - zoneDmaLimit) ≥ zoneNormalLimit := by
            rw [ha, hstop]; exact ⟨by decide, h3⟩
          have hrest := makes_above (base + size)
          have hinner := makes_cut (fun _ _ => add_normal h2' hd h3') (by rw [hstop]; exact hrest)
          have := hcut _ hinner
          by_cases h4 : base + size - zoneNormalLimit < pageSize
          · rw [if_neg (fun h => h.2 h4)]
            rwa [if_pos h4] at this
          · rw [if_pos ⟨h3, h4⟩]
            rwa [if_neg h4] at this
        · rw [if_neg (fun h => h3 h.1)]
          refine hcut 1 (makes_leaf h2' hd ?_)
          rw [ha, hstop]
          exact fun h => h3 h.2
    · rw [if_neg h1]
      by_cases h2 : pageAlign base < zoneNormalLimit ∧ pageAlign base + size ≥ zoneNormalLimit
      · rw [if_pos h2]
        have := makes_cut (fun _ _ => add_normal hs h1 h2) (makes_above (base + size))
        by_cases h4 : base + size - zoneNormalLimit < pageSize
        · rw [if_pos h4]
          rwa [if_pos h4] at this
        · rw [if_neg h4]
          rwa [if_neg h4] at this
      · rw [if_neg h2]
        exact makes_leaf hs h1 h2

theorem MemoryMap.add_writes (e : MemoryMap) (b : Boot) (index : ℕ) :
    (addToZonesList b index (e.baseAddr.setWidth 32) (e.size.setWidth 32)).2 = e.pieces ∧
      Wrote b (addToZonesList b index (e.baseAddr.setWidth 32) (e.size.setWidth 32)).1 index e.pieces :=
  add_spec_writes _ _ b index

/-! ## init_fast_zone_entry -/

/-- the chains stay in zones_list -/
def NextIn (b : Boot) : Prop := ∀ i m, (b.zones i).next = some m → m < nrZones

theorem NextIn.cutAt (h : NextIn b) (i : ℕ) (limit : Word) : NextIn (b.cutAt i limit) := by
  intro j m hm
  rw [zones_cutAt] at hm
  split_ifs at hm
  · exact h i m (Option.filter_eq_some_iff.1 hm).1
  · exact h j m hm

theorem writes_setFast (t i : ℕ) : (b.setFast t i).writes = b.writes := by
  unfold Boot.setFast
  split_ifs <;> rfl

theorem writes_cutAt (i : ℕ) (limit : Word) {k : ℕ} (h : k ∈ (b.cutAt i limit).writes) : k ∈ b.writes ∨ k = i := by
  unfold Boot.cutAt at h
  split at h
  · split_ifs at h
    · exact (List.mem_cons.1 h).symm
    · exact Or.inl h
  · exact Or.inl h

/-- one turn writes its own element at most -/
theorem classify_writes (h : NextIn b) (i : ℕ) :
    NextIn (classify b i) ∧ ∀ k ∈ (classify b i).writes, k ∈ b.writes ∨ k = i := by
  have hset : ∀ t, NextIn (b.setFast t i) := fun t j m hm => h j m (by rwa [zones_setFast] at hm)
  simp only [classify]
  split_ifs
  · exact ⟨(hset _).cutAt i _, fun k hk => (writes_cutAt i _ hk).imp_left fun h => by rwa [writes_setFast] at h⟩
  · exact ⟨(hset _).cutAt i _, fun k hk => (writes_cutAt i _ hk).imp_left fun h => by rwa [writes_setFast] at h⟩
  · exact ⟨hset _, fun k hk => Or.inl (by rwa [writes_setFast] at hk)⟩
  · exact ⟨h, fun k hk => Or.inl hk⟩

theorem classifyLoop_writes (fuel : ℕ) : ∀ (b : Boot) (o : Option ℕ), NextIn b → (∀ i, o = some i → i < nrZones) →
    ∀ k ∈ (classifyLoop fuel b o).writes, k ∈ b.writes ∨ k < nrZones := by
  induction fuel with
  | zero => intro b o _ _ k hk; exact Or.inl hk
  | succ fuel ih =>
    intro b o h ho k hk
    cases o with
    | none => exact Or.inl hk
    | some i =>
      obtain ⟨hin, hw⟩ := classify_writes h i
      rcases ih _ _ hin (fun m hm => h i m hm) k hk with h1 | h1
      · rcases hw k h1 with h2 | rfl
        · exact Or.inl h2
        · exact Or.inr (ho k rfl)
      · exact Or.inr h1

theorem initFastZoneEntry_writes (h : NextIn b) (hb : ∀ k ∈ b.writes, k < nrZones) :
    ∀ k ∈ (initFastZoneEntry b).writes, k < nrZones := by
  intro k hk
  have hzero : ∀ i, some 0 = some i → i < nrZones := by rintro i ⟨⟩; decide
  exact (classifyLoop_writes nrZones _ _ (by exact h) hzero k hk).elim (hb k) id

/-! ## The whole map -/

/-- what the loop writes for the entry `e`, the zones of the entries `pre` being there -/
def WritesOf (index : ℕ) (pre : List MemoryMap) (e : MemoryMap) (k : ℕ) : Prop :=
  index + total pre < nrZones ∧ ((index + total pre ≤ k ∧ k < index + total pre + e.pieces) ∨
    (e.pieces ≠ 0 ∧ k + 1 = index + total pre))

/-- an entry of `e :: l` is `e`, or one of `l` with the zones of `e` before it -/
theorem exists_split_cons (e : MemoryMap) (l : List MemoryMap) (P : List MemoryMap → MemoryMap → Prop) :
    (∃ pre f post, e :: l = pre ++ f :: post ∧ P pre f) ↔
      P [] e ∨ ∃ pre f post, l = pre ++ f :: post ∧ P (e :: pre) f := by
  constructor
  · rintro ⟨pre, f, post, h, hp⟩
    cases pre with
    | nil => cases h; exact Or.inl hp
    | cons c pre => cases h; exact Or.inr ⟨pre, f, post, rfl, hp⟩
  · rintro (hp | ⟨pre, f, post, rfl, hp⟩)
    · exact ⟨[], e, l, rfl, hp⟩
    · exact ⟨e :: pre, f, post, rfl, hp⟩

/-- **The writes of the loop** are those of the entries that it reaches. -/
theorem createStop_writes (es : List MemoryMap) : ∀ (b : Boot) (prev : BitVec 64) (index : ℕ), index < nrZones → ∀ k,
    k ∈ (createStop b prev index es).1.writes ↔
      k ∈ b.writes ∨ ∃ pre e post, taken prev es = pre ++ e :: post ∧ WritesOf index pre e k := by
  have hnil : ∀ (index k : ℕ), ¬ ∃ pre e post, ([] : List MemoryMap) = pre ++ e :: post ∧ WritesOf index pre e k := by
    rintro index k ⟨pre, e, post, h, -⟩
    cases pre <;> cases h
  induction es with
  | nil => intro b prev index _ k; exact ⟨Or.inl, fun h => h.elim id fun h => absurd h (hnil index k)⟩
  | cons e es ih =>
    intro b prev index hi k
    rw [createStop, taken]
    by_cases hc : e.usable ∧ e.baseAddr ≥ prev
    · rw [if_pos hc, if_pos hc]
      by_cases h4 : e.baseAddr + e.size ≥ fourGB
      · rw [if_pos h4, if_pos h4]
        exact ⟨Or.inl, fun h => h.elim id fun h => absurd h (hnil index k)⟩
      · rw [if_neg h4, if_neg h4, exists_split_cons]
        obtain ⟨hcount, hw⟩ := e.add_writes b index
        have hfirst : WritesOf index [] e k ↔ (index ≤ k ∧ k < index + e.pieces) ∨ (e.pieces ≠ 0 ∧ k + 1 = index) :=
          ⟨And.right, fun h => ⟨hi, h⟩⟩
        have hrest : ∀ pre f, WritesOf index (e :: pre) f k ↔ WritesOf (index + e.pieces) pre f k := by
          intro pre f
          rw [WritesOf, WritesOf, total_cons, ← Nat.add_assoc]
        simp only [hcount, hrest]
        rw [hfirst, ← or_assoc]
        by_cases hb : index + e.pieces ≥ nrZones
        · -- the BUG_ON: no entry behind this one is reached
          rw [if_pos hb]
          refine (hw.mem k).trans ⟨Or.inl, ?_⟩
          rintro (h | ⟨pre, f, post, -, hlt, -⟩)
          · exact h
          · omega
        · rw [if_neg hb, ih _ _ _ (Nat.not_le.1 hb), hw.mem]
    · rw [if_neg hc, if_neg hc]
      exact ih b e.baseAddr index hi k

/-- the number of zones where no BUG_ON stops the loop, and where the chains lead -/
theorem createStop_count (es : List MemoryMap) : ∀ (b : Boot) (prev : BitVec 64) (index : ℕ),
    (∀ i m, (b.zones i).next = some m → m < index) → (createStop b prev index es).2 < nrZones →
    (createStop b prev index es).2 = index + total (taken prev es) ∧
      ∀ i m, ((createStop b prev index es).1.zones i).next = some m → m < (createStop b prev index es).2 := by
  induction es with
  | nil => intro b prev index hn _; exact ⟨rfl, hn⟩
  | cons e es ih =>
    intro b prev index hn hlt
    rw [createStop] at hlt ⊢
    rw [taken]
    by_cases hc : e.usable ∧ e.baseAddr ≥ prev
    · rw [if_pos hc] at hlt ⊢
      rw [if_pos hc]
      by_cases h4 : e.baseAddr + e.size ≥ fourGB
      · rw [if_pos h4] at hlt ⊢
        rw [if_pos h4]
        exact ⟨rfl, hn⟩
      · rw [if_neg h4] at hlt ⊢
        rw [if_neg h4]
        obtain ⟨hcount, hw⟩ := e.add_writes b index
        simp only [hcount] at hlt ⊢
        split_ifs at hlt ⊢ with hb
        · exact absurd hlt (Nat.not_lt.2 hb)
        · rw [total_cons, ← Nat.add_assoc]
          refine ih _ _ _ (fun i m hm => ?_) hlt
          rcases hw.next i m hm with h | h
          · exact Nat.lt_of_lt_of_le (hn i m h) (Nat.le_add_right _ _)
          · exact h.2
    · rw [if_neg hc] at hlt ⊢
      rw [if_neg hc]
      exact ih b e.baseAddr index hn hlt

theorem total_append (l l' : List MemoryMap) : total (l ++ l') = total l + total l' := by
  rw [total, List.map_append, List.sum_append, total, total]

variable {es : List MemoryMap}

theorem mem_createStop {k : ℕ} : k ∈ (createStop .zero 0#64 0 es).1.writes ↔
    ∃ pre e post, taken 0#64 es = pre ++ e :: post ∧ WritesOf 0 pre e k := by
  rw [createStop_writes es .zero 0#64 0 (by decide)]
  exact or_iff_right List.not_mem_nil

theorem total_split {pre post : List MemoryMap} {e : MemoryMap} (h : taken 0#64 es = pre ++ e :: post) :
    total pre + e.pieces ≤ total (taken 0#64 es) := by
  rw [h, total_append, total_cons]
  omega

/-- where no BUG_ON stops it, every write is inside -/
theorem writes_of_count (h : (createStop .zero 0#64 0 es).2 < nrZones) : ∀ k ∈ memZonesWrites es, k < nrZones := by
  obtain ⟨hcount, hnext⟩ := createStop_count es .zero 0#64 0 (by rintro i m ⟨⟩) h
  have hw : ∀ k ∈ (createStop .zero 0#64 0 es).1.writes, k < nrZones := by
    intro k hk
    obtain ⟨pre, e, post, hsplit, hlt, hk⟩ := mem_createStop.1 hk
    have := total_split hsplit
    omega
  rw [memZonesWrites]
  simp only [if_neg (Nat.not_le.2 h)]
  exact initFastZoneEntry_writes (fun i m hm => (hnext i m hm).trans h) hw

/-- **A map that mem_zones_create takes** is written inside: only on the way to the BUG_ON are there writes behind the end. -/
theorem memZonesCreate_inside {b : Boot} {n : ℕ} (h : memZonesCreate es = some (b, n)) : ∀ k ∈ b.writes, k < nrZones := by
  have hcount : (createStop .zero 0#64 0 es).2 < nrZones := by
    by_contra hstop
    rw [memZonesCreate, createLoop_eq_stop es _ _ 0 (by decide), if_pos (Nat.not_lt.1 hstop)] at h
    cases h
  exact memZonesWrites_of_some h ▸ writes_of_count hcount

/-- whatever the map, two elements behind the end are the most that is written -/
theorem memZonesWrites_le (es : List MemoryMap) : ∀ k ∈ memZonesWrites es, k < nrZones + 2 := by
  intro k hk
  by_cases h : (createStop .zero 0#64 0 es).2 < nrZones
  · exact Nat.lt_add_right 2 (writes_of_count h k hk)
  · rw [memZonesWrites] at hk
    simp only [if_pos (Nat.not_lt.1 h)] at hk
    obtain ⟨pre, e, post, -, hlt, hk⟩ := mem_createStop.1 hk
    have hp : e.pieces ≤ 3 := pieces_le _ _
    omega

/-- **The writes of mem_zones_create.** They are inside zones_list if and only if the map fits. -/
theorem writes_inside_iff (es : List MemoryMap) : (∀ k ∈ memZonesWrites es, k < nrZones) ↔ Fits es := by
  by_cases h : (createStop .zero 0#64 0 es).2 < nrZones
  · refine iff_of_true (writes_of_count h) fun pre e post hsplit _ => ?_
    obtain ⟨hcount, -⟩ := createStop_count es .zero 0#64 0 (by rintro i m ⟨⟩) h
    have := total_split hsplit
    omega
  · have hwrites : memZonesWrites es = (createStop .zero 0#64 0 es).1.writes := if_pos (Nat.not_lt.1 h)
    rw [hwrites]
    constructor
    · intro hall pre e post hsplit hlt
      by_cases hp : e.pieces = 0
      · omega
      · have hlast : total pre + e.pieces - 1 < nrZones := hall _ (mem_createStop.2
          ⟨pre, e, post, hsplit, by omega, Or.inl ⟨by omega, by omega⟩⟩)
        omega
    · intro hfits k hk
      obtain ⟨pre, e, post, hsplit, hlt, hk⟩ := mem_createStop.1 hk
      rw [Nat.zero_add] at hlt hk
      have := hfits pre e post hsplit hlt
      omega

/-- nine entries of a page, and a tenth one of two pages around the DMA limit -/
def tenthMap : List MemoryMap :=
  (List.range 9).map (fun i => ⟨BitVec.ofNat 64 (0x10000 * (i + 1)), 0x1000#64, 0x1#32⟩) ++
    [⟨0xFFF000#64, 0x2000#64, 0x1#32⟩]

theorem tenth_entry_outside : tenthMap.length ≤ SinsOs.Boot.nrMmapEntrys ∧ memZonesCreate tenthMap = none ∧
    ¬ ∀ k ∈ memZonesWrites tenthMap, k < nrZones := by
  decide +kernel

end SinsOs.ZonesCreate
