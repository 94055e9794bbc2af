/-
What build_zone_buddy_system, alloc_pages and dealloc_pages do to the tiling of a zone (kernel/mm/page_alloc.c).

- `build_spec`: on descriptors whose flags are zero, the build loop ends with nothing left over and all blocks free. The
  loop may hand out a block of order k because its index is a multiple of every order still to come (`Ragged`).
- `alloc_spec`: alloc_pages takes one block of the requested order out of a zone of the type, or every list it would take
  one from is empty; no other block in use changes.
- `dealloc_spec`: dealloc_pages on the head of a block in use, with its order, frees that block and nothing else.
-/
import SinsOs.Mm.BuddySystem

namespace SinsOs.PageAlloc

open SinsOs.Bits SinsOs.Mm SinsOs.Dyadic

variable {L : Layout} {m m' : St} {z n h k : ℕ} {t : Tiling maxOrder n}

/-! ## build_zone_buddy_system -/

/-- the next free index and the pages that are left: the index is aligned to every order that can still be asked for -/
def Ragged (idx rem : ℕ) : Prop := 2 ^ maxOrder ∣ idx ∨ ∃ a < maxOrder, 2 ^ a ∣ idx ∧ rem < 2 ^ a

/-- the order _build_zone_buddy_system chooses -/
def buildOrder (size : ℕ) : ℕ := if size > 4096 <<< maxOrder then maxOrder else (getOrderFloor size).toNat

theorem buildOrder_eq (rem : ℕ) (hr : 0 < rem) :
    buildOrder (rem * 4096) ≤ maxOrder ∧ 2 ^ buildOrder (rem * 4096) ≤ rem ∧
      (buildOrder (rem * 4096) < maxOrder → rem < 2 ^ (buildOrder (rem * 4096) + 1)) := by
  unfold buildOrder
  split_ifs with hbig
  · refine ⟨le_rfl, ?_, fun h => absurd h (lt_irrefl _)⟩
    simp only [maxOrder, Nat.shiftLeft_eq] at *
    omega
  · rw [getOrderFloor_eq, Nat.mul_div_cancel _ (by norm_num), Int.toNat_natCast]
    have hself := Nat.log2_self_le (n := rem) (by omega)
    refine ⟨?_, hself, fun _ => Nat.lt_log2_self⟩
    have hle : rem ≤ 2 ^ maxOrder := by simp only [maxOrder, Nat.shiftLeft_eq] at *; omega
    exact (Nat.pow_le_pow_iff_right (by norm_num)).1 (hself.trans hle)

theorem Ragged.dvd {idx rem j : ℕ} (h : Ragged idx rem) (hj : j ≤ maxOrder) (hle : 2 ^ j ≤ rem) : 2 ^ j ∣ idx := by
  rcases h with h | ⟨a, -, h, hlt⟩
  · exact (pow_dvd_pow 2 hj).trans h
  · refine (pow_dvd_pow 2 ?_).trans h
    exact ((Nat.pow_lt_pow_iff_right (by norm_num)).1 (hle.trans_lt hlt)).le

theorem Ragged.next {idx rem j : ℕ} (h : Ragged idx rem) (hj : j ≤ maxOrder) (hle : 2 ^ j ≤ rem)
    (hlt : j < maxOrder → rem < 2 ^ (j + 1)) : Ragged (idx + 2 ^ j) (rem - 2 ^ j) := by
  have hd := h.dvd hj hle
  rcases Nat.lt_or_eq_of_le hj with hjm | rfl
  · have := hlt hjm
    have := pow_succ 2 j
    exact Or.inr ⟨j, hjm, Dvd.dvd.add hd dvd_rfl, by omega⟩
  · exact Or.inl (Dvd.dvd.add hd dvd_rfl)

/-- one turn of the build loop -/
theorem Rep.snoc (hr : Rep L m z t none) (hn : n + 2 ^ k ≤ L.pages z) (hk : k ≤ maxOrder) (hd : 2 ^ k ∣ n)
    (hu : m.mmapTestUsed (L.base z + n) = false) (hnew : ∀ o j, t.ord o = some j → j < maxOrder → j ≠ k) :
    Rep L (initAddToFreeArea m z (L.base z + n) k) z (t.snoc k hk hd) none := by
  have hpos := Nat.two_pow_pos k
  have hlt : ∀ {o j}, t.ord o = some j → o ≠ n := fun ho => (t.lt_of_ord ho).ne
  have hused : ∀ q, (initAddToFreeArea m z (L.base z + n) k).mmapTestUsed q = m.mmapTestUsed q := fun q => by
    rw [initAddToFreeArea, St.used_of_flags (St.flags_listAdd _ _ _ _), St.used_setPrivate]
  refine ⟨fun o ho => ?_, fun o ho hu' => ?_, fun k' p => ?_, fun k' => ?_, fun k' => ?_, ?_, by simp⟩
  · rw [initAddToFreeArea, St.private_of_flags (St.flags_listAdd _ _ _ _), St.private_setPrivate, hr.heads o ho,
      Tiling.snoc_ord]
    by_cases heq : o = n <;> simp [heq]
  · rw [hused] at hu'
    rw [Tiling.snoc_ord]
    split_ifs
    · rfl
    · exact hr.used o ho hu'
  · have hiff := hr.listed k' p
    simp only [Listed, hused, Tiling.snoc_ord] at hiff ⊢
    rw [initAddToFreeArea, St.freeArea_listAdd, St.freeArea_setPrivate]
    by_cases hkk : k' = k
    · subst hkk
      simp only [true_and, if_true, List.mem_cons, hiff]
      constructor
      · rintro (rfl | ⟨o, rfl, ho, hlo⟩)
        · exact ⟨n, rfl, by simp, hu, by simp⟩
        · exact ⟨o, rfl, by rw [if_neg (hlt ho)]; exact ho, hlo⟩
      · rintro ⟨o, rfl, ho, hlo⟩
        by_cases heq : o = n
        · exact Or.inl (by rw [heq])
        · rw [if_neg heq] at ho
          exact Or.inr ⟨o, rfl, ho, hlo⟩
    · rw [if_neg (by tauto), hiff]
      constructor
      · rintro ⟨o, rfl, ho, hlo⟩
        exact ⟨o, rfl, by rw [if_neg (hlt ho)]; exact ho, hlo⟩
      · rintro ⟨o, rfl, ho, hlo⟩
        split_ifs at ho
        · cases ho; exact absurd rfl hkk
        · exact ⟨o, rfl, ho, hlo⟩
  · rw [initAddToFreeArea, St.freeArea_listAdd]
    split_ifs
    · refine List.nodup_cons.2 ⟨fun hmem => ?_, hr.nodup k⟩
      obtain ⟨o, heq, ho, -⟩ := (hr.listed k _).1 hmem
      exact hlt ho (Nat.add_left_cancel heq).symm
    · exact hr.nodup k'
  · rw [initAddToFreeArea, St.freeArea_listAdd]
    split_ifs
    · simp [hr.size k]
    · exact hr.size k'
  · -- the new block has no block of its order beside it
    intro o j hj ho hl1 hb hl2
    simp only [Listed, hused] at hl1 hl2
    rw [Tiling.snoc_ord] at ho hb
    split_ifs at ho with h1
    · cases ho
      split_ifs at hb with h2
      · exact absurd (h2.trans h1.symm) (buddy_ne (h1 ▸ hd))
      · exact hnew _ _ hb hj rfl
    · split_ifs at hb with h2
      · cases hb; exact hnew o _ ho hj rfl
      · exact hr.coal o j hj ho hl1 hb hl2

theorem Rep.buildLoop (rem : ℕ) : ∀ (idx : ℕ) (m : St) (t : Tiling maxOrder idx), idx + rem = L.pages z →
    Rep L m z t none → (∀ o < L.pages z, m.mmapTestUsed (L.base z + o) = false) → Ragged idx rem →
    (∀ o k, t.ord o = some k → k < maxOrder → rem < 2 ^ k) →
    ∃ m' t', buildLoop L m z idx (rem * 4096) = (m', 0) ∧ Rep L m' z (t' : Tiling maxOrder (L.pages z)) none ∧
      Frame L z m m' ∧ ∀ q, m'.mmapTestUsed q = m.mmapTestUsed q := by
  induction rem using Nat.strong_induction_on with
  | _ rem ih =>
    intro idx m t hidx hr hu hrag hsmall
    rcases Nat.eq_zero_or_pos rem with rfl | hpos
    · obtain rfl : idx = L.pages z := by omega
      refine ⟨m, t, ?_, hr, .refl, fun _ => rfl⟩
      rw [PageAlloc.buildLoop, if_neg (by omega), Nat.zero_mul]
    · obtain ⟨hmax, hle, hlt⟩ := buildOrder_eq rem hpos
      set j := buildOrder (rem * 4096) with hj
      have h2 := Nat.two_pow_pos j
      have hr' := hr.snoc (by omega) hmax (hrag.dvd hmax hle) (hu idx (by omega))
        (fun o i ho hi heq => absurd (hsmall o i ho hi) (by rw [heq]; omega))
      have hused : ∀ q, (initAddToFreeArea m z (L.base z + idx) j).mmapTestUsed q = m.mmapTestUsed q := fun q => by
        rw [initAddToFreeArea, St.used_of_flags (St.flags_listAdd _ _ _ _), St.used_setPrivate]
      obtain ⟨m', t', he, hr2, hf2, hu2⟩ := ih (rem - 2 ^ j) (by omega) (idx + 2 ^ j) _ _ (by omega) hr'
        (fun o ho => (hused _).trans (hu o ho)) (hrag.next hmax hle hlt) (by
          intro o i ho hi
          rw [Tiling.snoc_ord] at ho
          split_ifs at ho
          · cases ho
            have := hlt hi
            have := pow_succ 2 j
            omega
          · have := hsmall o i ho hi
            omega)
      refine ⟨m', t', ?_, hr2, ?_, fun q => (hu2 q).trans (hused q)⟩
      · have hsub : rem * 4096 - 4096 <<< j = (rem - 2 ^ j) * 4096 := by
          rw [Nat.shiftLeft_eq, Nat.sub_mul, Nat.mul_comm 4096]
        rw [PageAlloc.buildLoop, if_pos (by omega)]
        simp only [← buildOrder.eq_1, ← hj, hsub]
        exact he
      · exact ((Frame.setFlags (by omega) _).trans (Frame.listAdd _ _)).trans hf2

/-- the descriptors of the zone are as memset left them, and free_area has no elements beyond MAX_ORDER -/
structure Blank (L : Layout) (m : St) (z : ℕ) : Prop where
  flags : ∀ o < L.pages z, m.flags (L.base z + o) = 0#32
  bound : ∀ k, maxOrder < k → m.freeArea z k = ⟨[], 0⟩

/-- the zone is tiled and all of its blocks are free -/
def Built (L : Layout) (m : St) (z : ℕ) : Prop :=
  ∃ t : Tiling maxOrder (L.pages z), Rep L m z t none ∧ ∀ o < L.pages z, m.mmapTestUsed (L.base z + o) = false

theorem init_areas (m : St) (z : ℕ) (ks : List ℕ) :
    (ks.foldl (fun m k => initFreeArea m z k) m).flags = m.flags ∧
      ∀ z' k', (ks.foldl (fun m k => initFreeArea m z k) m).freeArea z' k' =
        if z' = z ∧ k' ∈ ks then ⟨[], 0⟩ else m.freeArea z' k' := by
  induction ks generalizing m with
  | nil => simp
  | cons k ks ih =>
    obtain ⟨h1, h2⟩ := ih (initFreeArea m z k)
    refine ⟨h1, fun z' k' => ?_⟩
    rw [List.foldl_cons, h2, initFreeArea, St.freeArea_setArea]
    by_cases hz : z' = z <;> by_cases hk : k' ∈ ks <;> by_cases hk0 : k' = k <;> simp [hz, hk, hk0]

/-- **build_zone_buddy_system leaves nothing over.** -/
theorem build_spec (hz : z ∈ L.all) (hb : Blank L m z) :
    ∃ m', buildZoneBuddySystem L m z = some m' ∧ Built L m' z ∧ Frame L z m m' := by
  obtain ⟨ty, hty⟩ := L.mem_all.1 hz
  obtain ⟨hfl, hfa⟩ := init_areas m z (List.range (maxOrder + 1))
  unfold buildZoneBuddySystem
  simp only
  set m0 := (List.range (maxOrder + 1)).foldl (fun m k => initFreeArea m z k) m
  have harea : ∀ k, m0.freeArea z k = ⟨[], 0⟩ := by
    intro k
    rw [hfa]
    split_ifs with hc
    · rfl
    · exact hb.bound k (by simpa using hc)
  have hzero : ∀ o < L.pages z, m0.mmapTestPrivate (L.base z + o) = false ∧ m0.mmapTestUsed (L.base z + o) = false := by
    intro o ho
    rw [St.private_of_flags hfl, St.used_of_flags hfl, St.mmapTestPrivate, St.mmapTestUsed, hb.flags o ho]
    exact ⟨testBit_zero _, testBit_zero _⟩
  have hr : Rep L m0 z (Tiling.empty maxOrder) none := by
    refine ⟨fun o ho => ?_, fun o ho hu => ?_, fun k p => ?_, fun k => ?_, fun k => ?_, ?_, by simp⟩
    · rw [(hzero o ho).1]; rfl
    · rw [(hzero o ho).2] at hu; cases hu
    · rw [harea]; simp [Tiling.empty]
    · rw [harea]; exact List.nodup_nil
    · rw [harea]; rfl
    · intro o k _ ho; cases ho
  have hf0 : Frame L z m m0 := by
    refine ⟨fun q _ => congrFun hfl q, fun z' hne => ?_⟩
    funext k
    rw [hfa, if_neg (by tauto)]
  have hsize : ((L.zone z).mmapEnd - (L.zone z).mmapBase) * 4096 % 2 ^ 32 = L.pages z * 4096 := by
    have := L.pages_lt hty
    rw [Nat.mod_eq_of_lt]
    · rfl
    · simp only [Layout.pages, MemZone.pages] at this; omega
  obtain ⟨m', t', he, hr', hf, hu⟩ := Rep.buildLoop (L.pages z) 0 m0 (Tiling.empty maxOrder) (by omega) hr
    (fun o ho => (hzero o ho).2) (Or.inl (dvd_zero _)) (by intro o k ho; cases ho)
  refine ⟨m', ?_, ⟨t', hr', fun o ho => (hu _).trans (hzero o ho).2⟩, hf0.trans hf⟩
  rw [hsize, he]
  simp

theorem Blank.frame {z' : ℕ} (hb : Blank L m z) (hf : Frame L z' m m') (hz : z ∈ L.all) (hz' : z' ∈ L.all)
    (hne : z ≠ z') : Blank L m' z where
  flags := by
    intro o ho
    rw [hf.flags, hb.flags o ho]
    exact fun hin => hne (L.zone_unique hz hz' ⟨by omega, by omega⟩ hin)
  bound := by intro k hk; rw [hf.area z hne]; exact hb.bound k hk

theorem Built.frame {z' : ℕ} (hb : Built L m z) (hf : Frame L z' m m') (hz : z ∈ L.all) (hz' : z' ∈ L.all)
    (hne : z ≠ z') : Built L m' z := by
  obtain ⟨t, hr, hu⟩ := hb
  obtain ⟨hr', hu'⟩ := hr.frame hf hz hz' hne
  exact ⟨t, hr', fun o ho => (hu' o ho).trans (hu o ho)⟩

theorem buildZones_spec (zs : List ℕ) (hnd : zs.Nodup) (hsub : ∀ z ∈ zs, z ∈ L.all) (m : St)
    (hb : ∀ z ∈ zs, Blank L m z) :
    ∃ m', buildZones L m zs = some m' ∧ (∀ z ∈ zs, Built L m' z) ∧
      ∀ z ∈ L.all, z ∉ zs → Built L m z → Built L m' z := by
  induction zs generalizing m with
  | nil => exact ⟨m, rfl, by simp, fun _ _ _ h => h⟩
  | cons z zs ih =>
    rw [List.nodup_cons] at hnd
    have hz := hsub z List.mem_cons_self
    have hsub' : ∀ z' ∈ zs, z' ∈ L.all := fun z' hz' => hsub z' (List.mem_cons_of_mem _ hz')
    have hne : ∀ z' ∈ zs, z' ≠ z := by rintro z' hz' rfl; exact hnd.1 hz'
    obtain ⟨m1, he1, hb1, hf1⟩ := build_spec hz (hb z List.mem_cons_self)
    obtain ⟨m2, he2, hb2, hk2⟩ := ih hnd.2 hsub' m1
      (fun z' hz' => (hb z' (List.mem_cons_of_mem _ hz')).frame hf1 (hsub' z' hz') hz (hne z' hz'))
    refine ⟨m2, by rw [buildZones, he1]; exact he2, ?_, ?_⟩
    · intro z' hz'
      rcases List.mem_cons.1 hz' with rfl | hin
      · exact hk2 z' hz hnd.1 hb1
      · exact hb2 z' hin
    · intro z' hz' hnin hbz
      rw [List.mem_cons, not_or] at hnin
      exact hk2 z' hz' hnin.2 (hbz.frame hf1 hz' hz hnin.1)

/-! ## alloc_pages -/

/-- alloc_pages took the block of order k at page h out of zone z -/
structure Took (L : Layout) (m m' : St) (z h k : ℕ) (t t' : Tiling maxOrder (L.pages z)) : Prop where
  head : t'.ord h = some k
  rep : Rep L m' z t' none
  frame : Frame L z m m'
  fresh : m.mmapTestUsed (L.base z + h) = false
  used : ∀ q, m'.mmapTestUsed q = (decide (q = L.base z + h) || m.mmapTestUsed q)
  keep : ∀ o, m.mmapTestUsed (L.base z + o) = true → t'.ord o = t.ord o

theorem Rep.searchZone {t : Tiling maxOrder (L.pages z)} (hr : Rep L m z t none) (order : ℕ) (ks : List ℕ)
    (hle : ∀ k ∈ ks, order ≤ k) :
    (searchZone m z order ks = some none ∧ ∀ k ∈ ks, (m.freeArea z k).list = []) ∨
      ∃ h m' t', searchZone m z order ks = some (some (L.base z + h, m')) ∧ Took L m m' z h order t t' := by
  induction ks with
  | nil => exact Or.inl ⟨rfl, by simp⟩
  | cons so ks ih =>
    rw [PageAlloc.searchZone]
    cases hp : popFromFreeArea m z so with
    | none =>
      rcases ih (fun k hk => hle k (List.mem_cons_of_mem _ hk)) with ⟨he, hemp⟩ | h
      · refine Or.inl ⟨he, fun k hk => ?_⟩
        rcases List.mem_cons.1 hk with rfl | hin
        · exact pop_none hp
        · exact hemp k hin
      · exact Or.inr h
    | some r =>
      obtain ⟨p, m1⟩ := r
      obtain ⟨h, rfl, hh, hr1, hf1, hfl⟩ := hr.pop hp
      obtain ⟨m2, t2, he2, hh2, hr2, hf2, hu2, hk2⟩ := Rep.reduceLoop le_rfl order so (hle so List.mem_cons_self) m1 t hr1 hh
      have hu1 : ∀ q, m1.mmapTestUsed q = m.mmapTestUsed q := St.used_of_flags hfl
      have hcold : m.mmapTestUsed (L.base z + h) = false := (hu1 _).symm.trans (hr1.cold h rfl)
      refine Or.inr ⟨h, m2.mmapSetUsed (L.base z + h), t2, by simp [he2], hh2, hr2.setUsed hh2,
        (hf1.trans hf2).trans (Frame.setFlags (t2.lt_of_ord hh2) _), hcold, fun q => ?_, fun o ho => ?_⟩
      · rw [St.used_setUsed, hu2, hu1]
      · exact hk2 o (by rintro rfl; rw [hcold] at ho; cases ho) ((hu1 _).trans ho)

theorem searchZones_spec (order : ℕ) (zs : List ℕ) (hsub : ∀ z ∈ zs, z ∈ L.all)
    (hreps : ∀ z ∈ L.all, ∃ t : Tiling maxOrder (L.pages z), Rep L m z t none) :
    (searchZones m order zs = some (none, m) ∧
        ∀ z ∈ zs, ∀ k, order ≤ k → k ≤ maxOrder → (m.freeArea z k).list = []) ∨
      ∃ z ∈ zs, ∃ h m', searchZones m order zs = some (some (L.base z + h), m') ∧
        ∀ t, Rep L m z t none → ∃ t', Took L m m' z h order t t' := by
  induction zs with
  | nil => exact Or.inl ⟨rfl, by simp⟩
  | cons z zs ih =>
    have hks : ∀ k ∈ List.range' order (maxOrder + 1 - order), order ≤ k := fun k hk => (List.mem_range'_1.1 hk).1
    obtain ⟨t, hr⟩ := hreps z (hsub z List.mem_cons_self)
    rw [PageAlloc.searchZones]
    rcases hr.searchZone order _ hks with ⟨he, hemp⟩ | ⟨h, m', t', he, -⟩
    · rw [he]
      rcases ih (fun z' hz' => hsub z' (List.mem_cons_of_mem _ hz')) with ⟨he', hemp'⟩ | ⟨z', hz', hrest⟩
      · refine Or.inl ⟨he', fun z' hz' k h1 h2 => ?_⟩
        rcases List.mem_cons.1 hz' with rfl | hin
        · exact hemp k (List.mem_range'_1.2 ⟨h1, by omega⟩)
        · exact hemp' z' hin k h1 h2
      · exact Or.inr ⟨z', List.mem_cons_of_mem _ hz', hrest⟩
    · refine Or.inr ⟨z, List.mem_cons_self, h, m', by rw [he], fun t2 hr2 => ?_⟩
      rcases hr2.searchZone order _ hks with ⟨he2, -⟩ | ⟨h2, m2, t2', he2, htook⟩
      · rw [he] at he2; cases he2
      · rw [he] at he2
        simp only [Option.some.injEq, Prod.mk.injEq, Nat.add_left_cancel_iff] at he2
        obtain ⟨rfl, rfl⟩ := he2
        exact ⟨t2', htook⟩

/-- **alloc_pages takes one block, or every list it looks at is empty.** -/
theorem alloc_spec {ty : ℕ} (order : ℕ) (hty : ty < nrZoneTypes)
    (hreps : ∀ z ∈ L.all, ∃ t : Tiling maxOrder (L.pages z), Rep L m z t none) :
    (allocPages L m ty order = some (none, m) ∧
        ∀ z ∈ L.chain ty, ∀ k, order ≤ k → (m.freeArea z k).list = []) ∨
      ∃ z ∈ L.chain ty, ∃ h m', allocPages L m ty order = some (some (L.base z + h), m') ∧
        ∀ t, Rep L m z t none → ∃ t', Took L m m' z h order t t' := by
  have hsub : ∀ z ∈ L.chain ty, z ∈ L.all := fun z hz => L.mem_all.2 ⟨ty, hz⟩
  -- no block is larger than 2^MAX_ORDER pages
  have hbig : ∀ z ∈ L.chain ty, ∀ k, maxOrder < k → (m.freeArea z k).list = [] := by
    intro z hz k hk
    obtain ⟨t, hr⟩ := hreps z (hsub z hz)
    refine List.eq_nil_iff_forall_not_mem.2 fun p hp => ?_
    obtain ⟨o, -, ho, -⟩ := (hr.listed k p).1 hp
    have := t.le_max o k ho
    omega
  rw [allocPages, if_neg (by omega)]
  split_ifs with ho
  · exact Or.inl ⟨rfl, fun z hz k hk => hbig z hz k (by omega)⟩
  · rcases searchZones_spec order _ hsub hreps with ⟨he, hemp⟩ | h
    · refine Or.inl ⟨he, fun z hz k hk => ?_⟩
      rcases Nat.lt_or_ge maxOrder k with hlt | hge
      · exact hbig z hz k hlt
      · exact hemp z hz k hk hge
    · exact Or.inr h

/-! ## dealloc_pages -/

/-- dealloc_pages gave the block at page h of zone z back -/
structure Gave (L : Layout) (m m' : St) (z h : ℕ) (t t' : Tiling maxOrder (L.pages z)) : Prop where
  rep : Rep L m' z t' none
  frame : Frame L z m m'
  used : ∀ q, m'.mmapTestUsed q = (!decide (q = L.base z + h) && m.mmapTestUsed q)
  keep : ∀ o, o ≠ h → m.mmapTestUsed (L.base z + o) = true → t'.ord o = t.ord o

/-- **dealloc_pages frees the block it is given.** -/
theorem dealloc_spec (hz : z ∈ L.all) {t : Tiling maxOrder (L.pages z)} (hr : Rep L m z t none)
    (hh : t.ord h = some k) (hu : m.mmapTestUsed (L.base z + h) = true) :
    ∃ m' t', deallocPages L m (L.base z + h) k = some m' ∧ Gave L m m' z h t t' := by
  have hlt := t.lt_of_ord hh
  have hk := t.le_max h k hh
  obtain ⟨m1, l, j, t1, he, hl, hr1, hf1, hu1, hk1, hs1⟩ := Rep.mergeLoop hz k hk _ t h (hr.clearUsed hu) hh
  have hused : ∀ q, m1.mmapTestUsed q = (!decide (q = L.base z + h) && m.mmapTestUsed q) := fun q => by
    rw [hu1, St.used_clearUsed]
  obtain ⟨ha, hr2⟩ := hr1.add le_rfl hl hs1
  refine ⟨m1.listAdd z (L.base z + l) j, t1, ?_, hr2,
    ((Frame.setFlags hlt _).trans hf1).trans (Frame.listAdd _ _), fun q => hused q, fun o ho huo => ?_⟩
  · rw [deallocPages, hu, L.pageToZone_eq hz hlt]
    simp only [Bool.not_true, Bool.false_eq_true, if_false, if_neg (Nat.not_lt.2 hk), he]
    exact ha
  · refine hk1 o ?_
    rw [St.used_clearUsed, huo]
    simp [ho]

end SinsOs.PageAlloc
