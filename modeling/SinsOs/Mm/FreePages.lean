/-
get_free_pages and free_pages (kernel/mm/page_alloc.c) in the states that the page allocator reaches, and the set of free
pages.

- `free_iff`: the pages of the free lists are those that nobody holds.
- `exhausted_iff`: with GFP_NORMAL and GFP_DMA, NULL means that no zone of the two types has a block exactly when a normal
  zone has one or no DMA zone has: the code looks at DMA memory only without GFP_NORMAL.
-/
import SinsOs.Mm.Kmalloc

namespace SinsOs.Kmalloc

open SinsOs.Core SinsOs.Bits SinsOs.Mm SinsOs.PageAlloc SinsOs.BuddyRun SinsOs.Dyadic

variable {L : Layout} {s s' : Sys} {m : St} {z o p order : ℕ}

/-! ## Free pages -/

/-- the page lies in a block on a free list -/
def FreePage (L : Layout) (m : St) (p : ℕ) : Prop :=
  ∃ z ∈ L.all, ∃ k, ∃ h ∈ (m.freeArea z k).list, h ≤ p ∧ p < h + 2 ^ k

/-- the page is one of a zone -/
def Mapped (L : Layout) (p : ℕ) : Prop := ∃ z ∈ L.all, ∃ o < L.pages z, p = L.base z + o

/-- the page lies in the block -/
def Covers (b : ℕ × ℕ) (p : ℕ) : Prop := b.1 ≤ p ∧ p < b.1 + 2 ^ b.2

/-- **The free pages are the pages that nobody holds.** -/
theorem free_iff (hi : Inv L s) (p : ℕ) : FreePage L s.mm p ↔ Mapped L p ∧ ∀ b ∈ s.live, ¬ Covers b p := by
  constructor
  · intro ⟨z, hz, k, h, hh, hle, hlt⟩
    obtain ⟨t, hr, hheld⟩ := hi.zones z hz
    obtain ⟨o, rfl, ho, hfree⟩ := (hr.listed k h).1 hh
    have hin := t.inside o k ho
    refine ⟨⟨z, hz, p - L.base z, by omega, by omega⟩, fun b hb ⟨hble, hblt⟩ => ?_⟩
    obtain ⟨z', hz', o', he, t', hr', hheld', ho', hu'⟩ := hi.block hb
    have hin' := t'.inside o' b.2 ho'
    obtain rfl : z = z' := L.zone_unique hz hz' (p := p) ⟨by omega, by omega⟩ ⟨by omega, by omega⟩
    -- the two blocks are blocks of one tiling
    have hto : t.ord o' = some b.2 := ((hheld o' (t'.lt_of_ord ho') b.2).1 (he ▸ hb)).1
    obtain rfl := t.ord_unique (x := p - L.base z) ho hto (by omega) (by omega) (by omega) (by omega)
    exact absurd (hfree.1.symm.trans hu') (by simp)
  · intro ⟨⟨z, hz, o, ho, hp⟩, hlive⟩
    obtain ⟨t, hr, hheld⟩ := hi.zones z hz
    obtain ⟨h, k, hk, hle, hlt⟩ := t.cover o ho
    refine ⟨z, hz, k, L.base z + h, (hr.listed k _).2 ⟨h, rfl, hk, ?_, by simp⟩, by omega, by omega⟩
    by_contra hu
    have hb := (hheld h (t.lt_of_ord hk) k).2 ⟨hk, by simpa using hu⟩
    exact hlive _ hb ⟨by simp only; omega, by simp only; omega⟩

/-- who holds the same blocks leaves the same pages free -/
theorem free_congr (hi : Inv L s) (hi' : Inv L s') (h : ∀ b, b ∈ s.live ↔ b ∈ s'.live) (p : ℕ) :
    FreePage L s.mm p ↔ FreePage L s'.mm p := by
  simp only [free_iff hi, free_iff hi', h]

/-- **One page is taken.** It was free, and the other free pages stay. -/
theorem took_free (hi : Inv L s) (hi' : Inv L s') (hl : s'.live = (p, 0) :: s.live) :
    FreePage L s.mm p ∧ ∀ q, FreePage L s'.mm q ↔ FreePage L s.mm q ∧ q ≠ p := by
  have hnew : (p, 0) ∉ s.live := (List.nodup_cons.1 (hl ▸ hi'.nodup)).1
  have hself : (p, 0) ∈ s'.live := hl ▸ List.mem_cons_self
  have hcover : ∀ q, Covers (p, 0) q ↔ q = p := fun q => by
    show p ≤ q ∧ q < p + 2 ^ 0 ↔ q = p
    omega
  have hp : FreePage L s.mm p := by
    refine (free_iff hi p).2 ⟨hi'.inZone p 0 hself, fun b hb ⟨hle, hlt⟩ => ?_⟩
    have hne : (p, 0) ≠ b := fun he => hnew (he ▸ hb)
    have happ := live_apart hi' hself (hl ▸ List.mem_cons_of_mem _ hb : b ∈ s'.live) hne
    omega
  refine ⟨hp, fun q => ?_⟩
  rw [free_iff hi', free_iff hi, hl, List.forall_mem_cons, hcover]
  exact ⟨fun ⟨hm, hq, hrest⟩ => ⟨⟨hm, hrest⟩, hq⟩, fun ⟨⟨hm, hrest⟩, hq⟩ => ⟨hm, hq, hrest⟩⟩

/-- a page that somebody holds is given back -/
theorem dealloc_held (hi : Inv L s) (hl : (p, order) ∈ s.live) :
    ∃ s', step L s (.dealloc p order) = some s' ∧ Inv L s' ∧ s'.live = s.live.erase (p, order) := by
  obtain ⟨m', hm⟩ := Option.isSome_iff_exists.1 (dealloc_returns hi hl)
  have hstep : step L s (.dealloc p order) = some ⟨m', s.live.erase (p, order)⟩ := by
    rw [step, hm, Option.map_some]
  exact ⟨_, hstep, dealloc_inv hi hl hstep, rfl⟩

/-! ## alloc_pages -/

/-- a zone of the type has a free block of at least that order -/
def HasBlock (L : Layout) (m : St) (zoneType order : ℕ) : Prop :=
  ∃ z ∈ L.chain zoneType, ∃ k, order ≤ k ∧ (m.freeArea z k).list ≠ []

theorem searchZone_empty (ks : List ℕ) (h : ∀ k ∈ ks, (m.freeArea z k).list = []) :
    searchZone m z order ks = some none := by
  induction ks with
  | nil => rfl
  | cons k ks ih =>
    rw [searchZone, popFromFreeArea, h k List.mem_cons_self]
    exact ih fun k' hk' => h k' (List.mem_cons_of_mem _ hk')

theorem searchZones_empty (zs : List ℕ) (h : ∀ z ∈ zs, ∀ k, order ≤ k → (m.freeArea z k).list = []) :
    searchZones m order zs = some (none, m) := by
  induction zs with
  | nil => rfl
  | cons z zs ih =>
    rw [searchZones, searchZone_empty _ fun k hk => h z List.mem_cons_self k (List.mem_range'_1.1 hk).1]
    exact ih fun z' hz' => h z' (List.mem_cons_of_mem _ hz')

/-- **alloc_pages in a reachable state.** It returns a page of the type exactly if a zone of the type has a block. -/
theorem alloc_returns (hi : Inv L s) {ty : ℕ} (hty : ty < nrZoneTypes) (order : ℕ) :
    ∃ r, allocPages L s.mm ty order = some r ∧ Inv L (s.took order r) ∧
      ((r.1 = none ∧ s.took order r = s ∧ ¬ HasBlock L s.mm ty order) ∨
        ∃ z ∈ L.chain ty, ∃ o < L.pages z, r.1 = some (L.base z + o) ∧ HasBlock L s.mm ty order) := by
  have hreps : ∀ z ∈ L.all, ∃ t : Tiling maxOrder (L.pages z), Rep L s.mm z t none := fun z hz =>
    (hi.zones z hz).imp fun _ h => h.1
  have hinv : ∀ r, allocPages L s.mm ty order = some r → Inv L (s.took order r) := fun r he => by
    have hstep : step L s (.alloc ty order) = some (s.took order r) := by rw [step, he, Option.map_some]
    exact alloc_inv hi hstep
  rcases alloc_spec order hty hreps with ⟨he, hemp⟩ | ⟨z, hz, o, m', he, htook⟩
  · exact ⟨_, he, hinv _ he, Or.inl ⟨rfl, rfl, fun ⟨z, hz, k, hk, hne⟩ => hne (hemp z hz k hk)⟩⟩
  · obtain ⟨t, hr, -⟩ := hi.zones z (L.mem_all.2 ⟨_, hz⟩)
    obtain ⟨t', hk⟩ := htook t hr
    refine ⟨_, he, hinv _ he, Or.inr ⟨z, hz, o, t'.lt_of_ord hk.head, rfl, ?_⟩⟩
    -- with empty lists the search would have found nothing
    by_contra hno
    have hemp : searchZones s.mm order (L.chain ty) = some (none, s.mm) :=
      searchZones_empty _ fun z hz k hk => by_contra fun hne => hno ⟨z, hz, k, hk, hne⟩
    rw [allocPages, if_neg (Nat.not_le.2 hty)] at he
    split_ifs at he with ho
    · cases he
    · rw [hemp] at he
      cases he

/-! ## get_free_pages and free_pages -/

/-- **NULL means exhaustion exactly with a normal block or without a DMA block.** For every state and every order,
get_free_pages with both flags returns NULL only without a free block in the zones of both types if and only if a normal
zone has a block of that order or no DMA zone has. -/
theorem exhausted_iff (h : (system L).Reach s) (order : ℕ) : ∃ r, getFreePages L s (gfpNormal ||| gfpDma) order = some r ∧
    ((r.1 = none → ¬ HasBlock L s.mm zoneNormal order ∧ ¬ HasBlock L s.mm zoneDma order) ↔
      HasBlock L s.mm zoneNormal order ∨ ¬ HasBlock L s.mm zoneDma order) := by
  have hgfp : (gfpNormal ||| gfpDma) &&& gfpNormal ≠ 0#32 := by decide
  obtain ⟨r, hr, -, hcase⟩ := alloc_returns (reach_inv h) (by decide : zoneNormal < nrZoneTypes) order
  rw [getFreePages, if_pos hgfp, hr]
  simp only [Option.map_some, Option.bind_some]
  rcases hcase with ⟨hnone, -, hno⟩ | ⟨z, hz, o, ho, hsome, hyes⟩
  · simp only [hnone]
    refine ⟨_, rfl, ?_⟩
    simp [hno]
  · simp only [hsome, (L.pageToVirt_eq hz ho).1, Option.map_some]
    refine ⟨_, rfl, ?_⟩
    simp [hyes]

/-! ## A machine with DMA memory and three normal pages -/

/-- the DMA zone is [1 MB, 1 MB + 289 pages), the normal zone starts at 16 MB -/
def twoZone (z : ℕ) : MemZone :=
  if z = 0 then ⟨0x100000#32, 0x121000#32, 0, 289⟩ else ⟨0x1000000#32, 0x3000#32, 289, 292⟩

theorem twoZone_zero : twoZone 0 = ⟨0x100000#32, 0x121000#32, 0, 289⟩ := rfl

theorem twoZone_one : twoZone 1 = ⟨0x1000000#32, 0x3000#32, 289, 292⟩ := rfl

def twoChain (t : ℕ) : List ℕ := if t = zoneDma then [0] else if t = zoneNormal then [1] else []

theorem mem_twoChain {t z : ℕ} (h : z ∈ twoChain t) : (t = zoneDma ∧ z = 0) ∨ (t = zoneNormal ∧ z = 1) := by
  unfold twoChain at h
  split_ifs at h with h1 h2
  · exact Or.inl ⟨h1, by simpa using h⟩
  · exact Or.inr ⟨h2, by simpa using h⟩
  · simp at h

def two : Layout where
  zone := twoZone
  chain := twoChain
  types := by intro t ht; rw [twoChain, if_neg, if_neg] <;> rintro rfl <;> exact absurd ht (by decide)
  nodup := by intro t; unfold twoChain; split_ifs <;> simp
  one_type := by
    intro t t' z h h'
    rcases mem_twoChain h with ⟨rfl, rfl⟩ | ⟨rfl, rfl⟩ <;> rcases mem_twoChain h' with ⟨rfl, he⟩ | ⟨rfl, he⟩
    · rfl
    · cases he
    · cases he
    · rfl
  base_dvd := by intro t z h; rcases mem_twoChain h with ⟨-, rfl⟩ | ⟨-, rfl⟩ <;> decide
  size_dvd := by intro t z h; rcases mem_twoChain h with ⟨-, rfl⟩ | ⟨-, rfl⟩ <;> decide
  no_wrap := by intro t z h; rcases mem_twoChain h with ⟨-, rfl⟩ | ⟨-, rfl⟩ <;> decide
  in_type := by
    intro t z h a ha
    have hdma : zoneDmaLimit.toNat = 0x1000000 := by decide
    have hnormal : zoneNormalLimit.toNat = 0x38000000 := by decide
    rcases mem_twoChain h with ⟨rfl, rfl⟩ | ⟨rfl, rfl⟩
    · simp only [MemZone.Holds, twoZone_zero, BitVec.toNat_ofNat] at ha
      rw [zoneTypeOf, if_pos (BitVec.lt_def.2 (by omega))]
    · simp only [MemZone.Holds, twoZone_one, BitVec.toNat_ofNat] at ha
      rw [zoneTypeOf, if_neg (mt BitVec.lt_def.1 (by omega)), if_pos (BitVec.lt_def.2 (by omega))]
  descriptors := by intro t z h; rcases mem_twoChain h with ⟨-, rfl⟩ | ⟨-, rfl⟩ <;> decide
  mmap_apart := by
    intro t z h t' z' h' hne
    rcases mem_twoChain h with ⟨-, rfl⟩ | ⟨-, rfl⟩ <;> rcases mem_twoChain h' with ⟨-, rfl⟩ | ⟨-, rfl⟩
    · exact absurd rfl hne
    · decide
    · decide
    · exact absurd rfl hne
  phys_apart := by
    intro t z h t' z' h' hne a
    rcases mem_twoChain h with ⟨-, rfl⟩ | ⟨-, rfl⟩ <;> rcases mem_twoChain h' with ⟨-, rfl⟩ | ⟨-, rfl⟩
    · exact absurd rfl hne
    · simp only [MemZone.Holds, twoZone_zero, twoZone_one, BitVec.toNat_ofNat]; omega
    · simp only [MemZone.Holds, twoZone_zero, twoZone_one, BitVec.toNat_ofNat]; omega
    · exact absurd rfl hne

def twoBoot : Sys := ⟨(buildZones two blank two.all).get (by decide +kernel), []⟩

theorem reach_two (os : List Op) {s : Sys} (h : run two twoBoot os = some s) : (system two).Reach s :=
  reach_run (.start ⟨⟨blank, fun _ _ => ⟨fun _ _ => rfl, fun _ _ => rfl⟩, by simp [twoBoot]⟩, rfl⟩) h

theorem exhausted_two : ∃ r, getFreePages two twoBoot (gfpNormal ||| gfpDma) 0 = some r ∧
    ((r.1 = none → ¬ HasBlock two twoBoot.mm zoneNormal 0 ∧ ¬ HasBlock two twoBoot.mm zoneDma 0) ↔
      HasBlock two twoBoot.mm zoneNormal 0 ∨ ¬ HasBlock two twoBoot.mm zoneDma 0) :=
  exhausted_iff (reach_two [] rfl) 0

/-- the normal pages are taken -/
def twoFull : Sys :=
  (run two twoBoot [.alloc zoneNormal 1, .alloc zoneNormal 0]).get (by decide +kernel)

/-- 289 pages of DMA memory are free, and get_free_pages returns NULL. -/
theorem null_two : (system two).Reach twoFull ∧
    (∃ r, getFreePages two twoFull (gfpNormal ||| gfpDma) 0 = some r ∧ r.1 = none) ∧ HasBlock two twoFull.mm zoneDma 0 := by
  refine ⟨reach_two [.alloc zoneNormal 1, .alloc zoneNormal 0] (Option.some_get _).symm, ?_, ?_⟩
  · have hcall : (getFreePages two twoFull (gfpNormal ||| gfpDma) 0).map Prod.fst = some none := by decide +kernel
    obtain ⟨r, hr, hnone⟩ := Option.map_eq_some_iff.1 hcall
    exact ⟨r, hr, hnone⟩
  · exact ⟨0, by decide, 0, le_rfl, by decide +kernel⟩

/-! ## One page -/

theorem getFreePage_spec {sys : Sys} (hi : Inv L sys) :
    ∃ r, getFreePages L sys (gfpNormal ||| gfpDma) 0 = some r ∧ Inv L r.2 ∧
      ((r.1 = none ∧ r.2 = sys) ∨ ∃ z ∈ L.chain zoneNormal, ∃ o < L.pages z,
        r.1 = some (va (L.physAddr z o)) ∧ r.2.live = (L.base z + o, 0) :: sys.live) := by
  have hgfp : (gfpNormal ||| gfpDma) &&& gfpNormal ≠ 0#32 := by decide
  obtain ⟨r, hr, hinv, hcase⟩ := alloc_returns hi (by decide : zoneNormal < nrZoneTypes) 0
  rw [getFreePages, if_pos hgfp, hr]
  simp only [Option.map_some, Option.bind_some]
  rcases hcase with ⟨hnone, hsame, -⟩ | ⟨z, hz, o, ho, hsome, -⟩
  · simp only [hnone]
    exact ⟨_, rfl, hinv, Or.inl ⟨rfl, hsame⟩⟩
  · simp only [hsome, (L.pageToVirt_eq hz ho).1, Option.map_some]
    exact ⟨_, rfl, hinv, Or.inr ⟨z, hz, o, ho, rfl, by simp [Sys.took, hsome]⟩⟩

theorem freePage_spec {sys : Sys} (hi : Inv L sys) {z o : ℕ} (hz : z ∈ L.chain zoneNormal) (ho : o < L.pages z)
    (hl : (L.base z + o, 0) ∈ sys.live) :
    ∃ sys', freePages L sys (va (L.physAddr z o)) 0 = some sys' ∧ Inv L sys' ∧
      sys'.live = sys.live.erase (L.base z + o, 0) := by
  obtain ⟨sys', hstep, hinv, hlive⟩ := dealloc_held hi hl
  refine ⟨sys', ?_, hinv, hlive⟩
  simp only [freePages, (L.pageToVirt_eq hz ho).2.1]
  exact hstep

/-- two addresses of one page descriptor are the same -/
theorem physAddr_inj {z o z' o' : ℕ} (hz : z ∈ L.chain zoneNormal) (ho : o < L.pages z) (hz' : z' ∈ L.chain zoneNormal)
    (ho' : o' < L.pages z') : va (L.physAddr z o) = va (L.physAddr z' o') ↔ L.base z + o = L.base z' + o' := by
  have h1 := (L.pageToVirt_eq hz ho)
  have h2 := (L.pageToVirt_eq hz' ho')
  constructor
  · intro he
    have := h1.2.1
    rw [he, h2.2.1] at this
    exact (Option.some.inj this).symm
  · intro he
    have := h1.1
    rw [he, h2.1] at this
    exact (Option.some.inj this).symm

end SinsOs.Kmalloc
