/-
Runs of kmalloc and kfree over the page allocator, interleaved with the other users of alloc_pages and dealloc_pages.
A kfree gets a live block; the other users give back only pages that they hold.

`safe_reachable`: in every run whose kmalloc sizes are no multiple of 16 or are powers of two, the bytes of every live
block lie inside one slab page, behind its page_head_t, and touch no obj_head_t of that page and no other live block.
For the remaining sizes kmalloc_index picks a class that is too small: `oversized_block` is such a run.
-/
import SinsOs.Mm.FreePages

namespace SinsOs.KmallocRun

open SinsOs.Core SinsOs.Bits SinsOs.Mm SinsOs.PageAlloc SinsOs.BuddyRun SinsOs.Kmalloc

/-! ## Model -/

/-- the allocators and the (address, size) pairs that kmalloc's callers hold -/
structure Kmem where
  sys : Sys
  slab : Slab
  live : List (Word × Word)

inductive Call
  | kmalloc (size : Word)
  | kfree (addr : Word)
  | pages (o : Op)

/-- the pages whose heads are on a page_list -/
def IsSlab (s : Kmem) (page : Word) : Prop := ∃ k, page ∈ s.slab.pageList k

def callLegal (L : Layout) (s : Kmem) : Call → Prop
  | .kmalloc _ => True
  | .kfree addr => ∃ size, (addr, size) ∈ s.live
  | .pages o => legal s.sys o ∧ ∀ page order, o = .dealloc page order →
      ∀ addr, IsSlab s addr → L.virtToPage addr ≠ some page

def call (L : Layout) (s : Kmem) : Call → Option Kmem
  | .kmalloc size => (kmalloc L s.sys s.slab size).map fun r =>
      ⟨r.2.1, r.2.2, match r.1 with
        | none => s.live
        | some addr => (addr, size) :: s.live⟩
  | .kfree addr => (kfree L s.sys s.slab addr).map fun r => ⟨r.1, r.2, s.live.filter fun b => b.1 ≠ addr⟩
  | .pages o => (step L s.sys o).map fun sys => { s with sys := sys }

/-- kmalloc_init has run on a page allocator that may have been used before -/
def Ready (L : Layout) (s : Kmem) : Prop :=
  (BuddyRun.system L).Reach s.sys ∧ (∃ b, s.slab = kmallocInit b) ∧ s.live = []

def slabSystem (L : Layout) : Lts Kmem Call where
  start := Ready L
  step := fun s c s' => callLegal L s c ∧ call L s c = some s'

/-- the sizes for which kmalloc_index finds a class that is large enough -/
def sizeOk (_ : Kmem) : Call → Prop
  | .kmalloc size => RoundsUp size
  | _ => True

/-! ## Safety of the live blocks -/

/-- the block lies in one slab page behind the page_head_t and touches no obj_head_t of the page -/
def InSlab (s : Kmem) (b : Word × Word) : Prop :=
  ∃ k, ∃ page ∈ s.slab.pageList k, 4096 ∣ page.toNat ∧ page.toNat + sizeofPageHead ≤ b.1.toNat ∧
    b.1.toNat + b.2.toNat ≤ page.toNat + 4096 ∧
    ∀ o ∈ (s.slab.head page).usedList ++ (s.slab.head page).freeList,
      o.toNat + sizeofObjHead ≤ b.1.toNat ∨ b.1.toNat + b.2.toNat ≤ o.toNat

def BytesApart (b b' : Word × Word) : Prop :=
  b.1.toNat + b.2.toNat ≤ b'.1.toNat ∨ b'.1.toNat + b'.2.toNat ≤ b.1.toNat

structure Safe (s : Kmem) : Prop where
  inSlab : ∀ b ∈ s.live, InSlab s b
  apart : s.live.Pairwise BytesApart

/-! ## Invariant -/

/-- the page is page o of a zone of normal memory, and kmalloc holds it -/
def Owned (L : Layout) (sys : Sys) (page : Word) : Prop :=
  ∃ z ∈ L.chain zoneNormal, ∃ o < L.pages z, page = va (L.physAddr z o) ∧ (L.base z + o, 0) ∈ sys.live

structure PageOk (L : Layout) (s : Kmem) (k : ℕ) (page : Word) : Prop where
  order : k ≤ kmallocMaxOrder
  index : (s.slab.head page).index = k
  owned : Owned L s.sys page
  objs : ((s.slab.head page).usedList ++ (s.slab.head page).freeList).Perm (initPage page k).freeList

structure SlabInv (L : Layout) (s : Kmem) : Prop where
  pages : Inv L s.sys
  slabs : ∀ k, ∀ page ∈ s.slab.pageList k, PageOk L s k page
  once : ∀ k, (s.slab.pageList k).Nodup
  live : ∀ b ∈ s.live, ∃ k, ∃ page ∈ s.slab.pageList k, ∃ o ∈ (s.slab.head page).usedList,
    b.1 = o + BitVec.ofNat 32 sizeofObjHead ∧ b.2.toNat ≤ 2 ^ (k + kmallocShift)
  nodup : (s.live.map Prod.fst).Nodup

variable {L : Layout} {s s' : Kmem}

/-! ## Objects and pages apart -/

theorem Owned.aligned {sys : Sys} {page : Word} (h : Owned L sys page) :
    4096 ∣ page.toNat ∧ 0 < page.toNat ∧ page.toNat + 4096 ≤ 2 ^ 32 := by
  obtain ⟨z, hz, o, ho, rfl, -⟩ := h
  obtain ⟨-, -, h1, h2, h3⟩ := L.pageToVirt_eq hz ho
  exact ⟨h1, h2, h3⟩

theorem PageOk.slot {k : ℕ} {page o : Word} (h : PageOk L s k page)
    (ho : o ∈ (s.slab.head page).usedList ++ (s.slab.head page).freeList) : Slot page k o :=
  mem_initPage.1 (h.objs.mem_iff.1 ho)

theorem SlabInv.class_unique (hi : SlabInv L s) {k k' : ℕ} {page : Word} (h : page ∈ s.slab.pageList k)
    (h' : page ∈ s.slab.pageList k') : k = k' :=
  (hi.slabs k page h).index.symm.trans (hi.slabs k' page h').index

/-- where the bytes of a live block are -/
structure Placed (s : Kmem) (b : Word × Word) (k : ℕ) (page o : Word) : Prop where
  onList : page ∈ s.slab.pageList k
  inUse : o ∈ (s.slab.head page).usedList
  addr : b.1.toNat = o.toNat + sizeofObjHead
  size : b.2.toNat ≤ 2 ^ (k + kmallocShift)
  low : page.toNat + sizeofPageHead ≤ o.toNat
  high : o.toNat + (sizeofObjHead + 2 ^ (k + kmallocShift)) ≤ page.toNat + 4096

theorem SlabInv.placed (hi : SlabInv L s) {b : Word × Word} (hb : b ∈ s.live) : ∃ k page o, Placed s b k page o := by
  obtain ⟨k, page, hp, o, ho, hbo, hsz⟩ := hi.live b hb
  have hok := hi.slabs k page hp
  obtain ⟨-, -, hw⟩ := hok.owned.aligned
  obtain ⟨i, hio, hib⟩ := (hok.slot (List.mem_append_left _ ho)).toNat hw
  refine ⟨k, page, o, hp, ho, ?_, hsz, by omega, by omega⟩
  have hpos := Nat.two_pow_pos (k + kmallocShift)
  rw [hbo, BitVec.toNat_add, BitVec.toNat_ofNat]
  simp only [sizeofObjHead, sizeofPageHead] at *
  omega

/-- **The invariant gives safety.** -/
theorem SlabInv.safe (hi : SlabInv L s) : Safe s := by
  refine ⟨fun b hb => ?_, ?_⟩
  · obtain ⟨k, page, o, hp, hu, haddr, hsz, hlow, hhigh⟩ := hi.placed hb
    have hok := hi.slabs k page hp
    obtain ⟨hal, -, hw⟩ := hok.owned.aligned
    refine ⟨k, page, hp, hal, by omega, by omega, fun o' ho' => ?_⟩
    by_cases hne : o = o'
    · subst hne; exact Or.inl haddr.ge
    · rcases (hok.slot (List.mem_append_left _ hu)).apart hw (hok.slot ho') hne with hlt | hlt
      · right; omega
      · left; omega
  · refine List.Pairwise.imp_of_mem ?_ (List.pairwise_map.1 hi.nodup)
    intro b b' hb hb' hne
    obtain ⟨k, page, o, hp, hu, haddr, hsz, hlow, hhigh⟩ := hi.placed hb
    obtain ⟨k', page', o', hp', hu', haddr', hsz', hlow', hhigh'⟩ := hi.placed hb'
    have hok := hi.slabs k page hp
    obtain ⟨hal, -, hw⟩ := hok.owned.aligned
    obtain ⟨hal', -, -⟩ := (hi.slabs k' page' hp').owned.aligned
    unfold BytesApart
    by_cases hpp : page = page'
    · subst hpp
      obtain rfl := hi.class_unique hp hp'
      have hoo : o ≠ o' := by
        rintro rfl
        exact hne (BitVec.eq_of_toNat_eq (haddr.trans haddr'.symm))
      rcases (hok.slot (List.mem_append_left _ hu)).apart hw (hok.slot (List.mem_append_left _ hu')) hoo with hlt | hlt
      · left; omega
      · right; omega
    · have hnat : page.toNat ≠ page'.toNat := fun he => hpp (BitVec.eq_of_toNat_eq he)
      rcases Nat.lt_or_gt_of_ne hnat with hlt | hlt
      · have := SinsOs.Dyadic.add_le_of_dvd hal hal' hlt
        left; omega
      · have := SinsOs.Dyadic.add_le_of_dvd hal' hal hlt
        right; omega

/-! ## Pages -/

/-- pages that stay with kmalloc stay owned -/
theorem Owned.mono {sys sys' : Sys} {page : Word} (h : Owned L sys page)
    (hsub : ∀ z ∈ L.chain zoneNormal, ∀ o < L.pages z, page = va (L.physAddr z o) → (L.base z + o, 0) ∈ sys.live →
      (L.base z + o, 0) ∈ sys'.live) : Owned L sys' page := by
  obtain ⟨z, hz, o, ho, he, hl⟩ := h
  exact ⟨z, hz, o, ho, he, hsub z hz o ho he hl⟩

/-! ## Lists of pages -/

theorem mem_listMove {b : Slab} {page : Word} (hnd : ∀ k, (b.pageList k).Nodup)
    (hin : page ∈ b.pageList (b.head page).index) (honly : ∀ k, page ∈ b.pageList k → k = (b.head page).index)
    (k : ℕ) (x : Word) : x ∈ (b.listMove page).pageList k ↔ x ∈ b.pageList k := by
  simp only [Slab.listMove, Slab.listAdd, Slab.listDel]
  by_cases hk : k = (b.head page).index
  · subst hk
    rw [if_pos rfl, List.mem_cons, (hnd _).mem_erase_iff]
    by_cases hx : x = page
    · subst hx; simp [hin]
    · simp [hx]
  · rw [if_neg hk, List.erase_of_not_mem fun h => hk (honly k h)]

theorem listMove_nodup {b : Slab} (page : Word) (hnd : ∀ k, (b.pageList k).Nodup) (k : ℕ) :
    ((b.listMove page).pageList k).Nodup := by
  simp only [Slab.listMove, Slab.listAdd, Slab.listDel]
  split_ifs
  · exact List.nodup_cons.2 ⟨fun h => ((hnd k).mem_erase_iff.1 h).1 rfl, (hnd k).erase _⟩
  · exact (hnd k).erase _

/-- moving a page within its list keeps the invariant -/
theorem SlabInv.listMove (hi : SlabInv L s) {page : Word} (hp : page ∈ s.slab.pageList (s.slab.head page).index) :
    SlabInv L { s with slab := s.slab.listMove page } := by
  have hmem := mem_listMove hi.once hp fun k hk => (hi.slabs k page hk).index.symm
  refine ⟨hi.pages, fun k p hpk => ?_, listMove_nodup page hi.once, fun b hb => ?_, hi.nodup⟩
  · obtain ⟨h1, h2, h3, h4⟩ := hi.slabs k p ((hmem k p).1 hpk)
    exact ⟨h1, h2, h3, h4⟩
  · obtain ⟨k, p, hpk, hrest⟩ := hi.live b hb
    exact ⟨k, p, (hmem k p).2 hpk, hrest⟩

/-! ## kmalloc -/

/-- fetching an object of a page on a list -/
theorem SlabInv.fetch (hi : SlabInv L s) {k : ℕ} {page size : Word} (hp : page ∈ s.slab.pageList k)
    (hfree : (s.slab.head page).freeList ≠ []) (hsz : size.toNat ≤ 2 ^ (k + kmallocShift)) :
    ∃ r, fetchObj s.slab page = some r ∧ SlabInv L ⟨s.sys, r.2, (r.1, size) :: s.live⟩ := by
  have hok := hi.slabs k page hp
  cases hf : (s.slab.head page).freeList with
  | nil => exact absurd hf hfree
  | cons fetch rest =>
    set h' : PageHead := ⟨(s.slab.head page).index, fetch :: (s.slab.head page).usedList, rest⟩ with hh'
    set b' := s.slab.setHead page h' with hb'
    have hhead : b'.head page = h' := by simp [hb', Slab.setHead]
    have hother : ∀ p, p ≠ page → b'.head p = s.slab.head p := fun p hne => by simp [hb', Slab.setHead, hne]
    have hobjs := hok.objs
    have hnd := hobjs.nodup_iff.2 (initPage_nodup page k)
    rw [hf] at hobjs hnd
    have hi' : SlabInv L ⟨s.sys, b', (fetch + BitVec.ofNat 32 sizeofObjHead, size) :: s.live⟩ := by
      refine ⟨hi.pages, fun j p hpj => ?_, hi.once, fun b hb => ?_, List.nodup_cons.2 ⟨fun hin => ?_, hi.nodup⟩⟩
      · obtain ⟨h1, h2, h3, h4⟩ := hi.slabs j p hpj
        by_cases hne : p = page
        · subst hne
          refine ⟨h1, by rw [hhead]; exact h2, h3, ?_⟩
          rw [hf] at h4
          rw [hhead]
          exact List.perm_middle.symm.trans h4
        · exact ⟨h1, by rw [hother p hne]; exact h2, h3, by rw [hother p hne]; exact h4⟩
      · rcases List.mem_cons.1 hb with rfl | hb
        · exact ⟨k, page, hp, fetch, by rw [hhead]; exact List.mem_cons_self, rfl, hsz⟩
        · obtain ⟨j, p, hpj, o, ho, hrest⟩ := hi.live b hb
          refine ⟨j, p, hpj, o, ?_, hrest⟩
          by_cases hne : p = page
          · subst hne; rw [hhead]; exact List.mem_cons_of_mem _ ho
          · rw [hother p hne]; exact ho
      · -- the object was free, so no live block starts behind it
        obtain ⟨b, hb, he⟩ := List.mem_map.1 hin
        obtain ⟨j, p, hpj, o, ho, hbo, -⟩ := hi.live b hb
        obtain rfl : o = fetch := (BitVec.add_left_inj _).1 (hbo.symm.trans he)
        have hok' := hi.slabs j p hpj
        obtain ⟨hal, -, hw⟩ := hok.owned.aligned
        obtain ⟨hal', -, hw'⟩ := hok'.owned.aligned
        obtain ⟨i, hio, hib⟩ := (hok.slot (o := o) (by rw [hf]; simp)).toNat hw
        obtain ⟨i', hio', hib'⟩ := (hok'.slot (List.mem_append_left _ ho)).toNat hw'
        have hpos := Nat.two_pow_pos (k + kmallocShift)
        have hpos' := Nat.two_pow_pos (j + kmallocShift)
        obtain rfl : p = page := by
          apply BitVec.eq_of_toNat_eq
          omega
        exact List.disjoint_of_nodup_append hnd ho List.mem_cons_self
    have hres : fetchObj s.slab page =
        some (fetch + BitVec.ofNat 32 sizeofObjHead, if rest = [] then b'.listMove page else b') := by
      simp only [fetchObj, hf, hb', hh']
    refine ⟨_, hres, ?_⟩
    by_cases hrest : rest = []
    · simp only [hrest, if_true]
      refine hi'.listMove ?_
      rw [hhead]
      exact hok.index.symm ▸ hp
    · simp only [hrest, if_false]
      exact hi'

/-- a page fresh from get_free_page joins the list of its class -/
theorem SlabInv.grow (hi : SlabInv L s) {k : ℕ} (hk : k ≤ kmallocMaxOrder) {sys' : Sys} (hs : Inv L sys') {z o : ℕ}
    (hz : z ∈ L.chain zoneNormal) (ho : o < L.pages z) (hl : sys'.live = (L.base z + o, 0) :: s.sys.live) :
    SlabInv L ⟨sys', (s.slab.setHead (va (L.physAddr z o)) (initPage (va (L.physAddr z o)) k)).listAdd
      (va (L.physAddr z o)) k, s.live⟩ := by
  set page := va (L.physAddr z o) with hpage
  -- kmalloc did not hold the page before
  have hnew : ∀ j, page ∉ s.slab.pageList j := by
    intro j hin
    obtain ⟨z', hz', o', ho', he, hl'⟩ := (hi.slabs j page hin).owned
    rw [(physAddr_inj hz ho hz' ho').1 he] at hl
    have := hs.nodup
    rw [hl, List.nodup_cons] at this
    exact this.1 hl'
  have hmem : ∀ j p, p ∈ ((s.slab.setHead page (initPage page k)).listAdd page k).pageList j ↔
      (j = k ∧ p = page) ∨ p ∈ s.slab.pageList j := by
    intro j p
    simp only [Slab.listAdd, Slab.setHead]
    by_cases hj : j = k <;> simp [hj]
  have hhead : ∀ p, ((s.slab.setHead page (initPage page k)).listAdd page k).head p =
      if p = page then initPage page k else s.slab.head p := fun p => rfl
  refine ⟨hs, fun j p hp => ?_, fun j => ?_, fun b hb => ?_, hi.nodup⟩
  · rcases (hmem j p).1 hp with ⟨rfl, rfl⟩ | hp
    · refine ⟨hk, by rw [hhead, if_pos rfl]; rfl, ⟨z, hz, o, ho, hpage, by rw [hl]; exact List.mem_cons_self⟩, ?_⟩
      simp only [hhead, if_true]
      exact List.Perm.refl _
    · have hne : p ≠ page := by rintro rfl; exact hnew j hp
      obtain ⟨h1, h2, h3, h4⟩ := hi.slabs j p hp
      refine ⟨h1, by rw [hhead, if_neg hne]; exact h2, h3.mono fun _ _ _ _ _ h => ?_, by
        simp only [hhead, if_neg hne]; exact h4⟩
      rw [hl]; exact List.mem_cons_of_mem _ h
  · simp only [Slab.listAdd, Slab.setHead]
    split_ifs
    · exact List.nodup_cons.2 ⟨hnew j, hi.once j⟩
    · exact hi.once j
  · obtain ⟨j, p, hp, o', ho', hrest⟩ := hi.live b hb
    have hne : p ≠ page := by rintro rfl; exact hnew j hp
    exact ⟨j, p, (hmem j p).2 (Or.inr hp), o', by rw [hhead, if_neg hne]; exact ho', hrest⟩

/-- the class that kmalloc picks is one of the lists -/
theorem class_of_index {size : Word} (hix : kmallocIndex size ≠ -1) : (kmallocIndex size).toNat ≤ kmallocMaxOrder := by
  obtain ⟨k, hk, hidx, -⟩ := kmallocIndex_fits hix
  rwa [hidx, Int.toNat_natCast]

theorem pageWithFree_some {b : Slab} {k : ℕ} {page : Word} (h : pageWithFree b k = some page) :
    page ∈ b.pageList k ∧ (b.head page).freeList ≠ [] := by
  unfold pageWithFree at h
  split at h
  · cases h
  · rename_i p rest hlist
    split_ifs at h with hemp
    cases h
    exact ⟨by rw [hlist]; exact List.mem_cons_self, hemp⟩

/-- kmalloc keeps the invariant for a block of at most the size of the class -/
theorem kmalloc_spec (hi : SlabInv L s) {size block : Word} (hix : kmallocIndex size ≠ -1)
    (hsz : block.toNat ≤ 2 ^ ((kmallocIndex size).toNat + kmallocShift)) :
    ∃ r, kmalloc L s.sys s.slab size = some r ∧ SlabInv L ⟨r.2.1, r.2.2, match r.1 with
      | none => s.live
      | some addr => (addr, block) :: s.live⟩ := by
  have hk := class_of_index hix
  rw [kmalloc, if_neg hix]
  generalize (kmallocIndex size).toNat = k at hk hsz ⊢
  cases hpf : pageWithFree s.slab k with
  | some page =>
    obtain ⟨hp, hfree⟩ := pageWithFree_some hpf
    obtain ⟨r, hr, hir⟩ := hi.fetch hp hfree hsz
    exact ⟨(some r.1, s.sys, r.2), by simp only [hr, Option.map_some], hir⟩
  | none =>
    obtain ⟨r, hr, hir, hcase⟩ := getFreePage_spec hi.pages
    simp only [hr, Option.bind_some]
    rcases hcase with ⟨h1, h2⟩ | ⟨z, hz, o, ho, h1, h2⟩
    · simp only [h1, h2]
      exact ⟨_, rfl, hi⟩
    · have hg := hi.grow hk hir hz ho h2
      obtain ⟨q, hq, hiq⟩ := hg.fetch (k := k) (show va (L.physAddr z o) ∈ _ by simp [Slab.listAdd])
        (by simpa [Slab.listAdd, Slab.setHead] using initPage_free _ hk) hsz
      simp only [h1, hq, Option.map_some]
      exact ⟨_, rfl, hiq⟩

/-- **kmalloc keeps the invariant when its class is large enough.** -/
theorem kmalloc_inv (hi : SlabInv L s) {size : Word} (hix : kmallocIndex size ≠ -1) (hok : RoundsUp size) :
    ∃ s', call L s (.kmalloc size) = some s' ∧ SlabInv L s' := by
  obtain ⟨k, hk, hidx, hfit⟩ := kmallocIndex_fits hix
  have hsz : size.toNat ≤ 2 ^ ((kmallocIndex size).toNat + kmallocShift) := by
    rw [hidx, Int.toNat_natCast]
    exact hfit.2 hok
  obtain ⟨r, hr, hir⟩ := kmalloc_spec hi hix hsz
  exact ⟨_, by rw [call, hr, Option.map_some], hir⟩

/-! ## kfree -/

/-- the address of an object, whose page PAGE_FLOOR finds -/
theorem PageOk.address {k : ℕ} {page o : Word} (hok : PageOk L s k page)
    (ho : o ∈ (s.slab.head page).usedList ++ (s.slab.head page).freeList) :
    o + BitVec.ofNat 32 sizeofObjHead ≠ 0#32 ∧ pageFloor (o + BitVec.ofNat 32 sizeofObjHead) = page := by
  obtain ⟨hal, hpos, hw⟩ := hok.owned.aligned
  obtain ⟨i, hio, hib⟩ := (hok.slot ho).toNat hw
  have h2 := Nat.two_pow_pos (k + kmallocShift)
  have haddr : (o + BitVec.ofNat 32 sizeofObjHead).toNat = o.toNat + sizeofObjHead := by
    rw [BitVec.toNat_add, BitVec.toNat_ofNat]
    simp only [sizeofObjHead, sizeofPageHead] at *
    omega
  constructor
  · intro he
    rw [he, BitVec.toNat_ofNat] at haddr
    simp only [sizeofObjHead] at haddr
    omega
  · apply BitVec.eq_of_toNat_eq
    rw [pageFloor_toNat]
    omega

/-- the page_head_t after a kfree -/
def released (h : PageHead) (o : Word) : PageHead := ⟨h.index, h.usedList.erase o, o :: h.freeList⟩

/-- kfree of an object in use -/
theorem SlabInv.kfree_eq (hi : SlabInv L s) {k : ℕ} {page o : Word} (hp : page ∈ s.slab.pageList k)
    (ho : o ∈ (s.slab.head page).usedList) : kfree L s.sys s.slab (o + BitVec.ofNat 32 sizeofObjHead) =
      if (s.slab.head page).usedList.erase o = [] then (freePages L s.sys page 0).map fun sys =>
        (sys, (s.slab.setHead page (released (s.slab.head page) o)).listDel page)
      else some (s.sys, (s.slab.setHead page (released (s.slab.head page) o)).listMove page) := by
  have hok := hi.slabs k page hp
  obtain ⟨hne0, hfloor⟩ := hok.address (List.mem_append_left _ ho)
  have hobj : o + BitVec.ofNat 32 sizeofObjHead - BitVec.ofNat 32 sizeofObjHead = o := BitVec.add_sub_cancel _ _
  have hnd := hok.objs.nodup_iff.2 (initPage_nodup page k)
  have hnfree : o ∉ (s.slab.head page).freeList := fun h => List.disjoint_of_nodup_append hnd ho h
  rw [kfree, if_neg hne0]
  simp only [hfloor, hobj, List.erase_of_not_mem hnfree, released]

/-- **kfree of a live block returns and keeps the invariant.** -/
theorem kfree_inv (hi : SlabInv L s) {addr size : Word} (hl : (addr, size) ∈ s.live) :
    ∃ s', call L s (.kfree addr) = some s' ∧ SlabInv L s' := by
  obtain ⟨k, page, hp, o, ho, hao, -⟩ := hi.live _ hl
  change addr = _ at hao
  have hok := hi.slabs k page hp
  obtain ⟨z, hz, x, hx, hpage, hlive⟩ := hok.owned
  have hnd := hok.objs.nodup_iff.2 (initPage_nodup page k)
  have hndu : (s.slab.head page).usedList.Nodup := (List.nodup_append.1 hnd).1
  set h' : PageHead := released (s.slab.head page) o with hh'
  set b' := s.slab.setHead page h' with hb'
  have hhead : b'.head page = h' := by simp [hb', Slab.setHead]
  have hother : ∀ p, p ≠ page → b'.head p = s.slab.head p := fun p hne => by simp [hb', Slab.setHead, hne]
  -- the remaining live blocks keep their objects
  have hrest : ∀ b ∈ s.live, b.1 ≠ addr → ∃ j, ∃ p ∈ s.slab.pageList j, ∃ o' ∈ (b'.head p).usedList,
      b.1 = o' + BitVec.ofNat 32 sizeofObjHead ∧ b.2.toNat ≤ 2 ^ (j + kmallocShift) := by
    intro b hb hne
    obtain ⟨j, p, hpj, o', ho', hbo, hsz⟩ := hi.live b hb
    refine ⟨j, p, hpj, o', ?_, hbo, hsz⟩
    by_cases hpp : p = page
    · subst hpp
      rw [hhead, hh', released, hndu.mem_erase_iff]
      exact ⟨by rintro rfl; exact hne (hbo.trans hao.symm), ho'⟩
    · rw [hother p hpp]; exact ho'
  have hi' : SlabInv L ⟨s.sys, b', s.live.filter fun b => b.1 ≠ addr⟩ := by
    refine ⟨hi.pages, fun j p hpj => ?_, hi.once, fun b hb => ?_, hi.nodup.sublist (List.filter_sublist.map _)⟩
    · obtain ⟨h1, h2, h3, h4⟩ := hi.slabs j p hpj
      by_cases hne : p = page
      · subst hne
        refine ⟨h1, by rw [hhead]; exact h2, h3, ?_⟩
        rw [hhead]
        show ((s.slab.head p).usedList.erase o ++ o :: (s.slab.head p).freeList).Perm _
        refine List.Perm.trans ?_ h4
        exact List.perm_middle.trans ((List.perm_cons_erase ho).symm.append_right _)
      · exact ⟨h1, by rw [hother p hne]; exact h2, h3, by rw [hother p hne]; exact h4⟩
    · obtain ⟨hb, hne⟩ := List.mem_filter.1 hb
      exact hrest b hb (by simpa using hne)
  rw [call, hao, hi.kfree_eq hp ho, ← hh', ← hb', ← hao]
  by_cases hemp : (s.slab.head page).usedList.erase o = []
  · obtain ⟨sys', hfree, hsys, hlive'⟩ := freePage_spec hi.pages hz hx hlive
    rw [if_pos hemp, hpage, hfree]
    refine ⟨_, rfl, hsys, fun j p hpj => ?_, fun j => (hi.once j).erase _, fun b hb => ?_, hi'.nodup⟩
    · obtain ⟨hne, hpj⟩ := (hi.once j).mem_erase_iff.1 hpj
      rw [← hpage] at hne
      obtain ⟨h1, h2, h3, h4⟩ := hi'.slabs j p hpj
      refine ⟨h1, h2, h3.mono fun z' hz' o' ho' he hin => ?_, h4⟩
      rw [hlive', hi.pages.nodup.mem_erase_iff]
      refine ⟨fun hc => hne ?_, hin⟩
      rw [he, hpage]
      exact (physAddr_inj hz' ho' hz hx).2 (Prod.mk.inj hc).1
    · obtain ⟨j, p, hpj, o', ho', hr⟩ := hi'.live b hb
      have hne : p ≠ page := by
        rintro rfl
        rw [hhead, hh', released, hemp] at ho'
        exact absurd ho' List.not_mem_nil
      exact ⟨j, p, (hi.once j).mem_erase_iff.2 ⟨hpage ▸ hne, hpj⟩, o', ho', hr⟩
  · rw [if_neg hemp]
    refine ⟨_, rfl, hi'.listMove ?_⟩
    rw [hhead]
    exact hok.index.symm ▸ hp

/-! ## Runs -/

/-- a block that an operation on pages does not free stays -/
theorem step_keeps {sys sys' : Sys} (hnodup : sys.live.Nodup) {o : Op} (hs : step L sys o = some sys') {x : ℕ × ℕ}
    (hne : ∀ p order, o = .dealloc p order → x ≠ (p, order)) (hin : x ∈ sys.live) : x ∈ sys'.live := by
  cases o with
  | alloc zoneType order =>
    obtain ⟨r, -, rfl⟩ := Option.map_eq_some_iff.1 hs
    unfold Sys.took
    split
    · exact hin
    · exact List.mem_cons_of_mem _ hin
  | dealloc p order =>
    obtain ⟨m', -, rfl⟩ := Option.map_eq_some_iff.1 hs
    exact hnodup.mem_erase_iff.2 ⟨hne p order rfl, hin⟩

theorem pages_inv (hi : SlabInv L s) {o : Op} (hl : callLegal L s (.pages o)) (hs : call L s (.pages o) = some s') :
    SlabInv L s' := by
  obtain ⟨sys', hsys, rfl⟩ := Option.map_eq_some_iff.1 hs
  refine ⟨BuddyRun.step_inv hi.pages ⟨hl.1, hsys⟩, fun k page hp => ?_, hi.once, hi.live, hi.nodup⟩
  obtain ⟨h1, h2, h3, h4⟩ := hi.slabs k page hp
  refine ⟨h1, h2, h3.mono fun z hz x hx he hin => ?_, h4⟩
  refine step_keeps hi.pages.nodup hsys (fun p order ho hc => ?_) hin
  have hne := hl.2 p order ho page ⟨k, hp⟩
  rw [he, (L.pageToVirt_eq hz hx).2.1] at hne
  exact hne (by rw [(Prod.mk.inj hc).1])

theorem ready_inv (h : Ready L s) : SlabInv L s := by
  obtain ⟨hr, ⟨b, hb⟩, hl⟩ := h
  exact ⟨reach_inv hr, by simp [hb, kmallocInit], by simp [hb, kmallocInit], by simp [hl], by simp [hl]⟩

theorem call_inv {c : Call} (hi : SlabInv L s) (hok : sizeOk s c) (hs : (slabSystem L).step s c s') :
    SlabInv L s' := by
  obtain ⟨hl, hs⟩ := hs
  cases c with
  | kmalloc size =>
    have hix : kmallocIndex size ≠ -1 := by
      intro he
      simp [call, kmalloc, he] at hs
    obtain ⟨s1, h1, hi1⟩ := kmalloc_inv hi hix hok
    rw [h1] at hs
    exact Option.some.inj hs ▸ hi1
  | kfree addr =>
    obtain ⟨size, hin⟩ := hl
    obtain ⟨s1, h1, hi1⟩ := kfree_inv hi hin
    rw [h1] at hs
    exact Option.some.inj hs ▸ hi1
  | pages o => exact pages_inv hi hl hs

/-- **Blocks are safe for the sizes that fit their class.** In every run whose kmalloc sizes are no multiple of 16 or are
powers of two, all live blocks are safe in every state that is reached. -/
theorem safe_reachable (h : ((slabSystem L).only sizeOk).Reach s) : Safe s := by
  have hi : SlabInv L s := by
    refine h.inv (P := SlabInv L) (fun _ h0 => ready_inv h0) ?_
    intro s c s' hi hst
    exact call_inv hi hst.1 hst.2
  exact hi.safe

/-! ## Runs on the small machine -/

def smallKmem : Kmem := ⟨smallBoot, kmallocInit ⟨fun _ => [], fun _ => ⟨0, [], []⟩⟩, []⟩

theorem ready_small : Ready Layout.small smallKmem := ⟨.start booted_small, ⟨_, rfl⟩, rfl⟩

def smallKmem1 : Kmem := (call Layout.small smallKmem (.kmalloc 466#32)).get (by decide +kernel)

def smallKmem2 : Kmem := (call Layout.small smallKmem1 (.kmalloc 32#32)).get (by decide +kernel)

def smallKmem3 : Kmem := (call Layout.small smallKmem2 (.kfree 0xC1004C54#32)).get (by decide +kernel)

theorem safe_small : Safe smallKmem3 := by
  have h1 : ((slabSystem Layout.small).only sizeOk).Reach smallKmem1 :=
    .step (e := .kmalloc 466#32) (.start ready_small) ⟨Or.inl (by decide), trivial, (Option.some_get _).symm⟩
  have h2 : ((slabSystem Layout.small).only sizeOk).Reach smallKmem2 :=
    .step (e := .kmalloc 32#32) h1 ⟨Or.inr ⟨5, by decide⟩, trivial, (Option.some_get _).symm⟩
  have h3 : ((slabSystem Layout.small).only sizeOk).Reach smallKmem3 :=
    .step (e := .kfree 0xC1004C54#32) h2 ⟨trivial, ⟨466#32, by decide +kernel⟩, (Option.some_get _).symm⟩
  exact safe_reachable h3

/-- after kmalloc(496) -/
def smallOversized : Kmem := (call Layout.small smallKmem (.kmalloc 496#32)).get (by decide +kernel)

/-- kmalloc(496) gets an object of the 256-byte class, and its bytes leave the page. -/
theorem oversized_block : (slabSystem Layout.small).Reach smallOversized ∧ ¬ Safe smallOversized := by
  constructor
  · exact .step (e := .kmalloc 496#32) (.start ready_small) ⟨trivial, (Option.some_get _).symm⟩
  · intro hs
    have hlive : (0xC1004E94#32, 496#32) ∈ smallOversized.live := by decide +kernel
    obtain ⟨k, page, -, hal, hlow, hhigh, -⟩ := hs.inSlab _ hlive
    simp only [BitVec.toNat_ofNat, sizeofPageHead] at hlow hhigh
    omega

end SinsOs.KmallocRun
