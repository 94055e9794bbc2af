/-
The order of the pages on the lists of kmalloc (kernel/mm/kmalloc.c). kmalloc looks at the first page of its class only; the
list_move of a page whose last free object it hands out puts the full page in front of pages that have free objects.

- `frugal_iff`: in a run in which no kmalloc empties the first page of its class while another page of the class has a free
  object, a fresh page is asked for only when all pages of the class are full, and no class has more pages than its peak of live
  blocks fills. The first other kmalloc ends this.
- `third_page`: nine blocks that fit in two pages have three.
-/
import SinsOs.Mm.KmallocSlots

namespace SinsOs.KmallocRun

open SinsOs.Core SinsOs.Bits SinsOs.Mm SinsOs.PageAlloc SinsOs.BuddyRun SinsOs.Kmalloc

/-! ## Model -/

/-- the live blocks of a size class -/
def liveOf (m : Kmem) (k : ℕ) : ℕ := m.live.countP fun x => (kmallocIndex x.2).toNat = k

/-- kmalloc and its other users, with the most live blocks that each class has had -/
structure Peaks where
  slots : Slots
  peak : ℕ → ℕ

def Peaks.next (s : Peaks) (t : Slots) : Peaks := ⟨t, fun k => max (s.peak k) (liveOf t.kmem k)⟩

def peakSystem (L : Layout) : Lts Peaks Call where
  start := fun s => (slotSystem L).start s.slots ∧ s.peak = fun _ => 0
  step := fun s c s' => (slotSystem L).step s.slots c s'.slots ∧ s' = s.next s'.slots

/-- the objects that init_page lays out in a page of the class -/
def perPage (k : ℕ) : ℕ := (initPage 0 k).freeList.length

def Full (b : Slab) (page : Word) : Prop := (b.head page).freeList = []

/-- kmalloc(size) calls get_free_page -/
def AsksPage (b : Slab) (size : Word) : Prop := kmallocIndex size ≠ -1 ∧ pageWithFree b (kmallocIndex size).toNat = none

/-- a fresh page is asked for only when no page of the class has a free object, and a class has no more pages than its peak of
live blocks needs -/
structure Frugal (s : Peaks) : Prop where
  fresh : ∀ size, AsksPage s.slots.kmem.slab size →
    ∀ page ∈ s.slots.kmem.slab.pageList (kmallocIndex size).toNat, Full s.slots.kmem.slab page
  pages : ∀ k n, s.peak k ≤ n * perPage k → (s.slots.kmem.slab.pageList k).length ≤ n

/-- no kmalloc hands out the last free object of the first page of its class while another page of the class has a free one -/
def keepsFirst (s : Peaks) : Call → Prop
  | .kmalloc size => ∀ page rest o, s.slots.kmem.slab.pageList (kmallocIndex size).toNat = page :: rest →
      (s.slots.kmem.slab.head page).freeList = [o] → ∀ q ∈ rest, Full s.slots.kmem.slab q
  | .kfree _ | .pages _ => True

variable {L : Layout} {s s' : Peaks} {m : Kmem} {b : Slab} {k : ℕ} {page o addr size : Word} {rest free : List Word}

/-! ## The lists after kmalloc and kfree -/

theorem listMove_first (hl : b.pageList k = page :: rest) (hindex : (b.head page).index = k)
    (honly : ∀ j, page ∈ b.pageList j → j = k) : (b.listMove page).pageList = b.pageList := by
  funext j
  simp only [Slab.listMove, Slab.listAdd, Slab.listDel, hindex]
  by_cases hj : j = k
  · rw [if_pos hj, hj, hl, List.erase_cons_head]
  · rw [if_neg hj, List.erase_of_not_mem fun h => hj (honly j h)]

/-- the first page of a list, or another one: fetching an object leaves the first page where it is -/
theorem fetchObj_first (hi : SlabInv L m) (hl : m.slab.pageList k = page :: rest)
    (hf : (m.slab.head page).freeList = o :: free) : ∃ b, fetchObj m.slab page = some (o + BitVec.ofNat 32 sizeofObjHead, b) ∧
      b.pageList = m.slab.pageList ∧ b.head page = ⟨k, o :: (m.slab.head page).usedList, free⟩ ∧
      ∀ p, p ≠ page → b.head p = m.slab.head p := by
  have hp : page ∈ m.slab.pageList k := hl ▸ List.mem_cons_self
  have hindex := (hi.slabs k page hp).index
  set b := m.slab.setHead page ⟨(m.slab.head page).index, o :: (m.slab.head page).usedList, free⟩ with hb
  have hself : b.head page = ⟨k, o :: (m.slab.head page).usedList, free⟩ :=
    (if_pos rfl).trans (congrArg (PageHead.mk · _ _) hindex)
  have hother : ∀ p, p ≠ page → b.head p = m.slab.head p := fun p hne => if_neg hne
  refine ⟨if free = [] then b.listMove page else b, ?_, ?_, ?_, ?_⟩
  · simp only [fetchObj, hf, hb]
  · split_ifs
    · exact listMove_first (b := b) hl (by rw [hself]) fun j hj => hi.class_unique hj hp
    · rfl
  · split_ifs
    · exact hself
    · exact hself
  · intro p hne
    split_ifs
    · exact hother p hne
    · exact hother p hne

/-- what a kmalloc that hands out the object o of the page has done: the page was and is the first of its list, or is fresh -/
structure Fetched (b b' : Slab) (k : ℕ) (page o : Word) (rest : List Word) : Prop where
  lists : ∀ j, b'.pageList j = if j = k then page :: rest else b.pageList j
  heads : ∀ p, p ≠ page → b'.head p = b.head p
  used : o ∈ (b'.head page).usedList
  from_list : (b.pageList k = page :: rest ∧ (b.head page).freeList = o :: (b'.head page).freeList) ∨
    (b.pageList k = rest ∧ pageWithFree b k = none)

theorem kmalloc_fetched (hi : SlabInv L m) (hix : kmallocIndex size ≠ -1) :
    (kmalloc L m.sys m.slab size = some (none, m.sys, m.slab) ∧ pageWithFree m.slab (kmallocIndex size).toNat = none) ∨
      ∃ page o rest sys b,
        kmalloc L m.sys m.slab size = some (some (o + BitVec.ofNat 32 sizeofObjHead), sys, b) ∧
          Fetched m.slab b (kmallocIndex size).toNat page o rest := by
  have hk := class_of_index hix
  rw [kmalloc, if_neg hix]
  generalize (kmallocIndex size).toNat = k at hk ⊢
  cases hpf : pageWithFree m.slab k with
  | some page =>
    obtain ⟨rest, hl⟩ : ∃ rest, m.slab.pageList k = page :: rest := by
      unfold pageWithFree at hpf
      split at hpf
      · cases hpf
      · rename_i p rest hlist
        split_ifs at hpf
        cases hpf
        exact ⟨rest, hlist⟩
    obtain ⟨o, free, hf⟩ := List.exists_cons_of_ne_nil (pageWithFree_some hpf).2
    obtain ⟨b, hfetch, hlists, hself, hother⟩ := fetchObj_first hi hl hf
    refine Or.inr ⟨page, o, rest, m.sys, b, by simp only [hfetch, Option.map_some], fun j => ?_, hother, ?_,
      Or.inl ⟨hl, ?_⟩⟩
    · rw [hlists]
      split_ifs with hj
      · rw [hj, hl]
      · rfl
    · rw [hself]
      exact List.mem_cons_self
    · rw [hf, hself]
  | none =>
    obtain ⟨r, hr, hir, hcase⟩ := getFreePage_spec hi.pages
    simp only [hr, Option.bind_some]
    rcases hcase with ⟨h1, h2⟩ | ⟨z, hz, d, hd, h1, h2⟩
    · rw [h1, h2]
      exact Or.inl ⟨rfl, trivial⟩
    · have hg := hi.grow hk hir hz hd h2
      set new := va (L.physAddr z d) with hnew
      set grown := (m.slab.setHead new (initPage new k)).listAdd new k with hgrown
      have hl : grown.pageList k = new :: m.slab.pageList k := if_pos rfl
      have hhead : ∀ p, grown.head p = if p = new then initPage new k else m.slab.head p := fun _ => rfl
      have hfresh : (grown.head new).freeList ≠ [] := by
        rw [hhead, if_pos rfl]
        exact initPage_free new hk
      obtain ⟨o, free, hf⟩ := List.exists_cons_of_ne_nil hfresh
      obtain ⟨b, hfetch, hlists, hself, hother⟩ := fetchObj_first hg hl hf
      have hcall : (fetchObj grown new).map (fun q => (some q.1, r.2, q.2)) =
          some (some (o + BitVec.ofNat 32 sizeofObjHead), r.2, b) := by
        change fetchObj grown new = _ at hfetch
        rw [hfetch, Option.map_some]
      refine Or.inr ⟨new, o, m.slab.pageList k, r.2, b, by simp only [h1]; exact hcall, fun j => ?_, fun p hne => ?_, ?_,
        Or.inr ⟨rfl, hpf⟩⟩
      · rw [hlists]
        show grown.pageList j = _
        rw [hgrown]
        simp only [Slab.listAdd, Slab.setHead]
        split_ifs with hj
        · rw [hj]
        · rfl
      · rw [hother p hne]
        exact if_neg hne
      · rw [hself]
        exact List.mem_cons_self

/-- what a kfree of the object o of the page has done: the page is first on its list, or has left it -/
structure Emptied (b b' : Slab) (k : ℕ) (page o : Word) : Prop where
  lists : ((b.head page).usedList.erase o = [] ∧ ∀ j, b'.pageList j = (b.pageList j).erase page) ∨
    (∀ j, b'.pageList j = if j = k then page :: (b.pageList j).erase page else b.pageList j)
  heads : ∀ p, p ≠ page → b'.head p = b.head p
  free : ¬ Full b' page

theorem kfree_emptied (hi : SlabInv L m) (hp : page ∈ m.slab.pageList k) (ho : o ∈ (m.slab.head page).usedList)
    {r : Sys × Slab} (hr : kfree L m.sys m.slab (o + BitVec.ofNat 32 sizeofObjHead) = some r) : Emptied m.slab r.2 k page o := by
  set b := m.slab.setHead page (released (m.slab.head page) o) with hb
  have hself : b.head page = released (m.slab.head page) o := if_pos rfl
  have hother : ∀ p, p ≠ page → b.head p = m.slab.head p := fun p hne => if_neg hne
  have hfree : ¬ Full b page := fun h => by
    rw [Full, hself] at h
    exact absurd h (List.cons_ne_nil _ _)
  rw [hi.kfree_eq hp ho, ← hb] at hr
  split_ifs at hr with hlast
  · obtain ⟨sys, -, rfl⟩ := Option.map_eq_some_iff.1 hr
    exact ⟨Or.inl ⟨hlast, fun _ => rfl⟩, hother, hfree⟩
  · cases hr
    refine ⟨Or.inr fun j => ?_, hother, hfree⟩
    have hindex : (b.head page).index = k := by
      rw [hself]
      exact (hi.slabs k page hp).index
    simp only [Slab.listMove, Slab.listAdd, Slab.listDel, hindex]
    by_cases hj : j = k
    · rw [if_pos hj, if_pos hj]
      rfl
    · rw [if_neg hj, if_neg hj]
      exact List.erase_of_not_mem fun h => hj (hi.class_unique h hp)

/-! ## Counting the live blocks -/

theorem carveLoop_length (page page' : Word) (objSize offset : ℕ) (l l' : List Word) (h : l.length = l'.length) :
    (carveLoop page objSize offset l).length = (carveLoop page' objSize offset l').length := by
  induction offset, l using carveLoop.induct page objSize generalizing l' with
  | case1 offset l hc ih =>
    have h1 := carveLoop.eq_def page objSize offset l
    have h2 := carveLoop.eq_def page' objSize offset l'
    rw [h1, h2, if_pos hc, if_pos hc]
    refine ih _ ?_
    rw [List.length_cons, List.length_cons, h]
  | case2 offset l hc => rw [carveLoop, if_neg hc, carveLoop, if_neg hc, h]

/-- the objects in use of a full page -/
theorem full_length (hi : SlabInv L m) (hp : page ∈ m.slab.pageList k) (hfull : Full m.slab page) :
    (m.slab.head page).usedList.length = perPage k := by
  have hlen := (hi.slabs k page hp).objs.length_eq
  rw [show (m.slab.head page).freeList = [] from hfull, List.append_nil] at hlen
  exact hlen.trans (carveLoop_length page 0 _ _ [] [] rfl)

/-- the page of a live block is on the list of its class -/
def Classed (s : Slots) : Prop := ∀ x ∈ s.kmem.live, pageFloor x.1 ∈ s.kmem.slab.pageList (kmallocIndex x.2).toNat

theorem liveOf_eq {s : Slots} (hi : SlotInv L s) (hc : Classed s) (k : ℕ) :
    liveOf s.kmem k = ((s.kmem.slab.pageList k).map fun p => (s.kmem.slab.head p).usedList.length).sum := by
  set l := (s.kmem.live.filter fun x => (kmallocIndex x.2).toNat = k).map Prod.fst with hl
  set objs := (s.kmem.slab.pageList k).flatMap fun p =>
    (s.kmem.slab.head p).usedList.map fun o => o + BitVec.ofNat 32 sizeofObjHead with hobjs
  have hnd : l.Nodup := hi.nodup.sublist (List.filter_sublist.map _)
  have hnd' : objs.Nodup := by
    refine List.nodup_flatMap.2 ⟨fun p hp => ?_, List.Pairwise.imp_of_mem (fun {p q} hp hq hne => ?_) (hi.slab.once k)⟩
    · have hused := (List.nodup_append.1 ((hi.slab.slabs k p hp).objs.nodup_iff.2 (initPage_nodup p k))).1
      exact hused.map fun o o' he => (BitVec.add_left_inj _).1 he
    · -- the address of an object tells its page
      intro a ha ha'
      obtain ⟨o, ho, rfl⟩ := List.mem_map.1 ha
      obtain ⟨o', ho', he⟩ := List.mem_map.1 ha'
      have hfloor := hi.floor hq ho'
      rw [he, hi.floor hp ho] at hfloor
      exact hne hfloor
  have hmem : ∀ a, a ∈ l ↔ a ∈ objs := by
    intro a
    simp only [hl, hobjs, List.mem_map, List.mem_filter, List.mem_flatMap, decide_eq_true_eq]
    constructor
    · rintro ⟨x, ⟨hx, rfl⟩, rfl⟩
      obtain ⟨j, p, hp, o, ho, hxo⟩ := hi.block (List.mem_map_of_mem hx)
      have hin := hc x hx
      rw [hxo, hi.floor hp ho] at hin
      exact ⟨p, hin, o, ho, hxo.symm⟩
    · rintro ⟨p, hp, o, ho, rfl⟩
      obtain ⟨x, hx, hxo⟩ := List.mem_map.1 (hi.live k p hp o ho)
      have hin := hc x hx
      rw [hxo, hi.floor hp ho] at hin
      exact ⟨x, ⟨hx, hi.slab.class_unique hin hp⟩, hxo⟩
  have hlen := ((List.perm_ext_iff_of_nodup hnd hnd').2 hmem).length_eq
  rw [hl, List.length_map, ← List.countP_eq_length_filter] at hlen
  rw [liveOf, hlen, hobjs, List.length_flatMap]
  simp only [List.length_map]

/-- full pages: as many blocks as fit -/
theorem liveOf_full {s : Slots} (hi : SlotInv L s) (hc : Classed s)
    (hfull : ∀ page ∈ s.kmem.slab.pageList k, Full s.kmem.slab page) :
    liveOf s.kmem k = (s.kmem.slab.pageList k).length * perPage k := by
  have hmap : (s.kmem.slab.pageList k).map (fun p => (s.kmem.slab.head p).usedList.length) =
      (s.kmem.slab.pageList k).map fun _ => perPage k :=
    List.map_congr_left fun p hp => full_length (m := sizeless s.kmem) hi.slab hp (hfull p hp)
  rw [liveOf_eq hi hc, hmap, List.map_const', List.sum_replicate, smul_eq_mul]

/-! ## The invariant -/

/-- **The invariant.** On every list the full pages come last. -/
structure OrderInv (L : Layout) (s : Peaks) : Prop where
  slots : SlotInv L s.slots
  classed : Classed s.slots
  order : ∀ k, (s.slots.kmem.slab.pageList k).Pairwise fun p q => Full s.slots.kmem.slab p → Full s.slots.kmem.slab q
  pages : ∀ k n, s.peak k ≤ n * perPage k → (s.slots.kmem.slab.pageList k).length ≤ n

/-- with no free object on the first page, there is none on the list -/
theorem full_of_first (hord : (b.pageList k).Pairwise fun p q => Full b p → Full b q) (hnone : pageWithFree b k = none) :
    ∀ page ∈ b.pageList k, Full b page := by
  unfold pageWithFree at hnone
  split at hnone
  · rename_i hl
    intro page hp
    rw [hl] at hp
    exact absurd hp List.not_mem_nil
  · rename_i first rest hl
    split_ifs at hnone with hfirst
    rw [hl] at hord ⊢
    intro page hp
    rcases List.mem_cons.1 hp with rfl | hp
    · exact hfirst
    · exact (List.pairwise_cons.1 hord).1 page hp hfirst

theorem OrderInv.frugal (hi : OrderInv L s) : Frugal s :=
  ⟨fun _ hasks => full_of_first (hi.order _) hasks.2, hi.pages⟩

/-- the peaks only rise -/
theorem next_peak (s : Peaks) (t : Slots) (k : ℕ) : s.peak k ≤ (s.next t).peak k ∧ liveOf t.kmem k ≤ (s.next t).peak k :=
  ⟨le_max_left _ _, le_max_right _ _⟩

/-- a step that leaves the slabs and the live blocks alone -/
theorem OrderInv.same (hi : OrderInv L s) {t : Slots} (ht : SlotInv L t) (hslab : t.kmem.slab = s.slots.kmem.slab)
    (hlive : t.kmem.live = s.slots.kmem.live) : OrderInv L (s.next t) := by
  obtain ⟨-, hclass, hord, hpages⟩ := hi
  refine ⟨ht, fun x hx => ?_, fun k => ?_, fun k n hn => ?_⟩
  · show _ ∈ t.kmem.slab.pageList _
    rw [hslab]
    exact hclass x (hlive ▸ hx)
  · show (t.kmem.slab.pageList k).Pairwise fun p q => Full t.kmem.slab p → Full t.kmem.slab q
    rw [hslab]
    exact hord k
  · show (t.kmem.slab.pageList k).length ≤ n
    rw [hslab]
    exact hpages k n ((next_peak s t k).1.trans hn)

/-! ## One step -/

theorem kmalloc_step (hi : SlotInv L s.slots) {t : Slots} (hs : (slotSystem L).step s.slots (.kmalloc size) t) :
    kmallocIndex size ≠ -1 ∧ ((t = s.slots ∧ pageWithFree s.slots.kmem.slab (kmallocIndex size).toNat = none) ∨
      ∃ page o rest, t.kmem.live = (o + BitVec.ofNat 32 sizeofObjHead, size) :: s.slots.kmem.live ∧
        Fetched s.slots.kmem.slab t.kmem.slab (kmallocIndex size).toNat page o rest) := by
  obtain ⟨-, hs, hothers⟩ := hs
  have hix : kmallocIndex size ≠ -1 := by
    intro he
    simp [call, kmalloc, he] at hs
  refine ⟨hix, ?_⟩
  rcases kmalloc_fetched hi.slab hix with ⟨he, hnone⟩ | ⟨page, o, rest, sys, b, he, hf⟩
  · change kmalloc L s.slots.kmem.sys s.slots.kmem.slab size = _ at he
    rw [call, he, Option.map_some, Option.some.injEq] at hs
    obtain ⟨m, others⟩ := t
    cases hs
    cases hothers
    exact Or.inl ⟨rfl, hnone⟩
  · change kmalloc L s.slots.kmem.sys s.slots.kmem.slab size = _ at he
    rw [call, he, Option.map_some, Option.some.injEq] at hs
    refine Or.inr ⟨page, o, rest, ?_, ?_⟩
    · rw [← hs]
    · rw [← hs]
      exact hf

theorem kmalloc_order (hi : OrderInv L s) (hok : keepsFirst s (.kmalloc size)) {t : Slots}
    (hs : (slotSystem L).step s.slots (.kmalloc size) t) : OrderInv L (s.next t) := by
  have ht := kmalloc_slots hi.slots hs
  obtain ⟨-, ⟨rfl, -⟩ | ⟨page, o, rest, hlive, hf⟩⟩ := kmalloc_step hi.slots hs
  · exact hi.same ht rfl rfl
  have hsame : ∀ p, p ≠ page → (Full t.kmem.slab p ↔ Full s.slots.kmem.slab p) := fun p hne => by
    rw [Full, Full, hf.heads p hne]
  have hk : t.kmem.slab.pageList (kmallocIndex size).toNat = page :: rest := (hf.lists _).trans (if_pos rfl)
  have hout : page ∉ rest := by
    have hnd := ht.slab.once (kmallocIndex size).toNat
    change (t.kmem.slab.pageList _).Nodup at hnd
    rw [hk] at hnd
    exact (List.nodup_cons.1 hnd).1
  have hsub : ∀ j, s.slots.kmem.slab.pageList j ⊆ t.kmem.slab.pageList j := fun j => by
    rw [hf.lists j]
    split_ifs with hj
    · subst hj
      rcases hf.from_list with ⟨hl, -⟩ | ⟨hl, -⟩
      · exact hl ▸ List.Subset.refl _
      · exact hl ▸ List.subset_cons_self _ _
    · exact List.Subset.refl _
  -- the pages behind the first one keep their order
  have hrest : rest.Pairwise (fun p q => Full s.slots.kmem.slab p → Full s.slots.kmem.slab q) ∧
      (Full t.kmem.slab page → ∀ q ∈ rest, Full s.slots.kmem.slab q) := by
    have hord := hi.order (kmallocIndex size).toNat
    rcases hf.from_list with ⟨hl, hfree⟩ | ⟨hl, hnone⟩
    · refine ⟨(List.pairwise_cons.1 (hl ▸ hord)).2, fun hfull => hok page rest o hl ?_⟩
      rw [hfree, hfull]
    · refine ⟨hl ▸ hord, fun _ q hq => full_of_first hord hnone q (hl ▸ hq)⟩
  refine ⟨ht, fun x hx => ?_, fun j => ?_, fun j n hn => ?_⟩
  · change x ∈ t.kmem.live at hx
    rw [hlive] at hx
    rcases List.mem_cons.1 hx with rfl | hx
    · show pageFloor (o + BitVec.ofNat 32 sizeofObjHead) ∈ _
      have hp : page ∈ t.kmem.slab.pageList (kmallocIndex size).toNat := hk ▸ List.mem_cons_self
      rw [ht.floor hp hf.used]
      exact hp
    · exact hsub _ (hi.classed x hx)
  · show (t.kmem.slab.pageList j).Pairwise fun p q => Full t.kmem.slab p → Full t.kmem.slab q
    by_cases hj : j = (kmallocIndex size).toNat
    · subst hj
      rw [hk]
      refine List.pairwise_cons.2 ⟨fun q hq hfull => ?_, hrest.1.imp_of_mem fun {p q} hp hq h => ?_⟩
      · exact (hsame q fun he => hout (he ▸ hq)).2 (hrest.2 hfull q hq)
      · rw [hsame p fun he => hout (he ▸ hp), hsame q fun he => hout (he ▸ hq)]
        exact h
    · have hold : t.kmem.slab.pageList j = s.slots.kmem.slab.pageList j := (hf.lists j).trans (if_neg hj)
      have hne : ∀ p ∈ s.slots.kmem.slab.pageList j, p ≠ page := fun p hp he => by
        have hp' : p ∈ t.kmem.slab.pageList j := hold ▸ hp
        exact hj (ht.slab.class_unique hp' (he ▸ hk ▸ List.mem_cons_self))
      rw [hold]
      refine (hi.order j).imp_of_mem fun {p q} hp hq h => ?_
      rw [hsame p (hne p hp), hsame q (hne q hq)]
      exact h
  · show (t.kmem.slab.pageList j).length ≤ n
    have hpeak := next_peak s t j
    by_cases hj : j = (kmallocIndex size).toNat
    · subst hj
      rcases hf.from_list with ⟨hl, -⟩ | ⟨hl, hnone⟩
      · rw [hk, ← hl]
        exact hi.pages _ n (hpeak.1.trans hn)
      · -- all pages are full and this block is one more
        have hcount : liveOf t.kmem (kmallocIndex size).toNat = liveOf s.slots.kmem (kmallocIndex size).toNat + 1 := by
          rw [liveOf, hlive]
          exact List.countP_cons_of_pos (decide_eq_true rfl)
        rw [liveOf_full hi.slots hi.classed (full_of_first (hi.order _) hnone), hl] at hcount
        have hlt : rest.length * perPage (kmallocIndex size).toNat < n * perPage (kmallocIndex size).toNat := by
          have := hpeak.2.trans hn
          omega
        rw [hk, List.length_cons]
        exact lt_of_mul_lt_mul_right hlt (Nat.zero_le _)
    · rw [hf.lists j, if_neg hj]
      exact hi.pages j n (hpeak.1.trans hn)

theorem kfree_order (hi : OrderInv L s) {t : Slots} (hs : (slotSystem L).step s.slots (.kfree addr) t) :
    OrderInv L (s.next t) := by
  have ht := kfree_slots hi.slots hs
  obtain ⟨⟨size, hl⟩, hs, hothers⟩ := hs
  obtain ⟨k, page, hp, o, ho, rfl⟩ := hi.slots.block (List.mem_map_of_mem hl)
  obtain ⟨r, hr, he⟩ := Option.map_eq_some_iff.1 hs
  have hf : Emptied s.slots.kmem.slab r.2 k page o := kfree_emptied hi.slots.slab hp ho hr
  have hslab : t.kmem.slab = r.2 := by rw [← he]
  have hlive : t.kmem.live = s.slots.kmem.live.filter fun x => x.1 ≠ o + BitVec.ofNat 32 sizeofObjHead := by rw [← he]
  rw [← hslab] at hf
  have hnd := hi.slots.slab.once
  change ∀ j, (s.slots.kmem.slab.pageList j).Nodup at hnd
  have hsame : ∀ p, p ≠ page → (Full t.kmem.slab p ↔ Full s.slots.kmem.slab p) := fun p hne => by
    rw [Full, Full, hf.heads p hne]
  have herase : ∀ j, ((s.slots.kmem.slab.pageList j).erase page).Pairwise fun p q => Full t.kmem.slab p →
      Full t.kmem.slab q :=
    fun j => ((hi.order j).sublist List.erase_sublist).imp_of_mem fun {p q} hp hq h => by
      rw [hsame p ((hnd j).mem_erase_iff.1 hp).1, hsame q ((hnd j).mem_erase_iff.1 hq).1]
      exact h
  refine ⟨ht, fun x hx => ?_, fun j => ?_, fun j n hn => ?_⟩
  · change x ∈ t.kmem.live at hx
    rw [hlive, List.mem_filter, decide_eq_true_eq] at hx
    have hin := hi.classed x hx.1
    show pageFloor x.1 ∈ t.kmem.slab.pageList _
    rcases hf.lists with ⟨hlast, hlists⟩ | hlists
    · -- no other live block is in the page
      have hne := (hi.slots.last_iff hp ho).1 hlast x.1 (List.mem_map_of_mem hx.1) hx.2
      rw [hi.slots.floor hp ho] at hne
      rw [hlists]
      exact (List.mem_erase_of_ne hne).2 hin
    · rw [hlists]
      split_ifs with hj
      · by_cases hpx : pageFloor x.1 = page
        · rw [hpx]
          exact List.mem_cons_self
        · exact List.mem_cons_of_mem _ ((List.mem_erase_of_ne hpx).2 hin)
      · exact hin
  · show (t.kmem.slab.pageList j).Pairwise fun p q => Full t.kmem.slab p → Full t.kmem.slab q
    rcases hf.lists with ⟨-, hlists⟩ | hlists
    · rw [hlists]
      exact herase j
    · rw [hlists]
      split_ifs with hj
      · exact List.pairwise_cons.2 ⟨fun q _ hfull => absurd hfull hf.free, herase j⟩
      · have hout : page ∉ s.slots.kmem.slab.pageList j := fun h => hj (hi.slots.slab.class_unique h hp)
        have hord := herase j
        rwa [List.erase_of_not_mem hout] at hord
  · show (t.kmem.slab.pageList j).length ≤ n
    refine le_trans ?_ (hi.pages j n ((next_peak s t j).1.trans hn))
    rcases hf.lists with ⟨-, hlists⟩ | hlists
    · rw [hlists]
      exact List.erase_sublist.length_le
    · rw [hlists]
      split_ifs with hj
      · subst hj
        rw [List.length_cons, List.length_erase_of_mem hp]
        have := List.length_pos_of_mem hp
        omega
      · exact le_rfl

theorem pages_order {op : Op} (hi : OrderInv L s) {t : Slots} (hs : (slotSystem L).step s.slots (.pages op) t) :
    OrderInv L (s.next t) := by
  have ht := pages_slots hi.slots hs
  obtain ⟨-, hs, -⟩ := hs
  obtain ⟨sys, -, he⟩ := Option.map_eq_some_iff.1 hs
  exact hi.same ht (by rw [← he]) (by rw [← he])

theorem order_inv (h : ((peakSystem L).only keepsFirst).Reach s) : OrderInv L s := by
  refine Lts.Reach.inv (M := (peakSystem L).only keepsFirst) (P := OrderInv L) (fun s ⟨h0, hpeak⟩ => ?_)
    (fun s c s' hi hs => ?_) h
  · have hslots := ready_slots h0.1 h0.2
    obtain ⟨-, ⟨b, hb⟩, hl⟩ := h0.1
    have hlists : ∀ k, s.slots.kmem.slab.pageList k = [] := fun k => by
      rw [hb]
      rfl
    refine ⟨hslots, fun x hx => ?_, fun k => ?_, fun k n _ => ?_⟩
    · rw [hl] at hx
      exact absurd hx List.not_mem_nil
    · rw [hlists]
      exact List.Pairwise.nil
    · rw [hlists]
      exact Nat.zero_le n
  · obtain ⟨hok, hs, he⟩ := hs
    rw [he]
    cases c with
    | kmalloc size => exact kmalloc_order hi hok hs
    | kfree addr => exact kfree_order hi hs
    | pages op => exact pages_order hi hs

/-! ## Every run -/

/-- a kmalloc that empties the first page in front of a page with a free object: the next one of its class asks for a page -/
theorem emptied_first {t : Slots} (hi : SlotInv L s.slots) (hs : (slotSystem L).step s.slots (.kmalloc size) t)
    (hfrugal : Frugal (s.next t)) : keepsFirst s (.kmalloc size) := by
  intro page rest o hl hlast q hq
  have hnd := hi.slab.once (kmallocIndex size).toNat
  change (s.slots.kmem.slab.pageList _).Nodup at hnd
  rw [hl] at hnd
  have hne : q ≠ page := fun he => (List.nodup_cons.1 hnd).1 (he ▸ hq)
  have hsome : pageWithFree s.slots.kmem.slab (kmallocIndex size).toNat = some page := by
    rw [pageWithFree, hl]
    exact if_neg (by rw [hlast]; exact List.cons_ne_nil _ _)
  obtain ⟨hix, ⟨-, hnone⟩ | ⟨page', o', rest', -, hf⟩⟩ := kmalloc_step hi hs
  · rw [hsome] at hnone
    cases hnone
  · rcases hf.from_list with ⟨hl', hfree⟩ | ⟨-, hnone⟩
    · obtain ⟨rfl, rfl⟩ := List.cons.inj (hl.symm.trans hl')
      have hk : t.kmem.slab.pageList (kmallocIndex size).toNat = page :: rest := (hf.lists _).trans (if_pos rfl)
      have hfull : (t.kmem.slab.head page).freeList = [] := (List.cons.inj (hlast.symm.trans hfree)).2.symm
      have hasks : AsksPage t.kmem.slab size := by
        refine ⟨hix, ?_⟩
        rw [pageWithFree, hk]
        exact if_pos hfull
      have hq' : q ∈ t.kmem.slab.pageList (kmallocIndex size).toNat := hk ▸ List.mem_cons_of_mem _ hq
      have hfq := hfrugal.fresh size hasks q hq'
      rwa [Full, ← hf.heads q hne]
    · rw [hsome] at hnone
      cases hnone

/-- **Fresh pages.** In every run of kmalloc, kfree and other users of the pages in which no kmalloc hands out the last free
object of the first page of its class while another page of the class has a free one, a page is asked for only when all pages
of the class are full, and each class has at most the pages that its peak of live blocks needs. The condition is exact: the
first step against it leads to a state in which kmalloc asks for a page in front of a free object. -/
theorem frugal_iff (h : ((peakSystem L).only keepsFirst).Reach s) :
    Frugal s ∧ ∀ c s', (peakSystem L).step s c s' → (Frugal s' ↔ keepsFirst s c) := by
  refine ⟨(order_inv h).frugal, fun c s' hs => ⟨fun hfrugal => ?_, fun hok => (order_inv (.step h ⟨hok, hs⟩)).frugal⟩⟩
  obtain ⟨hs, he⟩ := hs
  rw [he] at hfrugal
  cases c with
  | kmalloc size => exact emptied_first (order_inv h).slots hs hfrugal
  | kfree addr => trivial
  | pages op => trivial

/-! ## A machine with six pages -/

local instance lawful_words : LawfulBEq Word := inferInstance

/-- kmalloc and kfree as a function of the state -/
def callBlocks (L : Layout) (s : Peaks) (c : Call) : Option Peaks := (callSlots L s.slots c).map s.next

theorem callBlocks_step (s : Peaks) (c : Call) (s' : Peaks) (h : callBlocks L s c = some s') : (peakSystem L).step s c s' := by
  obtain ⟨t, ht, rfl⟩ := Option.map_eq_some_iff.1 h
  exact ⟨callSlots_step s.slots c t ht, rfl⟩

/-- a class with one page -/
theorem keepsFirst_of_single (h : (s.slots.kmem.slab.pageList (kmallocIndex size).toNat).length ≤ 1) :
    keepsFirst s (.kmalloc size) := by
  intro page rest o hl _ q hq
  rw [hl, List.length_cons] at h
  rw [List.length_eq_zero_iff.1 (by omega : rest.length = 0)] at hq
  exact absurd hq List.not_mem_nil

def smallPeaks : Peaks := ⟨⟨smallKmem, smallKmem.sys.live⟩, fun _ => 0⟩

theorem start_small : (peakSystem Layout.small).start smallPeaks := ⟨⟨ready_small, rfl⟩, rfl⟩

/-- the first seven blocks of 512 bytes come from one page -/
theorem only_blocks (n : ℕ) (hn : n ≤ 8) :
    ∀ s, (List.replicate n (.kmalloc 512#32)).foldlM (callBlocks Layout.small) smallPeaks = some s →
    ((peakSystem Layout.small).only keepsFirst).Reach s := by
  have hsingle : ∀ n < 8, ∀ s ∈ (List.replicate n (.kmalloc 512#32)).foldlM (callBlocks Layout.small) smallPeaks,
      (s.slots.kmem.slab.pageList (kmallocIndex 512#32).toNat).length ≤ 1 := by decide +kernel
  induction n with
  | zero =>
    intro s hs
    obtain rfl := Option.some.inj hs
    exact .start start_small
  | succ n ih =>
    intro s hs
    rw [List.replicate_succ', List.foldlM_append] at hs
    obtain ⟨u, hu, hus⟩ := Option.bind_eq_some_iff.1 hs
    rw [List.foldlM_cons] at hus
    obtain ⟨t, ht, hts⟩ := Option.bind_eq_some_iff.1 hus
    obtain rfl := Option.some.inj hts
    exact .step (ih (by omega) u hu) ⟨keepsFirst_of_single (hsingle n (by omega) u hu), callBlocks_step u _ t ht⟩

def eight : Peaks := ((List.replicate 8 (Call.kmalloc 512#32)).foldlM (callBlocks Layout.small) smallPeaks).get
    (by decide +kernel)

def seven : Peaks := (callBlocks Layout.small eight (.kfree 0xC1004024#32)).get (by decide +kernel)

/-- Eight blocks are in two pages, and the free of one of the first page leaves the class with its peak and its pages. -/
theorem frugal_small : Frugal eight ∧ Frugal seven ∧ (eight.slots.kmem.slab.pageList 5).length = 2 ∧
    (seven.slots.kmem.slab.pageList 5).length = 2 ∧ seven.peak 5 = 8 := by
  have height := only_blocks 8 le_rfl eight (Option.some_get _).symm
  have hseven : ((peakSystem Layout.small).only keepsFirst).Reach seven :=
    .step (e := .kfree 0xC1004024#32) height ⟨trivial, callBlocks_step eight _ seven (Option.some_get _).symm⟩
  exact ⟨(frugal_iff height).1, (frugal_iff hseven).1, by decide +kernel, by decide +kernel, by decide +kernel⟩

/-- eight blocks of 512 bytes, of which seven fill the first page, then the free of one of these and a kmalloc that gets it
back -/
def spoiling : List Call := List.replicate 8 (.kmalloc 512#32) ++ [.kfree 0xC1004024#32, .kmalloc 512#32]

def spoiled : Peaks := (spoiling.foldlM (callBlocks Layout.small) smallPeaks).get (by decide +kernel)

def spoiled' : Peaks := ((spoiling ++ [Call.kmalloc 512#32]).foldlM (callBlocks Layout.small) smallPeaks).get (by decide +kernel)

/-- After eight blocks, a free and a kmalloc the full page is the first of its list, and kmalloc asks for a page although the
second one has free objects. The next block makes three pages, where nine blocks need two. -/
theorem third_page :
    ((peakSystem Layout.small).Reach spoiled ∧ AsksPage spoiled.slots.kmem.slab 512#32 ∧
      ∃ page ∈ spoiled.slots.kmem.slab.pageList (kmallocIndex 512#32).toNat, ¬ Full spoiled.slots.kmem.slab page) ∧
    (peakSystem Layout.small).Reach spoiled' ∧ spoiled'.peak 5 ≤ 2 * perPage 5 ∧
      (spoiled'.slots.kmem.slab.pageList 5).length = 3 := by
  have hreach : ∀ (cs : List Call) s, cs.foldlM (callBlocks Layout.small) smallPeaks = some s →
      (peakSystem Layout.small).Reach s := fun cs s => Lts.Reach.fold callBlocks_step (.start start_small)
  have hasks : AsksPage spoiled.slots.kmem.slab 512#32 := ⟨by decide +kernel, by decide +kernel⟩
  have hpage : 0xC1005000#32 ∈ spoiled.slots.kmem.slab.pageList (kmallocIndex 512#32).toNat := by decide +kernel
  have hfree : ¬ Full spoiled.slots.kmem.slab 0xC1005000#32 := by
    have hne : (spoiled.slots.kmem.slab.head 0xC1005000#32).freeList ≠ [] := by decide +kernel
    exact hne
  have hpeak : spoiled'.peak 5 ≤ 2 * perPage 5 := by decide +kernel
  have hlength : (spoiled'.slots.kmem.slab.pageList 5).length = 3 := by decide +kernel
  exact ⟨⟨hreach _ _ (Option.some_get _).symm, hasks, _, hpage, hfree⟩, hreach _ _ (Option.some_get _).symm,
    hpeak, hlength⟩

end SinsOs.KmallocRun
