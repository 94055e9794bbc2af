/-
The slots of kmalloc over whole runs, whatever the sizes: every slot that init_page lays out is on one list of its page, used
slots are the live blocks, and pages come and go with them. The other users take pages at any time, so that get_free_page
fails at any point.

- `slots_reachable`: the lists of the slab pages, what kmalloc and kfree change, and that no page is lost.
-/
import SinsOs.Mm.KmallocRun

namespace SinsOs.KmallocRun

open SinsOs.Core SinsOs.Bits SinsOs.Mm SinsOs.PageAlloc SinsOs.BuddyRun SinsOs.Kmalloc

/-! ## Model -/

/-- kmalloc, and the blocks of pages that its other users hold -/
structure Slots where
  kmem : Kmem
  others : List (ℕ × ℕ)

local instance lawful_block : LawfulBEq (ℕ × ℕ) := inferInstance

/-- what the other users hold after a step of theirs: what is still out of it, and what is newly out -/
def othersAfter (s : Slots) (sys : Sys) : Call → List (ℕ × ℕ)
  | .pages _ => sys.live.filter fun x => x ∈ s.others ∨ x ∉ s.kmem.sys.live
  | .kmalloc _ | .kfree _ => s.others

def slotSystem (L : Layout) : Lts Slots Call where
  start := fun s => Ready L s.kmem ∧ s.others = s.kmem.sys.live
  step := fun s c s' => callLegal L s.kmem c ∧ call L s.kmem c = some s'.kmem ∧ s'.others = othersAfter s s'.kmem.sys c

variable {L : Layout} {s s' : Slots} {m m' : Kmem} {k : ℕ} {page o addr size : Word}

/-! ## What kmalloc and kfree change -/

/-- the block of one page that kmalloc holds for a page on its lists -/
def Mine (L : Layout) (b : Slab) (x : ℕ × ℕ) : Prop :=
  ∃ k, ∃ page ∈ b.pageList k, L.virtToPage page = some x.1 ∧ x.2 = 0

/-- fetching an object leaves the pages on their lists -/
theorem fetchObj_effect (hi : SlabInv L m) (hp : page ∈ m.slab.pageList k) (hfree : (m.slab.head page).freeList ≠ []) :
    ∃ o b, fetchObj m.slab page = some (o + BitVec.ofNat 32 sizeofObjHead, b) ∧
      (∀ j p, p ∈ b.pageList j ↔ p ∈ m.slab.pageList j) ∧
      ∀ p, (b.head p).usedList = if p = page then o :: (m.slab.head page).usedList else (m.slab.head p).usedList := by
  cases hf : (m.slab.head page).freeList with
  | nil => exact absurd hf hfree
  | cons fetch rest =>
    set b := m.slab.setHead page ⟨(m.slab.head page).index, fetch :: (m.slab.head page).usedList, rest⟩ with hb
    have hself : b.head page = ⟨(m.slab.head page).index, fetch :: (m.slab.head page).usedList, rest⟩ := if_pos rfl
    have hused : ∀ p, (b.head p).usedList =
        if p = page then fetch :: (m.slab.head page).usedList else (m.slab.head p).usedList := fun p => by
      by_cases hpp : p = page
      · rw [hpp, hself, if_pos rfl]
      · rw [if_neg hpp]
        exact congrArg PageHead.usedList (if_neg hpp)
    have hindex : (b.head page).index = k := by
      rw [hself]
      exact (hi.slabs k page hp).index
    have hres : fetchObj m.slab page =
        some (fetch + BitVec.ofNat 32 sizeofObjHead, if rest = [] then b.listMove page else b) := by
      simp only [fetchObj, hf, hb]
    refine ⟨fetch, _, hres, ?_, ?_⟩
    · intro j p
      split_ifs
      · refine mem_listMove (b := b) hi.once (by rw [hindex]; exact hp) (fun i hin => ?_) j p
        rw [hindex, ← (hi.slabs i page hin).index]
        exact (hi.slabs k page hp).index
      · exact Iff.rfl
    · intro p
      rw [← hused p]
      split_ifs
      · rfl
      · rfl

/-- what a kmalloc that returns the object o has changed -/
structure Handed (L : Layout) (m : Kmem) (sys : Sys) (b : Slab) (o : Word) : Prop where
  used : ∀ j, ∀ p ∈ b.pageList j, o ∈ (b.head p).usedList ∨ p ∈ m.slab.pageList j ∧
    (b.head p).usedList = (m.slab.head p).usedList
  only : ∀ j, ∀ p ∈ b.pageList j, ∀ x ∈ (b.head p).usedList, x = o ∨ p ∈ m.slab.pageList j ∧
      x ∈ (m.slab.head p).usedList
  taken : (sys = m.sys ∧ ∀ x, Mine L b x ↔ Mine L m.slab x) ∨
    ∃ d, (d, 0) ∉ m.sys.live ∧ sys.live = (d, 0) :: m.sys.live ∧ ∀ x, Mine L b x ↔ x = (d, 0) ∨ Mine L m.slab x

theorem kmalloc_effect (hi : SlabInv L m) (hix : kmallocIndex size ≠ -1) :
    kmalloc L m.sys m.slab size = some (none, m.sys, m.slab) ∨ ∃ o sys b,
      kmalloc L m.sys m.slab size = some (some (o + BitVec.ofNat 32 sizeofObjHead), sys, b) ∧ Handed L m sys b o := by
  have hk := class_of_index hix
  rw [kmalloc, if_neg hix]
  generalize (kmallocIndex size).toNat = k at hk ⊢
  cases hpf : pageWithFree m.slab k with
  | some page =>
    obtain ⟨hp, hfree⟩ := pageWithFree_some hpf
    obtain ⟨o, b, hfetch, hlists, hused⟩ := fetchObj_effect hi hp hfree
    refine Or.inr ⟨o, m.sys, b, by simp only [hfetch, Option.map_some], fun j p hpj => ?_, fun j p hpj x hx => ?_,
      Or.inl ⟨rfl, ?_⟩⟩
    · rw [hused p]
      split_ifs
      · exact Or.inl List.mem_cons_self
      · exact Or.inr ⟨(hlists j p).1 hpj, rfl⟩
    · rw [hused p] at hx
      split_ifs at hx with hpp
      · rcases List.mem_cons.1 hx with rfl | hx
        · exact Or.inl rfl
        · exact Or.inr ⟨(hlists j p).1 hpj, hpp ▸ hx⟩
      · exact Or.inr ⟨(hlists j p).1 hpj, hx⟩
    · intro x
      simp only [Mine, hlists]
  | none =>
    obtain ⟨r, hr, hir, hcase⟩ := getFreePage_spec hi.pages
    simp only [hr, Option.bind_some]
    rcases hcase with ⟨h1, h2⟩ | ⟨z, hz, d, hd, h1, h2⟩
    · simp only [h1, h2]
      exact Or.inl trivial
    · have hg := hi.grow hk hir hz hd h2
      set new := va (L.physAddr z d) with hnew
      set grown := (m.slab.setHead new (initPage new k)).listAdd new k with hgrown
      have hlist : ∀ j p, p ∈ grown.pageList j ↔ (j = k ∧ p = new) ∨ p ∈ m.slab.pageList j := by
        intro j p
        simp only [hgrown, Slab.listAdd, Slab.setHead]
        by_cases hj : j = k <;> simp [hj]
      have hhead : ∀ p, grown.head p = if p = new then initPage new k else m.slab.head p := fun _ => rfl
      have hfree : (grown.head new).freeList ≠ [] := by
        rw [hhead, if_pos rfl]
        exact initPage_free new hk
      obtain ⟨o, b, hfetch, hlists, hused⟩ := fetchObj_effect hg ((hlist k new).2 (Or.inl ⟨rfl, rfl⟩)) hfree
      have hempty : (grown.head new).usedList = [] := by
        rw [hhead, if_pos rfl]
        rfl
      have hold : ∀ j p, p ∈ b.pageList j → p ≠ new → p ∈ m.slab.pageList j ∧
          (b.head p).usedList = (m.slab.head p).usedList := fun j p hpj hne => by
        refine ⟨((hlist j p).1 ((hlists j p).1 hpj)).resolve_left fun h => hne h.2, ?_⟩
        rw [hused p, if_neg hne, hhead, if_neg hne]
      have hfresh : (b.head new).usedList = [o] := by rw [hused, if_pos rfl, hempty]
      have hdesc : L.virtToPage new = some (L.base z + d) := (L.pageToVirt_eq hz hd).2.1
      have hcall : fetchObj grown new = some (o + BitVec.ofNat 32 sizeofObjHead, b) := hfetch
      have hres : (fetchObj grown new).map (fun q => (some q.1, r.2, q.2)) =
          some (some (o + BitVec.ofNat 32 sizeofObjHead), r.2, b) := by rw [hcall, Option.map_some]
      refine Or.inr ⟨o, r.2, b, by simp only [h1]; exact hres, fun j p hpj => ?_, fun j p hpj x hx => ?_,
        Or.inr ⟨L.base z + d, ?_, h2, fun x => ?_⟩⟩
      · by_cases hpp : p = new
        · rw [hpp, hfresh]
          exact Or.inl List.mem_cons_self
        · exact Or.inr (hold j p hpj hpp)
      · by_cases hpp : p = new
        · rw [hpp, hfresh] at hx
          exact Or.inl (List.mem_singleton.1 hx)
        · obtain ⟨h3, h4⟩ := hold j p hpj hpp
          exact Or.inr ⟨h3, h4 ▸ hx⟩
      · have hnodup := hir.nodup
        rw [h2] at hnodup
        exact (List.nodup_cons.1 hnodup).1
      · simp only [Mine, hlists, hlist]
        constructor
        · rintro ⟨j, p, ⟨rfl, rfl⟩ | hp, h3, h4⟩
          · rw [hdesc] at h3
            exact Or.inl (Prod.ext (Option.some.inj h3).symm h4)
          · exact Or.inr ⟨j, p, hp, h3, h4⟩
        · rintro (rfl | ⟨j, p, hp, h3⟩)
          · exact ⟨k, new, Or.inl ⟨rfl, rfl⟩, hdesc, rfl⟩
          · exact ⟨j, p, Or.inr hp, h3⟩

/-- what a kfree of the object o of the page has changed -/
structure Freed (L : Layout) (m : Kmem) (page o : Word) (sys : Sys) (b : Slab) : Prop where
  pages : ∀ j p, p ∈ b.pageList j → p ∈ m.slab.pageList j ∧ (b.head p).usedList ≠ [] ∨
    p ∈ m.slab.pageList j ∧ (b.head p).usedList = (m.slab.head p).usedList
  only : ∀ j, ∀ p ∈ b.pageList j, ∀ x ∈ (b.head p).usedList,
    p ∈ m.slab.pageList j ∧ x ∈ (m.slab.head p).usedList ∧ (p = page → x ∈ (m.slab.head page).usedList.erase o)
  last : (m.slab.head page).usedList.erase o = [] → freePages L m.sys page 0 = some sys ∧
    ∃ d, Mine L m.slab (d, 0) ∧ sys.live = m.sys.live.erase (d, 0) ∧ ∀ x, Mine L b x ↔ x ≠ (d, 0) ∧ Mine L m.slab x
  more : (m.slab.head page).usedList.erase o ≠ [] → sys = m.sys ∧ ∀ x, Mine L b x ↔ Mine L m.slab x

theorem kfree_effect (hi : SlabInv L m) (hp : page ∈ m.slab.pageList k) (ho : o ∈ (m.slab.head page).usedList) :
    ∃ sys b, kfree L m.sys m.slab (o + BitVec.ofNat 32 sizeofObjHead) = some (sys, b) ∧ Freed L m page o sys b := by
  have hok := hi.slabs k page hp
  obtain ⟨z, hz, d, hd, hpage, hlive⟩ := hok.owned
  set b := m.slab.setHead page (released (m.slab.head page) o) with hb
  have hused : ∀ p, (b.head p).usedList = if p = page then (m.slab.head page).usedList.erase o else (m.slab.head p).usedList :=
    fun p => by
      by_cases hpp : p = page
      · rw [hpp, if_pos rfl]
        exact congrArg PageHead.usedList (if_pos rfl)
      · rw [if_neg hpp]
        exact congrArg PageHead.usedList (if_neg hpp)
  rw [hi.kfree_eq hp ho, ← hb]
  by_cases hlast : (m.slab.head page).usedList.erase o = []
  · obtain ⟨sys, hfree, -, hsys⟩ := freePage_spec hi.pages hz hd hlive
    have hlists : ∀ j p, p ∈ (b.listDel page).pageList j ↔ p ≠ page ∧ p ∈ m.slab.pageList j := fun j p =>
      (hi.once j).mem_erase_iff
    have hother : ∀ j p, p ∈ (b.listDel page).pageList j → (b.head p).usedList = (m.slab.head p).usedList := by
      intro j p hpj
      rw [hused p, if_neg ((hlists j p).1 hpj).1]
    rw [← hpage] at hfree
    have hdesc : L.virtToPage page = some (L.base z + d) := by
      rw [hpage]
      exact (L.pageToVirt_eq hz hd).2.1
    rw [if_pos hlast, hfree, Option.map_some]
    refine ⟨sys, b.listDel page, rfl, fun j p hpj => Or.inr ⟨((hlists j p).1 hpj).2, hother j p hpj⟩,
      fun j p hpj x hx => ?_, fun _ => ⟨hfree, L.base z + d, ⟨k, page, hp, hdesc, rfl⟩, hsys, fun x => ?_⟩,
        fun hne => absurd hlast hne⟩
    · obtain ⟨h1, h2⟩ := (hlists j p).1 hpj
      exact ⟨h2, hother j p hpj ▸ hx, fun he => absurd he h1⟩
    · simp only [Mine, hlists]
      constructor
      · rintro ⟨j, p, ⟨hne, hpj⟩, h3, h4⟩
        refine ⟨?_, j, p, hpj, h3, h4⟩
        rintro rfl
        -- two pages of kmalloc have two descriptors
        obtain ⟨z', hz', d', hd', hp', -⟩ := (hi.slabs j p hpj).owned
        rw [hp', (L.pageToVirt_eq hz' hd').2.1] at h3
        refine hne ?_
        rw [hp', hpage]
        exact (physAddr_inj hz' hd' hz hd).2 (Option.some.inj h3)
      · rintro ⟨hne, j, p, hpj, h3, h4⟩
        refine ⟨j, p, ⟨?_, hpj⟩, h3, h4⟩
        rintro rfl
        rw [hdesc] at h3
        exact hne (Prod.ext (Option.some.inj h3).symm h4)
  · have hindex : (b.head page).index = k := by
      rw [hb]
      show (if page = page then released (m.slab.head page) o else m.slab.head page).index = k
      rw [if_pos rfl]
      exact hok.index
    have hlists : ∀ j p, p ∈ (b.listMove page).pageList j ↔ p ∈ m.slab.pageList j := by
      refine mem_listMove (b := b) hi.once (by rw [hindex]; exact hp) fun i hin => ?_
      rw [hindex, ← (hi.slabs i page hin).index]
      exact hok.index
    rw [if_neg hlast]
    refine ⟨m.sys, b.listMove page, rfl, fun j p hpj => ?_, fun j p hpj x hx => ?_, fun he => absurd he hlast,
      fun _ => ⟨rfl, fun x => by simp only [Mine, hlists]⟩⟩
    · show _ ∧ (b.head p).usedList ≠ [] ∨ _ ∧ (b.head p).usedList = _
      rw [hused p]
      split_ifs
      · exact Or.inl ⟨(hlists j p).1 hpj, hlast⟩
      · exact Or.inr ⟨(hlists j p).1 hpj, rfl⟩
    · change x ∈ (b.head p).usedList at hx
      rw [hused p] at hx
      refine ⟨(hlists j p).1 hpj, ?_⟩
      split_ifs at hx with hpp
      · exact ⟨hpp ▸ List.mem_of_mem_erase hx, fun _ => hx⟩
      · exact ⟨hx, fun he => absurd he hpp⟩

/-! ## The invariant -/

/-- the live blocks without their sizes -/
def sizeless (m : Kmem) : Kmem := { m with live := m.live.map fun x => (x.1, 0) }

/-- **The invariant.** -/
structure SlotInv (L : Layout) (s : Slots) : Prop where
  slab : SlabInv L (sizeless s.kmem)
  used : ∀ k, ∀ page ∈ s.kmem.slab.pageList k, (s.kmem.slab.head page).usedList ≠ []
  live : ∀ k, ∀ page ∈ s.kmem.slab.pageList k, ∀ o ∈ (s.kmem.slab.head page).usedList,
    o + BitVec.ofNat 32 sizeofObjHead ∈ s.kmem.live.map Prod.fst
  taken : ∀ x, x ∈ s.kmem.sys.live ↔ x ∈ s.others ∨ Mine L s.kmem.slab x
  apart : ∀ x ∈ s.others, ¬ Mine L s.kmem.slab x

theorem sizeless_fst (m : Kmem) : (sizeless m).live.map Prod.fst = m.live.map Prod.fst := by
  rw [sizeless, List.map_map]
  rfl

/-- a live block is an object in use -/
theorem SlotInv.block (hi : SlotInv L s) (hl : addr ∈ s.kmem.live.map Prod.fst) : ∃ k, ∃ page ∈ s.kmem.slab.pageList k,
    ∃ o ∈ (s.kmem.slab.head page).usedList, addr = o + BitVec.ofNat 32 sizeofObjHead := by
  rw [← sizeless_fst] at hl
  obtain ⟨x, hx, rfl⟩ := List.mem_map.1 hl
  obtain ⟨k, page, hp, o, ho, haddr, -⟩ := hi.slab.live x hx
  exact ⟨k, page, hp, o, ho, haddr⟩

theorem SlotInv.nodup (hi : SlotInv L s) : (s.kmem.live.map Prod.fst).Nodup := sizeless_fst s.kmem ▸ hi.slab.nodup

/-- the page of an object, found from the address -/
theorem SlotInv.floor (hi : SlotInv L s) (hp : page ∈ s.kmem.slab.pageList k) (ho : o ∈ (s.kmem.slab.head page).usedList) :
    pageFloor (o + BitVec.ofNat 32 sizeofObjHead) = page :=
  ((hi.slab.slabs k page hp).address (List.mem_append_left _ ho)).2

/-- no live block left in the page: no object in use is left -/
theorem SlotInv.last_iff (hi : SlotInv L s) (hp : page ∈ s.kmem.slab.pageList k) (ho : o ∈ (s.kmem.slab.head page).usedList) :
    (s.kmem.slab.head page).usedList.erase o = [] ↔ ∀ addr ∈ s.kmem.live.map Prod.fst,
      addr ≠ o + BitVec.ofNat 32 sizeofObjHead → pageFloor addr ≠ pageFloor (o + BitVec.ofNat 32 sizeofObjHead) := by
  have hok := hi.slab.slabs k page hp
  have hnd : (s.kmem.slab.head page).usedList.Nodup :=
    (List.nodup_append.1 (hok.objs.nodup_iff.2 (initPage_nodup page k))).1
  rw [hi.floor hp ho]
  constructor
  · intro hlast addr haddr hne hfloor
    obtain ⟨j, q, hq, x, hx, rfl⟩ := hi.block haddr
    rw [hi.floor hq hx] at hfloor
    subst hfloor
    have hmem : x ∈ (s.kmem.slab.head q).usedList.erase o := hnd.mem_erase_iff.2 ⟨fun he => hne (by rw [he]), hx⟩
    rw [hlast] at hmem
    exact absurd hmem List.not_mem_nil
  · intro hall
    by_contra hne
    obtain ⟨x, hx⟩ := List.exists_mem_of_ne_nil _ hne
    obtain ⟨hxo, hx⟩ := hnd.mem_erase_iff.1 hx
    refine hall _ (hi.live k page hp x hx) (fun he => hxo ((BitVec.add_left_inj _).1 he)) (hi.floor hp hx)

/-! ## One call -/

theorem kmalloc_slots (hi : SlotInv L s) (hs : (slotSystem L).step s (.kmalloc size) s') : SlotInv L s' := by
  obtain ⟨-, hs, hothers⟩ := hs
  change s'.others = s.others at hothers
  have hix : kmallocIndex size ≠ -1 := by
    intro he
    simp [call, kmalloc, he] at hs
  obtain ⟨r, hr, hslab⟩ := kmalloc_spec hi.slab hix (show (0#32).toNat ≤ _ from Nat.zero_le _)
  change kmalloc L s.kmem.sys s.kmem.slab size = some r at hr
  rw [call, hr, Option.map_some, Option.some.injEq] at hs
  rcases kmalloc_effect hi.slab hix with he | ⟨o, sys, b, he, h⟩
  · change kmalloc L s.kmem.sys s.kmem.slab size = _ at he
    obtain rfl := Option.some.inj (hr.symm.trans he)
    obtain ⟨m, others⟩ := s'
    cases hs
    cases hothers
    exact hi
  · change kmalloc L s.kmem.sys s.kmem.slab size = _ at he
    obtain rfl := Option.some.inj (hr.symm.trans he)
    obtain ⟨m, others⟩ := s'
    cases hs
    cases hothers
    refine ⟨hslab, fun k page hp => ?_, fun k page hp x hx => ?_, fun x => ?_, fun x hx hmine => ?_⟩
    · rcases h.used k page hp with hin | ⟨hp, he⟩
      · exact List.ne_nil_of_mem hin
      · exact he ▸ hi.used k page hp
    · rcases h.only k page hp x hx with rfl | ⟨hp, hx⟩
      · exact List.mem_cons_self
      · exact List.mem_cons_of_mem _ (hi.live k page hp x hx)
    · rcases h.taken with ⟨hsys, hmine⟩ | ⟨d, -, hlive, hmine⟩
      · show x ∈ sys.live ↔ _
        rw [hsys, hmine]
        exact hi.taken x
      · show x ∈ sys.live ↔ _
        rw [hlive, hmine, List.mem_cons, or_left_comm]
        exact or_congr_right (hi.taken x)
    · rcases h.taken with ⟨-, hiff⟩ | ⟨d, hnew, -, hiff⟩
      · exact hi.apart x hx ((hiff x).1 hmine)
      · rcases (hiff x).1 hmine with rfl | hmine
        · exact hnew ((hi.taken _).2 (Or.inl hx))
        · exact hi.apart x hx hmine

/-- the addresses that stay live -/
theorem live_filter (l : List (Word × Word)) (addr : Word) :
    (l.filter fun b => b.1 ≠ addr).map Prod.fst = (l.map Prod.fst).filter fun a => a ≠ addr := by
  rw [List.filter_map]
  rfl

theorem kfree_slots (hi : SlotInv L s) (hs : (slotSystem L).step s (.kfree addr) s') : SlotInv L s' := by
  obtain ⟨⟨size, hl⟩, hs, hothers⟩ := hs
  change s'.others = s.others at hothers
  obtain ⟨k, page, hp, o, ho, rfl⟩ := hi.block (List.mem_map_of_mem hl)
  have hlz : (o + BitVec.ofNat 32 sizeofObjHead, (0 : Word)) ∈ (sizeless s.kmem).live :=
    List.mem_map.2 ⟨_, hl, rfl⟩
  obtain ⟨m', hm', hslab⟩ := kfree_inv hi.slab hlz
  obtain ⟨sys, b, he, h⟩ := kfree_effect hi.slab hp ho
  change kfree L s.kmem.sys s.kmem.slab _ = _ at he
  have hok := hi.slab.slabs k page hp
  have hnd : (s.kmem.slab.head page).usedList.Nodup :=
    (List.nodup_append.1 (hok.objs.nodup_iff.2 (initPage_nodup page k))).1
  rw [call, he, Option.map_some, Option.some.injEq] at hs
  have hsame : m' = sizeless ⟨sys, b, s.kmem.live.filter fun x => x.1 ≠ o + BitVec.ofNat 32 sizeofObjHead⟩ := by
    have hcall : call L (sizeless s.kmem) (.kfree (o + BitVec.ofNat 32 sizeofObjHead)) = _ := rfl
    change _ = (kfree L s.kmem.sys s.kmem.slab _).map _ at hcall
    rw [he, Option.map_some] at hcall
    rw [hcall] at hm'
    rw [← Option.some.inj hm', sizeless]
    simp only [sizeless, List.filter_map]
    rfl
  rw [hsame] at hslab
  obtain ⟨m, others⟩ := s'
  cases hs
  cases hothers
  refine ⟨hslab, fun j p hpj => ?_, fun j p hpj x hx => ?_, fun x => ?_, fun x hx hmine => ?_⟩
  · rcases h.pages j p hpj with ⟨-, hne⟩ | ⟨hpj, he⟩
    · exact hne
    · exact he ▸ hi.used j p hpj
  · obtain ⟨hpj', hx', herase⟩ := h.only j p hpj x hx
    show _ ∈ (s.kmem.live.filter _).map Prod.fst
    rw [live_filter, List.mem_filter]
    refine ⟨hi.live j p hpj' x hx', ?_⟩
    rw [decide_eq_true_eq]
    intro hxo
    obtain rfl := (BitVec.add_left_inj _).1 hxo
    -- o is in use in its own page only
    have hpp : p = page := (hi.floor hpj' hx').symm.trans (hi.floor hp ho)
    exact (hnd.mem_erase_iff.1 (herase hpp)).1 rfl
  · show x ∈ sys.live ↔ _
    by_cases hlast : (s.kmem.slab.head page).usedList.erase o = []
    · obtain ⟨-, d, hd, hlive, hmine⟩ := h.last hlast
      rw [hlive, hmine, hi.slab.pages.nodup.mem_erase_iff]
      rw [show (sizeless s.kmem).sys.live = s.kmem.sys.live from rfl, hi.taken x]
      constructor
      · rintro ⟨hne, hx | hx⟩
        · exact Or.inl hx
        · exact Or.inr ⟨hne, hx⟩
      · rintro (hx | ⟨hne, hx⟩)
        · exact ⟨fun he => hi.apart x hx (he ▸ hd), Or.inl hx⟩
        · exact ⟨hne, Or.inr hx⟩
    · obtain ⟨hsys, hmine⟩ := h.more hlast
      rw [hsys, hmine]
      exact hi.taken x
  · by_cases hlast : (s.kmem.slab.head page).usedList.erase o = []
    · obtain ⟨-, d, -, -, hiff⟩ := h.last hlast
      exact hi.apart x hx ((hiff x).1 hmine).2
    · exact hi.apart x hx (((h.more hlast).2 x).1 hmine)

/-- the other users: their pages change, and no page of kmalloc -/
theorem pages_slots {op : Op} (hi : SlotInv L s) (hs : (slotSystem L).step s (.pages op) s') : SlotInv L s' := by
  obtain ⟨hl, hs, hothers⟩ := hs
  change s'.others = s'.kmem.sys.live.filter _ at hothers
  obtain ⟨sys, hsys, he⟩ := Option.map_eq_some_iff.1 hs
  have hslab : SlabInv L (sizeless s'.kmem) := by
    refine pages_inv hi.slab (o := op) hl ?_
    rw [call]
    show (step L s.kmem.sys op).map _ = _
    rw [hsys, ← he]
    rfl
  obtain ⟨m, others⟩ := s'
  cases he
  change others = sys.live.filter _ at hothers
  -- what is mine stays out
  have hmine : ∀ x, Mine L s.kmem.slab x → x ∈ sys.live := fun x hx => by
    refine step_keeps hi.slab.pages.nodup hsys (fun p order ho hc => ?_) ((hi.taken x).2 (Or.inr hx))
    subst hc
    obtain ⟨j, page, hp, hdesc, -⟩ := hx
    exact hl.2 p order ho page ⟨j, hp⟩ hdesc
  have hnot : ∀ x, Mine L s.kmem.slab x → ¬ (x ∈ s.others ∨ x ∉ s.kmem.sys.live) := fun x hx hor => by
    rcases hor with h | h
    · exact hi.apart x h hx
    · exact h ((hi.taken x).2 (Or.inr hx))
  have hmem : ∀ x, x ∈ others ↔ x ∈ sys.live ∧ (x ∈ s.others ∨ x ∉ s.kmem.sys.live) := fun x => by
    rw [hothers, List.mem_filter, decide_eq_true_eq]
  refine ⟨hslab, hi.used, hi.live, fun x => ?_, fun x hx hx' => hnot x hx' ((hmem x).1 hx).2⟩
  show x ∈ sys.live ↔ x ∈ others ∨ Mine L s.kmem.slab x
  rw [hmem]
  constructor
  · intro hx
    by_cases hx' : Mine L s.kmem.slab x
    · exact Or.inr hx'
    · by_cases hin : x ∈ s.kmem.sys.live
      · exact Or.inl ⟨hx, Or.inl (((hi.taken x).1 hin).resolve_right hx')⟩
      · exact Or.inl ⟨hx, Or.inr hin⟩
  · rintro (hx | hx)
    · exact hx.1
    · exact hmine x hx

theorem ready_slots (h : Ready L s.kmem) (ho : s.others = s.kmem.sys.live) : SlotInv L s := by
  have hslab := ready_inv h
  obtain ⟨-, ⟨b, hb⟩, hl⟩ := h
  have hlists : ∀ k page, page ∉ s.kmem.slab.pageList k := fun k page hp => by
    rw [hb] at hp
    exact absurd hp List.not_mem_nil
  have hmine : ∀ x, ¬ Mine L s.kmem.slab x := fun x ⟨k, page, hp, _⟩ => hlists k page hp
  have hsame : sizeless s.kmem = s.kmem := by
    rw [sizeless, hl]
    exact congrArg (Kmem.mk _ _) hl.symm
  refine ⟨by rw [hsame]; exact hslab, fun k page hp => absurd hp (hlists k page), fun k page hp => absurd hp (hlists k page),
    fun x => ?_, fun x _ => hmine x⟩
  rw [ho]
  exact (or_iff_left (hmine x)).symm

theorem slots_inv (h : (slotSystem L).Reach s) : SlotInv L s := by
  refine Lts.Reach.inv (M := slotSystem L) (P := SlotInv L) (fun _ h0 => ready_slots h0.1 h0.2) (fun s c s' hi hs => ?_) h
  cases c with
  | kmalloc size => exact kmalloc_slots hi hs
  | kfree addr => exact kfree_slots hi hs
  | pages op => exact pages_slots hi hs

/-! ## Every run -/

/-- what holds of the lists, and what the next calls do -/
structure SlotsOk (L : Layout) (s : Slots) : Prop where
  /-- every page on a list has its class, an object in use, and each slot that init_page laid out on one of its lists -/
  pages : ∀ k, ∀ page ∈ s.kmem.slab.pageList k, (s.kmem.slab.head page).index = k ∧
      (s.kmem.slab.head page).usedList ≠ [] ∧
    ((s.kmem.slab.head page).usedList ++ (s.kmem.slab.head page).freeList).Perm (initPage page k).freeList ∧
    ((s.kmem.slab.head page).usedList ++ (s.kmem.slab.head page).freeList).Nodup
  /-- the objects in use are the live blocks -/
  blocks : (s.kmem.live.map Prod.fst).Nodup ∧ ∀ addr, addr ∈ s.kmem.live.map Prod.fst ↔
    ∃ k, ∃ page ∈ s.kmem.slab.pageList k, ∃ o ∈ (s.kmem.slab.head page).usedList, addr =
    o + BitVec.ofNat 32 sizeofObjHead
  /-- a kmalloc fails and changes nothing, or hands out what is not live -/
  kmalloc : ∀ size r, kmalloc L s.kmem.sys s.kmem.slab size = some r → match r.1 with
    | none => r.2 = (s.kmem.sys, s.kmem.slab)
    | some addr => addr ∉ s.kmem.live.map Prod.fst
  /-- a kfree gives the page back exactly if no other live block is in it -/
  kfree : ∀ addr ∈ s.kmem.live.map Prod.fst, ∃ r, kfree L s.kmem.sys s.kmem.slab addr = some r ∧
    if ∃ a ∈ s.kmem.live.map Prod.fst, a ≠ addr ∧ pageFloor a = pageFloor addr then r.1 = s.kmem.sys
    else freePages L s.kmem.sys (pageFloor addr) 0 = some r.1
  /-- with no live block left, no page is on a list and the others have all that is out -/
  returned : s.kmem.live = [] → (∀ k, s.kmem.slab.pageList k = []) ∧ ∀ x, x ∈ s.kmem.sys.live ↔ x ∈ s.others

theorem kmalloc_fresh (h : (slotSystem L).Reach s) (size : Word) (r : Option Word × Sys × Slab)
    (hr : kmalloc L s.kmem.sys s.kmem.slab size = some r) : match r.1 with
      | none => r.2 = (s.kmem.sys, s.kmem.slab)
      | some addr => addr ∉ s.kmem.live.map Prod.fst := by
  have hi := slots_inv h
  have hix : kmallocIndex size ≠ -1 := by
    intro he
    simp [Kmalloc.kmalloc, he] at hr
  rcases kmalloc_effect hi.slab hix with he | ⟨o, sys, b, he, -⟩
  · obtain rfl := Option.some.inj (hr.symm.trans he)
    rfl
  · obtain rfl := Option.some.inj (hr.symm.trans he)
    have hcall : call L s.kmem (.kmalloc size) = some ⟨sys, b, (o + BitVec.ofNat 32 sizeofObjHead, size) :: s.kmem.live⟩ := by
      rw [call, hr, Option.map_some]
    have hnext : (slotSystem L).Reach ⟨⟨sys, b, (o + BitVec.ofNat 32 sizeofObjHead, size) :: s.kmem.live⟩, s.others⟩ :=
      .step (e := .kmalloc size) h ⟨trivial, hcall, rfl⟩
    exact (List.nodup_cons.1 (slots_inv hnext).nodup).1

/-- **The slots of kmalloc.** In every state of every run of kmalloc and kfree calls (any sizes that kmalloc accepts, each
kfree on a live block) and of other users of the pages. -/
theorem slots_reachable (h : (slotSystem L).Reach s) : SlotsOk L s := by
  have hi := slots_inv h
  refine ⟨fun k page hp => ?_, ⟨hi.nodup, fun addr => ⟨hi.block, ?_⟩⟩, kmalloc_fresh h, fun addr haddr => ?_,
    fun hlive => ?_⟩
  · have hok := hi.slab.slabs k page hp
    exact ⟨hok.index, hi.used k page hp, hok.objs, hok.objs.nodup_iff.2 (initPage_nodup page k)⟩
  · rintro ⟨k, page, hp, o, ho, rfl⟩
    exact hi.live k page hp o ho
  · obtain ⟨k, page, hp, o, ho, rfl⟩ := hi.block haddr
    obtain ⟨sys, b, he, hfreed⟩ := kfree_effect hi.slab hp ho
    refine ⟨_, he, ?_⟩
    have hlast := hi.last_iff hp ho
    by_cases hempty : (s.kmem.slab.head page).usedList.erase o = []
    · have hno : ¬ ∃ a ∈ s.kmem.live.map Prod.fst, a ≠ o + BitVec.ofNat 32 sizeofObjHead ∧
          pageFloor a = pageFloor (o + BitVec.ofNat 32 sizeofObjHead) := fun ⟨a, h1, h2, h3⟩ => hlast.1 hempty a h1 h2 h3
      rw [if_neg hno, hi.floor hp ho]
      exact (hfreed.last hempty).1
    · have hsome : ∃ a ∈ s.kmem.live.map Prod.fst, a ≠ o + BitVec.ofNat 32 sizeofObjHead ∧
          pageFloor a = pageFloor (o + BitVec.ofNat 32 sizeofObjHead) := by
        by_contra hno
        push Not at hno
        exact hempty (hlast.2 hno)
      rw [if_pos hsome]
      exact (hfreed.more hempty).1
  · have hlists : ∀ k page, page ∉ s.kmem.slab.pageList k := fun k page hp => by
      obtain ⟨o, ho⟩ := List.exists_mem_of_ne_nil _ (hi.used k page hp)
      have hin := hi.live k page hp o ho
      rw [hlive] at hin
      exact absurd hin List.not_mem_nil
    refine ⟨fun k => List.eq_nil_iff_forall_not_mem.2 (hlists k), fun x => (hi.taken x).trans (or_iff_left ?_)⟩
    rintro ⟨k, page, hp, -⟩
    exact hlists k page hp

/-! ## A machine with six pages -/

local instance lawful_word : LawfulBEq Word := inferInstance

/-- kmalloc and kfree as a function of the state -/
def callSlots (L : Layout) (s : Slots) : Call → Option Slots
  | .kmalloc size => (call L s.kmem (.kmalloc size)).map fun m => ⟨m, s.others⟩
  | .kfree addr => if addr ∈ s.kmem.live.map Prod.fst then (call L s.kmem (.kfree addr)).map
    fun m => ⟨m, s.others⟩ else none
  | .pages _ => none

theorem callSlots_step (s : Slots) (c : Call) (s' : Slots) (h : callSlots L s c = some s') : (slotSystem L).step s c s' := by
  cases c with
  | kmalloc size =>
    obtain ⟨m, hm, rfl⟩ := Option.map_eq_some_iff.1 h
    exact ⟨trivial, hm, rfl⟩
  | kfree addr =>
    rw [callSlots] at h
    split_ifs at h with hl
    obtain ⟨m, hm, rfl⟩ := Option.map_eq_some_iff.1 h
    obtain ⟨x, hx, rfl⟩ := List.mem_map.1 hl
    exact ⟨⟨x.2, hx⟩, hm, rfl⟩
  | pages op => cases h

def smallSlots : Slots := ⟨smallKmem, smallKmem.sys.live⟩

/-- eight blocks of 512 bytes, of which seven fill the first page, then the free of the eighth and of one of the seven -/
def eightBlocks : List Call := List.replicate 8 (.kmalloc 512#32) ++ [.kfree 0xC1005C54#32, .kfree 0xC1004024#32]

/-- After the eighth block a second page is out. The free of this block gives it back, and the free of one of the seven
others does not. -/
theorem slots_small : ∃ s1 s2, (eightBlocks.take 8).foldlM (callSlots Layout.small) smallSlots = some s1 ∧
    eightBlocks.foldlM (callSlots Layout.small) smallSlots = some s2 ∧ SlotsOk Layout.small s1 ∧ SlotsOk Layout.small s2 ∧
    s1.kmem.slab.pageList 5 = [0xC1005000#32, 0xC1004000#32] ∧ s2.kmem.slab.pageList 5 = [0xC1004000#32] ∧
    (s2.kmem.slab.head 0xC1004000#32).freeList = [0xC100401C#32] := by
  have hreach : ∀ (cs : List Call) s, cs.foldlM (callSlots Layout.small) smallSlots = some s →
      (slotSystem Layout.small).Reach s := fun cs s => Lts.Reach.fold callSlots_step (.start ⟨ready_small, rfl⟩)
  refine ⟨((eightBlocks.take 8).foldlM (callSlots Layout.small) smallSlots).get (by decide +kernel),
    (eightBlocks.foldlM (callSlots Layout.small) smallSlots).get (by decide +kernel), (Option.some_get _).symm,
    (Option.some_get _).symm, ?_, ?_, by decide +kernel, by decide +kernel, by decide +kernel⟩
  · exact slots_reachable (hreach _ _ (Option.some_get _).symm)
  · exact slots_reachable (hreach _ _ (Option.some_get _).symm)

end SinsOs.KmallocRun
