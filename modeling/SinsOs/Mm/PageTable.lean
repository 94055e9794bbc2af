/-
Page directories of user programs: copy_empty_page_dir, load_page and free_page_dir (kernel/mm/page_table.c) over the page
allocator.

The memory of a page is a function from the index of a word, under the virtual address of the page. `none` is a BUG_ON that
fires.

- `load_cases`: what load_page does at a user address: nothing, one entry, or one entry of a new table.
- `load_page_iff`: load_page maps one page or leaves all unchanged, exactly if the address is not the last page of the address
  space, where start_addr + PAGE_SIZE wraps, or no page is left.
-/
import SinsOs.Mm.KmallocRun
import SinsOs.Mm.PageWalk

namespace SinsOs.PageTable

open SinsOs.Core SinsOs.Bits SinsOs.Mm SinsOs.PageAlloc SinsOs.BuddyRun SinsOs.Kmalloc SinsOs.Paging

/-! ## Model -/

abbrev Memory := Word → ℕ → Word

/-- the words of a page after memset or memcpy, and a word after a store -/
def setPage (mem : Memory) (page : Word) (words : ℕ → Word) : Memory := fun a => if a = page then words else mem a
def store (mem : Memory) (page : Word) (k : ℕ) (e : Word) : Memory := setPage mem page (put (mem page) k e)

structure Vm where
  sys : Sys
  mem : Memory

variable (L : Layout)

def getAvailPages (s : Sys) (order : ℕ) : Option (Option ℕ × Sys) :=
  let alloc := fun (s : Sys) (zoneType : ℕ) => (allocPages L s.mm zoneType order).map fun r => (r.1, s.took order r)
  (alloc s zoneHighmem).bind fun r =>
    if r.1 ≠ none then some r
    else (alloc r.2 zoneNormal).bind fun r => if r.1 ≠ none then some r else alloc r.2 zoneDma

/-- get_zeroed_pages with order 0 -/
def getZeroedPage (vm : Vm) (gfpMask : Word) : Option (Option Word × Vm) :=
  (getFreePages L vm.sys gfpMask 0).map fun r =>
    match r.1 with
    | none => (none, ⟨r.2, vm.mem⟩)
    | some page => (some page, ⟨r.2, setPage vm.mem page fun _ => 0⟩)

/-- the result is `some none` where it is NULL -/
def copyEmptyPageDir (vm : Vm) (kernelPageDir : Word) : Option (Option Word × Vm) :=
  (getFreePages L vm.sys (gfpNormal ||| gfpDma) 0).map fun r =>
    match r.1 with
    | none => (none, ⟨r.2, vm.mem⟩)
    | some dest => (some dest, ⟨r.2, setPage vm.mem dest (vm.mem kernelPageDir)⟩)

/-- phys_to_page and dealloc_pages for a present entry of a table; an address of no page is a NULL page -/
def freeEntry (pgt : ℕ → Word) (s : Sys) (ti : ℕ) : Option Sys :=
  if pgtPresent (pgt ti) then (L.physToPage (pgdPage (pgt ti))).bind fun p => step L s (.dealloc p 0) else some s

/-- the loop over the user half of the directory -/
def freeTable (mem : Memory) (pgd : Word) (s : Sys) (di : ℕ) : Option Sys :=
  if pgtPresent (mem pgd di) then
    let pgt := va (pgdPage (mem pgd di))
    ((List.range ptrsPerPgt).foldlM (freeEntry L (mem pgt)) s).bind fun s => freePages L s pgt 0
  else some s

def freePageDir (vm : Vm) (pgd : Word) : Option Vm :=
  (((List.range (pageOffset / pgdSize).toNat).foldlM (freeTable L vm.mem pgd) vm.sys).bind fun s =>
    freePages L s pgd 0).map fun s => ⟨s, vm.mem⟩

def userPageMask : Word := pagePresent ||| pageRw ||| pageUser

/-- the end of load_page, once there is a table -/
def loadEntry (vm : Vm) (pages : ℕ) (nowPgt nowAddr : Word) : Option (Option ℕ × Vm) :=
  let pgte := (pgtIndex nowAddr).toNat
  if pgtPresent (vm.mem nowPgt pgte) then none
  else (L.pageToPhys pages).map fun realAddr => (some pages, ⟨vm.sys, store vm.mem nowPgt pgte (mkPgt realAddr userPageMask)⟩)

/-- the loop behind `failed:`, which frees the tables of the pages from nowCount to totalCount -/
def freeTables (vm : Vm) (pgd startAddr : Word) (s : Sys) (nowCount totalCount : ℕ) : Option Sys :=
  (List.range' nowCount (totalCount - nowCount)).foldlM
    (fun s i => freePages L s (va (pgdPage (vm.mem pgd (pgdIndex (startAddr + BitVec.ofNat 32 i * pageSize)).toNat))) 0) s

/-- load_page; now_count stays 0 -/
def loadPage (vm : Vm) (pgd startAddr : Word) : Option (Option ℕ × Vm) :=
  let nowCount := 0
  if startAddr &&& ~~~ pageMask ≠ 0 then none
  else if startAddr + pageSize > pageOffset then some (none, vm)
  else (getAvailPages L vm.sys 0).bind fun r =>
    match r.1 with
    | none => some (none, ⟨r.2, vm.mem⟩)
    | some pages =>
      let nowAddr := startAddr + BitVec.ofNat 32 nowCount * pageSize
      let i := (pgdIndex nowAddr).toNat
      if pgtPresent (vm.mem pgd i) then loadEntry L ⟨r.2, vm.mem⟩ (pages + nowCount) (va (pgdPage (vm.mem pgd i))) nowAddr
      else (getZeroedPage L ⟨r.2, vm.mem⟩ (gfpNormal ||| gfpDma)).bind fun q =>
        match q.1 with
        | none =>
          ((step L q.2.sys (.dealloc pages 0)).bind fun s => freeTables L q.2 pgd startAddr s 0 nowCount).map fun s =>
            (none, ⟨s, q.2.mem⟩)
        | some nowPgt =>
          loadEntry L ⟨q.2.sys, store q.2.mem pgd i (mkPgt (pa nowPgt) userPageMask)⟩ (pages + nowCount) nowPgt nowAddr

variable {L : Layout} {vm vm' : Vm} {pgd start : Word} {s : Sys}

/-! ## Memory -/

theorem setPage_self (mem : Memory) (page : Word) (words : ℕ → Word) : setPage mem page words page = words := if_pos rfl

theorem setPage_ne (mem : Memory) {a page : Word} (words : ℕ → Word) (h : a ≠ page) :
    setPage mem page words a = mem a := if_neg h

theorem store_self (mem : Memory) (page : Word) (k : ℕ) (e : Word) : store mem page k e page k = e := by
  rw [store, setPage_self, put_self]

theorem store_ne (mem : Memory) {a page : Word} {j k : ℕ} (e : Word) (h : ¬ (a = page ∧ j = k)) :
    store mem page k e a j = mem a j := by
  rw [store]
  by_cases ha : a = page
  · rw [ha, setPage_self, put_ne _ _ fun hj => h ⟨ha, hj⟩]
  · rw [setPage_ne _ _ ha]

/-! ## Pages -/

/-- **get_avail_pages.** NULL means that no zone has a page. -/
theorem getAvailPages_spec (hi : Inv L s) : ∃ r, getAvailPages L s 0 = some r ∧ Inv L r.2 ∧
    ((r.1 = none ∧ r.2 = s ∧ ∀ ty < nrZoneTypes, ¬ HasBlock L s.mm ty 0) ∨
      ∃ z ∈ L.all, ∃ o < L.pages z, r.1 = some (L.base z + o) ∧ r.2.live = (L.base z + o, 0) :: s.live ∧
        ∃ ty < nrZoneTypes, HasBlock L s.mm ty 0) := by
  -- one call of alloc_pages
  have hcall : ∀ ty < nrZoneTypes, ∃ r, (allocPages L s.mm ty 0).map (fun r => (r.1, s.took 0 r)) = some r ∧ Inv L r.2 ∧
      ((r.1 = none ∧ r.2 = s ∧ ¬ HasBlock L s.mm ty 0) ∨
        ∃ z ∈ L.all, ∃ o < L.pages z, r.1 = some (L.base z + o) ∧ r.2.live = (L.base z + o, 0) :: s.live ∧
          HasBlock L s.mm ty 0) := by
    intro ty hty
    obtain ⟨r, hr, hinv, hcase⟩ := alloc_returns hi hty 0
    refine ⟨_, by rw [hr, Option.map_some], hinv, ?_⟩
    rcases hcase with ⟨h1, h2, h3⟩ | ⟨z, hz, o, ho, hsome, hblock⟩
    · exact Or.inl ⟨h1, h2, h3⟩
    · exact Or.inr ⟨z, L.mem_all.2 ⟨ty, hz⟩, o, ho, hsome, by simp [Sys.took, hsome], hblock⟩
  obtain ⟨rh, hh, hhi, hhcase⟩ := hcall zoneHighmem (by decide)
  obtain ⟨rn, hn, hni, hncase⟩ := hcall zoneNormal (by decide)
  obtain ⟨rd, hd, hdi, hdcase⟩ := hcall zoneDma (by decide)
  rw [getAvailPages]
  simp only [hh, Option.bind_some]
  rcases hhcase with ⟨hnone, hsame, hempty⟩ | ⟨z, hz, o, ho, hsome, hlive, hblock⟩
  · rw [if_neg (not_not.2 hnone), hsame, hn, Option.bind_some]
    rcases hncase with ⟨hnnone, hnsame, hnempty⟩ | ⟨z, hz, o, ho, hsome, hlive, hblock⟩
    · rw [if_neg (not_not.2 hnnone), hnsame, hd]
      refine ⟨rd, rfl, hdi, ?_⟩
      rcases hdcase with ⟨hdnone, hdsame, hdempty⟩ | ⟨z, hz, o, ho, hsome, hlive, hblock⟩
      · refine Or.inl ⟨hdnone, hdsame, fun ty hty => ?_⟩
        obtain rfl | rfl | rfl : ty = 0 ∨ ty = 1 ∨ ty = 2 := by
          unfold nrZoneTypes at hty
          omega
        · exact hdempty
        · exact hnempty
        · exact hempty
      · exact Or.inr ⟨z, hz, o, ho, hsome, hlive, _, by decide, hblock⟩
    · rw [if_pos (hsome ▸ Option.some_ne_none _)]
      exact ⟨rn, rfl, hni, Or.inr ⟨z, hz, o, ho, hsome, hlive, _, by decide, hblock⟩⟩
  · rw [if_pos (hsome ▸ Option.some_ne_none _)]
    exact ⟨rh, rfl, hhi, Or.inr ⟨z, hz, o, ho, hsome, hlive, _, by decide, hblock⟩⟩

theorem getZeroedPage_spec (hi : Inv L vm.sys) : ∃ r, getZeroedPage L vm (gfpNormal ||| gfpDma) = some r ∧ Inv L r.2.sys ∧
    ((r.1 = none ∧ r.2 = vm) ∨ ∃ z ∈ L.chain zoneNormal, ∃ o < L.pages z, r.1 = some (va (L.physAddr z o)) ∧
      r.2.sys.live = (L.base z + o, 0) :: vm.sys.live ∧ r.2.mem = setPage vm.mem (va (L.physAddr z o)) fun _ => 0) := by
  obtain ⟨r, hr, hinv, hcase⟩ := getFreePage_spec hi
  rw [getZeroedPage, hr, Option.map_some]
  rcases hcase with ⟨hnone, hsame⟩ | ⟨z, hz, o, ho, hsome, hlive⟩
  · rw [hnone]
    exact ⟨_, rfl, hinv, Or.inl ⟨rfl, by rw [hsame]⟩⟩
  · rw [hsome]
    exact ⟨_, rfl, hinv, Or.inr ⟨z, hz, o, ho, rfl, hlive, rfl⟩⟩

/-! ## load_page -/

/-- the page at an address of the kernel is not free -/
def Taken (L : Layout) (m : St) (addr : Word) : Prop := ∀ q, L.virtToPage addr = some q → ¬ FreePage L m q

/-- the table of an address, if its entry in the directory is present -/
def tableOf (mem : Memory) (pgd start : Word) : Word := va (pgdPage (mem pgd (pgdIndex start).toNat))

/-- the table entry that the page walk reaches -/
def pte (mem : Memory) (pgd start : Word) : Option Word := walkEntry (mem pgd) (fun a => mem (va a)) start

def Unmapped (mem : Memory) (pgd start : Word) : Prop := ∀ e, pte mem pgd start = some e → pgtPresent e = false

/-- a page-aligned address of user space -/
def UserPage (start : Word) : Prop := 4096 ∣ start.toNat ∧ start < pageOffset

instance (start : Word) : Decidable (UserPage start) := inferInstanceAs (Decidable (_ ∧ _))

/-- what load_page does with page o of zone z, and with page o' of normal zone z' for a table -/
inductive LoadCase (L : Layout) (vm : Vm) (pgd start : Word) : Option ℕ × Vm → Prop
  | null {s : Sys} (hi : Inv L s) (live : s.live = vm.sys.live) : LoadCase L vm pgd start (none, ⟨s, vm.mem⟩)
  | entry {s : Sys} {mem : Memory} {z o : ℕ} (hi : Inv L s) (hz : z ∈ L.all) (ho : o < L.pages z)
      (present : pgtPresent (vm.mem pgd (pgdIndex start).toNat) = true) (live : s.live = (L.base z + o, 0) :: vm.sys.live)
      (hmem : mem = store vm.mem (tableOf vm.mem pgd start) (pgtIndex start).toNat (mkPgt (L.physAddr z o) userPageMask)) :
      LoadCase L vm pgd start (some (L.base z + o), ⟨s, mem⟩)
  | table {s s' : Sys} {mem : Memory} {z o z' o' : ℕ} (hi : Inv L s) (hi' : Inv L s') (hz : z ∈ L.all) (ho : o < L.pages z)
      (hz' : z' ∈ L.chain zoneNormal) (ho' : o' < L.pages z') (absent : pgtPresent (vm.mem pgd (pgdIndex start).toNat) = false)
      (live : s.live = (L.base z + o, 0) :: vm.sys.live) (live' : s'.live = (L.base z' + o', 0) :: s.live)
      (hmem : mem = store (store (setPage vm.mem (va (L.physAddr z' o')) fun _ => 0) pgd (pgdIndex start).toNat
        (mkPgt (L.physAddr z' o') userPageMask)) (va (L.physAddr z' o')) (pgtIndex start).toNat
        (mkPgt (L.physAddr z o) userPageMask)) :
      LoadCase L vm pgd start (some (L.base z + o), ⟨s', mem⟩)

theorem aligned_iff (a : Word) : a &&& ~~~ pageMask = 0#32 ↔ 4096 ∣ a.toNat := by
  have hm : ~~~ pageMask = lowMask 12 := by decide
  rw [hm, ← BitVec.toNat_inj, low_toNat (by norm_num)]
  exact (Nat.dvd_iff_mod_eq_zero (m := 4096)).symm

/-- start_addr + PAGE_SIZE wraps for the last page -/
theorem range_test {start : Word} (h : 4096 ∣ start.toNat) :
    start + pageSize > pageOffset ↔ ¬ start < pageOffset ∧ start ≠ 0xFFFFF000#32 := by
  have hoff : pageOffset.toNat = 0xC0000000 := by decide
  have hsize : pageSize.toNat = 4096 := by decide
  have hlast : start = 0xFFFFF000#32 ↔ start.toNat = 0xFFFFF000 := by
    rw [← BitVec.toNat_inj]
    exact Iff.rfl
  have hlt := start.isLt
  rw [gt_iff_lt, BitVec.lt_def, BitVec.lt_def, BitVec.toNat_add, hoff, hsize, ne_eq, hlast]
  omega

/-- load_page behind its two tests -/
theorem loadPage_body (h : 4096 ∣ start.toNat) (hrange : ¬ start + pageSize > pageOffset) {r : Option ℕ × Sys}
    (hr : getAvailPages L vm.sys 0 = some r) : loadPage L vm pgd start = match r.1 with
      | none => some (none, ⟨r.2, vm.mem⟩)
      | some pages =>
        if pgtPresent (vm.mem pgd (pgdIndex start).toNat) then
          loadEntry L ⟨r.2, vm.mem⟩ pages (tableOf vm.mem pgd start) start
        else (getZeroedPage L ⟨r.2, vm.mem⟩ (gfpNormal ||| gfpDma)).bind fun q =>
          match q.1 with
          | none => (step L q.2.sys (.dealloc pages 0)).map fun s => (none, ⟨s, q.2.mem⟩)
          | some nowPgt => loadEntry L ⟨q.2.sys,
            store q.2.mem pgd (pgdIndex start).toNat (mkPgt (pa nowPgt) userPageMask)⟩ pages
              nowPgt start := by
  have haddr : start + BitVec.ofNat 32 0 * pageSize = start := by simp
  have haligned : ¬ (start &&& ~~~ pageMask ≠ 0) := not_not.2 ((aligned_iff start).2 h)
  rw [loadPage]
  dsimp only
  rw [if_neg haligned, if_neg hrange, hr, Option.bind_some, haddr]
  rcases r.1 with _ | pages
  · rfl
  · simp only [freeTables, Nat.sub_self, List.range'_zero, List.foldlM_nil, Nat.add_zero]
    congr 2
    funext q
    rcases q.1 with _ | nowPgt
    · cases step L q.2.sys (.dealloc pages 0) <;> rfl
    · rfl

/-- **load_page at a user address.** It returns, with nothing changed, with one entry of a table, or with a new table that has
this entry only. -/
theorem load_cases (hi : Inv L vm.sys) (hstart : UserPage start) (hun : Unmapped vm.mem pgd start)
    (hpgd : Taken L vm.sys.mm pgd) : ∃ r, loadPage L vm pgd start = some r ∧ LoadCase L vm pgd start r := by
  obtain ⟨hal, huser⟩ := hstart
  obtain ⟨⟨page, s1⟩, hr, hinv, hcase⟩ := getAvailPages_spec hi
  rw [loadPage_body hal (mt (range_test hal).1 fun h => h.1 huser) hr]
  rcases hcase with ⟨hnone, hsame, -⟩ | ⟨z, hz, o, ho, hsome, hlive, -⟩
  · obtain rfl : page = none := hnone
    exact ⟨_, rfl, .null hinv (congrArg Sys.live hsame)⟩
  obtain rfl : page = some (L.base z + o) := hsome
  obtain ⟨ty, hty⟩ := L.mem_all.1 hz
  have hphys := L.pageToPhys_eq hty ho
  dsimp only
  cases hp : pgtPresent (vm.mem pgd (pgdIndex start).toNat) with
  | true =>
    have hfree : pgtPresent (vm.mem (tableOf vm.mem pgd start) (pgtIndex start).toNat) = false :=
      hun _ (if_pos hp)
    rw [if_pos rfl, loadEntry]
    dsimp only
    rw [hfree, if_neg Bool.false_ne_true, hphys, Option.map_some]
    exact ⟨_, rfl, .entry hinv hz ho hp hlive rfl⟩
  | false =>
    rw [if_neg Bool.false_ne_true]
    obtain ⟨⟨table, vm1⟩, hq, hinv1, hcase1⟩ := @getZeroedPage_spec L ⟨s1, vm.mem⟩ hinv
    rw [hq, Option.bind_some]
    rcases hcase1 with ⟨hnone, hsame⟩ | ⟨z', hz', o', ho', hsome, hlive1, hmem⟩
    · -- failed: the page goes back
      obtain rfl : table = none := hnone
      obtain rfl : vm1 = ⟨s1, vm.mem⟩ := hsame
      obtain ⟨s2, hstep, hinv2, hlive2⟩ := dealloc_held hinv (hlive ▸ List.mem_cons_self : (L.base z + o, 0) ∈ s1.live)
      dsimp only
      rw [hstep, Option.map_some]
      refine ⟨_, rfl, .null hinv2 ?_⟩
      rw [hlive2, hlive, List.erase_cons_head]
    · obtain rfl : table = some (va (L.physAddr z' o')) := hsome
      obtain ⟨s2, mem2⟩ := vm1
      dsimp only at hlive1 hmem
      -- the table is a page that was free, so it is not the directory
      have hne : va (L.physAddr z' o') ≠ pgd := by
        intro he
        have hfree := ((took_free hinv hinv1 hlive1).1)
        have hfree0 := ((took_free hi hinv hlive).2 _).1 hfree
        exact hpgd _ (he ▸ (L.pageToVirt_eq hz' ho').2.1) hfree0.1
      have hzero : pgtPresent (store mem2 pgd (pgdIndex start).toNat (mkPgt (pa (va (L.physAddr z' o'))) userPageMask)
          (va (L.physAddr z' o')) (pgtIndex start).toNat) = false := by
        rw [store_ne _ _ fun h => hne h.1, hmem, setPage_self]
        exact pgtPresent_zero
      dsimp only
      rw [loadEntry]
      dsimp only
      rw [hzero, if_neg Bool.false_ne_true, hphys, Option.map_some, hmem, pa_va]
      exact ⟨_, rfl, .table hinv hinv1 hz ho hz' ho' hp hlive hlive1 rfl⟩

/-! ## All or nothing -/

/-- what an address needs of its directory: it is no free page, no table of its own, and its last entry is the kernel's -/
structure Proper (L : Layout) (vm : Vm) (pgd start : Word) : Prop where
  taken : Taken L vm.sys.mm pgd
  table : pgtPresent (vm.mem pgd (pgdIndex start).toNat) = true → tableOf vm.mem pgd start ≠ pgd
  kernel : pgtPresent (vm.mem pgd 1023) = true

/-- the words that change, with `gone` the pages that are free no longer -/
structure Changed (L : Layout) (vm vm' : Vm) (gone : List ℕ) (keep : Word → ℕ → Prop) : Prop where
  free : ∀ q, FreePage L vm'.sys.mm q ↔ FreePage L vm.sys.mm q ∧ q ∉ gone
  frame : ∀ a k, keep a k → vm'.mem a k = vm.mem a k

/-- one entry, for a page that was free; the table is there or is a page that was free and else zero -/
structure Loaded (L : Layout) (vm vm' : Vm) (pgd start : Word) (p : ℕ) : Prop where
  free : FreePage L vm.sys.mm p
  entry : ∃ a, L.pageToPhys p = some a ∧ pte vm'.mem pgd start = some (mkPgt a userPageMask)
  rest : (pgtPresent (vm.mem pgd (pgdIndex start).toNat) = true ∧
      Changed L vm vm' [p] fun a k => ¬ (a = tableOf vm.mem pgd start ∧ k = (pgtIndex start).toNat)) ∨
    ∃ table q, L.virtToPage table = some q ∧ FreePage L vm.sys.mm q ∧ q ≠ p ∧
      vm'.mem pgd (pgdIndex start).toNat = mkPgt (pa table) userPageMask ∧
      (∀ k, k ≠ (pgtIndex start).toNat → vm'.mem table k = 0) ∧
      Changed L vm vm' [p, q] fun a k => a ≠ table ∧ ¬ (a = pgd ∧ k = (pgdIndex start).toNat)

/-- load_page returns NULL and leaves all unchanged, or maps one page below PAGE_OFFSET -/
def Atomic (L : Layout) (vm : Vm) (pgd start : Word) : Prop :=
  ∃ r, loadPage L vm pgd start = some r ∧
    ((r.1 = none ∧ Changed L vm r.2 [] fun _ _ => True) ∨
      start < pageOffset ∧ ∃ p, r.1 = some p ∧ Loaded L vm r.2 pgd start p)

theorem pte_of_entry {mem : Memory} {d e : Word} (hd : mem pgd (pgdIndex start).toNat = d) (hpresent : pgtPresent d = true)
    (he : mem (va (pgdPage d)) (pgtIndex start).toNat = e) : pte mem pgd start = some e := by
  rw [pte, walkEntry, hd, if_pos hpresent, he]

theorem userEntry {a : Word} (h : 4096 ∣ a.toNat) :
    pgdPage (mkPgt a userPageMask) = a ∧ pgtPresent (mkPgt a userPageMask) = true :=
  ⟨pgdPage_flags h (by decide), pgtPresent_flags a (by decide)⟩

/-- **Every case is all or nothing.** -/
theorem atomic_of_case {r : Option ℕ × Vm} (hi : Inv L vm.sys) (hp : Proper L vm pgd start)
    (hr : loadPage L vm pgd start = some r) (hstart : start < pageOffset) (hcase : LoadCase L vm pgd start r) :
    Atomic L vm pgd start := by
  refine ⟨r, hr, ?_⟩
  cases hcase with
  | null hi' hlive =>
    refine Or.inl ⟨rfl, fun q => ?_, fun _ _ _ => rfl⟩
    rw [free_congr hi' hi fun b => by rw [hlive]]
    simp
  | @entry s mem z o hi' hz ho hpresent hlive hmem =>
    obtain ⟨ty, hty⟩ := L.mem_all.1 hz
    obtain ⟨hfree, hothers⟩ := took_free hi hi' hlive
    have hdir : mem pgd (pgdIndex start).toNat = vm.mem pgd (pgdIndex start).toNat := by
      rw [hmem, store_ne _ _ fun h => hp.table hpresent h.1.symm]
    have hentry : mem (tableOf vm.mem pgd start) (pgtIndex start).toNat = mkPgt (L.physAddr z o) userPageMask := by
      rw [hmem, store_self]
    refine Or.inr ⟨hstart, _, rfl, hfree, ⟨_, L.pageToPhys_eq hty ho, pte_of_entry hdir hpresent hentry⟩,
      Or.inl ⟨hpresent, fun q => ?_, fun a k hkeep => ?_⟩⟩
    · rw [hothers, List.mem_singleton]
    · show mem a k = vm.mem a k
      rw [hmem, store_ne _ _ hkeep]
  | @table s s' mem z o z' o' hi1 hi2 hz ho hz' ho' habsent hlive hlive' hmem =>
    obtain ⟨ty, hty⟩ := L.mem_all.1 hz
    obtain ⟨hfree, hothers⟩ := took_free hi hi1 hlive
    obtain ⟨hfree', hothers'⟩ := took_free hi1 hi2 hlive'
    obtain ⟨hfree0, hne⟩ := (hothers _).1 hfree'
    obtain ⟨-, hvirt, -⟩ := L.pageToVirt_eq hz' ho'
    have hpgd : pgd ≠ va (L.physAddr z' o') := fun he => hp.taken _ (he ▸ hvirt) hfree0
    obtain ⟨hpage, hpresent⟩ := userEntry (L.pageToPhys_dvd (L.pageToPhys_eq hz' ho'))
    have hdir : mem pgd (pgdIndex start).toNat = mkPgt (L.physAddr z' o') userPageMask := by
      rw [hmem, store_ne _ _ fun h => hpgd h.1, store_self]
    have hentry : mem (va (pgdPage (mkPgt (L.physAddr z' o') userPageMask))) (pgtIndex start).toNat =
        mkPgt (L.physAddr z o) userPageMask := by
      rw [hpage, hmem, store_self]
    refine Or.inr ⟨hstart, _, rfl, hfree, ⟨_, L.pageToPhys_eq hty ho, pte_of_entry hdir hpresent hentry⟩,
      Or.inr ⟨va (L.physAddr z' o'), _, hvirt, hfree0, hne, ?_, fun k hk => ?_, fun q => ?_, fun a k hkeep => ?_⟩⟩
    · rw [pa_va]
      exact hdir
    · show mem (va (L.physAddr z' o')) k = 0
      rw [hmem, store_ne _ _ fun h => hk h.2, store_ne _ _ fun h => hpgd h.1.symm, setPage_self]
    · rw [hothers', hothers]
      simp only [List.mem_cons, List.not_mem_nil, or_false, not_or, and_assoc]
    · show mem a k = vm.mem a k
      rw [hmem, store_ne _ _ fun h => hkeep.1 h.1, store_ne _ _ hkeep.2, setPage_ne _ _ hkeep.1]

/-- the last page of the address space passes the range test, and its table is one of the kernel -/
theorem last_not_null (hi : Inv L vm.sys) (hk : pgtPresent (vm.mem pgd 1023) = true) {ty : ℕ} (hty : ty < nrZoneTypes)
    (hblock : HasBlock L vm.sys.mm ty 0) : ∀ r, loadPage L vm pgd 0xFFFFF000#32 = some r → r.1 ≠ none := by
  have hal : 4096 ∣ (0xFFFFF000#32).toNat := by decide
  have hindex : (pgdIndex 0xFFFFF000#32).toNat = 1023 := by decide
  obtain ⟨⟨page, s1⟩, hr, -, hcase⟩ := getAvailPages_spec hi
  intro r hload
  rw [loadPage_body hal (by decide) hr] at hload
  rcases hcase with ⟨-, -, hempty⟩ | ⟨z, hz, o, ho, hsome, -⟩
  · exact absurd hblock (hempty ty hty)
  · obtain rfl : page = some (L.base z + o) := hsome
    dsimp only at hload
    rw [hindex, if_pos hk, loadEntry] at hload
    dsimp only at hload
    split_ifs at hload
    obtain ⟨a, -, rfl⟩ := Option.map_eq_some_iff.1 hload
    exact nofun

/-- **load_page is all or nothing except at the last page.** For every directory, every page-aligned address where nothing is
mapped and every state of the allocator: load_page leaves all unchanged and returns NULL, as it does from PAGE_OFFSET on, or maps
one page, if and only if the address is not 0xFFFFF000 or no zone has a page. -/
theorem load_page_iff (h : (system L).Reach vm.sys) (hal : 4096 ∣ start.toNat)
    (hun : start < pageOffset → Unmapped vm.mem pgd start) (hp : Proper L vm pgd start) :
    Atomic L vm pgd start ↔ start ≠ 0xFFFFF000#32 ∨ ∀ ty < nrZoneTypes, ¬ HasBlock L vm.sys.mm ty 0 := by
  have hi := reach_inv h
  by_cases huser : start < pageOffset
  · obtain ⟨r, hr, hcase⟩ := load_cases hi ⟨hal, huser⟩ (hun huser) hp.taken
    refine iff_of_true (atomic_of_case hi hp hr huser hcase) (Or.inl ?_)
    rintro rfl
    exact absurd huser (by decide)
  by_cases hlast : start = 0xFFFFF000#32
  · subst hlast
    constructor
    · intro ⟨r, hr, hcase⟩
      rcases hcase with ⟨hnull, -⟩ | ⟨hlt, -⟩
      · exact Or.inr fun ty hty hblock => last_not_null hi hp.kernel hty hblock r hr hnull
      · exact absurd hlt huser
    · intro hempty
      have hnone := hempty.resolve_left fun hne => hne rfl
      obtain ⟨⟨page, s1⟩, hr, -, hcase⟩ := getAvailPages_spec hi
      rcases hcase with ⟨hpage, hsame, -⟩ | ⟨z, hz, o, ho, -, -, ty, hty, hblock⟩
      · obtain rfl : page = none := hpage
        obtain rfl : s1 = vm.sys := hsame
        refine ⟨_, loadPage_body hal (by decide) hr, Or.inl ⟨rfl, fun q => ?_, fun _ _ _ => rfl⟩⟩
        simp
      · exact absurd hblock (hnone ty hty)
  · have hrange := (range_test hal).2 ⟨huser, hlast⟩
    have haligned : ¬ (start &&& ~~~ pageMask ≠ 0) := not_not.2 ((aligned_iff start).2 hal)
    refine iff_of_true ⟨(none, vm), ?_, Or.inl ⟨rfl, fun q => ?_, fun _ _ _ => rfl⟩⟩ (Or.inl hlast)
    · rw [loadPage]
      dsimp only
      rw [if_neg haligned, if_pos hrange]
    · simp

/-! ## A directory on the machine with three normal pages -/

/-- kernel_page_dir of a kernel of 128 KB -/
def smallDir (k : ℕ) : Word :=
  if k < 768 then 0#32
  else mkPgt (pa (tableAt (smallImage.kernelPageDir + pageSize) (k - 768))) (pagePresent ||| pageRw)

theorem smallDir_eq {limit : BitVec 64} {dir pgt : ℕ → Word} {st : Paging.State}
    (h : pagingInit smallImage dir pgt limit = some st) {k : ℕ} (hk : k < 1024) : st.dir k = smallDir k := by
  have hb := pagingInit_built h
  have hbase : st.pgtBase = smallImage.kernelPageDir + pageSize := by
    rw [← BitVec.toNat_inj, hb.base]
    decide
  rw [smallDir]
  split_ifs with hlow
  · exact hb.user k hlow
  · obtain ⟨i, rfl⟩ : ∃ i, k = 768 + i := ⟨k - 768, by omega⟩
    rw [Nat.add_sub_cancel_left, ← hbase]
    exact hb.kernel i (by omega)

/-- the last normal page holds a copy of the directory -/
def lastVm : Vm where
  sys := (run two twoBoot [.alloc zoneNormal 0]).get (by decide +kernel)
  mem := setPage (fun _ _ => 0#32) 0xC1002000#32 smallDir

theorem reach_last : (system two).Reach lastVm.sys := reach_two [.alloc zoneNormal 0] (Option.some_get _).symm

theorem lastVm_dir : lastVm.mem 0xC1002000#32 = smallDir := setPage_self (fun _ _ => 0#32) 0xC1002000#32 smallDir

theorem lastVm_proper {start : Word} (h : start < pageOffset ∨ start = 0xFFFFF000#32) :
    Proper two lastVm 0xC1002000#32 start := by
  refine ⟨fun q hq hfree => ?_, fun hp => ?_, by rw [lastVm_dir]; decide +kernel⟩
  · -- the page is held
    have hpage : two.virtToPage 0xC1002000#32 = some 291 := by decide +kernel
    obtain rfl : 291 = q := Option.some.inj (hpage.symm.trans hq)
    have hlive : (291, 0) ∈ lastVm.sys.live := by decide +kernel
    exact ((free_iff (reach_inv reach_last) 291).1 hfree).2 _ hlive ⟨by decide, by decide⟩
  · rw [lastVm_dir] at hp
    rcases h with hlt | rfl
    · have hoff : pageOffset.toNat = 0xC0000000 := by decide
      have hlow : (pgdIndex start).toNat < 768 := by
        have hlt' := BitVec.lt_def.1 hlt
        rw [pgdIndex_toNat]
        omega
      rw [smallDir, if_pos hlow, pgtPresent_zero] at hp
      cases hp
    · rw [tableOf, lastVm_dir]
      decide +kernel

theorem load_first : Atomic two lastVm 0xC1002000#32 0#32 ↔
    0#32 ≠ 0xFFFFF000#32 ∨ ∀ ty < nrZoneTypes, ¬ HasBlock two lastVm.sys.mm ty 0 := by
  refine load_page_iff reach_last (by decide) (fun _ e he => ?_) (lastVm_proper (Or.inl (by decide)))
  have hnone : pte lastVm.mem 0xC1002000#32 0#32 = none := by
    rw [pte, walkEntry, lastVm_dir]
    decide +kernel
  rw [hnone] at he
  cases he

/-- With pages free, load_page at 0xFFFFF000 does not return NULL: it goes on in the last table of the kernel. -/
theorem load_last : (system two).Reach lastVm.sys ∧ 4096 ∣ (0xFFFFF000#32).toNat ∧ ¬ 0xFFFFF000#32 < pageOffset ∧
    Proper two lastVm 0xC1002000#32 0xFFFFF000#32 ∧ ¬ Atomic two lastVm 0xC1002000#32 0xFFFFF000#32 := by
  have hproper := lastVm_proper (Or.inr rfl)
  have hblock : HasBlock two lastVm.sys.mm zoneDma 0 := ⟨0, by decide, 0, le_rfl, by decide +kernel⟩
  refine ⟨reach_last, by decide, by decide, hproper, fun ⟨r, hr, hcase⟩ => ?_⟩
  rcases hcase with ⟨hnull, -⟩ | ⟨hlt, -⟩
  · exact last_not_null (reach_inv reach_last) hproper.kernel (by decide) hblock r hr hnull
  · exact absurd hlt (by decide)

end SinsOs.PageTable
