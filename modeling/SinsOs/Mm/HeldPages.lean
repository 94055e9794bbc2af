/-
Single pages that a call holds (get_free_pages, get_zeroed_pages, free_pages), next to a page directory or without one, with
other users of the page allocator in between.

- `getFreePage_held`, `getZeroedPage_held`, `freePages_held`: a page comes to the blocks that are held and goes again.
- `copy_held`, `load_held`, `freePageDir_held`: so do the pages of a directory.
-/
import SinsOs.Mm.PageDir

namespace SinsOs.PageTable

open SinsOs.Core SinsOs.Bits SinsOs.Mm SinsOs.PageAlloc SinsOs.BuddyRun SinsOs.Kmalloc SinsOs.Paging

variable {L : Layout} {mem0 : Memory} {vm vm' : Vm} {pgd start page : Word} {s s' : Sys}
    {blocks blocks' others : List (ℕ × ℕ)}
  {p : ℕ}

/-- all that is held; only normal pages differ from the memory `mem0` -/
structure Held (L : Layout) (mem0 : Memory) (vm : Vm) (blocks : List (ℕ × ℕ)) : Prop where
  inv : Inv L vm.sys
  live : vm.sys.live.Perm blocks
  frame : ∀ a, ¬ Normal L a → vm.mem a = mem0 a

/-! ## Other users -/

theorem Held.other (h : Held L mem0 vm (blocks ++ others)) {o : Op} (hl : legal ⟨vm.sys.mm, others⟩ o) {u : Sys}
    (hu : step L ⟨vm.sys.mm, others⟩ o = some u) (hs : step L vm.sys o = some s') :
    Held L mem0 ⟨s', vm.mem⟩ (blocks ++ u.live) := by
  obtain ⟨hinv, hlive⟩ := other_live h.inv h.live hl hu hs
  exact ⟨hinv, hlive, h.frame⟩

theorem Owned.other {kernel : ℕ → Word} (h : Owned L mem0 kernel vm pgd (blocks ++ others)) {o : Op}
    (hl : legal ⟨vm.sys.mm, others⟩ o) {u : Sys} (hu : step L ⟨vm.sys.mm, others⟩ o = some u)
    (hs : step L vm.sys o = some s') : Owned L mem0 kernel ⟨s', vm.mem⟩ pgd (blocks ++ u.live) := by
  have hperm := h.live
  rw [← List.append_assoc] at hperm
  obtain ⟨hinv, hlive⟩ := other_live h.inv hperm hl hu hs
  exact ⟨hinv, List.append_assoc .. ▸ hlive, h.dir, h.tables, h.upper, h.frame⟩

/-! ## Single pages -/

theorem getFreePage_held (h : Held L mem0 vm blocks) {r : Option Word × Sys}
    (hr : getFreePages L vm.sys (gfpNormal ||| gfpDma) 0 = some r) : (r.1 = none ∧ Held L mem0 ⟨r.2, vm.mem⟩ blocks) ∨
      ∃ page p, r.1 = some page ∧ L.virtToPage page = some p ∧ Held L mem0 ⟨r.2, vm.mem⟩ ((p, 0) :: blocks) := by
  obtain ⟨r', hr', hinv, hcase⟩ := getFreePage_spec h.inv
  obtain rfl : r' = r := Option.some.inj (hr'.symm.trans hr)
  rcases hcase with ⟨hnone, hsame⟩ | ⟨z, hz, o, ho, hsome, hlive⟩
  · exact Or.inl ⟨hnone, hinv, hsame ▸ h.live, h.frame⟩
  · exact Or.inr ⟨_, _, hsome, (L.pageToVirt_eq hz ho).2.1, hinv, hlive ▸ h.live.cons _, h.frame⟩

theorem getZeroedPage_held (h : Held L mem0 vm blocks) {r : Option Word × Vm}
    (hr : getZeroedPage L vm (gfpNormal ||| gfpDma) = some r) : (r.1 = none ∧ Held L mem0 r.2 blocks) ∨
      ∃ page p, r.1 = some page ∧ L.virtToPage page = some p ∧ Held L mem0 r.2 ((p, 0) :: blocks) := by
  obtain ⟨r', hr', hinv, hcase⟩ := getZeroedPage_spec h.inv
  obtain rfl : r' = r := Option.some.inj (hr'.symm.trans hr)
  rcases hcase with ⟨hnone, hsame⟩ | ⟨z, hz, o, ho, hsome, hlive, hmem⟩
  · exact Or.inl ⟨hnone, hsame ▸ h⟩
  · refine Or.inr ⟨_, _, hsome, (L.pageToVirt_eq hz ho).2.1, hinv, hlive ▸ h.live.cons _, fun a ha => ?_⟩
    have hne : a ≠ va (L.physAddr z o) := fun he => ha ⟨z, hz, o, ho, he⟩
    rw [hmem, setPage_ne _ _ hne]
    exact h.frame a ha

theorem freePages_held (h : Held L mem0 vm ((p, 0) :: blocks)) (hp : L.virtToPage page = some p) :
    ∃ s', freePages L vm.sys page 0 = some s' ∧ Held L mem0 ⟨s', vm.mem⟩ blocks := by
  obtain ⟨s', hstep, hinv, hlive⟩ := dealloc_held h.inv (h.live.mem_iff.2 List.mem_cons_self)
  refine ⟨s', ?_, hinv, ?_, h.frame⟩
  · rw [freePages, hp]
    exact hstep
  · rw [hlive]
    exact (h.live.erase (p, 0)).trans (List.Perm.of_eq (List.erase_cons_head ..))

/-! ## A directory -/

theorem copy_held {kernelPageDir : Word} (h : Held L mem0 vm blocks) (hfar : ¬ Normal L kernelPageDir)
    (huser : ∀ d < 768, pgtPresent (mem0 kernelPageDir d) = false) {r : Option Word × Vm}
    (hr : copyEmptyPageDir L vm kernelPageDir = some r) : (r.1 = none ∧ Held L mem0 r.2 blocks) ∨
      ∃ pgd, r.1 = some pgd ∧ Owned L mem0 (mem0 kernelPageDir) r.2 pgd blocks := by
  have hdir := h.frame kernelPageDir hfar
  obtain ⟨page, vm'⟩ := r
  cases page with
  | none =>
    obtain ⟨r', hr', hcase⟩ := Option.map_eq_some_iff.1 hr
    obtain ⟨page, s1⟩ := r'
    cases page with
    | some page => cases hcase
    | none =>
      cases hcase
      rcases getFreePage_held h hr' with ⟨-, hheld⟩ | ⟨page, p, hsome, -⟩
      · exact Or.inl ⟨rfl, hheld⟩
      · cases hsome
  | some pgd =>
    obtain ⟨hown, -⟩ := copy_owned h.inv (hdir ▸ huser) hr
    refine Or.inr ⟨pgd, rfl, hown.inv, hown.live.trans (h.live.append_left _), hown.dir, hown.tables, ?_, fun a ha => ?_⟩
    · rw [← hdir]
      exact hown.upper
    · exact (hown.frame a ha).trans (h.frame a ha)

/-- load_page at an address with a page does not return but without memory -/
theorem load_mapped (hi : Inv L vm.sys) (hstart : UserPage start) (hmapped : ¬ Unmapped vm.mem pgd start)
    {r : Option ℕ × Vm} (hr : loadPage L vm pgd start = some r) :
    Inv L r.2.sys ∧ r.2.sys.live = vm.sys.live ∧ r.2.mem = vm.mem := by
  obtain ⟨hal, huser⟩ := hstart
  obtain ⟨⟨page, s1⟩, hget, hinv, hcase⟩ := getAvailPages_spec hi
  rw [loadPage_body hal (mt (range_test hal).1 fun h => h.1 huser) hget] at hr
  cases page with
  | none =>
    cases hr
    rcases hcase with ⟨-, hsame, -⟩ | ⟨z, -, o, -, hsome, -⟩
    · exact ⟨hinv, congrArg Sys.live hsame, rfl⟩
    · cases hsome
  | some p =>
    exfalso
    refine hmapped fun e he => ?_
    rw [pte, walkEntry] at he
    split_ifs at he with hpresent
    dsimp only at hr
    rw [if_pos hpresent, loadEntry] at hr
    split_ifs at hr with htable
    obtain rfl := Option.some.inj he
    exact Bool.eq_false_iff.2 htable

theorem load_held {kernel : ℕ → Word} (h : Owned L mem0 kernel vm pgd others) (hstart : UserPage start) {r : Option ℕ × Vm}
    (hr : loadPage L vm pgd start = some r) : Owned L mem0 kernel r.2 pgd others := by
  by_cases hun : Unmapped vm.mem pgd start
  · obtain ⟨r', hr', hcase⟩ := load_cases h.inv hstart hun h.taken
    obtain rfl : r' = r := Option.some.inj (hr'.symm.trans hr)
    exact (load_owned h hstart hun hcase).1
  · obtain ⟨hi, hlive, hmem⟩ := load_mapped h.inv hstart hun hr
    obtain ⟨page, vm'⟩ := r
    obtain ⟨sys, mem⟩ := vm'
    obtain rfl : mem = vm.mem := hmem
    exact ⟨hi, hlive ▸ h.live, h.dir, h.tables, h.upper, h.frame⟩

theorem freePageDir_held {kernel : ℕ → Word} (h : Owned L mem0 kernel vm pgd others) :
    ∃ vm', freePageDir L vm pgd = some vm' ∧ Held L mem0 vm' others := by
  obtain ⟨s1, hgive, -, hinv, hlive⟩ := giveBack_spec h.inv _ h.live
  refine ⟨⟨s1, vm.mem⟩, ?_, hinv, hlive, h.frame⟩
  rw [freePageDir_eq h.leads, hgive]
  rfl

end SinsOs.PageTable
