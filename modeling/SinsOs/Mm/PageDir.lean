/-
Who owns the pages of a page directory: copy_empty_page_dir, any sequence of load_page calls, and free_page_dir
(kernel/mm/page_table.c), with other users of the page allocator in between.

The pages that free_page_dir gives back are read off the present bits of the two levels (`refs`). The invariant `Owned` says
that these and the blocks of the others are all that is held.

- `freePageDir_eq`: free_page_dir gives back `refs`, one after the other.
- `load_owned`: load_page adds to `refs` what it takes from the allocator.
- `dir_balanced`: so after free_page_dir only the others hold anything, and the kernel half and the tables of the kernel are
  as before; no table of the kernel is given back, as long as none lies in a free page when load_page is called.
-/
import SinsOs.Mm.PageTable
import SinsOs.Mm.Translate

namespace SinsOs.PageTable

open SinsOs.Core SinsOs.Bits SinsOs.Mm SinsOs.PageAlloc SinsOs.BuddyRun SinsOs.Kmalloc SinsOs.Paging
open SinsOs.Translate (holds_of_physToPage physToPage_of_holds)

variable {L : Layout} {vm vm' : Vm} {pgd start : Word} {s s' : Sys} {others : List (ℕ × ℕ)}

/-! ## Lists -/

theorem foldlM_flatMap {α β σ : Type} (l : List α) (f : α → List β) (g : σ → β → Option σ) (s : σ) :
    (l.flatMap f).foldlM g s = l.foldlM (fun s x => (f x).foldlM g s) s := by
  induction l generalizing s with
  | nil => rfl
  | cons x l ih =>
    rw [List.flatMap_cons, List.foldlM_append, List.foldlM_cons]
    exact bind_congr fun s => ih s

theorem foldlM_congr {α σ : Type} {l : List α} {f g : σ → α → Option σ}
    (h : ∀ x ∈ l, ∀ s, f s x = g s x) (s : σ) :
    l.foldlM f s = l.foldlM g s := by
  induction l generalizing s with
  | nil => rfl
  | cons x l ih =>
    rw [List.foldlM_cons, List.foldlM_cons, h x List.mem_cons_self]
    exact bind_congr fun s => ih (fun y hy => h y (List.mem_cons_of_mem _ hy)) s

/-- one part of a list grows -/
theorem flatMap_grows {α β : Type} {l : List α} (hnd : l.Nodup) {d : α} (hd : d ∈ l) {f g : α → List β} {new : List β}
    (hother : ∀ x ∈ l, x ≠ d → g x = f x) (hself : (g d).Perm (new ++ f d)) :
    (l.flatMap g).Perm (new ++ l.flatMap f) := by
  induction l with
  | nil => cases hd
  | cons x l ih =>
    obtain ⟨hx, hnd⟩ := List.nodup_cons.1 hnd
    rw [List.flatMap_cons, List.flatMap_cons]
    by_cases hxd : x = d
    · subst hxd
      have hrest : l.flatMap g = l.flatMap f := by
        refine List.flatMap_congr fun y hy => hother y (List.mem_cons_of_mem _ hy) ?_
        rintro rfl
        exact hx hy
      rw [hrest, ← List.append_assoc]
      exact hself.append_right _
    · have hrec := ih hnd ((List.mem_cons.1 hd).resolve_left (Ne.symm hxd)) fun y hy => hother y (List.mem_cons_of_mem _ hy)
      rw [hother x List.mem_cons_self hxd]
      exact (hrec.append_left _).trans (List.perm_append_comm_assoc ..)

/-- two parts of a list without duplicates share no element -/
theorem flatMap_apart {α β : Type} {l : List α} {f : α → List β} (hnd : (l.flatMap f).Nodup) {x y : α} (hx : x ∈ l)
    (hy : y ∈ l) (hne : x ≠ y) {b : β} (hb : b ∈ f x) : b ∉ f y := by
  have hsymm : Std.Symm (Function.onFun List.Disjoint f) := ⟨fun _ _ h => h.symm⟩
  exact fun hb' => (List.nodup_flatMap.1 hnd).2.forall hx hy hne hb hb'

/-! ## The pages of a directory -/

/-- the page of a present entry -/
def entryPage (L : Layout) (e : Word) : List ℕ := if pgtPresent e then (L.physToPage (pgdPage e)).toList else []

def tablePages (L : Layout) (pgt : ℕ → Word) : List ℕ := (List.range ptrsPerPgt).flatMap fun t => entryPage L (pgt t)

/-- the pages of a table, and the table -/
def dirPages (L : Layout) (mem : Memory) (pgd : Word) (d : ℕ) : List ℕ :=
  if pgtPresent (mem pgd d) then
    tablePages L (mem (va (pgdPage (mem pgd d)))) ++ (L.virtToPage (va (pgdPage (mem pgd d)))).toList
  else []

/-- what free_page_dir gives back -/
def refs (L : Layout) (mem : Memory) (pgd : Word) : List ℕ :=
  (List.range 768).flatMap (dirPages L mem pgd) ++ (L.virtToPage pgd).toList

/-- the entries that free_page_dir follows lead to pages -/
structure Leads (L : Layout) (mem : Memory) (pgd : Word) : Prop where
  dir : ∃ p, L.virtToPage pgd = some p
  table : ∀ d < 768, pgtPresent (mem pgd d) = true → ∃ p, L.virtToPage (va (pgdPage (mem pgd d))) = some p
  page : ∀ d < 768, pgtPresent (mem pgd d) = true → ∀ t < ptrsPerPgt,
    pgtPresent (mem (va (pgdPage (mem pgd d))) t) = true →
    ∃ p, L.physToPage (pgdPage (mem (va (pgdPage (mem pgd d))) t)) = some p

/-- dealloc_pages on single pages, one after the other -/
def giveBack (L : Layout) (s : Sys) (ps : List ℕ) : Option Sys := ps.foldlM (fun s p => step L s (.dealloc p 0)) s

theorem freePages_eq {addr : Word} {p : ℕ} (h : L.virtToPage addr = some p) (s : Sys) :
    freePages L s addr 0 = giveBack L s (L.virtToPage addr).toList := by
  rw [freePages, h]
  exact (bind_pure _).symm

theorem freeEntry_eq {pgt : ℕ → Word} {t : ℕ}
    (h : pgtPresent (pgt t) = true → ∃ p, L.physToPage (pgdPage (pgt t)) = some p) (s : Sys) :
    freeEntry L pgt s t = giveBack L s (entryPage L (pgt t)) := by
  rw [freeEntry, entryPage]
  split_ifs with hp
  · obtain ⟨p, he⟩ := h hp
    rw [he]
    exact (bind_pure _).symm
  · rfl

theorem giveBack_append (s : Sys) (ps qs : List ℕ) :
    giveBack L s (ps ++ qs) = (giveBack L s ps).bind fun s => giveBack L s qs :=
  List.foldlM_append ..

theorem tablePages_eq {pgt : ℕ → Word}
    (h : ∀ t < ptrsPerPgt, pgtPresent (pgt t) = true → ∃ p, L.physToPage (pgdPage (pgt t)) = some p) (s : Sys) :
    (List.range ptrsPerPgt).foldlM (freeEntry L pgt) s = giveBack L s (tablePages L pgt) :=
  (foldlM_congr (fun t ht s => freeEntry_eq (h t (List.mem_range.1 ht)) s) s).trans (foldlM_flatMap ..).symm

theorem freeTable_eq (h : Leads L vm.mem pgd) {d : ℕ} (hd : d < 768) (s : Sys) :
    freeTable L vm.mem pgd s d = giveBack L s (dirPages L vm.mem pgd d) := by
  rw [freeTable, dirPages]
  split_ifs with hpresent
  · obtain ⟨q, hq⟩ := h.table d hd hpresent
    have hfree : (fun s => freePages L s (va (pgdPage (vm.mem pgd d))) 0) =
        fun s => giveBack L s (L.virtToPage (va (pgdPage (vm.mem pgd d)))).toList := funext (freePages_eq hq)
    rw [giveBack_append, ← tablePages_eq (h.page d hd hpresent), ← hfree]
  · rfl

/-- **free_page_dir gives back the pages of the directory.** -/
theorem freePageDir_eq (h : Leads L vm.mem pgd) :
    freePageDir L vm pgd = (giveBack L vm.sys (refs L vm.mem pgd)).map fun s => ⟨s, vm.mem⟩ := by
  have hrange : (pageOffset / pgdSize).toNat = 768 := by decide
  obtain ⟨p, hp⟩ := h.dir
  have hdir : (List.range 768).foldlM (freeTable L vm.mem pgd) vm.sys =
      giveBack L vm.sys ((List.range 768).flatMap (dirPages L vm.mem pgd)) :=
    (foldlM_congr (fun d hd s => freeTable_eq h (List.mem_range.1 hd) s) vm.sys).trans (foldlM_flatMap ..).symm
  have hfree : (fun s => freePages L s pgd 0) = fun s => giveBack L s (L.virtToPage pgd).toList := funext (freePages_eq hp)
  rw [freePageDir, refs, giveBack_append, hrange, hdir, hfree]

/-- **Pages that somebody holds are given back.** Each call is legal, and what the others hold stays. -/
theorem giveBack_spec (hi : Inv L s) (ps : List ℕ) (hlive : s.live.Perm (ps.map (·, 0) ++ others)) :
    ∃ s', giveBack L s ps = some s' ∧ run L s (ps.map (.dealloc · 0)) = some s' ∧ Inv L s' ∧ s'.live.Perm others := by
  induction ps generalizing s with
  | nil => exact ⟨s, rfl, rfl, hi, hlive⟩
  | cons p ps ih =>
    have hmem : (p, 0) ∈ s.live := hlive.mem_iff.2 List.mem_cons_self
    obtain ⟨s1, hstep, hi1, hlive1⟩ := dealloc_held hi hmem
    have hrest : s1.live.Perm (ps.map (·, 0) ++ others) := by
      rw [hlive1]
      exact (hlive.erase (p, 0)).trans (List.Perm.of_eq (List.erase_cons_head ..))
    obtain ⟨s2, h1, h2, h3, h4⟩ := ih hi1 hrest
    refine ⟨s2, ?_, ?_, h3, h4⟩
    · rw [giveBack, List.foldlM_cons, hstep]
      exact h1
    · have hlegal : legal s (.dealloc p 0) := hmem
      rw [List.map_cons, run, if_pos hlegal, hstep]
      exact h2

/-! ## Who holds what -/

/-- an entry of the user half: its table is a normal page, with entries for pages of the zones -/
def UserTable (L : Layout) (mem : Memory) (e : Word) : Prop :=
  ∃ z ∈ L.chain zoneNormal, ∃ o < L.pages z, e = mkPgt (L.physAddr z o) userPageMask ∧
    ∀ t < ptrsPerPgt, pgtPresent (mem (va (L.physAddr z o)) t) = true →
      ∃ z' ∈ L.all, ∃ o' < L.pages z', mem (va (L.physAddr z o)) t = mkPgt (L.physAddr z' o') userPageMask

/-- the address of a normal page -/
def Normal (L : Layout) (a : Word) : Prop := ∃ z ∈ L.chain zoneNormal, ∃ o < L.pages z, a = va (L.physAddr z o)

/-- the pages of the directory and the blocks of the others are all that is held; the kernel half is that of `kernel`, and only
normal pages differ from the memory `mem0` -/
structure Owned (L : Layout) (mem0 : Memory) (kernel : ℕ → Word) (vm : Vm) (pgd : Word)
    (others : List (ℕ × ℕ)) : Prop where
  inv : Inv L vm.sys
  live : vm.sys.live.Perm ((refs L vm.mem pgd).map (·, 0) ++ others)
  dir : Normal L pgd
  tables : ∀ d < 768, pgtPresent (vm.mem pgd d) = true → UserTable L vm.mem (vm.mem pgd d)
  upper : ∀ k, 768 ≤ k → k < ptrsPerPgd → vm.mem pgd k = kernel k
  frame : ∀ a, ¬ Normal L a → vm.mem a = mem0 a

variable {mem0 : Memory} {kernel : ℕ → Word}

theorem entryPage_user {z o ty : ℕ} (hz : z ∈ L.chain ty) (ho : o < L.pages z) :
    entryPage L (mkPgt (L.physAddr z o) userPageMask) = [L.base z + o] := by
  obtain ⟨hpage, hpresent⟩ := userEntry (L.pageToPhys_dvd (L.pageToPhys_eq hz ho))
  rw [entryPage, if_pos hpresent, hpage, L.physToPage_eq hz ho]
  rfl

/-- a table that load_page made, by its page -/
theorem UserTable.spec {mem : Memory} {e : Word} (h : UserTable L mem e) : ∃ z ∈ L.chain zoneNormal, ∃ o < L.pages z,
    va (pgdPage e) = va (L.physAddr z o) ∧ L.virtToPage (va (pgdPage e)) = some (L.base z + o) := by
  obtain ⟨z, hz, o, ho, rfl, -⟩ := h
  obtain ⟨hpage, -⟩ := userEntry (L.pageToPhys_dvd (L.pageToPhys_eq hz ho))
  rw [hpage]
  exact ⟨z, hz, o, ho, rfl, (L.pageToVirt_eq hz ho).2.1⟩

namespace Owned

theorem leads (h : Owned L mem0 kernel vm pgd others) : Leads L vm.mem pgd := by
  refine ⟨?_, fun d hd hp => ?_, fun d hd hp t ht htp => ?_⟩
  · obtain ⟨z, hz, o, ho, rfl⟩ := h.dir
    exact ⟨_, (L.pageToVirt_eq hz ho).2.1⟩
  · obtain ⟨z, hz, o, ho, -, hpage⟩ := (h.tables d hd hp).spec
    exact ⟨_, hpage⟩
  · obtain ⟨z, hz, o, ho, he, hentries⟩ := h.tables d hd hp
    obtain ⟨hpage, -⟩ := userEntry (L.pageToPhys_dvd (L.pageToPhys_eq hz ho))
    rw [he, hpage] at htp ⊢
    obtain ⟨z', hz', o', ho', he'⟩ := hentries t ht htp
    obtain ⟨ty, hty⟩ := L.mem_all.1 hz'
    rw [he', (userEntry (L.pageToPhys_dvd (L.pageToPhys_eq hty ho'))).1]
    exact ⟨_, L.physToPage_eq hty ho'⟩

theorem nodup (h : Owned L mem0 kernel vm pgd others) : (refs L vm.mem pgd).Nodup := by
  have hnd := (h.live.nodup_iff.1 h.inv.nodup)
  exact (List.nodup_append.1 hnd).1.of_map _

theorem held (h : Owned L mem0 kernel vm pgd others) {p : ℕ} (hp : p ∈ refs L vm.mem pgd) : (p, 0) ∈ vm.sys.live :=
  h.live.mem_iff.2 (List.mem_append_left _ (List.mem_map_of_mem hp))

/-- the directory is no free page -/
theorem taken (h : Owned L mem0 kernel vm pgd others) : Taken L vm.sys.mm pgd := by
  intro q hq hfree
  have hmem : q ∈ refs L vm.mem pgd := List.mem_append_right _ (by rw [hq]; exact List.mem_singleton_self q)
  exact ((free_iff h.inv q).1 hfree).2 _ (h.held hmem) ⟨le_rfl, Nat.lt_succ_self q⟩

theorem mem_dirPages {mem : Memory} {d p : ℕ} (hp : pgtPresent (mem pgd d) = true)
    (hpage : L.virtToPage (va (pgdPage (mem pgd d))) = some p) : p ∈ dirPages L mem pgd d := by
  rw [dirPages, if_pos hp, hpage]
  exact List.mem_append_right _ (List.mem_singleton_self p)

/-- a table is not the directory, and not the table of another entry -/
theorem apart (h : Owned L mem0 kernel vm pgd others) {d : ℕ} (hd : d < 768) (hp : pgtPresent (vm.mem pgd d) = true) :
    va (pgdPage (vm.mem pgd d)) ≠ pgd ∧ ∀ d' < 768, d' ≠ d → pgtPresent (vm.mem pgd d') = true →
      va (pgdPage (vm.mem pgd d')) ≠ va (pgdPage (vm.mem pgd d)) := by
  obtain ⟨z, hz, o, ho, -, hpage⟩ := (h.tables d hd hp).spec
  have hself := mem_dirPages hp hpage
  have hmem : d ∈ List.range 768 := List.mem_range.2 hd
  obtain ⟨hflat, -, hdisj⟩ := List.nodup_append.1 h.nodup
  refine ⟨fun he => ?_, fun d' hd' hne hp' he => ?_⟩
  · have hdir : L.base z + o ∈ (L.virtToPage pgd).toList := by
      rw [← he, hpage]
      exact List.mem_singleton_self _
    exact hdisj _ (List.mem_flatMap.2 ⟨d, hmem, hself⟩) _ hdir rfl
  · have hother : L.base z + o ∈ dirPages L vm.mem pgd d' := mem_dirPages hp' (by rw [he, hpage])
    have hmem' : d' ∈ List.range 768 := List.mem_range.2 hd'
    exact flatMap_apart hflat hmem' hmem hne hother hself

end Owned

/-! ## One load -/

theorem dirPages_congr {mem mem' : Memory} {d : ℕ} (hdir : mem' pgd d = mem pgd d)
    (htable : pgtPresent (mem pgd d) = true → mem' (va (pgdPage (mem pgd d))) = mem (va (pgdPage (mem pgd d)))) :
    dirPages L mem' pgd d = dirPages L mem pgd d := by
  rw [dirPages, dirPages, hdir]
  split_ifs with hp
  · rw [htable hp]
  · rfl

/-- an entry that was absent adds its page -/
theorem tablePages_put {pgt : ℕ → Word} {t p : ℕ} {e : Word} (ht : t < ptrsPerPgt) (habsent : pgtPresent (pgt t) = false)
    (he : entryPage L e = [p]) : (tablePages L (put pgt t e)).Perm ([p] ++ tablePages L pgt) := by
  have hself : (entryPage L (put pgt t e t)).Perm ([p] ++ entryPage L (pgt t)) := by
    rw [put_self, he, entryPage, habsent]
    exact List.Perm.refl _
  have hother : ∀ x ∈ List.range ptrsPerPgt, x ≠ t → entryPage L (put pgt t e x) = entryPage L (pgt x) := fun x _ hx => by
    rw [put_ne _ _ hx]
  have hmem : t ∈ List.range ptrsPerPgt := List.mem_range.2 ht
  rw [tablePages, tablePages]
  exact flatMap_grows List.nodup_range hmem hother hself

theorem tablePages_zero : tablePages L (fun _ => 0) = [] := by
  have hzero : entryPage L 0 = [] := if_neg (by rw [show pgtPresent (0 : Word) = false from pgtPresent_zero]; decide)
  rw [tablePages, hzero]
  exact List.flatMap_eq_nil_iff.2 fun _ _ => rfl

/-- a new table with one entry -/
theorem tablePages_single {t p : ℕ} {e : Word} (ht : t < ptrsPerPgt) (he : entryPage L e = [p]) :
    (tablePages L (put (fun _ => 0) t e)).Perm [p] := by
  have habsent : pgtPresent ((fun _ => 0 : ℕ → Word) t) = false := pgtPresent_zero
  have hput := @tablePages_put L (fun _ => 0) t p e ht habsent he
  rw [tablePages_zero, List.append_nil] at hput
  exact hput

/-- **The directory grows by one entry.** -/
theorem refs_grows {mem mem' : Memory} {d : ℕ} {new : List ℕ} (hd : d < 768)
    (hother : ∀ d' < 768, d' ≠ d → dirPages L mem' pgd d' = dirPages L mem pgd d')
    (hself : (dirPages L mem' pgd d).Perm (new ++ dirPages L mem pgd d)) :
    (refs L mem' pgd).Perm (new ++ refs L mem pgd) := by
  have hflat := flatMap_grows List.nodup_range (List.mem_range.2 hd) (fun x hx => hother x (List.mem_range.1 hx)) hself
  rw [refs, refs, ← List.append_assoc]
  exact hflat.append_right _

/-- who takes what the directory gets takes nothing from the others -/
theorem live_grows {live : List (ℕ × ℕ)} {new ps ps' : List ℕ} (h : live.Perm (ps.map (·, 0) ++ others))
    (hgrow : ps'.Perm (new ++ ps)) : (new.map (·, 0) ++ live).Perm (ps'.map (·, 0) ++ others) := by
  have hmap : (ps'.map (·, 0)).Perm (new.map (·, 0) ++ ps.map (·, 0)) :=
    (hgrow.map (·, 0)).trans (List.Perm.of_eq List.map_append)
  have hassoc : new.map (·, 0) ++ (ps.map (·, 0) ++ others) = new.map (·, 0) ++ ps.map (·, 0) ++ others :=
    (List.append_assoc ..).symm
  exact (h.append_left _).trans (hassoc ▸ hmap.symm.append_right _)

/-- the indices of a user address -/
theorem UserPage.index (h : UserPage start) : (pgdIndex start).toNat < 768 ∧ (pgtIndex start).toNat < ptrsPerPgt := by
  have hoff : pageOffset.toNat = 0xC0000000 := by decide
  have hlt := BitVec.lt_def.1 h.2
  have h1024 : ptrsPerPgt = 1024 := rfl
  rw [pgdIndex_toNat, pgtIndex_toNat]
  omega

/-- a page that is taken from the allocator is none of the directory -/
theorem Owned.fresh (h : Owned L mem0 kernel vm pgd others) (hi : Inv L s) {taken : List (ℕ × ℕ)} {z o : ℕ}
    (hz : z ∈ L.chain zoneNormal) (ho : o < L.pages z) (hlive : s.live = (L.base z + o, 0) :: (taken ++ vm.sys.live)) :
    pgd ≠ va (L.physAddr z o) ∧ ∀ d < 768, pgtPresent (vm.mem pgd d) = true →
      va (pgdPage (vm.mem pgd d)) ≠ va (L.physAddr z o) := by
  have hpage := (L.pageToVirt_eq hz ho).2.1
  have hnew : ∀ p ∈ refs L vm.mem pgd, p ≠ L.base z + o := fun p hp he =>
    (List.nodup_cons.1 (hlive ▸ hi.nodup)).1 (List.mem_append_right _ (he ▸ h.held hp))
  refine ⟨fun he => ?_, fun d hd hp he => ?_⟩
  · refine hnew (L.base z + o) (List.mem_append_right _ ?_) rfl
    rw [he, hpage]
    exact List.mem_singleton_self _
  · have hmem : d ∈ List.range 768 := List.mem_range.2 hd
    have hpart : L.base z + o ∈ dirPages L vm.mem pgd d := Owned.mem_dirPages hp (by rw [he, hpage])
    exact hnew _ (List.mem_append_left _ (List.mem_flatMap.2 ⟨d, hmem, hpart⟩)) rfl

/-- the tables that a load does not touch -/
theorem UserTable.congr {mem mem' : Memory} {e : Word} (h : UserTable L mem e)
    (htable : mem' (va (pgdPage e)) = mem (va (pgdPage e))) : UserTable L mem' e := by
  obtain ⟨z, hz, o, ho, rfl, hentries⟩ := h
  rw [(userEntry (L.pageToPhys_dvd (L.pageToPhys_eq hz ho))).1] at htable
  refine ⟨z, hz, o, ho, rfl, ?_⟩
  rw [htable]
  exact hentries

/-- an entry of a table is set -/
theorem UserTable.put {mem mem' : Memory} {z o z' o' t ty : ℕ} (hz : z ∈ L.chain zoneNormal) (ho : o < L.pages z)
    (hz' : z' ∈ L.chain ty) (ho' : o' < L.pages z')
    (hentries : ∀ t < ptrsPerPgt, pgtPresent (mem (va (L.physAddr z o)) t) = true →
      ∃ z' ∈ L.all, ∃ o' < L.pages z', mem (va (L.physAddr z o)) t = mkPgt (L.physAddr z' o') userPageMask)
    (hmem : mem' (va (L.physAddr z o)) = put (mem (va (L.physAddr z o))) t (mkPgt (L.physAddr z' o') userPageMask)) :
    UserTable L mem' (mkPgt (L.physAddr z o) userPageMask) := by
  refine ⟨z, hz, o, ho, rfl, fun k hk hp => ?_⟩
  rw [hmem] at hp ⊢
  by_cases hkt : k = t
  · rw [hkt, put_self]
    exact ⟨z', L.mem_all.2 ⟨ty, hz'⟩, o', ho', rfl⟩
  · rw [put_ne _ _ hkt] at hp ⊢
    exact hentries k hk hp

/-- **load_page adds to the directory what it takes.** -/
theorem load_owned (h : Owned L mem0 kernel vm pgd others) (hstart : UserPage start) (hun : Unmapped vm.mem pgd start)
    {r : Option ℕ × Vm} (hcase : LoadCase L vm pgd start r) :
    Owned L mem0 kernel r.2 pgd others ∧ ∃ new, (refs L r.2.mem pgd).Perm (new ++ refs L vm.mem pgd) ∧
      ∀ p ∈ new, FreePage L vm.sys.mm p := by
  obtain ⟨hd, ht⟩ := hstart.index
  generalize hdi : (pgdIndex start).toNat = d at hd
  generalize hti : (pgtIndex start).toNat = t at ht
  cases hcase with
  | null hi hlive =>
    refine ⟨⟨hi, hlive ▸ h.live, h.dir, h.tables, h.upper, h.frame⟩, [], ?_, nofun⟩
    rw [List.nil_append]
  | @entry s mem z o hi hz ho hpresent hlive hmem =>
    obtain ⟨ty, hty⟩ := L.mem_all.1 hz
    rw [hdi] at hpresent
    obtain ⟨hne, hothers⟩ := h.apart hd hpresent
    obtain ⟨zt, hzt, ot, hot, he, hentries⟩ := h.tables d hd hpresent
    obtain ⟨hpage, -⟩ := userEntry (L.pageToPhys_dvd (L.pageToPhys_eq hzt hot))
    have htable : tableOf vm.mem pgd start = va (pgdPage (vm.mem pgd d)) := by rw [tableOf, hdi]
    rw [htable, hti] at hmem
    have habsent : pgtPresent (vm.mem (va (pgdPage (vm.mem pgd d))) t) = false := by
      refine hun _ (pte_of_entry (by rw [hdi]) hpresent (by rw [hti]))
    -- only the table of the address changes
    have hself : mem (va (pgdPage (vm.mem pgd d))) =
        put (vm.mem (va (pgdPage (vm.mem pgd d)))) t (mkPgt (L.physAddr z o) userPageMask) := by
      rw [hmem, store, setPage_self]
    have hrest : ∀ a, a ≠ va (pgdPage (vm.mem pgd d)) → mem a = vm.mem a := fun a ha => by
      rw [hmem, store, setPage_ne _ _ ha]
    have hdir : mem pgd = vm.mem pgd := hrest pgd hne.symm
    have hgrow : (refs L mem pgd).Perm ([L.base z + o] ++ refs L vm.mem pgd) := by
      refine refs_grows hd (fun d' hd' hne' => dirPages_congr (by rw [hdir]) fun hp => hrest _ (hothers d' hd' hne' hp)) ?_
      rw [dirPages, dirPages, hdir, if_pos hpresent, if_pos hpresent, hself, ← List.append_assoc]
      exact (tablePages_put ht habsent (entryPage_user hty ho)).append_right _
    refine ⟨⟨hi, ?_, h.dir, fun d' hd' hp => ?_, fun k hk hk' => ?_, fun a ha => ?_⟩, [L.base z + o], hgrow, ?_⟩
    · rw [hlive]
      exact live_grows h.live hgrow
    · dsimp only at hp ⊢
      rw [hdir] at hp ⊢
      by_cases hdd : d' = d
      · rw [hdd, he]
        exact .put hzt hot hty ho hentries (by rw [← hpage, ← he]; exact hself)
      · exact (h.tables d' hd' hp).congr (hrest _ (hothers d' hd' hdd hp))
    · exact (congrFun hdir k).trans (h.upper k hk hk')
    · refine (hrest a ?_).trans (h.frame a ha)
      rintro rfl
      exact ha ⟨zt, hzt, ot, hot, by rw [he, hpage]⟩
    · intro p hp
      obtain rfl := List.mem_singleton.1 hp
      exact (took_free h.inv hi hlive).1
  | @table s s' mem z o zt ot hi hi' hz ho hzt hot habsent hlive hlive' hmem =>
    obtain ⟨ty, hty⟩ := L.mem_all.1 hz
    rw [hdi] at habsent
    rw [hdi, hti] at hmem
    obtain ⟨hpage, hpresent⟩ := userEntry (L.pageToPhys_dvd (L.pageToPhys_eq hzt hot))
    have hlives : s'.live = (L.base zt + ot, 0) :: ([(L.base z + o, 0)] ++ vm.sys.live) := by
      rw [hlive', hlive]
      rfl
    obtain ⟨hne, hothers⟩ := h.fresh hi' hzt hot hlives
    have hself : mem (va (L.physAddr zt ot)) = put (fun _ => 0) t (mkPgt (L.physAddr z o) userPageMask) := by
      rw [hmem, store, setPage_self, store, setPage_ne _ _ hne.symm, setPage_self]
    have hdir : mem pgd = put (vm.mem pgd) d (mkPgt (L.physAddr zt ot) userPageMask) := by
      rw [hmem, store, setPage_ne _ _ hne, store, setPage_self, setPage_ne _ _ hne]
    have hrest : ∀ a, a ≠ pgd → a ≠ va (L.physAddr zt ot) → mem a = vm.mem a := fun a ha ha' => by
      rw [hmem, store, setPage_ne _ _ ha', store, setPage_ne _ _ ha, setPage_ne _ _ ha']
    have hdirs : ∀ d' < 768, d' ≠ d → mem pgd d' = vm.mem pgd d' := fun d' _ hdd => by rw [hdir, put_ne _ _ hdd]
    have hkeep : ∀ d' < 768, d' ≠ d → pgtPresent (vm.mem pgd d') = true →
        mem (va (pgdPage (vm.mem pgd d'))) = vm.mem (va (pgdPage (vm.mem pgd d'))) := fun d' hd' _ hp =>
      hrest _ (h.apart hd' hp).1 (hothers d' hd' hp)
    have hentry : mem pgd d = mkPgt (L.physAddr zt ot) userPageMask := by rw [hdir, put_self]
    have hgrow : (refs L mem pgd).Perm ([L.base zt + ot, L.base z + o] ++ refs L vm.mem pgd) := by
      refine refs_grows hd (fun d' hd' hdd => dirPages_congr (hdirs d' hd' hdd) (hkeep d' hd' hdd)) ?_
      have hpages := tablePages_single ht (entryPage_user hty ho)
      rw [dirPages, dirPages, hentry, habsent, if_pos hpresent, if_neg Bool.false_ne_true, hpage, hself,
        (L.pageToVirt_eq hzt hot).2.1, List.append_nil]
      exact (hpages.append_right [L.base zt + ot]).trans (List.Perm.swap ..)
    refine ⟨⟨hi', ?_, h.dir, fun d' hd' hp => ?_, fun k hk hk' => ?_, fun a ha => ?_⟩, _, hgrow, ?_⟩
    · rw [hlive', hlive]
      exact live_grows h.live hgrow
    · dsimp only at hp ⊢
      by_cases hdd : d' = d
      · rw [hdd, hentry]
        refine ⟨zt, hzt, ot, hot, rfl, fun k _ hk => ?_⟩
        rw [hself] at hk ⊢
        by_cases hkt : k = t
        · rw [hkt, put_self]
          exact ⟨z, hz, o, ho, rfl⟩
        · rw [put_ne _ _ hkt] at hk
          exact absurd hk (by rw [show pgtPresent (0 : Word) = false from pgtPresent_zero]; decide)
      · rw [hdirs d' hd' hdd] at hp ⊢
        exact (h.tables d' hd' hp).congr (hkeep d' hd' hdd hp)
    · dsimp only
      rw [hdir, put_ne _ _ (by omega)]
      exact h.upper k hk hk'
    · refine (hrest a ?_ ?_).trans (h.frame a ha)
      · rintro rfl
        exact ha h.dir
      · rintro rfl
        exact ha ⟨zt, hzt, ot, hot, rfl⟩
    · intro p hp
      obtain ⟨hfree, hsame⟩ := took_free h.inv hi hlive
      rcases List.mem_cons.1 hp with rfl | hp
      · exact ((hsame _).1 (took_free hi hi' hlive').1).1
      · obtain rfl := List.mem_singleton.1 hp
        exact hfree

/-! ## Runs -/

/-- the machine with one directory, and the blocks that the others hold -/
structure Users where
  vm : Vm
  others : List (ℕ × ℕ)

inductive Event
  | load (startAddr : Word)
  | other (o : Op)

/-- load_page at user addresses where nothing is mapped, and alloc_pages and dealloc_pages of the others, after
copy_empty_page_dir; a load that is legal but does not return would be no step -/
def dirSystem (L : Layout) (vm0 : Vm) (kernelPageDir pgd : Word) : Lts Users Event where
  start := fun s => copyEmptyPageDir L vm0 kernelPageDir = some (some pgd, s.vm) ∧ s.others = vm0.sys.live
  step := fun s e s' =>
    match e with
    | .load a => UserPage a ∧ Unmapped s.vm.mem pgd a ∧ ∃ r, loadPage L s.vm pgd a = some r ∧ s' = ⟨r.2, s.others⟩
    | .other o => legal ⟨s.vm.sys.mm, s.others⟩ o ∧ ∃ u s1, step L ⟨s.vm.sys.mm, s.others⟩ o = some u ∧
        step L s.vm.sys o = some s1 ∧ s' = ⟨⟨s1, s.vm.mem⟩, u.live⟩

/-- a step of the others leaves what is held besides -/
theorem other_live {blocks : List (ℕ × ℕ)} (hi : Inv L s) (hlive : s.live.Perm (blocks ++ others)) {o : Op}
    (hl : legal ⟨s.mm, others⟩ o) {u : Sys}
    (hu : step L ⟨s.mm, others⟩ o = some u) (hs : step L s o = some s') : Inv L s' ∧ s'.live.Perm (blocks ++ u.live) := by
  cases o with
  | alloc zoneType order =>
    refine ⟨alloc_inv hi hs, ?_⟩
    obtain ⟨r, hr, rfl⟩ := Option.map_eq_some_iff.1 hu
    obtain ⟨r', hr', rfl⟩ := Option.map_eq_some_iff.1 hs
    obtain rfl : r = r' := Option.some.inj (hr.symm.trans hr')
    obtain ⟨page, mm⟩ := r
    cases page with
    | none => exact hlive
    | some p => exact (hlive.cons (p, order)).trans List.perm_middle.symm
  | dealloc page order =>
    obtain ⟨m, -, rfl⟩ := Option.map_eq_some_iff.1 hu
    have hmem : (page, order) ∈ s.live := hlive.mem_iff.2 (List.mem_append_right _ hl)
    obtain ⟨s2, hstep, hinv, hlive2⟩ := dealloc_held hi hmem
    obtain rfl : s2 = s' := Option.some.inj (hstep.symm.trans hs)
    refine ⟨hinv, ?_⟩
    -- no block is held twice
    have hnot : (page, order) ∉ blocks := fun hin => (List.nodup_append.1 (hlive.nodup_iff.1 hi.nodup)).2.2 _ hin _ hl rfl
    have herase := hlive.erase (page, order)
    rw [List.erase_append_right _ hnot] at herase
    rw [hlive2]
    exact herase

/-- what the others take and give back leaves the directory its pages -/
theorem other_owned (h : Owned L mem0 kernel vm pgd others) {o : Op} (hl : legal ⟨vm.sys.mm, others⟩ o) {u s1 : Sys}
    (hu : step L ⟨vm.sys.mm, others⟩ o = some u) (hs : step L vm.sys o = some s1) :
    Owned L mem0 kernel ⟨s1, vm.mem⟩ pgd u.live := by
  obtain ⟨hinv, hlive⟩ := other_live h.inv h.live hl hu hs
  exact ⟨hinv, hlive, h.dir, h.tables, h.upper, h.frame⟩

/-- a step keeps the directory its pages, and a load adds only pages that were free -/
theorem step_owned {vm0 : Vm} {kernelPageDir : Word} {s s' : Users} {e : Event}
    (h : Owned L mem0 kernel s.vm pgd s.others) (hs : (dirSystem L vm0 kernelPageDir pgd).step s e s') :
    Owned L mem0 kernel s'.vm pgd s'.others ∧
      ∀ p ∈ refs L s'.vm.mem pgd, p ∈ refs L s.vm.mem pgd ∨ (∃ a, e = .load a) ∧ FreePage L s.vm.sys.mm p := by
  cases e with
  | load a =>
    obtain ⟨hstart, hun, r, hr, rfl⟩ := hs
    obtain ⟨r', hr', hcase⟩ := load_cases h.inv hstart hun h.taken
    obtain rfl : r' = r := Option.some.inj (hr'.symm.trans hr)
    obtain ⟨hown, new, hgrow, hnew⟩ := load_owned h hstart hun hcase
    refine ⟨hown, fun p hp => ?_⟩
    rcases List.mem_append.1 (hgrow.mem_iff.1 hp) with hin | hin
    · exact Or.inr ⟨⟨a, rfl⟩, hnew p hin⟩
    · exact Or.inl hin
  | other o =>
    obtain ⟨hl, u, s1, hu, hs1, rfl⟩ := hs
    exact ⟨other_owned h hl hu hs1, fun p hp => Or.inl hp⟩

/-- **A new directory has no pages but its own.** -/
theorem copy_owned {vm0 vm1 : Vm} {kernelPageDir : Word} (hi : Inv L vm0.sys)
    (huser : ∀ d < 768, pgtPresent (vm0.mem kernelPageDir d) = false)
    (hc : copyEmptyPageDir L vm0 kernelPageDir = some (some pgd, vm1)) :
    Owned L vm0.mem (vm0.mem kernelPageDir) vm1 pgd vm0.sys.live ∧
      ∃ z ∈ L.chain zoneNormal, ∃ o < L.pages z, refs L vm1.mem pgd = [L.base z + o] := by
  obtain ⟨⟨page, s1⟩, hr, hinv, hcase⟩ := getFreePage_spec hi
  rw [copyEmptyPageDir, hr, Option.map_some] at hc
  rcases hcase with ⟨hnone, -⟩ | ⟨z, hz, o, ho, hsome, hlive⟩
  · obtain rfl : page = none := hnone
    cases hc
  · obtain rfl : page = some (va (L.physAddr z o)) := hsome
    dsimp only at hc
    rw [Option.some.injEq, Prod.mk.injEq, Option.some.injEq] at hc
    obtain ⟨rfl, rfl⟩ := hc
    have hpgd : setPage vm0.mem (va (L.physAddr z o)) (vm0.mem kernelPageDir) (va (L.physAddr z o)) = vm0.mem kernelPageDir :=
      setPage_self ..
    have hempty : ∀ d < 768, dirPages L (setPage vm0.mem (va (L.physAddr z o)) (vm0.mem kernelPageDir))
        (va (L.physAddr z o)) d = [] := fun d hd => by
      rw [dirPages, hpgd, huser d hd]
      exact if_neg Bool.false_ne_true
    have hrefs : refs L (setPage vm0.mem (va (L.physAddr z o)) (vm0.mem kernelPageDir)) (va (L.physAddr z o)) =
        [L.base z + o] := by
      rw [refs, List.flatMap_eq_nil_iff.2 fun d hd => hempty d (List.mem_range.1 hd), (L.pageToVirt_eq hz ho).2.1]
      rfl
    have hnormal : Normal L (va (L.physAddr z o)) := ⟨z, hz, o, ho, rfl⟩
    refine ⟨⟨hinv, ?_, hnormal, fun d hd hp => ?_, fun k _ _ => ?_, fun a ha => ?_⟩, z, hz, o, ho, hrefs⟩
    · rw [hrefs, hlive]
      exact List.Perm.refl _
    · dsimp only at hp
      rw [hpgd, huser d hd] at hp
      cases hp
    · dsimp only
      rw [hpgd]
    · refine setPage_ne _ _ ?_
      rintro rfl
      exact ha hnormal

/-! ## The kernel -/

variable {img : Image} {limit : BitVec 64} {dir pgt : ℕ → Word} {st : Paging.State}

/-- normal pages lie above 16 MB -/
theorem normal_ge {a : Word} (h : Normal L a) : 0xC1000000 ≤ a.toNat := by
  obtain ⟨z, hz, o, ho, rfl⟩ := h
  have hin := L.in_type _ z hz _ (L.holds_physAddr hz ho)
  have hdma : zoneDmaLimit.toNat = 0x1000000 := by decide
  have hnormal : zoneNormalLimit.toNat = 0x38000000 := by decide
  have hoff : pageOffset.toNat = 0xC0000000 := by decide
  rw [zoneTypeOf] at hin
  split_ifs at hin with h1 h2
  · exact absurd hin (by decide)
  · rw [BitVec.lt_def] at h1 h2
    rw [va, BitVec.toNat_add, hoff, Nat.mod_eq_of_lt (by omega)]
    omega
  · exact absurd hin (by decide)

/-- the page of a physical address below 16 MB is a DMA page -/
theorem low_page {a : Word} {p : ℕ} (ha : a.toNat < 0x1000000) (hp : L.physToPage a = some p) :
    ∃ z ∈ L.chain zoneDma, ∃ o < L.pages z, p = L.base z + o := by
  obtain ⟨t, z, hz, hin⟩ := holds_of_physToPage L hp
  have hdma : zoneDmaLimit.toNat = 0x1000000 := by decide
  have htype := L.in_type t z hz a hin
  rw [zoneTypeOf, if_pos (BitVec.lt_def.2 (hdma ▸ ha))] at htype
  obtain ⟨o, ho, -, -, hpage⟩ := physToPage_of_holds L hz hin
  exact ⟨z, htype ▸ hz, o, ho, Option.some.inj (hp.symm.trans hpage)⟩

theorem pagingInit_pageDir (h : pagingInit img dir pgt limit = some st) : st.pageDir = img.kernelPageDir := by
  rw [pagingInit] at h
  split_ifs at h
  cases h
  rfl

theorem table_low (h : pagingInit img dir pgt limit = some st) {i : ℕ} (hi : i < 256) :
    (tableAt st.pgtBase i).toNat < 0xC1000000 ∧ (pa (tableAt st.pgtBase i)).toNat < 0x1000000 := by
  obtain ⟨-, hge, hle⟩ := img.kernelPageDir_spec
  have hb := pagingInit_built h
  have hbase := hb.base
  have htable := hb.tableAt_toNat hi.le
  have hpa := pa_toNat (a := tableAt st.pgtBase i) (by omega)
  omega

/-- the user half of kernel_page_dir -/
theorem kernel_user (h : pagingInit img dir pgt limit = some st) {mem : Memory}
    (hdir : ∀ k < ptrsPerPgd, mem st.pageDir k = st.dir k) : ∀ d < 768, pgtPresent (mem st.pageDir d) = false := by
  intro d hd
  have hlt : d < ptrsPerPgd := hd.trans (by decide)
  rw [hdir d hlt, (pagingInit_built h).user d hd, pgtPresent_zero]

/-- the directory and the tables of the kernel lie below 16 MB -/
theorem kernel_low (h : pagingInit img dir pgt limit = some st) :
    ¬ Normal L st.pageDir ∧ ∀ i < 256, ¬ Normal L (tableAt st.pgtBase i) ∧
      ∀ p, L.virtToPage (tableAt st.pgtBase i) = some p → ∀ z ∈ L.chain zoneNormal, ∀ o < L.pages z, p ≠
      L.base z + o := by
  obtain ⟨-, -, hle⟩ := img.kernelPageDir_spec
  refine ⟨fun hn => ?_, fun i hi => ?_⟩
  · have hfar := normal_ge hn
    rw [pagingInit_pageDir h] at hfar
    omega
  · obtain ⟨hlow, hpa⟩ := table_low h hi
    refine ⟨fun hn => absurd (normal_ge hn) (not_le.2 hlow), fun p hp z hz o ho he => ?_⟩
    obtain ⟨z', hz', o', ho', he'⟩ := low_page hpa hp
    obtain rfl : z = z' := L.zone_unique (L.mem_all.2 ⟨_, hz⟩) (L.mem_all.2 ⟨_, hz'⟩) (p := p) ⟨by omega, by omega⟩
      ⟨by omega, by omega⟩
    exact absurd (L.one_type _ _ z hz hz') (by decide)

/-- what holds in every state: loads return; free_page_dir gives back all that is held but by the others, once, and no table of
the kernel; the kernel half, the directory of the kernel and its tables are as before -/
structure Balanced (L : Layout) (vm0 : Vm) (st : Paging.State) (pgd : Word) (s : Users) : Prop where
  loads : ∀ a, UserPage a → Unmapped s.vm.mem pgd a → (loadPage L s.vm pgd a).isSome
  frees : ∃ (freed : List ℕ) (vm' : Vm), freePageDir L s.vm pgd = some vm' ∧
    run L s.vm.sys (freed.map (.dealloc · 0)) = some vm'.sys ∧
    s.vm.sys.live.Perm (freed.map (·, 0) ++ s.others) ∧
    (∀ p, FreePage L vm'.sys.mm p ↔ Mapped L p ∧ ∀ b ∈ s.others, ¬ Covers b p) ∧
    (s.others.Perm vm0.sys.live → ∀ p, FreePage L vm'.sys.mm p ↔ FreePage L vm0.sys.mm p) ∧
    (∀ i < 256, ∀ p ∈ freed, L.virtToPage (tableAt st.pgtBase i) ≠ some p) ∧
    vm'.mem = s.vm.mem
  upper : ∀ k, 768 ≤ k → k < ptrsPerPgd → s.vm.mem pgd k = st.dir k ∧ s.vm.mem st.pageDir k = st.dir k
  tables : ∀ i < 256, s.vm.mem (tableAt st.pgtBase i) = vm0.mem (tableAt st.pgtBase i)

/-- no table of the kernel lies in a free page when load_page is called -/
def Reserved (L : Layout) (st : Paging.State) (s : Users) (e : Event) : Prop :=
  (∃ a, e = .load a) → ∀ i < 256, ∀ p, L.virtToPage (tableAt st.pgtBase i) = some p → ¬ FreePage L s.vm.sys.mm p

/-- **Directories leave nothing behind.** For every memory limit and every kernel with which paging_init returns, every state of
the page allocator and every run of load_page calls and of others from copy_empty_page_dir on, in which no table of the kernel
lies in a free page when load_page is called: every state is balanced. -/
theorem dir_balanced {vm0 : Vm} {s : Users} (hk : pagingInit img dir pgt limit = some st) (h0 : (system L).Reach vm0.sys)
    (hdir : ∀ k < ptrsPerPgd, vm0.mem st.pageDir k = st.dir k)
    (h : ((dirSystem L vm0 st.pageDir pgd).only (Reserved L st)).Reach s) : Balanced L vm0 st pgd s := by
  have hi0 := reach_inv h0
  obtain ⟨hlow, htables⟩ := kernel_low (L := L) hk
  -- the pages of the directory are those that were taken, and none of them has a table of the kernel
  have hinv : Owned L vm0.mem (vm0.mem st.pageDir) s.vm pgd s.others ∧
      ∀ i < 256, ∀ p ∈ refs L s.vm.mem pgd, L.virtToPage (tableAt st.pgtBase i) ≠ some p := by
    induction h with
    | @start s hs =>
      obtain ⟨hc, ho⟩ := hs
      obtain ⟨hown, z, hz, o, hoz, hrefs⟩ := copy_owned hi0 (kernel_user hk hdir) hc
      refine ⟨ho ▸ hown, fun i hi p hp he => ?_⟩
      rw [hrefs, List.mem_singleton] at hp
      exact (htables i hi).2 p he z hz o hoz hp
    | @step s s' e _ hst ih =>
      obtain ⟨hown, hno⟩ := ih
      obtain ⟨hok, hs⟩ := hst
      obtain ⟨hown', hnew⟩ := step_owned hown hs
      refine ⟨hown', fun i hi p hp he => ?_⟩
      rcases hnew p hp with hold | ⟨hload, hfree⟩
      · exact hno i hi p hold he
      · exact hok hload i hi p he hfree
  obtain ⟨hown, hno⟩ := hinv
  obtain ⟨s1, hgive, hrun, hi1, hlive⟩ := giveBack_spec hown.inv _ hown.live
  refine ⟨fun a ha hun => ?_, ⟨refs L s.vm.mem pgd, ⟨s1, s.vm.mem⟩, ?_, hrun, hown.live, fun p => ?_,
    fun hsame p => ?_, hno, rfl⟩, fun k hk1 hk2 => ⟨?_, ?_⟩, fun i hi => hown.frame _ (htables i hi).1⟩
  · obtain ⟨r, hr, -⟩ := load_cases hown.inv ha hun hown.taken
    rw [hr]
    rfl
  · rw [freePageDir_eq hown.leads, hgive]
    rfl
  · rw [free_iff hi1]
    exact and_congr_right fun _ => forall_congr' fun b => by rw [hlive.mem_iff]
  · exact free_congr hi1 hi0 (fun b => (hlive.trans hsame).mem_iff) p
  · exact (hown.upper k hk1 hk2).trans (hdir k hk2)
  · exact (congrFun (hown.frame _ hlow) k).trans (hdir k hk2)

/-! ## A directory with three normal pages -/

/-- kernel_page_dir in memory, behind a kernel of 128 KB -/
def bootMemory : Memory := setPage (fun _ _ => 0#32) smallImage.kernelPageDir smallDir

/-- the DMA pages are held, but for the one behind the 255 pages of tables -/
def tightVm : Vm := ⟨(run two twoBoot [.alloc zoneDma 8, .alloc zoneDma 5]).get (by decide +kernel), bootMemory⟩

/-- all DMA pages are held -/
def fullVm : Vm := ⟨(run two twoBoot [.alloc zoneDma 8, .alloc zoneDma 5, .alloc zoneDma 0]).get (by decide +kernel),
    bootMemory⟩

theorem reach_tight : (system two).Reach tightVm.sys :=
  reach_two [.alloc zoneDma 8, .alloc zoneDma 5] (Option.some_get _).symm

theorem reach_full : (system two).Reach fullVm.sys :=
  reach_two [.alloc zoneDma 8, .alloc zoneDma 5, .alloc zoneDma 0] (Option.some_get _).symm

/-- the memory limit of the machine -/
theorem boot_dir : ∃ st, pagingInit smallImage (fun _ => 0) (fun _ => 0) 0x1003000#64 = some st ∧
    st.pageDir = smallImage.kernelPageDir ∧ (∀ k < ptrsPerPgd, bootMemory st.pageDir k = st.dir k) ∧
    st.pgtBase = 0xC0121000#32 := by
  obtain ⟨st, hst⟩ := pagingInit_returns 0x1003000#64 (by decide)
  have hpage := pagingInit_pageDir hst
  refine ⟨st, hst, hpage, fun k hk => ?_, ?_⟩
  · rw [hpage, bootMemory, setPage_self, smallDir_eq hst hk]
  · rw [← BitVec.toNat_inj, (pagingInit_built hst).base]
    decide

/-- a load that returns a page, at an address where nothing is mapped -/
theorem load_step {vm0 : Vm} {kernelPageDir a : Word} {s : Users} (hs : (dirSystem L vm0 kernelPageDir pgd).Reach s)
    (ha : UserPage a) (hun : (pte s.vm.mem pgd a).all (fun e => !pgtPresent e) = true) {r : Option ℕ × Vm}
    (hr : loadPage L s.vm pgd a = some r) : (dirSystem L vm0 kernelPageDir pgd).Reach ⟨r.2, s.others⟩ := by
  refine hs.step (e := .load a) ⟨ha, fun e he => ?_, r, hr, rfl⟩
  rw [he, Option.all_some, Bool.not_eq_true'] at hun
  exact hun

def tightCopy : Option Word × Vm := (copyEmptyPageDir two tightVm smallImage.kernelPageDir).get (by decide +kernel)

def tightLoad : Option ℕ × Vm := (loadPage two tightCopy.2 0xC1002000#32 0#32).get (by decide +kernel)

def tightLoads : Option ℕ × Vm := (loadPage two tightLoad.2 0xC1002000#32 0x1000#32).get (by decide +kernel)

/-- The directory and one table take the normal pages but one. The second page that is loaded is the last DMA page, which the
last entry of the directory has as a table, and free_page_dir gives it back. -/
theorem dir_frees_table : ∃ st, pagingInit smallImage (fun _ => 0) (fun _ => 0) 0x1003000#64 = some st ∧
    (system two).Reach tightVm.sys ∧ (∀ k < ptrsPerPgd, tightVm.mem st.pageDir k = st.dir k) ∧
    (dirSystem two tightVm st.pageDir 0xC1002000#32).Reach ⟨tightLoads.2, tightVm.sys.live⟩ ∧
    ¬ Balanced two tightVm st 0xC1002000#32 ⟨tightLoads.2, tightVm.sys.live⟩ := by
  obtain ⟨st, hst, hpage, hdir, hbase⟩ := boot_dir
  refine ⟨st, hst, reach_tight, hdir, ?_, fun hbal => ?_⟩
  · have hcopy : copyEmptyPageDir two tightVm st.pageDir = some (some 0xC1002000#32, tightCopy.2) := by
      have hfst : tightCopy.1 = some 0xC1002000#32 := by decide +kernel
      rw [hpage, ← hfst]
      exact (Option.some_get _).symm
    have hstart : (dirSystem two tightVm st.pageDir 0xC1002000#32).Reach ⟨tightCopy.2, tightVm.sys.live⟩ :=
      .start ⟨hcopy, rfl⟩
    have hload : loadPage two tightCopy.2 0xC1002000#32 0#32 = some tightLoad := (Option.some_get _).symm
    have hloads : loadPage two tightLoad.2 0xC1002000#32 0x1000#32 = some tightLoads := (Option.some_get _).symm
    exact load_step (load_step hstart (by decide) (by decide +kernel) hload) (by decide) (by decide +kernel) hloads
  · obtain ⟨freed, vm', -, -, hlive, -, -, hno, -⟩ := hbal.frees
    have hheld : (288, 0) ∈ tightLoads.2.sys.live := by decide +kernel
    have hothers : (288, 0) ∉ tightVm.sys.live := by decide +kernel
    have hfreed : 288 ∈ freed := by
      rcases List.mem_append.1 (hlive.mem_iff.1 hheld) with hin | hin
      · obtain ⟨p, hp, he⟩ := List.mem_map.1 hin
        obtain rfl : p = 288 := congrArg Prod.fst he
        exact hp
      · exact absurd hin hothers
    refine hno 255 (by decide) 288 hfreed ?_
    rw [hbase]
    decide +kernel

def fullCopy : Option Word × Vm := (copyEmptyPageDir two fullVm smallImage.kernelPageDir).get (by decide +kernel)

def fullLoad : Option ℕ × Vm := (loadPage two fullCopy.2 0xC1002000#32 0#32).get (by decide +kernel)

/-- with all DMA pages held, a load gets a normal page -/
theorem dir_balanced_full : ∃ st, pagingInit smallImage (fun _ => 0) (fun _ => 0) 0x1003000#64 = some st ∧
    Balanced two fullVm st 0xC1002000#32 ⟨fullLoad.2, fullVm.sys.live⟩ := by
  obtain ⟨st, hst, hpage, hdir, -⟩ := boot_dir
  refine ⟨st, hst, dir_balanced hst reach_full hdir ?_⟩
  have hcopy : copyEmptyPageDir two fullVm st.pageDir = some (some 0xC1002000#32, fullCopy.2) := by
    have hfst : fullCopy.1 = some 0xC1002000#32 := by decide +kernel
    rw [hpage, ← hfst]
    exact (Option.some_get _).symm
  have hstart : ((dirSystem two fullVm st.pageDir 0xC1002000#32).only (Reserved two st)).Reach
      ⟨fullCopy.2, fullVm.sys.live⟩ :=
    .start ⟨hcopy, rfl⟩
  have hload : loadPage two fullCopy.2 0xC1002000#32 0#32 = some fullLoad := (Option.some_get _).symm
  have hun : (pte fullCopy.2.mem 0xC1002000#32 0#32).all (fun e => !pgtPresent e) = true := by decide +kernel
  refine hstart.step (e := .load 0#32) ⟨fun _ i hi p hp hfree => ?_, by decide, fun e he => ?_, _, hload, rfl⟩
  · -- a table of the kernel is a DMA page, and these are held
    obtain ⟨z, hz, o, ho, rfl⟩ := low_page (table_low hst hi).2 hp
    have hchain : z ∈ [0] := hz
    obtain rfl := List.mem_singleton.1 hchain
    have hown := (copy_owned (reach_inv reach_full) (kernel_user hst hdir) hcopy).1
    have hheld := ((free_iff hown.inv _).1 hfree).2
    have hpages : two.pages 0 = 289 := rfl
    have hbase : two.base 0 = 0 := rfl
    rw [hpages] at ho
    rw [hbase, Nat.zero_add] at hheld
    have hmem : ∀ b ∈ [(0, 8), (256, 5), (288, 0)], b ∈ fullCopy.2.sys.live := by decide +kernel
    have h1 := hheld (0, 8) (hmem _ (by decide))
    have h2 := hheld (256, 5) (hmem _ (by decide))
    have h3 := hheld (288, 0) (hmem _ (by decide))
    simp only [Covers] at h1 h2 h3
    omega
  · rw [he, Option.all_some, Bool.not_eq_true'] at hun
    exact hun

end SinsOs.PageTable
