/-
Runs of the page allocator: any sequence of alloc_pages and dealloc_pages calls from the state page_alloc_init builds
(before it wipes the kernel's own pages with alloc_region). Every dealloc_pages gets a page that an earlier alloc_pages
returned and that is not yet freed, with the order of that call.

- `partition_reachable`: in every reachable state the pages of every zone are partitioned into blocks, each of them
  live or on the free list of its own order exactly once; live blocks are disjoint; a legal call never hits a BUG_ON;
  alloc_pages returns NULL only when no zone of the type has a free block that is large enough.
- `coalescing_reachable`: no two buddies of one order below MAX_ORDER are both free, and when nothing is live the free
  lists have the elements build_zone_buddy_system gave them.
-/
import SinsOs.Core.Lts
import SinsOs.Mm.BuddyOps

namespace SinsOs.BuddyRun

open SinsOs.Core SinsOs.Bits SinsOs.Mm SinsOs.Dyadic SinsOs.PageAlloc

/-! ## Model -/

/-- the allocator and the (page, order) pairs its callers hold -/
structure Sys where
  mm : St
  live : List (ℕ × ℕ)

inductive Op
  | alloc (zoneType order : ℕ)
  | dealloc (page order : ℕ)
deriving DecidableEq, Repr

def Sys.took (s : Sys) (order : ℕ) (r : Option ℕ × St) : Sys :=
  ⟨r.2, match r.1 with
    | none => s.live
    | some p => (p, order) :: s.live⟩

def legal (s : Sys) : Op → Prop
  | .alloc _ _ => True
  | .dealloc page order => (page, order) ∈ s.live

instance (s : Sys) (o : Op) : Decidable (legal s o) := by
  cases o <;> unfold legal <;> infer_instance

def step (L : Layout) (s : Sys) : Op → Option Sys
  | .alloc zoneType order => (allocPages L s.mm zoneType order).map (s.took order)
  | .dealloc page order => (deallocPages L s.mm page order).map fun m => ⟨m, s.live.erase (page, order)⟩

/-- the states page_alloc_init builds from cleared descriptors -/
def Booted (L : Layout) (s : Sys) : Prop :=
  (∃ m, (∀ z ∈ L.all, Blank L m z) ∧ buildZones L m L.all = some s.mm) ∧ s.live = []

def system (L : Layout) : Lts Sys Op where
  start := Booted L
  step := fun s o s' => legal s o ∧ step L s o = some s'

/-- the operations of a list in order, while they are legal and return -/
def run (L : Layout) (s : Sys) : List Op → Option Sys
  | [] => some s
  | o :: os => if legal s o then (step L s o).bind fun s' => run L s' os else none

theorem reach_run {L : Layout} {s s' : Sys} {os : List Op} (h : (system L).Reach s) (hr : run L s os = some s') :
    (system L).Reach s' := by
  induction os generalizing s with
  | nil => cases hr; exact h
  | cons o os ih =>
    rw [run] at hr
    split_ifs at hr with hl
    obtain ⟨s1, h1, h2⟩ := Option.bind_eq_some_iff.1 hr
    exact ih (h.step ⟨hl, h1⟩) h2

/-! ## Invariant -/

variable {L : Layout} {s s' : Sys}

/-- the callers hold exactly the used blocks of zone z -/
def Held (L : Layout) (s : Sys) (z : ℕ) (t : Tiling maxOrder (L.pages z)) : Prop :=
  ∀ o < L.pages z, ∀ k, (L.base z + o, k) ∈ s.live ↔ t.ord o = some k ∧ s.mm.mmapTestUsed (L.base z + o) = true

structure Inv (L : Layout) (s : Sys) : Prop where
  zones : ∀ z ∈ L.all, ∃ t : Tiling maxOrder (L.pages z), Rep L s.mm z t none ∧ Held L s z t
  inZone : ∀ p k, (p, k) ∈ s.live → ∃ z ∈ L.all, ∃ o < L.pages z, p = L.base z + o
  nodup : s.live.Nodup

theorem boot_inv (hb : Booted L s) : Inv L s := by
  obtain ⟨⟨m, hm, he⟩, hl⟩ := hb
  obtain ⟨m', he', hb', -⟩ := buildZones_spec L.all L.all_nodup (fun _ h => h) m hm
  rw [he] at he'
  cases he'
  refine ⟨fun z hz => ?_, by simp [hl], by simp [hl]⟩
  obtain ⟨t, hr, hu⟩ := hb' z hz
  exact ⟨t, hr, fun o ho k => by simp [hl, hu o ho]⟩

theorem alloc_inv (hi : Inv L s) {zoneType order : ℕ} (hs : step L s (.alloc zoneType order) = some s') : Inv L s' := by
  obtain ⟨r, hr, rfl⟩ := Option.map_eq_some_iff.1 hs
  have hty : zoneType < nrZoneTypes := by
    by_contra hc
    rw [allocPages, if_pos (by omega)] at hr
    cases hr
  have hreps : ∀ z ∈ L.all, ∃ t : Tiling maxOrder (L.pages z), Rep L s.mm z t none := fun z hz =>
    (hi.zones z hz).imp fun _ h => h.1
  rcases alloc_spec order hty hreps with ⟨he, -⟩ | ⟨z0, hz0, h, m', he, htook⟩
  · rw [he] at hr
    cases hr
    exact ⟨hi.zones, hi.inZone, hi.nodup⟩
  · rw [he] at hr
    cases hr
    have hz0 : z0 ∈ L.all := L.mem_all.2 ⟨zoneType, hz0⟩
    obtain ⟨t0, hr0, hh0⟩ := hi.zones z0 hz0
    obtain ⟨t0', hk⟩ := htook t0 hr0
    have hlt := t0'.lt_of_ord hk.head
    have hfresh : ∀ k, (L.base z0 + h, k) ∉ s.live := fun k hin => by
      have := ((hh0 h hlt k).1 hin).2
      rw [hk.fresh] at this; cases this
    refine ⟨fun z hz => ?_, fun p k hin => ?_, List.nodup_cons.2 ⟨hfresh order, hi.nodup⟩⟩
    · by_cases hne : z = z0
      · subst hne
        refine ⟨t0', hk.rep, fun o ho k => ?_⟩
        simp only [Sys.took, List.mem_cons, Prod.mk.injEq, Nat.add_left_cancel_iff, hh0 o ho k, hk.used,
          Bool.or_eq_true, decide_eq_true_eq]
        by_cases heq : o = h
        · subst heq
          simp [hk.fresh, hk.head, eq_comm]
        · simp only [heq, false_and, false_or]
          constructor
          · rintro ⟨ho1, hu⟩; exact ⟨(hk.keep o hu).trans ho1, hu⟩
          · rintro ⟨ho1, hu⟩; exact ⟨(hk.keep o hu).symm.trans ho1, hu⟩
      · obtain ⟨t, hr, hh⟩ := hi.zones z hz
        obtain ⟨hr', hu'⟩ := hr.frame hk.frame hz hz0 hne
        refine ⟨t, hr', fun o ho k => ?_⟩
        have hother : L.base z + o ≠ L.base z0 + h := fun he =>
          hne (L.zone_unique hz hz0 (p := L.base z + o) ⟨by omega, by omega⟩ ⟨by omega, by omega⟩)
        simp only [Sys.took, List.mem_cons, Prod.mk.injEq, hother, false_and, false_or, hh o ho k, hu' o ho]
    · rcases List.mem_cons.1 hin with heq | hin
      · cases heq; exact ⟨z0, hz0, h, hlt, rfl⟩
      · exact hi.inZone p k hin

/-- a block a caller holds is a used block of one zone -/
theorem Inv.block (hi : Inv L s) {p k : ℕ} (hin : (p, k) ∈ s.live) :
    ∃ z ∈ L.all, ∃ o, p = L.base z + o ∧ ∃ t : Tiling maxOrder (L.pages z), Rep L s.mm z t none ∧ Held L s z t ∧
      t.ord o = some k ∧ s.mm.mmapTestUsed (L.base z + o) = true := by
  obtain ⟨z, hz, o, ho, rfl⟩ := hi.inZone p k hin
  obtain ⟨t, hr, hh⟩ := hi.zones z hz
  exact ⟨z, hz, o, rfl, t, hr, hh, (hh o ho k).1 hin⟩

theorem dealloc_inv (hi : Inv L s) {page order : ℕ} (hl : legal s (.dealloc page order))
    (hs : step L s (.dealloc page order) = some s') : Inv L s' := by
  obtain ⟨m, hm, rfl⟩ := Option.map_eq_some_iff.1 hs
  obtain ⟨z0, hz0, h, rfl, t0, hr0, hh0, ho0, hu0⟩ := hi.block hl
  obtain ⟨m', t0', he, hg⟩ := dealloc_spec hz0 hr0 ho0 hu0
  rw [he] at hm
  cases hm
  have hlt := t0.lt_of_ord ho0
  have hmem : ∀ p k, (p, k) ∈ s.live.erase (L.base z0 + h, order) ↔ (p, k) ∈ s.live ∧
      (p, k) ≠ (L.base z0 + h, order) :=
    fun p k => by rw [hi.nodup.mem_erase_iff, and_comm]
  refine ⟨fun z hz => ?_, fun p k hin => hi.inZone p k ((hmem p k).1 hin).1, hi.nodup.erase _⟩
  by_cases hne : z = z0
  · subst hne
    refine ⟨t0', hg.rep, fun o ho k => ?_⟩
    rw [hmem, hh0 o ho k, hg.used]
    by_cases heq : o = h
    · subst heq
      rw [ho0]
      simp only [Option.some.injEq, hu0, and_true, ne_eq, Prod.mk.injEq, true_and, decide_true, Bool.not_true,
        Bool.false_and, Bool.false_eq_true, and_false, iff_false, not_and, not_not]
      exact fun h => h.symm
    · simp only [ne_eq, Prod.mk.injEq, Nat.add_left_cancel_iff, heq, false_and, not_false_eq_true, and_true,
        decide_false, Bool.not_false, Bool.true_and]
      constructor
      · rintro ⟨ho1, hu⟩; exact ⟨(hg.keep o heq hu).trans ho1, hu⟩
      · rintro ⟨ho1, hu⟩; exact ⟨(hg.keep o heq hu).symm.trans ho1, hu⟩
  · obtain ⟨t, hr, hh⟩ := hi.zones z hz
    obtain ⟨hr', hu'⟩ := hr.frame hg.frame hz hz0 hne
    refine ⟨t, hr', fun o ho k => ?_⟩
    have hother : L.base z + o ≠ L.base z0 + h := fun he =>
      hne (L.zone_unique hz hz0 (p := L.base z + o) ⟨by omega, by omega⟩ ⟨by omega, by omega⟩)
    rw [hmem, hu' o ho, hh o ho k]
    simp [hother]

theorem step_inv {o : Op} (hi : Inv L s) (hs : (system L).step s o s') : Inv L s' := by
  cases o with
  | alloc zoneType order => exact alloc_inv hi hs.2
  | dealloc page order => exact dealloc_inv hi hs.1 hs.2

theorem reach_inv (h : (system L).Reach s) : Inv L s :=
  h.inv (fun _ => boot_inv) fun _ _ _ => step_inv

/-! ## The partition of a zone -/

/-- the block of order k at page o of zone z is with a caller -/
structure LiveBlock (L : Layout) (s : Sys) (z o k : ℕ) : Prop where
  held : (L.base z + o, k) ∈ s.live
  used : s.mm.mmapTestUsed (L.base z + o) = true
  unlisted : ∀ k', L.base z + o ∉ (s.mm.freeArea z k').list

/-- the block of order k at page o of zone z is on free_area[k], once, and on no other list -/
structure FreeBlock (L : Layout) (s : Sys) (z o k : ℕ) : Prop where
  unheld : ∀ k', (L.base z + o, k') ∉ s.live
  unused : s.mm.mmapTestUsed (L.base z + o) = false
  listed : ∀ k', (s.mm.freeArea z k').list.count (L.base z + o) = if k' = k then 1 else 0

/-- the blocks of `t` against the flag words, the free lists and the callers -/
structure Partition (L : Layout) (s : Sys) (z : ℕ) (t : Tiling maxOrder (L.pages z)) : Prop where
  heads : ∀ o < L.pages z, s.mm.mmapTestPrivate (L.base z + o) = true ↔ ∃ k, t.ord o = some k
  usedHeads : ∀ o < L.pages z, s.mm.mmapTestUsed (L.base z + o) = true → ∃ k, t.ord o = some k
  blocks : ∀ o k, t.ord o = some k → LiveBlock L s z o k ∨ FreeBlock L s z o k
  lists : ∀ k, ∀ p ∈ (s.mm.freeArea z k).list, ∃ o, p = L.base z + o ∧ t.ord o = some k ∧ FreeBlock L s z o k
  size : ∀ k, (s.mm.freeArea z k).size = (s.mm.freeArea z k).list.length

theorem partition_of_rep {z : ℕ} {t : Tiling maxOrder (L.pages z)} (hr : Rep L s.mm z t none) (hh : Held L s z t) :
    Partition L s z t := by
  have hmem : ∀ o k', L.base z + o ∈ (s.mm.freeArea z k').list ↔
      t.ord o = some k' ∧ s.mm.mmapTestUsed (L.base z + o) = false := by
    intro o k'
    rw [hr.listed k']
    constructor
    · rintro ⟨o', he, ho', hu, -⟩
      obtain rfl := Nat.add_left_cancel he
      exact ⟨ho', hu⟩
    · rintro ⟨ho, hu⟩; exact ⟨o, rfl, ho, hu, by simp⟩
  have hfree : ∀ o k, t.ord o = some k → s.mm.mmapTestUsed (L.base z + o) = false → FreeBlock L s z o k := by
    intro o k ho hu
    refine ⟨fun k' hin => ?_, hu, fun k' => ?_⟩
    · have := ((hh o (t.lt_of_ord ho) k').1 hin).2
      rw [hu] at this; cases this
    · split_ifs with hk
      · subst hk
        exact List.count_eq_one_of_mem (hr.nodup k') ((hmem o k').2 ⟨ho, hu⟩)
      · refine List.count_eq_zero_of_not_mem fun hin => hk ?_
        have := ((hmem o k').1 hin).1
        rw [ho] at this; cases this; rfl
  refine ⟨fun o ho => ?_, fun o ho hu => ?_, fun o k ho => ?_, fun k p hp => ?_, hr.size⟩
  · rw [hr.heads o ho, Option.isSome_iff_exists]
  · rw [← Option.isSome_iff_exists]; exact hr.used o ho hu
  · cases hu : s.mm.mmapTestUsed (L.base z + o) with
    | true =>
      refine Or.inl ⟨(hh o (t.lt_of_ord ho) k).2 ⟨ho, hu⟩, hu, fun k' hin => ?_⟩
      rw [((hmem o k').1 hin).2] at hu; cases hu
    | false => exact Or.inr (hfree o k ho hu)
  · obtain ⟨o, rfl, ho, hu, -⟩ := (hr.listed k p).1 hp
    exact ⟨o, rfl, ho, hfree o k ho hu⟩

theorem live_apart (hi : Inv L s) {p k p' k' : ℕ} (h : (p, k) ∈ s.live) (h' : (p', k') ∈ s.live)
    (hne : (p, k) ≠ (p', k')) : p + 2 ^ k ≤ p' ∨ p' + 2 ^ k' ≤ p := by
  obtain ⟨z, hz, o, rfl, t, hr, hh, ho, hu⟩ := hi.block h
  obtain ⟨z', hz', o', rfl, t', hr', hh', ho', hu'⟩ := hi.block h'
  by_cases hzz : z = z'
  · subst hzz
    have hto : t.ord o' = some k' := ((hh o' (t'.lt_of_ord ho') k').1 h').1
    rcases Nat.lt_trichotomy o o' with hlt | rfl | hlt
    · have := t.apart o k o' k' ho hto hlt; omega
    · rw [ho] at hto; cases hto; exact absurd rfl hne
    · have := t.apart o' k' o k hto ho hlt; omega
  · obtain ⟨ty, hty⟩ := L.mem_all.1 hz
    obtain ⟨ty', hty'⟩ := L.mem_all.1 hz'
    have hap := L.mmap_apart ty z hty ty' z' hty' hzz
    rw [L.mmapEnd_eq hty, L.mmapEnd_eq hty'] at hap
    have h1 := t.inside o k ho
    have h2 := t'.inside o' k' ho'
    simp only [Layout.base] at *
    omega

theorem alloc_null (hi : Inv L s) {zoneType : ℕ} (order : ℕ) (hty : zoneType < nrZoneTypes) :
    ∃ r, allocPages L s.mm zoneType order = some r ∧
      (r.1 = none → ∀ z ∈ L.chain zoneType, ∀ k, order ≤ k → (s.mm.freeArea z k).list = []) := by
  have hreps : ∀ z ∈ L.all, ∃ t : Tiling maxOrder (L.pages z), Rep L s.mm z t none := fun z hz =>
    (hi.zones z hz).imp fun _ h => h.1
  rcases alloc_spec order hty hreps with ⟨he, hemp⟩ | ⟨z, -, h, m', he, -⟩
  · exact ⟨_, he, fun _ => hemp⟩
  · exact ⟨_, he, fun hn => by cases hn⟩

theorem dealloc_returns (hi : Inv L s) {p k : ℕ} (h : (p, k) ∈ s.live) : (deallocPages L s.mm p k).isSome := by
  obtain ⟨z, hz, o, rfl, t, hr, -, ho, hu⟩ := hi.block h
  obtain ⟨m', t', he, -⟩ := dealloc_spec hz hr ho hu
  rw [he]; rfl

/-- **Blocks partition the pages.** In every reachable state each zone is tiled by aligned blocks of order at most
MAX_ORDER, PRIVATE marks exactly their heads, and each block is live or on the list of its order; live blocks are
disjoint, legal calls return, and NULL means that no free block is large enough. -/
theorem partition_reachable (h : (system L).Reach s) :
    (∀ z ∈ L.all, ∃ t : Tiling maxOrder (L.pages z), Partition L s z t) ∧
    (∀ b ∈ s.live, ∃ z ∈ L.all, ∃ o, b.1 = L.base z + o ∧ o + 2 ^ b.2 ≤ L.pages z ∧ LiveBlock L s z o b.2) ∧
    s.live.Nodup ∧
    (∀ b ∈ s.live, ∀ b' ∈ s.live, b ≠ b' → b.1 + 2 ^ b.2 ≤ b'.1 ∨ b'.1 + 2 ^ b'.2 ≤ b.1) ∧
    (∀ zoneType order, zoneType < nrZoneTypes → ∃ r, allocPages L s.mm zoneType order = some r ∧
      (r.1 = none → ∀ z ∈ L.chain zoneType, ∀ k, order ≤ k → (s.mm.freeArea z k).list = [])) ∧
    ∀ b ∈ s.live, (deallocPages L s.mm b.1 b.2).isSome := by
  have hi := reach_inv h
  refine ⟨fun z hz => ?_, ?_, hi.nodup, ?_, fun zoneType order hty => alloc_null hi order hty,
    fun b hb => dealloc_returns hi hb⟩
  · obtain ⟨t, hr, hh⟩ := hi.zones z hz
    exact ⟨t, partition_of_rep hr hh⟩
  · rintro ⟨p, k⟩ hb
    obtain ⟨z, hz, o, rfl, t, hr, hh, ho, hu⟩ := hi.block hb
    refine ⟨z, hz, o, rfl, t.inside o k ho, ?_⟩
    rcases (partition_of_rep hr hh).blocks o k ho with hlive | hfree
    · exact hlive
    · rw [hfree.unused] at hu; cases hu
  · rintro ⟨p, k⟩ hb ⟨p', k'⟩ hb' hne
    exact live_apart hi hb hb' hne

/-! ## A run on the small machine -/

/-- cleared descriptors -/
def blank : St := ⟨fun _ => 0#32, fun _ _ => ⟨[], 0⟩⟩

def smallBoot : Sys := ⟨(buildZones Layout.small blank Layout.small.all).get (by decide +kernel), []⟩

theorem booted_small : Booted Layout.small smallBoot :=
  ⟨⟨blank, fun _ _ => ⟨fun _ _ => rfl, fun _ _ => rfl⟩, by simp [smallBoot]⟩, rfl⟩

theorem reach_small {os : List Op} {s : Sys} (h : run Layout.small smallBoot os = some s) :
    (system Layout.small).Reach s :=
  reach_run (.start booted_small) h

/-- two blocks are taken and one of them is given back -/
def smallRun : Sys :=
  (run Layout.small smallBoot [.alloc zoneNormal 0, .alloc zoneNormal 1, .dealloc 4 0]).get (by decide +kernel)

/-- both of them are given back, the first one first -/
def smallIdle : Sys :=
  (run Layout.small smallBoot [.alloc zoneNormal 0, .alloc zoneNormal 1, .dealloc 4 0, .dealloc 0 1]).get
    (by decide +kernel)

example : smallRun.live = [(0, 1)] := by decide +kernel

theorem partition_small :
    ∃ t : Tiling maxOrder (Layout.small.pages 0), Partition Layout.small smallRun 0 t :=
  (partition_reachable (reach_small (Option.some_get _).symm)).1 0 (by decide)

/-! ## Coalescing -/

theorem free_apart (hi : Inv L s) {z : ℕ} (hz : z ∈ L.all) {o k : ℕ} (hk : k < maxOrder)
    (h : L.base z + o ∈ (s.mm.freeArea z k).list) : L.base z + buddy o k ∉ (s.mm.freeArea z k).list := by
  obtain ⟨t, hr, -⟩ := hi.zones z hz
  obtain ⟨o1, he1, ho1, hl1⟩ := (hr.listed k _).1 h
  obtain rfl := Nat.add_left_cancel he1
  intro hb
  obtain ⟨o2, he2, ho2, hl2⟩ := (hr.listed k _).1 hb
  obtain rfl := Nat.add_left_cancel he2
  exact hr.coal o k hk ho1 hl1 ho2 hl2

/-- with nothing live, the tiling of a zone is the coalesced one -/
theorem idle_tiling (hi : Inv L s) (hl : s.live = []) {z : ℕ} (hz : z ∈ L.all) :
    ∃ t : Tiling maxOrder (L.pages z), t.Coalesced (fun _ => True) ∧
      ∀ k p, p ∈ (s.mm.freeArea z k).list ↔ ∃ o, p = L.base z + o ∧ t.ord o = some k := by
  obtain ⟨t, hr, hh⟩ := hi.zones z hz
  have hu : ∀ o k, t.ord o = some k → Listed L s.mm z none o := by
    intro o k ho
    refine ⟨?_, by simp⟩
    by_contra hu
    have := (hh o (t.lt_of_ord ho) k).2 ⟨ho, by simpa using hu⟩
    rw [hl] at this; simp at this
  refine ⟨t, fun o k hk ho _ hb _ => hr.coal o k hk ho (hu o k ho) hb (hu _ k hb), fun k p => ?_⟩
  rw [hr.listed k p]
  exact exists_congr fun o => and_congr_right fun _ => ⟨fun h => h.1, fun h => ⟨h, hu o k h⟩⟩

/-- **Coalescing is maximal and forgets the history.** No two buddies of one order below MAX_ORDER are both free, and
when every block has been given back the free blocks of each order are those of the boot. -/
theorem coalescing_reachable (h : (system L).Reach s) :
    (∀ z ∈ L.all, ∀ o k, k < maxOrder → L.base z + o ∈ (s.mm.freeArea z k).list →
      L.base z + buddy o k ∉ (s.mm.freeArea z k).list) ∧
    (s.live = [] → ∀ s0, Booted L s0 → ∀ z ∈ L.all, ∀ k p,
      p ∈ (s.mm.freeArea z k).list ↔ p ∈ (s0.mm.freeArea z k).list) := by
  have hi := reach_inv h
  refine ⟨fun z hz o k hk hin => free_apart hi hz hk hin, fun hl s0 hb0 z hz k p => ?_⟩
  obtain ⟨t, hc, hm⟩ := idle_tiling hi hl hz
  obtain ⟨t0, hc0, hm0⟩ := idle_tiling (boot_inv hb0) hb0.2 hz
  rw [hm, hm0, Tiling.coalesced_unique t t0 hc hc0]

theorem coalescing_small : 4 ∈ (smallIdle.mm.freeArea 0 1).list ↔ 4 ∈ (smallBoot.mm.freeArea 0 1).list :=
  (coalescing_reachable (reach_small (Option.some_get _).symm)).2 (by decide +kernel) smallBoot booted_small 0
    (by decide) 1 4

end SinsOs.BuddyRun
