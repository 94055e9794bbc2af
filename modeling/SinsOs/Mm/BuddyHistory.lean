/-
The page allocator has no memory of what was freed: what it can give depends on the blocks that are out, not on the calls that
led there.

- `alloc_some_iff`: alloc_pages returns a page exactly when some zone of the type has a free block that is large enough.
- `history_free`: two states with the same live blocks, after any two runs, have the same blocks on each free list, and
  alloc_pages succeeds in one if it succeeds in the other.
-/
import SinsOs.Mm.BuddyRun

namespace SinsOs.BuddyRun

open SinsOs.Core SinsOs.Mm SinsOs.Dyadic SinsOs.PageAlloc

variable {L : Layout} {s s' : Sys}

/-- the blocks of a tiling that are not listed are the live ones -/
theorem Held.live {z : ℕ} {t : Tiling maxOrder (L.pages z)} (h : Held L s z t) (o k : ℕ) :
    t.ord o = some k ∧ ¬ Listed L s.mm z none o ↔ o < L.pages z ∧ (L.base z + o, k) ∈ s.live := by
  have hused : ¬ Listed L s.mm z none o ↔ s.mm.mmapTestUsed (L.base z + o) = true := by
    rw [Listed, not_and_or, Bool.not_eq_false]
    exact ⟨fun h => h.resolve_right (not_not.2 (by simp)), Or.inl⟩
  rw [hused]
  exact ⟨fun hb => ⟨t.lt_of_ord hb.1, (h o (t.lt_of_ord hb.1) k).2 hb⟩, fun hb => (h o hb.1 k).1 hb.2⟩

theorem free_of_live (hi : Inv L s) (hi' : Inv L s') (hlive : ∀ b, b ∈ s.live ↔ b ∈ s'.live) {z k p : ℕ}
    (hz : z ∈ L.all) (hp : p ∈ (s.mm.freeArea z k).list) : p ∈ (s'.mm.freeArea z k).list := by
  obtain ⟨t, hr, hh⟩ := hi.zones z hz
  obtain ⟨t', hr', hh'⟩ := hi'.zones z hz
  obtain ⟨o, rfl, ho, hl⟩ := (hr.listed k p).1 hp
  have hsame : ∀ o k, t.ord o = some k ∧ ¬ Listed L s.mm z none o ↔ t'.ord o = some k ∧ ¬ Listed L s'.mm z none o := by
    intro o k
    rw [hh.live, hh'.live, hlive]
  obtain ⟨ho', hl'⟩ := t.coalesced_free t' hr.coal hr'.coal hsame ho hl
  exact (hr'.listed k _).2 ⟨o, rfl, ho', hl'⟩

/-- **alloc_pages fails only if no free block is large enough.** -/
theorem alloc_some_iff (hi : Inv L s) {zoneType : ℕ} (order : ℕ) (hty : zoneType < nrZoneTypes) :
    (∃ page m, allocPages L s.mm zoneType order = some (some page, m)) ↔
      ∃ z ∈ L.chain zoneType, ∃ k, order ≤ k ∧ (s.mm.freeArea z k).list ≠ [] := by
  have hreps : ∀ z ∈ L.all, ∃ t : Tiling maxOrder (L.pages z), Rep L s.mm z t none := fun z hz =>
    (hi.zones z hz).imp fun _ h => h.1
  rcases alloc_spec order hty hreps with ⟨he, hemp⟩ | ⟨z, hz, h, m', he, htook⟩
  · refine iff_of_false ?_ ?_
    · rintro ⟨page, m, hsome⟩
      rw [he] at hsome
      cases hsome
    · rintro ⟨z, hz, k, hk, hne⟩
      exact hne (hemp z hz k hk)
  · refine iff_of_true ⟨_, m', he⟩ ⟨z, hz, ?_⟩
    obtain ⟨t, hr⟩ := hreps z (L.mem_all.2 ⟨zoneType, hz⟩)
    obtain ⟨t', ht⟩ := htook t hr
    -- the block of t around the page that was taken: all blocks that the taken one meets were free
    have hmeet : ∀ o k, t.ord o = some k → h < o + 2 ^ k → o < h + 2 ^ order → Listed L s.mm z none o := by
      intro o k ho h1 h2
      refine ⟨?_, by simp⟩
      by_contra hused
      rw [Bool.not_eq_false] at hused
      have ho' := (ht.keep o hused).trans ho
      have hk := Nat.two_pow_pos k
      have hord := Nat.two_pow_pos order
      obtain rfl := t'.ord_unique (x := max o h) ho' ht.head (le_max_left _ _) (by omega) (le_max_right _ _) (by omega)
      rw [ht.fresh] at hused
      cases hused
    obtain ⟨o, k, ho, h1, h2⟩ := t.cover h (t'.lt_of_ord ht.head)
    have hle := t.coalesced_fill hr.coal (t'.aligned h order ht.head) (t'.inside h order ht.head) (t'.le_max h order ht.head)
      hmeet k o ho h2 (by have := Nat.two_pow_pos order; omega)
    have hlisted := hmeet o k ho h2 (by have := Nat.two_pow_pos order; omega)
    exact ⟨k, hle, List.ne_nil_of_mem ((hr.listed k _).2 ⟨o, rfl, ho, hlisted⟩)⟩

/-- **The free blocks depend on the live blocks alone.** After any two runs of alloc_pages and dealloc_pages that leave the same
blocks with the callers, the free lists of each zone and order have the same blocks and the same size, and alloc_pages finds
a block of a type and an order after the one run if and only if it finds one after the other. -/
theorem history_free (h : (system L).Reach s) (h' : (system L).Reach s') (hlive : ∀ b, b ∈ s.live ↔ b ∈ s'.live) :
    (∀ z ∈ L.all, ∀ k, (s.mm.freeArea z k).list.Perm (s'.mm.freeArea z k).list ∧
      (s.mm.freeArea z k).size = (s'.mm.freeArea z k).size) ∧
    ∀ zoneType order, zoneType < nrZoneTypes →
      ((∃ page m, allocPages L s.mm zoneType order = some (some page, m)) ↔
        ∃ page m, allocPages L s'.mm zoneType order = some (some page, m)) := by
  have hi := reach_inv h
  have hi' := reach_inv h'
  have hperm : ∀ z ∈ L.all, ∀ k, (s.mm.freeArea z k).list.Perm (s'.mm.freeArea z k).list := by
    intro z hz k
    obtain ⟨t, hr, -⟩ := hi.zones z hz
    obtain ⟨t', hr', -⟩ := hi'.zones z hz
    refine (List.perm_ext_iff_of_nodup (hr.nodup k) (hr'.nodup k)).2 fun p => ?_
    exact ⟨free_of_live hi hi' hlive hz, free_of_live hi' hi (fun b => (hlive b).symm) hz⟩
  refine ⟨fun z hz k => ⟨hperm z hz k, ?_⟩, fun zoneType order hty => ?_⟩
  · obtain ⟨t, hr, -⟩ := hi.zones z hz
    obtain ⟨t', hr', -⟩ := hi'.zones z hz
    rw [hr.size, hr'.size, (hperm z hz k).length_eq]
  · rw [alloc_some_iff hi order hty, alloc_some_iff hi' order hty]
    refine exists_congr fun z => and_congr_right fun hz => exists_congr fun k => and_congr_right fun _ => ?_
    rw [Ne, Ne, ← List.isEmpty_iff, ← List.isEmpty_iff, (hperm z (L.mem_all.2 ⟨zoneType, hz⟩) k).isEmpty_eq]

/-- a block is taken and stays -/
def direct : Sys := (run Layout.small smallBoot [.alloc zoneNormal 1]).get (by decide +kernel)

/-- the same, but two smaller blocks were taken after it, and given back in the order they were taken -/
def detour : Sys :=
  (run Layout.small smallBoot
    [.alloc zoneNormal 1, .alloc zoneNormal 0, .alloc zoneNormal 0, .dealloc 0 0, .dealloc 1 0]).get (by decide +kernel)

theorem detour_free :
    (∀ z ∈ Layout.small.all, ∀ k, (direct.mm.freeArea z k).list.Perm (detour.mm.freeArea z k).list ∧
      (direct.mm.freeArea z k).size = (detour.mm.freeArea z k).size) ∧
    ∀ zoneType order, zoneType < nrZoneTypes →
      ((∃ page m, allocPages Layout.small direct.mm zoneType order = some (some page, m)) ↔
        ∃ page m, allocPages Layout.small detour.mm zoneType order = some (some page, m)) :=
  have hlive : direct.live = detour.live := by decide +kernel
  history_free (reach_small (Option.some_get _).symm) (reach_small (Option.some_get _).symm)
    fun b => by rw [hlive]

end SinsOs.BuddyRun
