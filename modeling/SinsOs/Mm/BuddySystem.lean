/-
The free lists and flag bits of one zone represent a tiling of its pages (kernel/mm/page_alloc.c).

`Rep L m z t hot`: PRIVATE marks exactly the heads of the blocks of `t`, USED is set on heads only, and free_area[k].list
holds exactly the unused blocks of order k, once each. `hot` is the block the running operation has taken off the lists
and not yet given a new place. Every operation of the allocator is one step on the tiling (pop, split, merge, push), with
`hot` as its cursor; `getBuddy_eq` says that get_buddy finds the buddy exactly when it is a free block of the same order.
-/
import SinsOs.Core.Dyadic
import SinsOs.Mm.PageAlloc

namespace SinsOs.PageAlloc

open SinsOs.Bits SinsOs.Mm SinsOs.Dyadic

variable (L : Layout)

/-- page o of zone z is not allocated and is not the block in hand -/
def Listed (m : St) (z : ℕ) (hot : Option ℕ) (o : ℕ) : Prop :=
  m.mmapTestUsed (L.base z + o) = false ∧ hot ≠ some o

structure Rep (m : St) (z : ℕ) {n : ℕ} (t : Tiling maxOrder n) (hot : Option ℕ) : Prop where
  heads : ∀ o < L.pages z, m.mmapTestPrivate (L.base z + o) = (t.ord o).isSome
  used : ∀ o < L.pages z, m.mmapTestUsed (L.base z + o) = true → (t.ord o).isSome
  listed : ∀ k p, p ∈ (m.freeArea z k).list ↔ ∃ o, p = L.base z + o ∧ t.ord o = some k ∧ Listed L m z hot o
  nodup : ∀ k, (m.freeArea z k).list.Nodup
  size : ∀ k, (m.freeArea z k).size = (m.freeArea z k).list.length
  coal : t.Coalesced (Listed L m z hot)
  cold : ∀ h, hot = some h → m.mmapTestUsed (L.base z + h) = false

/-- what the operations on zone z leave alone -/
structure Frame (z : ℕ) (m m' : St) : Prop where
  flags : ∀ q, ¬ (L.base z ≤ q ∧ q < L.base z + L.pages z) → m'.flags q = m.flags q
  area : ∀ z', z' ≠ z → m'.freeArea z' = m.freeArea z'

variable {L} {m m' m'' : St} {z n h k : ℕ} {t : Tiling maxOrder n}

theorem Frame.refl : Frame L z m m := ⟨fun _ _ => rfl, fun _ _ => rfl⟩

theorem Frame.trans (h1 : Frame L z m m') (h2 : Frame L z m' m'') : Frame L z m m'' :=
  ⟨fun q hq => (h2.flags q hq).trans (h1.flags q hq), fun z' hz => (h2.area z' hz).trans (h1.area z' hz)⟩

theorem Frame.setFlags {o : ℕ} (ho : o < L.pages z) (w : Word) : Frame L z m (m.setFlags (L.base z + o) w) where
  flags := by
    intro q hq
    simp only [St.setFlags]
    rw [if_neg]
    rintro rfl
    exact hq ⟨by omega, by omega⟩
  area := fun _ _ => rfl

theorem Frame.setArea (k : ℕ) (a : FreeArea) : Frame L z m (m.setArea z k a) where
  flags := fun _ _ => rfl
  area := by intro z' hz; funext k'; rw [St.freeArea_setArea, if_neg (by tauto)]

theorem Frame.listAdd (p k : ℕ) : Frame L z m (m.listAdd z p k) := Frame.setArea k _

theorem Frame.listDel (p : ℕ) : Frame L z m (m.listDel z p) where
  flags := fun _ _ => rfl
  area := by intro z' hz; funext k'; rw [St.freeArea_listDel, if_neg hz]

theorem Frame.remove (p k : ℕ) : Frame L z m (removeFromFreeArea m z p k) :=
  (Frame.setArea k _).trans (Frame.listDel p)

/-- a zone keeps its tiling when another one is worked on -/
theorem Rep.frame {z' : ℕ} {t : Tiling maxOrder (L.pages z)} (hr : Rep L m z t none) (hf : Frame L z' m m')
    (hz : z ∈ L.all) (hz' : z' ∈ L.all) (hne : z ≠ z') :
    Rep L m' z t none ∧ ∀ o < L.pages z, m'.mmapTestUsed (L.base z + o) = m.mmapTestUsed (L.base z + o) := by
  have hflags : ∀ o < L.pages z, m'.flags (L.base z + o) = m.flags (L.base z + o) := by
    intro o ho
    refine hf.flags _ fun hin => hne ?_
    exact L.zone_unique hz hz' ⟨by omega, by omega⟩ hin
  have hpriv : ∀ o < L.pages z, m'.mmapTestPrivate (L.base z + o) = m.mmapTestPrivate (L.base z + o) :=
    fun o ho => by simp only [St.mmapTestPrivate, hflags o ho]
  have hused : ∀ o < L.pages z, m'.mmapTestUsed (L.base z + o) = m.mmapTestUsed (L.base z + o) :=
    fun o ho => by simp only [St.mmapTestUsed, hflags o ho]
  have hlist : ∀ o k, t.ord o = some k → (Listed L m' z none o ↔ Listed L m z none o) := by
    intro o k ho
    simp only [Listed, hused o (t.lt_of_ord ho)]
  refine ⟨⟨fun o ho => (hpriv o ho).trans (hr.heads o ho), fun o ho hu => hr.used o ho (hused o ho ▸ hu), ?_, ?_, ?_, ?_,
    by simp⟩, hused⟩
  · intro k p
    rw [hf.area z hne, hr.listed k p]
    exact exists_congr fun o => and_congr_right fun _ => and_congr_right fun ho => (hlist o k ho).symm
  · intro k; rw [hf.area z hne]; exact hr.nodup k
  · intro k; rw [hf.area z hne]; exact hr.size k
  · intro o k hk ho hlo hb hlb
    exact hr.coal o k hk ho ((hlist o k ho).1 hlo) hb ((hlist _ k hb).1 hlb)

theorem Rep.lt (_ : Rep L m z t (some h)) (hn : n ≤ L.pages z) (hh : t.ord h = some k) : h < L.pages z :=
  (t.lt_of_ord hh).trans_le hn

/-! ## Taking a block -/

theorem pop_none (hp : popFromFreeArea m z k = none) : (m.freeArea z k).list = [] := by
  unfold popFromFreeArea at hp
  split at hp
  · assumption
  · cases hp

theorem Rep.pop (hr : Rep L m z t none) {p : ℕ} (hp : popFromFreeArea m z k = some (p, m')) :
    ∃ o, p = L.base z + o ∧ t.ord o = some k ∧ Rep L m' z t (some o) ∧ Frame L z m m' ∧ m'.flags = m.flags := by
  unfold popFromFreeArea at hp
  cases hl : (m.freeArea z k).list with
  | nil => rw [hl] at hp; cases hp
  | cons p0 rest =>
    rw [hl] at hp
    simp only [Option.some.injEq, Prod.mk.injEq] at hp
    obtain ⟨rfl, rfl⟩ := hp
    obtain ⟨o, rfl, ho, hlo⟩ := (hr.listed k p0).1 (by rw [hl]; exact List.mem_cons_self)
    have hnd := hr.nodup k
    rw [hl, List.nodup_cons] at hnd
    refine ⟨o, rfl, ho, ⟨hr.heads, hr.used, ?_, ?_, ?_, ?_, ?_⟩, Frame.setArea k _, rfl⟩
    · intro k' p
      rw [St.freeArea_setArea]
      have hiff := hr.listed k' p
      split_ifs with hk
      · obtain ⟨-, rfl⟩ := hk
        rw [hl, List.mem_cons] at hiff
        constructor
        · intro hp
          obtain ⟨o', rfl, ho', hu, -⟩ := hiff.1 (Or.inr hp)
          exact ⟨o', rfl, ho', hu, by rintro ⟨⟩; exact hnd.1 hp⟩
        · rintro ⟨o', rfl, ho', hu, hne⟩
          rcases hiff.2 ⟨o', rfl, ho', hu, by simp⟩ with heq | hin
          · exact absurd (congrArg some (Nat.add_left_cancel heq).symm) hne
          · exact hin
      · rw [hiff]
        constructor
        · rintro ⟨o', rfl, ho', hu, -⟩
          exact ⟨o', rfl, ho', hu, by rintro ⟨⟩; rw [ho] at ho'; cases ho'; exact hk ⟨rfl, rfl⟩⟩
        · rintro ⟨o', rfl, ho', hu, -⟩
          exact ⟨o', rfl, ho', hu, by simp⟩
    · intro k'
      rw [St.freeArea_setArea]
      split_ifs
      · exact hnd.2
      · exact hr.nodup k'
    · intro k'
      rw [St.freeArea_setArea]
      split_ifs
      · have := hr.size k; rw [hl] at this; simp [this]
      · exact hr.size k'
    · intro o' j hj ho' hl1 hb hl2
      exact hr.coal o' j hj ho' ⟨hl1.1, by simp⟩ hb ⟨hl2.1, by simp⟩
    · rintro h' ⟨⟩; exact hlo.1

theorem Rep.reduce (hr : Rep L m z t (some h)) (hn : n ≤ L.pages z) (hh : t.ord h = some (k + 1)) :
    ∃ m', reduce m z (L.base z + h) (k + 1) = some (L.base z + h, m') ∧ Rep L m' z (t.split hh) (some h) ∧
      Frame L z m m' ∧ ∀ q, m'.mmapTestUsed q = m.mmapTestUsed q := by
  have hin := t.inside h _ hh
  have hpow := pow_succ 2 k
  have hpos := Nat.two_pow_pos k
  -- no block starts at the right half yet
  have hnone : t.ord (h + 2 ^ k) = none := by
    rcases t.ord_mid_none hh with h0 | h0
    · omega
    · exact h0
  have hunused : m.mmapTestUsed (L.base z + (h + 2 ^ k)) = false := by
    by_contra hu
    have := hr.used (h + 2 ^ k) (by omega) (by simpa using hu)
    rw [hnone] at this; cases this
  refine ⟨(m.mmapSetPrivate (L.base z + (h + 2 ^ k))).listAdd z (L.base z + (h + 2 ^ k)) k, ?_, ?_, ?_, ?_⟩
  · simp [PageAlloc.reduce, addToFreeArea, Nat.add_assoc]
  · refine ⟨?_, ?_, ?_, ?_, ?_, ?_, ?_⟩
    · intro o ho
      rw [St.private_of_flags (St.flags_listAdd _ _ _ _), St.private_setPrivate, hr.heads o ho, Tiling.split_ord]
      by_cases h1 : o = h
      · subst h1; simp [hh]
      · by_cases h2 : o = h + 2 ^ k <;> simp [h1, h2]
    · intro o ho hu
      rw [St.used_of_flags (St.flags_listAdd _ _ _ _), St.used_setPrivate] at hu
      rw [Tiling.split_ord]
      split_ifs
      · rfl
      · exact hr.used o ho hu
    · intro k' p
      have hl : ∀ o, Listed L ((m.mmapSetPrivate (L.base z + (h + 2 ^ k))).listAdd z (L.base z + (h + 2 ^ k)) k) z
          (some h) o ↔ Listed L m z (some h) o := by
        intro o
        simp only [Listed, St.used_of_flags (St.flags_listAdd _ _ _ _), St.used_setPrivate]
      simp only [hl, Tiling.split_ord]
      rw [St.freeArea_listAdd]
      have hiff := hr.listed k' p
      by_cases hk : k' = k
      · subst hk
        simp only [true_and, if_true, St.freeArea_setPrivate, List.mem_cons, hiff]
        constructor
        · rintro (rfl | ⟨o, rfl, ho, hlo⟩)
          · exact ⟨_, rfl, by simp, hunused, by simp⟩
          · exact ⟨o, rfl, by split_ifs <;> [rfl; exact ho], hlo⟩
        · rintro ⟨o, rfl, ho, hlo⟩
          by_cases h2 : o = h + 2 ^ k'
          · exact Or.inl (by rw [h2])
          · have h1 : o ≠ h := by rintro rfl; exact hlo.2 rfl
            rw [if_neg (by tauto)] at ho
            exact Or.inr ⟨o, rfl, ho, hlo⟩
      · rw [if_neg (by tauto), St.freeArea_setPrivate, hiff]
        refine exists_congr fun o => and_congr_right fun _ => ?_
        constructor
        · rintro ⟨ho, hlo⟩
          refine ⟨?_, hlo⟩
          rw [if_neg, ho]
          rintro (rfl | rfl)
          · exact hlo.2 rfl
          · rw [hnone] at ho; cases ho
        · rintro ⟨ho, hlo⟩
          refine ⟨?_, hlo⟩
          split_ifs at ho with hc
          · cases ho; exact absurd rfl hk
          · exact ho
    · intro k'
      rw [St.freeArea_listAdd]
      split_ifs
      · refine List.nodup_cons.2 ⟨fun hmem => ?_, hr.nodup k⟩
        obtain ⟨o, heq, ho, -⟩ := (hr.listed k _).1 hmem
        rw [← Nat.add_left_cancel heq, hnone] at ho; cases ho
      · exact hr.nodup k'
    · intro k'
      rw [St.freeArea_listAdd]
      split_ifs
      · simp [hr.size k]
      · exact hr.size k'
    · intro o j hj ho hl1 hb hl2
      simp only [Listed, St.used_of_flags (St.flags_listAdd _ _ _ _), St.used_setPrivate] at hl1 hl2
      rw [Tiling.split_ord] at ho hb
      have h1 : o ≠ h := by rintro rfl; exact hl1.2 rfl
      have h2 : buddy o j ≠ h := by intro he; exact hl2.2 (congrArg some he.symm)
      -- the buddy of the new right half is the block in hand
      have hbd : buddy (h + 2 ^ k) k = h := by
        rw [buddy_right (not_dvd_right (t.aligned h _ hh))]; omega
      by_cases h3 : o = h + 2 ^ k
      · subst h3
        simp only [or_true, if_true, Option.some.injEq] at ho
        subst ho
        exact h2 hbd
      · rw [if_neg (by tauto)] at ho
        by_cases h4 : buddy o j = h + 2 ^ k
        · simp only [h4, or_true, if_true, Option.some.injEq] at hb
          subst hb
          have := buddy_buddy (t.aligned o _ ho)
          rw [h4, hbd] at this
          exact h1 this.symm
        · rw [if_neg (by tauto)] at hb
          exact hr.coal o j hj ho hl1 hb hl2
    · rintro h' ⟨⟩
      rw [St.used_of_flags (St.flags_listAdd _ _ _ _), St.used_setPrivate]
      exact hr.cold h rfl
  · exact (Frame.setFlags (by omega) _).trans (Frame.listAdd _ _)
  · intro q
    rw [St.used_of_flags (St.flags_listAdd _ _ _ _), St.used_setPrivate]

/-- the tiling may change around the block in hand; blocks in use stay what they are -/
def Keeps (m : St) (z h : ℕ) {n : ℕ} (t t' : Tiling maxOrder n) : Prop :=
  ∀ o, o ≠ h → m.mmapTestUsed (L.base z + o) = true → t'.ord o = t.ord o

theorem Rep.reduceLoop (hn : n ≤ L.pages z) (order so : ℕ) (hle : order ≤ so) (m : St) (t : Tiling maxOrder n)
    (hr : Rep L m z t (some h)) (hh : t.ord h = some so) :
    ∃ m' t', reduceLoop m z order so (L.base z + h) = some (L.base z + h, m') ∧ t'.ord h = some order ∧
      Rep L m' z (t' : Tiling maxOrder n) (some h) ∧ Frame L z m m' ∧
      (∀ q, m'.mmapTestUsed q = m.mmapTestUsed q) ∧ Keeps (L := L) m z h t t' := by
  induction so generalizing m t with
  | zero =>
    obtain rfl : order = 0 := by omega
    exact ⟨m, t, by simp [PageAlloc.reduceLoop], hh, hr, .refl, fun _ => rfl, fun _ _ _ => rfl⟩
  | succ so ih =>
    by_cases heq : so + 1 = order
    · subst heq
      exact ⟨m, t, by simp [PageAlloc.reduceLoop], hh, hr, .refl, fun _ => rfl, fun _ _ _ => rfl⟩
    · obtain ⟨m1, h1, hr1, hf1, hu1⟩ := hr.reduce hn hh
      obtain ⟨m2, t2, h2, hh2, hr2, hf2, hu2, hk2⟩ := ih (by omega) m1 (t.split hh) hr1 (by simp)
      refine ⟨m2, t2, ?_, hh2, hr2, hf1.trans hf2, fun q => (hu2 q).trans (hu1 q), fun o ho hu => ?_⟩
      · rw [PageAlloc.reduceLoop, if_neg heq]
        simp [h1, h2]
      · rw [hk2 o ho (by rw [hu1]; exact hu), Tiling.split_ord, if_neg]
        rintro (rfl | rfl)
        · exact ho rfl
        · have hin := t.inside h _ hh
          have := pow_succ 2 so
          have := Nat.two_pow_pos so
          have hsome := hr.used _ (by omega) hu
          rcases t.ord_mid_none hh with h0 | h0
          · omega
          · rw [Nat.add_sub_cancel] at h0
            rw [h0] at hsome; cases hsome

/-- the block in hand becomes a block in use -/
theorem Rep.setUsed (hr : Rep L m z t (some h)) (hh : t.ord h = some k) :
    Rep L (m.mmapSetUsed (L.base z + h)) z t none := by
  have hl : ∀ o, Listed L (m.mmapSetUsed (L.base z + h)) z none o ↔ Listed L m z (some h) o := by
    intro o
    simp only [Listed, St.used_setUsed, Nat.add_left_cancel_iff, Bool.or_eq_false_iff, decide_eq_false_iff_not, ne_eq,
      reduceCtorEq, not_false_eq_true, and_true, Option.some.injEq]
    rw [and_comm, eq_comm (a := o)]
  refine ⟨fun o ho => ?_, fun o ho hu => ?_, fun k' p => ?_, hr.nodup, hr.size, ?_, by simp⟩
  · rw [St.private_setUsed]; exact hr.heads o ho
  · rw [St.used_setUsed] at hu
    by_cases heq : o = h
    · rw [heq, hh]; rfl
    · exact hr.used o ho (by simpa [heq] using hu)
  · simp only [hl]; exact hr.listed k' p
  · intro o j hj ho hl1 hb hl2
    exact hr.coal o j hj ho ((hl o).1 hl1) hb ((hl _).1 hl2)

/-! ## Giving a block back -/

/-- a block in use becomes the block in hand -/
theorem Rep.clearUsed (hr : Rep L m z t none) (hu : m.mmapTestUsed (L.base z + h) = true) :
    Rep L (m.mmapClearUsed (L.base z + h)) z t (some h) := by
  have hl : ∀ o, Listed L (m.mmapClearUsed (L.base z + h)) z (some h) o ↔ Listed L m z none o := by
    intro o
    simp only [Listed, St.used_clearUsed, Nat.add_left_cancel_iff, ne_eq, Option.some.injEq, reduceCtorEq,
      not_false_eq_true, and_true]
    by_cases heq : o = h
    · subst heq; simp [hu]
    · have : ¬ h = o := fun e => heq e.symm
      simp [heq, this]
  refine ⟨fun o ho => ?_, fun o ho hu' => ?_, fun k' p => ?_, hr.nodup, hr.size, ?_, ?_⟩
  · rw [St.private_clearUsed]; exact hr.heads o ho
  · rw [St.used_clearUsed, Bool.and_eq_true] at hu'
    exact hr.used o ho hu'.2
  · simp only [hl]; exact hr.listed k' p
  · intro o j hj ho hl1 hb hl2
    exact hr.coal o j hj ho ((hl o).1 hl1) hb ((hl _).1 hl2)
  · rintro h' ⟨⟩; simp

theorem Rep.probe (hr : Rep L m z t (some h)) (hn : n ≤ L.pages z) (hh : t.ord h = some k)
    (hb : buddy h k + 2 ^ k ≤ n) :
    probeBuddy m (L.base z + buddy h k) k =
      if t.ord (buddy h k) = some k ∧ m.mmapTestUsed (L.base z + buddy h k) = false then some (L.base z + buddy h k)
      else none := by
  have hpos := Nat.two_pow_pos k
  unfold probeBuddy
  rw [hr.heads _ (by omega)]
  cases hord : t.ord (buddy h k) with
  | none => simp
  | some j =>
    cases hu : m.mmapTestUsed (L.base z + buddy h k) with
    | true => simp
    | false =>
      simp only [Option.isSome_some, Bool.not_true, Bool.false_eq_true, if_false, and_true, Option.some.injEq]
      by_cases hk0 : k = 0
      · have hjk := t.ord_buddy_eq hh hord hb (Or.inl hk0)
        simp [hk0, hjk]
      · have hlt : 2 ^ (k - 1) < 2 ^ k := Nat.pow_lt_pow_right (by norm_num) (by omega)
        rw [Nat.add_assoc, hr.heads _ (by omega)]
        cases hmid : t.ord (buddy h k + 2 ^ (k - 1)) with
        | none =>
          have hjk := t.ord_buddy_eq hh hord hb (Or.inr hmid)
          simp [hjk]
        | some i =>
          have hjk : j ≠ k := by
            rintro rfl
            rcases t.ord_mid_none hord with h0 | h0
            · exact hk0 h0
            · rw [hmid] at h0; cases h0
          simp [hk0, hjk]

/-- **get_buddy finds the buddy of the block in hand exactly when it is a free block of the same order.** -/
theorem Rep.getBuddy_eq (hz : z ∈ L.all) {t : Tiling maxOrder (L.pages z)} (hr : Rep L m z t (some h))
    (hh : t.ord h = some k) :
    getBuddy L m z (L.base z + h) k =
      if t.ord (buddy h k) = some k ∧ m.mmapTestUsed (L.base z + buddy h k) = false then some (L.base z + buddy h k)
      else none := by
  obtain ⟨ty, hty⟩ := L.mem_all.1 hz
  have hbase : (L.zone z).mmapBase = L.base z := rfl
  have hin := t.inside h k hh
  have hpos := Nat.two_pow_pos k
  unfold getBuddy
  simp only [L.mmapEnd_eq hty, hbase, Nat.add_sub_cancel_left]
  by_cases hd : 2 ^ (k + 1) ∣ h
  · rw [if_pos (Nat.mod_eq_zero_of_dvd hd), Nat.add_assoc (L.base z) h, ← buddy_left hd]
    split_ifs with hout hfree hfree
    · have := t.inside _ k hfree.1
      omega
    · rfl
    · rw [hr.probe le_rfl hh (by omega), if_pos hfree]
    · rw [hr.probe le_rfl hh (by omega), if_neg hfree]
  · have hle := (right_half (t.aligned h k hh) hd).1
    rw [if_neg (fun h0 => hd (Nat.dvd_of_mod_eq_zero h0)), Nat.add_sub_assoc hle, ← buddy_right hd]
    exact hr.probe le_rfl hh (by rw [buddy_right hd]; omega)

theorem remove_list (m : St) (z p k k' : ℕ) :
    ((removeFromFreeArea m z p k).freeArea z k').list = (m.freeArea z k').list.erase p := by
  simp only [removeFromFreeArea, St.freeArea_listDel, if_true, St.freeArea_setArea]
  split_ifs with hc
  · rw [hc.2]
  · rfl

/-- remove_from_free_area on the order of a listed block keeps the sizes right -/
theorem Rep.remove_size {hot : Option ℕ} (hr : Rep L m z t hot) {x : ℕ} (hxk : t.ord x = some k)
    (hl : Listed L m z hot x) (k' : ℕ) :
    ((removeFromFreeArea m z (L.base z + x) k).freeArea z k').size =
      ((removeFromFreeArea m z (L.base z + x) k).freeArea z k').list.length := by
  rw [remove_list]
  have hsz : ((removeFromFreeArea m z (L.base z + x) k).freeArea z k').size =
      if k' = k then (m.freeArea z k).size - 1 else (m.freeArea z k').size := by
    simp only [removeFromFreeArea, St.freeArea_listDel, if_true, St.freeArea_setArea, true_and]
    split_ifs <;> rfl
  rw [hsz]
  by_cases hkk : k' = k
  · subst hkk
    have hin : L.base z + x ∈ (m.freeArea z k').list := (hr.listed k' _).2 ⟨x, rfl, hxk, hl⟩
    rw [if_pos rfl, List.length_erase_of_mem hin, hr.size k']
  · have hnin : L.base z + x ∉ (m.freeArea z k').list := by
      intro hin
      obtain ⟨o, he, ho, -⟩ := (hr.listed k' _).1 hin
      rw [← Nat.add_left_cancel he, hxk] at ho
      cases ho; exact hkk rfl
    rw [if_neg hkk, List.erase_of_not_mem hnin, hr.size k']

/-- joining the two halves: one of them is in hand, the other one leaves its list -/
theorem Rep.merge (hr : Rep L m z t (some h)) {l x : ℕ} (h1 : t.ord l = some k)
    (h2 : t.ord (l + 2 ^ k) = some k) (hd : 2 ^ (k + 1) ∣ l) (hk : k < maxOrder)
    (hx : h = l ∧ x = l + 2 ^ k ∨ h = l + 2 ^ k ∧ x = l) (hu : m.mmapTestUsed (L.base z + x) = false) :
    Rep L ((removeFromFreeArea m z (L.base z + x) k).mmapClearPrivate (L.base z + (l + 2 ^ k))) z
      (t.merge h1 h2 hd hk) (some l) := by
  have hpos := Nat.two_pow_pos k
  have hcold := hr.cold h rfl
  have hul : m.mmapTestUsed (L.base z + l) = false := by rcases hx with ⟨rfl, rfl⟩ | ⟨rfl, rfl⟩ <;> assumption
  have hur : m.mmapTestUsed (L.base z + (l + 2 ^ k)) = false := by
    rcases hx with ⟨rfl, rfl⟩ | ⟨rfl, rfl⟩ <;> assumption
  have hxk : t.ord x = some k := by rcases hx with ⟨rfl, rfl⟩ | ⟨rfl, rfl⟩ <;> assumption
  set m1 := (removeFromFreeArea m z (L.base z + x) k).mmapClearPrivate (L.base z + (l + 2 ^ k)) with hm1
  have hused : ∀ q, m1.mmapTestUsed q = m.mmapTestUsed q := fun q => by rw [hm1, St.used_clearPrivate]; rfl
  have hlist : ∀ k', (m1.freeArea z k').list = (m.freeArea z k').list.erase (L.base z + x) := fun k' =>
    remove_list m z (L.base z + x) k k'
  have hmem : ∀ k' p, p ∈ (m1.freeArea z k').list ↔ p ∈ (m.freeArea z k').list ∧ p ≠ L.base z + x := by
    intro k' p
    rw [hlist, (hr.nodup k').mem_erase_iff, and_comm]
  -- away from the two halves nothing changes; the left half is the block in hand
  have hl : ∀ o j, (t.merge h1 h2 hd hk).ord o = some j ∧ Listed L m1 z (some l) o ↔
      t.ord o = some j ∧ Listed L m z (some h) o ∧ o ≠ x := by
    intro o j
    simp only [Listed, hused, Tiling.merge_ord, ne_eq, Option.some.injEq]
    by_cases ho1 : o = l
    · subst ho1
      rcases hx with ⟨rfl, rfl⟩ | ⟨rfl, rfl⟩ <;> simp
    · by_cases ho2 : o = l + 2 ^ k
      · subst ho2
        rcases hx with ⟨rfl, rfl⟩ | ⟨rfl, rfl⟩ <;> simp
      · have e1 : ¬ l = o := fun e => ho1 e.symm
        have e2 : ¬ l + 2 ^ k = o := fun e => ho2 e.symm
        rcases hx with ⟨rfl, rfl⟩ | ⟨rfl, rfl⟩ <;> simp [ho1, ho2, e1, e2]
  refine ⟨?_, ?_, ?_, ?_, ?_, ?_, ?_⟩
  · intro o ho
    rw [hm1, St.private_clearPrivate, Tiling.merge_ord]
    have : (removeFromFreeArea m z (L.base z + x) k).mmapTestPrivate (L.base z + o) = (t.ord o).isSome := hr.heads o ho
    rw [this]
    by_cases ho1 : o = l
    · subst ho1
      have : o ≠ o + 2 ^ k := by omega
      simp [h1]
    · by_cases ho2 : o = l + 2 ^ k
      · simp [ho2]
      · simp [ho1, ho2]
  · intro o ho hu'
    rw [hused] at hu'
    have ho1 : o ≠ l := by rintro rfl; rw [hul] at hu'; cases hu'
    have ho2 : o ≠ l + 2 ^ k := by rintro rfl; rw [hur] at hu'; cases hu'
    rw [Tiling.merge_ord, if_neg ho1, if_neg ho2]
    exact hr.used o ho hu'
  · intro k' p
    rw [hmem, hr.listed k' p]
    constructor
    · rintro ⟨⟨o, rfl, ho, hlo⟩, hne⟩
      obtain ⟨a, b⟩ := (hl o k').2 ⟨ho, hlo, fun e => hne (by rw [e])⟩
      exact ⟨o, rfl, a, b⟩
    · rintro ⟨o, rfl, ho, hlo⟩
      obtain ⟨a, b, c⟩ := (hl o k').1 ⟨ho, hlo⟩
      exact ⟨⟨o, rfl, a, b⟩, fun e => c (Nat.add_left_cancel e)⟩
  · intro k'; rw [hlist]; exact (hr.nodup k').erase _
  · exact hr.remove_size hxk ⟨hu, by rcases hx with ⟨rfl, rfl⟩ | ⟨rfl, rfl⟩ <;> simp⟩
  · intro o j hj ho hl1 hb hl2
    obtain ⟨a, b, -⟩ := (hl o j).1 ⟨ho, hl1⟩
    obtain ⟨a', b', -⟩ := (hl _ j).1 ⟨hb, hl2⟩
    exact hr.coal o j hj a b a' b'
  · rintro h' ⟨⟩; rw [hused]; exact hul

/-- one turn of the loop of dealloc_pages -/
theorem Rep.mergeStep (hr : Rep L m z t (some h)) (hn : n ≤ L.pages z) (hh : t.ord h = some k) (hk : k < maxOrder)
    (hb : t.ord (buddy h k) = some k) (hu : m.mmapTestUsed (L.base z + buddy h k) = false) :
    ∃ m' l t', expand (removeFromFreeArea m z (L.base z + buddy h k) k) (L.base z + h) (L.base z + buddy h k) =
        (L.base z + l, m') ∧ (t' : Tiling maxOrder n).ord l = some (k + 1) ∧ Rep L m' z t' (some l) ∧ Frame L z m m' ∧
      (∀ q, m'.mmapTestUsed q = m.mmapTestUsed q) ∧
      ∀ o, m.mmapTestUsed (L.base z + o) = true → t'.ord o = t.ord o := by
  have hpos := Nat.two_pow_pos k
  have hcold := hr.cold h rfl
  rcases buddy_cases (t.aligned h k hh) with ⟨hd, he⟩ | ⟨hd, he⟩
  · rw [he] at hb hu
    refine ⟨_, h, t.merge hh hb hd hk, ?_, by simp, hr.merge hh hb hd hk (Or.inl ⟨rfl, rfl⟩) hu,
      (Frame.remove _ _).trans (Frame.setFlags (by have := t.inside _ _ hb; omega) _), fun q => ?_, fun o ho => ?_⟩
    · rw [expand, if_pos (by omega), he]
    · rw [St.used_clearPrivate]; rfl
    · rw [Tiling.merge_ord, if_neg (by rintro rfl; rw [hcold] at ho; cases ho),
        if_neg (by rintro rfl; rw [hu] at ho; cases ho)]
  · obtain ⟨b, hbd⟩ : ∃ b, b = buddy h k := ⟨_, rfl⟩
    rw [← hbd] at hd he hb hu ⊢
    subst he
    refine ⟨_, b, t.merge hb hh hd hk, ?_, by simp, hr.merge hb hh hd hk (Or.inr ⟨rfl, rfl⟩) hu,
      (Frame.remove _ _).trans (Frame.setFlags (by have := t.inside _ _ hh; omega) _), fun q => ?_, fun o ho => ?_⟩
    · rw [expand, if_neg (by omega)]
    · rw [St.used_clearPrivate]; rfl
    · rw [Tiling.merge_ord, if_neg (by rintro rfl; rw [hu] at ho; cases ho),
        if_neg (by rintro rfl; rw [hcold] at ho; cases ho)]

/-- the loop climbs until the block has order MAX_ORDER or its buddy is no free block of its order -/
theorem Rep.mergeLoop (hz : z ∈ L.all) (k : ℕ) (hk : k ≤ maxOrder) (m : St) (t : Tiling maxOrder (L.pages z))
    (h : ℕ) (hr : Rep L m z t (some h)) (hh : t.ord h = some k) :
    ∃ m' l j t', mergeLoop L m z (L.base z + h) k = (m', L.base z + l, j) ∧
    (t' : Tiling maxOrder (L.pages z)).ord l = some j ∧
      Rep L m' z t' (some l) ∧ Frame L z m m' ∧ (∀ q, m'.mmapTestUsed q = m.mmapTestUsed q) ∧
      (∀ o, m.mmapTestUsed (L.base z + o) = true → t'.ord o = t.ord o) ∧
      (j < maxOrder → t'.ord (buddy l j) = some j → m'.mmapTestUsed (L.base z + buddy l j) = true) := by
  induction hc : maxOrder - k generalizing k m t h with
  | zero =>
    refine ⟨m, h, k, t, ?_, hh, hr, .refl, fun _ => rfl, fun _ _ => rfl, fun hlt => by omega⟩
    rw [PageAlloc.mergeLoop, if_pos (by omega)]
  | succ c ih =>
    have hlt : k < maxOrder := by omega
    by_cases hb : t.ord (buddy h k) = some k ∧ m.mmapTestUsed (L.base z + buddy h k) = false
    · obtain ⟨m1, l, t1, he, hl, hr1, hf1, hu1, hk1⟩ := hr.mergeStep le_rfl hh hlt hb.1 hb.2
      obtain ⟨m2, l2, j, t2, he2, hl2, hr2, hf2, hu2, hk2, hs2⟩ := ih (k + 1) hlt m1 t1 l hr1 hl (by omega)
      refine ⟨m2, l2, j, t2, ?_, hl2, hr2, hf1.trans hf2, fun q => (hu2 q).trans (hu1 q),
        fun o ho => (hk2 o (by rw [hu1]; exact ho)).trans (hk1 o ho), hs2⟩
      rw [PageAlloc.mergeLoop, if_neg (by omega), hr.getBuddy_eq hz hh, if_pos hb]
      simp only [he, he2]
    · refine ⟨m, h, k, t, ?_, hh, hr, .refl, fun _ => rfl, fun _ _ => rfl, fun _ ho => ?_⟩
      · rw [PageAlloc.mergeLoop, if_neg (by omega), hr.getBuddy_eq hz hh, if_neg hb]
      · by_contra hu
        exact hb ⟨ho, by simpa using hu⟩

/-- the block in hand goes onto the list of its order -/
theorem Rep.add (hr : Rep L m z t (some h)) (hn : n ≤ L.pages z) (hh : t.ord h = some k)
    (hb : k < maxOrder → t.ord (buddy h k) = some k → m.mmapTestUsed (L.base z + buddy h k) = true) :
    addToFreeArea m z (L.base z + h) k = some (m.listAdd z (L.base z + h) k) ∧
      Rep L (m.listAdd z (L.base z + h) k) z t none := by
  have hlt := hr.lt hn hh
  refine ⟨by rw [addToFreeArea, if_pos (by rw [hr.heads h hlt, hh]; rfl)], hr.heads, hr.used, ?_, ?_, ?_, ?_, by simp⟩
  · intro k' p
    have hiff := hr.listed k' p
    rw [St.freeArea_listAdd]
    by_cases hk : k' = k
    · subst hk
      simp only [true_and, if_true, List.mem_cons, hiff]
      constructor
      · rintro (rfl | ⟨o, rfl, ho, hlo⟩)
        · exact ⟨h, rfl, hh, hr.cold h rfl, by simp⟩
        · exact ⟨o, rfl, ho, hlo.1, by simp⟩
      · rintro ⟨o, rfl, ho, hlo⟩
        by_cases heq : o = h
        · exact Or.inl (by rw [heq])
        · exact Or.inr ⟨o, rfl, ho, hlo.1, by simpa using fun e => heq e.symm⟩
    · rw [if_neg (by tauto), hiff]
      constructor
      · rintro ⟨o, rfl, ho, hlo⟩
        exact ⟨o, rfl, ho, hlo.1, by simp⟩
      · rintro ⟨o, rfl, ho, hlo⟩
        refine ⟨o, rfl, ho, hlo.1, ?_⟩
        rintro ⟨⟩; rw [hh] at ho; cases ho; exact hk rfl
  · intro k'
    rw [St.freeArea_listAdd]
    split_ifs
    · refine List.nodup_cons.2 ⟨fun hmem => ?_, hr.nodup k⟩
      obtain ⟨o, heq, -, hlo⟩ := (hr.listed k _).1 hmem
      exact hlo.2 (congrArg some (Nat.add_left_cancel heq))
    · exact hr.nodup k'
  · intro k'
    rw [St.freeArea_listAdd]
    split_ifs
    · simp [hr.size k]
    · exact hr.size k'
  · -- a new pair of free buddies would contain the block that was in hand
    intro o j hj ho hl1 hbo hl2
    by_cases h1 : o = h
    · subst h1
      rw [hh] at ho; cases ho
      have hfree : m.mmapTestUsed (L.base z + buddy o k) = false := hl2.1
      have := hb hj hbo
      rw [hfree] at this; cases this
    · by_cases h2 : buddy o j = h
      · rw [h2, hh] at hbo; cases hbo
        have hbb := buddy_buddy (t.aligned o _ ho)
        rw [h2] at hbb
        have hfree : m.mmapTestUsed (L.base z + o) = false := hl1.1
        have := hb hj (by rw [hbb]; exact ho)
        rw [hbb, hfree] at this; cases this
      · exact hr.coal o j hj ho ⟨hl1.1, by simpa using fun e => h1 e.symm⟩ hbo
          ⟨hl2.1, by simpa using fun e => h2 e.symm⟩

end SinsOs.PageAlloc
