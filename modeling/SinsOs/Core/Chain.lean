/-
Circular lists of a memory in which an element that is on no list may point anywhere: list_del does not touch the pointers of
the element that it takes off.

- `Chains`: the memory holds these lists.
- `Chains.move`, `Chains.spliceInit`: what list_move and list_splice_init do to the lists.
- `Chains.forEach`: list_for_each comes to every element of its list, in order, and ends.
-/
import SinsOs.Core.Ring

namespace SinsOs.Core.Links

variable {κ η σ : Type} {m m' : Links κ η} {lists : κ → List η} {k : κ} {e : η}

/-- list k of the memory is `lists k`, and no element is on two lists or twice on one -/
structure Chains (m : Links κ η) (lists : κ → List η) : Prop where
  path : ∀ k, m.Path (.inl k) ((lists k).map .inr) (.inl k)
  nodup : ∀ k, (lists k).Nodup
  once : ∀ j k x, x ∈ lists j → x ∈ lists k → j = k

theorem Rep.chains (hr : Rep m lists) : Chains m lists := ⟨hr.path, hr.nodup, hr.once⟩

namespace Chains

/-- only the nodes of the lists count -/
theorem of_agree (hc : Chains m lists) (h : ∀ j y, Node lists j y → m'.next y = m.next y ∧ m'.prev y = m.prev y) :
    Chains m' lists := by
  refine ⟨fun j => (hc.path j).frame (fun y hy => (h j y hy).1) fun y hy => (h j y ?_).2, hc.nodup, hc.once⟩
  simpa [Node, or_comm] using hy

theorem start (hc : Chains m lists) (k : κ) : m.next (.inl k) = first k (lists k) := path_first (hc.path k)

theorem empty_iff (hc : Chains m lists) (k : κ) : m.listEmpty (.inl k) ↔ lists k = [] := by
  rw [listEmpty, hc.start k]
  cases lists k <;> simp [first]

/-! ## The memory in which the other elements point to themselves -/

open Classical in
noncomputable def tidy (m : Links κ η) (lists : κ → List η) : Links κ η where
  next
    | .inl k => m.next (.inl k)
    | .inr e => if ∃ k, e ∈ lists k then m.next (.inr e) else .inr e
  prev
    | .inl k => m.prev (.inl k)
    | .inr e => if ∃ k, e ∈ lists k then m.prev (.inr e) else .inr e

theorem mem_of_node {j : κ} {x : η} (h : Node lists j (.inr x)) : x ∈ lists j := by
  simpa [Node] using h

theorem tidy_agree {j : κ} {y : κ ⊕ η} (hy : Node lists j y) :
    (tidy m lists).next y = m.next y ∧ (tidy m lists).prev y = m.prev y := by
  cases y with
  | inl k => exact ⟨rfl, rfl⟩
  | inr x =>
    have hx : ∃ k, x ∈ lists k := ⟨j, mem_of_node hy⟩
    exact ⟨if_pos hx, if_pos hx⟩

theorem rep (hc : Chains m lists) : Rep (tidy m lists) lists := by
  have ht : Chains (tidy m lists) lists := hc.of_agree fun j y hy => tidy_agree hy
  refine ⟨ht.path, ht.nodup, ht.once, fun x hx => ?_⟩
  have hno : ¬ ∃ k, x ∈ lists k := fun ⟨k, hk⟩ => hx k hk
  exact ⟨if_neg hno, if_neg hno⟩

/-- two lists have no node in common -/
theorem apart (hc : Chains m lists) {i j : κ} (hij : i ≠ j) {y : κ ⊕ η} (hi : Node lists i y) : ¬ Node lists j y :=
  hc.rep.apart hij hi

theorem ends (hc : Chains m lists) (k : κ) : Node lists k (m.next (.inl k)) ∧ Node lists k (m.prev (.inl k)) := by
  refine ⟨?_, (hc.path k).prev_mem⟩
  simpa [Node, or_comm] using (hc.path k).next_mem

end Chains

/-! ## The loop -/

variable [DecidableEq κ]

/-- list_for_each: the body f is run for each element from pos on, up to the head. `none`: the fuel ends, or pos is the head
of another list -/
def forEach (m : Links κ η) (head : κ) (f : σ → η → σ) : ℕ → κ ⊕ η → σ → Option σ
  | 0, _, _ => none
  | _ + 1, .inl k, s => if k = head then some s else none
  | fuel + 1, .inr e, s => m.forEach head f fuel (m.next (.inr e)) (f s e)

theorem Path.forEach {f : σ → η → σ} {a : κ ⊕ η} {l : List η} (h : m.Path a (l.map .inr) (.inl k)) {fuel : ℕ}
    (hfuel : l.length < fuel) (s : σ) : m.forEach k f fuel (m.next a) s = some (l.foldl f s) := by
  induction l generalizing a fuel s with
  | nil =>
    obtain ⟨n, rfl⟩ := Nat.exists_eq_add_of_lt hfuel
    rw [h.1, Links.forEach, if_pos rfl, List.foldl_nil]
  | cons x l ih =>
    obtain ⟨n, rfl⟩ := Nat.exists_eq_add_of_lt hfuel
    rw [h.1, Links.forEach, List.foldl_cons]
    exact ih h.2.2 (by rw [List.length_cons]; omega) _

/-- **list_for_each** comes to the elements of its list in order, once each, and ends. -/
theorem Chains.forEach (hc : Chains m lists) (k : κ) (f : σ → η → σ) {fuel : ℕ}
    (hfuel : (lists k).length < fuel) (s : σ) :
    m.forEach k f fuel (m.next (.inl k)) s = some ((lists k).foldl f s) :=
  (hc.path k).forEach hfuel s

/-! ## Operations -/

variable [DecidableEq η]

instance (m : Links κ η) (a : κ ⊕ η) : Decidable (m.listEmpty a) := inferInstanceAs (Decidable (m.next a = a))

/-- list_del, by __list_del -/
def listDel (m : Links κ η) (entry : κ ⊕ η) : Links κ η :=
  let prev := m.prev entry
  let next := m.next entry
  (m.setPrev next prev).setNext prev next

/-- list_move; `list` is the entry to move -/
def listMove (m : Links κ η) (list head : κ ⊕ η) : Links κ η := (m.listDel list).listAdd list head

/-- __list_splice, between head and what follows it -/
def listSplice (m : Links κ η) (list head : κ ⊕ η) : Links κ η :=
  let next := m.next head
  let first := m.next list
  let last := m.prev list
  (((m.setPrev first head).setNext head first).setNext last next).setPrev next last

def listSpliceInit (m : Links κ η) (list head : κ ⊕ η) : Links κ η :=
  if m.listEmpty list then m else (m.listSplice list head).init list

theorem listDel_next (m : Links κ η) (entry y : κ ⊕ η) :
    (m.listDel entry).next y = if y = m.prev entry then m.next entry else m.next y := by
  simp only [listDel, setNext, setPrev, Function.update_apply]

theorem listDel_prev (m : Links κ η) (entry y : κ ⊕ η) :
    (m.listDel entry).prev y = if y = m.next entry then m.prev entry else m.prev y := by
  simp only [listDel, setNext, setPrev, Function.update_apply]

theorem listSplice_init_next (m : Links κ η) (list head y : κ ⊕ η) : ((m.listSplice list head).init list).next y =
    if y = list then list else if y = m.prev list then m.next head else if y = head then m.next list else m.next y := by
  simp only [listSplice, init, setNext, setPrev, Function.update_apply]

theorem listSplice_init_prev (m : Links κ η) (list head y : κ ⊕ η) : ((m.listSplice list head).init list).prev y =
    if y = list then list else if y = m.next head then m.prev list else if y = m.next list then head else m.prev y := by
  simp only [listSplice, init, setNext, setPrev, Function.update_apply]

namespace Chains

/-- **list_add** puts an element that is on no list at the front, wherever it points before. -/
theorem add (hc : Chains m lists) (he : ∀ k, e ∉ lists k) (k : κ) :
    Chains (m.listAdd (.inr e) (.inl k)) (Function.update lists k (e :: lists k)) := by
  refine (hc.rep.add he k).chains.of_agree fun j y hy => ?_
  have hold : y ≠ .inr e → (tidy m lists).next y = m.next y ∧ (tidy m lists).prev y = m.prev y := by
    intro hne
    cases y with
    | inl i => exact ⟨rfl, rfl⟩
    | inr x =>
      have hx := mem_of_node hy
      have hxe : x ≠ e := fun h => hne (congrArg Sum.inr h)
      refine tidy_agree (j := j) (List.mem_cons_of_mem _ (List.mem_map_of_mem ?_))
      by_cases hjk : j = k
      · rw [hjk, Function.update_self] at hx
        exact hjk ▸ (List.mem_cons.1 hx).resolve_left hxe
      · rwa [Function.update_of_ne hjk] at hx
  have hhead : (tidy m lists).next (.inl k) = m.next (.inl k) := rfl
  rw [listAdd_next, listAdd_prev, listAdd_next, listAdd_prev, hhead]
  split_ifs with h1 h2 h3 <;> simp_all

/-- **list_del** takes an element off its list. -/
theorem del (hc : Chains m lists) (he : e ∈ lists k) : Chains (m.listDel (.inr e)) fun j => (lists j).erase e := by
  refine (hc.rep.del e).chains.of_agree fun j y hy => ?_
  have hne : y ≠ .inr e := by
    rintro rfl
    have hx : e ∈ (lists j).erase e := by simpa [Node] using hy
    exact (hc.nodup j).not_mem_erase hx
  have hold : Node lists j y := by
    cases y with
    | inl i => simpa [Node] using hy
    | inr x =>
      have hx : x ∈ (lists j).erase e := by simpa [Node] using hy
      exact List.mem_cons_of_mem _ (List.mem_map_of_mem (List.mem_of_mem_erase hx))
  have hself := tidy_agree (m := m) (show Node lists k (.inr e) from List.mem_cons_of_mem _ (List.mem_map_of_mem he))
  have hy' := tidy_agree (m := m) hold
  rw [listDel_next, listDel_prev, listDelInit_next, listDelInit_prev, if_neg hne, if_neg hne, hself.1, hself.2, hy'.1, hy'.2]
  exact ⟨rfl, rfl⟩

/-- **list_move** takes an element from the list it is on to the front of list k. -/
theorem move (hc : Chains m lists) {j : κ} (he : e ∈ lists j) (k : κ) :
    Chains (m.listMove (.inr e) (.inl k)) (Function.update (fun i => (lists i).erase e) k (e :: (lists k).erase e)) :=
  (hc.del he).add (fun i => (hc.nodup i).not_mem_erase) k

/-- the other lists of a splice -/
theorem splice_frame (hc : Chains m lists) {p r j : κ} (hjp : j ≠ p) (hjr : j ≠ r) {y : κ ⊕ η} (hy : Node lists j y) :
    ((m.listSplice (.inl p) (.inl r)).init (.inl p)).next y = m.next y ∧
    ((m.listSplice (.inl p) (.inl r)).init (.inl p)).prev y = m.prev y := by
  have hp : ∀ z, Node lists p z → y ≠ z := fun z hz h => hc.apart hjp hy (h ▸ hz)
  have hr : ∀ z, Node lists r z → y ≠ z := fun z hz h => hc.apart hjr hy (h ▸ hz)
  rw [listSplice_init_next, listSplice_init_prev]
  rw [if_neg (hp _ List.mem_cons_self), if_neg (hp _ (hc.ends p).2), if_neg (hr _ List.mem_cons_self)]
  rw [if_neg (hp _ List.mem_cons_self), if_neg (hr _ (hc.ends r).1), if_neg (hp _ (hc.ends p).1)]
  exact ⟨rfl, rfl⟩

/-- the ring of a splice: through the elements of p, whose last now leads to the first of r -/
theorem splice_path (hc : Chains m lists) {p r : κ} (hpr : p ≠ r) {x : η} {l : List η} (hl : lists p = x :: l) :
    ((m.listSplice (.inl p) (.inl r)).init (.inl p)).Path (.inl r) (.inr x :: l.map .inr ++ (lists r).map .inr) (.inl r) := by
  set m' := (m.listSplice (.inl p) (.inl r)).init (.inl p) with hm'
  have hpath := hc.path p
  have hring := (hc.nodup p).map (Sum.inr_injective (α := κ))
  rw [hl, List.map_cons] at hpath hring
  obtain ⟨hfirst, -, hpath⟩ := hpath
  have hp : ∀ y ∈ (.inr x : κ ⊕ η) :: l.map .inr, Node lists p y := fun y hy => by
    rw [Node, hl]
    exact List.mem_cons_of_mem _ hy
  have hlast : m.prev (.inl p) ∈ (.inr x : κ ⊕ η) :: l.map .inr := hpath.prev_mem
  have hnp : ∀ y ∈ (.inr x : κ ⊕ η) :: l.map .inr, y ≠ .inl p ∧ y ≠ .inl r ∧ y ≠ m.next (.inl r) := by
    intro y hy
    refine ⟨?_, fun h => hc.apart hpr (hp y hy) (h ▸ List.mem_cons_self),
      fun h => hc.apart hpr (hp y hy) (h ▸ (hc.ends r).1)⟩
    rintro rfl
    simp at hy
  have hnext : m.next (.inl r) ≠ .inl p := fun h => hc.apart hpr (h ▸ List.mem_cons_self) (hc.ends r).1
  have hled : m'.Path (.inr x) (l.map .inr) (m.next (.inl r)) := by
    refine hpath.redirect hring (fun y hy hy' => ?_) (fun y hy => ?_) ?_ ?_
    · rw [listSplice_init_next, if_neg (hnp y hy).1, if_neg hy', if_neg (hnp y hy).2.1]
    · have hy1 := hnp y (List.mem_cons_of_mem _ hy)
      have hyx : y ≠ .inr x := fun h => (List.nodup_cons.1 hring).1 (h ▸ hy)
      rw [listSplice_init_prev, if_neg hy1.1, if_neg hy1.2.2, hfirst, if_neg hyx]
    · rw [listSplice_init_next, if_neg (hnp _ hlast).1, if_pos rfl]
    · rw [listSplice_init_prev, if_neg hnext, if_pos rfl]
  have hx := hnp (.inr x) List.mem_cons_self
  refine ⟨?_, ?_, ?_⟩
  · have hr : (.inl r : κ ⊕ η) ≠ m.prev (.inl p) := (hnp _ hlast).2.1.symm
    rw [listSplice_init_next, if_neg (fun h => hpr (Sum.inl_injective h).symm), if_neg hr, if_pos rfl, hfirst]
  · rw [listSplice_init_prev, if_neg hx.1, if_neg hx.2.2, if_pos hfirst.symm]
  have hpathr := hc.path r
  have hringr := (hc.nodup r).map (Sum.inr_injective (α := κ))
  cases hlr : lists r with
  | nil =>
    rw [hlr] at hpathr
    rw [hpathr.1] at hled
    simpa using hled
  | cons z rest =>
    rw [hlr, List.map_cons] at hpathr hringr
    obtain ⟨hz, -, hrest⟩ := hpathr
    rw [hz] at hled
    have hr : ∀ y ∈ (.inr z : κ ⊕ η) :: rest.map .inr, Node lists r y := fun y hy => by
      rw [Node, hlr]
      exact List.mem_cons_of_mem _ hy
    refine Path.append.2 ⟨hled, hrest.frame (fun y hy => ?_) fun y hy => ?_⟩
    · have hyp : ∀ w, Node lists p w → y ≠ w := fun w hw h => hc.apart hpr hw (h ▸ hr y hy)
      have hyr : y ≠ .inl r := by
        rintro rfl
        simp at hy
      rw [listSplice_init_next, if_neg (hyp _ List.mem_cons_self), if_neg (hyp _ (hc.ends p).2), if_neg hyr]
    · have hyr : Node lists r y := by
        obtain hy | hy := List.mem_append.1 hy
        · exact hr y (List.mem_cons_of_mem _ hy)
        · exact List.mem_singleton.1 hy ▸ List.mem_cons_self
      have hyp : ∀ w, Node lists p w → y ≠ w := fun w hw h => hc.apart hpr hw (h ▸ hyr)
      have hyz : y ≠ .inr z := by
        rintro rfl
        obtain hy | hy := List.mem_append.1 hy
        · exact (List.nodup_cons.1 hringr).1 hy
        · exact Sum.inr_ne_inl (List.mem_singleton.1 hy)
      rw [listSplice_init_prev, if_neg (hyp _ List.mem_cons_self), hz, if_neg hyz, if_neg (hyp _ (hc.ends p).1)]

/-- **list_splice_init** puts the elements of list p, in their order, before those of list r, and leaves p empty. -/
theorem spliceInit (hc : Chains m lists) {p r : κ} (hpr : p ≠ r) : Chains (m.listSpliceInit (.inl p) (.inl r)) fun k =>
    if k = p then [] else if k = r then lists p ++ lists r else lists k := by
  rw [listSpliceInit]
  split_ifs with hempty
  · have hp : lists p = [] := (hc.empty_iff p).1 hempty
    have hlists : (fun k => if k = p then [] else if k = r then lists p ++ lists r else lists k) = lists := by
      funext k
      split_ifs with h1 h2
      · rw [h1, hp]
      · rw [h2, hp, List.nil_append]
      · rfl
    rwa [hlists]
  · obtain ⟨x, l, hl⟩ := List.exists_cons_of_ne_nil fun hp => hempty ((hc.empty_iff p).2 hp)
    refine ⟨fun j => ?_, fun j => ?_, fun i j y hi hj => ?_⟩
    · by_cases hjp : j = p
      · rw [if_pos hjp, hjp]
        exact ⟨by rw [listSplice_init_next, if_pos rfl], by rw [listSplice_init_prev, if_pos rfl]⟩
      · rw [if_neg hjp]
        split_ifs with hjr
        · rw [hjr, hl, List.map_append, List.map_cons]
          exact hc.splice_path hpr hl
        · refine (hc.path j).frame (fun y hy => ?_) fun y hy => ?_
          · exact (hc.splice_frame hjp hjr hy).1
          · exact (hc.splice_frame hjp hjr (by simpa [Node, or_comm] using hy)).2
    · split_ifs
      · exact List.nodup_nil
      · exact List.nodup_append'.2 ⟨hc.nodup p, hc.nodup r, fun y hp hr => hpr (hc.once p r y hp hr)⟩
      · exact hc.nodup j
    · have hplace : ∀ i, y ∈ (if i = p then [] else if i = r then lists p ++ lists r else lists i) →
          i = r ∧ y ∈ lists p ∨ y ∈ lists i ∧ i ≠ p := by
        intro i hi
        split_ifs at hi with h1 h2
        · exact absurd hi List.not_mem_nil
        · exact (List.mem_append.1 hi).imp (fun h => ⟨h2, h⟩) fun h => ⟨h2 ▸ h, h1⟩
        · exact Or.inr ⟨hi, h1⟩
      obtain ⟨hir, hyi⟩ | ⟨hyi, hip⟩ := hplace i hi
      · obtain ⟨hjr, -⟩ | ⟨hyj, hjp⟩ := hplace j hj
        · exact hir.trans hjr.symm
        · exact absurd (hc.once j p y hyj hyi) hjp
      · obtain ⟨-, hyj⟩ | ⟨hyj, -⟩ := hplace j hj
        · exact absurd (hc.once i p y hyi hyj) hip
        · exact hc.once i j y hyi hyj

end Chains

end SinsOs.Core.Links
