/-
Circular doubly linked lists in a memory of next and prev pointers, in the manner of list_head: every list has a head of its
own, an element that is on no list points to itself, and heads and elements are nodes alike.

- `Rep`: the memory holds these lists.
- `Rep.add`, `Rep.del`: what list_add and list_del_init do to the lists. A deletion needs to know nothing about the element.
- `Rep.walk`: where a pointer of the memory goes.
-/
import Mathlib.Tactic

namespace SinsOs.Core

/-- heads of κ and elements of η -/
structure Links (κ η : Type) where
  next : κ ⊕ η → κ ⊕ η
  prev : κ ⊕ η → κ ⊕ η

namespace Links

variable {κ η : Type} {m m' : Links κ η} {a b x : κ ⊕ η} {l r : List (κ ⊕ η)}

/-- every node points to itself -/
def empty : Links κ η := ⟨id, id⟩

def listEmpty (m : Links κ η) (a : κ ⊕ η) : Prop := m.next a = a

/-! ## Paths -/

/-- from a through l to b, linked both ways -/
def Path (m : Links κ η) : κ ⊕ η → List (κ ⊕ η) → κ ⊕ η → Prop
  | a, [], b => m.next a = b ∧ m.prev b = a
  | a, x :: l, b => m.next a = x ∧ m.prev x = a ∧ m.Path x l b

theorem Path.append : m.Path a (l ++ x :: r) b ↔ m.Path a l x ∧ m.Path x r b := by
  induction l generalizing a with
  | nil => simp [Path, and_assoc]
  | cons y l ih => simp [Path, ih, and_assoc]

/-- a path reads the next pointers up to its end, and the prev pointers from its second node on -/
theorem Path.frame (h : m.Path a l b) (hnext : ∀ y ∈ a :: l, m'.next y = m.next y)
    (hprev : ∀ y ∈ l ++ [b], m'.prev y = m.prev y) :
    m'.Path a l b := by
  induction l generalizing a with
  | nil => exact ⟨(hnext a (by simp)).trans h.1, (hprev b (by simp)).trans h.2⟩
  | cons x l ih =>
    refine ⟨(hnext a (by simp)).trans h.1, (hprev x (by simp)).trans h.2.1, ih h.2.2 (fun y hy => ?_) fun y hy => ?_⟩
    · exact hnext y (List.mem_cons_of_mem _ hy)
    · exact hprev y (List.mem_cons_of_mem _ hy)

/-- the node before the end is on the path -/
theorem Path.prev_mem (h : m.Path a l b) : m.prev b ∈ a :: l := by
  induction l generalizing a with
  | nil => simp [h.2]
  | cons x l ih => exact List.mem_cons_of_mem _ (ih h.2.2)

/-- the node after the start is on the path, or is its end -/
theorem Path.next_mem (h : m.Path a l b) : m.next a ∈ l ++ [b] := by
  cases l with
  | nil => simp [h.1]
  | cons x l => simp [h.1]

/-- a path that is led to another end -/
theorem Path.redirect (h : m.Path a l x) (hnodup : (a :: l).Nodup)
    (hnext : ∀ y ∈ a :: l, y ≠ m.prev x → m'.next y = m.next y) (hprev : ∀ y ∈ l, m'.prev y = m.prev y)
    (hn : m'.next (m.prev x) = b) (hp : m'.prev b = m.prev x) : m'.Path a l b := by
  induction l generalizing a with
  | nil =>
    rw [h.2] at hn hp
    exact ⟨hn, hp⟩
  | cons y l ih =>
    have hne : a ≠ m.prev x := fun he => (List.nodup_cons.1 hnodup).1 (he ▸ h.2.2.prev_mem)
    refine ⟨(hnext a (by simp) hne).trans h.1, (hprev y (by simp)).trans h.2.1, ih h.2.2 (List.nodup_cons.1 hnodup).2 ?_ ?_⟩
    · exact fun z hz => hnext z (List.mem_cons_of_mem _ hz)
    · exact fun z hz => hprev z (List.mem_cons_of_mem _ hz)

/-! ## Operations -/

section Operations

variable [DecidableEq κ] [DecidableEq η]

def setNext (m : Links κ η) (a b : κ ⊕ η) : Links κ η := { m with next := Function.update m.next a b }

def setPrev (m : Links κ η) (a b : κ ⊕ η) : Links κ η := { m with prev := Function.update m.prev a b }

/-- INIT_LIST_HEAD -/
def init (m : Links κ η) (a : κ ⊕ η) : Links κ η := (m.setNext a a).setPrev a a

/-- list_add, by __list_add -/
def listAdd (m : Links κ η) (new head : κ ⊕ η) : Links κ η :=
  let next := m.next head
  (((m.setPrev next new).setNext new next).setPrev new head).setNext head new

/-- list_del_init, by __list_del -/
def listDelInit (m : Links κ η) (entry : κ ⊕ η) : Links κ η :=
  let prev := m.prev entry
  let next := m.next entry
  ((m.setPrev next prev).setNext prev next).init entry

theorem listAdd_next (m : Links κ η) (new head y : κ ⊕ η) :
    (m.listAdd new head).next y = if y = head then new else if y = new then m.next head else m.next y := by
  simp only [listAdd, setNext, setPrev, Function.update_apply]

theorem listAdd_prev (m : Links κ η) (new head y : κ ⊕ η) :
    (m.listAdd new head).prev y = if y = new then head else if y = m.next head then new else m.prev y := by
  simp only [listAdd, setNext, setPrev, Function.update_apply]

theorem listDelInit_next (m : Links κ η) (entry y : κ ⊕ η) :
    (m.listDelInit entry).next y = if y = entry then entry else if y = m.prev entry then m.next entry else m.next y := by
  simp only [listDelInit, init, setNext, setPrev, Function.update_apply]

theorem listDelInit_prev (m : Links κ η) (entry y : κ ⊕ η) :
    (m.listDelInit entry).prev y = if y = entry then entry else if y = m.next entry then m.prev entry else m.prev y := by
  simp only [listDelInit, init, setNext, setPrev, Function.update_apply]

/-! ## Rings -/

/-- a new node after the start of a ring -/
theorem Path.link (h : m.Path a l a) (hnodup : (a :: l).Nodup) (hx : x ∉ a :: l) : (m.listAdd x a).Path a (x :: l) a := by
  have hxa : x ≠ a := fun he => hx (he ▸ List.mem_cons_self)
  refine ⟨by rw [listAdd_next, if_pos rfl], by rw [listAdd_prev, if_pos rfl], ?_⟩
  cases l with
  | nil =>
    refine ⟨?_, ?_⟩
    · rw [listAdd_next, if_neg hxa, if_pos rfl, h.1]
    · rw [listAdd_prev, if_neg hxa.symm, h.1, if_pos rfl]
  | cons y l =>
    have hne : ∀ z ∈ a :: y :: l, z ≠ x := fun z hz he => hx (he ▸ hz)
    obtain ⟨hal, hyl⟩ := List.nodup_cons.1 hnodup
    refine ⟨?_, ?_, h.2.2.frame (fun z hz => ?_) fun z hz => ?_⟩
    · rw [listAdd_next, if_neg hxa, if_pos rfl, h.1]
    · rw [listAdd_prev, if_neg (hne y (by simp)), h.1, if_pos rfl]
    · have hza : z ≠ a := fun he => hal (he ▸ hz)
      rw [listAdd_next, if_neg hza, if_neg (hne z (List.mem_cons_of_mem _ hz))]
    · have hzy : z ≠ y := by
        rintro rfl
        obtain hz | hz := List.mem_append.1 hz
        · exact (List.nodup_cons.1 hyl).1 hz
        · exact hal (List.mem_singleton.1 hz ▸ List.mem_cons_self)
      have hzx : z ≠ x := by
        obtain hz | hz := List.mem_append.1 hz
        · exact hne z (List.mem_cons_of_mem _ (List.mem_cons_of_mem _ hz))
        · exact hne z (List.mem_singleton.1 hz ▸ List.mem_cons_self)
      rw [listAdd_prev, if_neg hzx, h.1, if_neg hzy]

/-- a ring without one of its nodes -/
theorem Path.unlink (h : m.Path a (l ++ x :: r) a) (hnodup : (a :: (l ++ x :: r)).Nodup) :
    (m.listDelInit x).Path a (l ++ r) a := by
  obtain ⟨hpre, hpost⟩ := Path.append.1 h
  have hring : (a :: l ++ x :: r).Nodup := hnodup
  obtain ⟨hal, hxr, hdisj⟩ := List.nodup_append.1 hring
  obtain ⟨hxnotr, hr⟩ := List.nodup_cons.1 hxr
  have hxl : ∀ y ∈ a :: l, y ≠ x := fun y hy => hdisj y hy x List.mem_cons_self
  have hxr' : ∀ y ∈ r, y ≠ x := fun y hy he => hxnotr (he ▸ hy)
  -- the node before x, and the one after it
  have hp : m.prev x ∈ a :: l := hpre.prev_mem
  have hn : m.next x ∈ r ++ [a] := hpost.next_mem
  have hnx : m.next x ≠ x := by
    obtain hn | hn := List.mem_append.1 hn
    · exact hxr' _ hn
    · rw [List.mem_singleton.1 hn]
      exact hxl a List.mem_cons_self
  have hled : (m.listDelInit x).Path a l (m.next x) := by
    refine hpre.redirect hal (fun y hy hyp => ?_) (fun y hy => ?_) ?_ ?_
    · rw [listDelInit_next, if_neg (hxl y hy), if_neg hyp]
    · have hyn : y ≠ m.next x := by
        intro he
        obtain hn | hn := List.mem_append.1 hn
        · exact hdisj y (List.mem_cons_of_mem _ hy) y (List.mem_cons_of_mem _ (he ▸ hn)) rfl
        · exact (List.nodup_cons.1 hal).1 (List.mem_singleton.1 hn ▸ he ▸ hy)
      rw [listDelInit_prev, if_neg (hxl y (List.mem_cons_of_mem _ hy)), if_neg hyn]
    · rw [listDelInit_next, if_neg (hxl _ hp), if_pos rfl]
    · rw [listDelInit_prev, if_neg hnx, if_pos rfl]
  cases r with
  | nil =>
    rw [hpost.1] at hled
    rwa [List.append_nil]
  | cons z r =>
    obtain ⟨hnext, hprev, hrest⟩ := hpost
    rw [hnext] at hled
    refine Path.append.2 ⟨hled, hrest.frame (fun y hy => ?_) fun y hy => ?_⟩
    · have hyp : y ≠ m.prev x := fun he => hdisj y (he ▸ hp) y (List.mem_cons_of_mem _ hy) rfl
      rw [listDelInit_next, if_neg (hxr' y hy), if_neg hyp]
    · have hyx : y ≠ x := by
        obtain hy | hy := List.mem_append.1 hy
        · exact hxr' y (List.mem_cons_of_mem _ hy)
        · exact hxl y (List.mem_singleton.1 hy ▸ List.mem_cons_self)
      have hyz : y ≠ z := by
        rintro rfl
        obtain hy | hy := List.mem_append.1 hy
        · exact (List.nodup_cons.1 hr).1 hy
        · exact hdisj a List.mem_cons_self y (by simp) (List.mem_singleton.1 hy).symm
      rw [listDelInit_prev, if_neg hyx, hnext, if_neg hyz]

/-- an element that is taken off points to itself -/
theorem listDelInit_self (m : Links κ η) (x : κ ⊕ η) : (m.listDelInit x).Path x [] x :=
  ⟨by rw [listDelInit_next, if_pos rfl], by rw [listDelInit_prev, if_pos rfl]⟩

theorem init_alone (h : m.Path x [] x) : m.init x = m := by
  have hnext : Function.update m.next x x = m.next := by rw [Function.update_eq_self_iff, h.1]
  have hprev : Function.update m.prev x x = m.prev := by rw [Function.update_eq_self_iff, h.2]
  calc m.init x = ⟨Function.update m.next x x, Function.update m.prev x x⟩ := rfl
    _ = m := by rw [hnext, hprev]

/-- an element that points to itself already stays as it is, and so does everything else -/
theorem listDelInit_alone (h : m.Path x [] x) : m.listDelInit x = m := by
  have hnext : (m.listDelInit x).next = m.next := funext fun y => by
    rw [listDelInit_next]
    split_ifs with h1 h2
    · rw [h1, h.1]
    · rw [h2, h.2]
    · rfl
  have hprev : (m.listDelInit x).prev = m.prev := funext fun y => by
    rw [listDelInit_prev]
    split_ifs with h1 h2
    · rw [h1, h.2]
    · rw [h2, h.1]
    · rfl
  calc m.listDelInit x = ⟨(m.listDelInit x).next, (m.listDelInit x).prev⟩ := rfl
    _ = m := by rw [hnext, hprev]

end Operations

/-! ## Lists in a memory -/

/-- list k of the memory is `lists k`, no element is on two lists or twice on one, and the others point to themselves -/
structure Rep (m : Links κ η) (lists : κ → List η) : Prop where
  path : ∀ k, m.Path (.inl k) ((lists k).map .inr) (.inl k)
  nodup : ∀ k, (lists k).Nodup
  once : ∀ j k x, x ∈ lists j → x ∈ lists k → j = k
  alone : ∀ x, (∀ k, x ∉ lists k) → m.Path (.inr x) [] (.inr x)

theorem Rep.empty : Rep (Links.empty : Links κ η) fun _ => [] :=
  ⟨fun _ => ⟨rfl, rfl⟩, fun _ => List.nodup_nil, fun _ _ _ h => absurd h List.not_mem_nil, fun _ _ => ⟨rfl, rfl⟩⟩

/-- the first node of a rest of list k -/
def first (k : κ) : List η → κ ⊕ η
  | [] => .inl k
  | y :: _ => .inr y

variable {lists : κ → List η} {k : κ} {e : η}

theorem path_first {z : κ ⊕ η} {rest : List η} (h : m.Path z (rest.map .inr) (.inl k)) : m.next z = first k rest := by
  cases rest with
  | nil => exact h.1
  | cons y rest => exact h.1

/-- **Where a pointer of a list goes**: to the next element, or back to the head. -/
theorem Rep.walk (hr : Rep m lists) {pre post : List η} (hk : lists k = pre ++ e :: post) : m.next (.inr e) = first k post := by
  have hpath := hr.path k
  rw [hk, List.map_append, List.map_cons] at hpath
  exact path_first (Path.append.1 hpath).2

theorem Rep.start (hr : Rep m lists) (k : κ) : m.next (.inl k) = first k (lists k) := path_first (hr.path k)

/-- list_empty of an element tells whether it is on a list -/
theorem Rep.listEmpty_iff (hr : Rep m lists) : m.listEmpty (.inr e) ↔ ∀ k, e ∉ lists k := by
  constructor
  · intro hempty k he
    obtain ⟨pre, post, hk⟩ := List.append_of_mem he
    have hnext : (.inr e : κ ⊕ η) = first k post := hempty.symm.trans (hr.walk hk)
    have hnodup := hr.nodup k
    cases post with
    | nil => simp [first] at hnext
    | cons y post =>
      obtain rfl : e = y := Sum.inr_injective hnext
      rw [hk] at hnodup
      exact (List.nodup_cons.1 (List.nodup_append.1 hnodup).2.1).1 List.mem_cons_self
  · exact fun he => (hr.alone e he).1

/-- the nodes of list j -/
def Node (lists : κ → List η) (j : κ) (y : κ ⊕ η) : Prop := y ∈ (.inl j : κ ⊕ η) :: (lists j).map .inr

/-- two lists have no node in common -/
theorem Rep.apart (hr : Rep m lists) {j : κ} (hjk : j ≠ k) {y : κ ⊕ η} (hj : Node lists j y) : ¬ Node lists k y := by
  intro hk
  simp only [Node, List.mem_cons, List.mem_map] at hj hk
  obtain rfl | ⟨z, hz, rfl⟩ := hj
  · obtain he | ⟨w, -, he⟩ := hk
    · exact hjk (Sum.inl_injective he)
    · exact Sum.inr_ne_inl he
  · obtain he | ⟨w, hw, he⟩ := hk
    · exact Sum.inr_ne_inl he
    · exact hjk (hr.once j k z hz (Sum.inr_injective he ▸ hw))

theorem Rep.node_ne (he : ∀ k, e ∉ lists k) {j : κ} {y : κ ⊕ η} (hj : Node lists j y) : y ≠ .inr e := by
  rintro rfl
  simp only [Node, List.mem_cons, List.mem_map] at hj
  obtain h | ⟨z, hz, h⟩ := hj
  · exact Sum.inr_ne_inl h
  · exact he j (Sum.inr_injective h ▸ hz)

theorem Rep.ring_nodup (hr : Rep m lists) (k : κ) : ((.inl k : κ ⊕ η) :: (lists k).map .inr).Nodup :=
  List.nodup_cons.2 ⟨by simp, (hr.nodup k).map Sum.inr_injective⟩

/-- **A change inside one list.** Its ring is linked anew, the nodes of the others and what is alone are as before. -/
theorem Rep.change (hr : Rep m lists) {k : κ} {new : List η} (hpath : m'.Path (.inl k) (new.map .inr) (.inl k))
    (hnodup : new.Nodup) (hnew : ∀ y ∈ new, ∀ j ≠ k, y ∉ lists j) (hother : ∀ j ≠ k, ∀ y, Node lists j y →
    m'.next y = m.next y ∧ m'.prev y = m.prev y)
    (halone : ∀ y, y ∉ new → (∀ j ≠ k, y ∉ lists j) → m'.Path (.inr y) [] (.inr y)) [DecidableEq κ] :
    Rep m' (Function.update lists k new) := by
  refine ⟨fun j => ?_, fun j => ?_, fun i j y hi hj => ?_, fun y hy => ?_⟩
  · by_cases hjk : j = k
    · subst hjk
      rwa [Function.update_self]
    · rw [Function.update_of_ne hjk]
      refine (hr.path j).frame (fun y hy => (hother j hjk y hy).1) fun y hy => (hother j hjk y ?_).2
      simpa [Node, or_comm] using hy
  · by_cases hjk : j = k
    · subst hjk
      rwa [Function.update_self]
    · rw [Function.update_of_ne hjk]
      exact hr.nodup j
  · by_cases hik : i = k
    · by_cases hjk : j = k
      · exact hik.trans hjk.symm
      · rw [hik, Function.update_self] at hi
        rw [Function.update_of_ne hjk] at hj
        exact absurd hj (hnew y hi j hjk)
    · rw [Function.update_of_ne hik] at hi
      by_cases hjk : j = k
      · rw [hjk, Function.update_self] at hj
        exact absurd hi (hnew y hj i hik)
      · rw [Function.update_of_ne hjk] at hj
        exact hr.once i j y hi hj
  · refine halone y ?_ fun j hjk hj => hy j (by rwa [Function.update_of_ne hjk])
    have := hy k
    rwa [Function.update_self] at this

/-- the nodes beside an element are on its list -/
theorem Rep.beside (hr : Rep m lists) (hk : e ∈ lists k) :
    Node lists k (m.prev (.inr e)) ∧ Node lists k (m.next (.inr e)) := by
  obtain ⟨pre, post, hl⟩ := List.append_of_mem hk
  have hpath := hr.path k
  rw [hl, List.map_append, List.map_cons, Path.append] at hpath
  have hp := hpath.1.prev_mem
  have hn := hpath.2.next_mem
  rw [Node, Node, hl, List.map_append, List.map_cons]
  constructor
  · rw [← List.cons_append]
    exact List.mem_append_left _ hp
  · obtain hn | hn := List.mem_append.1 hn
    · exact List.mem_cons_of_mem _ (List.mem_append_right _ (List.mem_cons_of_mem _ hn))
    · exact List.mem_singleton.1 hn ▸ List.mem_cons_self

variable [DecidableEq κ] [DecidableEq η]

/-- **list_add** puts an element that is on no list at the front. -/
theorem Rep.add (hr : Rep m lists) (he : ∀ k, e ∉ lists k) (k : κ) :
    Rep (m.listAdd (.inr e) (.inl k)) (Function.update lists k (e :: lists k)) := by
  have hnext : Node lists k (m.next (.inl k)) := by
    have := (hr.path k).next_mem
    simpa [Node, or_comm] using this
  refine hr.change ?_ (List.nodup_cons.2 ⟨he k, hr.nodup k⟩) ?_ (fun j hjk y hy => ?_) fun y hy hno => ?_
  · exact (hr.path k).link (hr.ring_nodup k) fun h => Rep.node_ne he h rfl
  · intro y hy j hjk hj
    obtain rfl | hy := List.mem_cons.1 hy
    · exact he j hj
    · exact hjk (hr.once j k y hj hy)
  · have hk : y ≠ .inl k := fun h => hr.apart hjk hy (by simp [h, Node])
    have hn : y ≠ m.next (.inl k) := fun h => hr.apart hjk hy (h ▸ hnext)
    have hye := Rep.node_ne he hy
    rw [listAdd_next, listAdd_prev, if_neg hk, if_neg hye, if_neg hye, if_neg hn]
    exact ⟨rfl, rfl⟩
  · have hall : ∀ j, y ∉ lists j := fun j hj => by
      by_cases hjk : j = k
      · exact hy (List.mem_cons_of_mem _ (hjk ▸ hj))
      · exact hno j hjk hj
    have hye : (.inr y : κ ⊕ η) ≠ .inr e := fun h => hy (Sum.inr_injective h ▸ List.mem_cons_self)
    have hn : (.inr y : κ ⊕ η) ≠ m.next (.inl k) := (Rep.node_ne hall hnext).symm
    have halone := hr.alone y hall
    refine ⟨?_, ?_⟩
    · rw [listAdd_next, if_neg Sum.inr_ne_inl, if_neg hye, halone.1]
    · rw [listAdd_prev, if_neg hye, if_neg hn, halone.2]

/-- **list_del_init** takes an element off the list it is on, if it is on one. -/
theorem Rep.del (hr : Rep m lists) (e : η) : Rep (m.listDelInit (.inr e)) fun k => (lists k).erase e := by
  by_cases hon : ∃ k, e ∈ lists k
  · obtain ⟨k, hk⟩ := hon
    obtain ⟨pre, post, hl⟩ := List.append_of_mem hk
    have hnodup := hr.nodup k
    rw [hl] at hnodup
    have hepre : e ∉ pre := fun h => (List.nodup_append.1 hnodup).2.2 e h e List.mem_cons_self rfl
    have hlists : (fun j => (lists j).erase e) = Function.update lists k (pre ++ post) := by
      funext j
      by_cases hjk : j = k
      · subst hjk
        rw [Function.update_self, hl, List.erase_append_right _ hepre, List.erase_cons_head]
      · rw [Function.update_of_ne hjk, List.erase_of_not_mem fun hj => hjk (hr.once j k e hj hk)]
    have hpath := hr.path k
    have hring := hr.ring_nodup k
    rw [hl, List.map_append, List.map_cons] at hpath hring
    have hsub : (pre ++ post).Sublist (pre ++ e :: post) := (List.sublist_cons_self e post).append_left pre
    obtain ⟨hp, hn⟩ := hr.beside hk
    rw [hlists]
    refine hr.change ?_ (hnodup.sublist hsub) ?_ (fun j hjk y hy => ?_) fun y hy hno => ?_
    · rw [List.map_append]
      exact hpath.unlink hring
    · exact fun y hy j hjk hj => hjk (hr.once j k y hj (hl ▸ hsub.subset hy))
    · have hye : y ≠ .inr e := fun h => hr.apart hjk hy (by
        rw [h, Node]
        exact List.mem_cons_of_mem _ (List.mem_map_of_mem hk))
      have hyp : y ≠ m.prev (.inr e) := fun h => hr.apart hjk hy (h ▸ hp)
      have hyn : y ≠ m.next (.inr e) := fun h => hr.apart hjk hy (h ▸ hn)
      rw [listDelInit_next, listDelInit_prev, if_neg hye, if_neg hye, if_neg hyp, if_neg hyn]
      exact ⟨rfl, rfl⟩
    · by_cases hye : y = e
      · exact hye ▸ listDelInit_self m _
      · have hall : ∀ j, y ∉ lists j := fun j hj => by
          by_cases hjk : j = k
          · rw [hjk, hl] at hj
            exact hy (by simpa [hye] using hj)
          · exact hno j hjk hj
        have hne : (.inr y : κ ⊕ η) ≠ .inr e := fun h => hye (Sum.inr_injective h)
        have hyp : (.inr y : κ ⊕ η) ≠ m.prev (.inr e) := (Rep.node_ne hall hp).symm
        have hyn : (.inr y : κ ⊕ η) ≠ m.next (.inr e) := (Rep.node_ne hall hn).symm
        have halone := hr.alone y hall
        refine ⟨?_, ?_⟩
        · rw [listDelInit_next, if_neg hne, if_neg hyp, halone.1]
        · rw [listDelInit_prev, if_neg hne, if_neg hyn, halone.2]
  · have hoff : ∀ k, e ∉ lists k := fun k hk => hon ⟨k, hk⟩
    have hlists : (fun k => (lists k).erase e) = lists := funext fun k => List.erase_of_not_mem (hoff k)
    rw [hlists, listDelInit_alone (hr.alone e hoff)]
    exact hr

theorem Rep.listEmpty_add (hr : Rep m lists) (he : ∀ k, e ∉ lists k) (k : κ) (y : η) :
    (m.listAdd (.inr e) (.inl k)).listEmpty (.inr y) ↔ y ≠ e ∧ m.listEmpty (.inr y) := by
  rw [(hr.add he k).listEmpty_iff, hr.listEmpty_iff]
  constructor
  · intro hy
    have hk := hy k
    rw [Function.update_self] at hk
    refine ⟨fun h => hk (h ▸ List.mem_cons_self), fun j hj => ?_⟩
    by_cases hjk : j = k
    · exact hk (List.mem_cons_of_mem _ (hjk ▸ hj))
    · have := hy j
      rw [Function.update_of_ne hjk] at this
      exact this hj
  · rintro ⟨hne, hy⟩ j
    by_cases hjk : j = k
    · rw [hjk, Function.update_self]
      exact fun h => (List.mem_cons.1 h).elim hne (hy k)
    · rw [Function.update_of_ne hjk]
      exact hy j

theorem Rep.listEmpty_del (hr : Rep m lists) (e y : η) :
    (m.listDelInit (.inr e)).listEmpty (.inr y) ↔ y = e ∨ m.listEmpty (.inr y) := by
  rw [(hr.del e).listEmpty_iff, hr.listEmpty_iff]
  constructor
  · intro hy
    by_cases hye : y = e
    · exact Or.inl hye
    · exact Or.inr fun k hk => hy k ((List.mem_erase_of_ne hye).2 hk)
  · rintro (rfl | hy) k hk
    · exact (hr.nodup k).not_mem_erase hk
    · exact hy k (List.mem_of_mem_erase hk)

end Links

end SinsOs.Core
