/-
Use counts: a table of entries that come and go, and users that look an entry up and go on to use it.

A user first raises the count of its entry, then looks whether something is there, and lowers the count when it has done. An
entry is cleared only where its count is 0, and is filled only where it is free (or with what it has). Between the steps of
one user the others take theirs.

- `Guarded`: the counts are the users that are inside, and what a user found is still there. Each step keeps it: `enter`,
  `advance`, `leave` for the users, `install` and `remove` for the entries.
- `Guarded.busy`: what a user has found cannot be removed.
-/
import Mathlib.Tactic

namespace SinsOs.Guard

/-- what the protocol sees of a user: its entry, whether it is counted there, and what it found -/
structure View (υ α : Type) where
  slot : υ → ℕ
  inside : υ → Bool
  held : υ → Option α

variable {υ α : Type} {v : View υ α} {content : ℕ → Option α} {count : ℕ → ℤ} {users : List υ} {u u' : υ}
    {i k : ℕ} {a : α}

/-- the user is inside the entry -/
def View.on (v : View υ α) (k : ℕ) (u : υ) : Bool := v.inside u && v.slot u == k

/-- what a user holds is in its entry -/
def View.Sound (v : View υ α) (content : ℕ → Option α) (u : υ) : Prop :=
  ∀ a, v.held u = some a → v.inside u = true ∧ content (v.slot u) = some a

structure Guarded (v : View υ α) (content : ℕ → Option α) (count : ℕ → ℤ) (users : List υ) : Prop where
  count : ∀ k, count k = users.countP (v.on k)
  sound : ∀ u ∈ users, v.Sound content u

theorem View.on_iff (v : View υ α) (k : ℕ) (u : υ) : v.on k u = true ↔ v.inside u = true ∧ v.slot u = k := by
  rw [View.on, Bool.and_eq_true, beq_iff_eq]

theorem Guarded.nil (v : View υ α) (content : ℕ → Option α) : Guarded v content (fun _ => 0) [] :=
  ⟨fun _ => rfl, fun _ hu => absurd hu List.not_mem_nil⟩

namespace Guarded

/-- **What is in use stays.** -/
theorem busy (h : Guarded v content count users) (hu : u ∈ users) (ha : v.held u = some a) : 0 < count (v.slot u) := by
  have hin := (h.sound u hu a ha).1
  have hpos : 0 < users.countP (v.on (v.slot u)) := List.countP_pos_iff.2 ⟨u, hu, (v.on_iff _ u).2 ⟨hin, rfl⟩⟩
  rw [h.count]
  exact_mod_cast hpos

/-! ## The users -/

theorem enter (h : Guarded v content count users) (hin : v.inside u = true) (hheld : v.held u = none) :
    Guarded v content (Function.update count (v.slot u) (count (v.slot u) + 1)) (users ++ [u]) := by
  refine ⟨fun k => ?_, fun w hw => ?_⟩
  · rw [List.countP_append, List.countP_singleton]
    by_cases hk : k = v.slot u
    · rw [hk, Function.update_self, h.count, if_pos ((v.on_iff _ u).2 ⟨hin, rfl⟩)]
      rfl
    · rw [Function.update_of_ne hk, h.count, if_neg fun hon => hk ((v.on_iff k u).1 hon).2.symm]
      rfl
  · rcases List.mem_append.1 hw with hw | hw
    · exact h.sound w hw
    · obtain rfl := List.mem_singleton.1 hw
      intro a ha
      rw [hheld] at ha
      cases ha

/-- how one user's step changes the number of users inside an entry -/
theorem countP_put (hu : users[i]? = some u) (k : ℕ) :
    ((users.set i u').countP (v.on k) : ℤ) =
      users.countP (v.on k) - (if v.on k u = true then 1 else 0) + (if v.on k u' = true then 1 else 0) := by
  obtain ⟨hi, rfl⟩ := List.getElem?_eq_some_iff.1 hu
  rw [List.countP_set hi]
  by_cases hon : v.on k users[i] = true
  · have hpos : 0 < users.countP (v.on k) := List.countP_pos_iff.2 ⟨_, List.getElem_mem hi, hon⟩
    rw [if_pos hon, if_pos hon]
    split_ifs <;> omega
  · rw [if_neg hon, if_neg hon]
    split_ifs <;> omega

/-- a user that stays inside goes on; what it says it holds is what it found at this step, or before -/
theorem advance (h : Guarded v content count users) (hu : users[i]? = some u) (hslot : v.slot u' = v.slot u)
    (hin : v.inside u' = v.inside u) (hsound : v.Sound content u') : Guarded v content count (users.set i u') := by
  refine ⟨fun k => ?_, fun w hw => ?_⟩
  · have hon : v.on k u' = v.on k u := by rw [View.on, View.on, hslot, hin]
    rw [countP_put hu, hon, h.count]
    ring
  · rcases List.mem_or_eq_of_mem_set hw with hw | rfl
    · exact h.sound w hw
    · exact hsound

theorem leave (h : Guarded v content count users) (hu : users[i]? = some u) (hin : v.inside u = true)
    (hout : v.inside u' = false) (hheld : v.held u' = none) :
    Guarded v content (Function.update count (v.slot u) (count (v.slot u) - 1)) (users.set i u') := by
  have hoff : ∀ k, ¬ v.on k u' = true := fun k hon => by
    rw [((v.on_iff k u').1 hon).1] at hout
    cases hout
  refine ⟨fun k => ?_, fun w hw => ?_⟩
  · rw [countP_put hu, if_neg (hoff k)]
    by_cases hk : k = v.slot u
    · rw [hk, Function.update_self, if_pos ((v.on_iff _ u).2 ⟨hin, rfl⟩), h.count]
      ring
    · rw [Function.update_of_ne hk, if_neg fun hon => hk ((v.on_iff k u).1 hon).2.symm, h.count]
      ring
  · rcases List.mem_or_eq_of_mem_set hw with hw | rfl
    · exact h.sound w hw
    · intro a ha
      rw [hheld] at ha
      cases ha

/-! ## The entries -/

theorem install (h : Guarded v content count users) (hfree : content k = none ∨ content k = some a) :
    Guarded v (Function.update content k (some a)) count users := by
  refine ⟨h.count, fun u hu b hb => ?_⟩
  obtain ⟨hin, hc⟩ := h.sound u hu b hb
  refine ⟨hin, ?_⟩
  by_cases hk : v.slot u = k
  · rw [hk] at hc
    rw [hk, Function.update_self]
    rcases hfree with hn | hs
    · rw [hn] at hc
      cases hc
    · exact hs.symm.trans hc
  · rw [Function.update_of_ne hk]
    exact hc

theorem remove (h : Guarded v content count users) (hzero : count k = 0) :
    Guarded v (Function.update content k none) count users := by
  refine ⟨h.count, fun u hu b hb => ?_⟩
  obtain ⟨hin, hc⟩ := h.sound u hu b hb
  have hk : v.slot u ≠ k := by
    rintro rfl
    exact (h.busy hu hb).ne' hzero
  exact ⟨hin, by rwa [Function.update_of_ne hk]⟩

end Guarded

end SinsOs.Guard
