/-
Labelled transition systems: reachable states, invariants over runs, and runs restricted to the steps that meet a
condition.
-/
import Mathlib.Tactic

namespace SinsOs.Core

structure Lts (σ ε : Type) where
  start : σ → Prop
  step : σ → ε → σ → Prop

variable {σ ε : Type}

inductive Lts.Reach (M : Lts σ ε) : σ → Prop
  | start {s : σ} : M.start s → M.Reach s
  | step {s s' : σ} {e : ε} : M.Reach s → M.step s e s' → M.Reach s'

/-- **Invariants hold in every reachable state.** -/
theorem Lts.Reach.inv {M : Lts σ ε} {P : σ → Prop} (h0 : ∀ s, M.start s → P s)
    (hs : ∀ s e s', P s → M.step s e s' → P s') {s : σ} (h : M.Reach s) : P s := by
  induction h with
  | start h => exact h0 _ h
  | step _ hst ih => exact hs _ _ _ ih hst

/-- a run from one state to another, with its steps -/
inductive Lts.Run (M : Lts σ ε) : σ → List ε → σ → Prop
  | nil (s : σ) : M.Run s [] s
  | cons {s s' s'' : σ} {e : ε} {es : List ε} : M.step s e s' → M.Run s' es s'' → M.Run s (e :: es) s''

theorem Lts.Run.reach {M : Lts σ ε} {s s' : σ} {es : List ε} (hr : M.Run s es s') (h : M.Reach s) : M.Reach s' := by
  induction hr with
  | nil => exact h
  | cons hst _ ih => exact ih (.step h hst)

/-- **Ranks bound runs.** If a state with a rank keeps it in the steps of others, and in its own steps `hit`s or comes to a
state with a smaller rank, then a run with as many own steps as the rank hits. -/
theorem Lts.Run.hits {M : Lts σ ε} (own : ε → Bool) (rank : σ → Option ℕ) (hit : σ → ε → Prop)
    (hother : ∀ s e s' n, M.Reach s → M.step s e s' → own e = false → rank s = some n → rank s' = some n)
    (hown : ∀ s e s' n, M.Reach s → M.step s e s' → own e = true → rank s = some n →
      hit s e ∨ ∃ m < n, rank s' = some m)
    {s s' : σ} {es : List ε} (hr : M.Run s es s') (h : M.Reach s) {n : ℕ} (hn : rank s = some n)
    (hlen : n < (es.filter own).length) : ∃ pre e post u, es = pre ++ e :: post ∧ M.Run s pre u ∧ hit u e := by
  induction hr generalizing n with
  | nil => exact absurd hlen (Nat.not_lt_zero n)
  | @cons s s1 s2 e es hst hrun ih =>
    cases hown_e : own e with
    | false =>
      rw [List.filter_cons_of_neg (by simp [hown_e])] at hlen
      obtain ⟨pre, e', post, u, rfl, hpre, hhit⟩ := ih (.step h hst) (hother s e s1 n h hst hown_e hn) hlen
      exact ⟨e :: pre, e', post, u, rfl, .cons hst hpre, hhit⟩
    | true =>
      rw [List.filter_cons_of_pos hown_e, List.length_cons] at hlen
      rcases hown s e s1 n h hst hown_e hn with hhit | ⟨m, hm, hrank⟩
      · exact ⟨[], e, es, s, rfl, .nil s, hhit⟩
      · obtain ⟨pre, e', post, u, rfl, hpre, hhit⟩ := ih (.step h hst) hrank (by omega)
        exact ⟨e :: pre, e', post, u, rfl, .cons hst hpre, hhit⟩

/-- **Ranks go down.** If a state with a rank keeps it in the steps of others, and loses rank in its own steps, then a run
takes at least one off for each own step. -/
theorem Lts.Run.ranked {M : Lts σ ε} (own : ε → Bool) (rank : σ → ℕ → Prop)
    (hother : ∀ s e s' n, M.step s e s' → own e = false → rank s n → rank s' n)
    (hown : ∀ s e s' n, M.step s e s' → own e = true → rank s n → ∃ m < n, rank s' m)
    {s s' : σ} {es : List ε} (hr : M.Run s es s') {n : ℕ} (hn : rank s n) :
    ∃ m, rank s' m ∧ m + (es.filter own).length ≤ n := by
  induction hr generalizing n with
  | nil => exact ⟨n, hn, le_rfl⟩
  | @cons s s1 s2 e es hst _ ih =>
    cases hown_e : own e with
    | false =>
      obtain ⟨m, hm, hle⟩ := ih (hother s e s1 n hst hown_e hn)
      exact ⟨m, hm, by rwa [List.filter_cons_of_neg (by simp [hown_e])]⟩
    | true =>
      obtain ⟨n1, hlt, hn1⟩ := hown s e s1 n hst hown_e hn
      obtain ⟨m, hm, hle⟩ := ih hn1
      refine ⟨m, hm, ?_⟩
      rw [List.filter_cons_of_pos hown_e, List.length_cons]
      omega

/-- a run of a step function is a run of the system -/
theorem Lts.Run.fold {M : Lts σ ε} {step : σ → ε → Option σ} (hstep : ∀ s e s', step s e = some s' → M.step s e s')
    {s s' : σ} {es : List ε} (hs : es.foldlM step s = some s') : M.Run s es s' := by
  induction es generalizing s with
  | nil => exact Option.some.inj hs ▸ .nil s
  | cons e es ih =>
    rw [List.foldlM_cons] at hs
    obtain ⟨s1, h1, h2⟩ := Option.bind_eq_some_iff.1 hs
    exact .cons (hstep s e s1 h1) (ih h2)

theorem Lts.Reach.fold {M : Lts σ ε} {step : σ → ε → Option σ} (hstep : ∀ s e s', step s e = some s' → M.step s e s')
    {s s' : σ} (h : M.Reach s) {es : List ε} (hs : es.foldlM step s = some s') : M.Reach s' :=
  (Lts.Run.fold hstep hs).reach h

/-- the runs whose steps all meet `ok` -/
def Lts.only (M : Lts σ ε) (ok : σ → ε → Prop) : Lts σ ε where
  start := M.start
  step := fun s e s' => ok s e ∧ M.step s e s'

/-- a run of a step function that tests `ok` is a run whose steps all meet it -/
theorem Lts.Reach.fold_only {M : Lts σ ε} {ok : σ → ε → Prop} [∀ s e, Decidable (ok s e)]
    {step : σ → ε → Option σ} (hstep : ∀ s e s', step s e = some s' → M.step s e s') {s s' : σ}
    (h : (M.only ok).Reach s) {es : List ε}
    (hs : es.foldlM (fun s e => if ok s e then step s e else none) s = some s') : (M.only ok).Reach s' := by
  refine Lts.Reach.fold (fun s e s' hst => ?_) h hs
  split_ifs at hst with hok
  exact ⟨hok, hstep s e s' hst⟩

/-- a run whose steps all meet `ok` -/
theorem Lts.Run.only {M : Lts σ ε} {ok : σ → ε → Prop} {s s' : σ} {es : List ε} (hr : M.Run s es s')
    (h : ∀ pre e post u, es = pre ++ e :: post → M.Run s pre u → ok u e) : (M.only ok).Run s es s' := by
  induction hr with
  | nil => exact .nil _
  | @cons s s1 s2 e es hst _ ih =>
    refine .cons ⟨h [] e es s rfl (.nil s), hst⟩ (ih fun pre e' post u hes hpre => ?_)
    exact h (e :: pre) e' post u (congrArg (e :: ·) hes) (.cons hst hpre)

theorem Lts.Run.of_only {M : Lts σ ε} {ok : σ → ε → Prop} {s s' : σ} {es : List ε} (hr : (M.only ok).Run s es s') :
    M.Run s es s' := by
  induction hr with
  | nil => exact .nil _
  | cons hst _ ih => exact .cons hst.2 ih

/-! ## Steps without labels -/

/-- what holds wherever the steps from a state lead holds there and wherever the steps from the next states lead -/
theorem forall_reaches {r : σ → σ → Prop} {P : σ → Prop} {s : σ} : (∀ t, Relation.ReflTransGen r s t → P t) ↔
    P s ∧ ∀ u, r s u → ∀ t, Relation.ReflTransGen r u t → P t := by
  constructor
  · exact fun h => ⟨h s .refl, fun u hu t ht => h t (.head hu ht)⟩
  · rintro ⟨hs, hnext⟩ t ht
    rcases ht.cases_head with rfl | ⟨u, hu, hut⟩
    · exact hs
    · exact hnext u hu t hut

/-- the state in which no step is left -/
theorem forall_reaches_last {r : σ → σ → Prop} {P : σ → Prop} {s : σ} (h : ∀ u, ¬ r s u) :
    (∀ t, Relation.ReflTransGen r s t → P t) ↔ P s := by
  rw [forall_reaches, and_iff_left fun u hu => absurd hu (h u)]

/-- the state with one step -/
theorem forall_reaches_step {r : σ → σ → Prop} {P : σ → Prop} {s u : σ} (hu : ∀ v, r s v ↔ v = u) :
    (∀ t, Relation.ReflTransGen r s t → P t) ↔ P s ∧ ∀ t, Relation.ReflTransGen r u t → P t := by
  rw [forall_reaches]
  exact and_congr_right fun _ => ⟨fun h => h u ((hu u).2 rfl), fun h v hv => (hu v).1 hv ▸ h⟩

end SinsOs.Core
