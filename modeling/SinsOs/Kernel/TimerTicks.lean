/-
When timers fire (kernel/timer.c), in runs where the kernel adds handlers between two ticks and the functions leave the timers
alone.

The log of a run has the calls of add_timer with the tick, `expires` and `times`, and the firings with their tick. `Stage` says
how far a handler is: the ticks of its firings, the tick that it waits for and the times that are left.

`timers_fire`: a handler that is added at tick t fires at t + e, t + 2e and so on, as often as it asked for. That needs that
jiffies + expires does not reach 2^64, for otherwise the handler is on a list with a tick that is over (`wrapped_late`).
-/
import SinsOs.Kernel.Timer

namespace SinsOs.Timer

open SinsOs.Core

/-! ## Runs -/

/-- handlers are added between two ticks, when they are on no list, and the functions do nothing -/
def Asked (s : Sys) : Op → Prop
  | .add h e m function => s.ctl = .idle ∧ 1 ≤ e ∧ (1 ≤ m ∨ m = -1) ∧ function = true ∧ s.links.listEmpty (.inr h)
  | .del _ => False
  | .ret => False
  | _ => True

/-- no sum of jiffies wraps around -/
def NoWrap (s : Sys) : Op → Prop
  | .add _ e _ _ => s.jiffies + e < 2 ^ 64
  | .turn => s.jiffies + 1 < 2 ^ 64
  | .fin => ∀ r tmp, s.ctl = .firing r tmp → (s.handler r).times ≠ 1 → s.jiffies + (s.handler r).expires < 2 ^ 64
  | _ => True

/-- the ticks at which h fired, in order -/
def firings (h : ℕ) : List Event → List ℕ
  | [] => []
  | .fired h' t :: log => if h' = h then firings h log ++ [t] else firings h log
  | _ :: log => firings h log

/-- the first n ticks of a handler that was added at t -/
def ticks (t e n : ℕ) : List ℕ := (List.range n).map fun i => t + (i + 1) * e

/-- how often a handler has fired before tick j -/
def count (t e : ℕ) (m : ℤ) (j : ℕ) : ℕ := if m = -1 then (j - 1 - t) / e else min m.toNat ((j - 1 - t) / e)

/-! ## One handler -/

/-- the last add_timer of h, and the firings since -/
def hist (h : ℕ) : List Event → Option (ℕ × ℕ × ℤ) × List ℕ
  | [] => (none, [])
  | .added h' t e m :: log => if h' = h then (some (t, e, m), []) else hist h log
  | .fired h' t :: log => if h' = h then ((hist h log).1, (hist h log).2 ++ [t]) else hist h log
  | .deleted _ :: log => hist h log

def Firing (s : Sys) (h : ℕ) : Prop := ∃ tmp, s.ctl = .firing h tmp

/-- all firings so far were before this tick -/
def past (s : Sys) : ℕ := if s.ctl = .idle then s.jiffies else s.jiffies + 1

/-- the handler waits for its firing c + 1, or its function runs for it -/
structure Waits (s : Sys) (h t e : ℕ) (m : ℤ) (n c : ℕ) : Prop where
  on : ¬ s.links.listEmpty (.inr h)
  expires : (s.handler h).expires = e
  due : (s.handler h).jiffies = t + (c + 1) * e
  times : (s.handler h).times = if m = -1 then -1 else m - c
  left : m = -1 ∨ (c : ℤ) < m
  count : Firing s h ∧ n = c + 1 ∧ (s.handler h).jiffies = s.jiffies ∨ ¬ Firing s h ∧ n = c

/-- the times of the handler ran out -/
structure Done (s : Sys) (h : ℕ) (m : ℤ) (n : ℕ) : Prop where
  off : s.links.listEmpty (.inr h)
  rest : ¬ Firing s h
  all : m ≠ -1 ∧ (n : ℤ) = m

/-- a handler that was added at t and fired n times since -/
def Stage (s : Sys) (h t e : ℕ) (m : ℤ) (n : ℕ) : Prop :=
  1 ≤ e ∧ (n = 0 ∨ t + n * e < past s) ∧ (Done s h m n ∨ ∃ c, Waits s h t e m n c)

def Track (s : Sys) (h : ℕ) : Prop :=
  match hist h s.log with
  | (none, fs) => fs = [] ∧ s.links.listEmpty (.inr h) ∧ ¬ Firing s h
  | (some (t, e, m), fs) => ∃ n, fs = ticks t e n ∧ Stage s h t e m n

variable {s s' : Sys} {lists : ℕ → List ℕ} {vis rest : List ℕ} {log : List Event} {h r t e n c : ℕ} {m : ℤ}
    {tmp : Node} {x : Handler}

theorem ticks_succ (t e n : ℕ) : ticks t e (n + 1) = ticks t e n ++ [t + (n + 1) * e] := by
  simp [ticks, List.range_succ]

/-- what a step leaves alone of a handler -/
theorem Track.frame (ht : Track s h) (hhist : hist h s'.log = hist h s.log) (hx : s'.handler h = s.handler h)
    (hon : s'.links.listEmpty (.inr h) ↔ s.links.listEmpty (.inr h)) (hf : Firing s' h ↔ Firing s h)
    (hj : Firing s h → s'.jiffies = s.jiffies) (hp : past s ≤ past s') : Track s' h := by
  unfold Track at ht ⊢
  rw [hhist]
  split at ht
  · exact ⟨ht.1, hon.2 ht.2.1, fun h => ht.2.2 (hf.1 h)⟩
  · obtain ⟨n, hfs, he, hlast, hstage⟩ := ht
    refine ⟨n, hfs, he, hlast.imp_right fun h => h.trans_le hp, hstage.imp (fun hd => ?_) fun ⟨c, hw⟩ => ⟨c, ?_⟩⟩
    · exact ⟨hon.2 hd.off, fun h => hd.rest (hf.1 h), hd.all⟩
    · refine ⟨fun h => hw.on (hon.1 h), hx ▸ hw.expires, hx ▸ hw.due, hx ▸ hw.times, hw.left,
        hw.count.imp (fun ⟨h1, h2, h3⟩ => ?_) fun ⟨h1, h2⟩ => ?_⟩
      · exact ⟨hf.2 h1, h2, by rw [hx, h3, hj h1]⟩
      · exact ⟨fun h => h1 (hf.1 h), h2⟩

/-- **The firings at the end of a tick** are those that came due. -/
theorem Stage.count_eq (hs : Stage s h t e m n) (hidle : s.ctl = .idle)
    (hdue : ¬ s.links.listEmpty (.inr h) → s.jiffies ≤ (s.handler h).jiffies) :
    n = count t e m s.jiffies := by
  obtain ⟨he, hlast, hstage⟩ := hs
  have hpast : past s = s.jiffies := by rw [past, if_pos hidle]
  rw [hpast] at hlast
  have hbefore : n ≤ (s.jiffies - 1 - t) / e := by
    rw [Nat.le_div_iff_mul_le he]
    obtain rfl | hlast := hlast
    · simp
    · omega
  unfold count
  obtain hd | ⟨c, hw⟩ := hstage
  · obtain ⟨hne, hm⟩ := hd.all
    rw [if_neg hne, ← hm, Int.toNat_natCast, min_eq_left hbefore]
  · obtain ⟨hfire, -⟩ | ⟨-, rfl⟩ := hw.count
    · obtain ⟨tmp, hctl⟩ := hfire
      exact Ctl.noConfusion (hidle.symm.trans hctl)
    · have hle := hdue hw.on
      rw [hw.due] at hle
      have hafter : (s.jiffies - 1 - t) / e ≤ n := by
        refine Nat.le_of_lt_succ ((Nat.div_lt_iff_lt_mul he).2 ?_)
        have hpos : 0 < (n + 1) * e := Nat.mul_pos (Nat.succ_pos _) he
        rw [Nat.succ_eq_add_one]
        omega
      have heq := le_antisymm hbefore hafter
      obtain hm | hm := hw.left
      · rw [if_pos hm, ← heq]
      · rw [if_neg (by omega), ← heq, min_eq_right (by omega)]

/-! ## The steps -/

structure Tracked (s : Sys) : Prop where
  good : ∃ lists vis rest, Good s lists vis rest
  stack : s.stack = []
  track : ∀ h, Track s h

theorem Track.firing (ht : Track s h) (hf : Firing s h) :
    ∃ t e m n c, hist h s.log = (some (t, e, m), ticks t e n) ∧ Stage s h t e m n ∧ Waits s h t e m n c := by
  unfold Track at ht
  split at ht
  · exact absurd hf ht.2.2
  · rename_i t e m fs heq
    obtain ⟨n, rfl, hs⟩ := ht
    obtain hd | ⟨c, hw⟩ := hs.2.2
    · exact absurd hf hd.rest
    · exact ⟨t, e, m, n, c, heq, hs, hw⟩

/-- a handler on a list waits -/
theorem Track.waiting (ht : Track s h) (hon : ¬ s.links.listEmpty (.inr h)) :
    ∃ t e m n c, hist h s.log = (some (t, e, m), ticks t e n) ∧ Stage s h t e m n ∧ Waits s h t e m n c := by
  unfold Track at ht
  split at ht
  · exact absurd ht.2.1 hon
  · rename_i t e m fs heq
    obtain ⟨n, rfl, hs⟩ := ht
    obtain hd | ⟨c, hw⟩ := hs.2.2
    · exact absurd hd.off hon
    · exact ⟨t, e, m, n, c, heq, hs, hw⟩

theorem Tracked.tame {o : Op} (ht : Tracked s) (ha : Asked s o) (hw : NoWrap s o) : Tame s o := by
  cases o with
  | tick => trivial
  | turn => trivial
  | add h e m function =>
    obtain ⟨-, he, -, hf, hempty⟩ := ha
    exact ⟨hf, fun h0 => absurd h0.1 (Nat.one_le_iff_ne_zero.1 he), hempty, by simp [ht.stack], hw⟩
  | del h => exact ha.elim
  | ret => exact ha.elim
  | fin =>
    intro r tmp hctl
    obtain ⟨_, _, _, _, _, _, _, hwait⟩ := (ht.track r).firing ⟨tmp, hctl⟩
    exact ⟨fun h => absurd h hwait.on, hw r tmp hctl⟩

theorem doTimer_track (ht : ∀ h, Track s h) (hidle : s.ctl = .idle) (h : ℕ) : Track (doTimer s) h := by
  have hno : ¬ Firing s h := fun ⟨tmp, hctl⟩ => Ctl.noConfusion (hidle.symm.trans hctl)
  have hno' : ¬ Firing (doTimer s) h := fun ⟨tmp, hctl⟩ => Ctl.noConfusion hctl
  refine (ht h).frame rfl rfl Iff.rfl (iff_of_false hno' hno) (fun hf => absurd hf hno) ?_
  rw [past, if_pos hidle, past, if_neg fun hc => Ctl.noConfusion hc]
  exact Nat.le_succ _

/-- a handler that is due fires -/
theorem fired_track (ht : Track s h) (hon : ¬ s.links.listEmpty (.inr h)) (hno : ¬ Firing s h)
    (hnow : s.jiffies = (s.handler h).jiffies) (hctl : s'.ctl = .firing h tmp) (hlog : s'.log = .fired h s.jiffies :: s.log)
    (hsame : s'.links = s.links ∧ s'.handler = s.handler ∧ s'.jiffies = s.jiffies) : Track s' h := by
  obtain ⟨hlinks, hhandler, hj⟩ := hsame
  obtain ⟨t, e, m, n, c, hhist, hs, hw⟩ := ht.waiting hon
  obtain ⟨hf, -⟩ | ⟨-, rfl⟩ := hw.count
  · exact absurd hf hno
  have hdue : s.jiffies = t + (n + 1) * e := hnow.trans hw.due
  have hhist' : hist h s'.log = (some (t, e, m), ticks t e (n + 1)) := by
    rw [hlog, hist, if_pos rfl, hhist, ticks_succ, hdue]
  have hpast : past s' = s.jiffies + 1 := by rw [past, hctl, if_neg Ctl.noConfusion, hj]
  unfold Track
  rw [hhist']
  refine ⟨n + 1, rfl, hs.1, Or.inr ?_,
    Or.inr ⟨n, hlinks ▸ hw.on, hhandler ▸ hw.expires, hhandler ▸ hw.due, hhandler ▸ hw.times, hw.left,
    Or.inl ⟨⟨tmp, hctl⟩, rfl, ?_⟩⟩⟩
  · rw [hpast, hdue]
    exact Nat.lt_succ_self _
  · rw [hhandler, hj, hnow]

theorem turn_track (hg : Good s lists vis rest) (ht : ∀ h, Track s h) (hw : NoWrap s .turn)
    (hctl : (∃ pos tmp, s.ctl = .test pos tmp) ∨ ∃ tmp, s.ctl = .next tmp) (hs : turn s = .ok s') (h : ℕ) :
    Track s' h := by
  have hidle : s.ctl ≠ .idle := by
    obtain ⟨pos, tmp, hc⟩ | ⟨tmp, hc⟩ := hctl <;> simp [hc]
  have hno : ∀ y, ¬ Firing s y := by
    rintro y ⟨tmp', hf⟩
    obtain ⟨pos, tmp, hc⟩ | ⟨tmp, hc⟩ := hctl <;> simp [hc] at hf
  have hpast : past s = s.jiffies + 1 := if_neg hidle
  have hstill : ∀ {ctl : Ctl}, ctl ≠ .idle → (∀ r tmp, ctl ≠ .firing r tmp) → Track { s with ctl } h := by
    intro ctl hne hnf
    refine (ht h).frame rfl rfl Iff.rfl (iff_of_false (not_exists.2 (hnf h)) (hno h)) (fun hf => absurd hf (hno h)) ?_
    rw [hpast, past, if_neg hne]
  have hsplit := hg.place.split hidle
  have hplace := hg.place
  obtain ⟨pos, tmp, hctl⟩ | ⟨tmp, hctl⟩ := hctl
  · simp only [At, hctl] at hplace
    simp only [turn, hctl] at hs
    split_ifs at hs with hend
    · obtain rfl := Except.ok.inj hs
      refine (ht h).frame rfl rfl Iff.rfl (iff_of_false (not_exists.2 fun _ => Ctl.noConfusion) (hno h))
        (fun hf => absurd hf (hno h)) ?_
      rw [hpast, past, if_pos rfl]
      exact (Nat.mod_eq_of_lt hw).ge
    · cases hpos : pos with
      | inl k => simp [hpos] at hs
      | inr y =>
        subst hpos
        simp only at hs
        split_ifs at hs with hlate hnow
        · obtain rfl := Except.ok.inj hs
          by_cases hy : y = h
          · subst hy
            refine fired_track (ht y) ?_ (hno y) hnow rfl rfl ⟨rfl, rfl, rfl⟩
            rw [hg.queued.rep.listEmpty_iff]
            intro hoff
            -- the handler is the first of the part before do_timer
            cases hrest : rest with
            | nil =>
              rw [hrest] at hplace
              exact hend hplace.2.1
            | cons z rest' =>
              rw [hrest] at hplace
              obtain rfl : y = z := Sum.inr_injective hplace.2.1
              exact hoff (listNr s.jiffies) (by rw [hplace.1]; exact List.mem_append_right _ List.mem_cons_self)
          · have hf : ¬ ∃ tmp', (.firing y tmp : Ctl) = .firing h tmp' := not_exists.2 fun _ hf => hy (Ctl.firing.inj hf).1
            refine (ht h).frame ?_ rfl Iff.rfl (iff_of_false hf (hno h)) (fun hf => absurd hf (hno h)) ?_
            · rw [hist, if_neg hy]
            · rw [hpast, past, if_neg Ctl.noConfusion]
        · obtain rfl := Except.ok.inj hs
          exact hstill Ctl.noConfusion fun _ _ => Ctl.noConfusion
  · simp only [turn, hctl] at hs
    obtain rfl := Except.ok.inj hs
    exact hstill Ctl.noConfusion fun _ _ => Ctl.noConfusion

/-- the handler of a call of add_timer waits for its first firing -/
theorem add_track (hg : Good s lists vis rest) (ht : ∀ h, Track s h) (ha : Asked s (.add h e m true))
    (hw : NoWrap s (.add h e m true)) (hs : add s h e m true = .ok s') (y : ℕ) : Track s' y := by
  obtain ⟨hidle, he, hm, -, hempty⟩ := ha
  have hm0 : m ≠ 0 := by omega
  have he0 : e ≠ 0 := Nat.one_le_iff_ne_zero.1 he
  have hno := hg.queued.rep.listEmpty_iff.1 hempty
  obtain ⟨x, hxdef⟩ : ∃ x : Handler, x = ⟨e, e + s.jiffies, m, true⟩ := ⟨_, rfl⟩
  have hself : (setHandler s h { s.handler h with expires := e, times := m, function := true }).handler h =
      { s.handler h with expires := e, times := m, function := true } := Function.update_self ..
  have hput := addTimer_put (s := setHandler s h { s.handler h with expires := e, times := m, function := true }) (h := h)
    (by rw [hself]; exact he) (by rw [hself]; exact hm0) (by rw [hself]) (by rw [hself]; exact hw)
  rw [add, hput] at hs
  obtain rfl := Except.ok.inj hs
  rw [hself]
  simp only [put, setHandler, Function.update_idem, if_neg (not_or.2 ⟨he0, hm0⟩), ← hxdef]
  have hlinks := hg.queued.rep.listEmpty_add hno (listNr x.jiffies)
  have hnf : ∀ y, ¬ Firing s y := fun y => not_exists.2 fun _ hf => Ctl.noConfusion (hidle.symm.trans hf)
  by_cases hy : y = h
  · subst hy
    unfold Track
    simp only [hist, if_true]
    refine ⟨0, rfl, he, Or.inl rfl, Or.inr ⟨0, ?_, ?_, ?_, ?_, by omega, Or.inr ⟨hnf y, rfl⟩⟩⟩
    · intro hc
      exact ((hlinks y).1 (by rwa [hxdef] at hc ⊢)).1 rfl
    · change (Function.update s.handler y x y).expires = e
      rw [Function.update_self, hxdef]
    · change (Function.update s.handler y x y).jiffies = _
      rw [Function.update_self, hxdef, Nat.zero_add, Nat.one_mul, Nat.add_comm]
    · change (Function.update s.handler y x y).times = _
      rw [Function.update_self, hxdef]
      split_ifs with h1
      · exact h1
      · simp
  · refine (ht y).frame ?_ (Function.update_of_ne hy _ _) ?_ Iff.rfl (fun _ => rfl) le_rfl
    · simp only [hist, if_neg (Ne.symm hy)]
    · change (s.links.listAdd _ _).listEmpty _ ↔ _
      rw [hxdef] at hlinks
      rw [hlinks y, and_iff_right hy]

/-- after its function a handler waits for its next firing, or is done -/
theorem fire_track (hg : Good s lists vis rest) (ht : ∀ h, Track s h) (hctl : s.ctl = .firing r tmp) (hw : NoWrap s .fin)
    (hs : fire s r tmp = .ok s') (y : ℕ) : Track s' y := by
  obtain ⟨t, e, m, n, c, hhist, hstage, hwait⟩ := (ht r).firing ⟨tmp, hctl⟩
  obtain ⟨-, rfl, hnow⟩ | ⟨hno, -⟩ := hwait.count
  swap
  · exact absurd ⟨tmp, hctl⟩ hno
  have hr := hg.queued.rep
  have hpast : past s = s.jiffies + 1 := by rw [past, hctl, if_neg Ctl.noConfusion]
  -- the handler with a turn less
  obtain ⟨x, hxdef⟩ : ∃ x, x = if (s.handler r).times ≠ -1 then { s.handler r with times := (s.handler r).times - 1 }
    else s.handler r := ⟨_, rfl⟩
  have hxexp : x.expires = e ∧ x.function = (s.handler r).function := by
    rw [hxdef, ← hwait.expires]
    split_ifs <;> exact ⟨rfl, rfl⟩
  have hxtimes : x.times = if m = -1 then -1 else m - (c + 1) := by
    rw [hxdef]
    by_cases hm : m = -1
    · have hforever : (s.handler r).times = -1 := by rw [hwait.times, if_pos hm]
      rw [if_neg (not_not_intro hforever), if_pos hm, hforever]
    · have hleft := hwait.left.resolve_left hm
      have htimes : (s.handler r).times = m - c := by rw [hwait.times, if_neg hm]
      rw [if_pos (by omega), if_neg hm]
      change (s.handler r).times - 1 = _
      rw [htimes]
      ring
  have hdel := hr.listEmpty_del r
  rw [fire] at hs
  simp only [← hxdef] at hs
  -- handlers other than r
  have hother : ∀ {s2 : Sys}, y ≠ r → s2.log = s.log → s2.ctl = .next tmp → s2.jiffies = s.jiffies →
      s2.handler y = s.handler y → (s2.links.listEmpty (.inr y) ↔ s.links.listEmpty (.inr y)) → Track s2 y := by
    intro s2 hy hlog2 hctl2 hj2 hh2 hlinks2
    refine (ht y).frame (by rw [hlog2]) hh2 hlinks2 (iff_of_false ?_ ?_) (fun _ => hj2) ?_
    · rintro ⟨tmp', hf⟩
      exact Ctl.noConfusion (hctl2.symm.trans hf)
    · rintro ⟨tmp', hf⟩
      exact hy (Ctl.firing.inj (hctl.symm.trans hf)).1.symm
    · rw [hpast, past, hctl2, if_neg Ctl.noConfusion, hj2]
  have hlast : ∀ {s2 : Sys}, s2.ctl = .next tmp → s2.jiffies = s.jiffies → c + 1 = 0 ∨ t + (c + 1) * e < past s2 := by
    intro s2 hctl2 hj2
    rw [past, hctl2, if_neg Ctl.noConfusion, hj2, ← hpast]
    exact hstage.2.1
  by_cases hzero : x.times = 0
  · rw [if_neg (not_not_intro hzero)] at hs
    obtain rfl := Except.ok.inj hs
    by_cases hy : y = r
    · subst hy
      have hhist' : hist y (delTimer { setHandler s y x with ctl := .next tmp } y).log = (some (t, e, m), ticks t e (c + 1)) :=
        hhist
      unfold Track
      rw [hhist']
      refine ⟨c + 1, rfl, hstage.1, hlast rfl rfl,
        Or.inl ⟨(hdel y).2 (Or.inl rfl), not_exists.2 fun _ => Ctl.noConfusion, ?_⟩⟩
      rw [hxtimes] at hzero
      split_ifs at hzero with hm
      · exact ⟨hm, by push_cast; omega⟩
    · refine hother hy rfl rfl rfl (Function.update_of_ne hy _ _) ?_
      exact (hdel y).trans (or_iff_right hy)
  · rw [if_pos hzero] at hs
    generalize hs1 : delTimer { setHandler s r x with ctl := .next tmp } r = s1 at hs
    have hself : s1.handler r = x := by
      rw [← hs1]
      exact Function.update_self ..
    have hj1 : s1.jiffies = s.jiffies := hs1 ▸ rfl
    have hlinks1 : s1.links = s.links.listDelInit (.inr r) := hs1 ▸ rfl
    have hmore : (s.handler r).times ≠ 1 := by
      intro h1
      rw [h1, if_pos (by decide)] at hxdef
      exact hzero (by rw [hxdef]; rfl)
    obtain ⟨k, hk⟩ : ∃ k, r ∈ lists k := by
      by_contra hoff
      exact hwait.on (hr.listEmpty_iff.2 fun k hk => hoff ⟨k, hk⟩)
    have hput := addTimer_put (s := s1) (h := r) (by rw [hself, hxexp.1]; exact hstage.1) (by rwa [hself])
      (by rw [hself, hxexp.2]; exact (hg.queued.fields k r hk).2.2)
      (by rw [hself, hj1, hxexp.1, ← hwait.expires]; exact hw r tmp hctl hmore)
    rw [hput, hself, hj1] at hs
    obtain rfl := Except.ok.inj hs
    have hadd := (hr.del r).listEmpty_add (fun k => (hr.nodup k).not_mem_erase) (listNr (x.expires + s.jiffies))
    have hctl1 : s1.ctl = .next tmp := hs1 ▸ rfl
    have hlog1 : s1.log = s.log := hs1 ▸ rfl
    by_cases hy : y = r
    · subst hy
      have hhist' : hist y (put s1 y { x with jiffies := x.expires + s.jiffies }).log = (some (t, e, m), ticks t e (c + 1)) := by
        rw [← hhist, ← hlog1]
        rfl
      have hself' : (put s1 y { x with jiffies := x.expires + s.jiffies }).handler y =
          { x with jiffies := x.expires + s.jiffies } :=
        Function.update_self ..
      unfold Track
      rw [hhist']
      refine ⟨c + 1, rfl, hstage.1, hlast hctl1 hj1, Or.inr ⟨c + 1, ?_, ?_, ?_, ?_, ?_, Or.inr ⟨?_, rfl⟩⟩⟩
      · change ¬ (s1.links.listAdd _ _).listEmpty _
        rw [hlinks1]
        exact fun hc => ((hadd y).1 hc).1 rfl
      · rw [hself']
        exact hxexp.1
      · rw [hself']
        change x.expires + s.jiffies = _
        rw [hxexp.1, ← hnow, hwait.due]
        ring
      · rw [hself']
        change x.times = _
        rw [hxtimes]
        push_cast
        rfl
      · refine hwait.left.imp_right fun hlt => ?_
        rw [hxtimes] at hzero
        push_cast
        split_ifs at hzero with hm <;> omega
      · rintro ⟨tmp', hf⟩
        exact Ctl.noConfusion (hctl1.symm.trans hf)
    · have hh1 : s1.handler y = s.handler y := by
        rw [← hs1]
        exact Function.update_of_ne hy _ _
      refine hother hy hlog1 hctl1 hj1 ((Function.update_of_ne hy _ _).trans hh1) ?_
      change (s1.links.listAdd _ _).listEmpty _ ↔ _
      rw [hlinks1]
      exact (hadd y).trans ((and_iff_right hy).trans ((hdel y).trans (or_iff_right hy)))

/-! ## Results -/

theorem turn_stack (hs : turn s = .ok s') : s'.stack = s.stack := by
  unfold turn at hs
  split at hs
  · split_ifs at hs
    · obtain rfl := Except.ok.inj hs
      rfl
    · split at hs
      · cases hs
      · split_ifs at hs <;> obtain rfl := Except.ok.inj hs <;> rfl
  · obtain rfl := Except.ok.inj hs
    rfl
  · obtain rfl := Except.ok.inj hs
    rfl

/-- no function runs in add_timer when `expires` is not 0 -/
theorem addTimer_stack (he : 1 ≤ (s.handler h).expires) (hs : addTimer s h = .ok s') : s'.stack = s.stack := by
  simp only [addTimer, if_neg (Nat.one_le_iff_ne_zero.1 he)] at hs
  split_ifs at hs <;> obtain rfl := Except.ok.inj hs <;> rfl

theorem add_stack {function : Bool} (he : 1 ≤ e) (hs : add s h e m function = .ok s') : s'.stack = s.stack := by
  unfold add at hs
  generalize hs1 : setHandler s h { s.handler h with expires := e, times := m, function := function } = s1 at hs
  have hexp : 1 ≤ (s1.handler h).expires := by
    rw [← hs1]
    change 1 ≤ (Function.update s.handler h _ h).expires
    rwa [Function.update_self]
  cases hrun : addTimer s1 h with
  | error b =>
    rw [hrun] at hs
    cases hs
  | ok s2 =>
    rw [hrun] at hs
    obtain rfl := Except.ok.inj hs
    exact (addTimer_stack hexp hrun).trans (hs1 ▸ rfl)

theorem fire_stack (he : 1 ≤ (s.handler r).expires) (hs : fire s r tmp = .ok s') : s'.stack = s.stack := by
  obtain ⟨x, hxdef⟩ : ∃ x, x = if (s.handler r).times ≠ -1 then { s.handler r with times := (s.handler r).times - 1 }
    else s.handler r := ⟨_, rfl⟩
  have hexp : 1 ≤ x.expires := by
    rw [hxdef]
    split_ifs <;> exact he
  rw [fire] at hs
  simp only [← hxdef] at hs
  split_ifs at hs with hzero
  · refine Eq.trans (addTimer_stack ?_ hs) rfl
    change 1 ≤ (Function.update s.handler r x r).expires
    rwa [Function.update_self]
  · obtain rfl := Except.ok.inj hs
    rfl

theorem tracked_step {o : Op} (ht : Tracked s) (hl : legal s o) (ha : Asked s o) (hw : NoWrap s o) (hs : step s o = .ok s') :
    Tracked s' := by
  obtain ⟨lists, vis, rest, hg⟩ := ht.good
  obtain ⟨lists', vis', rest', hg', -⟩ := (step_good hg hl (ht.tame ha hw)).value hs
  have hgood : ∃ lists vis rest, Good s' lists vis rest := ⟨lists', vis', rest', hg'⟩
  cases o with
  | tick =>
    obtain rfl := Except.ok.inj hs
    exact ⟨hgood, ht.stack, doTimer_track ht.track hl.2⟩
  | turn => exact ⟨hgood, (turn_stack hs).trans ht.stack, turn_track hg ht.track hw hl.2 hs⟩
  | add h e m function =>
    obtain rfl : function = true := ha.2.2.2.1
    exact ⟨hgood, (add_stack ha.2.1 hs).trans ht.stack, add_track hg ht.track ha hw hs⟩
  | del h => exact ha.elim
  | ret => exact ha.elim
  | fin =>
    obtain ⟨-, r, tmp, hctl⟩ := hl
    simp only [step, hctl] at hs
    obtain ⟨t, e, m, n, c, -, hstage, hwait⟩ := (ht.track r).firing ⟨tmp, hctl⟩
    have hexp : 1 ≤ (s.handler r).expires := by
      rw [hwait.expires]
      exact hstage.1
    exact ⟨hgood, (fire_stack hexp hs).trans ht.stack, fire_track hg ht.track hctl hw hs⟩

theorem hist_added {l1 l2 : List Event} (hno : ∀ ev ∈ l2, ¬ IsAdd h ev) :
    hist h (l2 ++ .added h t e m :: l1) = (some (t, e, m), firings h l2) := by
  induction l2 with
  | nil => simp [hist, firings]
  | cons ev l2 ih =>
    have ih := ih fun ev hev => hno ev (List.mem_cons_of_mem _ hev)
    cases ev with
    | added h' t' e' m' =>
      have hne : h' ≠ h := fun he => hno _ List.mem_cons_self ⟨t', e', m', by rw [he]⟩
      simp only [List.cons_append, hist, if_neg hne, ih, firings]
    | deleted h' => simp only [List.cons_append, hist, ih, firings]
    | fired h' t' =>
      simp only [List.cons_append, hist, ih, firings]
      split_ifs <;> rfl

theorem hist_none (hno : ∀ ev ∈ log, ¬ IsAdd h ev) : hist h log = (none, firings h log) := by
  induction log with
  | nil => rfl
  | cons ev log ih =>
    have ih := ih fun ev hev => hno ev (List.mem_cons_of_mem _ hev)
    cases ev with
    | added h' t' e' m' =>
      have hne : h' ≠ h := fun he => hno _ List.mem_cons_self ⟨t', e', m', by rw [he]⟩
      simp only [hist, if_neg hne, ih, firings]
    | deleted h' => simp only [hist, ih, firings]
    | fired h' t' =>
      simp only [hist, ih, firings]
      split_ifs <;> rfl

/-- runs in which the kernel adds timers, and no sum of jiffies wraps around -/
def ticking : Lts Sys Op := system.only fun s o => Asked s o ∧ NoWrap s o

theorem tracked_reachable (h : ticking.Reach s) : Tracked s := by
  refine h.inv (P := Tracked) (fun s (hb : Boot s) => ⟨⟨_, _, _, boot_good hb⟩, hb.2.2.2.1, fun h => ?_⟩)
    fun s o s' ht (hst : (Asked s o ∧ NoWrap s o) ∧ legal s o ∧ step s o = .ok s') =>
      tracked_step ht hst.2.1 hst.1.1 hst.1.2 hst.2.2
  obtain ⟨hlinks, -, hctl, -, hlog⟩ := hb
  unfold Track
  rw [hlog]
  exact ⟨rfl, by rw [hlinks]; rfl, fun ⟨tmp, hf⟩ => Ctl.noConfusion (hctl.symm.trans hf)⟩

/-- do_timer ends -/
theorem tracked_ends (ht : Tracked s) :
    ∃ n, ∀ os s', (ticking.only fun _ o => noTick o).Run s os s' → (os.filter own).length ≤ n := by
  obtain ⟨lists, vis, rest, hg⟩ := ht.good
  refine ⟨s.ctl.left rest, fun os s' hr => ?_⟩
  have hrank := hr.ranked own (fun s n => Tracked s ∧ ∃ lists vis rest, Good s lists vis rest ∧ s.ctl.left rest ≤ n) ?_ ?_
    (n := s.ctl.left rest) ⟨ht, lists, vis, rest, hg, le_rfl⟩
  · obtain ⟨m, -, hm⟩ := hrank
    exact (Nat.le_add_left _ _).trans hm
  · rintro s o s' n ⟨hno, ⟨ha, hw⟩, hl, hs⟩ ho ⟨ht, lists, vis, rest, hg, hn⟩
    obtain ⟨lists', vis', rest', hg', -, hle⟩ := (step_good hg hl (ht.tame ha hw)).value hs
    exact ⟨tracked_step ht hl ha hw hs, lists', vis', rest', hg', (hle ho hno).trans hn⟩
  · rintro s o s' n ⟨hno, ⟨ha, hw⟩, hl, hs⟩ ho ⟨ht, lists, vis, rest, hg, hn⟩
    obtain ⟨lists', vis', rest', hg', hlt, -⟩ := (step_good hg hl (ht.tame ha hw)).value hs
    exact ⟨s'.ctl.left rest', (hlt ho).trans_le hn, tracked_step ht hl ha hw hs, lists', vis', rest', hg', le_rfl⟩

/-- **Timers fire when they are due.** Every handler on a list is on the list of its tick, no step comes to a BUG_ON, do_timer
ends, and between two ticks the firings of a handler since it was added at t are t + e, t + 2e and so on, those before the present
tick, up to its times; a handler that was not added has not fired. -/
theorem timers_fire (hr : ticking.Reach s) :
    (∃ lists, s.links.Rep lists ∧ ∀ k h, h ∈ lists k → k = listNr (s.handler h).jiffies) ∧
    (∀ o, legal s o → Asked s o → NoWrap s o → ∃ s', step s o = .ok s') ∧
    (∃ n, ∀ os s', (ticking.only fun _ o => noTick o).Run s os s' → (os.filter own).length ≤ n) ∧
    (s.ctl = .idle → ∀ h, (∀ l2 l1 t e m, s.log = l2 ++ .added h t e m :: l1 → (∀ ev ∈ l2, ¬ IsAdd h ev) →
      firings h l2 = ticks t e (count t e m s.jiffies)) ∧ ((∀ ev ∈ s.log, ¬ IsAdd h ev) → firings h s.log = [])) := by
  have ht := tracked_reachable hr
  obtain ⟨lists, vis, rest, hg⟩ := ht.good
  refine ⟨⟨lists, hg.queued.rep, hg.queued.slot⟩, fun o hl ha hw => ?_, tracked_ends ht,
    fun hidle h => ⟨fun l2 l1 t e m hlog hno => ?_, fun hno => ?_⟩⟩
  · have hends := step_good hg hl (ht.tame ha hw)
    cases hrun : step s o with
    | error b => exact (hends.error hrun).elim
    | ok s' => exact ⟨s', rfl⟩
  · have htrack := ht.track h
    unfold Track at htrack
    rw [hlog, hist_added hno] at htrack
    obtain ⟨n, hfs, hstage⟩ := htrack
    rw [hfs, ← hstage.count_eq hidle]
    intro hon
    obtain ⟨k, hk⟩ : ∃ k, h ∈ lists k := by
      by_contra hoff
      exact hon (hg.queued.rep.listEmpty_iff.2 fun k hk => hoff ⟨k, hk⟩)
    exact (hg.queued.due k h hk).1
  · have htrack := ht.track h
    unfold Track at htrack
    rw [hist_none hno] at htrack
    exact htrack.1

/-! ## Runs on fixed handlers -/

instance (s : Sys) (o : Op) : Decidable (Asked s o) :=
  match o with
  | .tick => isTrue trivial
  | .turn => isTrue trivial
  | .add .. => inferInstanceAs (Decidable (_ ∧ _ ∧ _ ∧ _ ∧ _))
  | .del _ => isFalse id
  | .ret => isFalse id
  | .fin => isTrue trivial

instance (s : Sys) (o : Op) : Decidable (NoWrap s o) :=
  match o with
  | .add .. => inferInstanceAs (Decidable (_ < _))
  | .turn => inferInstanceAs (Decidable (_ < _))
  | .fin => inferInstanceAs (Decidable (∀ r tmp, s.ctl = .firing r tmp → _ ≠ _ → _ < _))
  | .tick => isTrue trivial
  | .del _ => isTrue trivial
  | .ret => isTrue trivial

/-- handler 1 asks for three firings, at every second tick, and five ticks pass -/
def fiveTicks : List Op :=
  .add 1 2 3 true :: [.tick, .turn, .tick, .turn] ++ [.tick, .turn, .fin, .turn, .turn] ++ [.tick, .turn] ++
    [.tick, .turn, .fin, .turn, .turn]

theorem timers_fire_twice : ∃ s : Sys, s.ctl = .idle ∧ s.jiffies = 5 ∧ firings 1 s.log = ticks 0 2 (count 0 2 3 5) ∧
    ticks 0 2 (count 0 2 3 5) = [2, 4] := by
  have hrun : (fiveTicks.foldlM (fun s o => if Asked s o ∧ NoWrap s o then run s o else none) booted).map
      (fun s => (s.ctl, s.jiffies, s.log)) = some (.idle, 5, [.fired 1 4, .fired 1 2, .added 1 0 2 3]) := by decide +kernel
  obtain ⟨s, hs, hfields⟩ := Option.map_eq_some_iff.1 hrun
  simp only [Prod.mk.injEq] at hfields
  obtain ⟨hctl, hj, hlog⟩ := hfields
  have hreach : ticking.Reach s := .fold_only (M := system) (fun _ _ _ => run_step) (.start ⟨rfl, rfl, rfl, rfl, rfl⟩) hs
  obtain ⟨-, -, -, hfire⟩ := timers_fire hreach
  have hfirings := (hfire hctl 1).1 [.fired 1 4, .fired 1 2] [] 0 2 3 hlog fun ev hev hadd => by
    obtain ⟨t, e, m, rfl⟩ := hadd
    simp at hev
  rw [hj] at hfirings
  refine ⟨s, hctl, hj, ?_, by decide⟩
  rw [hlog]
  exact hfirings

/-- a step of `run` that is asked for -/
def runAsked (s : Sys) (o : Op) : Option Sys := if Asked s o then run s o else none

theorem runAsked_step {o : Op} (h : runAsked s o = some s') : (system.only Asked).step s o s' := by
  unfold runAsked at h
  split_ifs at h with ha
  exact ⟨ha, run_step h⟩

/-- ticks without handlers -/
def idleAt (n : ℕ) : Sys := { booted with jiffies := n }

theorem idle_reach (n : ℕ) (hn : n < 2 ^ 64) : (system.only Asked).Reach (idleAt n) := by
  induction n with
  | zero => exact .start ⟨rfl, rfl, rfl, rfl, rfl⟩
  | succ n ih =>
    have htick : (system.only Asked).step (idleAt n) .tick (doTimer (idleAt n)) := ⟨trivial, ⟨rfl, rfl⟩, rfl⟩
    have hturn : (system.only Asked).step (doTimer (idleAt n)) .turn (idleAt (n + 1)) := by
      refine ⟨trivial, ⟨rfl, Or.inl ⟨_, _, rfl⟩⟩, ?_⟩
      simpa [step, turn, doTimer, idleAt, booted, Links.empty] using hn
    exact .step (.step (ih (Nat.lt_of_succ_lt hn)) htick) hturn

/-- handler 1 is added 20 ticks before jiffies is 0 again, and is on list 0, to which do_timer comes 4 ticks later -/
def wrapping : List Op := [.add 1 20 1 true, .tick, .turn, .tick, .turn, .tick, .turn, .tick, .turn, .tick]

/-- **When jiffies + expires wraps around, the BUG_ON is reached.** -/
theorem wrapped_late : ∃ s, (system.only Asked).Reach s ∧ legal s .turn ∧ step s .turn = .error .late := by
  have hrun : (wrapping.foldlM runAsked (idleAt (2 ^ 64 - 20))).map
      (fun s => (s.ctl, s.stack, s.jiffies, (s.handler 1).jiffies)) = some (.test (.inr 1) (.inl 0), [], 2 ^ 64 - 16, 0) := by
        decide +kernel
  obtain ⟨s, hs, hfields⟩ := Option.map_eq_some_iff.1 hrun
  simp only [Prod.mk.injEq] at hfields
  obtain ⟨hctl, hstack, hj, hdue⟩ := hfields
  refine ⟨s, (idle_reach _ (by decide)).fold (fun _ _ _ => runAsked_step) hs, ⟨hstack, Or.inl ⟨_, _, hctl⟩⟩, ?_⟩
  simp [step, turn, hctl, hj, hdue, listNr]

end SinsOs.Timer
