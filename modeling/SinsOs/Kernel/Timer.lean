/-
Timers (kernel/timer.c): 60 lists of handlers, where a handler that is due at tick j is on list j mod 60, and do_timer goes
through the list of the present tick.

The functions of the handlers are code of others: between the steps of do_timer they call add_timer and del_timer as they
like, and so does the kernel between two ticks. add_timer calls the function itself when `expires` is 0, so these calls nest
(`stack`). Every list_head of a handler is initialised before its first use.

do_timer keeps the next handler in `tmp` while a function runs, takes the handler that ran off its list, and adds it again
unless its times ran out. That goes wrong when the function took the handler in `tmp` off, or its own handler. `Tame` leaves
these calls out, and `timers_safe` says that nothing else goes wrong.
-/
import SinsOs.Core.Checked
import SinsOs.Core.Lts
import SinsOs.Core.Ring

namespace SinsOs.Timer

open SinsOs.Core

/-! ## Model -/

def nrTimerLists : ℕ := 60

/-- a list, or a handler -/
abbrev Node := ℕ ⊕ ℕ

/-- `function`: it is not NULL -/
structure Handler where
  expires : ℕ
  jiffies : ℕ
  times : ℤ
  function : Bool
deriving DecidableEq, Repr

/-- what happened -/
inductive Event
  | added (h t e : ℕ) (m : ℤ)
  | deleted (h : ℕ)
  | fired (h t : ℕ)
deriving DecidableEq, Repr

/-- where do_timer is: at the test of the loop, in the function of a handler, or before the next turn -/
inductive Ctl
  | idle
  | test (pos tmp : Node)
  | firing (r : ℕ) (tmp : Node)
  | next (tmp : Node)
deriving DecidableEq, Repr

/-- `stack`: the handlers of which add_timer runs the function. `log`: the newest event first -/
structure Sys where
  links : Links ℕ ℕ
  handler : ℕ → Handler
  jiffies : ℕ
  ctl : Ctl
  stack : List ℕ
  log : List Event

/-- the BUG_ONs, and a list head that is taken for a handler -/
inductive Bug
  | expires
  | function
  | late
  | head
deriving DecidableEq, Repr

def setHandler (s : Sys) (h : ℕ) (x : Handler) : Sys := { s with handler := Function.update s.handler h x }

/-- the list of a tick, by do_div64 -/
def listNr (j : ℕ) : ℕ := j % nrTimerLists

def addTimer (s : Sys) (h : ℕ) : Except Bug Sys :=
  let x := s.handler h
  if x.expires = 0 ∧ x.times = -1 then .error .expires
  else if x.function = false then .error .function
  else if x.times = 0 then .ok s
  else if x.expires = 0 then .ok { s with stack := h :: s.stack }
  else
    let j := (x.expires + s.jiffies) % 2 ^ 64
    .ok { setHandler s h { x with jiffies := j } with links := s.links.listAdd (.inr h) (.inl (listNr j)) }

def delTimer (s : Sys) (h : ℕ) : Sys := { s with links := s.links.listDelInit (.inr h) }

/-- the start of do_timer -/
def doTimer (s : Sys) : Sys :=
  let pos := s.links.next (.inl (listNr s.jiffies))
  { s with ctl := .test pos (s.links.next pos) }

/-- a turn of list_for_each_safe up to the call of the function -/
def turn (s : Sys) : Except Bug Sys :=
  match s.ctl with
  | .test pos tmp =>
    if pos = .inl (listNr s.jiffies) then .ok { s with jiffies := (s.jiffies + 1) % 2 ^ 64, ctl := .idle }
    else
      match pos with
      | .inl _ => .error .head
      | .inr h =>
        if s.jiffies > (s.handler h).jiffies then .error .late
        else if s.jiffies = (s.handler h).jiffies then .ok { s with ctl := .firing h tmp, log := .fired h s.jiffies :: s.log }
        else .ok { s with ctl := .next tmp }
  | .next tmp => .ok { s with ctl := .test tmp (s.links.next tmp) }
  | _ => .ok s

/-- the rest of a turn, after the function of r -/
def fire (s : Sys) (r : ℕ) (tmp : Node) : Except Bug Sys :=
  let x := s.handler r
  let x := if x.times ≠ -1 then { x with times := x.times - 1 } else x
  let s := delTimer { setHandler s r x with ctl := .next tmp } r
  if x.times ≠ 0 then addTimer s r else .ok s

/-- the fields are set, and add_timer is called -/
def add (s : Sys) (h e : ℕ) (m : ℤ) (function : Bool) : Except Bug Sys := do
  let s' ← addTimer (setHandler s h { s.handler h with expires := e, times := m, function }) h
  .ok { s' with log := if e = 0 ∨ m = 0 then s.log else .added h s.jiffies e m :: s.log }

inductive Op
  | tick
  | turn
  | add (h e : ℕ) (m : ℤ) (function : Bool)
  | del (h : ℕ)
  -- the function of the innermost add_timer returns
  | ret
  -- the function of the handler that fires returns
  | fin
deriving DecidableEq, Repr

/-- code that is not do_timer's runs -/
def Outside (s : Sys) : Prop := s.stack ≠ [] ∨ s.ctl = .idle ∨ ∃ r tmp, s.ctl = .firing r tmp

def legal (s : Sys) : Op → Prop
  | .tick => s.stack = [] ∧ s.ctl = .idle
  | .turn => s.stack = [] ∧ ((∃ pos tmp, s.ctl = .test pos tmp) ∨ ∃ tmp, s.ctl = .next tmp)
  | .add .. => Outside s
  | .del _ => Outside s
  | .ret => s.stack ≠ []
  | .fin => s.stack = [] ∧ ∃ r tmp, s.ctl = .firing r tmp

def step (s : Sys) : Op → Except Bug Sys
  | .tick => .ok (doTimer s)
  | .turn => turn s
  | .add h e m function => add s h e m function
  | .del h => .ok { delTimer s h with log := .deleted h :: s.log }
  | .ret =>
    match s.stack with
    | [] => .ok s
    | h :: stack => .ok { s with links := s.links.init (.inr h), stack }
  | .fin =>
    match s.ctl with
    | .firing r tmp => fire s r tmp
    | _ => .ok s

/-- timer_init, and handlers of any fields -/
def Boot (s : Sys) : Prop := s.links = Links.empty ∧ s.jiffies = 0 ∧ s.ctl = .idle ∧ s.stack = [] ∧ s.log = []

def system : Lts Sys Op where
  start := Boot
  step := fun s o s' => legal s o ∧ step s o = .ok s'

/-- the handler that do_timer goes to next -/
def Ctl.cached : Ctl → Option Node
  | .firing _ tmp => some tmp
  | .next tmp => some tmp
  | _ => none

/-- the calls that do_timer is made for -/
def Tame (s : Sys) : Op → Prop
  | .add h e m function => function = true ∧ ¬ (e = 0 ∧ m = -1) ∧ s.links.listEmpty (.inr h) ∧ h ∉ s.stack ∧
    s.jiffies + e < 2 ^ 64
  | .del h => s.ctl.cached ≠ some (.inr h)
  | .fin => ∀ r tmp, s.ctl = .firing r tmp → (s.links.listEmpty (.inr r) → (s.handler r).times = 1) ∧
      ((s.handler r).times ≠ 1 → s.jiffies + (s.handler r).expires < 2 ^ 64)
  | _ => True

/-! ## What holds in tame runs -/

/-- a call of add_timer that puts h on a list -/
def IsAdd (h : ℕ) (ev : Event) : Prop := ∃ t e m, ev = .added h t e m

/-- del_timer was called for h, and add_timer was not called after it -/
def Dead (log : List Event) (h : ℕ) : Prop := ∃ l2 l1, log = l2 ++ .deleted h :: l1 ∧ ∀ ev ∈ l2, ¬ IsAdd h ev

/-- nothing fires between a del_timer and the next add_timer -/
def SafeLog (log : List Event) : Prop :=
  ∀ l3 l2 l1 h t, log = l3 ++ .fired h t :: (l2 ++ .deleted h :: l1) → ∃ ev ∈ l2, IsAdd h ev

/-- the lists of the memory, and what the handlers on them have -/
structure Queued (s : Sys) (lists : ℕ → List ℕ) : Prop where
  rep : s.links.Rep lists
  slot : ∀ k h, h ∈ lists k → k = listNr (s.handler h).jiffies
  due : ∀ k h, h ∈ lists k → s.jiffies ≤ (s.handler h).jiffies ∧ (s.handler h).jiffies < 2 ^ 64
  fields : ∀ k h, h ∈ lists k → 1 ≤ (s.handler h).expires ∧ (s.handler h).times ≠ 0 ∧ (s.handler h).function = true
  live : ∀ k h, h ∈ lists k → ¬ Dead s.log h
  stack : ∀ h ∈ s.stack, ∀ k, h ∉ lists k

/-- the part of the list behind do_timer, and the part before it -/
def At (s : Sys) (lists : ℕ → List ℕ) (vis rest : List ℕ) : Prop :=
  let k := listNr s.jiffies
  let later := fun h => s.jiffies < (s.handler h).jiffies
  match s.ctl with
  | .idle => rest = []
  | .test pos tmp => lists k = vis ++ rest ∧ pos = Links.first k rest ∧ tmp = s.links.next pos ∧ ∀ h ∈ vis, later h
  | .firing r tmp => lists k = vis ++ rest ∧ tmp = Links.first k rest ∧ r ∉ rest ∧ ∀ h ∈ vis, h ≠ r → later h
  | .next tmp => lists k = vis ++ rest ∧ tmp = Links.first k rest ∧ ∀ h ∈ vis, later h

/-- the steps that are left of do_timer, at most -/
def Ctl.left : Ctl → List ℕ → ℕ
  | .idle, _ => 0
  | .test _ _, rest => 3 * rest.length + 1
  | .next _, rest => 3 * rest.length + 2
  | .firing _ _, rest => 3 * rest.length + 3

structure Good (s : Sys) (lists : ℕ → List ℕ) (vis rest : List ℕ) : Prop where
  queued : Queued s lists
  place : At s lists vis rest
  calls : s.stack ≠ [] → s.ctl = .idle ∨ ∃ r tmp, s.ctl = .firing r tmp
  safe : SafeLog s.log

variable {s s' : Sys} {lists lists' : ℕ → List ℕ} {vis rest : List ℕ} {log : List Event} {h r : ℕ} {tmp : Node}
    {ev : Event} {x : Handler}

/-! ## The log -/

theorem Dead.of_cons (hd : Dead (ev :: log) h) : ev = .deleted h ∨ (Dead log h ∧ ¬ IsAdd h ev) := by
  obtain ⟨l2, l1, hlog, hno⟩ := hd
  cases l2 with
  | nil => exact Or.inl (List.cons.inj hlog).1
  | cons e l2 =>
    obtain ⟨rfl, rfl⟩ := List.cons.inj hlog
    exact Or.inr ⟨⟨l2, l1, rfl, fun ev hev => hno ev (List.mem_cons_of_mem _ hev)⟩, hno _ List.mem_cons_self⟩

theorem SafeLog.cons (hs : SafeLog log) (hfire : ∀ h t, ev = .fired h t → ¬ Dead log h) : SafeLog (ev :: log) := by
  intro l3 l2 l1 h t hlog
  cases l3 with
  | nil =>
    obtain ⟨rfl, rfl⟩ := List.cons.inj hlog
    by_contra hno
    exact hfire h t rfl ⟨l2, l1, rfl, fun ev hev hadd => hno ⟨ev, hev, hadd⟩⟩
  | cons e l3 =>
    obtain ⟨rfl, rfl⟩ := List.cons.inj hlog
    exact hs l3 l2 l1 h t rfl

/-! ## The lists -/

/-- a step that takes handlers off, at most, and keeps those that stay -/
theorem Queued.shrink (hq : Queued s lists) (hrep : s'.links.Rep lists')
    (hkeep : ∀ k y, y ∈ lists' k → y ∈ lists k ∧ s'.handler y = s.handler y ∧ ¬ Dead s'.log y)
    (hj : s'.jiffies = s.jiffies) (hstack : ∀ y ∈ s'.stack, y ∈ s.stack) : Queued s' lists' where
  rep := hrep
  slot k y hy := by
    obtain ⟨hin, hsame, -⟩ := hkeep k y hy
    rw [hsame]
    exact hq.slot k y hin
  due k y hy := by
    obtain ⟨hin, hsame, -⟩ := hkeep k y hy
    rw [hsame, hj]
    exact hq.due k y hin
  fields k y hy := by
    obtain ⟨hin, hsame, -⟩ := hkeep k y hy
    rw [hsame]
    exact hq.fields k y hin
  live k y hy := (hkeep k y hy).2.2
  stack y hy k hk := hq.stack y (hstack y hy) k (hkeep k y hk).1

/-- list_add of a handler that is on no list -/
theorem Queued.put (hq : Queued s lists) (hno : ∀ k, h ∉ lists k) (hlater : s.jiffies < x.jiffies)
    (hwrap : x.jiffies < 2 ^ 64) (hx : 1 ≤ x.expires ∧ x.times ≠ 0 ∧ x.function = true)
    (hlinks : s'.links = s.links.listAdd (.inr h) (.inl (listNr x.jiffies)))
    (hhandler : s'.handler = Function.update s.handler h x) (hj : s'.jiffies = s.jiffies) (hstack : s'.stack = s.stack)
    (hh : h ∉ s.stack) (hlive : ¬ Dead s'.log h) (hlog : ∀ y, ¬ Dead s.log y → y ≠ h → ¬ Dead s'.log y) :
    Queued s' (Function.update lists (listNr x.jiffies) (h :: lists (listNr x.jiffies))) := by
  have hmem : ∀ k y, y ∈ Function.update lists (listNr x.jiffies) (h :: lists (listNr x.jiffies)) k →
      (y = h ∧ k = listNr x.jiffies) ∨ (y ∈ lists k ∧ y ≠ h) := by
    intro k y hy
    by_cases hk : k = listNr x.jiffies
    · subst hk
      rw [Function.update_self] at hy
      obtain rfl | hy := List.mem_cons.1 hy
      · exact Or.inl ⟨rfl, rfl⟩
      · exact Or.inr ⟨hy, fun he => hno _ (he ▸ hy)⟩
    · rw [Function.update_of_ne hk] at hy
      exact Or.inr ⟨hy, fun he => hno _ (he ▸ hy)⟩
  have hself : s'.handler h = x := by rw [hhandler, Function.update_self]
  have hother : ∀ y, y ≠ h → s'.handler y = s.handler y := fun y hy => by rw [hhandler, Function.update_of_ne hy]
  refine ⟨?_, fun k y hy => ?_, fun k y hy => ?_, fun k y hy => ?_, fun k y hy => ?_, fun y hy k hk => ?_⟩
  · rw [hlinks]
    exact hq.rep.add hno _
  · obtain ⟨rfl, rfl⟩ | ⟨hin, hne⟩ := hmem k y hy
    · rw [hself]
    · rw [hother y hne]
      exact hq.slot k y hin
  · rw [hj]
    obtain ⟨rfl, rfl⟩ | ⟨hin, hne⟩ := hmem k y hy
    · rw [hself]
      exact ⟨hlater.le, hwrap⟩
    · rw [hother y hne]
      exact hq.due k y hin
  · obtain ⟨rfl, rfl⟩ | ⟨hin, hne⟩ := hmem k y hy
    · rw [hself]
      exact hx
    · rw [hother y hne]
      exact hq.fields k y hin
  · obtain ⟨rfl, rfl⟩ | ⟨hin, hne⟩ := hmem k y hy
    · exact hlive
    · exact hlog y (hq.live k y hin) hne
  · rw [hstack] at hy
    obtain ⟨rfl, rfl⟩ | ⟨hin, hne⟩ := hmem k y hk
    · exact hh hy
    · exact hq.stack y hy k hin

/-- a list that is taken apart at a place, without one element -/
theorem erase_split {l : List ℕ} (hl : l = vis ++ rest) (hn : l.Nodup) (h : ℕ) : l.erase h = vis.erase h ++ rest.erase h := by
  subst hl
  by_cases hv : h ∈ vis
  · have hr : h ∉ rest := fun hr => (List.nodup_append.1 hn).2.2 h hv h hr rfl
    rw [List.erase_append_left _ hv, List.erase_of_not_mem hr]
  · rw [List.erase_append_right _ hv, List.erase_of_not_mem hv]

theorem first_erase {k : ℕ} (hne : Links.first k rest ≠ (.inr h : Node)) :
    (Links.first k (rest.erase h) : Node) = Links.first k rest := by
  cases rest with
  | nil => rfl
  | cons y rest =>
    have hy : y ≠ h := fun he => hne (congrArg Sum.inr he)
    rw [List.erase_cons_tail (by simpa using hy)]
    rfl

/-! ## The steps -/

theorem doTimer_good (hg : Good s lists vis rest) (hstack : s.stack = []) :
    Good (doTimer s) lists [] (lists (listNr s.jiffies)) where
  queued := hg.queued.shrink hg.queued.rep (fun k y hy => ⟨hy, rfl, hg.queued.live k y hy⟩) rfl fun _ hy => hy
  place := ⟨rfl, hg.queued.rep.start _, rfl, fun _ hh => absurd hh List.not_mem_nil⟩
  calls h := absurd hstack h
  safe := hg.safe

/-- **A turn of do_timer**: no BUG_ON, and fewer steps are left. -/
theorem turn_good (hg : Good s lists vis rest) (hstack : s.stack = [])
    (hctl : (∃ pos tmp, s.ctl = .test pos tmp) ∨ ∃ tmp, s.ctl = .next tmp) :
    Ends (turn s) (fun _ => False) fun s' => ∃ vis' rest', Good s' lists vis' rest' ∧
    s'.ctl.left rest' < s.ctl.left rest := by
  have hq := hg.queued
  have hplace := hg.place
  obtain ⟨pos, tmp, hctl⟩ | ⟨tmp, hctl⟩ := hctl
  · simp only [At, hctl] at hplace
    obtain ⟨hsplit, hpos, htmp, hlater⟩ := hplace
    simp only [turn, hctl]
    cases hrest : rest with
    | nil =>
      subst hrest
      rw [if_pos (show pos = .inl (listNr s.jiffies) from hpos)]
      refine ⟨vis, [], ⟨⟨hq.rep, hq.slot, fun k y hy => ?_, hq.fields, hq.live, hq.stack⟩, rfl, fun _ => Or.inl rfl,
        hg.safe⟩, ?_⟩
      · have hlt : s.jiffies < (s.handler y).jiffies := by
          by_cases hk : k = listNr s.jiffies
          · subst hk
            rw [hsplit, List.append_nil] at hy
            exact hlater y hy
          · refine lt_of_le_of_ne (hq.due k y hy).1 fun he => hk ?_
            rw [hq.slot k y hy, he]
        exact ⟨(Nat.mod_le _ _).trans hlt, (hq.due k y hy).2⟩
      · simp [Ctl.left]
    | cons y rest' =>
      subst hrest
      obtain rfl : pos = .inr y := hpos
      have hy : y ∈ lists (listNr s.jiffies) := by
        rw [hsplit]
        exact List.mem_append_right _ List.mem_cons_self
      have hnodup := hq.rep.nodup (listNr s.jiffies)
      rw [hsplit] at hnodup
      have hwalk : tmp = Links.first (listNr s.jiffies) rest' := htmp.trans (hq.rep.walk hsplit)
      have hsplit' : lists (listNr s.jiffies) = (vis ++ [y]) ++ rest' := by rw [hsplit, List.append_assoc, List.singleton_append]
      rw [if_neg Sum.inr_ne_inl]
      dsimp only
      rw [if_neg (Nat.not_lt.2 (hq.due _ y hy).1)]
      by_cases hnow : s.jiffies = (s.handler y).jiffies
      · rw [if_pos hnow]
        refine ⟨vis ++ [y], rest', ⟨?_, ⟨hsplit', hwalk, ?_, ?_⟩, fun h => absurd hstack h, hg.safe.cons ?_⟩, by
          simp [Ctl.left]; omega⟩
        · refine hq.shrink hq.rep (fun k z hz => ⟨hz, rfl, fun hd => ?_⟩) rfl fun _ hz => hz
          obtain he | ⟨hd, -⟩ := hd.of_cons
          · exact absurd he (by simp)
          · exact hq.live k z hz hd
        · exact (List.nodup_cons.1 (List.nodup_append.1 hnodup).2.1).1
        · intro z hz hne
          obtain hz | hz := List.mem_append.1 hz
          · exact hlater z hz
          · exact absurd (List.mem_singleton.1 hz) hne
        · intro z t he
          obtain ⟨rfl, -⟩ := Event.fired.inj he
          exact hq.live _ _ hy
      · rw [if_neg hnow]
        refine ⟨vis ++ [y], rest', ⟨?_, ⟨hsplit', hwalk, ?_⟩, fun h => absurd hstack h, hg.safe⟩, by
          simp [Ctl.left]; omega⟩
        · exact hq.shrink hq.rep (fun k z hz => ⟨hz, rfl, hq.live k z hz⟩) rfl fun _ hz => hz
        · intro z hz
          obtain hz | hz := List.mem_append.1 hz
          · exact hlater z hz
          · rw [List.mem_singleton.1 hz]
            exact lt_of_le_of_ne (hq.due _ y hy).1 hnow
  · simp only [At, hctl] at hplace
    simp only [turn, hctl]
    refine ⟨vis, rest, ⟨?_, ⟨hplace.1, hplace.2.1, rfl, hplace.2.2⟩, fun h => absurd hstack h, hg.safe⟩, by
      simp [Ctl.left]⟩
    exact hq.shrink hq.rep (fun k z hz => ⟨hz, rfl, hq.live k z hz⟩) rfl fun _ hz => hz

theorem At.split (hplace : At s lists vis rest) (hidle : s.ctl ≠ .idle) : lists (listNr s.jiffies) = vis ++ rest := by
  unfold At at hplace
  cases hctl : s.ctl with
  | idle => exact absurd hctl hidle
  | test pos tmp => simp only [hctl] at hplace; exact hplace.1
  | firing r tmp => simp only [hctl] at hplace; exact hplace.1
  | next tmp => simp only [hctl] at hplace; exact hplace.1

theorem At.rest_nil (hplace : At s lists vis rest) (hidle : s.ctl = .idle) : rest = [] := by
  simpa only [At, hidle] using hplace

theorem At.cached_eq (hplace : At s lists vis rest) (hc : s.ctl.cached = some tmp) :
    tmp = Links.first (listNr s.jiffies) rest := by
  unfold At at hplace
  cases hctl : s.ctl with
  | idle => simp [hctl, Ctl.cached] at hc
  | test pos tmp => simp [hctl, Ctl.cached] at hc
  | firing r tmp' =>
    obtain rfl : tmp' = tmp := by simpa [hctl, Ctl.cached] using hc
    simp only [hctl] at hplace
    exact hplace.2.1
  | next tmp' =>
    obtain rfl : tmp' = tmp := by simpa [hctl, Ctl.cached] using hc
    simp only [hctl] at hplace
    exact hplace.2.1

/-- do_timer is not at the test of its loop -/
def Away (s : Sys) : Prop := ∀ pos tmp, s.ctl ≠ .test pos tmp

/-- the steps outside of do_timer come while the kernel or a function of a handler runs -/
theorem Good.away (hg : Good s lists vis rest) (ho : Outside s) : Away s := by
  intro pos tmp hctl
  obtain hidle | ⟨r, tmp', hfiring⟩ := ho.elim hg.calls id
  · exact Ctl.noConfusion (hctl.symm.trans hidle)
  · exact Ctl.noConfusion (hctl.symm.trans hfiring)

/-- the lists change, and do_timer stays where it is -/
theorem At.of (hplace : At s lists vis rest) (s' : Sys) (ho : Away s) (hsame : s'.ctl = s.ctl ∧ s'.jiffies = s.jiffies)
    {vis' rest' : List ℕ} (hidle : s.ctl = .idle → rest' = [])
    (hrest : s.ctl ≠ .idle → lists' (listNr s.jiffies) = vis' ++ rest' ∧
      (Links.first (listNr s.jiffies) rest' : Node) = Links.first (listNr s.jiffies) rest ∧ (∀ y ∈ rest', y ∈ rest) ∧
      ∀ y ∈ vis', y ∈ vis ∧ s'.handler y = s.handler y ∨ s.jiffies < (s'.handler y).jiffies) : At s' lists'
      vis' rest' := by
  obtain ⟨hctl', hj⟩ := hsame
  cases hctl : s.ctl with
  | idle =>
    simp only [At, hctl', hctl]
    exact hidle hctl
  | test pos tmp => exact absurd hctl (ho pos tmp)
  | firing r tmp =>
    obtain ⟨hsplit, hfirst, hsub, hvis⟩ := hrest (by simp [hctl])
    simp only [At, hctl', hctl, hj] at hplace ⊢
    refine ⟨hsplit, hplace.2.1.trans hfirst.symm, fun hr => hplace.2.2.1 (hsub r hr), fun y hy hne => ?_⟩
    obtain ⟨hin, hsame⟩ | hlater := hvis y hy
    · rw [hsame]
      exact hplace.2.2.2 y hin hne
    · exact hlater
  | next tmp =>
    obtain ⟨hsplit, hfirst, -, hvis⟩ := hrest (by simp [hctl])
    simp only [At, hctl', hctl, hj] at hplace ⊢
    refine ⟨hsplit, hplace.2.1.trans hfirst.symm, fun y hy => ?_⟩
    obtain ⟨hin, hsame⟩ | hlater := hvis y hy
    · rw [hsame]
      exact hplace.2.2 y hin
    · exact hlater

theorem del_good (hg : Good s lists vis rest) (ho : Outside s) (htame : s.ctl.cached ≠ some (.inr h)) :
    Good { delTimer s h with log := .deleted h :: s.log } (fun k => (lists k).erase h) (vis.erase h) (rest.erase h) := by
  have hq := hg.queued
  refine ⟨hq.shrink (hq.rep.del h) (fun k y hy => ?_) rfl fun _ hy => hy,
    hg.place.of { delTimer s h with log := .deleted h :: s.log } (hg.away ho) ⟨rfl, rfl⟩ (fun hidle => ?_) fun hrun => ?_,
    hg.calls, hg.safe.cons fun _ _ he => absurd he (by simp)⟩
  · have hin := List.mem_of_mem_erase hy
    refine ⟨hin, rfl, fun hd => ?_⟩
    obtain he | ⟨hd, -⟩ := hd.of_cons
    · obtain rfl := Event.deleted.inj he
      exact (hq.rep.nodup k).not_mem_erase hy
    · exact hq.live k y hin hd
  · rw [hg.place.rest_nil hidle]
    rfl
  · have hsplit := hg.place.split hrun
    have hne : Links.first (listNr s.jiffies) rest ≠ (.inr h : Node) := by
      intro he
      cases hctl : s.ctl with
      | idle => exact hrun hctl
      | test pos tmp => exact hg.away ho pos tmp hctl
      | firing r tmp =>
        have htmp : tmp = Links.first (listNr s.jiffies) rest := hg.place.cached_eq (by rw [hctl]; rfl)
        exact htame (by rw [hctl, Ctl.cached, htmp, he])
      | next tmp =>
        have htmp : tmp = Links.first (listNr s.jiffies) rest := hg.place.cached_eq (by rw [hctl]; rfl)
        exact htame (by rw [hctl, Ctl.cached, htmp, he])
    refine ⟨erase_split hsplit (hq.rep.nodup _) h, first_erase hne, fun y hy => List.mem_of_mem_erase hy, fun y hy => ?_⟩
    exact Or.inl ⟨List.mem_of_mem_erase hy, rfl⟩

/-- the handler is due at x.jiffies, and at the front of its list -/
def put (s : Sys) (h : ℕ) (x : Handler) : Sys :=
  { setHandler s h x with links := s.links.listAdd (.inr h) (.inl (listNr x.jiffies)) }

/-- add_timer of a handler that it puts on a list -/
theorem addTimer_put (hx : 1 ≤ (s.handler h).expires) (htimes : (s.handler h).times ≠ 0) (hf : (s.handler h).function = true)
    (hwrap : s.jiffies + (s.handler h).expires < 2 ^ 64) :
    addTimer s h = .ok (put s h { s.handler h with jiffies := (s.handler h).expires + s.jiffies }) := by
  have he : (s.handler h).expires ≠ 0 := Nat.one_le_iff_ne_zero.1 hx
  have hmod : ((s.handler h).expires + s.jiffies) % 2 ^ 64 = (s.handler h).expires + s.jiffies :=
    Nat.mod_eq_of_lt (by rwa [Nat.add_comm])
  rw [addTimer]
  dsimp only
  rw [if_neg fun hc => he hc.1, if_neg (by simp [hf]), if_neg htimes, if_neg he, hmod]
  rfl

/-- a handler on no list gets new fields -/
theorem Queued.reset (hq : Queued s lists) (hno : ∀ k, h ∉ lists k) : Queued (setHandler s h x) lists :=
  hq.shrink hq.rep (fun k y hy => ⟨hy, Function.update_of_ne (fun he : y = h => hno k (he ▸ hy)) _ _, hq.live k y hy⟩) rfl
    fun _ hy => hy

theorem Good.reset (hg : Good s lists vis rest) (ho : Away s) (hno : ∀ k, h ∉ lists k) :
    Good (setHandler s h x) lists vis rest := by
  refine ⟨hg.queued.reset hno, hg.place.of (setHandler s h x) ho ⟨rfl, rfl⟩ hg.place.rest_nil fun hrun => ?_,
    hg.calls, hg.safe⟩
  have hsplit := hg.place.split hrun
  refine ⟨hsplit, rfl, fun _ hy => hy, fun y hy => Or.inl ⟨hy, Function.update_of_ne (fun he : y = h => ?_) _ _⟩⟩
  refine hno (listNr s.jiffies) ?_
  rw [hsplit, ← he]
  exact List.mem_append_left _ hy

/-- what add_timer does with a handler that it puts on a list -/
theorem put_good (hg : Good s lists vis rest) (ho : Away s) (hno : ∀ k, h ∉ lists k) (hh : h ∉ s.stack)
    (hx : 1 ≤ (s.handler h).expires ∧ (s.handler h).times ≠ 0 ∧ (s.handler h).function = true)
    (hwrap : s.jiffies + (s.handler h).expires < 2 ^ 64) (log : List Event) (hsafe : SafeLog log) (hlive : ¬ Dead log h)
    (hlog : ∀ y, ¬ Dead s.log y → y ≠ h → ¬ Dead log y) :
    ∃ s1 lists' vis', addTimer s h = .ok s1 ∧ Good { s1 with log } lists' vis' rest ∧ s1.ctl = s.ctl ∧
    s1.jiffies = s.jiffies ∧
      s1.stack = s.stack ∧ s1.log = s.log := by
  have hlater : s.jiffies < (s.handler h).expires + s.jiffies := Nat.lt_add_of_pos_left hx.1
  obtain ⟨x, hxdef⟩ : ∃ x : Handler, x = { s.handler h with jiffies := (s.handler h).expires + s.jiffies } := ⟨_, rfl⟩
  have hxj : x.jiffies = (s.handler h).expires + s.jiffies := by rw [hxdef]
  have hother : ∀ y, y ≠ h → Function.update s.handler h x y = s.handler y := fun y hy => Function.update_of_ne hy _ _
  let k := listNr x.jiffies
  refine ⟨put s h x, Function.update lists k (h :: lists k), if listNr s.jiffies = k then h :: vis else vis,
    hxdef ▸ addTimer_put hx.1 hx.2.1 hx.2.2 hwrap, ⟨?_, ?_, hg.calls, hsafe⟩, rfl, rfl, rfl, rfl⟩
  · exact hg.queued.put hno (hxj ▸ hlater) (by rwa [hxj, Nat.add_comm]) (hxdef ▸ hx) rfl rfl rfl rfl hh hlive hlog
  · refine hg.place.of { put s h x with log } ho ⟨rfl, rfl⟩ hg.place.rest_nil fun hrun => ?_
    have hsplit := hg.place.split hrun
    have hkeep : ∀ y ∈ vis, y ≠ h := fun y hy he =>
      hno (listNr s.jiffies) (by rw [hsplit, ← he]; exact List.mem_append_left _ hy)
    by_cases hk : listNr s.jiffies = k
    · rw [if_pos hk]
      refine ⟨?_, rfl, fun _ hy => hy, fun y hy => ?_⟩
      · rw [hk, Function.update_self, ← hk, hsplit, List.cons_append]
      · obtain rfl | hy := List.mem_cons.1 hy
        · refine Or.inr ?_
          change s.jiffies < (Function.update s.handler y x y).jiffies
          rw [Function.update_self, hxj]
          exact hlater
        · exact Or.inl ⟨hy, hother y (hkeep y hy)⟩
    · rw [if_neg hk]
      refine ⟨?_, rfl, fun _ hy => hy, fun y hy => Or.inl ⟨hy, hother y (hkeep y hy)⟩⟩
      rw [Function.update_of_ne hk, hsplit]

theorem not_dead_added {t e : ℕ} {m : ℤ} : ¬ Dead (.added h t e m :: log) h := by
  intro hd
  obtain he | ⟨-, hno⟩ := hd.of_cons
  · exact absurd he (by simp)
  · exact hno ⟨t, e, m, rfl⟩

theorem add_good {e : ℕ} {m : ℤ} {function : Bool} (hg : Good s lists vis rest) (ho : Outside s)
    (htame : Tame s (.add h e m function)) :
    Ends (add s h e m function) (fun _ => False) fun s' => ∃ lists' vis', Good s' lists' vis' rest ∧ s'.ctl = s.ctl ∧
      s'.jiffies = s.jiffies := by
  obtain ⟨rfl, hbug, hempty, hh, hwrap⟩ := htame
  have hno := hg.queued.rep.listEmpty_iff.1 hempty
  have hself : (setHandler s h { s.handler h with expires := e, times := m, function := true }).handler h =
      { s.handler h with expires := e, times := m, function := true } := Function.update_self ..
  have hg1 := hg.reset (x := { s.handler h with expires := e, times := m, function := true }) (hg.away ho) hno
  rw [add]
  generalize hs1 : setHandler s h { s.handler h with expires := e, times := m, function := true } = s1 at hself hg1 ⊢
  have hctl : s1.ctl = s.ctl := hs1 ▸ rfl
  have hj : s1.jiffies = s.jiffies := hs1 ▸ rfl
  have hstack : s1.stack = s.stack := hs1 ▸ rfl
  have hlog : s1.log = s.log := hs1 ▸ rfl
  have ho1 : Outside s1 := by rwa [Outside, hctl, hstack]
  have haway : Away s1 := hg1.away ho1
  by_cases hm : m = 0
  · have hrun : addTimer s1 h = .ok s1 := by
      rw [addTimer, hself]
      simp [hm]
    simp only [hrun, bind, Except.bind, hm, or_true, if_true]
    exact ⟨lists, vis, hlog ▸ hg1, hctl, hj⟩
  by_cases he : e = 0
  · have hrun : addTimer s1 h = .ok { s1 with stack := h :: s1.stack } := by
      have hm1 : m ≠ -1 := fun hm1 => hbug ⟨he, hm1⟩
      rw [addTimer, hself]
      simp [he, hm, hm1]
    simp only [hrun, bind, Except.bind, he, true_or, if_true]
    refine ⟨lists, vis, ⟨⟨hg1.queued.rep, hg1.queued.slot, hg1.queued.due, hg1.queued.fields, hlog ▸ hg1.queued.live,
      fun y hy => ?_⟩, hg1.place, fun _ => ho1.elim hg1.calls id, hlog ▸ hg1.safe⟩, hctl, hj⟩
    obtain rfl | hy := List.mem_cons.1 hy
    · exact hno
    · exact hg1.queued.stack y hy
  · have hx : 1 ≤ (s1.handler h).expires ∧ (s1.handler h).times ≠ 0 ∧ (s1.handler h).function = true := by
      rw [hself]
      exact ⟨Nat.one_le_iff_ne_zero.2 he, hm, rfl⟩
    obtain ⟨s2, lists', vis', hrun, hg2, hctl2, hj2, -, -⟩ := put_good hg1 haway hno (hstack ▸ hh) hx (by rwa [hself, hj])
      (.added h s.jiffies e m :: s.log) (hg.safe.cons fun _ _ he => absurd he (by simp)) not_dead_added fun y hy hne hd => by
        obtain he | ⟨hd, -⟩ := hd.of_cons
        · exact absurd he (by simp)
        · exact hy (hlog ▸ hd)
    simp only [hrun, bind, Except.bind, if_neg (not_or.2 ⟨he, hm⟩)]
    exact ⟨lists', vis', hg2, hctl2.trans hctl, hj2.trans hj⟩

theorem ret_good {stack : List ℕ} (hg : Good s lists vis rest) (hstack : s.stack = h :: stack) :
    Good { s with links := s.links.init (.inr h), stack } lists vis rest := by
  have hno : ∀ k, h ∉ lists k := hg.queued.stack h (by rw [hstack]; exact List.mem_cons_self)
  have hlinks : s.links.init (.inr h) = s.links := Links.init_alone (hg.queued.rep.alone h hno)
  rw [hlinks]
  refine ⟨hg.queued.shrink hg.queued.rep (fun k y hy => ⟨hy, rfl, hg.queued.live k y hy⟩) rfl fun y hy => ?_, hg.place,
    fun _ => hg.calls (by simp [hstack]), hg.safe⟩
  rw [hstack]
  exact List.mem_cons_of_mem _ hy

/-- the handler that fired is off its list -/
theorem delTimer_good (hg : Good s lists vis rest) (hstack : s.stack = []) (hctl : s.ctl = .firing r tmp) :
    Good (delTimer { setHandler s r x with ctl := .next tmp } r) (fun k => (lists k).erase r) (vis.erase r) rest := by
  have hq := hg.queued
  have hplace := hg.place
  simp only [At, hctl] at hplace
  have hne : ∀ k y, y ∈ (lists k).erase r → y ≠ r := fun k y hy he => (hq.rep.nodup k).not_mem_erase (he ▸ hy)
  have hsame : ∀ y, y ≠ r → Function.update s.handler r x y = s.handler y := fun y hy => Function.update_of_ne hy _ _
  refine ⟨hq.shrink (hq.rep.del r) (fun k y hy => ?_) rfl fun _ hy => hy, ⟨?_, hplace.2.1, fun y hy => ?_⟩,
    fun h => absurd hstack h, hg.safe⟩
  · have hin := List.mem_of_mem_erase hy
    exact ⟨hin, hsame y (hne k y hy), hq.live k y hin⟩
  · have hsplit := erase_split hplace.1 (hq.rep.nodup _) r
    rwa [List.erase_of_not_mem hplace.2.2.1] at hsplit
  · have hyr : y ≠ r := by
      refine hne (listNr s.jiffies) y ?_
      rw [erase_split hplace.1 (hq.rep.nodup _) r]
      exact List.mem_append_left _ hy
    change s.jiffies < (Function.update s.handler r x y).jiffies
    rw [hsame y hyr]
    exact hplace.2.2.2 y (List.mem_of_mem_erase hy) hyr

/-- **The end of a turn in which a handler fired.** The handler is added again only if it was on its list until then. -/
theorem fire_good (hg : Good s lists vis rest) (hstack : s.stack = []) (hctl : s.ctl = .firing r tmp) (htame : Tame s .fin) :
    Ends (fire s r tmp) (fun _ => False) fun s' => ∃ lists' vis', Good s' lists' vis' rest ∧ s'.ctl = .next tmp := by
  obtain ⟨honce, hwrap⟩ := htame r tmp hctl
  obtain ⟨x, hxdef⟩ : ∃ x, x = if (s.handler r).times ≠ -1 then { s.handler r with times := (s.handler r).times - 1 }
    else s.handler r := ⟨_, rfl⟩
  have hg1 := delTimer_good (x := x) hg hstack hctl
  rw [fire]
  simp only [← hxdef]
  by_cases htimes : x.times = 0
  · rw [if_neg (not_not_intro htimes)]
    exact ⟨_, _, hg1, rfl⟩
  rw [if_pos htimes]
  have hne1 : (s.handler r).times ≠ 1 := by
    intro h1
    rw [h1, if_pos (by decide)] at hxdef
    exact htimes (by rw [hxdef]; rfl)
  have hon : ∃ k, r ∈ lists k := by
    by_contra hno
    exact hne1 (honce (hg.queued.rep.listEmpty_iff.2 fun k hk => hno ⟨k, hk⟩))
  obtain ⟨k, hk⟩ := hon
  obtain ⟨hexp, -, hfun⟩ := hg.queued.fields k r hk
  have hx : x.expires = (s.handler r).expires ∧ x.function = (s.handler r).function := by
    rw [hxdef]
    split_ifs <;> exact ⟨rfl, rfl⟩
  generalize hs1 : delTimer { setHandler s r x with ctl := .next tmp } r = s1 at hg1 ⊢
  have hself : s1.handler r = x := by
    rw [← hs1]
    exact Function.update_self ..
  have hj : s1.jiffies = s.jiffies := hs1 ▸ rfl
  have hctl1 : s1.ctl = .next tmp := hs1 ▸ rfl
  have hstack1 : s1.stack = [] := hs1 ▸ hstack
  have hlog : s1.log = s.log := hs1 ▸ rfl
  have hoff : ∀ k, r ∉ (lists k).erase r := fun k => (hg.queued.rep.nodup k).not_mem_erase
  obtain ⟨s2, lists', vis', hrun, hg2, hctl2, -, -, hlog2⟩ :=
    put_good hg1 (fun pos tmp' h => Ctl.noConfusion (h.symm.trans hctl1))
    hoff (by simp [hstack1]) (by rw [hself, hx.1, hx.2]; exact ⟨hexp, htimes, hfun⟩)
    (by rw [hself, hj, hx.1]; exact hwrap hne1) s1.log hg1.safe (by rw [hlog]; exact hg.queued.live k r hk) fun y hy _ => hy
  have heq : ({ s2 with log := s1.log } : Sys) = s2 := by rw [← hlog2]
  rw [hrun]
  exact ⟨lists', vis', heq ▸ hg2, hctl2.trans hctl1⟩

/-- the steps that are do_timer's own -/
def own : Op → Bool
  | .turn => true
  | .fin => true
  | _ => false

/-- **One step.** A tame step comes to no BUG_ON. If it is do_timer's own, fewer are left, and if not, not more. -/
theorem step_good {o : Op} (hg : Good s lists vis rest) (hl : legal s o) (ht : Tame s o) :
    Ends (step s o) (fun _ => False) fun s' => ∃ lists' vis' rest', Good s' lists' vis' rest' ∧
      (own o = true → s'.ctl.left rest' < s.ctl.left rest) ∧
      (own o = false → o ≠ .tick → s'.ctl.left rest' ≤ s.ctl.left rest) := by
  cases o with
  | tick => exact ⟨_, _, _, doTimer_good hg hl.1, fun h => absurd h (by simp [own]), fun _ h => absurd rfl h⟩
  | turn =>
    refine (turn_good hg hl.1 hl.2).imp (fun _ h => h) fun s' hs' => ?_
    obtain ⟨vis', rest', hg', hlt⟩ := hs'
    exact ⟨lists, vis', rest', hg', fun _ => hlt, fun h => absurd h (by simp [own])⟩
  | add h e m function =>
    refine (add_good hg hl ht).imp (fun _ h => h) fun s' hs' => ?_
    obtain ⟨lists', vis', hg', hctl, -⟩ := hs'
    exact ⟨lists', vis', rest, hg', fun h => absurd h (by simp [own]), fun _ _ => by rw [hctl]⟩
  | del h =>
    refine ⟨_, _, _, del_good hg hl ht, fun h => absurd h (by simp [own]), fun _ _ => ?_⟩
    have hlen : (rest.erase h).length ≤ rest.length := List.length_erase_le
    change s.ctl.left _ ≤ _
    cases s.ctl <;> simp only [Ctl.left] <;> omega
  | ret =>
    obtain ⟨h, stack, hstack⟩ := List.exists_cons_of_ne_nil hl
    simp only [step, hstack]
    exact ⟨lists, vis, rest, ret_good hg hstack, fun h => absurd h (by simp [own]), fun _ _ => le_rfl⟩
  | fin =>
    obtain ⟨hstack, r, tmp, hctl⟩ := hl
    simp only [step, hctl]
    refine (fire_good hg hstack hctl ht).imp (fun _ h => h) fun s' hs' => ?_
    obtain ⟨lists', vis', hg', hctl'⟩ := hs'
    exact ⟨lists', vis', rest, hg', fun _ => by simp [hctl', Ctl.left], fun h => absurd h (by simp [own])⟩

theorem boot_good (hb : Boot s) : Good s (fun _ => []) [] [] := by
  obtain ⟨hlinks, -, hctl, hstack, hlog⟩ := hb
  have hnil : ∀ {h : ℕ} {P : Prop}, h ∈ ([] : List ℕ) → P := fun h => absurd h List.not_mem_nil
  refine ⟨⟨hlinks ▸ Links.Rep.empty, fun _ _ => hnil, fun _ _ => hnil, fun _ _ => hnil, fun _ _ => hnil,
    fun _ _ _ => List.not_mem_nil⟩, ?_, fun h => absurd hstack h, ?_⟩
  · simp only [At, hctl]
  · intro l3 l2 l1 h t he
    rw [hlog] at he
    exact absurd he.symm (by simp)

theorem good_reachable (h : (system.only Tame).Reach s) : ∃ lists vis rest, Good s lists vis rest := by
  refine h.inv (P := fun s => ∃ lists vis rest, Good s lists vis rest) (fun s hb => ⟨_, _, _, boot_good hb⟩)
    fun s o s' hs hst => ?_
  obtain ⟨lists, vis, rest, hg⟩ := hs
  obtain ⟨lists', vis', rest', hg', -⟩ := (step_good hg hst.2.1 hst.1).value hst.2.2
  exact ⟨lists', vis', rest', hg'⟩

/-- what the run does up to the next tick -/
def noTick (o : Op) : Prop := o ≠ .tick

/-- **Timers in tame runs.** The memory holds well formed lists, a deleted handler does not fire before it is added again, no
step comes to a BUG_ON or out of the list, and do_timer ends: the steps that it can still do have a bound, whatever the
functions of the handlers do, and there is one until it has ended. -/
theorem timers_safe (h : (system.only Tame).Reach s) :
    (∃ lists, s.links.Rep lists) ∧ SafeLog s.log ∧
    (∀ o, legal s o → Tame s o → ∃ s', step s o = .ok s') ∧
    (∃ n, ∀ os s', ((system.only Tame).only fun _ o => noTick o).Run s os s' → (os.filter own).length ≤ n) ∧
    (¬ Outside s → legal s .turn) := by
  obtain ⟨lists, vis, rest, hg⟩ := good_reachable h
  refine ⟨⟨lists, hg.queued.rep⟩, hg.safe, fun o hl ht => ?_, ⟨s.ctl.left rest, fun os s' hr => ?_⟩, fun ho => ?_⟩
  · have hends := step_good hg hl ht
    cases hrun : step s o with
    | error e => exact (hends.error hrun).elim
    | ok s' => exact ⟨s', rfl⟩
  · have hrank := hr.ranked own (fun s n => ∃ lists vis rest, Good s lists vis rest ∧ s.ctl.left rest ≤ n) ?_ ?_
      (n := s.ctl.left rest) ⟨lists, vis, rest, hg, le_rfl⟩
    · obtain ⟨m, -, hm⟩ := hrank
      exact (Nat.le_add_left _ _).trans hm
    · rintro s o s' n hst ho ⟨lists, vis, rest, hg, hn⟩
      obtain ⟨lists', vis', rest', hg', -, hle⟩ := (step_good hg hst.2.2.1 hst.2.1).value hst.2.2.2
      exact ⟨lists', vis', rest', hg', (hle ho hst.1).trans hn⟩
    · rintro s o s' n hst ho ⟨lists, vis, rest, hg, hn⟩
      obtain ⟨lists', vis', rest', hg', hlt, -⟩ := (step_good hg hst.2.2.1 hst.2.1).value hst.2.2.2
      exact ⟨s'.ctl.left rest', (hlt ho).trans_le hn, lists', vis', rest', hg', le_rfl⟩
  · have hstack : s.stack = [] := by
      by_contra hne
      exact ho (Or.inl hne)
    refine ⟨hstack, ?_⟩
    cases hctl : s.ctl with
    | idle => exact absurd (Or.inr (Or.inl hctl)) ho
    | test pos tmp => exact Or.inl ⟨pos, tmp, rfl⟩
    | firing r tmp => exact absurd (Or.inr (Or.inr ⟨r, tmp, hctl⟩)) ho
    | next tmp => exact Or.inr ⟨tmp, rfl⟩

/-! ## Runs on fixed handlers -/

instance (c : Ctl) : Decidable (∃ r tmp, c = .firing r tmp) :=
  match c with
  | .firing r tmp => isTrue ⟨r, tmp, rfl⟩
  | .idle => isFalse (by simp)
  | .test .. => isFalse (by simp)
  | .next _ => isFalse (by simp)

instance (c : Ctl) : Decidable ((∃ pos tmp, c = .test pos tmp) ∨ ∃ tmp, c = .next tmp) :=
  match c with
  | .test pos tmp => isTrue (Or.inl ⟨pos, tmp, rfl⟩)
  | .next tmp => isTrue (Or.inr ⟨tmp, rfl⟩)
  | .idle => isFalse (by simp)
  | .firing .. => isFalse (by simp)

instance (s : Sys) : Decidable (Outside s) := inferInstanceAs (Decidable (_ ∨ _ ∨ _))

instance (s : Sys) (o : Op) : Decidable (legal s o) :=
  match o with
  | .tick => inferInstanceAs (Decidable (_ ∧ _))
  | .turn => inferInstanceAs (Decidable (_ ∧ _))
  | .add .. => inferInstanceAs (Decidable (Outside s))
  | .del _ => inferInstanceAs (Decidable (Outside s))
  | .ret => inferInstanceAs (Decidable (_ ≠ _))
  | .fin => inferInstanceAs (Decidable (_ ∧ _))

/-- a legal step without a BUG_ON -/
def run (s : Sys) (o : Op) : Option Sys := if legal s o then (step s o).toOption else none

theorem run_step {o : Op} (h : run s o = some s') : system.step s o s' := by
  unfold run at h
  split_ifs at h with hl
  cases hs : step s o with
  | error e => simp [hs, Except.toOption] at h
  | ok u =>
    obtain rfl : u = s' := by simpa [hs, Except.toOption] using h
    exact ⟨hl, hs⟩

def booted : Sys := ⟨Links.empty, fun _ => ⟨0, 0, 0, false⟩, 0, .idle, [], []⟩

theorem booted_reach : system.Reach booted := .start ⟨rfl, rfl, rfl, rfl, rfl⟩

/-- handlers 1 and 2 are due at tick 1, and the function of 2 deletes handler 1, which do_timer has as the next one -/
def deleteNext : List Op :=
  [.add 1 1 1 true, .add 2 1 1 true, .tick, .turn, .tick, .turn, .del 1, .fin, .turn, .turn]

/-- handler 1 is due at tick 61 -/
def deleteLater : List Op :=
  [.add 1 61 1 true, .add 2 1 1 true, .tick, .turn, .tick, .turn, .del 1, .fin, .turn]

/-- **A deleted handler fires, and do_timer goes round for ever.** -/
theorem delete_next :
    (∃ s, system.Reach s ∧ ¬ SafeLog s.log) ∧
    ∃ s, system.Reach s ∧ s.ctl ≠ .idle ∧ ∀ n, system.Run s (List.replicate (2 * n) .turn) s := by
  constructor
  · have hrun : (deleteNext.foldlM run booted).map Sys.log =
        some [.fired 1 1, .deleted 1, .fired 2 1, .added 2 0 1 1, .added 1 0 1 1] := by decide +kernel
    obtain ⟨s, hs, hlog⟩ := Option.map_eq_some_iff.1 hrun
    refine ⟨s, booted_reach.fold (fun _ _ _ => run_step) hs, fun hsafe => ?_⟩
    rw [hlog] at hsafe
    obtain ⟨ev, hev, -⟩ := hsafe [] [] _ 1 1 rfl
    exact absurd hev List.not_mem_nil
  · have hrun : (deleteLater.foldlM run booted).map
        (fun s => (s.ctl, s.stack, s.jiffies, s.links.next (.inr 1), (s.handler 1).jiffies)) =
        some (.test (.inr 1) (.inr 1), [], 1, .inr 1, 61) := by decide +kernel
    obtain ⟨s, hs, hfields⟩ := Option.map_eq_some_iff.1 hrun
    simp only [Prod.mk.injEq] at hfields
    obtain ⟨hctl, hstack, hj, hnext, hdue⟩ := hfields
    refine ⟨s, booted_reach.fold (fun _ _ _ => run_step) hs, by simp [hctl], fun n => ?_⟩
    have hfirst : system.step s .turn { s with ctl := .next (.inr 1) } := by
      refine ⟨⟨hstack, Or.inl ⟨_, _, hctl⟩⟩, ?_⟩
      simp [step, turn, hctl, hj, hdue]
    have hsecond : system.step { s with ctl := .next (.inr 1) } .turn s := by
      refine ⟨⟨hstack, Or.inr ⟨_, rfl⟩⟩, ?_⟩
      simp only [step, turn, hnext, ← hctl]
    induction n with
    | zero => exact .nil s
    | succ n ih => exact .cons hfirst (.cons hsecond ih)

instance (s : Sys) (h : Node) : Decidable (s.links.listEmpty h) := inferInstanceAs (Decidable (_ = _))

instance (c : Ctl) (P : ℕ → Node → Prop) [∀ r tmp, Decidable (P r tmp)] :
    Decidable (∀ r tmp, c = .firing r tmp → P r tmp) :=
  match c with
  | .firing r tmp => decidable_of_iff (P r tmp) ⟨fun h _ _ he => by cases he; exact h, fun h => h r tmp rfl⟩
  | .idle => isTrue fun _ _ he => Ctl.noConfusion he
  | .test .. => isTrue fun _ _ he => Ctl.noConfusion he
  | .next _ => isTrue fun _ _ he => Ctl.noConfusion he

instance (s : Sys) (o : Op) : Decidable (Tame s o) :=
  match o with
  | .add .. => inferInstanceAs (Decidable (_ ∧ _ ∧ _ ∧ _ ∧ _))
  | .del _ => inferInstanceAs (Decidable (_ ≠ _))
  | .fin => inferInstanceAs (Decidable (∀ r tmp, s.ctl = .firing r tmp → _ ∧ _))
  | .tick => isTrue trivial
  | .turn => isTrue trivial
  | .ret => isTrue trivial

/-- handler 1 fires at tick 1, and its function adds handler 3 and deletes handler 4 -/
def addAndDelete : List Op :=
  [.add 1 1 1 true, .add 4 3 1 true, .tick, .turn, .tick, .turn, .add 3 2 2 true, .del 4, .fin, .turn, .turn]

theorem timers_safe_run : ∃ s : Sys, s.ctl = .idle ∧ SafeLog s.log ∧ (∃ lists, s.links.Rep lists) ∧
    s.log = [.deleted 4, .added 3 1 2 2, .fired 1 1, .added 4 0 3 1, .added 1 0 1 1] := by
  have hrun : (addAndDelete.foldlM (fun s o => if Tame s o then run s o else none) booted).map (fun s => (s.ctl, s.log)) =
      some (.idle, [.deleted 4, .added 3 1 2 2, .fired 1 1, .added 4 0 3 1, .added 1 0 1 1]) := by decide +kernel
  obtain ⟨s, hs, hfields⟩ := Option.map_eq_some_iff.1 hrun
  obtain ⟨hctl, hlog⟩ := Prod.mk.inj hfields
  have hreach : (system.only Tame).Reach s :=
    .fold_only (M := system) (fun _ _ _ => run_step) (.start ⟨rfl, rfl, rfl, rfl, rfl⟩) hs
  obtain ⟨hlists, hsafe, -⟩ := timers_safe hreach
  exact ⟨s, hctl, hsafe, hlists, hlog⟩

end SinsOs.Timer
