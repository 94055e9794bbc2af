/-
The queue of key events (drivers/keyboard.c): the handler fills nodes, and keyboard_read empties them.

There are NR_EVENTS nodes, each on one of two lists. wait_event leaves its loop with interrupts off, and keyboard_read gives the
node back before it copies it. Between the test and the copy there is no interrupt and no other task; the model has the steps in
between, and what may happen there (`legal`). Everywhere else the handler and the scheduler come in as they like.

- `step_ok`: what every step keeps.
- `kbd_fifo`: what was returned, what is being copied and what is on the list are the accepted presses, in order.
-/
import SinsOs.Drivers.Keyboard
import SinsOs.Kernel.WaitQueue

namespace SinsOs.KeyEvents

open SinsOs.Core SinsOs.Sched
open Keyboard (Byte Keyval Modifiers translate)

/-! ## Model -/

def nrEvents : ℕ := 10

/-- wait_kbd -/
def waitKbd : ℕ := 0

/-- where a task is in keyboard_read -/
inductive Pc
  | out
  -- before a turn of wait_event
  | looking
  -- in wait
  | asleep
  -- the node is on free_events, and memcpy comes next
  | moved (node : ℕ)
deriving DecidableEq, Repr

/-- interrupts are off where the task goes on -/
def Pc.masked : Pc → Bool
  | .asleep | .moved _ => true
  | .out | .looking => false

/-- the press of a normal key, whether it got a node, and the accepted presses that were not returned -/
structure Press where
  kv : Keyval
  accepted : Bool
  unread : ℕ
deriving DecidableEq, Repr

/-- `presses` and `returned` are what has happened so far; a node is its number -/
structure Sys where
  sched : Sched.Sys
  mods : Modifiers
  kv : ℕ → Keyval
  events : List ℕ
  free : List ℕ
  pc : ℕ → Pc
  presses : List Press
  returned : List (ℕ × Keyval)

def Sys.at (s : Sys) : Pc := s.pc s.sched.current

def Sys.accepted (s : Sys) : List Keyval := (s.presses.filter Press.accepted).map Press.kv

def Sys.unread (s : Sys) : ℕ := s.accepted.length - s.returned.length

def Sys.goto (s : Sys) (p : Pc) : Sys := { s with pc := Function.update s.pc s.sched.current p }

/-- keyboard_handler; `none` is its BUG_ON -/
def keyboardHandler (s : Sys) (code : Byte) : Option Sys :=
  let r := translate s.mods code
  let s := { s with mods := r.1 }
  match r.2 with
  | none => some s
  | some kv =>
    match s.free with
    | [] => if s.events = [] then none else some { s with presses := s.presses ++ [⟨kv, false, s.unread⟩] }
    | event :: free =>
      some { s with
        sched := wakeUp s.sched waitKbd
        kv := Function.update s.kv event kv
        events := s.events ++ [event]
        free := free
        presses := s.presses ++ [⟨kv, true, s.unread⟩] }

/-- a turn of wait_event, and when it is the last one, the node is moved -/
def look (s : Sys) (w : ℕ) : Option Sys :=
  match s.events with
  | [] => (sleep s.sched waitKbd w).map fun sched => { s.goto .asleep with sched }
  | event :: events => some { s.goto (.moved event) with events := events, free := s.free ++ [event] }

/-- memcpy, and the return of keyboard_read -/
def copyOut (s : Sys) (event : ℕ) : Sys := { s.goto .out with returned := s.returned ++ [(s.sched.current, s.kv event)] }

inductive Op
  | intr (code : Byte)
  | call
  | look (waitExit : ℕ)
  -- wait returns
  | woken
  | copyOut (event : ℕ)
  -- a step of the scheduler for other code
  | other (o : Sched.Op)
deriving DecidableEq, Repr

/-- the handler and other code run where interrupts are on; idle reads no keys -/
def legal (s : Sys) : Op → Prop
  | .intr _ => s.at.masked = false
  | .call => s.sched.current ≠ 0 ∧ s.at = .out
  | .look _ => (s.sched.task s.sched.current).window = false ∧ s.at = .looking
  | .woken => s.at = .asleep
  | .copyOut event => s.at = .moved event
  | .other o => Sched.legal s.sched o ∧ ¬ o.Uses waitKbd ∧ s.at.masked = false

def step (s : Sys) : Op → Option Sys
  | .intr code => keyboardHandler s code
  | .call => some (s.goto .looking)
  | .look w => look s w
  | .woken => some (s.goto .looking)
  | .copyOut event => some (copyOut s event)
  | .other o => (Sched.step s.sched o).map fun sched => { s with sched }

/-- keyboard_setup; list_add puts a node in front -/
def setup : Sys where
  sched := Sched.boot
  mods := Keyboard.start
  kv := fun _ => Keyboard.noKey
  events := []
  free := (List.range nrEvents).foldl (fun free event => event :: free) []
  pc := fun _ => .out
  presses := []
  returned := []

def system : Lts Sys Op where
  start := fun s => s = setup
  step := fun s o s' => legal s o ∧ step s o = some s'

/-! ## The invariant -/

/-- what a task has taken and not copied yet -/
def Sys.pending (s : Sys) : List Keyval :=
  match s.at with
  | .moved event => [s.kv event]
  | .out | .looking | .asleep => []

/-- a press is dropped when there are NR_EVENTS unread ones, and only then -/
def Press.Fair (p : Press) : Prop := if p.accepted then p.unread < nrEvents else p.unread = nrEvents

structure KbdOk (s : Sys) : Prop where
  nodes : (s.free ++ s.events).Perm (List.range nrEvents)
  moved : ∀ t event, s.pc t = .moved event → t = s.sched.current
  order : s.accepted = s.returned.map Prod.snd ++ s.pending ++ s.events.map s.kv
  presses : ∀ p ∈ s.presses, p.Fair

variable {s s' : Sys} {o : Op} {code : Byte} {event w : ℕ} {kv : Keyval}

theorem KbdOk.length (h : KbdOk s) : s.free.length + s.events.length = nrEvents := by
  rw [← List.length_append, h.nodes.length_eq, List.length_range]

theorem KbdOk.nodup (h : KbdOk s) : (s.free ++ s.events).Nodup := h.nodes.nodup_iff.2 List.nodup_range

/-- where interrupts are on, no task has taken a node -/
theorem KbdOk.none_moved (h : KbdOk s) (hm : s.at.masked = false) (t event : ℕ) : s.pc t ≠ .moved event := by
  intro ht
  have hcur := h.moved t event ht
  rw [Sys.at, ← hcur, ht] at hm
  cases hm

theorem pending_nil (hm : s.at.masked = false) : s.pending = [] := by
  unfold Sys.pending
  cases hat : s.at with
  | moved event =>
    rw [hat] at hm
    cases hm
  | out => rfl
  | looking => rfl
  | asleep => rfl

theorem KbdOk.unread (h : KbdOk s) (hm : s.at.masked = false) : s.unread = s.events.length := by
  have hlen := congrArg List.length h.order
  rw [pending_nil hm, List.append_nil, List.length_append, List.length_map, List.length_map] at hlen
  rw [Sys.unread]
  omega

theorem setup_ok : KbdOk setup := by
  refine ⟨?_, fun t event ht => Pc.noConfusion ht, rfl, fun p hp => absurd hp List.not_mem_nil⟩
  decide

/-! ## The handler -/

theorem wakeUp_current (s : Sched.Sys) (q : ℕ) : (wakeUp s q).current = s.current := by
  rw [wakeUp]
  split <;> rfl

theorem accepted_push (s : Sys) (p : Press) : ({ s with presses := s.presses ++ [p] } : Sys).accepted =
    s.accepted ++ if p.accepted then [p.kv] else [] := by
  rw [Sys.accepted, List.filter_append, List.map_append, ← Sys.accepted]
  cases hp : p.accepted <;> simp [hp]

/-- the press finds no free node -/
theorem drop_ok (h : KbdOk s) (hm : s.at.masked = false) (hfree : s.free = []) (kv : Keyval) :
    KbdOk { s with presses := s.presses ++ [⟨kv, false, s.unread⟩] } := by
  refine ⟨h.nodes, h.moved, ?_, fun p hp => ?_⟩
  · rw [accepted_push]
    exact (List.append_nil _).trans h.order
  · rcases List.mem_append.1 hp with hp | hp
    · exact h.presses p hp
    · obtain rfl := List.mem_singleton.1 hp
      have hlen := h.length
      rw [hfree, List.length_nil, Nat.zero_add] at hlen
      exact (h.unread hm).trans hlen

/-- the press fills the first free node -/
theorem fill_ok (h : KbdOk s) (hm : s.at.masked = false) {free : List ℕ} (hfree : s.free = event :: free) (kv : Keyval) :
    KbdOk { s with
      sched := wakeUp s.sched waitKbd
      kv := Function.update s.kv event kv
      events := s.events ++ [event]
      free := free
      presses := s.presses ++ [⟨kv, true, s.unread⟩] } := by
  have hnodup := h.nodup
  rw [hfree, List.cons_append, List.nodup_cons] at hnodup
  have hout : event ∉ s.events := fun hin => hnodup.1 (List.mem_append_right _ hin)
  have hkeep : s.events.map (Function.update s.kv event kv) = s.events.map s.kv :=
    List.map_congr_left fun n hn => Function.update_of_ne (ne_of_mem_of_not_mem hn hout) _ _
  refine ⟨?_, fun t n ht => absurd ht (h.none_moved hm t n), ?_, fun p hp => ?_⟩
  · have hnodes := h.nodes
    rw [hfree] at hnodes
    refine List.Perm.trans ?_ hnodes
    rw [← List.append_assoc]
    exact List.perm_append_singleton event _
  · have hsame : (wakeUp s.sched waitKbd).current = s.sched.current := wakeUp_current _ _
    rw [pending_nil (by rw [Sys.at, hsame]; exact hm), List.append_nil]
    refine (accepted_push s _).trans ?_
    rw [h.order, pending_nil hm]
    simp [hkeep]
  · rcases List.mem_append.1 hp with hp | hp
    · exact h.presses p hp
    · obtain rfl := List.mem_singleton.1 hp
      have hlen := h.length
      rw [hfree, List.length_cons] at hlen
      have hunread := h.unread hm
      change s.unread < nrEvents
      omega

theorem setMods_ok (h : KbdOk s) (m : Modifiers) : KbdOk { s with mods := m } := ⟨h.nodes, h.moved, h.order, h.presses⟩

/-- **An interrupt** where interrupts are on ends, and keeps the invariant. -/
theorem handler_ok (h : KbdOk s) (hm : s.at.masked = false) (code : Byte) :
    ∃ s', keyboardHandler s code = some s' ∧ KbdOk s' := by
  have hmods := setMods_ok h (translate s.mods code).1
  unfold keyboardHandler
  dsimp only
  split
  case h_1 => exact ⟨_, rfl, hmods⟩
  case h_2 kv _ =>
    split
    case h_1 hfree =>
      have hlen := h.length
      have hevents : s.events ≠ [] := by
        intro he
        rw [hfree, he] at hlen
        cases hlen
      exact ⟨_, if_neg hevents, drop_ok hmods hm hfree kv⟩
    case h_2 event free hfree => exact ⟨_, rfl, fill_ok hmods hm hfree kv⟩

/-! ## The readers -/

theorem goto_at (s : Sys) (p : Pc) : (s.goto p).at = p := Function.update_self ..

/-- a step to a place where nothing is taken, from another such place -/
theorem goto_ok (h : KbdOk s) (hnone : ∀ t event, s.pc t ≠ .moved event) {p : Pc} (hp : ∀ event, p ≠ .moved event)
    (sched : Sched.Sys) : KbdOk { s.goto p with sched } := by
  have hpc : ∀ t event, (s.goto p).pc t ≠ .moved event := by
    intro t event
    by_cases ht : t = s.sched.current
    · rw [ht]
      exact fun he => hp event ((goto_at s p).symm.trans he)
    · rw [Sys.goto]
      dsimp only
      rw [Function.update_of_ne ht]
      exact hnone t event
  have hpend : ∀ u : Sys, (∀ t event, u.pc t ≠ .moved event) → u.pending = [] := by
    intro u hu
    unfold Sys.pending
    cases hat : u.at with
    | moved event => exact absurd hat (hu _ event)
    | out => rfl
    | looking => rfl
    | asleep => rfl
  refine ⟨h.nodes, fun t event ht => absurd ht (hpc t event), ?_, h.presses⟩
  rw [hpend { s.goto p with sched } hpc]
  have horder := h.order
  rwa [hpend s hnone] at horder

/-- the first node is moved to the free ones -/
theorem take_ok (h : KbdOk s) (hm : s.at.masked = false) {events : List ℕ} (hevents : s.events = event :: events) :
    KbdOk { s.goto (.moved event) with events := events, free := s.free ++ [event] } := by
  refine ⟨?_, fun t n ht => ?_, ?_, h.presses⟩
  · have hnodes := h.nodes
    rw [hevents] at hnodes
    refine List.Perm.trans (List.Perm.of_eq ?_) hnodes
    simp
  · by_contra hne
    have hsame : (s.goto (.moved event)).pc t = s.pc t := Function.update_of_ne hne _ _
    exact h.none_moved hm t n (hsame ▸ ht)
  · have hpend : ({ s.goto (.moved event) with events := events, free := s.free ++ [event] } : Sys).pending =
        [s.kv event] := by
      have hat : (s.goto (.moved event)).at = .moved event := goto_at s _
      unfold Sys.pending
      change (match (s.goto (.moved event)).at with
        | .moved event => [s.kv event]
        | .out | .looking | .asleep => []) = [s.kv event]
      rw [hat]
    have horder := h.order
    rw [pending_nil hm, hevents] at horder
    rw [hpend]
    refine Eq.trans horder ?_
    simp [Sys.goto]

theorem copyOut_ok (h : KbdOk s) (hat : s.at = .moved event) : KbdOk (copyOut s event) := by
  have hpc : ∀ t n, (copyOut s event).pc t ≠ .moved n := by
    intro t n ht
    by_cases hcur : t = s.sched.current
    · have hout : (copyOut s event).pc s.sched.current = .out := Function.update_self ..
      rw [hcur, hout] at ht
      cases ht
    · have hsame : (copyOut s event).pc t = s.pc t := Function.update_of_ne hcur _ _
      exact hcur (h.moved t n (hsame ▸ ht))
  refine ⟨h.nodes, fun t n ht => absurd ht (hpc t n), ?_, h.presses⟩
  have hpend : (copyOut s event).pending = [] := pending_nil (by
    have hout : (copyOut s event).at = .out := Function.update_self ..
    rw [hout]
    rfl)
  have horder := h.order
  rw [Sys.pending, hat] at horder
  rw [hpend]
  refine Eq.trans horder ?_
  simp [copyOut, Sys.goto]

theorem look_ok (h : KbdOk s) (hat : s.at = .looking) (hs : look s w = some s') : KbdOk s' := by
  have hm : s.at.masked = false := by rw [hat]; rfl
  rw [look] at hs
  cases hevents : s.events with
  | nil =>
    rw [hevents] at hs
    obtain ⟨sched, -, rfl⟩ := Option.map_eq_some_iff.1 hs
    exact goto_ok h (h.none_moved hm) (fun _ => Pc.noConfusion) sched
  | cons event events =>
    rw [hevents] at hs
    obtain rfl := Option.some.inj hs
    exact take_ok h hm hevents

/-- the scheduler and other code -/
theorem other_ok (h : KbdOk s) (hm : s.at.masked = false) (sched : Sched.Sys) : KbdOk { s with sched } := by
  have hnone := h.none_moved hm
  have hself : s.goto (s.pc s.sched.current) = s := by
    rw [Sys.goto, Function.update_eq_self]
  have hgoto := goto_ok h hnone (p := s.at) (fun event => hnone _ event) sched
  rwa [Sys.at, hself] at hgoto

/-- **Every step keeps the invariant.** -/
theorem step_ok (h : KbdOk s) (hl : legal s o) (hs : step s o = some s') : KbdOk s' := by
  cases o with
  | intr code =>
    obtain ⟨s1, hs1, hok⟩ := handler_ok h hl code
    rw [step, hs1] at hs
    exact Option.some.inj hs ▸ hok
  | call =>
    have hm : s.at.masked = false := by rw [hl.2]; rfl
    exact Option.some.inj hs ▸ goto_ok h (h.none_moved hm) (fun _ => Pc.noConfusion) s.sched
  | look w => exact look_ok h hl.2 hs
  | woken =>
    -- the task that goes on here has taken nothing, and no other one has
    have hnone : ∀ t event, s.pc t ≠ .moved event := by
      intro t event ht
      have hcur := h.moved t event ht
      rw [hcur] at ht
      exact Pc.noConfusion (hl.symm.trans ht)
    exact Option.some.inj hs ▸ goto_ok h hnone (fun _ => Pc.noConfusion) s.sched
  | copyOut event => exact Option.some.inj hs ▸ copyOut_ok h hl
  | other o =>
    obtain ⟨sched, -, rfl⟩ := Option.map_eq_some_iff.1 hs
    exact other_ok h hl.2.2 sched

theorem kbd_reachable (h : system.Reach s) : KbdOk s := by
  refine h.inv (fun s hs => hs ▸ setup_ok) fun s o s' hok hst => ?_
  exact step_ok hok hst.1 hst.2

/-- **The queue of key events.** In every reachable state: the events returned so far, what a task is copying and what is on
events_list are the accepted presses in the order of their arrival; a press was dropped if and only if NR_EVENTS accepted ones
were unread; the nodes are split between the two lists; and an interrupt does not come to the BUG_ON of the handler. -/
theorem kbd_fifo (h : system.Reach s) :
    s.accepted = s.returned.map Prod.snd ++ s.pending ++ s.events.map s.kv ∧
      (∀ p ∈ s.presses, p.accepted = false ↔ p.unread = nrEvents) ∧
      (s.free ++ s.events).Perm (List.range nrEvents) ∧
      ∀ code, legal s (.intr code) → (step s (.intr code)).isSome := by
  have hok := kbd_reachable h
  refine ⟨hok.order, fun p hp => ?_, hok.nodes, fun code hl => ?_⟩
  · have hfair := hok.presses p hp
    rw [Press.Fair] at hfair
    cases ha : p.accepted with
    | false => simpa [ha] using hfair
    | true =>
      rw [ha, if_pos rfl] at hfair
      exact iff_of_false Bool.noConfusion hfair.ne
  · obtain ⟨s1, hs1, -⟩ := handler_ok hok hl code
    rw [step, hs1]
    rfl

/-! ## A run with a reader -/

instance (s : Sys) (o : Op) : Decidable (legal s o) :=
  match o with
  | .intr _ | .woken | .copyOut _ => inferInstanceAs (Decidable (_ = _))
  | .call | .look _ => inferInstanceAs (Decidable (_ ∧ _))
  | .other _ => inferInstanceAs (Decidable (_ ∧ _ ∧ _))

/-- a legal step -/
def run (s : Sys) (o : Op) : Option Sys := if legal s o then step s o else none

theorem run_step (h : run s o = some s') : system.step s o s' := by
  unfold run at h
  split_ifs at h with hl
  exact ⟨hl, h⟩

/-- task 5 is made and chosen, and A is pressed before it reads and B in the middle -/
def oneReader : List Op := [.other (.kernelThread 5)] ++ List.replicate (2 * calcTimeSlice) (.other (.schedTick 1)) ++
  [.intr 0x1E, .call, .intr 0x30, .look 1, .copyOut 9]

theorem kbd_fifo_reader : ∃ s, system.Reach s ∧ s.returned = [(5, Keyboard.chr 'a')] ∧ s.free.length = 9 ∧
    s.accepted = [Keyboard.chr 'a'] ++ s.events.map s.kv := by
  have hrun : (oneReader.foldlM run setup).map (fun s => (s.returned, s.free.length, s.pending)) =
      some ([(5, Keyboard.chr 'a')], 9, []) := by decide +kernel
  obtain ⟨s, hs, hfields⟩ := Option.map_eq_some_iff.1 hrun
  simp only [Prod.mk.injEq] at hfields
  obtain ⟨hreturned, hfree, hpending⟩ := hfields
  have hreach : system.Reach s := (Lts.Reach.start rfl).fold (fun _ _ _ => run_step) hs
  have horder := (kbd_fifo hreach).1
  rw [hreturned, hpending] at horder
  exact ⟨s, hreach, hreturned, hfree, horder⟩

end SinsOs.KeyEvents
