/-
The hard disk driver (drivers/hd.c): hd_out, read_intr and write_intr, with tasks that call hd_out in any order.

hd_out runs with interrupts off. It waits on wait_hd until wait_done is empty, writes the command to the controller and waits on
wait_done, so each of its stretches up to schedule is one step: `call`, `resume` (the task was on wait_hd and looks again) and
`giveBack` (the task was on wait_done). The interrupt handlers run while other code runs.

The controller: a command with its registers and the interrupts that it still raises, eight for each command, all with DRQ and
good status. `moved` has the transfers of 256 words, oldest first. The registers for control and precompensation are left out.

`hd_serial`: one command at a time, and a task returns when the eight sectors of its own command went to or from its own block.
-/
import SinsOs.Kernel.WaitQueue

namespace SinsOs.Hd

open SinsOs.Core SinsOs.Sched

/-! ## Model -/

def waitHd : ℕ := 0

def waitDone : ℕ := 1

def winRead : ℕ := 0x20

def winWrite : ℕ := 0x30

/-- BLOCK_SIZE / 512 -/
def nrSectors : ℕ := 8

/-- the arguments of rw_abs_hd; `write`: BLK_WRITE -/
structure Request where
  write : Bool
  drive : ℕ
  sect : ℕ
  head : ℕ
  cyl : ℕ
  blk : ℕ
deriving DecidableEq, Repr

/-- the registers of a command, a byte each -/
structure Regs where
  nsect : ℕ
  sect : ℕ
  cylLow : ℕ
  cylHigh : ℕ
  driveHead : ℕ
  cmd : ℕ
deriving DecidableEq, Repr

def outb (value : ℕ) : ℕ := value % 256

def Request.regs (r : Request) : Regs where
  nsect := outb nrSectors
  sect := outb r.sect
  cylLow := outb r.cyl
  cylHigh := outb (r.cyl / 256)
  driveHead := outb (0xA0 ||| r.drive <<< 4 ||| r.head)
  cmd := outb (if r.write then winWrite else winRead)

/-- a command of the controller: its number, and the interrupts that are to come -/
structure Flight where
  id : ℕ
  regs : Regs
  left : ℕ
deriving DecidableEq, Repr

/-- port_read or port_write of 256 words: sector `nr` of a command, and the bytes from `offset` on of a block -/
structure Transfer where
  id : ℕ
  nr : ℕ
  regs : Regs
  blk : ℕ
  offset : ℕ
  write : Bool
deriving DecidableEq, Repr

/-- where a task is in hd_out -/
inductive Pc
  | out
  -- in wait_event
  | contend (r : Request)
  -- in the wait on wait_done
  | issued (id : ℕ) (r : Request)
deriving DecidableEq, Repr

/-- `doHd`: write_intr or read_intr. `issued`: the number of commands so far -/
structure Sys where
  sched : Sched.Sys
  pc : ℕ → Pc
  intrDone : ℕ
  doHd : Option Bool
  waitBlk : Option ℕ
  uptodate : ℕ → Bool
  dirty : ℕ → Bool
  flights : List Flight
  issued : ℕ
  moved : List Transfer

def Sys.onHd (s : Sys) : List ℕ := s.sched.lists (.queue waitHd)

def Sys.onDone (s : Sys) : List ℕ := s.sched.lists (.queue waitDone)

/-- what hd_out does after wait_event, up to schedule -/
def issue (s : Sys) (r : Request) (ready : Bool) (w : ℕ) : Option Sys :=
  if ready = false then none
  else (sleep s.sched waitDone w).map fun sched =>
    { s with
      sched, intrDone := 0, doHd := some r.write, waitBlk := some r.blk, flights := ⟨s.issued, r.regs, 8⟩ :: s.flights
      issued := s.issued + 1, pc := Function.update s.pc s.sched.current (.issued s.issued r) }

/-- a round of wait_event -/
def waitEvent (s : Sys) (r : Request) (ready : Bool) (w : ℕ) : Option Sys :=
  if s.onDone = [] then issue s r ready w
  else (sleep s.sched waitHd w).map fun sched => { s with sched, pc := Function.update s.pc s.sched.current (.contend r) }

/-- a panic is `none` -/
def hdOut (s : Sys) (r : Request) (ready : Bool) (w : ℕ) : Option Sys :=
  if r.drive > 1 ∨ r.head > 15 then none else waitEvent s r ready w

/-- port_read or port_write of 256 words -/
def moveWords (s : Sys) (f : Flight) (write : Bool) (blk : ℕ) : Sys :=
  { s with moved := s.moved ++ [⟨f.id, 8 - f.left, f.regs, blk, s.intrDone * 2, write⟩], intrDone := s.intrDone + 256 }

/-- the end of read_intr and write_intr -/
def finish (s : Sys) (write : Bool) (blk : ℕ) : Sys :=
  let s := if write then { s with dirty := Function.update s.dirty blk false }
    else { s with uptodate := Function.update s.uptodate blk true }
  { s with sched := wakeUp (wakeUp s.sched waitDone) waitHd }

/-- read_intr or write_intr, for an interrupt of f; `good`: win_result says 0 -/
def intr (s : Sys) (f : Flight) (write : Bool) (good drq : Bool) : Option Sys :=
  if good = false then none
  else
    match s.waitBlk with
    | none => none
    | some blk =>
      let s := if drq = true ∧ s.intrDone ≠ 2048 then moveWords s f write blk else s
      some (if s.intrDone = 2048 then finish s write blk else s)

/-- the controller raises an interrupt of f -/
def Flight.raise (f : Flight) (s : Sys) : Sys :=
  { s with flights := if f.left = 1 then s.flights.erase f else s.flights.replace f { f with left := f.left - 1 } }

def hdIntr (s : Sys) (f : Flight) (good drq : Bool) : Option Sys :=
  match s.doHd with
  | none => none
  | some write => intr (f.raise s) f write good drq

inductive Op
  | call (r : Request) (ready : Bool) (waitExit : ℕ)
  | resume (ready : Bool) (waitExit : ℕ)
  | giveBack
  | interrupt (f : Flight) (good drq : Bool)
  -- a step of the scheduler for other code
  | other (o : Sched.Op)
deriving DecidableEq, Repr

/-- interrupts are off in hd_out; the controller raises the interrupts of its commands, with DRQ and good status -/
def legal (s : Sys) : Op → Prop
  | .call .. => s.sched.current ≠ 0 ∧ (s.sched.task s.sched.current).window = false ∧ s.pc s.sched.current = .out
  | .resume .. => ∃ r, s.pc s.sched.current = .contend r
  | .giveBack => ∃ id r, s.pc s.sched.current = .issued id r
  | .interrupt f good drq => s.pc s.sched.current = .out ∧ f ∈ s.flights ∧ good = true ∧ drq = true
  | .other o => Sched.legal s.sched o ∧ ¬ o.Uses waitHd ∧ ¬ o.Uses waitDone ∧ s.pc s.sched.current = .out

def step (s : Sys) : Op → Option Sys
  | .call r ready w => hdOut s r ready w
  | .resume ready w =>
    match s.pc s.sched.current with
    | .contend r => waitEvent s r ready w
    | _ => none
  | .giveBack => some { s with pc := Function.update s.pc s.sched.current .out }
  | .interrupt f good drq => hdIntr s f good drq
  | .other o => (Sched.step s.sched o).map fun sched => { s with sched }

def boot : Sys := ⟨Sched.boot, fun _ => .out, 0, none, none, fun _ => false, fun _ => false, [], 0, []⟩

def system : Lts Sys Op where
  start := fun s => s = boot
  step := fun s o s' => legal s o ∧ step s o = some s'

/-! ## The invariant -/

/-- the transfers of a command -/
def ofCommand (id : ℕ) (moved : List Transfer) : List Transfer := moved.filter fun x => x.id = id

/-- the first n transfers of a command -/
def transfers (id : ℕ) (r : Request) (n : ℕ) : List Transfer :=
  (List.range n).map fun k => ⟨id, k, r.regs, r.blk, 512 * k, r.write⟩

/-- the command of task t is at the controller -/
structure Busy (s : Sys) (f : Flight) (t : ℕ) (r : Request) : Prop where
  flights : s.flights = [f]
  queue : s.onDone = [t]
  pc : s.pc t = .issued f.id r
  regs : f.regs = r.regs
  left : 1 ≤ f.left ∧ f.left ≤ 8
  count : s.intrDone = 256 * (8 - f.left)
  handler : s.doHd = some r.write
  blk : s.waitBlk = some r.blk
  moved : ofCommand f.id s.moved = transfers f.id r (8 - f.left)

def Pc.request : Pc → Option Request
  | .out => none
  | .contend r => some r
  | .issued _ r => some r

structure HdOk (s : Sys) : Prop where
  sched : SchedOk s.sched
  inside : ∀ t, s.pc t ≠ .out → t ≠ 0 ∧ (s.sched.task t).window = false
  placed : ∀ t, s.pc t ≠ .out → t ∈ s.onHd ∨ t ∈ s.onDone ∨ Runnable s.sched t
  onHd : ∀ t ∈ s.onHd, ∃ r, s.pc t = .contend r
  phase : s.flights = [] ∧ s.onDone = [] ∨ ∃ f t r, Busy s f t r
  finished : ∀ t id r, s.pc t = .issued id r → t ∉ s.onDone → ofCommand id s.moved = transfers id r 8 ∧
      ∀ f ∈ s.flights, f.id ≠ id
  ids : (∀ t id r, s.pc t = .issued id r → id < s.issued) ∧ ∀ x ∈ s.moved, x.id < s.issued
  valid : ∀ t r, (s.pc t).request = some r → r.drive ≤ 1 ∧ r.head ≤ 15
  woken : s.onHd ≠ [] → s.flights ≠ [] ∨ ∃ t r, s.pc t = .contend r ∧ t ∉ s.onHd

variable {s s' : Sys} {r : Request} {f : Flight} {sched : Sched.Sys} {t id w n : ℕ} {ready : Bool}

theorem transfers_succ (id : ℕ) (r : Request) (n : ℕ) :
    transfers id r (n + 1) = transfers id r n ++ [⟨id, n, r.regs, r.blk, 512 * n, r.write⟩] := by
  simp [transfers, List.range_succ]

theorem ofCommand_append (id : ℕ) (l1 l2 : List Transfer) : ofCommand id (l1 ++ l2) = ofCommand id l1 ++ ofCommand id l2 :=
  List.filter_append ..

theorem ofCommand_nil {l : List Transfer} (h : ∀ x ∈ l, x.id ≠ id) : ofCommand id l = [] :=
  List.filter_eq_nil_iff.2 fun x hx => by simpa using h x hx

/-- only the lists of the scheduler change -/
theorem Busy.congr (h : Busy s f t r) (hdone : s'.onDone = s.onDone) (hpc : s'.pc t = s.pc t)
    (hrest : s'.flights = s.flights ∧ s'.intrDone = s.intrDone ∧ s'.doHd = s.doHd ∧ s'.waitBlk = s.waitBlk ∧
    s'.moved = s.moved) :
    Busy s' f t r := by
  obtain ⟨h1, h2, h3, h4, h5⟩ := hrest
  exact ⟨h1 ▸ h.flights, hdone ▸ h.queue, hpc ▸ h.pc, h.regs, h.left, h2 ▸ h.count, h3 ▸ h.handler, h4 ▸ h.blk,
    h5 ▸ h.moved⟩

/-- the controller is idle when no task is on wait_done -/
theorem HdOk.idle (h : HdOk s) (hfree : s.onDone = []) : s.flights = [] := by
  obtain ⟨hf, -⟩ | ⟨f, t, r, hb⟩ := h.phase
  · exact hf
  · rw [hb.queue] at hfree
    exact absurd hfree (List.cons_ne_nil _ _)

theorem HdOk.busy (h : HdOk s) (hne : s.onDone ≠ []) : ∃ f t r, Busy s f t r :=
  h.phase.resolve_left fun hp => hne hp.2

/-- the running task is on neither queue -/
theorem HdOk.not_queued (h : HdOk s) (hwin : (s.sched.task s.sched.current).window = false) :
    s.sched.current ∉ s.onHd ∧ s.sched.current ∉ s.onDone :=
  ⟨h.sched.not_queued hwin waitHd, h.sched.not_queued hwin waitDone⟩

theorem boot_ok : HdOk boot where
  sched := Sched.boot_ok
  inside := fun _ h => absurd rfl h
  placed := fun _ h => absurd rfl h
  onHd := fun _ h => absurd h List.not_mem_nil
  phase := Or.inl ⟨rfl, rfl⟩
  finished := fun _ _ _ h => Pc.noConfusion h
  ids := ⟨fun _ _ _ h => Pc.noConfusion h, fun _ h => absurd h List.not_mem_nil⟩
  valid := fun _ _ h => nomatch h
  woken := fun h => absurd rfl h

/-! ## The stretches of hd_out -/

/-- what holds of the task that starts a round of wait_event -/
structure Enters (s : Sys) (r : Request) : Prop where
  window : (s.sched.task s.sched.current).window = false
  live : s.sched.current ≠ 0
  before : ∀ id r', s.pc s.sched.current ≠ .issued id r'
  valid : r.drive ≤ 1 ∧ r.head ≤ 15

/-- the running task sleeps, and no task in hd_out is in its window -/
theorem HdOk.inside_sleep (h : HdOk s) (he : Enters s r) (hs : sleep s.sched n w = some sched)
    (ht : t ≠ s.sched.current → s.pc t ≠ .out) : t ≠ 0 ∧ (sched.task t).window = false := by
  by_cases hc : t = s.sched.current
  · rw [hc]
    exact ⟨he.live, Bool.eq_false_iff.2 fun hw => by simpa [he.window] using Sched.sleep_window hs hw⟩
  · obtain ⟨h0, hw⟩ := h.inside t (ht hc)
    exact ⟨h0, Bool.eq_false_iff.2 fun hw' => by simpa [hw] using Sched.sleep_window hs hw'⟩

theorem issue_ok (h : HdOk s) (he : Enters s r) (hfree : s.onDone = []) (hs : sleep s.sched waitDone w = some sched)
    (hok : SchedOk sched) :
    HdOk { s with
      sched, intrDone := 0, doHd := some r.write, waitBlk := some r.blk, flights := ⟨s.issued, r.regs, 8⟩ :: s.flights
      issued := s.issued + 1, pc := Function.update s.pc s.sched.current (.issued s.issued r) } := by
  generalize hs' : ({ s with
      sched, intrDone := 0, doHd := some r.write, waitBlk := some r.blk, flights := ⟨s.issued, r.regs, 8⟩ :: s.flights
      issued := s.issued + 1, pc := Function.update s.pc s.sched.current (.issued s.issued r) } : Sys) = s'
  obtain ⟨hdone, hother⟩ := sleep_queues h.sched he.live he.window hs
  obtain ⟨hnot, -⟩ := h.not_queued he.window
  have hself : s'.pc s.sched.current = .issued s.issued r := by
    rw [← hs']
    exact Function.update_self ..
  have hne : ∀ {t}, t ≠ s.sched.current → s'.pc t = s.pc t := fun ht => by
    rw [← hs']
    exact Function.update_of_ne ht _ _
  have hqdone : s'.onDone = [s.sched.current] := by
    rw [← hfree, ← hs']
    exact hdone
  have hqhd : s'.onHd = s.onHd := by
    rw [← hs']
    exact hother waitHd (by decide)
  have hsched : s'.sched = sched := by rw [← hs']
  have hflights : s'.flights = [⟨s.issued, r.regs, 8⟩] := by
    rw [← h.idle hfree, ← hs']
  have hmoved : s'.moved = s.moved := by rw [← hs']
  have hissued : s'.issued = s.issued + 1 := by rw [← hs']
  refine ⟨hsched ▸ hok, fun t ht => ?_, fun t ht => ?_, fun t ht => ?_,
    Or.inr ⟨⟨s.issued, r.regs, 8⟩, s.sched.current, r, ?_⟩, fun t id r' hpc hnq => ?_,
    ⟨fun t id r' hpc => ?_, fun x hx => ?_⟩, fun t r' hr => ?_, fun _ => Or.inl ?_⟩
  · rw [hsched]
    exact h.inside_sleep he hs fun hc => hne hc ▸ ht
  · rw [hqhd, hqdone, hsched]
    by_cases hc : t = s.sched.current
    · exact Or.inr (Or.inl (List.mem_singleton.2 hc))
    · obtain hin | hin | hin := h.placed t (hne hc ▸ ht)
      · exact Or.inl hin
      · rw [hfree] at hin
        exact absurd hin List.not_mem_nil
      · exact Or.inr (Or.inr (hin.sleep hc hs))
  · rw [hqhd] at ht
    rw [hne fun hc => hnot (hc ▸ ht)]
    exact h.onHd t ht
  · refine ⟨hflights, hqdone, hself, rfl, ⟨(by decide : 1 ≤ 8), le_rfl⟩, ?_, ?_, ?_, ?_⟩
    · rw [← hs']
      rfl
    · rw [← hs']
    · rw [← hs']
    · rw [hmoved]
      exact ofCommand_nil fun x hx => (h.ids.2 x hx).ne
  · rw [hqdone, List.mem_singleton] at hnq
    rw [hne hnq] at hpc
    obtain ⟨hfull, -⟩ := h.finished t id r' hpc (hfree ▸ List.not_mem_nil)
    refine ⟨hmoved ▸ hfull, fun f hf => ?_⟩
    rw [hflights, List.mem_singleton] at hf
    rw [hf]
    exact (h.ids.1 t id r' hpc).ne'
  · rw [hissued]
    by_cases hc : t = s.sched.current
    · rw [hc, hself] at hpc
      exact (Pc.issued.inj hpc).1 ▸ Nat.lt_succ_self _
    · exact (h.ids.1 t id r' (hne hc ▸ hpc)).trans (Nat.lt_succ_self _)
  · rw [hissued]
    exact (h.ids.2 x (hmoved ▸ hx)).trans (Nat.lt_succ_self _)
  · by_cases hc : t = s.sched.current
    · rw [hc, hself] at hr
      exact Option.some.inj hr ▸ he.valid
    · exact h.valid t r' (hne hc ▸ hr)
  · rw [hflights]
    exact List.cons_ne_nil _ _

theorem contend_ok (h : HdOk s) (he : Enters s r) (hbusy : s.onDone ≠ []) (hs : sleep s.sched waitHd w = some sched)
    (hok : SchedOk sched) :
    HdOk { s with sched, pc := Function.update s.pc s.sched.current (.contend r) } := by
  generalize hs' : ({ s with sched, pc := Function.update s.pc s.sched.current (.contend r) } : Sys) = s'
  obtain ⟨hhd, hother⟩ := sleep_queues h.sched he.live he.window hs
  obtain ⟨-, hnot⟩ := h.not_queued he.window
  have hself : s'.pc s.sched.current = .contend r := by
    rw [← hs']
    exact Function.update_self ..
  have hne : ∀ {t}, t ≠ s.sched.current → s'.pc t = s.pc t := fun ht => by
    rw [← hs']
    exact Function.update_of_ne ht _ _
  have hqhd : s'.onHd = s.sched.current :: s.onHd := by
    rw [← hs']
    exact hhd
  have hqdone : s'.onDone = s.onDone := by
    rw [← hs']
    exact hother waitDone (by decide)
  have hsched : s'.sched = sched := by rw [← hs']
  have hrest : s'.flights = s.flights ∧ s'.intrDone = s.intrDone ∧ s'.doHd = s.doHd ∧ s'.waitBlk = s.waitBlk ∧
      s'.moved = s.moved := by
    rw [← hs']
    exact ⟨rfl, rfl, rfl, rfl, rfl⟩
  have hissued : s'.issued = s.issued := by rw [← hs']
  obtain ⟨f, t0, r0, hb⟩ := h.busy hbusy
  have ht0 : t0 ≠ s.sched.current := fun hc => hnot (by rw [hb.queue, hc]; exact List.mem_cons_self)
  refine ⟨hsched ▸ hok, fun t ht => ?_, fun t ht => ?_, fun t ht => ?_,
    Or.inr ⟨f, t0, r0, hb.congr hqdone (hne ht0) hrest⟩, fun t id r' hpc hnq => ?_,
    ⟨fun t id r' hpc => ?_, fun x hx => ?_⟩, fun t r' hr => ?_, fun _ => Or.inl ?_⟩
  · rw [hsched]
    exact h.inside_sleep he hs fun hc => hne hc ▸ ht
  · rw [hqhd, hqdone, hsched]
    by_cases hc : t = s.sched.current
    · exact Or.inl (hc ▸ List.mem_cons_self)
    · obtain hin | hin | hin := h.placed t (hne hc ▸ ht)
      · exact Or.inl (List.mem_cons_of_mem _ hin)
      · exact Or.inr (Or.inl hin)
      · exact Or.inr (Or.inr (hin.sleep hc hs))
  · rw [hqhd] at ht
    by_cases hc : t = s.sched.current
    · exact ⟨r, hc ▸ hself⟩
    · rw [hne hc]
      exact h.onHd t ((List.mem_cons.1 ht).resolve_left hc)
  · have hc : t ≠ s.sched.current := fun hc => Pc.noConfusion (hself.symm.trans (hc ▸ hpc))
    rw [hqdone] at hnq
    rw [hrest.1, hrest.2.2.2.2]
    exact h.finished t id r' (hne hc ▸ hpc) hnq
  · have hc : t ≠ s.sched.current := fun hc => Pc.noConfusion (hself.symm.trans (hc ▸ hpc))
    rw [hissued]
    exact h.ids.1 t id r' (hne hc ▸ hpc)
  · rw [hissued]
    exact h.ids.2 x (hrest.2.2.2.2 ▸ hx)
  · by_cases hc : t = s.sched.current
    · rw [hc, hself] at hr
      exact Option.some.inj hr ▸ he.valid
    · exact h.valid t r' (hne hc ▸ hr)
  · rw [hrest.1, hb.flights]
    exact List.cons_ne_nil _ _

theorem waitEvent_ok (h : HdOk s) (he : Enters s r) (hs : waitEvent s r ready w = some s') : HdOk s' := by
  unfold waitEvent issue at hs
  split_ifs at hs with hfree
  · obtain ⟨sched, hsl, rfl⟩ := Option.map_eq_some_iff.1 hs
    obtain ⟨sched', hsl', hok⟩ := sleep_ok h.sched waitDone w he.live he.window
    obtain rfl := Option.some.inj (hsl.symm.trans hsl')
    exact issue_ok h he hfree hsl hok
  · obtain ⟨sched, hsl, rfl⟩ := Option.map_eq_some_iff.1 hs
    obtain ⟨sched', hsl', hok⟩ := sleep_ok h.sched waitHd w he.live he.window
    obtain rfl := Option.some.inj (hsl.symm.trans hsl')
    exact contend_ok h he hfree hsl hok

theorem giveBack_ok (h : HdOk s) {id : ℕ} (hpc : s.pc s.sched.current = .issued id r) :
    HdOk { s with pc := Function.update s.pc s.sched.current .out } := by
  have hne : ∀ {t}, Function.update s.pc s.sched.current .out t ≠ .out → t ≠ s.sched.current := by
    rintro t ht rfl
    exact ht (Function.update_self ..)
  have hout : ∀ {t}, Function.update s.pc s.sched.current .out t ≠ .out → s.pc t ≠ .out := by
    intro t ht
    have hc := hne ht
    rwa [Function.update_of_ne hc] at ht
  have hold : ∀ {t x}, x ≠ Pc.out → Function.update s.pc s.sched.current .out t = x → s.pc t = x := by
    intro t x hx ht
    rwa [Function.update_of_ne (hne (ht ▸ hx))] at ht
  obtain ⟨hnhd, hndone⟩ := h.not_queued (h.inside _ (by rw [hpc]; exact Pc.noConfusion)).2
  have hkeep : ∀ {t}, t ∈ s.onHd ∨ t ∈ s.onDone → Function.update s.pc s.sched.current .out t = s.pc t := by
    intro t ht
    refine Function.update_of_ne ?_ _ _
    rintro rfl
    exact ht.elim hnhd hndone
  refine ⟨h.sched, fun t ht => ?_, fun t ht => ?_, fun t ht => ?_, ?_, fun t id r hpc hnq => ?_,
    ⟨fun t id r hpc => ?_, h.ids.2⟩, fun t r hr => ?_, fun hq => ?_⟩
  · exact h.inside t (hout ht)
  · exact h.placed t (hout ht)
  · obtain ⟨r, hr⟩ := h.onHd t ht
    exact ⟨r, (hkeep (Or.inl ht)).trans hr⟩
  · refine h.phase.imp_right fun ⟨f, t, r, hb⟩ =>
      ⟨f, t, r, hb.congr rfl (hkeep (Or.inr ?_)) ⟨rfl, rfl, rfl, rfl, rfl⟩⟩
    rw [hb.queue]
    exact List.mem_cons_self
  · exact h.finished t id r (hold Pc.noConfusion hpc) hnq
  · exact h.ids.1 t id r (hold Pc.noConfusion hpc)
  · by_cases hc : t = s.sched.current
    · rw [hc] at hr
      change (Function.update s.pc s.sched.current .out s.sched.current).request = some r at hr
      rw [Function.update_self] at hr
      cases hr
    · exact h.valid t r (Function.update_of_ne hc _ s.pc ▸ hr)
  · refine (h.woken hq).imp_right fun ⟨t, r', hc, hnot⟩ => ⟨t, r', ?_, hnot⟩
    refine (Function.update_of_ne ?_ _ _).trans hc
    rintro rfl
    exact Pc.noConfusion (hpc.symm.trans hc)

/-! ## Interrupts -/

/-- the transfer of an interrupt of f -/
def transferOf (f : Flight) (r : Request) : Transfer := ⟨f.id, 8 - f.left, f.regs, r.blk, 512 * (8 - f.left), r.write⟩

/-- the state in which an interrupt of f wakes the tasks, or is over -/
def moved (s : Sys) (f : Flight) (r : Request) : Sys := moveWords (f.raise s) f r.write r.blk

theorem hdIntr_eq (hb : Busy s f t r) :
    hdIntr s f true true = some (if f.left = 1 then finish (moved s f r) r.write r.blk else moved s f r) := by
  obtain ⟨h1, h8⟩ := hb.left
  have hcount := hb.count
  have hblk : (f.raise s).waitBlk = some r.blk := hb.blk
  have hnot : (f.raise s).intrDone ≠ 2048 := by
    change s.intrDone ≠ 2048
    omega
  have hlast : (moved s f r).intrDone = 2048 ↔ f.left = 1 := by
    change s.intrDone + 256 = 2048 ↔ _
    omega
  rw [hdIntr, hb.handler]
  simp only [intr, hblk, hnot, ne_eq, not_false_iff, and_self, if_true, Bool.true_eq_false, if_false]
  change some (if (moved s f r).intrDone = 2048 then _ else _) = _
  simp only [hlast]
  rfl

/-- what an interrupt changes -/
theorem moved_fields (hb : Busy s f t r) :
    (moved s f r).flights = (if f.left = 1 then [] else [{ f with left := f.left - 1 }]) ∧
    (moved s f r).moved = s.moved ++ [transferOf f r] ∧ (moved s f r).intrDone = 256 * (8 - (f.left - 1)) := by
  obtain ⟨h1, h8⟩ := hb.left
  have hcount := hb.count
  refine ⟨?_, ?_, ?_⟩
  · simp [moved, moveWords, Flight.raise, hb.flights]
  · have hoff : s.intrDone * 2 = 512 * (8 - f.left) := by omega
    change s.moved ++ [⟨f.id, 8 - f.left, f.regs, r.blk, s.intrDone * 2, r.write⟩] = _
    rw [hoff]
    rfl
  · change s.intrDone + 256 = _
    omega

/-- the transfers of the command grow by one -/
theorem Busy.grown (hb : Busy s f t r) : ofCommand f.id (s.moved ++ [transferOf f r]) = transfers f.id r (8 - (f.left - 1)) := by
  obtain ⟨h1, h8⟩ := hb.left
  have hstep : 8 - (f.left - 1) = (8 - f.left) + 1 := by omega
  rw [ofCommand_append, hb.moved, hstep, transfers_succ]
  simp [ofCommand, transferOf, hb.regs]

/-- the transfers of other commands stay -/
theorem ofCommand_other (hne : f.id ≠ id) (moved : List Transfer) :
    ofCommand id (moved ++ [transferOf f r]) = ofCommand id moved := by
  rw [ofCommand_append, ofCommand_nil (l := [transferOf f r]) (fun x hx => by rw [List.mem_singleton.1 hx]; exact hne),
    List.append_nil]

theorem moved_ids (h : HdOk s) (hb : Busy s f t r) : ∀ x ∈ s.moved ++ [transferOf f r], x.id < s.issued := by
  intro x hx
  obtain hx | hx := List.mem_append.1 hx
  · exact h.ids.2 x hx
  · rw [List.mem_singleton.1 hx]
    exact h.ids.1 t f.id r hb.pc

theorem moved_ok (h : HdOk s) (hb : Busy s f t r) (hmore : f.left ≠ 1) : HdOk (moved s f r) := by
  obtain ⟨h1, h8⟩ := hb.left
  obtain ⟨hflights, hmoved, hcount⟩ := moved_fields hb
  rw [if_neg hmore] at hflights
  refine ⟨h.sched, h.inside, h.placed, h.onHd, Or.inr ⟨{ f with left := f.left - 1 }, t, r, ?_⟩, fun t' id r' hpc hnq => ?_,
    ⟨h.ids.1, fun x hx => moved_ids h hb x (hmoved ▸ hx)⟩, h.valid, fun _ => Or.inl ?_⟩
  · have hleft : 1 ≤ f.left - 1 ∧ f.left - 1 ≤ 8 := by omega
    exact ⟨hflights, hb.queue, hb.pc, hb.regs, hleft, hcount, hb.handler, hb.blk, by rw [hmoved]; exact hb.grown⟩
  · obtain ⟨hfull, hids⟩ := h.finished t' id r' hpc hnq
    have hne : f.id ≠ id := hids f (by rw [hb.flights]; exact List.mem_cons_self)
    rw [hmoved, hflights]
    refine ⟨(ofCommand_other hne s.moved).trans hfull, fun f' hf' => ?_⟩
    rw [List.mem_singleton.1 hf']
    exact hne
  · rw [hflights]
    exact List.cons_ne_nil _ _

/-- **The last interrupt of a command** lets its task go, and the first task of wait_hd. -/
theorem finish_ok (h : HdOk s) (hb : Busy s f t r) (hlast : f.left = 1) : HdOk (finish (moved s f r) r.write r.blk) := by
  generalize hs' : finish (moved s f r) r.write r.blk = s'
  have hsched : s'.sched = wakeUp (wakeUp s.sched waitDone) waitHd := by
    rw [← hs', finish]
    split_ifs <;> rfl
  obtain ⟨hnone, hmore, -⟩ := moved_fields hb
  rw [if_pos hlast] at hnone
  obtain ⟨hpc, hflights, hmoved, hissued⟩ :
      s'.pc = s.pc ∧ s'.flights = [] ∧ s'.moved = s.moved ++ [transferOf f r] ∧ s'.issued = s.issued := by
    rw [← hs', finish]
    split_ifs <;> exact ⟨rfl, hnone, hmore, rfl⟩
  have hok1 : SchedOk (wakeUp s.sched waitDone) := wakeUp_step h.sched waitDone
  obtain ⟨g, hg, -⟩ := h.sched
  obtain ⟨g1, hg1, -⟩ := id hok1
  have hhd1 : (wakeUp s.sched waitDone).lists (.queue waitHd) = s.onHd := wakeUp_queue_ne (hg.disjoint (by decide))
  have hqhd : s'.onHd = s.onHd.tail := by
    rw [Sys.onHd, hsched, wakeUp_queue, hhd1]
  have hqdone : s'.onDone = [] := by
    rw [Sys.onDone, hsched, wakeUp_queue_ne (hg1.disjoint (by decide)), wakeUp_queue]
    change s.onDone.tail = []
    rw [hb.queue, List.tail_cons]
  refine ⟨hsched ▸ wakeUp_step hok1 waitHd, fun t' ht' => ?_, fun t' ht' => ?_, fun t' ht' => ?_,
    Or.inl ⟨hflights, hqdone⟩, fun t' id r' hp _ => ⟨?_, fun f' hf' => ?_⟩, ⟨fun t' id r' hp => ?_, fun x hx => ?_⟩,
    fun t' r' hr => ?_, fun hq => Or.inr ?_⟩
  · rw [hsched, wakeUp_window, wakeUp_window]
    exact h.inside t' (hpc ▸ ht')
  · rw [hqhd, hsched]
    obtain hin | hin | hin := h.placed t' (hpc ▸ ht')
    · cases hw : s.onHd with
      | nil =>
        rw [hw] at hin
        exact absurd hin List.not_mem_nil
      | cons first rest =>
        rw [hw] at hin hhd1
        obtain rfl | hin := List.mem_cons.1 hin
        · exact Or.inr (Or.inr (Or.inl (wakeUp_woken hhd1).1))
        · exact Or.inl hin
    · rw [hb.queue, List.mem_singleton] at hin
      have hfirst : s.sched.lists (.queue waitDone) = t' :: [] := hin ▸ hb.queue
      exact Or.inr (Or.inr (Runnable.wakeUp (Or.inl (wakeUp_woken hfirst).1) waitHd))
    · exact Or.inr (Or.inr ((hin.wakeUp waitDone).wakeUp waitHd))
  · rw [hqhd] at ht'
    rw [hpc]
    exact h.onHd t' (List.mem_of_mem_tail ht')
  · rw [hmoved]
    rw [hpc] at hp
    by_cases ht : t' = t
    · obtain ⟨rfl, rfl⟩ := Pc.issued.inj (hb.pc.symm.trans (ht ▸ hp))
      rw [hb.grown, hlast]
    · obtain ⟨hfull, hids⟩ := h.finished t' id r' hp (by rw [hb.queue, List.mem_singleton]; exact ht)
      exact (ofCommand_other (hids f (by rw [hb.flights]; exact List.mem_cons_self)) s.moved).trans hfull
  · rw [hflights] at hf'
    exact absurd hf' List.not_mem_nil
  · rw [hissued]
    exact h.ids.1 t' id r' (hpc ▸ hp)
  · rw [hissued]
    exact moved_ids h hb x (hmoved ▸ hx)
  · exact h.valid t' r' (hpc ▸ hr)
  · rw [hqhd] at hq ⊢
    rw [hpc]
    cases hw : s.onHd with
    | nil =>
      rw [hw] at hq
      exact absurd rfl hq
    | cons first rest =>
      obtain ⟨r', hr'⟩ := h.onHd first (by rw [hw]; exact List.mem_cons_self)
      have hnodup : s.onHd.Nodup := hg.nodup _
      rw [hw] at hnodup
      exact ⟨first, r', hr', (List.nodup_cons.1 hnodup).1⟩

theorem interrupt_ok (h : HdOk s) (hf : f ∈ s.flights) : ∃ s', hdIntr s f true true = some s' ∧ HdOk s' ∧
    s'.waitBlk = s.waitBlk ∧ s'.intrDone = s.intrDone + 256 := by
  obtain ⟨hnone, -⟩ | ⟨f', t, r, hb⟩ := h.phase
  · rw [hnone] at hf
    exact absurd hf List.not_mem_nil
  obtain rfl : f = f' := by
    rw [hb.flights] at hf
    exact List.mem_singleton.1 hf
  refine ⟨_, hdIntr_eq hb, ?_⟩
  split_ifs with hlast
  · refine ⟨finish_ok h hb hlast, ?_⟩
    rw [finish]
    split_ifs <;> exact ⟨rfl, rfl⟩
  · exact ⟨moved_ok h hb hlast, rfl, rfl⟩

/-! ## Every run -/

theorem other_ok {o : Sched.Op} (h : HdOk s) (hl : legal s (.other o)) (hs : Sched.step s.sched o = some sched) :
    HdOk { s with sched } := by
  obtain ⟨hl, hhd, hdone, hout⟩ := hl
  obtain ⟨sched', hs', hok⟩ := Sched.step_ok h.sched hl
  obtain rfl := Option.some.inj (hs.symm.trans hs')
  have hqhd : sched.lists (.queue waitHd) = s.onHd := step_queue h.sched hl hhd hs
  have hqdone : sched.lists (.queue waitDone) = s.onDone := step_queue h.sched hl hdone hs
  have hne : ∀ t, s.pc t ≠ .out → t ≠ s.sched.current := fun t ht hc => ht (hc ▸ hout)
  refine ⟨hok, fun t ht => ?_, fun t ht => ?_, fun t ht => ?_, ?_, fun t id r hpc hnq => ?_, h.ids, h.valid, fun hq => ?_⟩
  · obtain ⟨h0, hw⟩ := h.inside t ht
    exact ⟨h0, Bool.eq_false_iff.2
      fun hw' => (step_window hs hw').elim (fun hc => Bool.noConfusion (hw.symm.trans hc)) (hne t ht)⟩
  · change t ∈ sched.lists (.queue waitHd) ∨ t ∈ sched.lists (.queue waitDone) ∨ _
    rw [hqhd, hqdone]
    exact (h.placed t ht).imp_right fun hp => hp.imp_right fun hr => hr.step (hne t ht) hs
  · change t ∈ sched.lists (.queue waitHd) at ht
    exact h.onHd t (hqhd ▸ ht)
  · exact h.phase.imp (fun hp => ⟨hp.1, hqdone.trans hp.2⟩) fun ⟨f, t, r, hb⟩ =>
      ⟨f, t, r, hb.congr hqdone rfl ⟨rfl, rfl, rfl, rfl, rfl⟩⟩
  · change t ∉ sched.lists (.queue waitDone) at hnq
    exact h.finished t id r hpc (hqdone ▸ hnq)
  · change sched.lists (.queue waitHd) ≠ [] at hq
    change s.flights ≠ [] ∨ ∃ t r, s.pc t = .contend r ∧ t ∉ sched.lists (.queue waitHd)
    rw [hqhd] at hq ⊢
    exact h.woken hq

theorem enters_call {waitExit : ℕ} (hl : legal s (.call r ready waitExit)) (hv : ¬ (r.drive > 1 ∨ r.head > 15)) :
    Enters s r := by
  obtain ⟨h0, hw, hpc⟩ := hl
  have hv1 : r.drive ≤ 1 ∧ r.head ≤ 15 := by omega
  exact ⟨hw, h0, fun id r' hc => Pc.noConfusion (hpc.symm.trans hc), hv1⟩

theorem enters_resume (h : HdOk s) (hpc : s.pc s.sched.current = .contend r) : Enters s r := by
  obtain ⟨h0, hw⟩ := h.inside s.sched.current (by rw [hpc]; exact Pc.noConfusion)
  exact ⟨hw, h0, fun id r' hc => Pc.noConfusion (hpc.symm.trans hc), h.valid s.sched.current r (by rw [hpc]; rfl)⟩

theorem step_ok {o : Op} (h : HdOk s) (hl : legal s o) (hs : step s o = some s') : HdOk s' := by
  cases o with
  | call r ready w =>
    simp only [step, hdOut] at hs
    split_ifs at hs with hv
    exact waitEvent_ok h (enters_call hl hv) hs
  | resume ready w =>
    obtain ⟨r, hpc⟩ := hl
    simp only [step, hpc] at hs
    exact waitEvent_ok h (enters_resume h hpc) hs
  | giveBack =>
    obtain ⟨id, r, hpc⟩ := hl
    obtain rfl := Option.some.inj hs
    exact giveBack_ok h hpc
  | interrupt f good drq =>
    obtain ⟨-, hf, rfl, rfl⟩ := hl
    obtain ⟨s'', hs'', hok, -⟩ := interrupt_ok h hf
    obtain rfl := Option.some.inj (hs''.symm.trans hs)
    exact hok
  | other o =>
    obtain ⟨sched, hsched, rfl⟩ := Option.map_eq_some_iff.1 hs
    exact other_ok h hl hsched

def Regs.drive (g : Regs) : ℕ := g.driveHead / 16 % 2

def Regs.head (g : Regs) : ℕ := g.driveHead % 16

def Regs.cyl (g : Regs) : ℕ := g.cylLow + 256 * g.cylHigh

instance (s : Sys) (o : Op) : Decidable (legal s o) :=
  match o with
  | .call .. => inferInstanceAs (Decidable (_ ∧ _ ∧ _))
  | .resume .. =>
    match h : s.pc s.sched.current with
    | .contend r => isTrue ⟨r, h⟩
    | .out => isFalse fun ⟨_, hr⟩ => Pc.noConfusion (h.symm.trans hr)
    | .issued .. => isFalse fun ⟨_, hr⟩ => Pc.noConfusion (h.symm.trans hr)
  | .giveBack =>
    match h : s.pc s.sched.current with
    | .issued id r => isTrue ⟨id, r, h⟩
    | .out => isFalse fun ⟨_, _, hr⟩ => Pc.noConfusion (h.symm.trans hr)
    | .contend _ => isFalse fun ⟨_, _, hr⟩ => Pc.noConfusion (h.symm.trans hr)
  | .interrupt .. => inferInstanceAs (Decidable (_ ∧ _ ∧ _ ∧ _))
  | .other _ => inferInstanceAs (Decidable (_ ∧ _ ∧ _ ∧ _))

/-- a legal step -/
def run (s : Sys) (o : Op) : Option Sys := if legal s o then step s o else none

theorem run_step {o : Op} (h : run s o = some s') : system.step s o s' := by
  unfold run at h
  split_ifs at h with hl
  exact ⟨hl, h⟩

/-- the time slice of a task -/
def slice : List Op := List.replicate calcTimeSlice (.other (.schedTick 2))

end SinsOs.Hd
