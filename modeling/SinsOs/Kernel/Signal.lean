/-
Signals (kernel/signal.c): sys_sigmask, sys_sigaction, sys_kill, sys_sigreturn and do_signal, over histories of any number of
tasks that call them, fork, exec and exit.

- `lawful_iff`: the lowest pending signal is ignored because of its own mask bit, and handled otherwise, exactly when the mask
  is empty or has that bit (and, if a handler is to run, the frame of the user is accepted and its stack takes the words). The
  code asks with && for a mask that is not 0.
-/
import SinsOs.Arch.Signal
import SinsOs.Core.Lts

namespace SinsOs.Signal

open SinsOs.Bits SinsOs.Core SinsOs.Lib

/-! ## Model -/

def nrSignals : ℕ := 5
def sigUsr1 : ℕ := 1
def sigKill : ℕ := 3
def sigChld : ℕ := 4
def sigUnmask : Word := bit sigKill
def sigRestorerNull : Word := 0xFFFFFFFF

/-- the fields of task_struct that signals use; a handler 0 is NULL -/
structure Task where
  pid : Word
  kthread : Bool
  zombie : Bool
  parent : ℕ
  signal : Word
  sigMask : Word
  sigFn : ℕ → Word
  sigRestorer : Word

/-- the tasks in the order of the pid lists -/
structure Sys where
  tasks : List ℕ
  task : ℕ → Task

def Sys.setTask (s : Sys) (t : ℕ) (x : Task) : Sys := { s with task := Function.update s.task t x }

def getTaskByPid (s : Sys) (pid : Word) : Option ℕ := s.tasks.find? fun t => (s.task t).pid = pid

def sysSigaction (x : Task) (signal : ℕ) (sHandler : Word) : ℤ × Task :=
  if signal ≥ nrSignals then (-error, x)
  else if sHandler ≥ pageOffset then (-error, x)
  else if bit signal &&& sigUnmask ≠ 0 then (-error, x)
  else (success, { x with sigFn := Function.update x.sigFn signal sHandler })

def sysSigmask (x : Task) (signal : ℕ) (mask : Bool) : ℤ × Task :=
  if signal ≥ nrSignals then (-error, x)
  else if bit signal &&& sigUnmask ≠ 0 then (-error, x)
  else if mask then (success, { x with sigMask := setBit x.sigMask signal })
  else (success, { x with sigMask := clearBit x.sigMask signal })

def sysKill (s : Sys) (pid : Word) (signal : ℕ) : ℤ × Sys :=
  match getTaskByPid s pid with
  | none => (-error, s)
  | some t =>
    if (s.task t).kthread then (-error, s)
    else if signal ≥ nrSignals then (-error, s)
    else (success, s.setTask t { s.task t with signal := setBit (s.task t).signal signal })

/-- sys_exit, which does not return -/
def sysExit (s : Sys) (t : ℕ) : Sys :=
  let s := s.setTask t { s.task t with zombie := true }
  if (s.task t).kthread then s else (sysKill s (s.task (s.task t).parent).pid sigChld).2

/-- `a && b` -/
def logicalAnd (a b : Word) : Word := if a ≠ 0 ∧ b ≠ 0 then 1 else 0

/-- what do_signal does: it takes no signal, or ignores i, runs the handler, acts by default, ends a process whose handler
cannot run, or faults on the stack of the process -/
inductive Action
  | idle
  | ignore (i : ℕ)
  | run (i : ℕ) (sHandler : Word)
  | default (i : ℕ)
  | bad (i : ℕ)
  | fault (i : ℕ)
deriving DecidableEq, Repr

def Action.exits : Action → Bool
  | .default i => i ≠ sigChld
  | .bad _ | .fault _ => true
  | .idle | .ignore _ | .run _ _ => false

structure Delivered where
  action : Action
  task : Task
  regs : PtRegs
  stores : List (Word × Word)

inductive Bug
  | kthread
  | noSignal
deriving DecidableEq, Repr

/-- `mapped` is the part of the memory of the process that can be written -/
def doSignal (mapped : Word → Bool) (curr : Task) (regs : PtRegs) : Except Bug Delivered :=
  if curr.signal = 0 then .ok ⟨.idle, curr, regs, []⟩
  else if archFromKernel regs then .ok ⟨.idle, curr, regs, []⟩
  else if curr.kthread then .error .kthread
  else if curr.sigRestorer ≠ sigRestorerNull then .ok ⟨.idle, curr, regs, []⟩
  else
    match (List.range nrSignals).find? fun i => testBit curr.signal i with
    | none => .error .noSignal
    | some i =>
      -- the label finish
      let finish := fun (x : Task) => { x with signal := clearBit x.signal i }
      if logicalAnd (logicalAnd curr.sigMask (bit i)) (~~~ sigUnmask) ≠ 0 then .ok ⟨.ignore i, finish curr, regs, []⟩
      else if curr.sigFn i = 0 then
        -- def_sig_handler ignores SIGCHLD and does not return for the others
        .ok ⟨.default i, if i = sigChld then finish curr else curr, regs, []⟩
      else if archCheckUserRegs regs ≥ 0 then
        match setupSigHandler mapped regs (curr.sigFn i) with
        | .error stores => .ok ⟨.fault i, curr, regs, stores⟩
        | .ok (f, regs') =>
          let curr := { curr with sigRestorer := f.esp }
          if f.esp = sigRestorerNull then .ok ⟨.bad i, curr, regs', f.stores⟩
          else .ok ⟨.run i (curr.sigFn i), finish curr, regs', f.stores⟩
      else .ok ⟨.bad i, curr, regs, []⟩

/-- sys_sigreturn with the registers that it finds on the stack of the user, or none if the process exits -/
def sysSigreturn (curr : Task) (restored : PtRegs) : Option Task :=
  if curr.sigRestorer = sigRestorerNull then none
  else if archCheckUserRegs restored < 0 then none
  else some { curr with sigRestorer := sigRestorerNull }

/-- the signal fields of a new task in kernel_thread -/
def newTask (s : Sys) (t : ℕ) (pid : Word) : Task where
  pid := pid
  kthread := true
  zombie := false
  parent := t
  signal := 0
  sigMask := (s.task t).sigMask
  sigFn := fun _ => 0
  sigRestorer := sigRestorerNull

inductive Op
  | sigaction (t signal : ℕ) (sHandler : Word)
  | sigmask (t signal : ℕ) (mask : Bool)
  | kill (t : ℕ) (pid : Word) (signal : ℕ)
  | doSignal (t : ℕ) (regs : PtRegs) (mapped : Word → Bool)
  | sigreturn (t : ℕ) (restored : PtRegs)
  | kernelThread (t new : ℕ) (pid : Word)
  | userMode (t : ℕ)
  | exit (t : ℕ)
  | release (t : ℕ)

/-- the task that runs -/
def Op.task : Op → ℕ
  | .sigaction t _ _ | .sigmask t _ _ | .kill t _ _ | .doSignal t _ _ | .sigreturn t _ | .kernelThread t _ _ | .userMode t
  | .exit t | .release t => t

/-- a zombie runs no more, and only a zombie is released; a new task is not in the list -/
def legal (s : Sys) : Op → Prop
  | .release t => t ∈ s.tasks ∧ (s.task t).zombie = true
  | .kernelThread t new _ => t ∈ s.tasks ∧ (s.task t).zombie = false ∧ new ∉ s.tasks
  | o => o.task ∈ s.tasks ∧ (s.task o.task).zombie = false

def step (s : Sys) : Op → Except Bug Sys
  | .sigaction t signal sHandler => .ok (s.setTask t (sysSigaction (s.task t) signal sHandler).2)
  | .sigmask t signal mask => .ok (s.setTask t (sysSigmask (s.task t) signal mask).2)
  | .kill _ pid signal => .ok (sysKill s pid signal).2
  | .doSignal t regs mapped => do
    let d ← doSignal mapped (s.task t) regs
    let s := s.setTask t d.task
    pure (if d.action.exits then sysExit s t else s)
  | .sigreturn t restored =>
    match sysSigreturn (s.task t) restored with
    | none => .ok (sysExit s t)
    | some x => .ok (s.setTask t x)
  | .kernelThread t new pid => .ok ({ s with tasks := new :: s.tasks }.setTask new (newTask s t pid))
  | .userMode t => .ok (s.setTask t { s.task t with kthread := false })
  | .exit t => .ok (sysExit s t)
  | .release t => .ok { s with tasks := s.tasks.erase t }

/-- the signal fields as init_task leaves them -/
def Fresh (x : Task) : Prop := x.signal = 0 ∧ x.sigMask = 0 ∧ (∀ i, x.sigFn i = 0) ∧ x.sigRestorer = sigRestorerNull

def system : Lts Sys Op where
  start := fun s => ∀ t, Fresh (s.task t)
  step := fun s o s' => legal s o ∧ step s o = .ok s'

variable {s s' : Sys} {x y : Task} {regs : PtRegs} {mapped : Word → Bool} {i t k : ℕ}

/-! ## The words of a task -/

/-- a word with bits of signals only -/
def OfSignals (w : Word) : Prop := ∀ j < 32, testBit w j = true → j < nrSignals

/-- SIGKILL is never masked and has no handler, and handlers are in the memory of the user -/
structure TaskOk (x : Task) : Prop where
  signal : OfSignals x.signal
  mask : testBit x.sigMask sigKill = false
  kill : x.sigFn sigKill = 0
  handlers : ∀ i, x.sigFn i < pageOffset

theorem OfSignals.zero : OfSignals 0 := fun j _ hj => nomatch (testBit_zero j).symm.trans hj

theorem OfSignals.set {w : Word} (h : OfSignals w) (hi : i < nrSignals) : OfSignals (setBit w i) := by
  intro j hj hbit
  have hi32 : i < 32 := lt_trans hi (by decide)
  rw [testBit_setBit hi32 hj, Bool.or_eq_true, decide_eq_true_eq] at hbit
  rcases hbit with rfl | hbit
  · exact hi
  · exact h j hj hbit

theorem OfSignals.clear {w : Word} (h : OfSignals w) (hi : i < nrSignals) : OfSignals (clearBit w i) := by
  intro j hj hbit
  have hi32 : i < 32 := lt_trans hi (by decide)
  rw [testBit_clearBit hi32 hj, Bool.and_eq_true] at hbit
  exact h j hj hbit.2

/-- a signal that may be masked is not SIGKILL -/
theorem maskable_iff (hi : i < nrSignals) : ¬ bit i &&& sigUnmask ≠ 0 ↔ i ≠ sigKill := by
  rw [nrSignals] at hi
  interval_cases i
  all_goals decide

theorem TaskOk.fresh (h : Fresh x) : TaskOk x := by
  obtain ⟨h1, h2, h3, -⟩ := h
  refine ⟨h1 ▸ .zero, ?_, h3 sigKill, fun i => ?_⟩
  · rw [h2]
    exact testBit_zero _
  · rw [h3 i]
    decide

theorem TaskOk.sigaction (h : TaskOk x) (signal : ℕ) (sHandler : Word) : TaskOk (sysSigaction x signal sHandler).2 := by
  rw [sysSigaction]
  split_ifs with h1 h2 h3
  · exact h
  · exact h
  · exact h
  · have hne := (maskable_iff (not_le.1 h1)).1 h3
    refine ⟨h.signal, h.mask, ?_, fun i => ?_⟩
    · show Function.update x.sigFn signal sHandler sigKill = 0
      rw [Function.update_of_ne hne.symm]
      exact h.kill
    · show Function.update x.sigFn signal sHandler i < pageOffset
      by_cases hi : i = signal
      · rw [hi, Function.update_self]
        exact BitVec.not_le.1 h2
      · rw [Function.update_of_ne hi]
        exact h.handlers i

theorem TaskOk.sigmask (h : TaskOk x) (signal : ℕ) (mask : Bool) : TaskOk (sysSigmask x signal mask).2 := by
  rw [sysSigmask]
  split_ifs with h1 h2 h3
  · exact h
  · exact h
  · have hne := (maskable_iff (not_le.1 h1)).1 h2
    have h32 : signal < 32 := lt_trans (not_le.1 h1) (by decide)
    refine ⟨h.signal, ?_, h.kill, h.handlers⟩
    show testBit (setBit x.sigMask signal) sigKill = false
    rw [testBit_setBit h32 (by decide), h.mask, Bool.or_false, decide_eq_false_iff_not]
    exact hne.symm
  · have h32 : signal < 32 := lt_trans (not_le.1 h1) (by decide)
    refine ⟨h.signal, ?_, h.kill, h.handlers⟩
    show testBit (clearBit x.sigMask signal) sigKill = false
    rw [testBit_clearBit h32 (by decide), h.mask, Bool.and_false]

/-- a task whose signal word and handlers change in this way only -/
theorem TaskOk.signal_word (h : TaskOk x) (hy : OfSignals y.signal) (hmask : y.sigMask = x.sigMask)
    (hfn : y.sigFn = x.sigFn) : TaskOk y :=
  ⟨hy, hmask ▸ h.mask, by rw [hfn]; exact h.kill, fun i => by rw [hfn]; exact h.handlers i⟩

/-- **The invariant.** -/
def SigOk (s : Sys) : Prop := ∀ t, TaskOk (s.task t)

theorem SigOk.setTask (h : SigOk s) (hx : TaskOk x) (t : ℕ) : SigOk (s.setTask t x) := by
  intro u
  show TaskOk (Function.update s.task t x u)
  by_cases hu : u = t
  · rw [hu, Function.update_self]
    exact hx
  · rw [Function.update_of_ne hu]
    exact h u

theorem SigOk.kill (h : SigOk s) (pid : Word) (signal : ℕ) : SigOk (sysKill s pid signal).2 := by
  rw [sysKill]
  cases getTaskByPid s pid with
  | none => exact h
  | some t =>
    dsimp only
    split_ifs with h1 h2
    · exact h
    · exact h
    · have hset : OfSignals (setBit (s.task t).signal signal) := (h t).signal.set (not_le.1 h2)
      exact h.setTask (x := { s.task t with signal := setBit (s.task t).signal signal }) ((h t).signal_word hset rfl rfl) t

theorem SigOk.exit (h : SigOk s) (t : ℕ) : SigOk (sysExit s t) := by
  have hx : TaskOk { s.task t with zombie := true } := (h t).signal_word (h t).signal rfl rfl
  have hz : SigOk (s.setTask t { s.task t with zombie := true }) := h.setTask hx t
  rw [sysExit]
  dsimp only
  split_ifs
  · exact hz
  · exact hz.kill _ _

/-! ## do_signal -/

/-- i is the lowest bit of w -/
def Lowest (w : Word) (i : ℕ) : Prop := testBit w i = true ∧ ∀ j < i, testBit w j = false

theorem exists_bit {w : Word} (h : w ≠ 0) : ∃ j < 32, testBit w j = true := by
  by_contra hno
  push Not at hno
  refine h (BitVec.eq_of_getLsbD_eq fun j hj => ?_)
  have hbit := hno j hj
  rw [testBit_eq hj] at hbit
  simpa using hbit

/-- the loop of do_signal finds the lowest signal -/
theorem find_lowest (h : OfSignals x.signal) (hpend : x.signal ≠ 0) :
    ∃ i < nrSignals, Lowest x.signal i ∧ (List.range nrSignals).find? (fun i => testBit x.signal i) = some i := by
  obtain ⟨j, hj, hbit⟩ := exists_bit hpend
  have hlt := h j hj hbit
  cases hf : (List.range nrSignals).find? (fun i => testBit x.signal i) with
  | none =>
    have hnone := List.find?_eq_none.1 hf j (List.mem_range.2 hlt)
    exact absurd hbit hnone
  | some i =>
    obtain ⟨h1, h2, h3⟩ := List.find?_range_eq_some.1 hf
    exact ⟨i, List.mem_range.1 h2, ⟨h1, fun j hj => by simpa using h3 j hj⟩, rfl⟩

/-- the test of the mask, whatever the signal is -/
theorem mask_test (mask : Word) (hi : i < nrSignals) :
    logicalAnd (logicalAnd mask (bit i)) (~~~ sigUnmask) ≠ 0 ↔ mask ≠ 0 := by
  have hbit : bit i ≠ 0 := by
    rw [nrSignals] at hi
    interval_cases i
    all_goals decide
  have hunmask : ~~~ sigUnmask ≠ 0 := by decide
  by_cases h : mask = 0
  · have h1 : logicalAnd mask (bit i) = 0 := if_neg fun hno => hno.1 h
    have h2 : logicalAnd (logicalAnd mask (bit i)) (~~~ sigUnmask) = 0 := if_neg fun hno => hno.1 h1
    exact iff_of_false (not_not.2 h2) (not_not.2 h)
  · have h1 : logicalAnd mask (bit i) = 1 := if_pos ⟨h, hbit⟩
    have h2 : logicalAnd (logicalAnd mask (bit i)) (~~~ sigUnmask) = 1 := if_pos ⟨by rw [h1]; decide, hunmask⟩
    refine iff_of_true ?_ h
    rw [h2]
    decide

/-- what do_signal does with the signal i of a user process that is in no handler -/
structure Takes (mapped : Word → Bool) (x : Task) (regs : PtRegs) (i : ℕ) (d : Delivered) : Prop where
  ok : doSignal mapped x regs = .ok d
  masked : x.sigMask ≠ 0 → d.action = .ignore i
  default : x.sigMask = 0 → x.sigFn i = 0 → d.action = .default i
  run : x.sigMask = 0 → x.sigFn i ≠ 0 → archCheckUserRegs regs = 0 → FrameMapped mapped regs.esp → regs.esp ≠ 51 →
    d.action = .run i (x.sigFn i)
  bad : x.sigMask = 0 → x.sigFn i ≠ 0 →
      (archCheckUserRegs regs ≠ 0 ∨ ¬ FrameMapped mapped regs.esp ∨ regs.esp = 51) →
    d.action = .bad i ∨ d.action = .fault i
  task : OfSignals d.task.signal ∧ d.task.sigMask = x.sigMask ∧ d.task.sigFn = x.sigFn

theorem check_cases (regs : PtRegs) : archCheckUserRegs regs = 0 ∧ archCheckUserRegs regs ≥ 0 ∨
    archCheckUserRegs regs ≠ 0 ∧ ¬ archCheckUserRegs regs ≥ 0 := by
  rw [archCheckUserRegs]
  split_ifs
  · exact Or.inr ⟨by decide, by decide⟩
  · exact Or.inl ⟨rfl, le_rfl⟩

theorem doSignal_takes (h : TaskOk x) (hpend : x.signal ≠ 0) (hregs : archFromKernel regs = false) (huser : x.kthread = false)
    (hidle : x.sigRestorer = sigRestorerNull) : ∃ i < nrSignals, Lowest x.signal i ∧ ∃ d, Takes mapped x regs i d := by
  obtain ⟨i, hi, hlow, hfind⟩ := find_lowest h.signal hpend
  have hclear : OfSignals (clearBit x.signal i) := h.signal.clear hi
  have hdo : doSignal mapped x regs = if x.sigMask ≠ 0 then
      .ok ⟨.ignore i, { x with signal := clearBit x.signal i }, regs, []⟩
      else if x.sigFn i = 0 then
        .ok ⟨.default i, if i = sigChld then { x with signal := clearBit x.signal i } else x, regs, []⟩
      else if archCheckUserRegs regs ≥ 0 then
        match setupSigHandler mapped regs (x.sigFn i) with
        | .error stores => .ok ⟨.fault i, x, regs, stores⟩
        | .ok (f, regs') =>
          if f.esp = sigRestorerNull then .ok ⟨.bad i, { x with sigRestorer := f.esp }, regs', f.stores⟩
          else .ok ⟨.run i (x.sigFn i), { x with sigRestorer := f.esp, signal := clearBit x.signal i }, regs', f.stores⟩
      else .ok ⟨.bad i, x, regs, []⟩ := by
    have hkernel : ¬ archFromKernel regs = true := Bool.eq_false_iff.1 hregs
    have hthread : ¬ x.kthread = true := Bool.eq_false_iff.1 huser
    rw [doSignal, if_neg hpend, if_neg hkernel, if_neg hthread, if_neg (not_not.2 hidle), hfind]
    simp only [mask_test _ hi]
  have hwrap : (archSetupSigHandler regs (x.sigFn i)).1.esp = sigRestorerNull ↔ regs.esp = 51 := by
    rw [setup_esp]
    constructor
    · intro he
      have hsize : frameSize.toNat = 52 := rfl
      have hnull : sigRestorerNull.toNat = 0xFFFFFFFF := rfl
      bv_omega
    · intro he
      rw [he]
      rfl
  refine ⟨i, hi, hlow, ?_⟩
  by_cases hmask : x.sigMask = 0
  · rw [if_neg (not_not.2 hmask)] at hdo
    by_cases hfn : x.sigFn i = 0
    · rw [if_pos hfn] at hdo
      refine ⟨_, hdo, fun hne => absurd hmask hne, fun _ _ => rfl, fun _ hne => absurd hfn hne,
        fun _ hne => absurd hfn hne, ?_⟩
      dsimp only
      split_ifs
      · exact ⟨hclear, rfl, rfl⟩
      · exact ⟨h.signal, rfl, rfl⟩
    · rw [if_neg hfn] at hdo
      rcases check_cases regs with ⟨hzero, hpos⟩ | ⟨hzero, hpos⟩
      · rw [if_pos hpos, setupSigHandler_eq] at hdo
        by_cases hmap : FrameMapped mapped regs.esp
        · rw [if_pos hmap] at hdo
          dsimp only at hdo
          by_cases hesp : regs.esp = 51
          · rw [if_pos (hwrap.2 hesp)] at hdo
            exact ⟨_, hdo, fun hne => absurd hmask hne, fun _ he => absurd he hfn, fun _ _ _ _ hne => absurd hesp hne,
              fun _ _ _ => Or.inl rfl, h.signal, rfl, rfl⟩
          · rw [if_neg fun he => hesp (hwrap.1 he)] at hdo
            refine ⟨_, hdo, fun hne => absurd hmask hne, fun _ he => absurd he hfn, fun _ _ _ _ _ => rfl, fun _ _ hbad => ?_,
              hclear, rfl, rfl⟩
            rcases hbad with hbad | hbad | hbad
            · exact absurd hzero hbad
            · exact absurd hmap hbad
            · exact absurd hbad hesp
        · rw [if_neg hmap] at hdo
          exact ⟨_, hdo, fun hne => absurd hmask hne, fun _ he => absurd he hfn, fun _ _ _ he => absurd he hmap,
            fun _ _ _ => Or.inr rfl, h.signal, rfl, rfl⟩
      · rw [if_neg hpos] at hdo
        exact ⟨_, hdo, fun hne => absurd hmask hne, fun _ he => absurd he hfn, fun _ _ he => absurd he hzero,
          fun _ _ _ => Or.inl rfl, h.signal, rfl, rfl⟩
  · rw [if_pos hmask] at hdo
    exact ⟨_, hdo, fun _ => rfl, fun he => absurd he hmask, fun he => absurd he hmask, fun he => absurd he hmask,
      hclear, rfl, rfl⟩

/-- do_signal changes no mask and no handler -/
theorem TaskOk.doSignal {d : Delivered} (h : TaskOk x) (hd : Signal.doSignal mapped x regs = .ok d) : TaskOk d.task := by
  by_cases hpend : x.signal = 0
  · rw [Signal.doSignal, if_pos hpend] at hd
    cases hd
    exact h
  by_cases hregs : archFromKernel regs = true
  · rw [Signal.doSignal, if_neg hpend, if_pos hregs] at hd
    cases hd
    exact h
  by_cases huser : x.kthread = true
  · rw [Signal.doSignal, if_neg hpend, if_neg hregs, if_pos huser] at hd
    cases hd
  by_cases hidle : x.sigRestorer = sigRestorerNull
  · obtain ⟨i, -, -, d', htakes⟩ := @doSignal_takes x regs mapped h hpend (by simpa using hregs) (by simpa using huser) hidle
    cases hd.symm.trans htakes.ok
    obtain ⟨h1, h2, h3⟩ := htakes.task
    exact h.signal_word h1 h2 h3
  · rw [Signal.doSignal, if_neg hpend, if_neg hregs, if_neg huser, if_pos hidle] at hd
    cases hd
    exact h

/-! ## Every history -/

theorem step_ok (h : SigOk s) {o : Op} (hst : step s o = .ok s') : SigOk s' := by
  cases o with
  | sigaction t signal sHandler =>
    cases hst
    exact h.setTask ((h t).sigaction signal sHandler) t
  | sigmask t signal mask =>
    cases hst
    exact h.setTask ((h t).sigmask signal mask) t
  | kill t pid signal =>
    cases hst
    exact h.kill pid signal
  | doSignal t regs mapped =>
    rw [step] at hst
    cases hd : doSignal mapped (s.task t) regs with
    | error e =>
      rw [hd] at hst
      cases hst
    | ok d =>
      rw [hd] at hst
      cases hst
      have hset : SigOk (s.setTask t d.task) := h.setTask ((h t).doSignal hd) t
      split_ifs
      · exact hset.exit t
      · exact hset
  | sigreturn t restored =>
    rw [step] at hst
    cases hr : sysSigreturn (s.task t) restored with
    | none =>
      rw [hr] at hst
      cases hst
      exact h.exit t
    | some x =>
      rw [hr] at hst
      cases hst
      rw [sysSigreturn] at hr
      split_ifs at hr
      cases hr
      have hx : TaskOk { s.task t with sigRestorer := sigRestorerNull } := (h t).signal_word (h t).signal rfl rfl
      exact h.setTask hx t
  | kernelThread t new pid =>
    cases hst
    have hnew : TaskOk (newTask s t pid) := ⟨.zero, (h t).mask, rfl, fun _ => show (0 : Word) < pageOffset by decide⟩
    exact SigOk.setTask (s := { s with tasks := new :: s.tasks }) h hnew new
  | userMode t =>
    cases hst
    have hx : TaskOk { s.task t with kthread := false } := (h t).signal_word (h t).signal rfl rfl
    exact h.setTask hx t
  | exit t =>
    cases hst
    exact h.exit t
  | release t =>
    cases hst
    exact h

theorem reachable_ok (h : system.Reach s) : SigOk s :=
  Lts.Reach.inv (M := system) (P := SigOk) (fun _ h0 t => .fresh (h0 t)) (fun _ _ _ hs hst => step_ok hs hst.2) h

/-- the lowest pending signal is ignored for its own mask bit only, and handled otherwise -/
def Lawful (mapped : Word → Bool) (x : Task) (regs : PtRegs) : Prop :=
  ∃ i d, Lowest x.signal i ∧ doSignal mapped x regs = .ok d ∧
    (d.action = .ignore i ↔ testBit x.sigMask i = true ∧ testBit sigUnmask i = false) ∧
    (d.action = .ignore i ∨ d.action = if x.sigFn i = 0 then .default i else .run i (x.sigFn i))

/-- the mask is empty, and a handler can run on the stack of the user, or the mask has the bit of i -/
def Agrees (mapped : Word → Bool) (x : Task) (regs : PtRegs) (i : ℕ) : Prop :=
  if x.sigMask = 0 then x.sigFn i ≠ 0 → archCheckUserRegs regs = 0 ∧ FrameMapped mapped regs.esp ∧ regs.esp ≠ 51
  else testBit x.sigMask i = true

theorem Lowest.unique {w : Word} {j : ℕ} (hi : Lowest w i) (hj : Lowest w j) : i = j := by
  rcases lt_trichotomy i j with h | h | h
  · exact absurd hi.1 (by rw [hj.2 i h]; exact Bool.false_ne_true)
  · exact h
  · exact absurd hj.1 (by rw [hi.2 j h]; exact Bool.false_ne_true)

/-- **The mask.** For every history and every user process that is in no handler and has a signal pending: do_signal takes
the lowest one, and does with it what its mask bit and its handler say exactly if the mask is empty (and, for a handler that is
to run, the frame of the user is accepted and its thirteen words can be written) or has the bit of that signal. -/
theorem lawful_iff (h : system.Reach s) (huser : (s.task k).kthread = false)
    (hidle : (s.task k).sigRestorer = sigRestorerNull) (hpend : (s.task k).signal ≠ 0) (hregs : archFromKernel regs = false) :
    ∃ i, Lowest (s.task k).signal i ∧ (Lawful mapped (s.task k) regs ↔ Agrees mapped (s.task k) regs i) := by
  have hok := reachable_ok h k
  obtain ⟨i, hi, hlow, d, htakes⟩ := @doSignal_takes _ _ mapped hok hpend hregs huser hidle
  have hlawful : Lawful mapped (s.task k) regs ↔
      (d.action = .ignore i ↔ testBit (s.task k).sigMask i = true ∧ testBit sigUnmask i = false) ∧
      (d.action = .ignore i ∨ d.action = if (s.task k).sigFn i = 0 then .default i else .run i ((s.task k).sigFn i)) := by
    constructor
    · rintro ⟨j, d', hj, hd, hmask, haction⟩
      obtain rfl := hj.unique hlow
      cases hd.symm.trans htakes.ok
      exact ⟨hmask, haction⟩
    · intro ⟨hmask, haction⟩
      exact ⟨i, d, hlow, htakes.ok, hmask, haction⟩
  refine ⟨i, hlow, hlawful.trans ?_⟩
  rw [Agrees]
  by_cases hmask : (s.task k).sigMask = 0
  · rw [if_pos hmask]
    have hbit : testBit (s.task k).sigMask i = false := by
      rw [hmask]
      exact testBit_zero i
    by_cases hfn : (s.task k).sigFn i = 0
    · rw [htakes.default hmask hfn, if_pos hfn, hbit]
      simp [hfn]
    · rw [if_neg hfn, hbit]
      by_cases hgood : archCheckUserRegs regs = 0 ∧ FrameMapped mapped regs.esp ∧ regs.esp ≠ 51
      · rw [htakes.run hmask hfn hgood.1 hgood.2.1 hgood.2.2]
        refine iff_of_true ⟨iff_of_false nofun fun hno => Bool.false_ne_true hno.1, Or.inr rfl⟩ fun _ => hgood
      · have hbad : archCheckUserRegs regs ≠ 0 ∨ ¬ FrameMapped mapped regs.esp ∨ regs.esp = 51 := by
          by_contra hno
          rw [not_or, not_or, not_not, not_not] at hno
          exact hgood hno
        refine iff_of_false (fun hno => ?_) fun hall => hgood (hall hfn)
        rcases htakes.bad hmask hfn hbad with haction | haction
        · rw [haction] at hno
          rcases hno.2 with hno | hno
          · cases hno
          · cases hno
        · rw [haction] at hno
          rcases hno.2 with hno | hno
          · cases hno
          · cases hno
  · rw [if_neg hmask, htakes.masked hmask]
    have hunmask : testBit (s.task k).sigMask i = true → testBit sigUnmask i = false := by
      intro hbit
      have hne : i ≠ sigKill := fun he => by
        rw [he, hok.mask] at hbit
        cases hbit
      rw [nrSignals] at hi
      interval_cases i
      all_goals first | rfl | exact absurd rfl hne
    constructor
    · intro hboth
      exact (hboth.1.1 rfl).1
    · intro hbit
      exact ⟨iff_of_true rfl ⟨hbit, hunmask hbit⟩, Or.inl rfl⟩

/-- the process 0 with pid 1, and nothing else -/
def alone : Sys := ⟨[0], fun _ => ⟨1, false, false, 0, 0, 0, fun _ => 0, sigRestorerNull⟩⟩

def afterKill (s : Sys) : Sys := (sysKill s 1 sigKill).2

theorem alone_reached : system.Reach alone := .start fun _ => ⟨rfl, rfl, fun _ => rfl, rfl⟩

/-- a stack with one page, from 0x1000 on -/
def stackPage (a : Word) : Bool := 0x1000 ≤ a ∧ a < 0x2000

/-- the process with a handler for SIGUSR1 at 0x400, and the signal pending -/
def handling : Sys := (sysKill (alone.setTask 0 (sysSigaction (alone.task 0) sigUsr1 0x400).2) 1 sigUsr1).2

theorem handling_reached : system.Reach handling := by
  have hset : system.Reach (alone.setTask 0 (sysSigaction (alone.task 0) sigUsr1 0x400).2) :=
    .step alone_reached (e := .sigaction 0 sigUsr1 0x400) ⟨⟨by decide, rfl⟩, rfl⟩
  exact .step hset (e := .kill 0 1 sigUsr1) ⟨⟨by decide, rfl⟩, rfl⟩

/-- at the top of the page the handler runs, at its bottom the process is killed -/
theorem lawful_stack : Lawful stackPage (handling.task 0) (userRegs 0x2000) ∧
    ¬ Lawful stackPage (handling.task 0) (userRegs 0x1020) := by
  obtain ⟨i, hi, hlawful⟩ := @lawful_iff handling (userRegs 0x2000) stackPage 0 handling_reached (by decide)
    (by decide) (by decide) (by decide)
  obtain ⟨j, hj, hfault⟩ := @lawful_iff handling (userRegs 0x1020) stackPage 0 handling_reached (by decide)
    (by decide) (by decide) (by decide)
  have hlow : Lowest (handling.task 0).signal sigUsr1 := ⟨by decide, by decide⟩
  obtain rfl := hi.unique hlow
  obtain rfl := hj.unique hlow
  refine ⟨hlawful.2 ?_, fun hno => ?_⟩
  · rw [Agrees, if_pos (by decide)]
    exact fun _ => ⟨by decide, by decide, by decide⟩
  · have hagrees := hfault.1 hno
    rw [Agrees, if_pos (by decide)] at hagrees
    exact absurd (hagrees (by decide)).2.1 (by decide)

/-- after sigmask(SIGUSR1, 1) a SIGKILL is discarded -/
theorem kill_discarded : ∃ s d, system.Reach s ∧ (s.task 0).kthread = false ∧ (s.task 0).sigRestorer = sigRestorerNull ∧
    Lowest (s.task 0).signal sigKill ∧ testBit (s.task 0).sigMask sigKill = false ∧
    doSignal (fun _ => true) (s.task 0) (userRegs 0x1000) = .ok d ∧ d.action = .ignore sigKill ∧ d.task.signal = 0 := by
  have hmask : system.Reach (alone.setTask 0 (sysSigmask (alone.task 0) sigUsr1 true).2) :=
    .step alone_reached (e := .sigmask 0 sigUsr1 true) ⟨⟨by decide, rfl⟩, rfl⟩
  have hkill : system.Reach (afterKill (alone.setTask 0 (sysSigmask (alone.task 0) sigUsr1 true).2)) :=
    .step hmask (e := .kill 0 1 sigKill) ⟨⟨by decide, rfl⟩, rfl⟩
  exact ⟨_, _, hkill, by decide, by decide, ⟨by decide, by decide⟩, by decide, rfl, by decide, by decide⟩

end SinsOs.Signal
