/-
The way back from a signal handler: sys_sigreturn (kernel/signal.c) and arch_sig_restore (arch/signal.c) on the words that the
process left on its stack.

- `sigreturn_restores`: if the thirteen words of the frame are as arch_setup_sig_handler stored them, sigreturn puts back the ten
  registers, and each delivered signal has exactly one sigreturn.
- `resumed_safe_iff`: whatever the stack holds, the registers that the process resumes with are those of ring 3 in protected mode
  exactly if the process exits or the saved eflags have VM and NT clear. arch_check_user_regs does not look at these two bits.
-/
import SinsOs.Kernel.Signal

namespace SinsOs.Signal

open SinsOs.Bits SinsOs.Core SinsOs.Lib

/-! ## Model -/

/-- the stack from sig_restorer on; `mem` gives the word at an address of the user -/
def archSigRestore (mem : Word → Word) (sigRestorer : Word) (regs : PtRegs) : PtRegs :=
  let esp := sigRestorer + 12
  { regs with
    esp := mem esp
    eflags := mem (esp + 4)
    eip := mem (esp + 8)
    ebp := mem (esp + 12)
    esi := mem (esp + 16)
    edi := mem (esp + 20)
    edx := mem (esp + 24)
    ecx := mem (esp + 28)
    ebx := mem (esp + 32)
    eax := mem (esp + 36) }

structure Returned where
  task : Task
  regs : PtRegs
  ret : Word

/-- sys_sigreturn on the frame `regs` at the top of the kernel stack, or none if the process exits -/
def sysSigreturnRegs (curr : Task) (mem : Word → Word) (regs : PtRegs) : Option Returned :=
  let restored := archSigRestore mem curr.sigRestorer regs
  (sysSigreturn curr restored).map fun task => ⟨task, restored, restored.eax⟩

/-- the code at an address, if it is `movl $n, %eax; int $0x80`: the number of the system call -/
def systemCallAt (mem : Word → Word) (eip : Word) : Option Word :=
  if mem eip &&& 0xff = 0xb8 ∧ (mem (eip + 4) >>> 8) &&& 0xffff = 0x80cd then some (mem eip >>> 8 ||| mem (eip + 4) <<< 24)
  else none

def eflagsNt : Word := 0x00004000
def eflagsVm : Word := 0x00020000

/-! ## The frame -/

/-- the stores in order -/
theorem setup_stores (regs : PtRegs) (sHandler : Word) : (archSetupSigHandler regs sHandler).1.stores =
    [(regs.esp - 4, regs.eax), (regs.esp - 8, regs.ebx), (regs.esp - 12, regs.ecx), (regs.esp - 16, regs.edx),
      (regs.esp - 20, regs.edi), (regs.esp - 24, regs.esi), (regs.esp - 28, regs.ebp), (regs.esp - 32, regs.eip),
      (regs.esp - 36, regs.eflags), (regs.esp - 40, regs.esp), (regs.esp - 48, retcode.1), (regs.esp - 44, retcode.2),
      (regs.esp - 52, regs.esp - 48)] := by
  simp only [archSetupSigHandler, Frame.push, Frame.store, List.nil_append, List.cons_append, List.cons.injEq, Prod.mk.injEq,
    and_true]
  refine ⟨?_, ?_, ?_, ?_, ?_, ?_, ?_, ?_, ?_, ?_, ?_, ?_, ?_⟩
  all_goals bv_omega

variable {x y : Task} {regs called : PtRegs} {d : Delivered} {mem : Word → Word} {mapped : Word → Bool} {i : ℕ}
  {sHandler : Word}

/-- the memory holds the frame -/
def Intact (mem : Word → Word) (stores : List (Word × Word)) : Prop := ∀ w ∈ stores, mem w.1 = w.2

instance (stores : List (Word × Word)) : Decidable (Intact mem stores) :=
  List.decidableBAll (fun w : Word × Word => mem w.1 = w.2) stores

/-- arch_sig_restore reads each slot that arch_setup_sig_handler wrote -/
theorem restore_setup (h : Intact mem (archSetupSigHandler regs sHandler).1.stores) :
    archSigRestore mem (regs.esp - frameSize) called = { called with
      eax := regs.eax, ebx := regs.ebx, ecx := regs.ecx, edx := regs.edx, edi := regs.edi, esi := regs.esi, ebp := regs.ebp,
      eip := regs.eip, eflags := regs.eflags, esp := regs.esp } := by
  have hslot : ∀ a w, (a, w) ∈ (archSetupSigHandler regs sHandler).1.stores → ∀ b, b = a → mem b = w :=
    fun a w hin b hb => hb ▸ h (a, w) hin
  rw [setup_stores] at hslot
  have hsize : frameSize = 52#32 := rfl
  simp only [archSigRestore, PtRegs.mk.injEq, true_and, and_true]
  refine ⟨?_, ?_, ?_, ?_, ?_, ?_, ?_, ?_, ?_, ?_⟩
  · exact hslot (regs.esp - 8) _ (by simp) _ (by rw [hsize]; bv_omega)
  · exact hslot (regs.esp - 12) _ (by simp) _ (by rw [hsize]; bv_omega)
  · exact hslot (regs.esp - 16) _ (by simp) _ (by rw [hsize]; bv_omega)
  · exact hslot (regs.esp - 20) _ (by simp) _ (by rw [hsize]; bv_omega)
  · exact hslot (regs.esp - 24) _ (by simp) _ (by rw [hsize]; bv_omega)
  · exact hslot (regs.esp - 28) _ (by simp) _ (by rw [hsize]; bv_omega)
  · exact hslot (regs.esp - 4) _ (by simp) _ (by rw [hsize]; bv_omega)
  · exact hslot (regs.esp - 32) _ (by simp) _ (by rw [hsize]; bv_omega)
  · exact hslot (regs.esp - 36) _ (by simp) _ (by rw [hsize]; bv_omega)
  · exact hslot (regs.esp - 40) _ (by simp) _ (by rw [hsize]; bv_omega)

/-- a handler that returns comes to the code of the frame, which calls sigreturn -/
theorem return_calls (h : Intact mem (archSetupSigHandler regs sHandler).1.stores) :
    systemCallAt mem (mem (regs.esp - frameSize)) = some nrSigreturn := by
  rw [setup_stores] at h
  have hsize : frameSize = 52#32 := rfl
  have hret : mem (regs.esp - frameSize) = regs.esp - 48 := h (regs.esp - 52, regs.esp - 48) (by simp)
  have hfirst : mem (regs.esp - 48) = retcode.1 := h (regs.esp - 48, retcode.1) (by simp)
  have hsecond : mem (regs.esp - 48 + 4) = retcode.2 := by
    have haddr : regs.esp - 48 + 4 = regs.esp - 44 := by bv_omega
    rw [haddr]
    exact h (regs.esp - 44, retcode.2) (by simp)
  rw [hret, systemCallAt, hfirst, hsecond]
  decide

/-! ## Delivery and return -/

/-- do_signal has set up the handler of signal i -/
structure Runs (x : Task) (regs : PtRegs) (i : ℕ) (sHandler : Word) (d : Delivered) : Prop where
  idle : x.sigRestorer = sigRestorerNull
  accepted : archCheckUserRegs regs = 0
  task : d.task = { x with sigRestorer := regs.esp - frameSize, signal := clearBit x.signal i }
  stores : d.stores = (archSetupSigHandler regs sHandler).1.stores
  pending : regs.esp - frameSize ≠ sigRestorerNull
  regs : d.regs = { regs with eip := sHandler, esp := regs.esp - frameSize }

/-- what do_signal does to the task, by its action -/
theorem doSignal_cases (h : doSignal mapped x regs = .ok d) :
    (∃ i, d.action = .run i (x.sigFn i) ∧ Runs x regs i (x.sigFn i) d) ∨
      ((∀ i sHandler, d.action ≠ .run i sHandler) ∧ d.task.sigRestorer = x.sigRestorer) := by
  have hregs : ∀ sHandler, (archSetupSigHandler regs sHandler).2 = { regs with eip := sHandler, esp := regs.esp - frameSize } :=
    fun sHandler => congrArg (fun e => { regs with eip := sHandler, esp := e }) (setup_esp regs sHandler)
  by_cases hpend : x.signal = 0
  · rw [doSignal, if_pos hpend] at h
    cases h
    exact Or.inr ⟨fun _ _ => Action.noConfusion, rfl⟩
  by_cases hkernel : archFromKernel regs = true
  · rw [doSignal, if_neg hpend, if_pos hkernel] at h
    cases h
    exact Or.inr ⟨fun _ _ => Action.noConfusion, rfl⟩
  by_cases hthread : x.kthread = true
  · rw [doSignal, if_neg hpend, if_neg hkernel, if_pos hthread] at h
    cases h
  by_cases hidle : x.sigRestorer = sigRestorerNull
  · rw [doSignal, if_neg hpend, if_neg hkernel, if_neg hthread, if_neg (not_not.2 hidle)] at h
    cases hfind : (List.range nrSignals).find? fun i => testBit x.signal i with
    | none =>
      rw [hfind] at h
      cases h
    | some i =>
      rw [hfind] at h
      dsimp only at h
      by_cases hmask : logicalAnd (logicalAnd x.sigMask (bit i)) (~~~ sigUnmask) ≠ 0
      · rw [if_pos hmask] at h
        cases h
        exact Or.inr ⟨fun _ _ => Action.noConfusion, rfl⟩
      rw [if_neg hmask] at h
      by_cases hfn : x.sigFn i = 0
      · rw [if_pos hfn] at h
        cases h
        refine Or.inr ⟨fun _ _ => Action.noConfusion, ?_⟩
        dsimp only
        split_ifs <;> rfl
      rw [if_neg hfn] at h
      rcases check_cases regs with ⟨hzero, hcheck⟩ | ⟨-, hcheck⟩
      · rw [if_pos hcheck, setupSigHandler_eq] at h
        by_cases hmap : FrameMapped mapped regs.esp
        swap
        · rw [if_neg hmap] at h
          cases h
          exact Or.inr ⟨fun _ _ => Action.noConfusion, rfl⟩
        rw [if_pos hmap] at h
        dsimp only at h
        have hesp := setup_esp regs (x.sigFn i)
        by_cases hwrap : (archSetupSigHandler regs (x.sigFn i)).1.esp = sigRestorerNull
        · rw [if_pos hwrap] at h
          cases h
          exact Or.inr ⟨fun _ _ => Action.noConfusion, hwrap.trans hidle.symm⟩
        · rw [if_neg hwrap, hesp] at h
          rw [hesp] at hwrap
          cases h
          exact Or.inl ⟨i, rfl, hidle, hzero, rfl, rfl, hwrap, hregs _⟩
      · rw [if_neg hcheck] at h
        cases h
        exact Or.inr ⟨fun _ _ => Action.noConfusion, rfl⟩
  · rw [doSignal, if_neg hpend, if_neg hkernel, if_neg hthread, if_pos hidle] at h
    cases h
    exact Or.inr ⟨fun _ _ => Action.noConfusion, rfl⟩

/-- a sigreturn that does not end the process -/
theorem sigreturn_some {r : Returned} (h : sysSigreturnRegs x mem regs = some r) :
    r.task = { x with sigRestorer := sigRestorerNull } ∧ r.regs = archSigRestore mem x.sigRestorer regs ∧
    r.ret = r.regs.eax ∧
      archCheckUserRegs r.regs = 0 := by
  obtain ⟨task, ht, rfl⟩ := Option.map_eq_some_iff.1 h
  rw [sysSigreturn] at ht
  split_ifs at ht with hnull hcheck
  cases ht
  exact ⟨rfl, rfl, rfl, (check_cases _).elim And.left fun hno => absurd (not_lt.1 hcheck) hno.2⟩

theorem sigreturn_null (h : x.sigRestorer = sigRestorerNull) (mem : Word → Word) (regs : PtRegs) :
    sysSigreturnRegs x mem regs = none := by
  rw [sysSigreturnRegs, sysSigreturn, if_pos h]
  rfl

/-- **Sigreturn undoes the delivery**, whatever the process has done to its task and its other registers in between. -/
theorem sigreturn_restored (hr : Runs x regs i sHandler d) (hmem : Intact mem d.stores)
    (hy : y.sigRestorer = d.task.sigRestorer) (called : PtRegs) :
    sysSigreturnRegs y mem called = some ⟨{ y with sigRestorer := sigRestorerNull },
      { called with
        eax := regs.eax, ebx := regs.ebx, ecx := regs.ecx, edx := regs.edx, edi := regs.edi, esi := regs.esi, ebp := regs.ebp,
        eip := regs.eip, eflags := regs.eflags, esp := regs.esp }, regs.eax⟩ := by
  rw [hr.stores] at hmem
  have hrestorer : y.sigRestorer = regs.esp - frameSize := by rw [hy, hr.task]
  have hcheck : ¬ archCheckUserRegs (archSigRestore mem (regs.esp - frameSize) called) < 0 := by
    obtain ⟨h1, h2, h3, h4⟩ := (accepted_iff regs).1 hr.accepted
    have hzero : archCheckUserRegs (archSigRestore mem (regs.esp - frameSize) called) = 0 := by
      rw [restore_setup hmem, accepted_iff]
      exact ⟨h1, h2, h3, h4⟩
    rw [hzero]
    decide
  have hnull : ¬ y.sigRestorer = sigRestorerNull := by
    rw [hrestorer]
    exact hr.pending
  rw [sysSigreturnRegs, sysSigreturn, if_neg hnull, hrestorer, if_neg hcheck, restore_setup hmem]
  rfl

/-! ## Every history -/

/-- the task whose handler the operation sets up -/
def delivers (s : Sys) : Op → Option ℕ
  | .doSignal t regs mapped => match doSignal mapped (s.task t) regs with
    | .ok ⟨.run _ _, _, _, _⟩ => some t
    | _ => none
  | _ => none

/-- the task that comes back from a handler with the operation -/
def returns (s : Sys) : Op → Option ℕ
  | .sigreturn t restored => if (sysSigreturn (s.task t) restored).isSome then some t else none
  | _ => none

/-- a history, with the handlers that were set up for each task and its sigreturns -/
structure Tally where
  sys : Sys
  delivered : ℕ → ℕ
  returned : ℕ → ℕ

/-- a new task starts from zero -/
def Tally.next (c : Tally) (o : Op) (sys : Sys) : Tally :=
  match o with
  | .kernelThread _ new _ => ⟨sys, Function.update c.delivered new 0, Function.update c.returned new 0⟩
  | o => ⟨sys, fun t => c.delivered t + if delivers c.sys o = some t then 1 else 0,
      fun t => c.returned t + if returns c.sys o = some t then 1 else 0⟩

def tallied : Lts Tally Op where
  start := fun c => system.start c.sys ∧ ∀ t, c.delivered t = 0 ∧ c.returned t = 0
  step := fun c o c' => ∃ s, system.step c.sys o s ∧ c' = c.next o s

/-- the task is in a handler -/
def InHandler (s : Sys) (t : ℕ) : Prop := (s.task t).sigRestorer ≠ sigRestorerNull

instance (s : Sys) (t : ℕ) : Decidable (InHandler s t) := inferInstanceAs (Decidable (_ ≠ _))

/-- one handler is set up that has not come back, or none -/
def Balanced (c : Tally) : Prop := ∀ t, c.delivered t = c.returned t + if InHandler c.sys t then 1 else 0

variable {c c' : Tally} {s s' : Sys} {o : Op} {t u : ℕ}

theorem restorer_setTask (s : Sys) (t : ℕ) (x : Task) (u : ℕ) : ((s.setTask t x).task u).sigRestorer =
    if u = t then x.sigRestorer else (s.task u).sigRestorer := by
  simp only [Sys.setTask, Function.update_apply]
  split_ifs <;> rfl

theorem restorer_kill (s : Sys) (pid : Word) (signal : ℕ) (u : ℕ) :
    ((sysKill s pid signal).2.task u).sigRestorer = (s.task u).sigRestorer := by
  rw [sysKill]
  cases getTaskByPid s pid with
  | none => rfl
  | some t =>
    dsimp only
    split_ifs
    · rfl
    · rfl
    · rw [restorer_setTask]
      split_ifs with h
      · rw [h]
      · rfl

theorem restorer_exit (s : Sys) (t u : ℕ) : ((sysExit s t).task u).sigRestorer = (s.task u).sigRestorer := by
  have hzombie : ((s.setTask t { s.task t with zombie := true }).task u).sigRestorer = (s.task u).sigRestorer := by
    rw [restorer_setTask]
    split_ifs with h
    · rw [h]
    · rfl
  rw [sysExit]
  dsimp only
  split_ifs
  · exact hzombie
  · rw [restorer_kill, hzombie]

theorem delivers_doSignal {s : Sys} (hd : doSignal mapped (s.task t) regs = .ok d) : delivers s (.doSignal t regs mapped) =
    match d.action with
    | .run _ _ => some t
    | _ => none := by
  rw [delivers, hd]
  obtain ⟨action, task, regs', stores⟩ := d
  cases action <;> rfl

/-- nobody enters or leaves a handler -/
theorem Balanced.same (h : Balanced c) (hd : delivers c.sys o = none) (hr : returns c.sys o = none)
    (hs : ∀ u, (s.task u).sigRestorer = (c.sys.task u).sigRestorer) (ho : ∀ t new pid, o ≠ .kernelThread t new pid) :
    Balanced (c.next o s) := by
  have hnext : c.next o s = ⟨s, c.delivered, c.returned⟩ := by
    cases o with
    | kernelThread t new pid => exact absurd rfl (ho t new pid)
    | _ => simp [Tally.next, hd, hr]
  intro u
  have := h u
  simp only [hnext, InHandler, hs u] at this ⊢
  exact this

/-- **One step keeps the balance.** -/
theorem next_balanced (h : Balanced c) (hst : tallied.step c o c') : Balanced c' := by
  obtain ⟨s, ⟨-, hs⟩, rfl⟩ := hst
  cases o with
  | sigaction t signal sHandler =>
    cases hs
    refine h.same rfl rfl (fun u => ?_) fun _ _ _ => Op.noConfusion
    rw [restorer_setTask, sysSigaction]
    split_ifs with hu <;> first | rfl | rw [hu]
  | sigmask t signal mask =>
    cases hs
    refine h.same rfl rfl (fun u => ?_) fun _ _ _ => Op.noConfusion
    rw [restorer_setTask, sysSigmask]
    split_ifs with hu <;> first | rfl | rw [hu]
  | kill t pid signal =>
    cases hs
    exact h.same rfl rfl (restorer_kill c.sys pid signal) fun _ _ _ => Op.noConfusion
  | userMode t =>
    cases hs
    refine h.same rfl rfl (fun u => ?_) fun _ _ _ => Op.noConfusion
    rw [restorer_setTask]
    split_ifs with hu <;> first | rfl | rw [hu]
  | exit t =>
    cases hs
    exact h.same rfl rfl (restorer_exit c.sys t) fun _ _ _ => Op.noConfusion
  | release t =>
    cases hs
    exact h.same rfl rfl (fun _ => rfl) fun _ _ _ => Op.noConfusion
  | kernelThread t new pid =>
    cases hs
    intro u
    have hu := h u
    simp only [Tally.next, InHandler, restorer_setTask, Function.update_apply] at hu ⊢
    split_ifs at hu ⊢ with h1 h2 <;> simp_all [newTask]
  | doSignal t regs mapped =>
    rw [step] at hs
    cases hd : doSignal mapped (c.sys.task t) regs with
    | error e =>
      rw [hd] at hs
      cases hs
    | ok d =>
      rw [hd] at hs
      cases hs
      obtain ⟨i, haction, hr⟩ | ⟨hno, hsame⟩ := doSignal_cases hd
      · have hin : delivers c.sys (.doSignal t regs mapped) = some t := by rw [delivers_doSignal hd, haction]
        have hstay : d.action.exits = false := by rw [haction]; rfl
        intro u
        have hu := h u
        simp only [Tally.next, hin, hstay, returns, InHandler, restorer_setTask, hr.task, Option.some.injEq, reduceCtorEq,
          Bool.false_eq_true, if_false, add_zero] at hu ⊢
        by_cases hut : u = t
        · subst hut
          simp only [hr.idle, ne_eq, not_true, if_false] at hu
          simp [hu, hr.pending]
        · simp only [if_neg hut, if_neg (Ne.symm hut), add_zero]
          exact hu
      · refine h.same ?_ rfl (fun u => ?_) fun _ _ _ => Op.noConfusion
        · rw [delivers_doSignal hd]
          cases haction : d.action with
          | run i sHandler => exact absurd haction (hno i sHandler)
          | _ => rfl
        · have hset : ((c.sys.setTask t d.task).task u).sigRestorer = (c.sys.task u).sigRestorer := by
            rw [restorer_setTask, hsame]
            split_ifs with hut
            · rw [hut]
            · rfl
          split_ifs
          · rw [restorer_exit, hset]
          · exact hset
  | sigreturn t restored =>
    rw [step] at hs
    cases hr : sysSigreturn (c.sys.task t) restored with
    | none =>
      rw [hr] at hs
      cases hs
      exact h.same rfl (by simp [returns, hr]) (restorer_exit c.sys t) fun _ _ _ => Op.noConfusion
    | some x =>
      rw [hr] at hs
      cases hs
      have hout : returns c.sys (.sigreturn t restored) = some t := by simp [returns, hr]
      rw [sysSigreturn] at hr
      split_ifs at hr with hnull
      cases hr
      intro u
      have hu := h u
      simp only [Tally.next, hout, delivers, InHandler, restorer_setTask, Option.some.injEq, reduceCtorEq, if_false,
        add_zero] at hu ⊢
      by_cases hut : u = t
      · subst hut
        simp only [ne_eq, hnull, not_false_iff, if_true] at hu
        simp [hu]
      · simp only [if_neg hut, if_neg (Ne.symm hut), add_zero]
        exact hu

theorem tallied_balanced (h : tallied.Reach c) : Balanced c := by
  refine Lts.Reach.inv (M := tallied) (P := Balanced) (fun c0 h0 t => ?_) (fun _ _ _ hb hst => next_balanced hb hst) h
  obtain ⟨hfresh, hzero⟩ := h0
  have hnull : ¬ InHandler c0.sys t := not_not_intro (hfresh t).2.2.2
  rw [(hzero t).1, (hzero t).2, if_neg hnull]

/-- **A signal and its sigreturn.** Once do_signal has set up the handler of a signal, and for every task state, stack and
registers at the call in which the frame and sig_restorer are as they were left: a handler that returns comes to a call of
sigreturn, which puts back the ten registers of the frame and touches no segment register. In every history a process has
come back once for each handler that was set up for it, but for the one it is in, and without one sigreturn ends it. -/
theorem sigreturn_restores (hd : doSignal mapped x regs = .ok d) (hrun : d.action = .run i sHandler) (hmem : Intact mem d.stores)
    (hy : y.sigRestorer = d.task.sigRestorer) (called : PtRegs) :
    d.regs = { regs with eip := sHandler, esp := d.task.sigRestorer } ∧
    systemCallAt mem (mem d.regs.esp) = some nrSigreturn ∧
    sysSigreturnRegs y mem called = some ⟨{ y with sigRestorer := sigRestorerNull },
      { called with
        eax := regs.eax, ebx := regs.ebx, ecx := regs.ecx, edx := regs.edx, edi := regs.edi, esi := regs.esi, ebp := regs.ebp,
        eip := regs.eip, eflags := regs.eflags, esp := regs.esp }, regs.eax⟩ ∧
    ∀ c, tallied.Reach c → ∀ t, c.delivered t = c.returned t + (if InHandler c.sys t then 1 else 0) ∧
      (¬ InHandler c.sys t → ∀ mem regs, sysSigreturnRegs (c.sys.task t) mem regs = none) := by
  obtain ⟨j, hj, hr⟩ | ⟨hno, -⟩ := doSignal_cases hd
  · obtain ⟨rfl, hfn⟩ := Action.run.inj (hj.symm.trans hrun)
    rw [hfn] at hr
    refine ⟨?_, ?_, sigreturn_restored hr hmem hy called, fun c hc t => ⟨tallied_balanced hc t, fun hout mem regs => ?_⟩⟩
    · rw [hr.regs, hr.task]
    · rw [hr.regs]
      exact return_calls (hr.stores ▸ hmem)
    · exact sigreturn_null (not_not.1 hout) mem regs
  · exact absurd hrun (hno i sHandler)

/-- a process with a handler for SIGUSR1, which is pending -/
def signalled : Task where
  pid := 1
  kthread := false
  zombie := false
  parent := 0
  signal := bit sigUsr1
  sigMask := 0
  sigFn := fun i => if i = sigUsr1 then 0x400 else 0
  sigRestorer := sigRestorerNull

/-- the memory with the frame on a stack at 0x1000 -/
def framed (a : Word) : Word :=
  ((archSetupSigHandler (userRegs 0x1000) 0x400).1.stores.lookup a).getD 0

/-- do_signal runs its handler, with the frame in that memory -/
theorem signalled_runs : ∃ d, doSignal (fun _ => true) signalled (userRegs 0x1000) = .ok d ∧ d.action = .run sigUsr1 0x400 ∧
    Intact framed d.stores := by
  have hok : (doSignal (fun _ => true) signalled (userRegs 0x1000)).toOption.any
      (fun d => decide (d.action = .run sigUsr1 0x400 ∧ Intact framed d.stores)) = true := by decide +kernel
  cases hd : doSignal (fun _ => true) signalled (userRegs 0x1000) with
  | error b =>
    rw [hd] at hok
    cases hok
  | ok d =>
    rw [hd] at hok
    exact ⟨d, rfl, of_decide_eq_true hok⟩

theorem sigreturn_framed : ∃ d, doSignal (fun _ => true) signalled (userRegs 0x1000) = .ok d ∧
    sysSigreturnRegs d.task framed d.regs = some ⟨{ d.task with sigRestorer := sigRestorerNull }, userRegs 0x1000, 0⟩ := by
  obtain ⟨d, hd, hrun, hmem⟩ := signalled_runs
  obtain ⟨hregs, -, hreturn, -⟩ := sigreturn_restores hd hrun hmem rfl d.regs
  refine ⟨d, hd, hreturn.trans ?_⟩
  rw [hregs]
  rfl

/-! ## Any stack -/

/-- the registers of ring 3 in protected mode, with the segments the process had -/
structure Safe (before after : PtRegs) : Prop where
  code : after.cs = before.cs
  stack : after.ss = before.ss
  data : after.ds = before.ds ∧ after.es = before.es ∧ after.fs = before.fs ∧ after.gs = before.gs
  eip : after.eip < pageOffset
  esp : after.esp ≤ pageOffset
  iopl : after.eflags &&& eflagsIopl = 0
  interrupts : after.eflags &&& eflagsIf ≠ 0
  vm : after.eflags &&& eflagsVm = 0
  nt : after.eflags &&& eflagsNt = 0

/-- sys_sigreturn ends the process: it is in no handler, or arch_check_user_regs refuses what is on the stack -/
def Refused (x : Task) (mem : Word → Word) (regs : PtRegs) : Prop :=
  x.sigRestorer = sigRestorerNull ∨ archCheckUserRegs (archSigRestore mem x.sigRestorer regs) < 0

/-- **What a process can resume with.** For every stack and every call of sys_sigreturn, the process exits or resumes with the
registers of ring 3 in protected mode if and only if it is refused or the saved eflags have VM and NT clear. -/
theorem resumed_safe_iff (x : Task) (mem : Word → Word) (regs : PtRegs) :
    (∀ r, sysSigreturnRegs x mem regs = some r → Safe regs r.regs) ↔
      Refused x mem regs ∨ (mem (x.sigRestorer + 16) &&& eflagsVm = 0 ∧ mem (x.sigRestorer + 16) &&& eflagsNt = 0) := by
  have hflags : (archSigRestore mem x.sigRestorer regs).eflags = mem (x.sigRestorer + 16) := by
    have haddr : x.sigRestorer + 12 + 4 = x.sigRestorer + 16 := by bv_omega
    exact congrArg mem haddr
  rw [← hflags]
  constructor
  · intro h
    by_cases hrefused : Refused x mem regs
    · exact Or.inl hrefused
    · obtain ⟨hnull, hcheck⟩ := not_or.1 hrefused
      have hsafe := h ⟨{ x with sigRestorer := sigRestorerNull }, archSigRestore mem x.sigRestorer regs, _⟩ (by
        rw [sysSigreturnRegs, sysSigreturn, if_neg hnull, if_neg hcheck]
        rfl)
      exact Or.inr ⟨hsafe.vm, hsafe.nt⟩
  · intro h r hr
    obtain ⟨-, hregs, -, haccepted⟩ := sigreturn_some hr
    obtain ⟨hesp, heip, hiopl, hif⟩ := (accepted_iff _).1 haccepted
    have hbits := h.resolve_left fun hrefused => by
      rw [sysSigreturnRegs, sysSigreturn] at hr
      rcases hrefused with hnull | hcheck
      · rw [if_pos hnull] at hr
        cases hr
      · rw [if_pos hcheck] at hr
        split_ifs at hr <;> cases hr
    rw [← hregs] at hbits
    refine ⟨?_, ?_, ⟨?_, ?_, ?_, ?_⟩, heip, hesp, hiopl, hif, hbits.1, hbits.2⟩
    all_goals rw [hregs, archSigRestore]

/-- the handler has set VM in the saved eflags -/
def vmStack (a : Word) : Word := if a = 0xFDC then eflagsIf ||| eflagsVm else 0

/-- The process goes on in virtual 8086 mode. -/
theorem resumed_vm : ∃ x r, x.sigRestorer = 0xFCC ∧ sysSigreturnRegs x vmStack (userRegs 0x1000) = some r ∧
    r.regs.eflags &&& eflagsVm ≠ 0 ∧ ¬ Safe (userRegs 0x1000) r.regs :=
  ⟨{ signalled with sigRestorer := 0xFCC }, _, rfl, rfl, by decide, fun h => absurd h.vm (by decide)⟩

end SinsOs.Signal
