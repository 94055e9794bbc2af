/-
sys_exec and its child in exec_wrapper (fs/exec.c): the parameters that the child reads from the stack of the parent.

The parent waits with interrupts off; the child runs with interrupts on, so that a tick may come between any two of its
steps. The wake_up of the parent comes before the last read of the child. Once sys_exec has returned its frame holds anything.

- `params_kept`: in every run in which the parent is not scheduled between the wake_up and the last read, everything that the
  child reads is what sys_exec stored.
- `argc_lost`: a run in which the parent is scheduled there.
-/
import SinsOs.Core.Lts

namespace SinsOs.ExecWrapper

open SinsOs.Core

/-! ## Model -/

/-- the parameters on the stack of sys_exec -/
structure Params where
  file : ℕ
  ret : ℤ
  argc : ℕ
  argPage : ℕ
deriving DecidableEq, Repr

/-- the task on the processor -/
inductive Cpu
  | parent
  | child
  | other
deriving DecidableEq, Repr

/-- sys_exec: before wait, on the wait queue, woken up, in sys_wait_pid, back in its caller -/
inductive Parent
  | enter
  | waiting
  | woken
  | waitPid
  | returned
deriving DecidableEq, Repr

/-- exec_wrapper: in each of its functions, before and behind wake_up, with TASK_KTHREAD cleared, in user mode, at its end -/
inductive Child
  | writeProgram
  | writeArgv
  | createStack
  | close (ok : Bool)
  | wakeUp (ok : Bool)
  | woke (ok : Bool)
  | cleared
  | userMode (argc : ℕ)
  | zombie
deriving DecidableEq, Repr

/-- a read through the pointer to the parameters -/
inductive Read
  | file (x : ℕ)
  | argc (x : ℕ)
  | argPage (x : ℕ)
deriving DecidableEq, Repr

structure Sys where
  frame : Params
  parent : Parent
  child : Child
  cpu : Cpu
  reads : List Read
deriving DecidableEq, Repr

inductive Op
  | wait
  | resume
  | reap
  | reuse (frame : Params)
  | readFile
  | programWritten (ret : ℤ)
  | readArgs
  | argvWritten (ret : ℤ)
  | stackCreated (ret : ℤ)
  | sysClose
  | wakeUp
  | clearFlag
  | moveToUserMode
  | exit
  | switch (next : Cpu)
deriving DecidableEq, Repr

/-- may another task get the processor? Interrupts are off in sys_exec until it returns, but it sleeps in wait and in
sys_wait_pid -/
def preemptible (s : Sys) : Bool := s.cpu ≠ .parent || s.parent = .waiting || s.parent = .waitPid || s.parent = .returned

def runnable (s : Sys) : Cpu → Bool
  | .parent => s.parent ≠ .waiting
  | .child => s.child ≠ .zombie
  | .other => true

/-- `params->ret = ret`, and on with the next function unless it failed -/
def setRet (s : Sys) (ret : ℤ) (next : Child) : Sys :=
  { s with frame := { s.frame with ret := ret }, child := if ret ≥ 0 then next else .close false }

/-- the steps of the parent -/
def parentStep (s : Sys) : Op → Option Sys
  | .wait => if s.parent = .enter then some { s with parent := .waiting, cpu := .other } else none
  | .resume =>
    if s.parent = .woken then some { s with parent := if s.frame.ret < 0 then .waitPid else .returned } else none
  | .reap => if s.parent = .waitPid ∧ s.child = .zombie then some { s with parent := .returned } else none
  | .reuse frame => if s.parent = .returned then some { s with frame } else none
  | _ => none

/-- the steps of the child -/
def childStep (s : Sys) : Op → Option Sys
  | .readFile => if s.child = .writeProgram then some { s with reads := .file s.frame.file :: s.reads } else none
  | .programWritten ret => if s.child = .writeProgram then some (setRet s ret .writeArgv) else none
  | .readArgs =>
    if s.child = .writeArgv then some { s with reads := .argPage s.frame.argPage :: .argc s.frame.argc :: s.reads } else none
  | .argvWritten ret => if s.child = .writeArgv then some (setRet s ret .createStack) else none
  | .stackCreated ret => if s.child = .createStack then some (setRet s ret (.close true)) else none
  | .sysClose =>
    match s.child with
    | .close ok => some { s with reads := .file s.frame.file :: s.reads, child := .wakeUp ok }
    | _ => none
  | .wakeUp =>
    match s.child with
    | .wakeUp ok => some { s with child := .woke ok, parent := if s.parent = .waiting then .woken else s.parent }
    | _ => none
  | .clearFlag => if s.child = .woke true then some { s with child := .cleared } else none
  | .moveToUserMode =>
    if s.child = .cleared then
      some { s with reads := .argc s.frame.argc :: s.reads, child := .userMode s.frame.argc }
    else none
  | .exit => if s.child = .woke false then some { s with child := .zombie, cpu := .other } else none
  | _ => none

def taskStep (s : Sys) (op : Op) : Option Sys :=
  match s.cpu with
  | .parent => parentStep s op
  | .child => childStep s op
  | .other => none

def step (s : Sys) : Op → Option Sys
  | .switch next => if preemptible s ∧ runnable s next then some { s with cpu := next } else none
  | op => taskStep s op

/-- sys_exec has stored the parameters and created the child -/
def start (stored : Params) : Sys := ⟨stored, .enter, .writeProgram, .parent, []⟩

def system (stored : Params) : Lts Sys Op where
  start := (· = start stored)
  step := fun s op s' => step s op = some s'

/-- the steps that do not schedule the parent while the child, behind its wake_up, has a read before it -/
def Quiet (s : Sys) (op : Op) : Prop := op = .switch .parent → s.child ≠ .woke true ∧ s.child ≠ .cleared

instance (s : Sys) (op : Op) : Decidable (Quiet s op) := inferInstanceAs (Decidable (_ → _))

variable {s s' : Sys} {op : Op} {stored : Params} {ret : ℤ} {next : Child}

/-! ## The reads of the child -/

/-- it has reads before it -/
def Child.reading : Child → Bool
  | .writeProgram | .writeArgv | .createStack | .close _ | .wakeUp _ | .woke true | .cleared => true
  | .woke false | .userMode _ | .zombie => false

/-- its wake_up is before it -/
def Child.early : Child → Bool
  | .writeProgram | .writeArgv | .createStack | .close _ | .wakeUp _ => true
  | .woke _ | .cleared | .userMode _ | .zombie => false

/-- the value read is the one stored -/
def Read.Of (stored : Params) : Read → Prop
  | .file x => x = stored.file
  | .argc x => x = stored.argc
  | .argPage x => x = stored.argPage

/-- what sys_exec stored is still there -/
def Intact (stored frame : Params) : Prop :=
  frame.file = stored.file ∧ frame.argc = stored.argc ∧ frame.argPage = stored.argPage

/-- what the claim says of a state: all that was read was stored, the frame lives while there are reads to come, and user mode
has got argc -/
structure Kept (stored : Params) (s : Sys) : Prop where
  reads : ∀ r ∈ s.reads, r.Of stored
  live : s.child.reading = true → s.parent ≠ .returned
  user : ∀ n, s.child = .userMode n → n = stored.argc

/-- **The invariant.** -/
structure WrapperOk (stored : Params) (s : Sys) : Prop where
  kept : Kept stored s
  frame : s.parent ≠ .returned → Intact stored s.frame
  early : s.child.early = true → s.parent = .enter ∨ s.parent = .waiting
  away : s.child = .woke true ∨ s.child = .cleared → s.cpu ≠ .parent

theorem WrapperOk.start (stored : Params) : WrapperOk stored (start stored) :=
  ⟨⟨fun _ hr => absurd hr List.not_mem_nil, fun _ => nofun, fun _ => nofun⟩, fun _ => ⟨rfl, rfl, rfl⟩,
  fun _ => Or.inl rfl,
    fun h => h.elim nofun nofun⟩

/-- the child reads while the frame lives -/
theorem WrapperOk.intact (h : WrapperOk stored s) (hr : s.child.reading = true) : Intact stored s.frame :=
  h.frame (h.kept.live hr)

theorem early_reading {c : Child} (h : c.early = true) : c.reading = true := by
  cases c with
  | woke ok => cases h
  | _ => first | rfl | cases h

/-- the parent comes back only when the child has nothing to read -/
theorem parentStep_ok (h : WrapperOk stored s) (hcpu : s.cpu = .parent) (hst : parentStep s op = some s') :
    WrapperOk stored s' := by
  have haway : s.child ≠ .woke true ∧ s.child ≠ .cleared :=
    ⟨fun he => h.away (Or.inl he) hcpu, fun he => h.away (Or.inr he) hcpu⟩
  -- behind its wake_up and away from its last read, the child reads nothing more
  have hdone : s.child.early = false → s.child.reading = false := fun hearly => by
    cases hc : s.child with
    | woke ok =>
      cases ok with
      | true => exact absurd hc haway.1
      | false => rfl
    | cleared => exact absurd hc haway.2
    | userMode n => rfl
    | zombie => rfl
    | _ => rw [hc] at hearly; cases hearly
  have hback : s.parent ≠ .enter → s.parent ≠ .waiting → s.child.reading = false := fun h1 h2 => by
    cases hearly : s.child.early with
    | false => exact hdone hearly
    | true => exact ((h.early hearly).elim h1 h2).elim
  cases op with
  | wait =>
    rw [parentStep] at hst
    split_ifs at hst with hp
    cases hst
    refine ⟨⟨h.kept.reads, fun _ => nofun, h.kept.user⟩, fun _ => h.frame (by rw [hp]; exact nofun), fun _ => Or.inr rfl,
      fun _ => nofun⟩
  | resume =>
    have hp : s.parent = .woken := by
      by_contra hno
      cases (if_neg hno).symm.trans hst
    rw [parentStep, if_pos hp] at hst
    cases hst
    have hread := hback (by rw [hp]; exact nofun) (by rw [hp]; exact nofun)
    refine ⟨⟨h.kept.reads, fun hr => absurd hr (by rw [hread]; exact Bool.false_ne_true), h.kept.user⟩,
      fun _ => h.frame (by rw [hp]; exact nofun), fun he => ?_, fun he => absurd hcpu (h.away he)⟩
    exact absurd (early_reading he) (by rw [hread]; exact Bool.false_ne_true)
  | reap =>
    rw [parentStep] at hst
    split_ifs at hst with hp
    cases hst
    refine ⟨⟨h.kept.reads, fun hr => ?_, h.kept.user⟩, fun hne => absurd rfl hne, fun he => ?_,
      fun he => absurd hcpu (h.away he)⟩
    · rw [hp.2] at hr
      cases hr
    · rw [hp.2] at he
      cases he
  | reuse frame =>
    rw [parentStep] at hst
    split_ifs at hst with hp
    cases hst
    exact ⟨⟨h.kept.reads, h.kept.live, h.kept.user⟩, fun hne => absurd hp hne, h.early, h.away⟩
  | _ => cases hst

/-- a read, and on with a phase that is not the end of wake_up -/
theorem WrapperOk.read (rs : List Read) {c : Child} (h : WrapperOk stored s) (hrs : ∀ r ∈ rs, r.Of stored)
    (hreading : s.child.reading = true) (hearly : c.early = true → s.child.early = true) (hcpu : s.cpu ≠ .parent)
    (huser : ∀ n, c = .userMode n → n = stored.argc) : WrapperOk stored { s with reads := rs ++ s.reads, child := c } := by
  refine ⟨⟨fun r hr => ?_, fun _ => h.kept.live hreading, huser⟩, h.frame, fun he => h.early (hearly he), fun _ => hcpu⟩
  rcases List.mem_append.1 hr with hr | hr
  · exact hrs r hr
  · exact h.kept.reads r hr

theorem setRet_ok (h : WrapperOk stored s) (hearly : s.child.early = true) (hcpu : s.cpu ≠ .parent)
    (huser : ∀ n, next ≠ .userMode n) : WrapperOk stored (setRet s ret next) := by
  refine ⟨⟨h.kept.reads, fun _ => h.kept.live (early_reading hearly), fun n hn => ?_⟩, h.frame, fun _ => h.early hearly,
    fun _ => hcpu⟩
  change (if ret ≥ 0 then next else .close false) = _ at hn
  split_ifs at hn
  · exact absurd hn (huser n)

theorem childStep_ok (h : WrapperOk stored s) (hcpu : s.cpu = .child) (hst : childStep s op = some s') :
    WrapperOk stored s' := by
  have hne : s.cpu ≠ .parent := by rw [hcpu]; exact nofun
  cases op with
  | readFile =>
    rw [childStep] at hst
    split_ifs at hst with hc
    cases hst
    have hread : s.child.reading = true := by rw [hc]; rfl
    refine h.read [.file s.frame.file] (fun r hr => ?_) hread id hne h.kept.user
    rw [List.mem_singleton.1 hr]
    exact (h.intact hread).1
  | programWritten ret =>
    rw [childStep] at hst
    split_ifs at hst with hc
    cases hst
    exact setRet_ok h (by rw [hc]; rfl) hne fun _ => nofun
  | readArgs =>
    rw [childStep] at hst
    split_ifs at hst with hc
    cases hst
    have hread : s.child.reading = true := by rw [hc]; rfl
    obtain ⟨-, h2, h3⟩ := h.intact hread
    refine h.read [.argPage s.frame.argPage, .argc s.frame.argc] (fun r hr => ?_) hread id hne h.kept.user
    rcases List.mem_cons.1 hr with rfl | hr
    · exact h3
    · rw [List.mem_singleton.1 hr]
      exact h2
  | argvWritten ret =>
    rw [childStep] at hst
    split_ifs at hst with hc
    cases hst
    exact setRet_ok h (by rw [hc]; rfl) hne fun _ => nofun
  | stackCreated ret =>
    rw [childStep] at hst
    split_ifs at hst with hc
    cases hst
    exact setRet_ok h (by rw [hc]; rfl) hne fun _ => nofun
  | sysClose =>
    rw [childStep] at hst
    cases hc : s.child with
    | close ok =>
      rw [hc] at hst
      cases hst
      have hread : s.child.reading = true := by rw [hc]; rfl
      refine h.read [.file s.frame.file] (fun r hr => ?_) hread (fun _ => by rw [hc]; rfl) hne fun _ => nofun
      rw [List.mem_singleton.1 hr]
      exact (h.intact hread).1
    | _ => rw [hc] at hst; cases hst
  | wakeUp =>
    rw [childStep] at hst
    cases hc : s.child with
    | wakeUp ok =>
      rw [hc] at hst
      cases hst
      have hparent := h.early (by rw [hc]; rfl)
      have hback : (if s.parent = .waiting then Parent.woken else s.parent) ≠ .returned := by
        split_ifs with hw
        · exact nofun
        · rw [hparent.resolve_right hw]
          exact nofun
      refine ⟨⟨h.kept.reads, fun _ => hback, fun _ => nofun⟩, fun _ => h.frame ?_, fun he => (nomatch he), fun _ => hne⟩
      rcases hparent with hp | hp
      · rw [hp]
        exact nofun
      · rw [hp]
        exact nofun
    | _ => rw [hc] at hst; cases hst
  | clearFlag =>
    rw [childStep] at hst
    split_ifs at hst with hc
    cases hst
    have hread : s.child.reading = true := by rw [hc]; rfl
    exact h.read [] (fun r hr => absurd hr List.not_mem_nil) hread nofun hne fun _ => nofun
  | moveToUserMode =>
    rw [childStep] at hst
    split_ifs at hst with hc
    cases hst
    have hread : s.child.reading = true := by rw [hc]; rfl
    obtain ⟨-, h2, -⟩ := h.intact hread
    refine h.read [.argc s.frame.argc] (fun r hr => ?_) hread nofun hne fun n hn => ?_
    · rw [List.mem_singleton.1 hr]
      exact h2
    · cases hn
      exact h2
  | exit =>
    rw [childStep] at hst
    split_ifs at hst with hc
    cases hst
    exact ⟨⟨h.kept.reads, nofun, fun _ => nofun⟩, h.frame, nofun, fun he => he.elim nofun nofun⟩
  | _ => cases hst

theorem switch_ok {c : Cpu} (h : WrapperOk stored s) (hq : Quiet s (.switch c)) (hst : step s (.switch c) = some s') :
    WrapperOk stored s' := by
  rw [step] at hst
  split_ifs at hst with hlegal
  cases hst
  refine ⟨⟨h.kept.reads, h.kept.live, h.kept.user⟩, h.frame, h.early, fun he hc => ?_⟩
  have hquiet := hq (congrArg Op.switch hc)
  exact he.elim hquiet.1 hquiet.2

theorem taskStep_ok (h : WrapperOk stored s) (hst : taskStep s op = some s') : WrapperOk stored s' := by
  rw [taskStep] at hst
  cases hcpu : s.cpu with
  | parent =>
    rw [hcpu] at hst
    exact parentStep_ok h hcpu hst
  | child =>
    rw [hcpu] at hst
    exact childStep_ok h hcpu hst
  | other =>
    rw [hcpu] at hst
    cases hst

theorem step_ok (h : WrapperOk stored s) (hq : Quiet s op) (hst : step s op = some s') : WrapperOk stored s' := by
  cases op with
  | switch c => exact switch_ok h hq hst
  | _ => exact taskStep_ok h hst

/-- **The parameters.** In every run in which the parent is not scheduled between the wake_up of the child and its last read:
all that the child reads was stored by sys_exec, the frame lives as long as there is something to read, and user mode begins
with the argc that was stored. -/
theorem params_kept (stored : Params) (s : Sys) (h : ((system stored).only Quiet).Reach s) : Kept stored s :=
  (Lts.Reach.inv (M := (system stored).only Quiet) (P := WrapperOk stored) (fun _ (h0 : _ = start stored) => h0 ▸ .start stored)
    (fun _ _ _ hs hst => step_ok hs hst.1 hst.2) h).kept

/-! ## Runs -/

/-- one argument besides the path -/
def sample : Params := ⟨3, 0, 2, 5⟩

/-- the child up to its wake_up -/
def toWake : List Op :=
  [.wait, .switch .child, .readFile, .programWritten 0, .readArgs, .argvWritten 0, .stackCreated 0, .sysClose, .wakeUp]

/-- the child goes on to user mode, and then the parent comes back and uses its stack again -/
def undisturbed : List Op :=
  toWake ++ [.clearFlag, .moveToUserMode, .switch .parent, .resume, .reuse ⟨0, 0, 7, 0⟩]

theorem params_kept_run : ∃ s, Kept sample s ∧ s.parent = .returned ∧ s.frame.argc = 7 ∧ s.child = .userMode 2 ∧
    s.reads = [.argc 2, .file 3, .argPage 5, .argc 2, .file 3] := by
  have hrun : undisturbed.foldlM (fun s op => if Quiet s op then step s op else none) (start sample) =
      some ⟨⟨0, 0, 7, 0⟩, .returned, .userMode 2, .parent, [.argc 2, .file 3, .argPage 5, .argc 2, .file 3]⟩ := by decide
  exact ⟨_, params_kept sample _ (.fold_only (M := system sample) (fun _ _ _ hs => hs) (.start rfl) hrun), rfl, rfl, rfl, rfl⟩

/-- the parent runs there, returns and uses its stack again, and the child goes on -/
def overtaken : List Op := [.switch .parent, .resume, .reuse ⟨0, 0, 7, 0⟩, .switch .child, .clearFlag, .moveToUserMode]

/-- user mode begins with another argc than the one stored -/
theorem argc_lost : ∃ s, (system sample).Reach s ∧ s.child = .userMode 7 ∧ sample.argc = 2 := by
  have hrun : (toWake ++ overtaken).foldlM step (start sample) = some ⟨⟨0, 0, 7, 0⟩, .returned, .userMode 7, .child,
        [.argc 7, .file 3, .argPage 5, .argc 2, .file 3]⟩ := by decide
  exact ⟨_, .fold (M := system sample) (fun _ _ _ hs => hs) (.start rfl) hrun, rfl, rfl⟩

end SinsOs.ExecWrapper
