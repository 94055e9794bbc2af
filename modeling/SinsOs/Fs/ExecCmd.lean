/-
The name of a new task (init_task_cmd, fs/exec.c): the file name and the arguments behind each other, cut after
TASK_CMD_LENGTH bytes, in a buffer of TASK_CMD_LENGTH bytes on the stack of sys_exec.

strncpy puts no NUL behind a copy that fills the buffer. init_task_cmd writes one behind the buffer instead.
- `cmd_string`: what is left is the first TASK_CMD_LENGTH bytes of the concatenation.
- `cmd_terminated_iff`: its NUL lies in the buffer exactly when the concatenation is shorter than the buffer.
- `cmd_writes`: all the writes but the last are inside the buffer.
- `cmd_not_ok`: the last one never is.
-/
import SinsOs.Fs.Exec
import SinsOs.Lib.Buffer

namespace SinsOs.ExecCmd

open SinsOs.Lib SinsOs.Exec

/-! ## Model -/

/-- TASK_CMD_LENGTH, and the number of bytes of cmd -/
def taskCmdLength : ℕ := 20

/-- the loop over argv -/
def cmdLoop (cmd : Buf) : List CString → Buf
  | [] => cmd
  | arg :: argv =>
    let count := strnlen cmd.mem taskCmdLength
    if count ≥ taskCmdLength then cmd
    else cmdLoop (cmd.strncpy count (cstr arg.bytes) (taskCmdLength - count)) argv

/-- cmd lies on the stack, uninitialised -/
def initTaskCmd (stack : Ptr) (filename : CString) (argv : List CString) : Buf :=
  (cmdLoop (Buf.strncpy ⟨stack, []⟩ 0 (cstr filename.bytes) taskCmdLength) argv).set taskCmdLength 0

def joined (filename : CString) (argv : List CString) : List Byte := filename.bytes ++ argv.flatMap CString.bytes

/-- what init_task_cmd should do -/
structure CmdOk (stack : Ptr) (filename : CString) (argv : List CString) : Prop where
  inside : ∀ k ∈ (initTaskCmd stack filename argv).writes, k < taskCmdLength
  terminated : ∃ k < taskCmdLength, (initTaskCmd stack filename argv).mem k = 0
  isPrefix : strn taskCmdLength (initTaskCmd stack filename argv).mem <+: joined filename argv

/-! ## One copy -/

/-- a string that does not fill the buffer, and another one copied behind it -/
theorem append_string {n : ℕ} {b : Buf} {l : List Byte} (hl : ∀ c ∈ l, c ≠ 0) (h : (strn n b.mem).length < n) :
    strn n (b.strncpy (strn n b.mem).length (cstr l) (n - (strn n b.mem).length)).mem = (strn n b.mem ++ l).take n := by
  set s := strn n b.mem with hs
  set b' := b.strncpy s.length (cstr l) (n - s.length) with hb'
  have hmem : ∀ i, b'.mem i = if i < s.length then b.mem i
      else strncpy (b.mem.add s.length) (cstr l) (n - s.length) (i - s.length) :=
    fun i => mem_strncpy (n - s.length) b s.length (cstr l) i
  have hbefore : ∀ i < s.length, b'.mem i = b.mem i := fun i hi => by rw [hmem, if_pos hi]
  have hbehind : b'.mem.add s.length = strncpy (b.mem.add s.length) (cstr l) (n - s.length) := by
    funext i
    rw [Ptr.add, hmem, if_neg (by omega), Nat.add_sub_cancel]
  have hfront : strn s.length b'.mem = s := by
    rw [strn_congr hbefore, ← strn_stop (strn_end h) h.le, ← hs]
  calc strn n b'.mem = strn (s.length + (n - s.length)) b'.mem := by rw [Nat.add_sub_cancel' h.le]
    _ = strn s.length b'.mem ++ strn (n - s.length) (b'.mem.add s.length) :=
        strn_append _ fun i hi => by rw [hbefore i hi]; exact strn_nonzero hi
    _ = s ++ l.take (n - s.length) := by rw [hfront, hbehind, strn_strncpy, strn_cstr l hl]
    _ = (s ++ l).take n := by rw [List.take_append, List.take_of_length_le h.le]

theorem take_take_append (n : ℕ) (l l' : List Byte) : (l.take n ++ l').take n = (l ++ l').take n := by
  rw [List.take_append, List.take_append, List.take_take, min_self, List.length_take]
  congr 2
  omega

/-! ## init_task_cmd -/

theorem cmdLoop_string (argv : List CString) : ∀ cmd : Buf,
    strn taskCmdLength (cmdLoop cmd argv).mem =
      (strn taskCmdLength cmd.mem ++ argv.flatMap CString.bytes).take taskCmdLength := by
  induction argv with
  | nil =>
    intro cmd
    rw [List.flatMap_nil, List.append_nil, List.take_of_length_le (strn_length_le _ _)]
    rfl
  | cons arg argv ih =>
    intro cmd
    rw [cmdLoop]
    simp only [strnlen_eq]
    split_ifs with h
    · rw [List.take_append_of_le_length h, List.take_of_length_le (strn_length_le _ _)]
    · rw [ih, append_string arg.clean (Nat.not_le.1 h), take_take_append, List.flatMap_cons, List.append_assoc]

variable (stack : Ptr) (filename : CString) (argv : List CString)

/-- **The string that is left.** -/
theorem cmd_string :
    strn taskCmdLength (initTaskCmd stack filename argv).mem = (joined filename argv).take taskCmdLength := by
  have hlast : ∀ (cmd : Buf), strn taskCmdLength (cmd.set taskCmdLength 0).mem = strn taskCmdLength cmd.mem :=
    fun cmd => strn_congr fun i hi => Function.update_of_ne hi.ne _ _
  have hfirst : (Buf.strncpy ⟨stack, []⟩ 0 (cstr filename.bytes) taskCmdLength).mem =
      strncpy (stack.add 0) (cstr filename.bytes) taskCmdLength := by
    funext i
    rw [mem_strncpy, if_neg (Nat.not_lt_zero i), Nat.sub_zero]
  rw [initTaskCmd, hlast, cmdLoop_string, hfirst, strn_strncpy, strn_cstr _ filename.clean, take_take_append, joined]

theorem cmd_terminated_iff : (∃ k < taskCmdLength, (initTaskCmd stack filename argv).mem k = 0) ↔
    (joined filename argv).length < taskCmdLength := by
  rw [terminated_iff, cmd_string, List.length_take]
  omega

theorem cmdLoop_writes (argv : List CString) : ∀ cmd : Buf, (∀ k ∈ cmd.writes, k < taskCmdLength) →
    ∀ k ∈ (cmdLoop cmd argv).writes, k < taskCmdLength := by
  induction argv with
  | nil => exact fun cmd h => h
  | cons arg argv ih =>
    intro cmd h
    rw [cmdLoop]
    split_ifs with hfull
    · exact h
    · refine ih _ fun k hk => ?_
      rcases writes_strncpy _ _ _ _ k hk with hold | hnew
      · exact h k hold
      · omega

/-- **The writes**: inside the buffer, and the NUL behind it. -/
theorem cmd_writes : ∃ l, (initTaskCmd stack filename argv).writes = taskCmdLength :: l ∧ ∀ k ∈ l, k < taskCmdLength := by
  refine ⟨_, rfl, cmdLoop_writes argv _ fun k hk => ?_⟩
  rcases writes_strncpy _ _ _ _ k hk with hold | hnew
  · exact absurd hold List.not_mem_nil
  · omega

/-- **init_task_cmd writes outside its buffer**, whatever the file and the arguments. -/
theorem cmd_not_ok : ¬ CmdOk stack filename argv := by
  intro h
  obtain ⟨l, hl, -⟩ := cmd_writes stack filename argv
  exact lt_irrefl _ (h.inside taskCmdLength (hl ▸ List.mem_cons_self))

/-- /bin/sh without arguments -/
def binSh : CString := ⟨"/bin/sh".toList.map fun c => BitVec.ofNat 8 c.toNat, by decide, by decide⟩

theorem bin_sh_not_ok : ¬ CmdOk (fun _ => 0xFF) binSh [] :=
  fun h => absurd (h.inside 20 (by decide)) (by decide)

end SinsOs.ExecCmd
