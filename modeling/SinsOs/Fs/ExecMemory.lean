/-
The memory of a new process (sys_exec, fs/exec.c): the program pages that write_program_to_user loads from address 0 on, and
the stack, the strings and the pointers in the three pages below PAGE_OFFSET.

`frame k` is what the frame of the k-th load_page of the call holds: what was in free memory before. `none` is a call that
fails or panics.

- `loadLoop_last`: the frame of the page that write_program_to_user maps for the last read, the one that returns -EIO, is seen
  by the process as it is.
- `determined_iff`: two runs that differ in what the frames hold give the same memory only if they give none.
-/
import SinsOs.Fs.Load

namespace SinsOs.Exec

open SinsOs.Lib SinsOs.Minix

/-! ## Model -/

/-- the pages of the process -/
structure UserMemory where
  program : List Ptr
  stack : Ptr
  strings : Ptr
  pointers : Ptr

/-- the byte at a virtual address, or none where no page is mapped -/
def UserMemory.byte (m : UserMemory) (addr : ℕ) : Option Byte :=
  let page := addr / pageSize
  if page < m.program.length then userByte m.program addr
  else if page = pageOffset / pageSize - 3 then some (m.stack (addr % pageSize))
  else if page = pageOffset / pageSize - 2 then some (m.strings (addr % pageSize))
  else if page = pageOffset / pageSize - 1 then some (m.pointers (addr % pageSize))
  else none

/-- write_argv_to_user and create_user_stack, which call load_page three times -/
def writeStack (argPage : Ptr) (argc : ℕ) (frame : ℕ → Option Ptr) (program : List Ptr) : Option UserMemory :=
  match frame program.length, frame (program.length + 1), frame (program.length + 2) with
  | some _, some pointers, some stack =>
    let m := (writeArgvToUser argPage pointers argc).1
    some ⟨program, memset stack 0 pageSize, m.bytes, m.bytes.add pageSize⟩
  | _, _, _ => none

/-- sys_exec once the file is open, and exec_wrapper -/
def sysExecMemory (dev : Device) (inode : Inode) (filename : CString) (argv : List (Option CString))
    (frame : ℕ → Option Ptr) : Option UserMemory :=
  if argv.length > pageSize / sizeofPointer then none
  else
    let (ret, page) := copyArgv filename ⟨fun _ => 0, 0⟩ pageSize argv
    if ret < 0 then none
    else match writeProgramToUser dev inode frame with
      | none => none
      | some (ret, program) => if ret < 0 then none else writeStack page.bytes (argv.length + 1) frame program

/-! ## Statement -/

/-- two runs on frames with other contents give the same memory -/
def Determined (dev : Device) (inode : Inode) (filename : CString) (argv : List (Option CString)) : Prop :=
  ∀ frame frame' : ℕ → Option Ptr, (∀ k, (frame k).isSome = (frame' k).isSome) → ∀ m m',
    sysExecMemory dev inode filename argv frame = some m → sysExecMemory dev inode filename argv frame' = some m' →
    ∀ addr, m.byte addr = m'.byte addr

/-! ## The page of the last read -/

variable {dev : Device} {inode : Inode} {read : ℕ → Option Minix.Result} {frame : ℕ → Option Ptr}

/-- a read that returns no count has stored nothing -/
theorem fileRead_nothing {size pos : ℕ} {r : Minix.Result} (hr : minixFileRead dev inode size pos = some r)
    (hret : ¬ r.ret > 0) : r.stored = [] := by
  obtain ⟨l, hl, rfl⟩ := Option.map_eq_some_iff.1 hr
  have hcount := readLoop_count size hl
  by_contra hne
  have hlength : 0 < l.stored.length := List.length_pos_iff.2 hne
  refine hret ?_
  dsimp only
  rw [if_pos (by omega)]
  exact_mod_cast (by omega : 0 < size - l.left)

/-- **The last page of a program is its frame**, whatever the frame holds. -/
theorem loadLoop_last (hread : ∀ pos r, read pos = some r → ¬ r.ret > 0 → r.stored = []) (fuel : ℕ) :
    ∀ k pos pages ret program, loadLoop read frame fuel k pos pages = some (ret, program) → ¬ ret < 0 →
    pages.length = k → ∃ init p, frame init.length = some p ∧ program = init ++ [p] ∧ k ≤ init.length ∧
      ∀ q, loadLoop read (Function.update frame init.length (some q)) fuel k pos pages = some (ret, init ++ [q]) := by
  induction fuel with
  | zero =>
    intro k pos pages ret program h
    cases h
  | succ fuel ih =>
    intro k pos pages ret program h hret hk
    rw [loadLoop] at h
    by_cases hoff : k * pageSize ≥ pageOffset
    · rw [if_pos hoff] at h
      cases h
    rw [if_neg hoff] at h
    cases hf : frame k with
    | none =>
      rw [hf] at h
      cases h
      exact absurd (by decide) hret
    | some pg =>
      rw [hf] at h
      cases hr : read pos with
      | none =>
        rw [hr] at h
        cases h
      | some r =>
        rw [hr] at h
        dsimp only at h
        by_cases hpos : r.ret > 0
        · rw [if_pos hpos] at h
          by_cases hmagic : k = 0 ∧ (r.ret < 8 ∨ wordAt (memset (storeBytes pg r.stored) r.ret.toNat
              (pageSize - r.ret.toNat)) 4 ≠ sinsExecMagic)
          · rw [if_pos hmagic] at h
            cases h
            exact absurd (by decide) hret
          · rw [if_neg hmagic] at h
            obtain ⟨init, p, hp, hprogram, hinit, hall⟩ := ih _ _ _ _ _ h hret (by rw [List.length_append, hk]; rfl)
            refine ⟨init, p, hp, hprogram, by omega, fun q => ?_⟩
            rw [loadLoop, if_neg hoff, Function.update_of_ne (by omega), hf, hr]
            dsimp only
            rw [if_pos hpos, if_neg hmagic]
            exact hall q
        · rw [if_neg hpos, hread pos r hr hpos, storeBytes_nil] at h
          cases h
          refine ⟨pages, pg, by rw [hk, hf], rfl, hk.ge, fun q => ?_⟩
          rw [loadLoop, if_neg hoff, hk, Function.update_self, hr]
          dsimp only
          rw [if_neg hpos, hread pos r hr hpos, storeBytes_nil]

theorem byte_last {m : UserMemory} {init : List Ptr} {q : Ptr} (h : m.program = init ++ [q]) :
    m.byte (pageSize * init.length) = some (q 0) := by
  have hpage : pageSize * init.length / pageSize = init.length := Nat.mul_div_cancel_left _ (by decide)
  have hlt : init.length < (init ++ [q]).length := by
    rw [List.length_append]
    exact Nat.lt_succ_self _
  rw [UserMemory.byte, h, hpage, if_pos hlt, userByte, hpage, Nat.mul_mod_right, List.getElem?_append_right le_rfl,
    Nat.sub_self]
  rfl

section Stack

variable {argPage : Ptr} {argc : ℕ}

theorem writeStack_program {program : List Ptr} {m : UserMemory} (h : writeStack argPage argc frame program = some m) :
    m.program = program := by
  rw [writeStack] at h
  split at h
  · cases h
    rfl
  · cases h

/-- the three pages of the stack do not depend on the frame of the last page of the program -/
theorem writeStack_last (init : List Ptr) (p q : Ptr) :
    writeStack argPage argc (Function.update frame init.length (some q)) (init ++ [q]) =
      (writeStack argPage argc frame (init ++ [p])).map fun m => { m with program := init ++ [q] } := by
  have hlength : ∀ x : Ptr, (init ++ [x]).length = init.length + 1 := fun x => List.length_append
  have hafter : ∀ i, Function.update frame init.length (some q) (init.length + 1 + i) = frame (init.length + 1 + i) :=
    fun i => Function.update_of_ne (by omega) _ _
  rw [writeStack, writeStack, hlength, hlength, hafter 0, hafter 1, hafter 2]
  cases frame (init.length + 1 + 0) with
  | none => rfl
  | some _ =>
    cases frame (init.length + 1 + 1) with
    | none => rfl
    | some _ =>
      cases frame (init.length + 1 + 2) with
      | none => rfl
      | some _ => rfl

end Stack

/-- **A process sees a frame as it was.** -/
theorem exec_stale {filename : CString} {argv : List (Option CString)} {m : UserMemory}
    (h : sysExecMemory dev inode filename argv frame = some m) : ∃ n p, frame n = some p ∧
      m.byte (pageSize * n) = some (p 0) ∧
      ∀ q, ∃ m', sysExecMemory dev inode filename argv (Function.update frame n (some q)) = some m' ∧
        m'.byte (pageSize * n) = some (q 0) := by
  rw [sysExecMemory] at h
  by_cases hargc : argv.length > pageSize / sizeofPointer
  · rw [if_pos hargc] at h
    cases h
  rw [if_neg hargc] at h
  dsimp only at h
  by_cases hcopy : (copyArgv filename ⟨fun _ => 0, 0⟩ pageSize argv).1 < 0
  · rw [if_pos hcopy] at h
    cases h
  rw [if_neg hcopy] at h
  cases hw : writeProgramToUser dev inode frame with
  | none =>
    rw [hw] at h
    cases h
  | some r =>
    obtain ⟨ret, program⟩ := r
    rw [hw] at h
    dsimp only at h
    by_cases hret : ret < 0
    · rw [if_pos hret] at h
      cases h
    rw [if_neg hret] at h
    obtain ⟨init, p, hp, rfl, -, hall⟩ := loadLoop_last (fun pos r => fileRead_nothing) _ _ _ _ _ _ hw hret rfl
    refine ⟨init.length, p, hp, byte_last (writeStack_program h),
      fun q => ⟨{ m with program := init ++ [q] }, ?_, byte_last rfl⟩⟩
    have hwq : writeProgramToUser dev inode (Function.update frame init.length (some q)) = some (ret, init ++ [q]) := hall q
    rw [sysExecMemory, if_neg hargc]
    dsimp only
    rw [if_neg hcopy, hwq]
    dsimp only
    rw [if_neg hret, writeStack_last init p q, h, Option.map_some]

/-- **Only an exec that gives no memory is a function of its input.** For every file on every device, every filename and every
argv. -/
theorem determined_iff (dev : Device) (inode : Inode) (filename : CString) (argv : List (Option CString)) :
    Determined dev inode filename argv ↔ ∀ frame, sysExecMemory dev inode filename argv frame = none := by
  constructor
  · intro h frame
    cases hm : sysExecMemory dev inode filename argv frame with
    | none => rfl
    | some m =>
      obtain ⟨n, p, hp, hbyte, hall⟩ := exec_stale hm
      obtain ⟨m', hm', hbyte'⟩ := hall fun i => p i + 1
      have hsome : ∀ k, (frame k).isSome = (Function.update frame n (some fun i => p i + 1) k).isSome := by
        intro k
        by_cases hk : k = n
        · rw [hk, Function.update_self, hp]
          rfl
        · rw [Function.update_of_ne hk]
      have hsame := h _ _ hsome m m' hm hm' (pageSize * n)
      rw [hbyte, hbyte'] at hsame
      have hne : p 0 ≠ p 0 + 1 := by bv_omega
      exact absurd (Option.some.inj hsame) hne
  · intro h frame frame' _ m m' hm
    rw [h frame] at hm
    cases hm

/-- the program "a" without arguments, in eight bytes with the magic -/
def magicExec (frame : ℕ → Option Ptr) : Option UserMemory :=
  sysExecMemory magicDisk ⟨8, fun _ => 1#16⟩ ⟨[0x61], by decide, by decide⟩ [] frame

/-- The process has eight bytes at address 0, and at address 4096 what the frame of its second page held. -/
theorem magic_stale : (magicExec fun _ => some fun _ => 0).bind (fun m => m.byte 4096) = some 0 ∧
    (magicExec fun _ => some fun _ => 0xAA).bind (fun m => m.byte 4096) = some 0xAA ∧
    ¬ Determined magicDisk ⟨8, fun _ => 1#16⟩ ⟨[0x61], by decide, by decide⟩ [] := by
  have h0 : (magicExec fun _ => some fun _ => 0).bind (fun m => m.byte 4096) = some 0 := by decide +kernel
  have h1 : (magicExec fun _ => some fun _ => 0xAA).bind (fun m => m.byte 4096) = some 0xAA := by decide +kernel
  refine ⟨h0, h1, fun h => ?_⟩
  obtain ⟨m, hm, hbyte⟩ := Option.bind_eq_some_iff.1 h0
  obtain ⟨m', hm', hbyte'⟩ := Option.bind_eq_some_iff.1 h1
  have hsame := h (fun _ => some fun _ => 0) (fun _ => some fun _ => 0xAA) (fun _ => rfl) m m' hm hm' 4096
  rw [hbyte, hbyte'] at hsame
  exact absurd (Option.some.inj hsame) (by decide)

end SinsOs.Exec
