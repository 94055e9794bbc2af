/-
The arguments of sys_exec (fs/exec.c) on their way through three buffers: the argument page that copy_argv fills, the page of
pointers that write_argv_to_user fills, and the buffer of printk for the message about a file that is not executable.

- `buffers_inside_iff`: they stay inside their buffers except for a filename of 4095 bytes, 1024 arguments and a program that
  loads, or a filename of more than 997 bytes and a file that is not executable.
-/
import SinsOs.Lib.Str

namespace SinsOs.Exec

open SinsOs.Lib

/-! ## Model -/

def pageSize : ℕ := 4096
def pageOffset : ℕ := 0xC0000000
def sizeofPointer : ℕ := 4
def printkSize : ℕ := 1024

/-- a string of the user; the argument page and the stack of the kernel are in the same address space -/
structure CString where
  bytes : List Byte
  clean : ∀ b ∈ bytes, b ≠ 0
  fits : bytes.length + 2 * pageSize < 2 ^ 32

def CString.strlen (s : CString) : ℕ := s.bytes.length

/-- memory from a pointer on, and the number of bytes up to the last one written -/
structure Mem where
  bytes : Ptr
  top : ℕ

namespace Mem

variable (m : Mem)

def put (i : ℕ) (x : Byte) : Mem := ⟨Function.update m.bytes i x, max m.top (i + 1)⟩

def memcpy (i : ℕ) (src : Ptr) (n : ℕ) : Mem :=
  ⟨fun j => if i ≤ j ∧ j < i + n then src (j - i) else m.bytes j, if n = 0 then m.top else max m.top (i + n)⟩

/-- a word, the low byte first -/
def word (i w : ℕ) : Mem :=
  (((m.put i (BitVec.ofNat 8 w)).put (i + 1) (BitVec.ofNat 8 (w / 2 ^ 8))).put (i + 2) (BitVec.ofNat 8 (w / 2 ^ 16))).put (i + 3)
    (BitVec.ofNat 8 (w / 2 ^ 24))

end Mem

/-- sums and differences of an int, compared with and used as an unsigned long -/
def addSize (a b : ℕ) : ℕ := (a + b) % 2 ^ 32
def subSize (a b : ℕ) : ℕ := (a + 2 ^ 32 - b) % 2 ^ 32

/-- the loop of copy_argv -/
def copyArgs (size : ℕ) : List (Option CString) → Mem → ℕ → ℤ × Mem
  | [], dest, _ => (success, dest)
  | none :: _, dest, _ => (-error, dest)
  | some arg :: argv, dest, start =>
    let totalSize := addSize start arg.strlen
    if addSize totalSize 1 ≥ size then (-error, dest)
    else
      let dest := (dest.memcpy start (cstr arg.bytes) (subSize totalSize start)).put (addSize totalSize 1) 0
      copyArgs size argv dest (addSize totalSize 1)

/-- copy_argv; `argv` is the first argc entries of the array -/
def copyArgv (filename : CString) (dest : Mem) (size : ℕ) (argv : List (Option CString)) : ℤ × Mem :=
  let totalSize := addSize 0 filename.strlen
  if totalSize ≥ size then (-error, dest)
  else
    let dest := (dest.memcpy 0 (cstr filename.bytes) (subSize totalSize 0)).put (addSize totalSize 1) 0
    copyArgs size argv dest (addSize totalSize 1)

def strlen (p : Ptr) : ℕ := strnlen p (2 ^ 32)

/-- the loop of write_argv_to_user over the memory from user_addr on; the second result is how far strlen has read -/
def writeArgs (userAddr : ℕ) : ℕ → Mem → ℕ → ℕ → ℕ → Mem × ℕ
  | 0, m, _, _, read => (m, read)
  | n + 1, m, iter, pos, read =>
    let m := m.word iter (userAddr + pos)
    let pos := pos + strlen (m.bytes.add pos) + 1
    writeArgs userAddr n m (iter + sizeofPointer) pos (max read pos)

/-- write_argv_to_user with its two pages; `stale` is what the page for the pointers and the memory behind it hold -/
def writeArgvToUser (argPage stale : Ptr) (argc : ℕ) : Mem × ℕ :=
  let userAddr := pageOffset - 2 * pageSize
  let m := Mem.mk (fun j => if j < pageSize then argPage j else stale (j - pageSize)) pageSize
  writeArgs userAddr argc m pageSize 0 0

/-- vsprintf for formats with %s -/
def vsprintf : List Char → List CString → List Byte
  | '%' :: 's' :: fmt, s :: args => s.bytes ++ vsprintf fmt args
  | c :: fmt, args => BitVec.ofNat 8 c.toNat :: vsprintf fmt args
  | [], _ => []

/-- the bytes that printk writes into its buffer, the NUL too -/
def printk (fmt : String) (args : List CString) : ℕ := (vsprintf fmt.toList args).length + 1

/-- how far the buffers are written, and how far the argument page is read -/
structure Touched where
  argPage : ℕ
  pointers : ℕ
  read : ℕ
  message : ℕ

/-- sys_exec once the file is open and there is memory; `load` is what write_program_to_user returns -/
def sysExecBuffers (filename : CString) (argv : List (Option CString)) (load : ℤ) (stale : Ptr) : Touched :=
  if argv.length > pageSize / sizeofPointer then ⟨0, pageSize, 0, 0⟩
  else
    let (ret, page) := copyArgv filename ⟨fun _ => 0, 0⟩ pageSize argv
    if ret < 0 then ⟨page.top, pageSize, 0, 0⟩
    else if load ≥ 0 then
      -- the kernel adds the path
      let (m, read) := writeArgvToUser page.bytes stale (argv.length + 1)
      ⟨page.top, m.top, read, 0⟩
    else ⟨page.top, pageSize, 0, if load = -eNoexec then printk "%s is not a executable file." [filename] else 0⟩

/-! ## The argument page -/

/-- the strings one behind the other, each with its NUL -/
def packed (strs : List CString) : List Byte := strs.flatMap fun s => s.bytes ++ [0]

theorem packed_cons (s : CString) (strs : List CString) : packed (s :: strs) = s.bytes ++ [0] ++ packed strs := rfl

theorem cstr_nul (l : List Byte) : cstr (l ++ [0]) = cstr l := by
  funext i
  rw [cstr_append]
  split_ifs with h
  · rfl
  · have hzero : cstr l i = 0 := by simp [cstr, List.getD_eq_getElem?_getD, List.getElem?_eq_none (not_lt.1 h)]
    rw [hzero]
    cases i - l.length with
    | zero => rfl
    | succ n => rfl

theorem cstr_end (l : List Byte) {i : ℕ} (h : l.length ≤ i) : cstr l i = 0 := by
  simp [cstr, List.getD_eq_getElem?_getD, List.getElem?_eq_none h]

/-- a string is copied behind the others -/
theorem memcpy_packed {m : Mem} {l : List Byte} (hm : m.bytes = cstr l) (s : CString) :
    ((m.memcpy l.length (cstr s.bytes) s.strlen).put (l.length + s.strlen + 1) 0).bytes = cstr (l ++ (s.bytes ++ [0])) := by
  funext j
  rw [← List.append_assoc, cstr_nul, cstr_append]
  show Function.update _ _ _ j = _
  by_cases hj : j = l.length + s.strlen + 1
  · have hend : cstr s.bytes (j - l.length) = 0 := cstr_end _ (by rw [CString.strlen] at hj; omega)
    rw [hj, Function.update_self, if_neg (by omega), ← hj, hend]
  · rw [Function.update_of_ne hj]
    show (if l.length ≤ j ∧ j < l.length + s.strlen then cstr s.bytes (j - l.length) else m.bytes j) = _
    by_cases hin : j < l.length
    · rw [if_neg (by omega), if_pos hin, hm]
    · rw [if_neg hin]
      split_ifs with hs
      · rfl
      · rw [hm, cstr_end _ (not_lt.1 hin), cstr_end _ (by rw [CString.strlen] at hs; omega)]

theorem add_size {a b : ℕ} (h : a + b < 2 ^ 32) : addSize a b = a + b := Nat.mod_eq_of_lt h

theorem sub_size {a b : ℕ} (h : a + b < 2 ^ 32) : subSize (a + b) a = b := by
  rw [subSize]
  omega

/-- how far one string and the NUL behind it are written -/
theorem top_packed (m : Mem) (i : ℕ) (src : Ptr) (n : ℕ) :
    ((m.memcpy i src n).put (i + n + 1) 0).top = max m.top (i + n + 2) := by
  show max (if n = 0 then m.top else max m.top (i + n)) (i + n + 1 + 1) = _
  split_ifs with h
  · omega
  · omega

/-- what the loop of copy_argv leaves behind the strings that it finds in the page -/
structure Copied (l : List Byte) (argv : List (Option CString)) (top : ℕ) (res : ℤ × Mem) : Prop where
  top : res.2.top ≤ max top pageSize ∧ top ≤ res.2.top
  fails : res.1 < 0 ∨ res.1 = success
  copied : res.1 = success ↔ ∃ strs, argv = strs.map some ∧ (strs = [] ∨ l.length + (packed strs).length < pageSize)
  bytes : ∀ strs, res.1 = success → argv = strs.map some → res.2.bytes = cstr (l ++ packed strs)

theorem Copied.refuse {l : List Byte} {argv : List (Option CString)} (m : Mem)
    (hno : ¬ ∃ strs, argv = strs.map some ∧ (strs = [] ∨ l.length + (packed strs).length < pageSize)) :
    Copied l argv m.top (-error, m) :=
  ⟨⟨le_max_left _ _, le_rfl⟩, Or.inl (show -error < 0 by decide), iff_of_false (show ¬ -error = success by decide) hno,
    fun _ he => absurd he (show ¬ -error = success by decide)⟩

theorem some_cons {s s' : CString} {argv : List (Option CString)} {strs : List CString}
    (h : some s :: argv = (s' :: strs).map some) : s = s' ∧ argv = strs.map some := by
  rw [List.map_cons, List.cons.injEq, Option.some.injEq] at h
  exact h

/-- **The loop of copy_argv.** -/
theorem copyArgs_spec (argv : List (Option CString)) (l : List Byte) (m : Mem) (hm : m.bytes = cstr l)
    (hl : l.length ≤ pageSize) :
    Copied l argv m.top (copyArgs pageSize argv m l.length) := by
  induction argv generalizing l m with
  | nil =>
    refine ⟨⟨le_max_left _ _, le_rfl⟩, Or.inr rfl, iff_of_true rfl ⟨[], rfl, Or.inl rfl⟩, fun strs _ he => ?_⟩
    obtain rfl := List.map_eq_nil_iff.1 he.symm
    show m.bytes = cstr (l ++ [])
    rw [List.append_nil]
    exact hm
  | cons arg argv ih =>
    cases arg with
    | none =>
      refine .refuse m fun ⟨strs, he, _⟩ => ?_
      cases strs with
      | nil => cases he
      | cons s strs => cases he
    | some s =>
      have hfits := s.fits
      have hpage : pageSize = 4096 := rfl
      have hlen : s.strlen = s.bytes.length := rfl
      have h1 : addSize l.length s.strlen = l.length + s.strlen := add_size (by omega)
      have h2 : addSize (l.length + s.strlen) 1 = l.length + s.strlen + 1 := add_size (by omega)
      have h3 : subSize (l.length + s.strlen) l.length = s.strlen := sub_size (by omega)
      have hcons : ∀ strs : List CString, (packed (s :: strs)).length = s.strlen + 1 + (packed strs).length := fun strs => by
        rw [packed_cons, List.length_append, List.length_append, List.length_singleton, hlen]
      rw [copyArgs]
      simp only [h1, h2, h3]
      split_ifs with hfull
      · refine .refuse m fun ⟨strs, he, hroom⟩ => ?_
        cases strs with
        | nil => cases he
        | cons s' strs =>
          obtain ⟨rfl, -⟩ := some_cons he
          rcases hroom with hroom | hroom
          · cases hroom
          · rw [hcons] at hroom
            omega
      · have hnext := memcpy_packed hm s
        have htop := top_packed m l.length (cstr s.bytes) s.strlen
        have hl' : (l ++ (s.bytes ++ [0])).length = l.length + s.strlen + 1 := by
          rw [List.length_append, List.length_append, List.length_singleton, ← hlen, add_assoc]
        have hrec := ih (l ++ (s.bytes ++ [0])) _ hnext (by omega)
        rw [hl', htop] at hrec
        obtain ⟨⟨r1, r2⟩, r3, r4, r5⟩ := hrec
        refine ⟨⟨by omega, by omega⟩, r3, r4.trans ?_, fun strs hret he => ?_⟩
        · constructor
          · intro ⟨strs, he, hroom⟩
            refine ⟨s :: strs, congrArg _ he, Or.inr ?_⟩
            rw [hcons]
            rcases hroom with rfl | hroom
            · show l.length + (s.strlen + 1 + 0) < pageSize
              omega
            · omega
          · intro ⟨strs, he, hroom⟩
            cases strs with
            | nil => cases he
            | cons s' strs =>
              obtain ⟨rfl, hrest⟩ := some_cons he
              refine ⟨strs, hrest, ?_⟩
              rcases hroom with hroom | hroom
              · cases hroom
              · rw [hcons] at hroom
                exact Or.inr (by omega)
        · cases strs with
          | nil => cases he
          | cons s' strs =>
            obtain ⟨rfl, hrest⟩ := some_cons he
            rw [r5 strs hret hrest, packed_cons, List.append_assoc]

/-- the strings that fit behind the filename -/
def Packs (filename : CString) (argv : List (Option CString)) : Prop :=
  ∃ strs, argv = strs.map some ∧ (packed (filename :: strs)).length < pageSize

theorem packed_cons_length (s : CString) (strs : List CString) :
    (packed (s :: strs)).length = s.strlen + 1 + (packed strs).length := by
  rw [packed_cons, List.length_append, List.length_append, List.length_singleton, CString.strlen]

/-- a filename of a page is refused, and the loop goes on behind a shorter one -/
theorem copyArgv_copied (filename : CString) (argv : List (Option CString)) (h : filename.strlen < pageSize) :
    Copied (filename.bytes ++ [0]) argv (filename.strlen + 2) (copyArgv filename ⟨fun _ => 0, 0⟩ pageSize argv) := by
  have hpage : pageSize = 4096 := rfl
  have hlen : filename.strlen = filename.bytes.length := rfl
  have hfits := filename.fits
  have h1 : addSize 0 filename.strlen = filename.strlen := by rw [add_size (by omega), zero_add]
  have h2 : addSize filename.strlen 1 = filename.strlen + 1 := add_size (by omega)
  have h3 : subSize filename.strlen 0 = filename.strlen := by
    have := sub_size (a := 0) (b := filename.strlen) (by omega)
    rwa [zero_add] at this
  rw [copyArgv]
  simp only [h1, h2, h3]
  rw [if_neg (not_le.2 h)]
  have hzero : (Mem.mk (fun _ => 0) 0).bytes = cstr [] := by
    funext i
    rfl
  have hnext := memcpy_packed hzero filename
  have htop := top_packed ⟨fun _ => 0, 0⟩ 0 (cstr filename.bytes) filename.strlen
  simp only [List.length_nil, zero_add, List.nil_append] at hnext htop
  have hl' : (filename.bytes ++ [0]).length = filename.strlen + 1 := by
    rw [List.length_append, List.length_singleton, ← hlen]
  have hrec := copyArgs_spec argv (filename.bytes ++ [0]) _ hnext (by omega)
  rw [hl', htop, Nat.max_eq_right (Nat.zero_le _)] at hrec
  exact hrec

theorem copyArgv_long {filename : CString} (argv : List (Option CString)) (h : pageSize ≤ filename.strlen) :
    copyArgv filename ⟨fun _ => 0, 0⟩ pageSize argv = (-error, ⟨fun _ => 0, 0⟩) := by
  have hfits := filename.fits
  have hlen : filename.strlen = filename.bytes.length := rfl
  have h1 : addSize 0 filename.strlen = filename.strlen := by rw [add_size (by omega), zero_add]
  rw [copyArgv]
  exact if_pos (h1.symm ▸ h)

/-- **copy_argv.** It writes behind the page for a filename of 4095 bytes, and nowhere else. -/
theorem copyArgv_spec (filename : CString) (argv : List (Option CString)) :
    let res := copyArgv filename ⟨fun _ => 0, 0⟩ pageSize argv
    (res.2.top ≤ pageSize ↔ filename.strlen ≠ pageSize - 1) ∧ (res.1 < 0 ∨ res.1 = success) ∧
      (filename.strlen ≠ pageSize - 1 → (res.1 = success ↔ Packs filename argv)) ∧
      ∀ strs, res.1 = success → argv = strs.map some → res.2.bytes = cstr (packed (filename :: strs)) := by
  have hpage : pageSize = 4096 := rfl
  dsimp only
  rcases Nat.lt_or_ge filename.strlen pageSize with hlt | hfull
  · obtain ⟨⟨r1, r2⟩, r3, r4, r5⟩ := copyArgv_copied filename argv hlt
    have hl' : (filename.bytes ++ [0]).length = filename.strlen + 1 := by
      rw [List.length_append, List.length_singleton, CString.strlen]
    rw [hl'] at r4
    refine ⟨by omega, r3, fun hne => r4.trans ?_, r5⟩
    constructor
    · intro ⟨strs, he, hroom⟩
      refine ⟨strs, he, ?_⟩
      rw [packed_cons_length]
      rcases hroom with rfl | hroom
      · show filename.strlen + 1 + 0 < pageSize
        omega
      · omega
    · intro ⟨strs, he, hroom⟩
      rw [packed_cons_length] at hroom
      exact ⟨strs, he, Or.inr (by omega)⟩
  · rw [copyArgv_long argv hfull]
    refine ⟨iff_of_true (Nat.zero_le _) (by omega), Or.inl (by decide), fun _ => ?_, fun _ he => absurd he (by decide)⟩
    refine iff_of_false (by decide) fun ⟨strs, _, hroom⟩ => ?_
    rw [packed_cons_length] at hroom
    omega

/-! ## The page of pointers -/

theorem strlen_eq {p : Ptr} {l : List Byte} (hp : ∀ i ≤ l.length, p i = cstr l i) (hl : ∀ b ∈ l, b ≠ 0)
    (hfits : l.length ≤ 2 ^ 32) : strlen p = l.length := by
  have hnul : p l.length = 0 := by rw [hp _ le_rfl, cstr_end l le_rfl]
  rw [strlen, strnlen_eq, strn_stop hnul hfits, strn_congr fun i hi => hp i hi.le, strn_cstr l hl, List.take_length]

theorem Mem.word_top (m : Mem) (i w : ℕ) : (m.word i w).top = max m.top (i + 4) := by
  show max (max (max (max m.top (i + 1)) (i + 1 + 1)) (i + 2 + 1)) (i + 3 + 1) = _
  omega

theorem Mem.word_bytes (m : Mem) {i j : ℕ} (w : ℕ) (hj : j < i) : (m.word i w).bytes j = m.bytes j := by
  have hput : ∀ (m : Mem) (k : ℕ) (x : Byte), j < k → (m.put k x).bytes j = m.bytes j := fun m k x hk =>
    Function.update_of_ne hk.ne ..
  rw [word, hput _ _ _ (by omega), hput _ _ _ (by omega), hput _ _ _ (by omega), hput _ _ _ hj]

/-- a word for the first string, and the loop goes on behind its NUL -/
theorem writeArgs_cons (userAddr : ℕ) {s : CString} {strs : List CString} {pre : List Byte} {m : Mem} {iter : ℕ} (read : ℕ)
    (hm : ∀ j < pageSize, m.bytes j = cstr (pre ++ packed (s :: strs)) j)
    (hroom : (pre ++ packed (s :: strs)).length ≤ pageSize)
    (hiter : pageSize ≤ iter) :
    let pre' := pre ++ (s.bytes ++ [0])
    pre' ++ packed strs = pre ++ packed (s :: strs) ∧ pre'.length ≤ pageSize ∧
      (∀ j < pageSize, (m.word iter (userAddr + pre.length)).bytes j = cstr (pre' ++ packed strs) j) ∧
      writeArgs userAddr (strs.length + 1) m iter pre.length read =
        writeArgs userAddr strs.length (m.word iter (userAddr + pre.length)) (iter + sizeofPointer) pre'.length
          (max read pre'.length) := by
  have hsplit : pre ++ packed (s :: strs) = pre ++ (s.bytes ++ [0]) ++ packed strs := by
    rw [packed_cons, List.append_assoc pre]
  have hpre : (pre ++ (s.bytes ++ [0])).length = pre.length + s.bytes.length + 1 := by
    rw [List.length_append, List.length_append, List.length_singleton, add_assoc]
  rw [hsplit] at hm hroom
  have hlong : pre.length + s.bytes.length + 1 ≤ pageSize := by
    rw [List.length_append, hpre] at hroom
    omega
  have hbytes : ∀ j < pageSize, (m.word iter (userAddr + pre.length)).bytes j =
      cstr (pre ++ (s.bytes ++ [0]) ++ packed strs) j :=
    fun j hj => (m.word_bytes _ (by omega)).trans (hm j hj)
  have hstr : strlen ((m.word iter (userAddr + pre.length)).bytes.add pre.length) = s.bytes.length := by
    refine strlen_eq (fun i hi => ?_) s.clean (by have := s.fits; omega)
    show (m.word iter (userAddr + pre.length)).bytes (i + pre.length) = _
    rw [hbytes _ (by omega), cstr_append, if_pos (by omega), cstr_append, if_neg (by omega), Nat.add_sub_cancel, cstr_nul]
  refine ⟨hsplit.symm, hpre ▸ hlong, hbytes, ?_⟩
  rw [writeArgs]
  simp only [hstr]
  rw [← hpre]

/-- **The loop of write_argv_to_user.** A word for each string, and no string is read beyond its NUL. -/
theorem writeArgs_spec (userAddr : ℕ) (strs : List CString) (pre : List Byte) (m : Mem) (iter read : ℕ)
    (hm : ∀ j < pageSize, m.bytes j = cstr (pre ++ packed strs) j) (hroom : (pre ++ packed strs).length ≤ pageSize)
    (hiter : pageSize ≤ iter) (hread : read ≤ pageSize) :
    (writeArgs userAddr strs.length m iter pre.length read).1.top =
      (if strs = [] then m.top else max m.top (iter + 4 * strs.length)) ∧
    (writeArgs userAddr strs.length m iter pre.length read).2 ≤ pageSize := by
  induction strs generalizing pre m iter read with
  | nil => exact ⟨rfl, hread⟩
  | cons s strs ih =>
    obtain ⟨hsplit, hlong, hbytes, hstep⟩ := writeArgs_cons userAddr read hm hroom hiter
    rw [List.length_cons, hstep]
    obtain ⟨h1, h2⟩ := ih (pre ++ (s.bytes ++ [0])) (m.word iter (userAddr + pre.length)) (iter + sizeofPointer)
      (max read (pre ++ (s.bytes ++ [0])).length) hbytes (hsplit ▸ hroom) (by omega) (max_le hread hlong)
    refine ⟨?_, h2⟩
    rw [h1, m.word_top, if_neg (List.cons_ne_nil s strs)]
    have hsize : sizeofPointer = 4 := rfl
    split_ifs with hnil
    · rw [hnil]
      rfl
    · omega

/-- **write_argv_to_user.** One word more than there are arguments, and no byte behind the argument page is read. -/
theorem writeArgvToUser_spec {argPage : Ptr} (stale : Ptr) {strs : List CString} (hne : strs ≠ [])
    (hpage : argPage = cstr (packed strs)) (hroom : (packed strs).length ≤ pageSize) :
    (writeArgvToUser argPage stale strs.length).1.top = pageSize + 4 * strs.length ∧
      (writeArgvToUser argPage stale strs.length).2 ≤ pageSize := by
  have hspec := writeArgs_spec (pageOffset - 2 * pageSize) strs []
    ⟨fun j => if j < pageSize then argPage j else stale (j - pageSize), pageSize⟩ pageSize 0
    (fun j hj => (if_pos hj).trans (congrFun hpage j)) hroom le_rfl (Nat.zero_le _)
  rw [if_neg hne] at hspec
  refine ⟨hspec.1.trans ?_, hspec.2⟩
  show max pageSize (pageSize + 4 * strs.length) = _
  omega

/-! ## The three buffers -/

/-- what is touched lies inside: the argument page, the two pages below PAGE_OFFSET, and the buffer of printk -/
structure Inside (t : Touched) : Prop where
  argPage : t.argPage ≤ pageSize
  pointers : t.pointers ≤ 2 * pageSize
  read : t.read ≤ pageSize
  message : t.message ≤ printkSize

/-- not 4095 bytes of filename; no 1024 arguments that fit and a program that loads; no more than 997 bytes of filename and
arguments that fit if the file is not executable -/
structure Short (path : CString) (argv : List (Option CString)) (load : ℤ) : Prop where
  filename : path.strlen ≠ 4095
  pointers : Packs path argv → 0 ≤ load → argv.length ≠ 1024
  message : Packs path argv → load = -eNoexec → path.strlen ≤ 997

theorem printk_message (filename : CString) : printk "%s is not a executable file." [filename] = filename.strlen + 27 := by
  have hfmt : ("%s is not a executable file.").toList = '%' :: 's' :: (" is not a executable file.").toList := rfl
  rw [printk, hfmt, vsprintf, List.length_append]
  rfl

variable {filename : CString} {argv : List (Option CString)} {load : ℤ}

/-- too many arguments are refused -/
theorem touched_refused (stale : Ptr) (hargc : 1024 < argv.length) :
    sysExecBuffers filename argv load stale = ⟨0, pageSize, 0, 0⟩ := if_pos hargc

/-- the NUL behind a filename of 4095 bytes is one byte too far -/
theorem touched_over (stale : Ptr) (hargc : argv.length ≤ 1024) (hname : filename.strlen = 4095) :
    pageSize < (sysExecBuffers filename argv load stale).argPage := by
  obtain ⟨htop, -⟩ := copyArgv_spec filename argv
  have hover : pageSize < (copyArgv filename ⟨fun _ => 0, 0⟩ pageSize argv).2.top := not_le.1 fun h => htop.1 h hname
  rw [sysExecBuffers, if_neg (show ¬ argv.length > pageSize / sizeofPointer from not_lt.2 hargc)]
  dsimp only
  split_ifs <;> exact hover

/-- arguments that do not fit are refused -/
theorem touched_unpacked (stale : Ptr) (hargc : argv.length ≤ 1024) (hname : filename.strlen ≠ 4095)
    (hno : ¬ Packs filename argv) : ∃ top ≤ pageSize, sysExecBuffers filename argv load stale =
    ⟨top, pageSize, 0, 0⟩ := by
  obtain ⟨htop, hret, hcopied, -⟩ := copyArgv_spec filename argv
  have hneg := hret.resolve_right fun he => hno ((hcopied hname).1 he)
  refine ⟨_, htop.2 hname, ?_⟩
  rw [sysExecBuffers, if_neg (show ¬ argv.length > pageSize / sizeofPointer from not_lt.2 hargc)]
  exact if_pos hneg

/-- arguments that fit: a program that loads gets a word for each of them and for the filename -/
theorem touched_loads (stale : Ptr) (hargc : argv.length ≤ 1024) (hname : filename.strlen ≠ 4095)
    (hpacks : Packs filename argv) (hload : 0 ≤ load) : ∃ top ≤ pageSize, ∃ read ≤ pageSize,
      sysExecBuffers filename argv load stale = ⟨top, pageSize + 4 * (argv.length + 1), read, 0⟩ := by
  obtain ⟨htop, -, hcopied, hbytes⟩ := copyArgv_spec filename argv
  have hok := (hcopied hname).2 hpacks
  obtain ⟨strs, hargv, hroom⟩ := hpacks
  have hlength : argv.length + 1 = (filename :: strs).length := by rw [hargv, List.length_map, List.length_cons]
  obtain ⟨h1, h2⟩ := writeArgvToUser_spec stale (List.cons_ne_nil filename strs) (hbytes strs hok hargv) hroom.le
  rw [← hlength] at h1 h2
  refine ⟨_, htop.2 hname, _, h2, ?_⟩
  have hpos : ¬ (copyArgv filename ⟨fun _ => 0, 0⟩ pageSize argv).1 < 0 := by rw [hok]; decide
  rw [sysExecBuffers, if_neg (show ¬ argv.length > pageSize / sizeofPointer from not_lt.2 hargc), ← h1]
  dsimp only
  rw [if_neg hpos, if_pos hload]

/-- arguments that fit, and a file that is not executable or cannot be loaded -/
theorem touched_fails (stale : Ptr) (hargc : argv.length ≤ 1024) (hname : filename.strlen ≠ 4095)
    (hpacks : Packs filename argv) (hload : load < 0) : ∃ top ≤ pageSize,
      sysExecBuffers filename argv load stale = ⟨top, pageSize, 0, if load = -eNoexec then filename.strlen + 27 else 0⟩ := by
  obtain ⟨htop, -, hcopied, -⟩ := copyArgv_spec filename argv
  have hpos : ¬ (copyArgv filename ⟨fun _ => 0, 0⟩ pageSize argv).1 < 0 := by rw [(hcopied hname).2 hpacks]; decide
  refine ⟨_, htop.2 hname, ?_⟩
  rw [sysExecBuffers, if_neg (show ¬ argv.length > pageSize / sizeofPointer from not_lt.2 hargc), ← printk_message]
  dsimp only
  rw [if_neg hpos, if_neg (not_le.2 hload)]

/-- **The buffers of sys_exec.** For every filename, every argv and every outcome of the load: what sys_exec and its child
write, and the strings they read, are inside the buffers exactly if too many arguments are refused or the three limits are
kept. -/
theorem buffers_inside_iff (filename : CString) (argv : List (Option CString)) (load : ℤ) (stale : Ptr) :
    Inside (sysExecBuffers filename argv load stale) ↔ 1024 < argv.length ∨ Short filename argv load := by
  have hpage : pageSize = 4096 := rfl
  have hprintk : printkSize = 1024 := rfl
  by_cases hmany : 1024 < argv.length
  · rw [touched_refused stale hmany]
    exact iff_of_true ⟨Nat.zero_le _, by decide, Nat.zero_le _, Nat.zero_le _⟩ (Or.inl hmany)
  rw [or_iff_right hmany]
  have hargc := not_lt.1 hmany
  by_cases hname : filename.strlen = 4095
  · exact iff_of_false (fun h => absurd h.argPage (not_le.2 (touched_over stale hargc hname))) fun h => h.filename hname
  by_cases hpacks : Packs filename argv
  · by_cases hload : 0 ≤ load
    · obtain ⟨top, htop, read, hread, he⟩ := touched_loads stale hargc hname hpacks hload
      have hne : load ≠ -eNoexec := fun he => by
        rw [he] at hload
        exact absurd hload (by decide)
      rw [he]
      constructor
      · intro h
        have hpointers : pageSize + 4 * (argv.length + 1) ≤ 2 * pageSize := h.pointers
        exact ⟨hname, fun _ _ => by omega, fun _ he => absurd he hne⟩
      · intro h
        have hlen := h.pointers hpacks hload
        exact ⟨htop, show pageSize + 4 * (argv.length + 1) ≤ 2 * pageSize by omega, hread, Nat.zero_le _⟩
    · obtain ⟨top, htop, he⟩ := touched_fails stale hargc hname hpacks (not_le.1 hload)
      rw [he]
      constructor
      · intro h
        have hmessage : (if load = -eNoexec then filename.strlen + 27 else 0) ≤ printkSize := h.message
        refine ⟨hname, fun _ hle => absurd hle hload, fun _ hexec => ?_⟩
        rw [if_pos hexec] at hmessage
        omega
      · intro h
        refine ⟨htop, by show pageSize ≤ 2 * pageSize; omega, Nat.zero_le _, ?_⟩
        show (if load = -eNoexec then filename.strlen + 27 else 0) ≤ printkSize
        split_ifs with hexec
        · have hshort := h.message hpacks hexec
          omega
        · exact Nat.zero_le _
  · obtain ⟨top, htop, he⟩ := touched_unpacked stale hargc hname hpacks
    rw [he]
    exact iff_of_true ⟨htop, by show pageSize ≤ 2 * pageSize; omega, Nat.zero_le _, Nat.zero_le _⟩
      ⟨hname, fun h => absurd h hpacks, fun h => absurd h hpacks⟩

/-- n bytes `a` -/
def letters (n : ℕ) (h : n + 2 * pageSize < 2 ^ 32) : CString where
  bytes := List.replicate n 0x61
  clean := fun b hb => by rw [List.eq_of_mem_replicate hb]; decide
  fits := by rwa [List.length_replicate]

theorem letters_strlen (n : ℕ) (h : n + 2 * pageSize < 2 ^ 32) : (letters n h).strlen = n := List.length_replicate

def emptyArgs : List CString := List.replicate 1024 (letters 0 (by decide))

/-- a filename of 4095 bytes; 1024 empty arguments, which take a pointer at PAGE_OFFSET; a filename of 1000 bytes that is not
executable -/
theorem buffers_overrun :
    pageSize < (sysExecBuffers (letters 4095 (by decide)) [] success fun _ => 0).argPage ∧
    2 * pageSize < (sysExecBuffers (letters 1 (by decide)) (emptyArgs.map some) success fun _ => 0).pointers ∧
    printkSize < (sysExecBuffers (letters 1000 (by decide)) [] (-eNoexec) fun _ => 0).message := by
  refine ⟨touched_over _ (by decide) (letters_strlen _ _), ?_, ?_⟩
  · have hlen : (emptyArgs.map some).length = 1024 := by rw [List.length_map, emptyArgs, List.length_replicate]
    have hpacks : Packs (letters 1 (by decide)) (emptyArgs.map some) := by
      refine ⟨emptyArgs, rfl, ?_⟩
      have hsum : ∀ n, (packed (List.replicate n (letters 0 (by decide)))).length = n := fun n => by
        induction n with
        | zero => rfl
        | succ n ih =>
          rw [List.replicate_succ, packed_cons, List.length_append, ih]
          exact Nat.add_comm 1 n
      rw [packed_cons, List.length_append, emptyArgs, hsum]
      decide
    obtain ⟨_, -, _, -, he⟩ := touched_loads (fun _ => 0) hlen.le (by rw [letters_strlen]; decide) hpacks (le_refl success)
    rw [he, hlen]
    show 2 * pageSize < pageSize + 4 * (1024 + 1)
    decide
  · have hpacks : Packs (letters 1000 (by decide)) [] := by
      refine ⟨[], rfl, ?_⟩
      rw [packed_cons, List.length_append, List.length_append, ← CString.strlen, letters_strlen]
      decide
    obtain ⟨_, -, he⟩ := touched_fails (fun _ => 0) (by decide) (by rw [letters_strlen]; decide) hpacks
      (by decide : -eNoexec < 0)
    rw [he, letters_strlen]
    show printkSize < if -eNoexec = -eNoexec then 1000 + 27 else 0
    decide

end SinsOs.Exec
