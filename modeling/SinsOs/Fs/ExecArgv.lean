/-
The arguments that the new program finds (copy_argv and write_argv_to_user, fs/exec.c).

- `copyArgv_fits`: copy_argv succeeds only for strings that fit in the page with their terminators.
- `argv_delivered`: then every pointer of the array points to its string.
-/
import SinsOs.Fs.Exec

namespace SinsOs.Exec

open SinsOs.Lib

variable {filename : CString} {argv : List (Option CString)}

/-! ## Statement -/

/-- where write_argv_to_user maps the argument page -/
def argPageAddr : ℕ := pageOffset - 2 * pageSize

/-- the word at an offset, the low byte first -/
def Mem.read (m : Mem) (i : ℕ) : ℕ :=
  (m.bytes i).toNat + 2 ^ 8 * (m.bytes (i + 1)).toNat + 2 ^ 16 * (m.bytes (i + 2)).toNat + 2 ^ 24 * (m.bytes (i + 3)).toNat

/-- the address is that of the string and its NUL, which lie inside the argument page -/
def PointsTo (m : Mem) (addr : ℕ) (s : CString) : Prop :=
  ∃ off, addr = argPageAddr + off ∧ off + s.strlen < pageSize ∧ ∀ i ≤ s.strlen, m.bytes (off + i) = cstr s.bytes i

/-! ## The argument page -/

theorem put_congr {m m' : Mem} {n : ℕ} (h : ∀ j < n, m.bytes j = m'.bytes j) (i : ℕ) (x : Byte) :
    ∀ j < n, (m.put i x).bytes j = (m'.put i x).bytes j := by
  intro j hj
  show Function.update m.bytes i x j = Function.update m'.bytes i x j
  by_cases hi : j = i
  · rw [hi, Function.update_self, Function.update_self]
  · rw [Function.update_of_ne hi, Function.update_of_ne hi, h j hj]

theorem memcpy_congr {m m' : Mem} {n : ℕ} (h : ∀ j < n, m.bytes j = m'.bytes j) (i : ℕ) (src : Ptr) (len : ℕ) :
    ∀ j < n, (m.memcpy i src len).bytes j = (m'.memcpy i src len).bytes j := by
  intro j hj
  show (if i ≤ j ∧ j < i + len then src (j - i) else m.bytes j) = if i ≤ j ∧ j < i + len then src (j - i) else m'.bytes j
  rw [h j hj]

/-- copy_argv reads nothing from the page -/
theorem copyArgs_congr (size n : ℕ) (argv : List (Option CString)) {m m' : Mem} (h : ∀ j < n, m.bytes j = m'.bytes j)
    (start : ℕ) : (copyArgs size argv m start).1 = (copyArgs size argv m' start).1 ∧
      ∀ j < n, (copyArgs size argv m start).2.bytes j = (copyArgs size argv m' start).2.bytes j := by
  induction argv generalizing m m' start with
  | nil => exact ⟨rfl, h⟩
  | cons arg argv ih =>
    cases arg with
    | none => exact ⟨rfl, h⟩
    | some s =>
      rw [copyArgs, copyArgs]
      dsimp only
      split_ifs
      · exact ⟨rfl, h⟩
      · exact ih (put_congr (memcpy_congr h _ _ _) _ _) _

theorem copyArgv_congr (filename : CString) (argv : List (Option CString)) {m m' : Mem}
    (h : ∀ j < pageSize, m.bytes j = m'.bytes j) :
    (copyArgv filename m pageSize argv).1 = (copyArgv filename m' pageSize argv).1 ∧
      ∀ j < pageSize, (copyArgv filename m pageSize argv).2.bytes j = (copyArgv filename m' pageSize argv).2.bytes j := by
  rw [copyArgv, copyArgv]
  dsimp only
  split_ifs
  · exact ⟨rfl, h⟩
  · exact copyArgs_congr _ _ argv (put_congr (memcpy_congr h _ _ _) _ _) _

/-- **copy_argv succeeds only for strings that fit.** The test of the filename allows one byte more than that of the others. -/
theorem copyArgv_fits (h : (copyArgv filename ⟨fun _ => 0, 0⟩ pageSize argv).1 = success) :
    ∃ strs, argv = strs.map some ∧ (packed (filename :: strs)).length ≤ pageSize := by
  rcases Nat.lt_or_ge filename.strlen pageSize with hlt | hfull
  · obtain ⟨strs, hargv, hroom⟩ := (copyArgv_copied filename argv hlt).copied.1 h
    refine ⟨strs, hargv, ?_⟩
    rw [packed_cons_length]
    rcases hroom with rfl | hroom
    · show filename.strlen + 1 + 0 ≤ pageSize
      omega
    · rw [List.length_append, List.length_singleton, ← CString.strlen] at hroom
      omega
  · rw [copyArgv_long argv hfull] at h
    cases h

/-- a string of the page, and the NUL behind it -/
theorem packed_string (pre post : List CString) (s : CString) {i : ℕ} (hi : i ≤ s.strlen) :
    cstr (packed (pre ++ s :: post)) ((packed pre).length + i) = cstr s.bytes i := by
  have hsplit : packed (pre ++ s :: post) = packed pre ++ (s.bytes ++ [0] ++ packed post) := by
    rw [packed, List.flatMap_append, ← packed, ← packed, packed_cons]
  have hlen : (s.bytes ++ [0]).length = s.strlen + 1 := by rw [List.length_append, List.length_singleton, CString.strlen]
  rw [hsplit, cstr_append, if_neg (by omega), Nat.add_sub_cancel_left, cstr_append, if_pos (by omega), cstr_nul]

/-! ## The page of pointers -/

theorem Mem.put_bytes (m : Mem) {i j : ℕ} (x : Byte) (hj : j ≠ i) : (m.put i x).bytes j = m.bytes j :=
  Function.update_of_ne hj ..

theorem Mem.put_self (m : Mem) (i : ℕ) (x : Byte) : (m.put i x).bytes i = x := Function.update_self ..

/-- a word is read back -/
theorem Mem.read_word (m : Mem) (i : ℕ) {w : ℕ} (hw : w < 2 ^ 32) : (m.word i w).read i = w := by
  have h0 : (m.word i w).bytes i = BitVec.ofNat 8 w := by
    rw [word, put_bytes _ _ (by omega), put_bytes _ _ (by omega), put_bytes _ _ (by omega), put_self]
  have h1 : (m.word i w).bytes (i + 1) = BitVec.ofNat 8 (w / 2 ^ 8) := by
    rw [word, put_bytes _ _ (by omega), put_bytes _ _ (by omega), put_self]
  have h2 : (m.word i w).bytes (i + 2) = BitVec.ofNat 8 (w / 2 ^ 16) := by
    rw [word, put_bytes _ _ (by omega), put_self]
  have h3 : (m.word i w).bytes (i + 3) = BitVec.ofNat 8 (w / 2 ^ 24) := put_self ..
  rw [read, h0, h1, h2, h3]
  simp only [BitVec.toNat_ofNat]
  omega

theorem Mem.read_congr {m m' : Mem} {i : ℕ} (h : ∀ j < i + 4, m.bytes j = m'.bytes j) : m.read i = m'.read i := by
  rw [read, read, h i (by omega), h (i + 1) (by omega), h (i + 2) (by omega), h (i + 3) (by omega)]

/-- **The words of write_argv_to_user.** Each is the address of its string, and the bytes in front of them stay. -/
theorem writeArgs_words {userAddr : ℕ} (huser : userAddr + pageSize < 2 ^ 32) (strs : List CString) (pre : List Byte) (m : Mem)
    (iter read : ℕ) (hm : ∀ j < pageSize, m.bytes j = cstr (pre ++ packed strs) j)
    (hroom : (pre ++ packed strs).length ≤ pageSize) (hiter : pageSize ≤ iter) :
    (∀ j < iter, (writeArgs userAddr strs.length m iter pre.length read).1.bytes j = m.bytes j) ∧
    ∀ k < strs.length, (writeArgs userAddr strs.length m iter pre.length read).1.read (iter + 4 * k) =
      userAddr + (pre ++ packed (strs.take k)).length := by
  induction strs generalizing pre m iter read with
  | nil => exact ⟨fun _ _ => rfl, nofun⟩
  | cons s strs ih =>
    obtain ⟨hsplit, hlong, hbytes, hstep⟩ := writeArgs_cons userAddr read hm hroom hiter
    rw [List.length_cons, hstep]
    obtain ⟨hkeep, hwords⟩ := ih (pre ++ (s.bytes ++ [0])) (m.word iter (userAddr + pre.length)) (iter + 4)
      (max read (pre ++ (s.bytes ++ [0])).length) hbytes (hsplit ▸ hroom) (by omega)
    refine ⟨fun j hj => (hkeep j (by omega)).trans (m.word_bytes _ hj), fun k hk => ?_⟩
    cases k with
    | zero =>
      have hpre : pre.length ≤ pageSize := by
        rw [List.length_append] at hroom
        omega
      calc (writeArgs userAddr strs.length _ (iter + 4) _ _).1.read iter
        _ = (m.word iter (userAddr + pre.length)).read iter := Mem.read_congr hkeep
        _ = userAddr + pre.length := m.read_word iter (by omega)
        _ = userAddr + (pre ++ packed []).length := by rw [packed, List.flatMap_nil, List.append_nil]
    | succ k =>
      have hnext : iter + 4 * (k + 1) = iter + 4 + 4 * k := by omega
      rw [hnext]
      refine (hwords k (Nat.lt_of_succ_lt_succ hk)).trans ?_
      rw [List.take_succ_cons, packed_cons, List.append_assoc]

/-- **The arguments arrive.** For every filename, every argv with argc + 1 pointers in one page and every page of zeros for which
copy_argv succeeds: no pointer of argv is NULL, the strings and their terminators fit in the page, and each of the argc + 1 words
at PAGE_OFFSET - PAGE_SIZE points into the argument page to a string equal to its element of the filename and argv. -/
theorem argv_delivered (filename : CString) (argv : List (Option CString)) (dest : Mem) (stale : Ptr)
    (hzero : ∀ j < pageSize, dest.bytes j = 0) (hargc : sizeofPointer * (argv.length + 1) ≤ pageSize)
    (hret : (copyArgv filename dest pageSize argv).1 = success) :
    ∃ strs, argv = strs.map some ∧ (packed (filename :: strs)).length ≤ pageSize ∧
      ∀ k (hk : k < (filename :: strs).length),
        let m := (writeArgvToUser (copyArgv filename dest pageSize argv).2.bytes stale (argv.length + 1)).1
        pageSize + sizeofPointer * k + sizeofPointer ≤ 2 * pageSize ∧
          PointsTo m (m.read (pageSize + sizeofPointer * k)) ((filename :: strs).get ⟨k, hk⟩) := by
  obtain ⟨hsame, hpage⟩ := @copyArgv_congr filename argv dest ⟨fun _ => 0, 0⟩ hzero
  rw [hsame] at hret
  obtain ⟨strs, hargv, hroom⟩ := copyArgv_fits hret
  refine ⟨strs, hargv, hroom, fun k hk => ?_⟩
  have hlength : argv.length + 1 = (filename :: strs).length := by rw [hargv, List.length_map, List.length_cons]
  have hbytes := (copyArgv_spec filename argv).2.2.2 strs hret hargv
  obtain ⟨hkeep, hwords⟩ := writeArgs_words (by decide : argPageAddr + pageSize < 2 ^ 32) (filename :: strs) []
    ⟨fun j => if j < pageSize then (copyArgv filename dest pageSize argv).2.bytes j else stale (j - pageSize), pageSize⟩
    pageSize 0 (fun j hj => (if_pos hj).trans ((hpage j hj).trans (congrFun hbytes j))) hroom le_rfl
  have hsplit : filename :: strs = (filename :: strs).take k ++ (filename :: strs).get ⟨k, hk⟩ ::
      (filename :: strs).drop (k + 1) := by
    rw [List.get_eq_getElem, List.getElem_cons_drop, List.take_append_drop]
  generalize hs : (filename :: strs).get ⟨k, hk⟩ = s at hsplit ⊢
  generalize hpre : (filename :: strs).take k = pre at hsplit
  generalize hpost : (filename :: strs).drop (k + 1) = post at hsplit
  have hend : (packed pre).length + s.strlen < pageSize := by
    have htotal : (packed (pre ++ s :: post)).length = (packed pre).length + (packed (s :: post)).length := by
      rw [packed, List.flatMap_append, List.length_append, ← packed, ← packed]
    rw [hsplit, htotal, packed_cons_length] at hroom
    omega
  rw [hlength]
  refine ⟨?_, (packed pre).length, ?_, hend, fun i hi => ?_⟩
  · have hsize : sizeofPointer = 4 := rfl
    rw [hsize] at hargc ⊢
    omega
  · rw [← hpre]
    exact hwords k hk
  · calc _ = _ := hkeep ((packed pre).length + i) (by omega)
      _ = (copyArgv filename dest pageSize argv).2.bytes ((packed pre).length + i) := if_pos (by omega)
      _ = cstr (packed (filename :: strs)) ((packed pre).length + i) := (hpage _ (by omega)).trans (congrFun hbytes _)
      _ = cstr s.bytes i := by rw [hsplit, packed_string pre post s hi]

theorem fits_92 : 92 + 2 * pageSize < 2 ^ 32 := by decide

theorem fits_zero : 0 + 2 * pageSize < 2 ^ 32 := by decide

/-- an argument of 92 bytes and an empty one -/
def twoArgs : List CString := [letters 92 fits_92, letters 0 fits_zero]

/-- with a filename of 4000 bytes they leave one byte of the page -/
theorem argv_delivered_two : ∃ strs, twoArgs.map some = strs.map some ∧
    (packed (letters 4000 (by decide) :: strs)).length ≤ pageSize ∧
    ∀ k (hk : k < (letters 4000 (by decide) :: strs).length),
      let m := (writeArgvToUser (copyArgv (letters 4000 (by decide)) ⟨fun _ => 0, 0⟩ pageSize (twoArgs.map some)).2.bytes
        (fun _ => 0) 3).1
      pageSize + sizeofPointer * k + sizeofPointer ≤ 2 * pageSize ∧
        PointsTo m (m.read (pageSize + sizeofPointer * k)) ((letters 4000 (by decide) :: strs).get ⟨k, hk⟩) := by
  have hlt : (letters 4000 (by decide)).strlen < pageSize := by rw [letters_strlen]; decide
  have hroom : ((letters 4000 (by decide)).bytes ++ [0]).length + (packed twoArgs).length < pageSize := by
    have hname : (letters 4000 (by decide)).bytes.length = 4000 := letters_strlen 4000 _
    rw [twoArgs, packed_cons_length, packed_cons_length, letters_strlen, letters_strlen, List.length_append, hname]
    decide
  exact argv_delivered _ (twoArgs.map some) ⟨fun _ => 0, 0⟩ (fun _ => 0) (fun _ _ => rfl) (by decide)
    ((copyArgv_copied _ _ hlt).copied.2 ⟨twoArgs, rfl, Or.inr hroom⟩)

end SinsOs.Exec
