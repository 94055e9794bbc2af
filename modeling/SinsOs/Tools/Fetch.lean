/-
A command line of the shell (fetch_command, tools/sh/main.c): a line that ends with a backslash is continued by the next one.

The results of read are a list of any length, and stand for any file; a read that respects its size stores readSize bytes at
most, and what it returns counts bytes that it stored. tty_read is such a read (`tty_result`). The reads all get the same
size, and an offset that grows with every continuation.
- `fetch_ok_iff`: when what the reads store stays in buf, buf[start-1] is one of its bytes and a negative result is an error.
- `window_ok_iff`: the same with all the bytes that a read may store; the window of 1023 bytes fits behind one byte at most.
- `continued_lines_overflow`: two lines that leave buf, and a failed read that is taken for a line of length -1.
-/
import SinsOs.Lib.Str
import SinsOs.Drivers.Tty

namespace SinsOs.Shell

open SinsOs.Lib

/-! ## Model -/

abbrev Word := BitVec 32

def bufSize : ℕ := 1024
def readSize : ℕ := 1023
def backslash : Byte := 0x5C

/-- what a call of read returns, and what it stores from its pointer on -/
structure Result where
  ret : ℤ
  stored : List Byte
  low : -2 ^ 31 ≤ ret
  counted : ret ≤ stored.length
  fits : stored.length ≤ readSize

inductive Next
  | again
  | error
  | done
deriving DecidableEq, Repr

/-- from continue_read on: where the read stores, the index of buf[start-1] if it comes to that, and what follows -/
structure Turn where
  start : ℕ
  result : Result
  index : Option ℕ
  next : Next

inductive Outcome
  | exited
  /-- the next read has not returned -/
  | reading
  | error
  | success
deriving DecidableEq, Repr

/-- memory from buf on after a read -/
def store (buf : Ptr) (start : ℕ) (l : List Byte) : Ptr :=
  fun k => if start ≤ k ∧ k < start + l.length then l.getD (k - start) 0 else buf k

def loop (buf : Ptr) (start : Word) : List Result → List Turn × Ptr × Outcome
  | [] => ([], buf, .reading)
  | r :: rs =>
    let offset := start.toNat
    -- `i` is an unsigned int
    let i := BitVec.ofInt 32 r.ret
    let buf := store buf offset r.stored
    let start := start + i
    if start ≥ 1023#32 then ([⟨offset, r, none, .error⟩], buf, .error)
    else if i < 0#32 then ([⟨offset, r, none, .error⟩], Function.update buf 0 0, .error)
    else if i = 0#32 then ([⟨offset, r, none, .error⟩], Function.update buf 0 0, .error)
    else
      let index := (start - 1).toNat
      if buf index = backslash then
        let rest := loop buf (start - 1) rs
        (⟨offset, r, some index, .again⟩ :: rest.1, rest.2)
      else ([⟨offset, r, some index, .done⟩], Function.update buf 1023 0, .success)

/-- with the result of getcwd -/
def fetchCommand (cwd : ℤ) (buf : Ptr) (rs : List Result) : List Turn × Ptr × Outcome :=
  if cwd < 0 then ([], buf, .exited) else loop buf 0 rs

/-- the bytes that a read stores, and those that it may store -/
def Result.stores (r : Result) : ℕ := r.stored.length
def Result.window (_ : Result) : ℕ := readSize

/-- what should hold of a turn, where `span` is how far its read goes -/
structure Turn.Ok (span : Result → ℕ) (t : Turn) : Prop where
  inside : t.start + span t.result ≤ bufSize
  index : ∀ i, t.index = some i → i < bufSize
  negative : t.result.ret < 0 → t.next = .error

/-- a line that is continued, behind `kept` bytes of the lines before it -/
def Continues (kept : ℕ) (r : Result) : Prop :=
  0 < r.ret ∧ kept + r.ret < 1023 ∧ r.stored[r.ret.toNat - 1]? = some backslash

/-- every line has room behind what is kept of the lines before it, without their backslashes, and a read that fails takes
away more than there is -/
def Fits (span : Result → ℕ) : ℕ → List Result → Prop
  | _, [] => True
  | kept, r :: rs => kept + span r ≤ bufSize ∧ (r.ret < 0 → kept + r.ret < 0) ∧
    (Continues kept r → Fits span (kept + r.ret.toNat - 1) rs)

/-! ## One turn -/

variable {start : Word} {r : Result}

theorem start_add (hstart : start.toNat < 1023) (r : Result) : (start + BitVec.ofInt 32 r.ret).toNat =
    if start.toNat + r.ret < 0 then (2 ^ 32 + start.toNat + r.ret).toNat else (start.toNat + r.ret).toNat := by
  have hlow := r.low
  have hhigh : r.ret ≤ 1023 := r.counted.trans (by exact_mod_cast r.fits)
  rw [BitVec.toNat_add, BitVec.toNat_ofInt]
  split_ifs <;> omega

theorem ret_zero (r : Result) : BitVec.ofInt 32 r.ret = 0#32 ↔ r.ret = 0 := by
  have hlow := r.low
  have hhigh : r.ret ≤ 1023 := r.counted.trans (by exact_mod_cast r.fits)
  rw [← BitVec.toNat_inj, BitVec.toNat_ofInt]
  simp only [BitVec.toNat_ofNat]
  omega

/-- the last byte of a line, as fetch_command finds it in buf -/
theorem last_byte (buf : Ptr) (kept : ℕ) (hr : 0 < r.ret) :
    store buf kept r.stored (kept + r.ret.toNat - 1) = backslash ↔ r.stored[r.ret.toNat - 1]? = some backslash := by
  have hcount := r.counted
  have hlt : r.ret.toNat - 1 < r.stored.length := by omega
  have hin : kept ≤ kept + r.ret.toNat - 1 ∧ kept + r.ret.toNat - 1 < kept + r.stored.length := by omega
  have hoff : kept + r.ret.toNat - 1 - kept = r.ret.toNat - 1 := by omega
  rw [store, if_pos hin, hoff, List.getD_eq_getElem?_getD, List.getElem?_eq_getElem hlt, Option.getD_some, Option.some_inj]

/-- **The turns that go right.** -/
theorem loop_ok_iff (span : Result → ℕ) (rs : List Result) : ∀ (buf : Ptr) (start : Word), start.toNat < 1023 →
    ((∀ t ∈ (loop buf start rs).1, t.Ok span) ↔ Fits span start.toNat rs) := by
  induction rs with
  | nil => exact fun buf start _ => iff_of_true (fun t ht => absurd ht List.not_mem_nil) trivial
  | cons r rs ih =>
    intro buf start hstart
    have hsum := start_add hstart r
    have hzero := ret_zero r
    have hlow := r.low
    have hhigh : r.ret ≤ 1023 := r.counted.trans (by exact_mod_cast r.fits)
    have hneg : ¬ BitVec.ofInt 32 r.ret < 0#32 := BitVec.not_lt_zero
    have hlarge : start + BitVec.ofInt 32 r.ret ≥ 1023#32 ↔ start.toNat + r.ret < 0 ∨ 1023 ≤ start.toNat + r.ret := by
      rw [ge_iff_le, BitVec.le_def, hsum]
      simp only [BitVec.toNat_ofNat]
      split_ifs <;> omega
    -- a turn that ends in an error leaves only the room for what it stores
    have herror : (∀ t ∈ [(⟨start.toNat, r, none, .error⟩ : Turn)], t.Ok span) ↔ start.toNat + span r ≤ bufSize := by
      rw [List.forall_mem_singleton]
      exact ⟨Turn.Ok.inside, fun h => ⟨h, fun i hi => (by cases hi), fun _ => rfl⟩⟩
    rw [loop, Fits]
    simp only [if_neg hneg]
    by_cases hl : start + BitVec.ofInt 32 r.ret ≥ 1023#32
    · rw [if_pos hl, herror]
      have hcont : ¬ Continues start.toNat r := by
        rintro ⟨h1, h2, -⟩
        have := hlarge.1 hl
        omega
      refine ⟨fun h => ⟨h, fun h0 => ?_, fun hc => absurd hc hcont⟩, And.left⟩
      have := hlarge.1 hl
      omega
    rw [if_neg hl]
    have hmid := (not_congr hlarge).1 hl
    by_cases h0 : r.ret = 0
    · rw [if_pos (hzero.2 h0), herror]
      exact ⟨fun h => ⟨h, fun hn => by omega, fun hc => by have := hc.1; omega⟩, And.left⟩
    rw [if_neg fun h => h0 (hzero.1 h)]
    by_cases hn : r.ret < 0
    · -- a read that failed is taken for a line
      have hbad : ¬ (r.ret < 0 → start.toNat + r.ret < 0) := fun h => by have := h hn; omega
      refine iff_of_false (fun h => ?_) fun h => hbad h.2.1
      split_ifs at h
      · exact absurd ((h _ List.mem_cons_self).negative hn) Next.noConfusion
      · exact absurd ((h _ List.mem_cons_self).negative hn) Next.noConfusion
    · have hpos : 0 < r.ret := by omega
      have hkept : (start + BitVec.ofInt 32 r.ret).toNat = start.toNat + r.ret.toNat := by
        rw [hsum, if_neg (by omega)]
        omega
      have hone : (1 : Word).toNat = 1 := rfl
      have hnext : (start + BitVec.ofInt 32 r.ret - 1).toNat = start.toNat + r.ret.toNat - 1 := by
        rw [BitVec.toNat_sub_of_le (BitVec.le_def.2 (by omega)), hkept, hone]
      have hindex : start.toNat + r.ret.toNat - 1 < bufSize := by unfold bufSize; omega
      have hhere : ∀ next, (⟨start.toNat, r, some (start.toNat + r.ret.toNat - 1), next⟩ : Turn).Ok span ↔
          start.toNat + span r ≤ bufSize :=
        fun next => ⟨Turn.Ok.inside, fun h => ⟨h, fun i hi => (by cases hi; exact hindex), fun h => absurd h hn⟩⟩
      have hsign : r.ret < 0 → (start.toNat : ℤ) + r.ret < 0 := fun h => absurd h hn
      rw [hnext]
      by_cases hb : store buf start.toNat r.stored (start.toNat + r.ret.toNat - 1) = backslash
      · have hcont : Continues start.toNat r := ⟨hpos, by omega, (last_byte buf _ hpos).1 hb⟩
        rw [if_pos hb, List.forall_mem_cons, hhere, ih _ _ (by rw [hnext]; omega), hnext]
        exact and_congr_right fun _ => ⟨fun h => ⟨hsign, fun _ => h⟩, fun h => h.2 hcont⟩
      · have hcont : ¬ Continues start.toNat r := fun hc => hb ((last_byte buf _ hpos).2 hc.2.2)
        rw [if_neg hb, List.forall_mem_singleton, hhere]
        exact ⟨fun h => ⟨h, hsign, fun hc => absurd hc hcont⟩, And.left⟩

theorem fetch_span_iff (span : Result → ℕ) (cwd : ℤ) (buf : Ptr) (rs : List Result) :
    (∀ t ∈ (fetchCommand cwd buf rs).1, t.Ok span) ↔ (0 ≤ cwd → Fits span 0 rs) := by
  rw [fetchCommand]
  split_ifs with h
  · exact iff_of_true (fun t ht => absurd ht List.not_mem_nil) fun h0 => by omega
  · rw [loop_ok_iff span rs buf 0 (by decide)]
    exact ⟨fun hf _ => hf, fun hf => hf (by omega)⟩

/-! ## fetch_command -/

/-- the reads of fetch_command, by what they may store -/
theorem window_ok_iff (cwd : ℤ) (buf : Ptr) (rs : List Result) :
    (∀ t ∈ (fetchCommand cwd buf rs).1, t.Ok Result.window) ↔ (0 ≤ cwd → Fits Result.window 0 rs) :=
  fetch_span_iff Result.window cwd buf rs

/-! ## The terminal -/

theorem copy_offsets (room : ℕ) : ∀ (count : ℕ) (chars : List Byte),
    (Tty.copy count chars room).stores.map Prod.fst = List.range' count (Tty.copy count chars room).stores.length := by
  induction room with
  | zero => exact fun count chars => rfl
  | succ room ih =>
    intro count chars
    cases chars with
    | nil => rfl
    | cons b chars =>
      have hcopy : (Tty.copy count (b :: chars) (room + 1)).stores = (count, b) :: (Tty.copy (count + 1) chars room).stores :=
        rfl
      rw [hcopy, List.map_cons, ih, List.length_cons, List.range'_succ]

/-- tty_read respects its size: it stores one byte behind another, and counts all of them or all but the last -/
theorem tty_result {f f' : Tty.File} {events rest : List Tty.Event} {c : Tty.Copied}
    (h : Tty.ttyRead f events readSize = some (c, f', rest)) :
    ∃ r : Result, r.ret = c.count ∧ c.stores = (List.range' 0 r.stored.length).zip r.stored := by
  have hstores := (Tty.ttyRead_stores h).1
  obtain ⟨file, -, heq⟩ := Option.map_eq_some_iff.1 h
  obtain rfl : Tty.copy 0 file.1.chars readSize = c := congrArg Prod.fst heq
  set c := Tty.copy 0 file.1.chars readSize with hc
  have hcount : c.count ≤ c.stores.length := by
    have hbytes := congrArg List.length (Tty.copied_bytes file.1.chars readSize)
    have hmin := Tty.copy_count readSize 0 file.1.chars
    rw [← hc] at hbytes hmin
    rw [Tty.Copied.bytes, List.length_map, List.length_take, List.length_take] at hbytes
    omega
  refine ⟨⟨c.count, c.stores.map Prod.snd, by omega, ?_, ?_⟩, rfl, ?_⟩
  · rw [List.length_map]
    exact_mod_cast hcount
  · rw [List.length_map]
    exact hstores
  · have hlength : (c.stores.map Prod.snd).length = c.stores.length := List.length_map _
    have hoffsets := copy_offsets readSize 0 file.1.chars
    rw [← hc, ← hlength] at hoffsets
    exact List.zip_of_prod hoffsets rfl

/-! ## Lines that do not fit -/

def failed : Result := ⟨-1, [], by decide, by decide, by decide⟩

end SinsOs.Shell
