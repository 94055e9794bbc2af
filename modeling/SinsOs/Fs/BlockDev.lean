/-
Block devices as files: bread, brelse, blkdev_read, blkdev_write (fs/block_dev.c) and hd_rw_handler (drivers/hd.c).

The state has the disk (one partition), the memory and the accesses that the copy loops make through p. `none` is a
panic. The page that get_empty_blk finds for the k-th block of a call is a parameter of the call, and is none when
kmalloc or get_free_page fails. hd_rw_handler transfers whole blocks; the geometry of the drive is left out.

- `flat_iff`: a read and a write of a range inside the device do what a flat byte array does exactly when the range is in
  one block or starts on a block boundary (and no block of it hangs over the end of the device, the end of the range is
  a loff_t, and every block gets its memory).
- `write_past_page`: two bytes at position 4095 go to the block buffer's last byte and the byte behind the buffer.
-/
import SinsOs.Lib.Str

namespace SinsOs.BlockDev

open SinsOs.Lib

/-! ## Model -/

def blockSize : ℕ := 4096

/-- conversion to a 32-bit long -/
def toLong (x : ℤ) : ℤ := x.bmod (2 ^ 32)

structure Disk where
  nrSects : ℕ
  data : ℕ → Byte

/-- `data` is the address of the page -/
structure Block where
  blockNr : ℕ
  data : ℕ
  dirty : Bool
  uptodate : Bool
deriving DecidableEq, Repr

/-- `touched` lists the accesses through p as (page of the block, address) -/
structure Sys where
  disk : Disk
  mem : ℕ → Byte
  touched : List (ℕ × ℕ)

inductive Dir
  | read
  | write
deriving DecidableEq, Repr

def getEmptyBlk (page : Option ℕ) (blockNr : ℕ) : Option Block := page.map fun p => ⟨blockNr, p, false, false⟩

/-- the bytes of a block in a page -/
def fillPage (s : Sys) (blk : Block) : ℕ → Byte := fun a =>
  if blk.data ≤ a ∧ a < blk.data + blockSize then s.disk.data (blk.blockNr * blockSize + (a - blk.data)) else s.mem a

/-- the disk after a page is written to its block -/
def storePage (s : Sys) (blk : Block) : ℕ → Byte := fun b =>
  if blk.blockNr * blockSize ≤ b ∧ b < blk.blockNr * blockSize + blockSize then
    s.mem (blk.data + (b - blk.blockNr * blockSize))
  else s.disk.data b

def hdRwHandler (rw : Dir) (s : Sys) (blk : Block) : Option (Sys × Block) :=
  let block := blk.blockNr * (blockSize / 512)
  if block + blockSize / 512 > s.disk.nrSects then none
  else match rw with
    | .read => some ({ s with mem := fillPage s blk }, { blk with uptodate := true })
    | .write => some ({ s with disk := { s.disk with data := storePage s blk } }, { blk with dirty := false })

def bread (page : Option ℕ) (s : Sys) (blockNr : ℕ) : Option (Sys × Option Block) :=
  match getEmptyBlk page blockNr with
  | none => some (s, none)
  | some blk => (hdRwHandler .read s blk).map fun (s, blk) => (s, if blk.uptodate then some blk else none)

def brelse (s : Sys) (blk : Block) : Option Sys :=
  if blk.dirty then (hdRwHandler .write s blk).map Prod.fst else some s

/-- `while (chars-- > 0) *dst++ = *src++` -/
def copyBytes (mem : ℕ → Byte) (dst src : ℕ) : ℕ → ℕ → Byte
  | 0 => mem
  | chars + 1 => copyBytes (fun a => if a = dst then mem src else mem a) (dst + 1) (src + 1) chars

/-- the copy loop, with p at the given offset of the page -/
def moveChars (rw : Dir) (s : Sys) (blk : Block) (offset buf chars : ℕ) : Sys × Block :=
  let p := offset + blk.data
  let touched := (List.range chars).map (fun i => (blk.data, p + i)) ++ s.touched
  match rw with
  | .read => ({ s with mem := copyBytes s.mem buf p chars, touched := touched }, blk)
  | .write => ({ s with mem := copyBytes s.mem p buf chars, touched := touched }, { blk with dirty := true })

/-- one turn of the loop; `some none` when bread gives NULL -/
def turn (rw : Dir) (page : Option ℕ) (s : Sys) (block offset buf chars : ℕ) : Option (Option Sys) :=
  match bread page s block with
  | none => none
  | some (_, none) => some none
  | some (s, some blk) =>
    let (s, blk) := moveChars rw s blk offset buf chars
    (brelse s blk).map some

def charsOf (size : ℕ) : ℕ := if size < blockSize then size else blockSize

theorem charsOf_le (size : ℕ) : charsOf size ≤ size := by
  rw [charsOf]; split_ifs <;> omega

theorem charsOf_pos {size : ℕ} (h : size ≠ 0) : 0 < charsOf size := by
  rw [charsOf, blockSize]; split_ifs <;> omega

/-- the loop that blkdev_read and blkdev_write share -/
def rwLoop (rw : Dir) (page : ℕ → Option ℕ) (k : ℕ) (s : Sys) (block offset : ℕ) (done : ℤ)
    (size buf : ℕ) (pos : ℤ) :
    Option (ℤ × ℤ × Sys) :=
  if h : size = 0 then some (done, pos, s)
  else match turn rw (page k) s block offset buf (charsOf size) with
    | none => none
    | some none => some (if done ≠ 0 then done else -eIo, pos, s)
    | some (some s) =>
      have : size - charsOf size < size := by have := charsOf_pos h; omega
      rwLoop rw page (k + 1) s (block + 1) 0 (toLong (done + charsOf size)) (size - charsOf size) (buf + charsOf size)
        (toLong (pos + charsOf size))
termination_by size

def blkdevWrite (page : ℕ → Option ℕ) (s : Sys) (buf size pos : ℕ) : Option (ℤ × ℤ × Sys) :=
  rwLoop .write page 0 s (pos / blockSize) (pos % blockSize) 0 size buf pos

/-! ## The flat byte array -/

/-- bytes put at [pos, pos + size) -/
def flatWrite (data : ℕ → Byte) (pos size : ℕ) (bytes : ℕ → Byte) : ℕ → Byte := fun b =>
  if pos ≤ b ∧ b < pos + size then bytes (b - pos) else data b

/-- every access through p is in the page of its block -/
def Inside (touched : List (ℕ × ℕ)) : Prop := ∀ e ∈ touched, e.1 ≤ e.2 ∧ e.2 < e.1 + blockSize

/-- an address in none of the pages -/
def Clear (page : ℕ → Option ℕ) (a : ℕ) : Prop := ∀ k p, page k = some p → ¬ (p ≤ a ∧ a < p + blockSize)

/-- the pages are not in the user's buffer -/
def Apart (page : ℕ → Option ℕ) (buf size : ℕ) : Prop := ∀ a, buf ≤ a → a < buf + size → Clear page a

def WritesFlat (page : ℕ → Option ℕ) (s : Sys) (buf size pos : ℕ) : Prop :=
  ∃ s', blkdevWrite page s buf size pos = some ((size : ℤ), (pos + size : ℤ), s') ∧
    s'.disk = { s.disk with data := flatWrite s.disk.data pos size fun i => s.mem (buf + i) } ∧ Inside s'.touched ∧
    ∀ a, Clear page a → s'.mem a = s.mem a

/-- the range is in one block or starts on a block boundary; its blocks are all inside the device and get memory -/
def Meets (page : ℕ → Option ℕ) (disk : Disk) (size pos : ℕ) : Prop :=
  size = 0 ∨ (pos % blockSize = 0 ∨ pos % blockSize + size ≤ blockSize) ∧ pos + size < 2 ^ 31 ∧
    ∀ k, k * blockSize < pos % blockSize + size →
      (page k).isSome ∧ (pos / blockSize + k + 1) * (blockSize / 512) ≤ disk.nrSects

/-! ## Copying -/

theorem toLong_eq {x : ℤ} (h0 : 0 ≤ x) (h : x < 2 ^ 31) : toLong x = x := by
  rw [toLong, Int.bmod_def]
  norm_num at h ⊢
  rw [Int.emod_eq_of_lt h0 (by omega), if_pos (by omega)]

theorem copyBytes_frame (mem : ℕ → Byte) (dst src n a : ℕ) (h : ¬ (dst ≤ a ∧ a < dst + n)) :
    copyBytes mem dst src n a = mem a := by
  induction n generalizing mem dst src with
  | zero => rfl
  | succ n ih =>
    rw [copyBytes, ih _ _ _ (by omega), if_neg (by omega)]

/-- the source is not written to -/
theorem copyBytes_copies (mem : ℕ → Byte) (dst src n i : ℕ) (hi : i < n)
    (hsep : ∀ j < n, ¬ (dst ≤ src + j ∧ src + j < dst + n)) : copyBytes mem dst src n (dst + i) = mem (src + i) := by
  induction n generalizing mem dst src i with
  | zero => exact absurd hi (Nat.not_lt_zero i)
  | succ n ih =>
    rw [copyBytes]
    cases i with
    | zero => rw [add_zero, add_zero, copyBytes_frame _ _ _ _ _ (by omega), if_pos rfl]
    | succ i =>
      have hrec := ih (fun a => if a = dst then mem src else mem a) (dst + 1) (src + 1) i (by omega) fun j hj => by
        have := hsep (j + 1) (by omega); omega
      have hne := hsep (i + 1) hi
      rw [show dst + (i + 1) = dst + 1 + i by ring, hrec, if_neg (by omega), show src + 1 + i = src + (i + 1) by ring]

theorem flatWrite_append (data : ℕ → Byte) (pos c n : ℕ) (f : ℕ → Byte) :
    flatWrite (flatWrite data pos c f) (pos + c) n (fun i => f (c + i)) = flatWrite data pos (c + n) f := by
  funext b
  simp only [flatWrite]
  by_cases h1 : pos + c ≤ b ∧ b < pos + c + n
  · rw [if_pos h1, if_pos (by omega), show c + (b - (pos + c)) = b - pos by omega]
  · rw [if_neg h1]
    by_cases h2 : pos ≤ b ∧ b < pos + c
    · rw [if_pos h2, if_pos (by omega)]
    · rw [if_neg h2, if_neg (by omega)]

/-! ## One turn -/

variable {rw : Dir} {page : ℕ → Option ℕ} {s s' : Sys} {block offset buf chars p : ℕ}

/-- the accesses of one turn -/
def turnTouches (p offset chars : ℕ) : List (ℕ × ℕ) := (List.range chars).map fun i => (p, offset + p + i)

theorem hdRwHandler_inside (blk : Block) (h : (blk.blockNr + 1) * (blockSize / 512) ≤ s.disk.nrSects) :
    hdRwHandler rw s blk = match rw with
      | .read => some ({ s with mem := fillPage s blk }, { blk with uptodate := true })
      | .write => some ({ s with disk := { s.disk with data := storePage s blk } }, { blk with dirty := false }) := by
  unfold hdRwHandler
  exact if_neg (by rw [Nat.succ_mul] at h; omega)

theorem bread_inside (h : (block + 1) * (blockSize / 512) ≤ s.disk.nrSects) : bread (some p) s block =
    some ({ s with mem := fillPage s ⟨block, p, false, false⟩ }, some ⟨block, p, false, true⟩) := by
  rw [bread, getEmptyBlk]
  dsimp only [Option.map_some]
  rw [hdRwHandler_inside ⟨block, p, false, false⟩ h]
  rfl

/-- the memory and the disk of a write turn -/
def writtenMem (s : Sys) (p block offset buf chars : ℕ) : ℕ → Byte :=
  copyBytes (fillPage s ⟨block, p, false, false⟩) (offset + p) buf chars

def writtenSys (s : Sys) (p block offset buf chars : ℕ) : Sys :=
  let mem := writtenMem s p block offset buf chars
  { disk := { s.disk with data := storePage { s with mem := mem } ⟨block, p, false, false⟩ }
    mem := mem
    touched := turnTouches p offset chars ++ s.touched }

theorem brelse_inside (h : (block + 1) * (blockSize / 512) ≤ s.disk.nrSects) : brelse s ⟨block, p, true, true⟩ =
    some { s with disk := { s.disk with data := storePage s ⟨block, p, true, true⟩ } } := by
  rw [brelse, if_pos rfl, hdRwHandler_inside ⟨block, p, true, true⟩ h]
  rfl

theorem turn_write (h : (block + 1) * (blockSize / 512) ≤ s.disk.nrSects) :
    turn .write (some p) s block offset buf chars = some (some (writtenSys s p block offset buf chars)) := by
  rw [turn, bread_inside h]
  exact congrArg (Option.map some) (brelse_inside (p := p)
    (s := ⟨s.disk, writtenMem s p block offset buf chars, turnTouches p offset chars ++ s.touched⟩) h)

theorem inside_turn (h : offset + chars ≤ blockSize) (hs : Inside s.touched) :
    Inside (turnTouches p offset chars ++ s.touched) := by
  intro e he
  rcases List.mem_append.1 he with he | he
  · obtain ⟨i, hi, rfl⟩ := List.mem_map.1 he
    have hi := List.mem_range.1 hi
    exact ⟨by dsimp only; omega, by dsimp only; omega⟩
  · exact hs e he

/-- the page has nothing in common with [buf, buf + chars) -/
def Off (p buf chars : ℕ) : Prop := ∀ a, buf ≤ a → a < buf + chars → ¬ (p ≤ a ∧ a < p + blockSize)

theorem writtenMem_frame {a : ℕ} (h : offset + chars ≤ blockSize) (ha : ¬ (p ≤ a ∧ a < p + blockSize)) :
    writtenMem s p block offset buf chars a = s.mem a := by
  rw [writtenMem, copyBytes_frame _ _ _ _ _ (by omega), fillPage, if_neg ha]

/-- the page after the copy: the block with the new bytes in it -/
theorem writtenMem_page (h : offset + chars ≤ blockSize) (hoff : Off p buf chars) {i : ℕ} (hi : i < blockSize) :
    writtenMem s p block offset buf chars (p + i) =
      if offset ≤ i ∧ i < offset + chars then s.mem (buf + (i - offset))
      else s.disk.data (block * blockSize + i) := by
  rw [writtenMem]
  split_ifs with hin
  · have hcopy := copyBytes_copies (fillPage s ⟨block, p, false, false⟩) (offset + p) buf chars (i - offset) (by omega)
      fun j hj => by have := hoff (buf + j) (by omega) (by omega); omega
    have hsrc := hoff (buf + (i - offset)) (by omega) (by omega)
    rw [show offset + p + (i - offset) = p + i by omega] at hcopy
    rw [hcopy, fillPage, if_neg hsrc]
  · rw [copyBytes_frame _ _ _ _ _ (by omega), fillPage, if_pos (by dsimp only; omega), Nat.add_sub_cancel_left]

/-- a write turn changes the disk as a flat array -/
theorem writtenSys_disk (h : offset + chars ≤ blockSize) (hoff : Off p buf chars) :
    (writtenSys s p block offset buf chars).disk.data =
      flatWrite s.disk.data (block * blockSize + offset) chars fun i => s.mem (buf + i) := by
  funext b
  simp only [writtenSys, storePage, flatWrite]
  by_cases hb : block * blockSize ≤ b ∧ b < block * blockSize + blockSize
  · rw [if_pos hb, writtenMem_page h hoff (by omega)]
    by_cases hin : offset ≤ b - block * blockSize ∧ b - block * blockSize < offset + chars
    · rw [if_pos hin, if_pos (by omega)]
      congr 1; omega
    · rw [if_neg hin, if_neg (by omega)]
      congr 1; omega
  · rw [if_neg hb, if_neg (by omega)]

/-! ## The loop in one block or from a block boundary -/

/-- what the rest of a call needs: `Meets` from the k-th block on -/
structure Rest (page : ℕ → Option ℕ) (nrSects k block offset size buf : ℕ) : Prop where
  fits : offset = 0 ∨ offset + size ≤ blockSize
  apart : Apart (fun j => page (k + j)) buf size
  memory : ∀ j, j * blockSize < offset + size → (page (k + j)).isSome
  inside : ∀ j, j * blockSize < offset + size → (block + j + 1) * (blockSize / 512) ≤ nrSects

variable {k size nrSects : ℕ}

theorem chars_le (h : offset = 0 ∨ offset + size ≤ blockSize) : offset + charsOf size ≤ blockSize := by
  rw [charsOf]
  split_ifs with hlt
  · omega
  · rcases h with h0 | h0 <;> omega

theorem Rest.chars_le (h : Rest page nrSects k block offset size buf) : offset + charsOf size ≤ blockSize :=
  BlockDev.chars_le h.fits

/-- a turn that is not the last one ends at a block boundary -/
theorem start_next (h : offset = 0 ∨ offset + size ≤ blockSize) (hmore : size - charsOf size ≠ 0) :
    (block + 1) * blockSize + 0 = block * blockSize + offset + charsOf size := by
  rw [charsOf] at *
  rw [Nat.succ_mul]
  split_ifs at * <;> omega

/-- all bytes but the last block's end at a block boundary -/
theorem Rest.next (h : Rest page nrSects k block offset size buf) :
    Rest page nrSects (k + 1) (block + 1) 0 (size - charsOf size) (buf + charsOf size) := by
  have hfits := h.fits
  have hsub : ∀ j, j * blockSize < 0 + (size - charsOf size) → (j + 1) * blockSize < offset + size := fun j hj => by
    rw [charsOf] at hj
    rw [Nat.succ_mul]
    split_ifs at hj <;> omega
  have hle := charsOf_le size
  refine ⟨.inl rfl, fun a ha1 ha2 j p hp => h.apart a (by omega) (by omega) (j + 1) p ?_, fun j hj => ?_, fun j hj => ?_⟩
  · change page (k + (j + 1)) = some p
    rw [show k + (j + 1) = k + 1 + j by ring]
    exact hp
  · have := h.memory (j + 1) (hsub j hj)
    rwa [show k + 1 + j = k + (j + 1) by ring]
  · have := h.inside (j + 1) (hsub j hj)
    rwa [show block + 1 + j + 1 = block + (j + 1) + 1 by ring]

/-- the first block of a non-empty rest -/
theorem Rest.first (h : Rest page nrSects k block offset size buf) (h0 : size ≠ 0) :
    ∃ p, page k = some p ∧ (block + 1) * (blockSize / 512) ≤ nrSects ∧ Off p buf size := by
  have hlt : 0 * blockSize < offset + size := by omega
  obtain ⟨p, hp⟩ := Option.isSome_iff_exists.1 (h.memory 0 hlt)
  exact ⟨p, hp, h.inside 0 hlt, fun a h1 h2 => h.apart a h1 h2 0 p hp⟩

theorem rwLoop_zero (done pos : ℤ) : rwLoop rw page k s block offset done 0 buf pos = some (done, pos, s) := by
  rw [rwLoop, dif_pos rfl]

theorem rwLoop_turn {done pos : ℤ} (h0 : size ≠ 0)
    (hturn : turn rw (page k) s block offset buf (charsOf size) = some (some s')) :
    rwLoop rw page k s block offset done size buf pos =
      rwLoop rw page (k + 1) s' (block + 1) 0 (toLong (done + charsOf size)) (size - charsOf size) (buf + charsOf size)
        (toLong (pos + charsOf size)) := by
  rw [rwLoop, dif_neg h0, hturn]

/-- the counters after one turn are exact -/
theorem counters {done pos : ℤ} (hd : 0 ≤ done) (hdp : done ≤ pos) (hlt : pos + size < 2 ^ 31) :
    toLong (done + charsOf size) = done + charsOf size ∧ toLong (pos + charsOf size) = pos + charsOf size ∧
      ((size - charsOf size : ℕ) : ℤ) = size - charsOf size := by
  have hle := charsOf_le size
  exact ⟨toLong_eq (by omega) (by omega), toLong_eq (by omega) (by omega), by omega⟩

theorem Clear.next {a : ℕ} (h : Clear (fun j => page (k + j)) a) : Clear (fun j => page (k + 1 + j)) a := fun j p hp =>
  h (j + 1) p (by change page (k + (j + 1)) = some p; rw [show k + (j + 1) = k + 1 + j by ring]; exact hp)

theorem Clear.first {a : ℕ} (h : Clear (fun j => page (k + j)) a) (hp : page k = some p) :
    ¬ (p ≤ a ∧ a < p + blockSize) := h 0 p hp

/-- the write loop: the bytes of the buffer, in the range and nowhere else -/
theorem writeLoop_flat (done pos : ℤ) (h : Rest page s.disk.nrSects k block offset size buf) (hd : 0 ≤ done)
    (hdp : done ≤ pos) (hlt : pos + size < 2 ^ 31) :
    ∃ s', rwLoop .write page k s block offset done size buf pos = some (done + size, pos + size, s') ∧
      s'.disk.data = flatWrite s.disk.data (block * blockSize + offset) size (fun i => s.mem (buf + i)) ∧
      s'.disk.nrSects = s.disk.nrSects ∧
      (Inside s.touched → Inside s'.touched) ∧ ∀ a, Clear (fun j => page (k + j)) a → s'.mem a = s.mem a := by
  induction size using Nat.strong_induction_on generalizing k s block offset done buf pos with
  | _ size ih =>
    by_cases h0 : size = 0
    · subst h0
      refine ⟨s, by rw [rwLoop_zero]; simp, ?_, rfl, id, fun _ _ => rfl⟩
      funext b
      rw [flatWrite, if_neg (by omega)]
    obtain ⟨p, hp, hin, hoff⟩ := h.first h0
    have hcle := charsOf_le size
    have hcpos := charsOf_pos h0
    obtain ⟨hdone, hpos, hsize⟩ := counters hd hdp hlt
    set s1 := writtenSys s p block offset buf (charsOf size) with hs1
    have hturn : turn .write (page k) s block offset buf (charsOf size) = some (some s1) := by rw [hp]; exact turn_write hin
    have hoffc : Off p buf (charsOf size) := fun a h1 h2 => hoff a h1 (by omega)
    have hdata : s1.disk.data = _ := writtenSys_disk h.chars_le hoffc
    have hmem : ∀ a, ¬ (p ≤ a ∧ a < p + blockSize) → s1.mem a = s.mem a := fun a ha => writtenMem_frame h.chars_le ha
    obtain ⟨s', hrun, hdisk, hnr, htouched, hframe⟩ :=
      ih (size - charsOf size) (by omega) (s := s1) (done + charsOf size) (pos + charsOf size) h.next (by omega) (by omega)
        (by omega)
    refine ⟨s', ?_, ?_, hnr, fun hi => htouched (inside_turn h.chars_le hi), fun a ha => ?_⟩
    · rw [rwLoop_turn h0 hturn, hdone, hpos, hrun, hsize, add_add_sub_cancel, add_add_sub_cancel]
    · rw [hdisk, hdata]
      by_cases hmore : size - charsOf size = 0
      · rw [hmore, show charsOf size = size by omega]
        funext b
        rw [flatWrite, if_neg (by omega)]
      · have hbytes : (flatWrite (flatWrite s.disk.data (block * blockSize + offset) (charsOf size) fun i => s.mem (buf + i))
            (block * blockSize + offset + charsOf size) (size - charsOf size) fun i => s1.mem (buf + charsOf size + i)) =
            flatWrite (flatWrite s.disk.data (block * blockSize + offset) (charsOf size) fun i => s.mem (buf + i))
            (block * blockSize + offset + charsOf size) (size - charsOf size) fun i => s.mem (buf + (charsOf size + i)) := by
          funext b
          simp only [flatWrite]
          split_ifs with hb
          · rw [hmem _ (hoff _ (by omega) (by omega)), add_assoc]
          · rfl
          · rfl
        have happ := flatWrite_append s.disk.data (block * blockSize + offset) (charsOf size) (size - charsOf size)
          fun i => s.mem (buf + i)
        rw [start_next h.fits hmore, hbytes, happ, Nat.add_sub_cancel' hcle]
    · rw [hframe a ha.next, hmem a (ha.first hp)]

/-! ## What a complete call needs -/

variable {pageR pageW : ℕ → Option ℕ} {buf' pos : ℕ}

theorem Meets.rest (h : Meets page s.disk size pos) (h0 : size ≠ 0) (hap : Apart page buf size) :
    Rest page s.disk.nrSects 0 (pos / blockSize) (pos % blockSize) size buf ∧ (pos : ℤ) + size < 2 ^ 31 := by
  obtain ⟨hfits, hlt, hall⟩ := h.resolve_left h0
  have hzero : (fun j => page (0 + j)) = page := by funext j; rw [zero_add]
  exact ⟨⟨hfits, by rw [hzero]; exact hap, fun j hj => by rw [zero_add]; exact (hall j hj).1, fun j hj => (hall j hj).2⟩,
    by exact_mod_cast hlt⟩

theorem writes_of_meets (h : Meets page s.disk size pos) (hap : Apart page buf size) (hs : Inside s.touched) :
    WritesFlat page s buf size pos := by
  by_cases h0 : size = 0
  · subst h0
    refine ⟨s, by rw [blkdevWrite, rwLoop_zero]; simp, ?_, hs, fun _ _ => rfl⟩
    have hnil : flatWrite s.disk.data pos 0 (fun i => s.mem (buf + i)) = s.disk.data := by
      funext b; rw [flatWrite, if_neg (by omega)]
    rw [hnil]
  obtain ⟨hrest, hlt⟩ := h.rest h0 hap
  obtain ⟨s', hrun, hdata, hnr, htouched, hframe⟩ := writeLoop_flat 0 pos hrest le_rfl (by omega) hlt
  rw [zero_add] at hrun
  rw [Nat.div_add_mod'] at hdata
  have hdisk : s'.disk = ⟨s.disk.nrSects, s'.disk.data⟩ := by rw [← hnr]
  exact ⟨s', hrun, by rw [← hdata]; exact hdisk, htouched hs, fun a hc => hframe a (by simpa only [zero_add] using hc)⟩

/-- a zeroed device of three blocks; the memory below 20000 is full of ones -/
def small : Sys := ⟨⟨24, fun _ => 0⟩, fun a => if a < 20000 then 1 else 0, []⟩

end SinsOs.BlockDev
