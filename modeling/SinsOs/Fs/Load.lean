/-
Loading a program (write_program_to_user, fs/exec.c): page by page, load_page maps a frame that nobody has cleared, sys_read
fills it from the file, and memset clears the rest of it. A read that returns -EIO ends the loop, and the program is loaded.

The page directory is that of a new task, so load_page finds no page at the address; `frame k` is what the frame of its k-th
call holds, or none when there is no memory. `read` is the read of a page at a position of the file; `none` is a panic.

- `pages_run`: on a device without failures page k gets the file from the block on at which the k-th read starts.
- `load_iff`: the loader does what it should exactly for the files that are not empty and not one hole and, if they are
  executable, have a size below the largest, no hole that puts the reads and the pages out of step and something else than
  zeros behind it, and no hole at the end that starts a page.
-/
import SinsOs.Fs.Exec
import SinsOs.Fs.Minix.Read

namespace SinsOs.Exec

open SinsOs.Lib SinsOs.Minix

/-! ## Model -/

def sinsExecMagic : ℕ := 0x19879023

/-- `*(unsigned long *)(p + i)` -/
def wordAt (p : Ptr) (i : ℕ) : ℕ :=
  (p i).toNat + 2 ^ 8 * (p (i + 1)).toNat + 2 ^ 16 * (p (i + 2)).toNat + 2 ^ 24 * (p (i + 3)).toNat

/-- a page after bytes have been stored from its start on -/
def storeBytes (page : Ptr) (bytes : List Byte) : Ptr := fun i => if i < bytes.length then bytes.getD i 0 else page i

def memset (page : Ptr) (i n : ℕ) : Ptr := fun j => if i ≤ j ∧ j < i + n then 0 else page j

/-- the loop of write_program_to_user; the pages mapped so far. The BUG_ON ends it before the fuel does. -/
def loadLoop (read : ℕ → Option Minix.Result) (frame : ℕ → Option Ptr) :
    ℕ → ℕ → ℕ → List Ptr → Option (ℤ × List Ptr)
  | 0, _, _, _ => none
  | fuel + 1, loadCount, pos, pages =>
    if loadCount * pageSize ≥ pageOffset then none
    else match frame loadCount with
      | none => some (-error, pages)
      | some pg =>
        match read pos with
        | none => none
        | some r =>
          let pg := storeBytes pg r.stored
          if r.ret > 0 then
            let pg := memset pg r.ret.toNat (pageSize - r.ret.toNat)
            if loadCount = 0 ∧ (r.ret < 8 ∨ wordAt pg 4 ≠ sinsExecMagic) then some (-eNoexec, pages ++ [pg])
            else loadLoop read frame fuel (loadCount + 1) r.pos (pages ++ [pg])
          else some (if r.ret = -eIo then success else -error, pages ++ [pg])

/-- the result and the pages from address 0 on -/
def writeProgramToUser (dev : Device) (inode : Inode) (frame : ℕ → Option Ptr) : Option (ℤ × List Ptr) :=
  loadLoop (minixFileRead dev inode pageSize) frame (pageOffset / pageSize + 1) 0 0 []

/-! ## Statement -/

/-- the byte at a virtual address -/
def userByte (pages : List Ptr) (o : ℕ) : Option Byte := (pages[o / pageSize]?).map fun page => page (o % pageSize)

variable {dev : Device} {inode : Inode}

def Executable (dev : Device) (inode : Inode) : Prop :=
  8 ≤ inode.size ∧ wordAt (inode.byte dev) 4 = sinsExecMagic

/-- the file is at address 0, and zeros behind it in its last page -/
structure Loaded (dev : Device) (inode : Inode) (pages : List Ptr) : Prop where
  file : ∀ o < inode.size, userByte pages o = some (inode.byte dev o)
  rest : ∀ o, inode.size ≤ o → o / pageSize = (inode.size - 1) / pageSize → userByte pages o = some 0

/-- whatever the frames hold -/
def LoadsRight (dev : Device) (inode : Inode) : Prop :=
  ∀ frame : ℕ → Option Ptr, (∀ k, (frame k).isSome) → ∃ ret pages, writeProgramToUser dev inode frame =
  some (ret, pages) ∧
    (0 ≤ ret ↔ Executable dev inode) ∧ (0 ≤ ret → Loaded dev inode pages)

/-- the block at which the k-th read starts -/
def startBlock (dev : Device) (inode : Inode) : ℕ → ℕ
  | 0 => 0
  | k + 1 => inode.readEnd dev (pageSize / minixBlockSize) (startBlock dev inode k)

/-- a hole in the file that is not the last block of a page: the read ends, and the next page is not full -/
def Misaligns (dev : Device) (inode : Inode) (k : ℕ) : Prop :=
  ¬ Mapped dev inode k ∧ k % 4 ≠ 3 ∧ minixBlockSize * (k + 1) < inode.size

/-- the conditions on an executable file -/
structure InStep (dev : Device) (inode : Inode) : Prop where
  /-- the read at the end of the file asks for a block that _bmap knows, or a hole ends the loop before -/
  ends : inode.size < minixBlockSize * maxBlocks ∨
    ¬ Mapped dev inode inode.last ∧ ∃ k, startBlock dev inode k = inode.last
  zeros : ∀ k, Misaligns dev inode k → ∀ o, minixBlockSize * (k + 1) ≤ o → o < inode.size → inode.byte dev o = 0
  trailing : ¬ Mapped dev inode inode.last → inode.last % 4 = 0 → ∃ k, Misaligns dev inode k

/-- the condition on a file -/
def Loadable (dev : Device) (inode : Inode) : Prop :=
  inode.size ≠ 0 ∧ ¬ (inode.size ≤ minixBlockSize ∧ ¬ Mapped dev inode 0) ∧
    (Executable dev inode → InStep dev inode)

/-! ## The starts of the reads -/

theorem startBlock_lt (k : ℕ) : startBlock dev inode k < startBlock dev inode (k + 1) := lt_readEnd 3 _

theorem startBlock_mono {j k : ℕ} (h : j ≤ k) : startBlock dev inode j ≤ startBlock dev inode k :=
  monotone_nat_of_le_succ (fun k => (startBlock_lt k).le) h

theorem startBlock_succ_le (k : ℕ) : startBlock dev inode (k + 1) ≤ startBlock dev inode k + 4 := by
  rcases (readEnd_spec 4 (startBlock dev inode k)).2 with h | ⟨j, -, hj, h, -⟩
  · exact h.le
  · exact h.le.trans hj

/-- **The reads and the pages** are in step, with no hole but at the ends of pages, or a hole has put them out of step. -/
theorem startBlock_cases (k : ℕ) :
    (startBlock dev inode k = 4 * k ∧ ∀ j < 4 * k, Mapped dev inode j ∨ j % 4 = 3) ∨
      startBlock dev inode k < 4 * k ∧ ∃ j < startBlock dev inode k, ¬ Mapped dev inode j ∧ j % 4 ≠ 3 := by
  induction k with
  | zero => exact Or.inl ⟨rfl, fun j hj => absurd hj (Nat.not_lt_zero j)⟩
  | succ k ih =>
    have hlt := @startBlock_lt dev inode k
    have hle := @startBlock_succ_le dev inode k
    obtain ⟨hmapped, hend⟩ := @readEnd_spec dev inode 4 (startBlock dev inode k)
    change ∀ j, startBlock dev inode k ≤ j → j + 1 < startBlock dev inode (k + 1) → Mapped dev inode j at hmapped
    change startBlock dev inode (k + 1) = startBlock dev inode k + 4 ∨
      ∃ j, startBlock dev inode k ≤ j ∧ j < startBlock dev inode k + 4 ∧ startBlock dev inode (k + 1) = j + 1 ∧
        ¬ Mapped dev inode j at hend
    rcases ih with ⟨hk, hall⟩ | ⟨hk, j, hj, hhole⟩
    · by_cases hfull : startBlock dev inode (k + 1) = 4 * (k + 1)
      · refine Or.inl ⟨hfull, fun j hj => ?_⟩
        rcases Nat.lt_or_ge j (4 * k) with h | h
        · exact hall j h
        · by_cases h3 : j + 1 < 4 * (k + 1)
          · exact Or.inl (hmapped j (by omega) (by omega))
          · exact Or.inr (by omega)
      · rcases hend with h | ⟨j, h1, h2, h3, h4⟩
        · omega
        · exact Or.inr ⟨by omega, j, by omega, h4, by omega⟩
    · exact Or.inr ⟨by omega, j, hj.trans hlt, hhole⟩

/-! ## The reads -/

/-- the position of the k-th read -/
def startPos (dev : Device) (inode : Inode) (k : ℕ) : ℕ := min (minixBlockSize * startBlock dev inode k) inode.size

/-- the bytes that the k-th read stores -/
def readBytes (dev : Device) (inode : Inode) (k : ℕ) : List Byte :=
  inode.bytes dev (minixBlockSize * startBlock dev inode k) (inode.storedEnd dev (startBlock dev inode (k + 1)))

/-- the page of the k-th read -/
def loadedPage (dev : Device) (inode : Inode) (frame : Ptr) (k : ℕ) : Ptr :=
  memset (storeBytes frame (readBytes dev inode k)) (readBytes dev inode k).length (pageSize - (readBytes dev inode k).length)

/-- the k-th read returns -EIO: the file ends before it, or is one hole from there on -/
def AtEnd (dev : Device) (inode : Inode) (k : ℕ) : Prop :=
  inode.size ≤ minixBlockSize * startBlock dev inode k ∨ ¬ Mapped dev inode inode.last ∧
  startBlock dev inode k = inode.last

theorem readBytes_length (k : ℕ) : (readBytes dev inode k).length =
    inode.storedEnd dev (startBlock dev inode (k + 1)) - minixBlockSize * startBlock dev inode k := length_bytes _ _

theorem readBytes_le (k : ℕ) : (readBytes dev inode k).length ≤ pageSize := by
  have hle := @startBlock_succ_le dev inode k
  rw [readBytes_length, Inode.storedEnd]
  unfold pageSize
  unfold Inode.last minixBlockSize at *
  split_ifs <;> omega

theorem readBytes_pos {k : ℕ} (hk : minixBlockSize * startBlock dev inode k < inode.size) :
    0 < (readBytes dev inode k).length ↔ ¬ AtEnd dev inode k := by
  have hlt := @startBlock_lt dev inode k
  rw [readBytes_length, Inode.storedEnd, AtEnd]
  unfold Inode.last minixBlockSize at *
  split_ifs with hc
  · obtain ⟨hc, hm⟩ := hc
    simp only [hm, not_false_iff, true_and]
    omega
  · rw [not_and_not_right] at hc
    constructor
    · rintro - (h | ⟨h, h'⟩)
      · omega
      · exact h (hc (by omega))
    · intro
      omega

theorem read_at (h : dev.Sound) (hsize : inode.size ≤ minixBlockSize * maxBlocks) {k : ℕ}
    (hk : minixBlockSize * startBlock dev inode k < inode.size) :
    minixFileRead dev inode pageSize (startPos dev inode k) =
      some ⟨if (readBytes dev inode k).length ≠ 0 then ((readBytes dev inode k).length : ℤ) else -eIo,
        startPos dev inode (k + 1), readBytes dev inode k⟩ := by
  obtain ⟨left, hrun⟩ := readLoop_blocks h hsize 4 pageSize (startBlock dev inode k) le_rfl hk
  have hcount := readLoop_count _ hrun
  change readLoop dev inode pageSize pageSize (minixBlockSize * startBlock dev inode k) =
    some ⟨left, startPos dev inode (k + 1), readBytes dev inode k⟩ at hrun
  change left + (readBytes dev inode k).length = pageSize at hcount
  rw [minixFileRead, startPos, min_eq_left hk.le, hrun, Option.map_some, ← hcount, Nat.add_sub_cancel_left]

/-! ## The loop -/

variable {fuel k : ℕ} {frames : ℕ → Ptr} {pages : List Ptr}

theorem storeBytes_nil (page : Ptr) : storeBytes page [] = page := rfl

/-- the last turn -/
theorem loadLoop_end (h : dev.Sound) (hsize : inode.size ≤ minixBlockSize * maxBlocks) (hk : k < pageOffset / pageSize)
    (hend : AtEnd dev inode k) :
    loadLoop (minixFileRead dev inode pageSize) (fun k => some (frames k)) (fuel + 1) k (startPos dev inode k) pages =
      if inode.size ≤ minixBlockSize * startBlock dev inode k ∧ ¬ inode.size < minixBlockSize * maxBlocks then none
      else some (success, pages ++ [frames k]) := by
  have hpage : ¬ k * pageSize ≥ pageOffset := by
    unfold pageOffset pageSize at *
    omega
  rw [loadLoop, if_neg hpage]
  dsimp only
  rcases Nat.lt_or_ge (minixBlockSize * startBlock dev inode k) inode.size with hlt | hge
  · have hnil : readBytes dev inode k = [] :=
      List.eq_nil_of_length_eq_zero (Nat.eq_zero_of_not_pos fun hpos => (readBytes_pos hlt).1 hpos hend)
    rw [read_at h hsize hlt, hnil]
    exact (if_neg fun hc => absurd hlt (not_lt.2 hc.1)).symm
  · have hdiv : inode.size / minixBlockSize ≥ maxBlocks ↔ ¬ inode.size < minixBlockSize * maxBlocks := by
      rw [ge_iff_le, Nat.le_div_iff_mul_le (by decide), Nat.mul_comm, not_lt]
    rw [startPos, min_eq_right hge, fileRead_behind h (by decide) le_rfl]
    by_cases hmax : inode.size < minixBlockSize * maxBlocks
    · rw [if_neg (fun hc => hdiv.1 hc hmax), if_neg (fun hc => hc.2 hmax)]
      rfl
    · rw [if_pos (hdiv.2 hmax), if_pos ⟨hge, hmax⟩]

/-- the test for the magic -/
def Refused (page : Ptr) (bytes : List Byte) : Prop := bytes.length < 8 ∨ wordAt page 4 ≠ sinsExecMagic

instance (page : Ptr) (bytes : List Byte) : Decidable (Refused page bytes) := by unfold Refused; infer_instance

/-- a turn that fills a page -/
theorem loadLoop_page (h : dev.Sound) (hsize : inode.size ≤ minixBlockSize * maxBlocks) (hk : k < pageOffset / pageSize)
    (hend : ¬ AtEnd dev inode k) :
    loadLoop (minixFileRead dev inode pageSize) (fun k => some (frames k)) (fuel + 1) k (startPos dev inode k) pages =
      if k = 0 ∧ Refused (loadedPage dev inode (frames k) k) (readBytes dev inode k) then
        some (-eNoexec, pages ++ [loadedPage dev inode (frames k) k])
      else loadLoop (minixFileRead dev inode pageSize) (fun k => some (frames k)) fuel (k + 1) (startPos dev inode (k + 1))
        (pages ++ [loadedPage dev inode (frames k) k]) := by
  have hpage : ¬ k * pageSize ≥ pageOffset := by
    unfold pageOffset pageSize at *
    omega
  have hlt : minixBlockSize * startBlock dev inode k < inode.size := not_le.1 fun hle => hend (Or.inl hle)
  have hpos := (readBytes_pos hlt).2 hend
  rw [loadLoop, if_neg hpage]
  dsimp only
  rw [read_at h hsize hlt, if_pos hpos.ne']
  dsimp only
  rw [if_pos (by exact_mod_cast hpos), Int.toNat_natCast, ← loadedPage]
  simp only [Nat.cast_lt_ofNat]
  rfl

/-- **The pages of a file** that is not refused, up to the read that returns -EIO. -/
theorem loadLoop_run (h : dev.Sound) (hsize : inode.size ≤ minixBlockSize * maxBlocks) (d : ℕ) : ∀ k fuel pages, k ≠ 0 →
    inode.last + 1 ≤ startBlock dev inode k + d → d < fuel → k + d < pageOffset / pageSize →
    ∃ n, k ≤ n ∧ AtEnd dev inode n ∧ (∀ j, k ≤ j → j < n → ¬ AtEnd dev inode j) ∧
      loadLoop (minixFileRead dev inode pageSize) (fun k => some (frames k)) fuel k (startPos dev inode k) pages =
        if inode.size ≤ minixBlockSize * startBlock dev inode n ∧ ¬ inode.size < minixBlockSize * maxBlocks then none
        else some (success, pages ++ (List.range' k (n - k)).map (fun j => loadedPage dev inode (frames j) j) ++ [frames n]) := by
  induction d with
  | zero =>
    intro k fuel pages hk hd hfuel hbound
    obtain ⟨fuel, rfl⟩ := Nat.exists_eq_succ_of_ne_zero hfuel.ne'
    have hend : AtEnd dev inode k := by
      refine Or.inl ?_
      unfold Inode.last minixBlockSize at *
      omega
    refine ⟨k, le_rfl, hend, fun j h1 h2 => absurd h2 (not_lt.2 h1), ?_⟩
    rw [loadLoop_end h hsize (show k < _ from hbound) hend, Nat.sub_self, List.range'_zero, List.map_nil, List.append_nil]
  | succ d ih =>
    intro k fuel pages hk hd hfuel hbound
    obtain ⟨fuel, rfl⟩ := Nat.exists_eq_succ_of_ne_zero (Nat.ne_zero_of_lt hfuel)
    by_cases hend : AtEnd dev inode k
    · refine ⟨k, le_rfl, hend, fun j h1 h2 => absurd h2 (not_lt.2 h1), ?_⟩
      rw [loadLoop_end h hsize (by omega) hend, Nat.sub_self, List.range'_zero, List.map_nil, List.append_nil]
    · have hlt := @startBlock_lt dev inode k
      obtain ⟨n, hn, hnend, hall, hrun⟩ := ih (k + 1) fuel (pages ++ [loadedPage dev inode (frames k) k]) (Nat.succ_ne_zero k)
        (by omega) (by omega) (by omega)
      refine ⟨n, by omega, hnend, fun j h1 h2 => ?_, ?_⟩
      · rcases Nat.lt_or_eq_of_le h1 with hj | rfl
        · exact hall j hj h2
        · exact hend
      · have hrange : List.range' k (n - k) = k :: List.range' (k + 1) (n - (k + 1)) := by
          rw [show n - k = n - (k + 1) + 1 by omega, List.range'_succ]
        rw [loadLoop_page h hsize (by omega) hend, if_neg (fun hc => hk hc.1), hrun, hrange, List.map_cons]
        simp only [List.append_assoc, List.cons_append, List.nil_append]

/-! ## The pages -/

/-- the pages when read n is the one that returns -EIO -/
def pagesOf (dev : Device) (inode : Inode) (frames : ℕ → Ptr) (n : ℕ) : List Ptr :=
  (List.range n).map (fun j => loadedPage dev inode (frames j) j) ++ [frames n]

theorem userByte_page {n o : ℕ} (h : o / pageSize < n) : userByte (pagesOf dev inode frames n) o =
    some (loadedPage dev inode (frames (o / pageSize)) (o / pageSize) (o % pageSize)) := by
  rw [userByte, pagesOf, List.getElem?_append_left (by simpa using h), List.getElem?_map, List.getElem?_range h]
  rfl

theorem userByte_last (n : ℕ) : userByte (pagesOf dev inode frames n) (pageSize * n) = some (frames n 0) := by
  rw [userByte, pagesOf, Nat.mul_div_cancel_left n (by decide), Nat.mul_mod_right, List.getElem?_append_right (by simp)]
  simp

theorem byte_hole {o : ℕ} (h : ¬ Mapped dev inode (o / minixBlockSize)) : inode.byte dev o = 0 := if_neg h

theorem getD_bytes {a b i : ℕ} (h : i < b - a) : (inode.bytes dev a b).getD i 0 = inode.byte dev (a + i) := by
  rw [Inode.bytes, List.getD_eq_getElem?_getD, List.getElem?_map, List.getElem?_range' h]
  simp

theorem loadedPage_stored {i : ℕ} (frame : Ptr) (h : i < (readBytes dev inode k).length) :
    loadedPage dev inode frame k i = inode.byte dev (minixBlockSize * startBlock dev inode k + i) := by
  have hbytes := h
  rw [readBytes_length] at hbytes
  rw [loadedPage, memset, if_neg (fun hc => absurd h (not_lt.2 hc.1)), storeBytes, if_pos h, readBytes, getD_bytes hbytes]

/-- **A page of the program** holds the file from the start of its read to the start of the next, and zeros. -/
theorem loadedPage_apply (frame : Ptr) (k : ℕ) {i : ℕ} (hi : i < pageSize) : loadedPage dev inode frame k i =
    if minixBlockSize * startBlock dev inode k + i < startPos dev inode (k + 1) then
      inode.byte dev (minixBlockSize * startBlock dev inode k + i) else 0 := by
  have hlength := @readBytes_length dev inode k
  rcases Nat.lt_or_ge i (readBytes dev inode k).length with h | h
  · rw [loadedPage_stored frame h, if_pos]
    rw [hlength, Inode.storedEnd] at h
    rw [startPos]
    unfold Inode.last minixBlockSize at *
    split_ifs at h <;> omega
  · have hle := @readBytes_le dev inode k
    rw [loadedPage, memset, if_pos ⟨h, by omega⟩]
    split_ifs with hlt
    · -- what the file has there is its last block, a hole
      symm
      rw [hlength, Inode.storedEnd] at h
      rw [startPos] at hlt
      split_ifs at h with hc
      · refine byte_hole ?_
        have hlast : (minixBlockSize * startBlock dev inode k + i) / minixBlockSize = inode.last := by
          unfold Inode.last minixBlockSize at *
          omega
        rw [hlast]
        exact hc.2
      · omega
    · rfl

/-! ## The three outcomes -/

theorem atEnd_zero : AtEnd dev inode 0 ↔ inode.size = 0 ∨ inode.size ≤ minixBlockSize ∧ ¬ Mapped dev inode 0 := by
  rw [AtEnd, startBlock, Nat.mul_zero, Nat.le_zero]
  constructor
  · rintro (h | ⟨hm, h⟩)
    · exact Or.inl h
    · rw [← h] at hm
      refine Or.inr ⟨?_, hm⟩
      unfold Inode.last minixBlockSize at *
      omega
  · rintro (h | ⟨h, hm⟩)
    · exact Or.inl h
    · have hlast : inode.last = 0 := by
        unfold Inode.last minixBlockSize at *
        omega
      exact Or.inr ⟨by rwa [hlast], hlast.symm⟩

theorem wordAt_congr {p q : Ptr} (i : ℕ) (h : ∀ j, i ≤ j → j < i + 4 → p j = q j) : wordAt p i = wordAt q i := by
  rw [wordAt, wordAt, h i le_rfl (by omega), h (i + 1) (by omega) (by omega), h (i + 2) (by omega) (by omega),
    h (i + 3) (by omega) (by omega)]

/-- the test of the first page is the test of the file -/
theorem refused_iff (frame : Ptr) (hend : ¬ AtEnd dev inode 0) :
    Refused (loadedPage dev inode frame 0) (readBytes dev inode 0) ↔ ¬ Executable dev inode := by
  have hlt := @startBlock_lt dev inode 0
  have hshort : (readBytes dev inode 0).length < 8 ↔ inode.size < 8 := by
    have hnot := mt atEnd_zero.2 hend
    rw [readBytes_length, Inode.storedEnd]
    split_ifs with hc
    · have hlast : inode.last ≠ 0 := fun h0 => hend (Or.inr ⟨hc.2, h0.symm⟩)
      unfold Inode.last minixBlockSize startBlock at *
      omega
    · unfold minixBlockSize startBlock at *
      omega
  rw [Refused, Executable, hshort, not_and_or, not_le]
  refine or_congr_right' fun hsize => not_congr ?_
  rw [wordAt_congr 4 fun j _ hj => ?_]
  rw [loadedPage_stored frame (by rw [← hshort] at hsize; omega), startBlock, Nat.mul_zero, Nat.zero_add]

theorem startPos_zero : startPos dev inode 0 = 0 := Nat.min_eq_left (Nat.zero_le _)

theorem program_empty (h : dev.Sound) (hsize : inode.size ≤ minixBlockSize * maxBlocks) (hend : AtEnd dev inode 0) :
    writeProgramToUser dev inode (fun k => some (frames k)) = some (success, [frames 0]) := by
  have hrun := @loadLoop_end dev inode (pageOffset / pageSize) 0 frames [] h hsize (by decide) hend
  rw [startPos_zero] at hrun
  rw [writeProgramToUser, hrun, if_neg]
  · rfl
  · rintro ⟨h0, hlimit⟩
    rw [startBlock, Nat.mul_zero, Nat.le_zero] at h0
    rw [h0] at hlimit
    exact hlimit (by decide)

theorem program_refused (h : dev.Sound) (hsize : inode.size ≤ minixBlockSize * maxBlocks) (hend : ¬ AtEnd dev inode 0)
    (hexec : ¬ Executable dev inode) : writeProgramToUser dev inode (fun k => some (frames k)) =
      some (-eNoexec, [loadedPage dev inode (frames 0) 0]) := by
  have hrun := @loadLoop_page dev inode (pageOffset / pageSize) 0 frames [] h hsize (by decide) hend
  rw [startPos_zero, if_pos ⟨rfl, (refused_iff (frames 0) hend).2 hexec⟩] at hrun
  exact hrun

/-- **An executable file** is loaded up to the read that returns -EIO, unless that one panics. -/
theorem program_runs (h : dev.Sound) (hsize : inode.size ≤ minixBlockSize * maxBlocks) (hend : ¬ AtEnd dev inode 0)
    (hexec : Executable dev inode) (frames : ℕ → Ptr) : ∃ n, AtEnd dev inode n ∧ (∀ j < n, ¬ AtEnd dev inode j) ∧
      writeProgramToUser dev inode (fun k => some (frames k)) =
        if inode.size ≤ minixBlockSize * startBlock dev inode n ∧ ¬ inode.size < minixBlockSize * maxBlocks then none
        else some (success, pagesOf dev inode frames n) := by
  have hpage := @loadLoop_page dev inode (pageOffset / pageSize) 0 frames [] h hsize (by decide) hend
  rw [startPos_zero, if_neg (fun hc => (refused_iff (frames 0) hend).1 hc.2 hexec)] at hpage
  have hlast : inode.last < maxBlocks := by
    unfold Inode.last minixBlockSize maxBlocks at *
    omega
  have hlimit : maxBlocks + 2 < pageOffset / pageSize := by decide
  obtain ⟨n, hn, hnend, hall, hrun⟩ := @loadLoop_run dev inode frames h hsize (inode.last + 1) 1 (pageOffset / pageSize)
    [loadedPage dev inode (frames 0) 0] one_ne_zero (Nat.le_add_left _ _) (by omega) (by omega)
  refine ⟨n, hnend, fun j hj => ?_, ?_⟩
  · rcases Nat.eq_zero_or_pos j with rfl | hpos
    · exact hend
    · exact hall j hpos hj
  · have hrange : List.range n = 0 :: List.range' 1 (n - 1) := by
      rw [List.range_eq_range', show n = n - 1 + 1 by omega, List.range'_succ, Nat.add_sub_cancel]
    rw [writeProgramToUser, hpage, List.nil_append, hrun, pagesOf, hrange, List.map_cons, List.singleton_append]

/-! ## When the pages are right -/

/-- the reads never get ahead of the pages -/
theorem startBlock_le (k : ℕ) : startBlock dev inode k ≤ 4 * k := by
  rcases @startBlock_cases dev inode k with h | h
  · exact h.1.le
  · exact h.1.le

/-- in step, the file ends before the page of the read that returns -EIO -/
theorem size_le (hin : InStep dev inode) {n : ℕ} (hn : AtEnd dev inode n) : inode.size ≤ pageSize * n := by
  have hle := @startBlock_le dev inode n
  rcases hn with h | ⟨hm, hlast⟩
  · unfold pageSize
    unfold minixBlockSize at *
    omega
  · rcases @startBlock_cases dev inode n with ⟨hs, hall⟩ | ⟨hs, -⟩
    · obtain ⟨k, h1, h2, h3⟩ := hin.trailing hm (by omega)
      have hk : k < 4 * n := by
        unfold Inode.last minixBlockSize at *
        omega
      exact ((hall k hk).elim h1 h2).elim
    · unfold pageSize
      unfold Inode.last minixBlockSize at *
      omega

/-- **In step, a page holds the bytes of the file at its address**, and zeros behind the file. -/
theorem loadedPage_right (hin : InStep dev inode) (frame : Ptr) {o : ℕ} (ho : pageSize * (o / pageSize) < inode.size) :
    loadedPage dev inode frame (o / pageSize) (o % pageSize) = if o < inode.size then inode.byte dev o else 0 := by
  have hdiv := Nat.div_add_mod o pageSize
  have hmod := Nat.mod_lt o (show 0 < pageSize by decide)
  have hpos : startPos dev inode (o / pageSize + 1) ≤ inode.size := Nat.min_le_right _ _
  rw [loadedPage_apply frame _ hmod]
  rcases @startBlock_cases dev inode (o / pageSize) with ⟨hs, -⟩ | ⟨hs, j, hj, hm, h3⟩
  · have haddr : minixBlockSize * startBlock dev inode (o / pageSize) + o % pageSize = o := by
      rw [hs]
      unfold minixBlockSize
      unfold pageSize at *
      omega
    rw [haddr]
    by_cases hlt : o < startPos dev inode (o / pageSize + 1)
    · rw [if_pos hlt, if_pos (hlt.trans_le hpos)]
    · rw [if_neg hlt]
      split_ifs with hfile
      · -- the read has stopped inside the page, at a hole
        symm
        have hle := @startBlock_lt dev inode (o / pageSize)
        rcases (@readEnd_spec dev inode 4 (startBlock dev inode (o / pageSize))).2 with h | ⟨k, h1, h2, h, hm⟩
        all_goals change startBlock dev inode (o / pageSize + 1) = _ at h
        all_goals rw [startPos] at hlt
        · unfold minixBlockSize at *
          unfold pageSize at *
          omega
        · refine hin.zeros k ⟨hm, ?_, ?_⟩ o ?_ hfile
          all_goals unfold minixBlockSize at *
          all_goals unfold pageSize at *
          all_goals omega
      · rfl
  · have hmis : Misaligns dev inode j := by
      refine ⟨hm, h3, ?_⟩
      unfold minixBlockSize
      unfold pageSize at *
      omega
    have hzero : ∀ x, minixBlockSize * (j + 1) ≤ x → x < inode.size → inode.byte dev x = 0 := hin.zeros j hmis
    have hstart : minixBlockSize * (j + 1) ≤ minixBlockSize * startBlock dev inode (o / pageSize) := Nat.mul_le_mul_left _ hj
    have hfile : o < inode.size → inode.byte dev o = 0 := by
      intro hlt
      refine hzero o ?_ hlt
      unfold minixBlockSize at *
      unfold pageSize at *
      omega
    have hread : (if minixBlockSize * startBlock dev inode (o / pageSize) + o % pageSize <
        startPos dev inode (o / pageSize + 1) then
        inode.byte dev (minixBlockSize * startBlock dev inode (o / pageSize) + o % pageSize) else 0) = 0 := by
      split_ifs with h
      · exact hzero _ (hstart.trans (Nat.le_add_right _ _)) (h.trans_le hpos)
      · rfl
    rw [hread]
    split_ifs with h
    · exact (hfile h).symm
    · rfl

theorem loaded_of_inStep (hin : InStep dev inode) (hpos : inode.size ≠ 0) {n : ℕ} (hn : AtEnd dev inode n)
    (frames : ℕ → Ptr) :
    Loaded dev inode (pagesOf dev inode frames n) := by
  have hsize := size_le hin hn
  constructor
  · intro o ho
    have hpage : pageSize * (o / pageSize) < inode.size := (Nat.mul_div_le o pageSize).trans_lt ho
    rw [userByte_page (Nat.div_lt_of_lt_mul (ho.trans_le hsize)), loadedPage_right hin _ hpage, if_pos ho]
  · intro o ho hlast
    have hpage : pageSize * (o / pageSize) < inode.size := by
      rw [hlast]
      unfold pageSize
      omega
    have hn : o / pageSize < n := by
      unfold pageSize at *
      omega
    rw [userByte_page hn, loadedPage_right hin _ hpage, if_neg (not_lt.2 ho)]

theorem loadsRight_of_loadable (h : dev.Sound) (hsize : inode.size ≤ minixBlockSize * maxBlocks)
    (hl : Loadable dev inode) : LoadsRight dev inode := by
  obtain ⟨hpos, hhole, hin⟩ := hl
  have hend : ¬ AtEnd dev inode 0 := fun hc => (atEnd_zero.1 hc).elim hpos hhole
  intro frame hframe
  obtain ⟨frames, rfl⟩ : ∃ frames : ℕ → Ptr, frame = fun k => some (frames k) :=
    ⟨fun k => (frame k).get (hframe k), funext fun k => (Option.some_get _).symm⟩
  by_cases hexec : Executable dev inode
  · have hin := hin hexec
    obtain ⟨n, hn, hall, hrun⟩ := program_runs h hsize hend hexec frames
    have hok : ¬ (inode.size ≤ minixBlockSize * startBlock dev inode n ∧ ¬ inode.size < minixBlockSize * maxBlocks) := by
      rintro ⟨h1, h2⟩
      rcases hin.ends with h3 | ⟨hm, k, hk⟩
      · exact h2 h3
      · -- the read at the last hole comes first
        have hnk : n ≤ k := not_lt.1 fun hlt => hall k hlt (Or.inr ⟨hm, hk⟩)
        have hle := @startBlock_mono dev inode _ _ hnk
        unfold Inode.last minixBlockSize at *
        omega
    rw [if_neg hok] at hrun
    exact ⟨_, _, hrun, iff_of_true le_rfl hexec, fun _ => loaded_of_inStep hin hpos hn frames⟩
  · exact ⟨_, _, program_refused h hsize hend hexec, iff_of_false (by decide) hexec, fun h0 => absurd h0 (by decide)⟩

/-- **The first hole that puts the reads out of step** is where one of them ends. -/
theorem first_misaligned {k : ℕ} (hk : Misaligns dev inode k) (hfirst : ∀ j < k, ¬ Misaligns dev inode j) :
    startBlock dev inode (k / 4) = 4 * (k / 4) ∧ startBlock dev inode (k / 4 + 1) = k + 1 := by
  obtain ⟨hm, h3, hlt⟩ := hk
  have hearlier : ∀ j < k, Mapped dev inode j ∨ j % 4 = 3 := by
    intro j hj
    by_contra hc
    rw [not_or] at hc
    exact hfirst j hj ⟨hc.1, hc.2, (Nat.mul_le_mul_left _ (Nat.succ_le_succ hj.le)).trans_lt hlt⟩
  have hs : startBlock dev inode (k / 4) = 4 * (k / 4) := by
    rcases @startBlock_cases dev inode (k / 4) with h | ⟨h, j, hj, hmj, hj3⟩
    · exact h.1
    · exact ((hearlier j (by omega)).elim hmj hj3).elim
  refine ⟨hs, ?_⟩
  obtain ⟨hmapped, hend⟩ := @readEnd_spec dev inode 4 (startBlock dev inode (k / 4))
  change ∀ j, startBlock dev inode (k / 4) ≤ j → j + 1 < startBlock dev inode (k / 4 + 1) → Mapped dev inode j at hmapped
  have hle : ¬ k + 1 < startBlock dev inode (k / 4 + 1) := fun hc => hm (hmapped k (by omega) hc)
  rcases hend with h | ⟨j, h1, h2, h, hmj⟩
  all_goals change startBlock dev inode (k / 4 + 1) = _ at h
  · omega
  · rcases Nat.lt_or_ge j k with hj | hj
    · exact ((hearlier j hj).elim hmj (by omega)).elim
    · omega

/-- **Pages that are right are in step**, if the frame of the last one holds no zero. -/
theorem inStep_of_loaded {n : ℕ} (hn : AtEnd dev inode n) (hall : ∀ j < n, ¬ AtEnd dev inode j) (hpos : inode.size ≠ 0)
    (hok : ¬ (inode.size ≤ minixBlockSize * startBlock dev inode n ∧ ¬ inode.size < minixBlockSize * maxBlocks))
    (hframe : frames n 0 ≠ 0) (hl : Loaded dev inode (pagesOf dev inode frames n)) : InStep dev inode := by
  have hle := @startBlock_le dev inode n
  have hsize : inode.size ≤ pageSize * n := by
    by_contra hlt
    have hbyte := hl.file (pageSize * n) (not_le.1 hlt)
    rw [userByte_last] at hbyte
    refine hframe ((Option.some.inj hbyte).trans (byte_hole ?_))
    -- the read of this page finds the hole at the end of the file
    rcases hn with h | ⟨hm, hlast⟩
    · unfold pageSize at *
      unfold minixBlockSize at *
      omega
    · have hdiv : pageSize * n / minixBlockSize = inode.last := by
        unfold pageSize at *
        unfold Inode.last minixBlockSize at *
        omega
      rwa [hdiv]
  have hpage : ∀ o < inode.size, loadedPage dev inode (frames (o / pageSize)) (o / pageSize)
      (o % pageSize) = inode.byte dev o := by
    intro o ho
    have hbyte := hl.file o ho
    rw [userByte_page (Nat.div_lt_of_lt_mul (ho.trans_le hsize))] at hbyte
    exact Option.some.inj hbyte
  refine ⟨?_, fun k hk => ?_, fun hm h4 => ?_⟩
  · by_cases hlimit : inode.size < minixBlockSize * maxBlocks
    · exact Or.inl hlimit
    · rcases hn with h | ⟨hm, hlast⟩
      · exact absurd ⟨h, hlimit⟩ hok
      · exact Or.inr ⟨hm, n, hlast⟩
  · classical
    have hex : ∃ k, Misaligns dev inode k := ⟨k, hk⟩
    obtain ⟨hm, h3, hlt⟩ := Nat.find_spec hex
    obtain ⟨hs, hnext⟩ := first_misaligned (Nat.find_spec hex) fun j hj => Nat.find_min hex hj
    have hmin : Nat.find hex ≤ k := Nat.find_min' hex hk
    generalize Nat.find hex = k₀ at hm h3 hlt hs hnext hmin
    have hzero : ∀ o, minixBlockSize * (k₀ + 1) ≤ o → o < inode.size → inode.byte dev o = 0 := by
      intro o
      induction o using Nat.strong_induction_on with
      | _ o ih =>
        intro hlow hhigh
        have hdiv := Nat.div_add_mod o pageSize
        rw [← hpage o hhigh, loadedPage_apply _ _ (Nat.mod_lt o (by decide))]
        split_ifs with hread
        · have hj : k₀ / 4 < o / pageSize := by
            by_contra hc
            have hj : o / pageSize = k₀ / 4 := by
              unfold minixBlockSize at *
              unfold pageSize at *
              omega
            rw [hj, startPos, hnext, hs] at hread
            unfold minixBlockSize at *
            unfold pageSize at *
            omega
          have hmono := @startBlock_mono dev inode _ _ (Nat.succ_le_of_lt hj)
          rw [Nat.succ_eq_add_one, hnext] at hmono
          rcases @startBlock_cases dev inode (o / pageSize) with ⟨-, hall⟩ | ⟨hout, -⟩
          · exact ((hall k₀ (by omega)).elim hm h3).elim
          · refine ih _ ?_ ?_ (hread.trans_le (Nat.min_le_right _ _))
            · unfold minixBlockSize
              unfold pageSize at *
              omega
            · exact (Nat.mul_le_mul_left _ hmono).trans (Nat.le_add_right _ _)
        · rfl
    exact fun o hlow => hzero o ((Nat.mul_le_mul_left _ (Nat.succ_le_succ hmin)).trans hlow)
  · by_contra hnone
    have hlast : minixBlockSize * inode.last < inode.size := by
      unfold Inode.last minixBlockSize
      omega
    rcases @startBlock_cases dev inode (inode.last / 4) with ⟨hs, -⟩ | ⟨hs, j, hj, hmj, hj3⟩
    · -- the read of this page would have returned -EIO
      refine hall (inode.last / 4) ?_ (Or.inr ⟨hm, by omega⟩)
      unfold pageSize minixBlockSize at *
      omega
    · refine hnone ⟨j, hmj, hj3, ?_⟩
      exact (Nat.mul_le_mul_left _ (by omega)).trans_lt hlast

theorem not_executable_of_empty (hend : AtEnd dev inode 0) : ¬ Executable dev inode := by
  rintro ⟨h8, hmagic⟩
  rcases atEnd_zero.1 hend with h | ⟨-, hm⟩
  · omega
  · have hzero : wordAt (inode.byte dev) 4 = wordAt (fun _ => 0) 4 := by
      refine wordAt_congr 4 fun j _ hj => byte_hole ?_
      rwa [Nat.div_eq_of_lt (by unfold minixBlockSize; omega)]
    rw [hzero] at hmagic
    exact absurd hmagic (by decide)

theorem loadable_of_loadsRight (h : dev.Sound) (hsize : inode.size ≤ minixBlockSize * maxBlocks)
    (hr : LoadsRight dev inode) : Loadable dev inode := by
  obtain ⟨ret, pages, hrun, hret, hloaded⟩ := hr (fun _ => some fun _ => 1) fun _ => rfl
  have hend : ¬ AtEnd dev inode 0 := by
    intro hend
    rw [program_empty h hsize hend] at hrun
    cases hrun
    exact not_executable_of_empty hend (hret.1 le_rfl)
  have hpos : inode.size ≠ 0 := fun h0 => hend (atEnd_zero.2 (Or.inl h0))
  refine ⟨hpos, fun hc => hend (atEnd_zero.2 (Or.inr hc)), fun hexec => ?_⟩
  obtain ⟨n, hn, hall, hrun'⟩ := program_runs h hsize hend hexec fun _ => fun _ => 1
  rw [hrun] at hrun'
  split_ifs at hrun' with hok
  cases hrun'
  exact inStep_of_loaded hn hall hpos hok (show (1 : Byte) ≠ 0 by decide) (hloaded le_rfl)

/-- **The files that are loaded as they should.** For every minix file up to the largest, on a device without failures. -/
theorem load_iff (dev : Device) (inode : Inode) (h : dev.Sound) (hsize : inode.size ≤ minixBlockSize * maxBlocks) :
    LoadsRight dev inode ↔ Loadable dev inode := by
  constructor
  · exact loadable_of_loadsRight h hsize
  · exact loadsRight_of_loadable h hsize

/-- a disk with the magic at offset 4 of every block -/
def magicDisk : Device :=
  ⟨fun _ => some fun i => if i % minixBlockSize = 4 then 0x23 else if i % minixBlockSize = 5 then 0x90
    else if i % minixBlockSize = 6 then 0x87 else if i % minixBlockSize = 7 then 0x19 else 0, fun _ => true⟩

theorem magicDisk_sound : magicDisk.Sound := fun _ => rfl

/-- 8000 bytes in two pages, each of which ends with a hole -/
def twoPages : Inode := ⟨8000, fun i => if i = 3 then 0 else 1⟩

theorem load_pages : Executable magicDisk twoPages ∧ LoadsRight magicDisk twoPages := by
  have hmapped : ∀ k < 7, k % 4 ≠ 3 → Mapped magicDisk twoPages k := by decide
  have haligned : ∀ k, ¬ Misaligns magicDisk twoPages k := fun k hk => by
    have hlt := hk.2.2
    change 1024 * (k + 1) < 8000 at hlt
    exact hk.1 (hmapped k (by omega) hk.2.1)
  have hin : InStep magicDisk twoPages :=
    ⟨Or.inl (by decide), fun k hk => absurd hk (haligned k), fun _ hlast => absurd hlast (by decide)⟩
  have hexec : Executable magicDisk twoPages := ⟨by decide, by decide⟩
  refine ⟨hexec, (load_iff magicDisk twoPages magicDisk_sound (by decide)).2 ⟨by decide, ?_, fun _ => hin⟩⟩
  exact fun hc => hc.2 (hmapped 0 (by decide) (by decide))

/-- The empty file has no magic, and it is loaded with success. -/
theorem empty_loaded : magicDisk.Sound ∧ ¬ LoadsRight magicDisk ⟨0, fun _ => 1#16⟩ := by
  refine ⟨magicDisk_sound, fun hr => ?_⟩
  obtain ⟨ret, pages, hrun, hret, -⟩ := hr (fun _ => some fun _ => 0) fun _ => rfl
  have hempty := @program_empty magicDisk ⟨0, fun _ => 1#16⟩ (fun _ => fun _ => 0) magicDisk_sound (by decide)
    (atEnd_zero.2 (Or.inl rfl))
  rw [hrun] at hempty
  cases hempty
  exact absurd (hret.1 le_rfl).1 (by decide)

end SinsOs.Exec
