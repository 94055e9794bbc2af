/-
Files read in pieces: cat (tools/cat/main.c) and the counts of wc (tools/wc/main.c), over the files of a minix file system.

Both read 1024 bytes again and again until a read fails. A read is minix_file_read at the position of the struct file, which
sys_read and file_read pass on. cat puts a NUL behind the bytes in its buf and prints them with printf (tools/generic/libc.c),
which formats into a static buffer and writes that to STDOUT. `none` is the BUG_ON of _bmap, or that the fuel is used up. An int
is an integer, since its overflow is undefined.

- `readWhile_eq`: the reads give the pieces of the file one after the other, and end. A last block without a zone is not read.
- `cat_prints`: of a file that opens, cat writes what each piece has in front of its first NUL; it writes the file exactly when
  the file has no NUL.
- `wc_counts`: wc counts the lines of the file, and its bytes if its last block has a zone.
-/
import Mathlib.Data.List.TakeWhile
import SinsOs.Fs.Minix.Read
import SinsOs.Lib.Vsprintf

namespace SinsOs.Cat

open SinsOs.Lib SinsOs.Minix SinsOs.Vsprintf SinsOs.Strtoul SinsOs.Div64

/-! ## Model -/

def readSize : ℕ := 1024

/-- the loop around read(file, buf, 1024); the body gets the return value and the bytes stored -/
def readWhile {σ : Type} (dev : Device) (inode : Inode) (body : σ → ℤ → List Byte → Option σ) :
    ℕ → ℕ → σ → Option σ
  | 0, _, _ => none
  | fuel + 1, pos, s =>
    (minixFileRead dev inode readSize pos).bind fun r =>
      if r.ret < 0 then some s else (body s r.ret r.stored).bind (readWhile dev inode body fuel r.pos)

/-- the memory of a program, and what it has written to STDOUT -/
structure Program where
  mem : Ptr
  out : List Byte

/-- what a read leaves in the memory -/
def storeAt (mem : Ptr) (buf : ℕ) (l : List Byte) : Ptr :=
  fun a => if buf ≤ a ∧ a < buf + l.length then cstr l (a - buf) else mem a

/-- the static buffer of libc.c is at printBuf -/
def printf (printBuf : ℕ) (p : Program) (fmt : List Byte) (args : VaList) : Option Program :=
  (vsprintf p.mem printBuf fmt args).map fun r =>
    if 0 < (BitVec.ofNat 32 r.2).toInt then ⟨r.1, p.out ++ (List.range r.2).map fun k => r.1 (printBuf + k)⟩
      else ⟨r.1, p.out⟩

/-- `buf[ret] = 0; printf("%s", buf);` -/
def catBody (buf printBuf : ℕ) (p : Program) (ret : ℤ) (l : List Byte) : Option Program :=
  printf printBuf { p with mem := Function.update (storeAt p.mem buf l) (buf + ret.toNat) 0 } [ch '%', ch 's']
    fun _ => BitVec.ofNat 32 buf

def openFailed : List Byte := "open %s failed!\n".toList.map ch

/-- `file` is what open gives for the string at path; without a file the first read fails -/
def outputFile (dev : Device) (file : Option Inode) (path buf printBuf fuel : ℕ) (p : Program) : Option Program :=
  match file with
  | none => printf printBuf p openFailed fun _ => BitVec.ofNat 32 path
  | some inode => readWhile dev inode (catBody buf printBuf) fuel 0 p

/-- count_file up to its printf -/
def countFile (dev : Device) (inode : Inode) (line : Bool) (fuel : ℕ) : Option ℤ :=
  readWhile dev inode (fun count ret l => some (if line then count + l.count (ch '\n') else count + ret)) fuel 0 0

/-! ## One read -/

variable {dev : Device} {inode : Inode} {pos k : ℕ}

theorem readLoop_done (fuel : ℕ) : readLoop dev inode fuel 0 pos = some ⟨0, pos, []⟩ := by
  cases fuel with
  | zero => rfl
  | succ fuel => rw [readLoop, if_pos rfl]

/-- a read at the start of a block, or behind the end of the file -/
theorem read_eq (h : dev.Sound) (hpos : pos % readSize = 0 ∨ inode.size ≤ pos) (hmax : pos / minixBlockSize < maxBlocks) :
    minixFileRead dev inode readSize pos = some
      (if pos < inode.size ∧ (Mapped dev inode (pos / minixBlockSize) ∨ pos + readSize < inode.size) then
        ⟨(min (pos + readSize) inode.size - pos : ℕ), min (pos + readSize) inode.size,
          inode.bytes dev pos (min (pos + readSize) inode.size)⟩
      else ⟨-eIo, max pos (min (pos + readSize) inode.size), []⟩) := by
  have hstop : stopOf inode readSize pos = max pos (min (pos + readSize) inode.size) := by
    unfold stopOf
    unfold readSize minixBlockSize at *
    omega
  have hloop : readLoop dev inode readSize readSize pos = readLoop dev inode (1023 + 1) readSize pos := rfl
  rw [minixFileRead, hloop, readLoop, if_neg (by decide), turn_eq h, if_neg (by omega), hstop]
  by_cases hlt : pos < inode.size
  · have hmx : max pos (min (pos + readSize) inode.size) = min (pos + readSize) inode.size := by
      unfold readSize
      omega
    rw [hmx]
    by_cases hend : pos + readSize < inode.size
    · have hmin : min (pos + readSize) inode.size = pos + readSize := min_eq_left hend.le
      have hgo : Mapped dev inode (pos / minixBlockSize) ∨ pos + readSize < inode.size := Or.inr hend
      rw [hmin, if_pos hgo, if_pos ⟨hlt, hgo⟩, Nat.add_sub_cancel_left, Nat.sub_self]
      by_cases hm : Mapped dev inode (pos / minixBlockSize)
      · rw [decide_eq_true (show _ ∧ _ from ⟨hm, hend⟩)]
        simp only [readLoop_done, Option.map_some, List.append_nil, Nat.sub_zero]
        rfl
      · rw [decide_eq_false (show ¬ (_ ∧ _) from fun hb => hm hb.1)]
        simp only [Option.map_some, Nat.sub_zero]
        rfl
    · have hmin : min (pos + readSize) inode.size = inode.size := min_eq_right (not_lt.1 hend)
      rw [hmin, decide_eq_false (show ¬ (_ ∧ _) from fun hb => lt_irrefl _ hb.2)]
      by_cases hm : Mapped dev inode (pos / minixBlockSize)
      · have hne : readSize - (readSize - (inode.size - pos)) = inode.size - pos := by
          unfold readSize at *
          omega
        have hturn : Mapped dev inode (pos / minixBlockSize) ∨ inode.size < inode.size := Or.inl hm
        have hgo : Mapped dev inode (pos / minixBlockSize) ∨ pos + readSize < inode.size := Or.inl hm
        rw [if_pos hturn, if_pos ⟨hlt, hgo⟩]
        simp only [Option.map_some, hne, if_pos (show inode.size - pos ≠ 0 by omega)]
      · have hturn : ¬ (Mapped dev inode (pos / minixBlockSize) ∨ inode.size < inode.size) :=
          fun hb => hb.elim hm (lt_irrefl _)
        have hgo : ¬ (pos < inode.size ∧ (Mapped dev inode (pos / minixBlockSize) ∨ pos + readSize < inode.size)) :=
          fun hb => hb.2.elim hm hend
        rw [if_neg hturn, if_neg hgo]
        simp only [Option.map_some, Nat.sub_self, ne_eq, not_true_eq_false, if_false]
  · have hmx : max pos (min (pos + readSize) inode.size) = pos := by
      unfold readSize
      omega
    have hgo : ¬ (pos < inode.size ∧ (Mapped dev inode (pos / minixBlockSize) ∨ pos + readSize < inode.size)) :=
      fun hb => hlt hb.1
    rw [hmx, if_neg hgo, decide_eq_false (show ¬ (_ ∧ _) from fun hb => hlt hb.2), Nat.sub_self, Nat.sub_zero,
      bytes_empty le_rfl]
    split_ifs <;> simp only [Option.map_some, Nat.sub_self, ne_eq, not_true_eq_false, if_false]

/-! ## The pieces of a file -/

def piece (dev : Device) (inode : Inode) (k : ℕ) : List Byte :=
  inode.bytes dev (readSize * k) (min (readSize * (k + 1)) inode.size)

def nrPieces (inode : Inode) : ℕ := (inode.size + (readSize - 1)) / readSize

theorem lt_nrPieces : k < nrPieces inode ↔ readSize * k < inode.size := by
  unfold nrPieces readSize
  omega

theorem size_le : inode.size ≤ readSize * nrPieces inode :=
  not_lt.1 fun hlt => lt_irrefl _ (lt_nrPieces.2 hlt)

/-- the file ends in a block without a zone -/
def HoleAtEnd (dev : Device) (inode : Inode) : Prop := inode.size ≠ 0 ∧ ¬ Mapped dev inode (nrPieces inode - 1)

instance : Decidable (HoleAtEnd dev inode) := inferInstanceAs (Decidable (_ ∧ _))

/-- the pieces that are read -/
def nrRead (dev : Device) (inode : Inode) : ℕ := if HoleAtEnd dev inode then nrPieces inode - 1 else nrPieces inode

theorem nrRead_le : nrRead dev inode ≤ nrPieces inode := by
  rw [nrRead]
  split_ifs
  · exact Nat.sub_le _ _
  · exact le_rfl

theorem read_piece (h : dev.Sound) (hsize : inode.size < readSize * maxBlocks) (hk : k < nrRead dev inode) :
    minixFileRead dev inode readSize (readSize * k) =
      some ⟨(piece dev inode k).length, min (readSize * (k + 1)) inode.size, piece dev inode k⟩ := by
  have hdiv : readSize * k / minixBlockSize = k := Nat.mul_div_cancel_left k (by decide)
  have hpiece : k < nrPieces inode := hk.trans_le nrRead_le
  have hlt : readSize * k < inode.size := lt_nrPieces.1 hpiece
  have hgo : Mapped dev inode k ∨ readSize * k + readSize < inode.size := by
    by_contra hno
    rw [not_or, ← Nat.mul_succ, ← lt_nrPieces] at hno
    have hlast : nrPieces inode - 1 = k := by omega
    rw [nrRead, if_pos ⟨by omega, by rw [hlast]; exact hno.1⟩] at hk
    omega
  have hmax : k < maxBlocks := by
    unfold readSize at *
    omega
  rw [read_eq h (Or.inl (Nat.mul_mod_right _ _)) (by rw [hdiv]; exact hmax), hdiv, if_pos ⟨hlt, hgo⟩, piece, length_bytes,
    Nat.mul_succ]

/-- the read behind the last piece fails -/
theorem read_ends (h : dev.Sound) (hsize : inode.size < readSize * maxBlocks) :
    ∃ r, minixFileRead dev inode readSize (min (readSize * nrRead dev inode) inode.size) = some r ∧ r.ret < 0 := by
  have hmax : min (readSize * nrRead dev inode) inode.size / minixBlockSize < maxBlocks := by
    unfold minixBlockSize
    unfold readSize at *
    omega
  have hpos : min (readSize * nrRead dev inode) inode.size % readSize = 0 ∨
      inode.size ≤ min (readSize * nrRead dev inode) inode.size := by
    rcases le_total inode.size (readSize * nrRead dev inode) with hle | hle
    · rw [min_eq_right hle]
      exact Or.inr le_rfl
    · rw [min_eq_left hle]
      exact Or.inl (Nat.mul_mod_right _ _)
  refine ⟨_, read_eq h hpos hmax, ?_⟩
  rw [if_neg]
  · exact (by decide : -eIo < 0)
  · rintro ⟨hlt, hgo⟩
    -- only a hole at the end is left
    have hhole : HoleAtEnd dev inode := by
      by_contra hno
      rw [nrRead, if_neg hno, min_eq_right size_le] at hlt
      exact lt_irrefl _ hlt
    rw [nrRead, if_pos hhole] at hlt hgo
    have hle : readSize * (nrPieces inode - 1) ≤ inode.size := by omega
    have hdiv : readSize * (nrPieces inode - 1) / minixBlockSize = nrPieces inode - 1 := Nat.mul_div_cancel_left _ (by decide)
    rw [min_eq_left hle, hdiv] at hgo
    rcases hgo with hm | hbehind
    · exact hhole.2 hm
    · rw [← Nat.mul_succ, ← lt_nrPieces] at hbehind
      omega

/-! ## The loop -/

variable {σ : Type} {body : σ → ℤ → List Byte → Option σ}

theorem readWhile_from (h : dev.Sound) (hsize : inode.size < readSize * maxBlocks) (n : ℕ) : ∀ (j fuel : ℕ) (s : σ),
    j + n = nrRead dev inode → n < fuel → readWhile dev inode body fuel (min (readSize * j) inode.size) s =
      ((List.range' j n).map (piece dev inode)).foldlM (fun s l => body s l.length l) s := by
  induction n with
  | zero =>
    intro j fuel s hj hfuel
    obtain ⟨fuel, rfl⟩ := Nat.exists_eq_add_one.2 hfuel
    obtain ⟨r, hr, hret⟩ := read_ends h hsize
    rw [Nat.add_zero] at hj
    rw [readWhile, hj, hr, Option.bind_some, if_pos hret]
    rfl
  | succ n ih =>
    intro j fuel s hj hfuel
    obtain ⟨fuel, rfl⟩ := Nat.exists_eq_add_one.2 (Nat.zero_lt_of_lt hfuel)
    have hj' : j < nrRead dev inode := by omega
    have hlt : readSize * j < inode.size := lt_nrPieces.1 (hj'.trans_le nrRead_le)
    rw [readWhile, min_eq_left hlt.le, read_piece h hsize hj', Option.bind_some, if_neg (by dsimp only; omega),
      List.range'_succ, List.map_cons, List.foldlM_cons]
    refine congrArg (Option.bind _) (funext fun s' => ?_)
    exact ih (j + 1) fuel s' (by omega) (by omega)

theorem readWhile_eq (h : dev.Sound) (hsize : inode.size < readSize * maxBlocks) {fuel : ℕ}
    (hfuel : nrPieces inode < fuel) (s : σ) :
    readWhile dev inode body fuel 0 s =
      ((List.range (nrRead dev inode)).map (piece dev inode)).foldlM (fun s l => body s l.length l) s := by
  have hloop := @readWhile_from dev inode σ body h hsize (nrRead dev inode) 0 fuel s (Nat.zero_add _) (nrRead_le.trans_lt hfuel)
  rwa [Nat.mul_zero, Nat.zero_min, ← List.range_eq_range'] at hloop

/-! ## What the pieces add up to -/

def file (dev : Device) (inode : Inode) : List Byte := inode.bytes dev 0 inode.size

theorem pieces_flatten (n : ℕ) :
    ((List.range n).map (piece dev inode)).flatten = inode.bytes dev 0 (min (readSize * n) inode.size) := by
  induction n with
  | zero =>
    rw [Nat.mul_zero, Nat.zero_min, bytes_empty le_rfl]
    rfl
  | succ n ih =>
    rw [List.range_succ, List.map_append, List.flatten_append, ih, List.map_singleton, List.flatten_singleton, piece]
    have hnext : readSize * (n + 1) = readSize * n + readSize := Nat.mul_succ _ _
    by_cases hle : readSize * n ≤ inode.size
    · rw [min_eq_left hle]
      exact bytes_append (Nat.zero_le _) (by omega)
    · have hend : min (readSize * (n + 1)) inode.size = inode.size := by omega
      rw [min_eq_right (not_le.1 hle).le, hend, bytes_empty (not_le.1 hle).le, List.append_nil]

theorem file_pieces : ((List.range (nrPieces inode)).map (piece dev inode)).flatten = file dev inode := by
  rw [pieces_flatten, min_eq_right size_le, file]

/-- the pieces that are not read are zeros -/
theorem pieces_read : ∃ rest, (List.range (nrPieces inode)).map (piece dev inode) =
    (List.range (nrRead dev inode)).map (piece dev inode) ++ rest ∧ ∀ l ∈ rest, ∀ c ∈ l, c = 0 := by
  rw [nrRead]
  split_ifs with hhole
  · obtain ⟨n, hn⟩ := Nat.exists_eq_add_one.2 (lt_nrPieces.2 (Nat.pos_of_ne_zero hhole.1))
    refine ⟨[piece dev inode n], ?_, fun l hl c hc => ?_⟩
    · rw [hn, Nat.add_sub_cancel, List.range_succ, List.map_append, List.map_singleton]
    · rw [List.mem_singleton.1 hl, piece] at hc
      obtain ⟨m, hm⟩ : ∃ m, min (readSize * (n + 1)) inode.size = readSize * n + m := Nat.exists_eq_add_of_le
        (le_min (Nat.mul_le_mul_left _ (Nat.le_succ n)) (lt_nrPieces.1 (by omega)).le)
      have hdiv : readSize * n / minixBlockSize = n := Nat.mul_div_cancel_left n (by decide)
      have hzero : ¬ Mapped dev inode n := by
        have := hhole.2
        rwa [hn, Nat.add_sub_cancel] at this
      rw [hm, bytes_block (by unfold minixBlockSize; unfold readSize at *; omega), hdiv, if_neg hzero] at hc
      exact List.eq_of_mem_replicate hc
  · exact ⟨[], (List.append_nil _).symm, fun l hl => absurd hl List.not_mem_nil⟩

/-! ## cat -/

/-- where buf of output_file and the static buf of printf are -/
structure Buffers where
  buf : ℕ
  printBuf : ℕ
  buf_pos : 0 < buf
  print_pos : 0 < printBuf
  buf_top : buf + 1025 ≤ 2 ^ 32
  print_top : printBuf + 4096 ≤ 2 ^ 32
  apart : buf + 1025 ≤ printBuf ∨ printBuf + 4096 ≤ buf

/-- the text of a piece: what is in front of its first NUL -/
def cut (l : List Byte) : List Byte := l.takeWhile (· ≠ 0)

theorem cut_length (l : List Byte) : (cut l).length ≤ l.length := (List.takeWhile_prefix _).length_le

theorem strn_cut (n : ℕ) : ∀ l : List Byte, strn n (cstr l) = cut (l.take n) := by
  induction n with
  | zero => exact fun l => rfl
  | succ n ih =>
    intro l
    cases l with
    | nil => exact if_pos rfl
    | cons b l =>
      have hhead : cstr (b :: l) 0 = b := rfl
      rw [strn, cstr_cons, hhead, ih, cut, cut, List.take_succ_cons]
      by_cases hb : b = 0
      · rw [if_pos hb, List.takeWhile_cons_of_neg (by simpa using hb)]
      · rw [if_neg hb, List.takeWhile_cons_of_pos (by simpa using hb)]

theorem strAt_range {mem : Ptr} {p : ℕ} {l : List Byte} (h : StrAt mem p l) :
    ((List.range l.length).map fun k => mem (p + k)) = l := by
  refine List.ext_getElem (by simp) fun i h1 h2 => ?_
  rw [List.getElem_map, List.getElem_range, h i h2.le, cstr, List.getD_eq_getElem?_getD, List.getElem?_eq_getElem h2,
    Option.getD_some]

theorem effects_string (w : BitVec 32) :
    effects ([ch '%', ch 's'].length + 1) [ch '%', ch 's'] (fun _ => w) = some [.string w.toNat (-1) (-1) false] := by
  have hdir : directive [ch 's'] (fun _ => w) = some (.string w.toNat (-1) (-1) false, [], fun _ => w) := by
    simp +decide [directive, flagLoop, getWidth, getPrecision, getQualifier, convert]
    rfl
  change effects 3 _ _ = _
  rw [effects, if_neg (by decide), hdir]
  rfl

/-- one turn of the loop writes the text of the piece -/
theorem catBody_eq (B : Buffers) (p : Program) {l : List Byte} (hl : l.length ≤ readSize) :
    ∃ mem, catBody B.buf B.printBuf p l.length l = some ⟨mem, p.out ++ cut l⟩ := by
  obtain ⟨mem, hmem⟩ : ∃ mem : Ptr, mem = Function.update (storeAt p.mem B.buf l) (B.buf + (l.length : ℤ).toNat) 0 :=
    ⟨_, rfl⟩
  have hl : l.length ≤ 1024 := hl
  have hbuf := B.buf_pos
  have hbtop := B.buf_top
  have hptop := B.print_top
  have hapart := B.apart
  have hat : ∀ i ≤ l.length, mem.add B.buf i = cstr l i := by
    intro i hi
    rw [Ptr.add, hmem, Int.toNat_natCast]
    rcases Nat.eq_or_lt_of_le hi with rfl | hlt
    · rw [Nat.add_comm, Function.update_self, cstr_end]
    · rw [Function.update_of_ne (by omega), storeAt, if_pos (by omega), Nat.add_sub_cancel]
  have hword : (BitVec.ofNat 32 B.buf).toNat = B.buf := by
    rw [BitVec.toNat_ofNat]
    omega
  have hstring : strn (u32 (-1)) (stringAt mem B.buf) = cut l := by
    have hcstr : strn (u32 (-1)) (cstr l) = cut l := by
      rw [strn_cut, List.take_of_length_le (hl.trans (by decide))]
    rw [stringAt, if_neg (by omega), ← hcstr]
    refine strn_agree fun i hi => hat i (hi.trans ?_)
    rw [hcstr]
    exact cut_length l
  have hes := effects_string (BitVec.ofNat 32 B.buf)
  rw [hword] at hes
  have htext : textOf mem [.string B.buf (-1) (-1) false] = cut l := by
    have hpad : (-1 - ((cut l).length : ℤ)).toNat = 0 := by omega
    rw [textOf, List.flatMap_singleton, Effect.text, hstring]
    rw [hpad, if_neg Bool.false_ne_true, List.replicate_zero, List.nil_append]
  have hlen := cut_length l
  obtain ⟨mem', hrun, hstr, -⟩ := @vsprintf_eq _ _ mem _ _ B.print_pos hes (by rw [htext]; omega) (by
    intro e he
    rw [List.mem_singleton.1 he, htext]
    refine Or.inr fun i hi => ?_
    rw [hstring] at hi
    rw [Outside]
    omega)
  rw [htext] at hrun hstr
  have hint : (BitVec.ofNat 32 (cut l).length).toInt = (cut l).length := by
    rw [BitVec.toInt_eq_toNat_of_lt (by rw [BitVec.toNat_ofNat]; omega), BitVec.toNat_ofNat, Nat.mod_eq_of_lt (by omega)]
  refine ⟨mem', ?_⟩
  rw [catBody, printf]
  dsimp only
  rw [← hmem, hrun, Option.map_some]
  dsimp only
  rw [hint, strAt_range hstr]
  split_ifs with hpos
  · rfl
  · have hnil : cut l = [] := List.eq_nil_of_length_eq_zero (by omega)
    rw [hnil, List.append_nil]

theorem cat_fold (B : Buffers) (ls : List (List Byte)) (hls : ∀ l ∈ ls, l.length ≤ readSize) : ∀ p : Program,
    ∃ mem, ls.foldlM (fun p l => catBody B.buf B.printBuf p l.length l) p = some ⟨mem, p.out ++ ls.flatMap cut⟩ := by
  induction ls with
  | nil => exact fun p => ⟨p.mem, by rw [List.flatMap_nil, List.append_nil]; rfl⟩
  | cons l ls ih =>
    intro p
    obtain ⟨mem, hmem⟩ := catBody_eq B p (hls l List.mem_cons_self)
    obtain ⟨mem', hmem'⟩ := ih (fun l hl => hls l (List.mem_cons_of_mem _ hl)) ⟨mem, p.out ++ cut l⟩
    refine ⟨mem', ?_⟩
    rw [List.foldlM_cons, hmem, List.flatMap_cons, ← List.append_assoc]
    exact hmem'

theorem cut_eq_nil {l : List Byte} (h : ∀ c ∈ l, c = 0) : cut l = [] := by
  cases l with
  | nil => rfl
  | cons c l => exact List.takeWhile_cons_of_neg (by simpa using h c List.mem_cons_self)

/-- the texts are all there is exactly when there is no NUL -/
theorem flatMap_cut_eq (ls : List (List Byte)) : ls.flatMap cut = ls.flatten ↔ ∀ c ∈ ls.flatten, c ≠ 0 := by
  constructor
  · intro h c hc
    rw [← h] at hc
    obtain ⟨l, -, hl⟩ := List.mem_flatMap.1 hc
    simpa using List.mem_takeWhile_imp hl
  · intro h
    rw [List.flatMap_def]
    refine congrArg List.flatten ((List.map_congr_left fun l hl => ?_).trans (List.map_id ls))
    exact List.takeWhile_eq_self_iff.2 fun c hc => by simpa using h c (List.mem_flatten.2 ⟨l, hl, hc⟩)

/-- **cat prints the file up to its NULs.** For every file that is smaller than the format allows: the loop of output_file ends,
and STDOUT gets what each piece of 1024 bytes has in front of its first NUL. That is the file exactly when the file has no NUL. -/
theorem cat_prints (h : dev.Sound) (hsize : inode.size < readSize * maxBlocks) {fuel : ℕ} (hfuel : nrPieces inode < fuel)
    (B : Buffers) (path : ℕ) (p : Program) : ∃ mem text,
      outputFile dev (some inode) path B.buf B.printBuf fuel p = some ⟨mem, p.out ++ text⟩ ∧
      text = ((List.range (nrPieces inode)).map (piece dev inode)).flatMap cut ∧
      (text = file dev inode ↔ ∀ c ∈ file dev inode, c ≠ 0) := by
  obtain ⟨rest, hrest, hzero⟩ := @pieces_read dev inode
  obtain ⟨mem, hmem⟩ := cat_fold B ((List.range (nrRead dev inode)).map (piece dev inode)) (fun l hl => by
    obtain ⟨k, -, rfl⟩ := List.mem_map.1 hl
    rw [piece, length_bytes]
    have hnext : readSize * (k + 1) = readSize * k + readSize := Nat.mul_succ _ _
    omega) p
  have hnone : rest.flatMap cut = [] := List.flatMap_eq_nil_iff.2 fun l hl => cut_eq_nil (hzero l hl)
  refine ⟨mem, _, ?_, rfl, ?_⟩
  · rw [outputFile, readWhile_eq h hsize hfuel, hmem, hrest, List.flatMap_append, hnone, List.append_nil]
  · rw [← file_pieces]
    exact flatMap_cut_eq _

/-! ## wc -/

theorem count_fold (f : List Byte → ℤ) (ls : List (List Byte)) : ∀ s : ℤ,
    ls.foldlM (fun s l => some (s + f l)) s = some (s + (ls.map f).sum) := by
  induction ls with
  | nil => exact fun s => by rw [List.map_nil, List.sum_nil, Int.add_zero]; rfl
  | cons l ls ih =>
    intro s
    rw [List.foldlM_cons, List.map_cons, List.sum_cons, ← Int.add_assoc]
    exact ih (s + f l)

/-- **wc counts lines, and bytes up to a hole at the end.** -/
theorem wc_counts (h : dev.Sound) (hsize : inode.size < readSize * maxBlocks) {fuel : ℕ} (hfuel : nrPieces inode < fuel) :
    countFile dev inode true fuel = some ((file dev inode).count (ch '\n') : ℤ) ∧
      countFile dev inode false fuel =
        some (if HoleAtEnd dev inode then ((readSize * (nrPieces inode - 1) : ℕ) : ℤ) else inode.size) := by
  obtain ⟨rest, hrest, hzero⟩ := @pieces_read dev inode
  have hsum : ∀ f : List Byte → ℕ, (∀ ls : List (List Byte), (ls.map f).sum = f ls.flatten) → ∀ ls : List (List Byte),
      (ls.map fun l => (f l : ℤ)).sum = f ls.flatten := by
    intro f hf ls
    rw [← hf, Nat.cast_list_sum, List.map_map]
    rfl
  constructor
  · have hcount := hsum (List.count (ch '\n')) fun ls => (List.count_flatten ..).symm
    have hnone : rest.flatten.count (ch '\n') = 0 := List.count_eq_zero.2 fun hmem => by
      obtain ⟨l, hl, hc⟩ := List.mem_flatten.1 hmem
      exact absurd (hzero l hl _ hc) (by decide)
    rw [countFile, readWhile_eq h hsize hfuel]
    simp only [if_true]
    rw [count_fold, hcount, Int.zero_add, ← file_pieces, hrest, List.flatten_append, List.count_append, hnone, Nat.add_zero]
  · have hlength := hsum List.length fun ls => List.length_flatten.symm
    rw [countFile, readWhile_eq h hsize hfuel]
    simp only [Bool.false_eq_true, if_false]
    rw [count_fold, hlength, Int.zero_add, pieces_flatten, length_bytes, Nat.sub_zero, nrRead]
    refine congrArg some ?_
    split_ifs with hhole
    · have hpos : 0 < nrPieces inode := lt_nrPieces.2 (Nat.pos_of_ne_zero hhole.1)
      rw [min_eq_left (lt_nrPieces.1 (Nat.sub_one_lt_of_lt hpos)).le]
    · rw [min_eq_right size_le]

/-! ## A file of three pieces -/

/-- every zone holds the bytes 1, 2, ..., 255, 0, 1, ... -/
def countingDisk : Device := ⟨fun _ => some fun i => BitVec.ofNat 8 (i + 1), fun _ => true⟩

def countingFile : Inode := ⟨2500, fun _ => 1#16⟩

def highBuffers : Buffers where
  buf := 0xBFFF0000
  printBuf := 0x08050000
  buf_pos := by norm_num
  print_pos := by norm_num
  buf_top := by norm_num
  print_top := by norm_num
  apart := by norm_num

theorem countingDisk_sound : countingDisk.Sound := fun _ => rfl

theorem cat_counting : ∃ mem text, outputFile countingDisk (some countingFile) 0xBFFFF000 highBuffers.buf highBuffers.printBuf 4
      ⟨fun _ => 0, []⟩ = some ⟨mem, [] ++ text⟩ ∧
    text = ((List.range (nrPieces countingFile)).map (piece countingDisk countingFile)).flatMap cut ∧
    (text = file countingDisk countingFile ↔ ∀ c ∈ file countingDisk countingFile, c ≠ 0) :=
  cat_prints countingDisk_sound (by decide) (by decide) highBuffers _ _

theorem wc_counting :
    countFile countingDisk countingFile true 4 = some ((file countingDisk countingFile).count (ch '\n') : ℤ) ∧
      countFile countingDisk countingFile false 4 = some (if HoleAtEnd countingDisk countingFile
        then ((readSize * (nrPieces countingFile - 1) : ℕ) : ℤ) else countingFile.size) :=
  wc_counts countingDisk_sound (by decide) (by decide)

end SinsOs.Cat
