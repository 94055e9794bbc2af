/-
Reading a minix file (minix_file_read, fs/minix/read.c).

The loop reads one block a turn: it maps the block, copies what the request and the size of the file leave of it, and stops
at the end of the file. A turn over a hole stores zeros and stops too, and one over a hole at the end of the file moves `*pos`
and stores nothing. `stored` is what goes to the buffer from its start on; `none` is the BUG_ON of _bmap. The size of the file
and `*pos` are loff_t values that are not negative, and `*pos` never goes over the larger of the two.

- `turn_eq`: what a turn stores, and where it leaves `*pos`.
- `read_iff`: a read gives the bytes of the file that were asked for exactly when only the last block that it needs is a hole,
  and that block is not where both the read and the file end.
-/
import SinsOs.Fs.Minix.Block

namespace SinsOs.Minix

open SinsOs.Lib

/-! ## Model -/

/-- the local variables of the loop, and the bytes stored since it began -/
structure Loop where
  left : ℕ
  pos : ℕ
  stored : List Byte
deriving DecidableEq, Repr

/-- mb, which is NULL for a hole; `none` when get_minix_block fails -/
def dataBlock (dev : Device) (nr : ℕ) : Option (Option Ptr) :=
  if nr ≠ 0 then (getMinixBlock dev nr).map some else some none

/-- one turn, and whether the loop goes on -/
def turn (dev : Device) (inode : Inode) (left pos : ℕ) : Option (Loop × Bool) :=
  match bmap dev inode (pos / minixBlockSize) with
  | none => none
  | some nr =>
    match dataBlock dev nr with
    | none => some (⟨left, pos, []⟩, false)
    | some mb =>
      let nr := pos % minixBlockSize
      let chars := min (minixBlockSize - nr) left
      let remains := min (if pos < inode.size then inode.size - pos else 0) chars
      let pos := pos + remains
      let left := left - remains
      match mb with
      | some data => some (⟨left, pos, (List.range remains).map fun i => data (nr + i)⟩, decide ¬ pos ≥ inode.size)
      | none =>
        if pos < inode.size then some (⟨left, pos, List.replicate remains 0⟩, false)
        else some (⟨left + remains, pos, []⟩, false)

/-- the loop; a turn that does not end it takes a byte of `left` at least -/
def readLoop (dev : Device) (inode : Inode) : ℕ → ℕ → ℕ → Option Loop
  | 0, left, pos => some ⟨left, pos, []⟩
  | fuel + 1, left, pos =>
    if left = 0 then some ⟨left, pos, []⟩
    else match turn dev inode left pos with
      | none => none
      | some (l, false) => some l
      | some (l, true) => (readLoop dev inode fuel l.left l.pos).map fun r => { r with stored := l.stored ++ r.stored }

/-- the return value, `*pos` and the buffer -/
structure Result where
  ret : ℤ
  pos : ℕ
  stored : List Byte
deriving DecidableEq, Repr

def minixFileRead (dev : Device) (inode : Inode) (size pos : ℕ) : Option Result :=
  (readLoop dev inode size size pos).map fun l =>
    ⟨if size - l.left ≠ 0 then ((size - l.left : ℕ) : ℤ) else -eIo, l.pos, l.stored⟩

/-! ## The file -/

variable {dev : Device} {inode : Inode} {left pos : ℕ}

/-- block k has a zone -/
def Mapped (dev : Device) (inode : Inode) (k : ℕ) : Prop := inode.zoneOf dev k ≠ 0

instance (k : ℕ) : Decidable (Mapped dev inode k) := by unfold Mapped; infer_instance

def Inode.byte (inode : Inode) (dev : Device) (o : ℕ) : Byte :=
  if Mapped dev inode (o / minixBlockSize) then dev.bytes (inode.zoneOf dev (o / minixBlockSize)) (o % minixBlockSize) else 0

/-- the bytes at the offsets [a, b) -/
def Inode.bytes (inode : Inode) (dev : Device) (a b : ℕ) : List Byte := (List.range' a (b - a)).map (inode.byte dev)

@[simp] theorem length_bytes (a b : ℕ) : (inode.bytes dev a b).length = b - a := by
  rw [Inode.bytes, List.length_map, List.length_range']

theorem bytes_empty {a b : ℕ} (h : b ≤ a) : inode.bytes dev a b = [] := by
  rw [Inode.bytes, Nat.sub_eq_zero_of_le h]; rfl

theorem bytes_append {a b c : ℕ} (hab : a ≤ b) (hbc : b ≤ c) :
    inode.bytes dev a b ++ inode.bytes dev b c = inode.bytes dev a c := by
  obtain ⟨m, rfl⟩ := Nat.exists_eq_add_of_le hab
  obtain ⟨n, rfl⟩ := Nat.exists_eq_add_of_le hbc
  rw [Inode.bytes, Inode.bytes, Inode.bytes, ← List.map_append, Nat.add_sub_cancel_left, Nat.add_sub_cancel_left,
    Nat.add_assoc a, Nat.add_sub_cancel_left, ← List.range'_append_1]

/-- bytes of one block -/
theorem bytes_block {n : ℕ} (hn : pos % minixBlockSize + n ≤ minixBlockSize) :
    inode.bytes dev pos (pos + n) = if Mapped dev inode (pos / minixBlockSize) then
      (List.range n).map fun i => dev.bytes (inode.zoneOf dev (pos / minixBlockSize)) (pos % minixBlockSize + i)
    else List.replicate n 0 := by
  have hpos : ∀ i ∈ List.range n, (pos + i) / minixBlockSize = pos / minixBlockSize ∧
      (pos + i) % minixBlockSize = pos % minixBlockSize + i := by
    intro i hi
    have hi := List.mem_range.1 hi
    unfold minixBlockSize at *
    omega
  rw [Inode.bytes, Nat.add_sub_cancel_left, List.range'_eq_map_range, List.map_map]
  split_ifs with hm
  · refine List.map_congr_left fun i hi => ?_
    rw [Function.comp_apply, Inode.byte, (hpos i hi).1, (hpos i hi).2, if_pos hm]
  · refine List.eq_replicate_iff.2 ⟨by simp, fun x hx => ?_⟩
    obtain ⟨i, hi, rfl⟩ := List.mem_map.1 hx
    rw [Function.comp_apply, Inode.byte, (hpos i hi).1, if_neg hm]

/-! ## One turn -/

theorem dataBlock_some (h : dev.Sound) {k : ℕ} (hm : Mapped dev inode k) :
    dataBlock dev (inode.zoneOf dev k) = some (some (dev.bytes (inode.zoneOf dev k))) := by
  rw [dataBlock, if_pos (show inode.zoneOf dev k ≠ 0 from hm), h.block, Option.map_some]

theorem dataBlock_none {k : ℕ} (hm : ¬ Mapped dev inode k) : dataBlock dev (inode.zoneOf dev k) = some none :=
  if_neg hm

/-- where a turn leaves `*pos`: at the end of the block, of the request or of the file -/
def stopOf (inode : Inode) (left pos : ℕ) : ℕ :=
  max pos (min (min (pos + left) inode.size) ((pos / minixBlockSize + 1) * minixBlockSize))

/-- **One turn.** -/
theorem turn_eq (h : dev.Sound) (left pos : ℕ) :
    turn dev inode left pos = if pos / minixBlockSize ≥ maxBlocks then none
      else if Mapped dev inode (pos / minixBlockSize) ∨ stopOf inode left pos < inode.size then
        some (⟨left - (stopOf inode left pos - pos), stopOf inode left pos, inode.bytes dev pos (stopOf inode left pos)⟩,
          decide (Mapped dev inode (pos / minixBlockSize) ∧ stopOf inode left pos < inode.size))
      else some (⟨left, stopOf inode left pos, []⟩, false) := by
  obtain ⟨n, hn⟩ : ∃ n, n = min (if pos < inode.size then inode.size - pos else 0)
      (min (minixBlockSize - pos % minixBlockSize) left) := ⟨_, rfl⟩
  have hstop : stopOf inode left pos = pos + n := by
    rw [hn, stopOf]
    unfold minixBlockSize
    split_ifs <;> omega
  have hblock : pos % minixBlockSize + n ≤ minixBlockSize := by
    have := Nat.mod_lt pos (show 0 < minixBlockSize by decide)
    omega
  have hleft : n ≤ left := by omega
  rw [turn, bmap_eq h, hstop, bytes_block hblock, Nat.add_sub_cancel_left]
  by_cases hmax : pos / minixBlockSize ≥ maxBlocks
  · rw [if_pos hmax, if_pos hmax]
  rw [if_neg hmax, if_neg hmax]
  dsimp only
  rw [← hn]
  by_cases hm : Mapped dev inode (pos / minixBlockSize)
  · rw [if_pos hm, dataBlock_some h hm, if_pos (Or.inl hm)]
    simp [hm]
  · rw [if_neg hm, dataBlock_none hm]
    simp only [hm, false_or, false_and, decide_false]
    split_ifs
    · rfl
    · rw [Nat.sub_add_cancel hleft]

/-! ## The condition -/

/-- the end of the bytes that a read should give -/
def endOf (inode : Inode) (left pos : ℕ) : ℕ := min (pos + left) inode.size

/-- the block of the last of these bytes -/
def lastOf (inode : Inode) (left pos : ℕ) : ℕ := (endOf inode left pos - 1) / minixBlockSize

/-- the blocks before the last one have zones, and the last one has or the file goes on behind the request -/
def Readable (dev : Device) (inode : Inode) (left pos : ℕ) : Prop :=
  left = 0 ∨ pos / minixBlockSize < maxBlocks ∧ (inode.size ≤ pos ∨
    lastOf inode left pos < maxBlocks ∧
      (∀ k, pos / minixBlockSize ≤ k → k < lastOf inode left pos → Mapped dev inode k) ∧
      (Mapped dev inode (lastOf inode left pos) ∨ pos + left < inode.size))

/-- the end of the block of an offset -/
def blockEnd (pos : ℕ) : ℕ := (pos / minixBlockSize + 1) * minixBlockSize

theorem lt_blockEnd (pos : ℕ) : pos < blockEnd pos := by
  unfold blockEnd minixBlockSize
  omega

theorem blockEnd_div (pos : ℕ) : blockEnd pos / minixBlockSize = pos / minixBlockSize + 1 :=
  Nat.mul_div_cancel _ (by decide)

/-- a request that ends in its first block -/
theorem readable_ends (hleft : 0 < left) (hpos : pos < inode.size) (hend : endOf inode left pos ≤ blockEnd pos) :
    Readable dev inode left pos ↔ pos / minixBlockSize < maxBlocks ∧
      (Mapped dev inode (pos / minixBlockSize) ∨ pos + left < inode.size) := by
  have hlast : lastOf inode left pos = pos / minixBlockSize := by
    unfold lastOf
    unfold endOf blockEnd minixBlockSize at *
    omega
  rw [Readable, hlast]
  constructor
  · rintro (h | ⟨hmax, h | ⟨-, -, h⟩⟩)
    · omega
    · omega
    · exact ⟨hmax, h⟩
  · rintro ⟨hmax, h⟩
    exact Or.inr ⟨hmax, Or.inr ⟨hmax, fun k h1 h2 => absurd h2 (not_lt.2 h1), h⟩⟩

/-- a request that goes on behind its first block -/
theorem readable_goes (hend : blockEnd pos < endOf inode left pos) :
    Readable dev inode left pos ↔ Mapped dev inode (pos / minixBlockSize) ∧
      Readable dev inode (left - (blockEnd pos - pos)) (blockEnd pos) := by
  have hlt := lt_blockEnd pos
  have hadd : blockEnd pos + (left - (blockEnd pos - pos)) = pos + left := by
    unfold endOf at hend
    omega
  have hlast : lastOf inode (left - (blockEnd pos - pos)) (blockEnd pos) = lastOf inode left pos := by
    rw [lastOf, endOf, hadd, lastOf, endOf]
  have hnext : pos / minixBlockSize + 1 ≤ lastOf inode left pos := by
    unfold lastOf
    unfold endOf blockEnd minixBlockSize at *
    omega
  unfold endOf at hend
  rw [Readable, Readable, hlast, hadd, blockEnd_div]
  constructor
  · rintro (h | ⟨-, h | ⟨hmax, hall, h⟩⟩)
    · omega
    · omega
    · refine ⟨hall _ le_rfl (by omega), Or.inr ⟨by omega, Or.inr ⟨hmax, fun k h1 h2 => hall k (by omega) h2, h⟩⟩⟩
  · rintro ⟨hm, h | ⟨hmax, h | ⟨hlast, hall, h⟩⟩⟩
    · omega
    · omega
    · refine Or.inr ⟨by omega, Or.inr ⟨hlast, fun k h1 h2 => ?_, h⟩⟩
      rcases Nat.lt_or_eq_of_le h1 with hk | rfl
      · exact hall k hk h2
      · exact hm

/-! ## The loop -/

/-- the bytes asked for are stored, and `*pos` is behind them -/
def Loop.Right (l : Loop) (dev : Device) (inode : Inode) (left pos : ℕ) : Prop :=
  l.stored = inode.bytes dev pos (endOf inode left pos) ∧ l.pos = pos + l.stored.length

/-- `size - left` counts the bytes stored -/
theorem turn_count {l : Loop} {more : Bool} (h : turn dev inode left pos = some (l, more)) :
    l.left + l.stored.length = left := by
  rw [turn] at h
  cases hnr : bmap dev inode (pos / minixBlockSize) with
  | none =>
    rw [hnr] at h
    cases h
  | some nr =>
    rw [hnr] at h
    dsimp only at h
    have hle : min (if pos < inode.size then inode.size - pos else 0)
        (min (minixBlockSize - pos % minixBlockSize) left) ≤ left := (Nat.min_le_right _ _).trans (Nat.min_le_right _ _)
    generalize min (if pos < inode.size then inode.size - pos else 0)
      (min (minixBlockSize - pos % minixBlockSize) left) = remains at h hle
    cases hmb : dataBlock dev nr with
    | none =>
      rw [hmb] at h
      cases h
      rfl
    | some mb =>
      rw [hmb] at h
      cases mb with
      | some data =>
        cases h
        rw [List.length_map, List.length_range]
        exact Nat.sub_add_cancel hle
      | none =>
        dsimp only at h
        split_ifs at h
        · cases h
          rw [List.length_replicate]
          exact Nat.sub_add_cancel hle
        · cases h
          exact Nat.sub_add_cancel hle

theorem readLoop_count (fuel : ℕ) : ∀ {left pos : ℕ} {l : Loop}, readLoop dev inode fuel left pos = some l →
    l.left + l.stored.length = left := by
  induction fuel with
  | zero =>
    intro left pos l h
    cases h
    rfl
  | succ fuel ih =>
    intro left pos l h
    rw [readLoop] at h
    split_ifs at h with hleft
    · cases h
      rfl
    · cases hturn : turn dev inode left pos with
      | none =>
        rw [hturn] at h
        cases h
      | some r =>
        obtain ⟨l', more⟩ := r
        have hcount := turn_count hturn
        rw [hturn] at h
        cases more with
        | false =>
          cases h
          exact hcount
        | true =>
          obtain ⟨l'', hl'', rfl⟩ := Option.map_eq_some_iff.1 h
          have hrest := ih hl''
          change l''.left + (l'.stored ++ l''.stored).length = left
          rw [List.length_append]
          omega

theorem readLoop_zero (fuel pos : ℕ) : readLoop dev inode fuel 0 pos = some ⟨0, pos, []⟩ := by
  cases fuel <;> rfl

/-- **The loop.** -/
theorem readLoop_iff (h : dev.Sound) (fuel : ℕ) : ∀ (left pos : ℕ), left ≤ fuel →
    ((∃ l, readLoop dev inode fuel left pos = some l ∧ l.Right dev inode left pos) ↔ Readable dev inode left pos) := by
  have hzero : ∀ pos, (⟨0, pos, []⟩ : Loop).Right dev inode 0 pos := fun pos =>
    ⟨(bytes_empty (Nat.min_le_left pos inode.size)).symm, rfl⟩
  induction fuel with
  | zero =>
    intro left pos hleft
    obtain rfl := Nat.le_zero.1 hleft
    exact iff_of_true ⟨_, rfl, hzero pos⟩ (Or.inl rfl)
  | succ fuel ih =>
    intro left pos hleft
    rw [readLoop]
    by_cases h0 : left = 0
    · subst h0
      exact iff_of_true ⟨_, rfl, hzero pos⟩ (Or.inl rfl)
    rw [if_neg h0, turn_eq h]
    by_cases hmax : pos / minixBlockSize ≥ maxBlocks
    · rw [if_pos hmax]
      refine iff_of_false (fun ⟨l, hl, _⟩ => nomatch hl) ?_
      rintro (h1 | ⟨h1, -⟩)
      · exact h0 h1
      · exact absurd hmax (not_le.2 h1)
    rw [if_neg hmax]
    rcases Nat.lt_or_ge pos inode.size with hpos | hpos
    swap
    · -- nothing is left of the file
      have hend : endOf inode left pos ≤ pos := (Nat.min_le_right _ _).trans hpos
      have hstop : stopOf inode left pos = pos := max_eq_left ((Nat.min_le_left _ _).trans hend)
      have hright : (⟨left, pos, []⟩ : Loop).Right dev inode left pos := ⟨(bytes_empty hend).symm, rfl⟩
      rw [hstop, Nat.sub_self, bytes_empty le_rfl]
      simp only [not_lt.2 hpos, and_false, decide_false, or_false, Nat.sub_zero, ite_self]
      exact iff_of_true ⟨_, rfl, hright⟩ (Or.inr ⟨not_le.1 hmax, Or.inl hpos⟩)
    have hend : pos < endOf inode left pos := lt_min (by omega) hpos
    have hstop : stopOf inode left pos = min (endOf inode left pos) (blockEnd pos) :=
      max_eq_right (le_min hend.le (lt_blockEnd pos).le)
    have hlength : ∀ l : Loop, l.Right dev inode left pos → l.stored.length = endOf inode left pos - pos :=
      fun l hl => by rw [hl.1, length_bytes]
    rcases Nat.lt_or_ge (blockEnd pos) (endOf inode left pos) with hc | hc
    · -- the request goes on behind the block, which must have a zone
      rw [readable_goes hc, hstop, min_eq_right hc.le]
      have hsize : blockEnd pos < inode.size := hc.trans_le (Nat.min_le_right _ _)
      rw [if_pos (Or.inr hsize)]
      by_cases hm : Mapped dev inode (pos / minixBlockSize)
      · have hadd : blockEnd pos + (left - (blockEnd pos - pos)) = pos + left := by
          have := lt_blockEnd pos
          unfold endOf at hc
          omega
        have hsame : endOf inode (left - (blockEnd pos - pos)) (blockEnd pos) = endOf inode left pos := by
          rw [endOf, hadd, endOf]
        simp only [hm, hsize, and_self, decide_true, true_and]
        rw [← ih (left - (blockEnd pos - pos)) (blockEnd pos) (by have := lt_blockEnd pos; omega)]
        have hright : ∀ l : Loop,
            (⟨l.left, l.pos, inode.bytes dev pos (blockEnd pos) ++ l.stored⟩ : Loop).Right dev inode left pos ↔
            l.Right dev inode (left - (blockEnd pos - pos)) (blockEnd pos) := by
          intro l
          rw [Loop.Right, Loop.Right, hsame, ← bytes_append (lt_blockEnd pos).le hc.le, List.append_cancel_left_eq,
            List.length_append, length_bytes, ← Nat.add_assoc, Nat.add_sub_cancel' (lt_blockEnd pos).le]
        constructor
        · rintro ⟨l, hl, hr⟩
          obtain ⟨l', hl', rfl⟩ := Option.map_eq_some_iff.1 hl
          exact ⟨l', hl', (hright l').1 hr⟩
        · rintro ⟨l, hl, hr⟩
          exact ⟨_, by rw [hl, Option.map_some], (hright l).2 hr⟩
      · simp only [hm, false_and, decide_false, iff_false]
        rintro ⟨l, hl, hr⟩
        cases hl
        have := hlength _ hr
        rw [length_bytes] at this
        have := lt_blockEnd pos
        omega
    · rw [readable_ends (Nat.pos_of_ne_zero h0) hpos hc, hstop, min_eq_left hc]
      have hright : ∀ n,
          (⟨n, endOf inode left pos, inode.bytes dev pos (endOf inode left pos)⟩ : Loop).Right dev inode left pos := fun n =>
        ⟨rfl, by rw [length_bytes, Nat.add_sub_cancel' hend.le]⟩
      have hlt : endOf inode left pos < inode.size ↔ pos + left < inode.size := min_lt_iff.trans (or_iff_left (lt_irrefl _))
      by_cases hm : Mapped dev inode (pos / minixBlockSize)
      · rw [if_pos (Or.inl hm)]
        refine iff_of_true ?_ ⟨not_le.1 hmax, Or.inl hm⟩
        by_cases hsize : endOf inode left pos < inode.size
        · -- the request is served, and the loop ends at its head
          have hserved : left - (endOf inode left pos - pos) = 0 := by
            have := hlt.1 hsize
            unfold endOf
            omega
          simp only [hm, hsize, and_self, decide_true, hserved, readLoop_zero, Option.map_some, List.append_nil]
          exact ⟨_, rfl, hright 0⟩
        · simp only [hsize, and_false, decide_false]
          exact ⟨_, rfl, hright _⟩
      · simp only [hm, false_or, false_and, decide_false, not_le.1 hmax, true_and]
        by_cases hsize : endOf inode left pos < inode.size
        · rw [if_pos hsize]
          exact iff_of_true ⟨_, rfl, hright _⟩ (hlt.1 hsize)
        · rw [if_neg hsize]
          refine iff_of_false ?_ (fun h' => hsize (hlt.2 h'))
          rintro ⟨l, hl, hr⟩
          cases hl
          have := hlength _ hr
          rw [List.length_nil] at this
          omega

/-- **A read of a minix file** stores the bytes at [pos, min(pos + size, S)), moves `*pos` behind them and returns their
number. -/
def Reads (dev : Device) (inode : Inode) (size pos : ℕ) : Prop :=
  ∃ r, minixFileRead dev inode size pos = some r ∧ r.stored = inode.bytes dev pos (endOf inode size pos) ∧
    r.pos = pos + r.stored.length ∧ r.ret = if r.stored.length ≠ 0 then (r.stored.length : ℤ) else -eIo

/-- **Exactly the last block of a read may be a hole, and not at the end of the file.** For every file, every position and
every request, on a device without failures. -/
theorem read_iff (dev : Device) (inode : Inode) (size pos : ℕ) (h : dev.Sound) :
    Reads dev inode size pos ↔ Readable dev inode size pos := by
  rw [← readLoop_iff h size size pos le_rfl]
  have hret : ∀ l, readLoop dev inode size size pos = some l → size - l.left = l.stored.length := by
    intro l hl
    have := readLoop_count size hl
    omega
  constructor
  · rintro ⟨r, hr, hstored, hpos, -⟩
    obtain ⟨l, hl, rfl⟩ := Option.map_eq_some_iff.1 hr
    exact ⟨l, hl, hstored, hpos⟩
  · rintro ⟨l, hl, hstored, hpos⟩
    exact ⟨_, congrArg _ hl, hstored, hpos, by dsimp only; rw [hret l hl]⟩

/-- a disk of zeros -/
def zeroDisk : Device := ⟨fun _ => some fun _ => 0, fun _ => true⟩

theorem zeroDisk_sound : zeroDisk.Sound := fun _ => rfl

/-- three bytes in one block -/
theorem read_three : Reads zeroDisk ⟨3, fun _ => 1#16⟩ 2 1 :=
  (read_iff zeroDisk ⟨3, fun _ => 1#16⟩ 2 1 zeroDisk_sound).2
    (Or.inr ⟨by decide, Or.inr ⟨by decide, by decide, Or.inl (by decide)⟩⟩)

/-- A file of one hole: the read stores nothing and returns -EIO, but `*pos` moves to the end. -/
theorem hole_not_read : zeroDisk.Sound ∧ minixFileRead zeroDisk ⟨1, fun _ => 0#16⟩ 1 0 = some ⟨-eIo, 1, []⟩ ∧
    ¬ Reads zeroDisk ⟨1, fun _ => 0#16⟩ 1 0 := by
  have hrun : minixFileRead zeroDisk ⟨1, fun _ => 0#16⟩ 1 0 = some ⟨-eIo, 1, []⟩ := by decide
  refine ⟨zeroDisk_sound, hrun, ?_⟩
  rintro ⟨r, hr, -, hpos, -⟩
  obtain rfl := Option.some.inj (hrun.symm.trans hr)
  exact absurd hpos (by decide)

/-! ## Reads of whole blocks -/

/-- the block at which a read of n blocks from block b on stops, in a file that is long enough -/
def Inode.readEnd (inode : Inode) (dev : Device) : ℕ → ℕ → ℕ
  | 0, b => b
  | n + 1, b => if Mapped dev inode b then inode.readEnd dev n (b + 1) else b + 1

theorem lt_readEnd (n : ℕ) : ∀ b, b < inode.readEnd dev (n + 1) b := by
  induction n with
  | zero =>
    intro b
    rw [Inode.readEnd]
    split_ifs
    · exact Nat.lt_succ_self b
    · exact Nat.lt_succ_self b
  | succ n ih =>
    intro b
    rw [Inode.readEnd]
    split_ifs
    · exact (Nat.lt_succ_self b).trans (ih (b + 1))
    · exact Nat.lt_succ_self b

/-- it stops behind all n blocks or behind the first hole -/
theorem readEnd_spec (n : ℕ) : ∀ b, (∀ k, b ≤ k → k + 1 < inode.readEnd dev n b → Mapped dev inode k) ∧
    (inode.readEnd dev n b = b + n ∨ ∃ k, b ≤ k ∧ k < b + n ∧ inode.readEnd dev n b = k + 1 ∧
    ¬ Mapped dev inode k) := by
  induction n with
  | zero => exact fun b => ⟨fun k h1 h2 => absurd h2 (not_lt.2 (Nat.le_succ_of_le h1)), Or.inl rfl⟩
  | succ n ih =>
    intro b
    rw [Inode.readEnd]
    split_ifs with hm
    · obtain ⟨h1, h2⟩ := ih (b + 1)
      refine ⟨fun k hk hlt => ?_, ?_⟩
      · rcases Nat.lt_or_eq_of_le hk with h | rfl
        · exact h1 k h hlt
        · exact hm
      · rcases h2 with h2 | ⟨k, g1, g2, g3, g4⟩
        · exact Or.inl (by omega)
        · exact Or.inr ⟨k, by omega, by omega, g3, g4⟩
    · exact ⟨fun k hk hlt => absurd hlt (by omega), Or.inr ⟨b, le_rfl, by omega, rfl, hm⟩⟩

/-- the block of the last byte of the file -/
def Inode.last (inode : Inode) : ℕ := (inode.size - 1) / minixBlockSize

/-- the end of the bytes that such a read stores: a hole at the end of the file is left out -/
def Inode.storedEnd (inode : Inode) (dev : Device) (e : ℕ) : ℕ :=
  if inode.size ≤ minixBlockSize * e ∧ ¬ Mapped dev inode inode.last then minixBlockSize * inode.last
  else min (minixBlockSize * e) inode.size

theorem le_readEnd (n b : ℕ) : b ≤ inode.readEnd dev n b := by
  cases n with
  | zero => exact le_rfl
  | succ n => exact (lt_readEnd n b).le

theorem storedEnd_of_lt {e : ℕ} (h : minixBlockSize * e < inode.size) : inode.storedEnd dev e = minixBlockSize * e := by
  rw [Inode.storedEnd, if_neg (fun hc => absurd h (not_lt.2 hc.1)), min_eq_left h.le]

theorem le_storedEnd {b e : ℕ} (hb : minixBlockSize * b < inode.size) (he : b ≤ e) :
    minixBlockSize * b ≤ inode.storedEnd dev e := by
  unfold Inode.storedEnd
  split_ifs
  · unfold Inode.last minixBlockSize at *
    omega
  · exact le_min (Nat.mul_le_mul_left _ he) hb.le

/-- **A read of whole blocks.** -/
theorem readLoop_blocks (h : dev.Sound) (hmax : inode.size ≤ minixBlockSize * maxBlocks) (n : ℕ) : ∀ fuel b,
    minixBlockSize * n ≤ fuel → minixBlockSize * b < inode.size →
    ∃ left, readLoop dev inode fuel (minixBlockSize * n) (minixBlockSize * b) =
      some ⟨left, min (minixBlockSize * inode.readEnd dev n b) inode.size,
        inode.bytes dev (minixBlockSize * b) (inode.storedEnd dev (inode.readEnd dev n b))⟩ := by
  have hpos : 0 < minixBlockSize := by decide
  induction n with
  | zero =>
    intro fuel b _ hb
    refine ⟨0, ?_⟩
    rw [Nat.mul_zero, readLoop_zero, Inode.readEnd, storedEnd_of_lt hb, min_eq_left hb.le, bytes_empty le_rfl]
  | succ n ih =>
    intro fuel b hfuel hb
    obtain ⟨fuel, rfl⟩ : ∃ m, fuel = m + 1 := ⟨fuel - 1, by unfold minixBlockSize at hfuel; omega⟩
    have hdiv : minixBlockSize * b / minixBlockSize = b := Nat.mul_div_cancel_left b hpos
    have hblock : ¬ b ≥ maxBlocks := fun hge => absurd (hb.trans_le hmax) (not_lt.2 (Nat.mul_le_mul_left _ hge))
    have hstop : stopOf inode (minixBlockSize * (n + 1)) (minixBlockSize * b) = min (minixBlockSize * (b + 1)) inode.size := by
      rw [stopOf, hdiv]
      unfold minixBlockSize at *
      omega
    rw [readLoop, if_neg (Nat.mul_ne_zero hpos.ne' (Nat.succ_ne_zero n)), turn_eq h, hdiv, if_neg hblock, hstop, Inode.readEnd]
    rcases Nat.lt_or_ge (minixBlockSize * (b + 1)) inode.size with hlt | hge
    · rw [min_eq_left hlt.le, if_pos (Or.inr hlt)]
      have hstep : minixBlockSize * b ≤ minixBlockSize * (b + 1) := Nat.mul_le_mul_left _ (Nat.le_succ b)
      by_cases hm : Mapped dev inode b
      · have hleft : minixBlockSize * (n + 1) - (minixBlockSize * (b + 1) - minixBlockSize * b) = minixBlockSize * n := by
          rw [Nat.mul_succ, Nat.mul_succ, Nat.add_sub_cancel_left, Nat.add_sub_cancel]
        obtain ⟨left, hrest⟩ := ih fuel (b + 1) (by unfold minixBlockSize at *; omega) hlt
        simp only [hm, hlt, and_self, decide_true, if_true, hleft, hrest, Option.map_some]
        rw [bytes_append hstep (le_storedEnd hlt (le_readEnd n (b + 1)))]
        exact ⟨left, rfl⟩
      · simp only [hm, false_and, decide_false, if_false]
        rw [storedEnd_of_lt hlt, min_eq_left hlt.le]
        exact ⟨_, rfl⟩
    · -- the last block of the file
      have hlast : inode.last = b := by
        unfold Inode.last minixBlockSize at *
        omega
      rw [min_eq_right hge]
      by_cases hm : Mapped dev inode b
      · have hend : inode.size ≤ minixBlockSize * inode.readEnd dev n (b + 1) :=
          hge.trans (Nat.mul_le_mul_left _ (le_readEnd n (b + 1)))
        have hstored : inode.storedEnd dev (inode.readEnd dev n (b + 1)) = inode.size := by
          rw [Inode.storedEnd, hlast, if_neg (fun hc => hc.2 hm), min_eq_right hend]
        simp only [hm, true_or, if_true, lt_irrefl, and_false, decide_false, hstored, min_eq_right hend]
        exact ⟨_, rfl⟩
      · have hstored : inode.storedEnd dev (b + 1) = minixBlockSize * b := by
          rw [Inode.storedEnd, hlast, if_pos ⟨hge, hm⟩]
        simp only [hm, lt_irrefl, or_self, if_false, hstored, min_eq_right hge, bytes_empty le_rfl]
        exact ⟨_, rfl⟩

/-- a read behind the end of the file -/
theorem fileRead_behind (h : dev.Sound) {size : ℕ} (hsize : size ≠ 0) (hpos : inode.size ≤ pos) :
    minixFileRead dev inode size pos =
      if pos / minixBlockSize ≥ maxBlocks then none else some ⟨-eIo, pos, []⟩ := by
  obtain ⟨n, rfl⟩ := Nat.exists_eq_succ_of_ne_zero hsize
  have hstop : stopOf inode (n + 1) pos = pos := max_eq_left ((Nat.min_le_left _ _).trans ((Nat.min_le_right _ _).trans hpos))
  rw [minixFileRead, readLoop, if_neg (Nat.succ_ne_zero n), turn_eq h, hstop, bytes_empty le_rfl]
  by_cases hmax : pos / minixBlockSize ≥ maxBlocks
  · rw [if_pos hmax, if_pos hmax]
    rfl
  · rw [if_neg hmax, if_neg hmax]
    simp [not_lt.2 hpos]

end SinsOs.Minix
