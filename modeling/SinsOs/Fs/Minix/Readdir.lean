/-
Reading a directory (minix_file_readdir, fs/minix/read.c), in calls of sys_readdir that go on from `*pos`.

A call reads the file in pieces of a page at most, and stores a name for each 16 bytes read, whatever the inode number is. It
ends at a read that is short, with an error when that read is no multiple of 16 bytes. The file's reads stop at a hole, and one
that would end the file in a hole stores nothing of it (minix_file_read). The page is what get_free_page gives, or NULL.

`lists_iff`: when calls of any lengths give the names of the entries in use, in order: there is no entry with inode number 0,
but for the only entry of a hole at the end.
-/
import SinsOs.Fs.Minix.Lookup

namespace SinsOs.Minix

open SinsOs.Lib

/-! ## Model -/

def pageSize : ℕ := 4096

/-- the page with what minix_file_read stored at its start -/
def fill (page : Ptr) (stored : List Byte) : Ptr := fun i => stored[i]?.getD (page i)

/-- buf[i].name with the name of an entry of the page -/
def dirName (old tmp : Ptr) (j : ℕ) : Ptr := Function.update (strncpy old (slotName tmp j) minixNameLen) minixNameLen 0

/-- the names of the first n entries of the page, from buf[i] on -/
def copyNames (buf : ℕ → Ptr) (tmp : Ptr) (i : ℕ) : ℕ → ℕ → Ptr
  | 0 => buf
  | n + 1 => Function.update (copyNames buf tmp i n) (i + n) (dirName (copyNames buf tmp i n (i + n)) tmp n)

/-- the return value, `*pos` and the buffer -/
structure DirResult where
  ret : ℤ
  pos : ℕ
  buf : ℕ → Ptr

/-- the loop; (len - i) * 16 is an unsigned long. A turn that goes on stores a name at least -/
def readdirLoop (dev : Device) (inode : Inode) (page : Ptr) (len : ℕ) : ℕ → ℕ → ℕ → (ℕ → Ptr) →
    Option DirResult
  | 0, i, pos, buf => some ⟨i, pos, buf⟩
  | fuel + 1, i, pos, buf =>
    if i < len then
      let size := min ((len - i) * sizeofDentry % 2 ^ 32) pageSize
      match minixFileRead dev inode size pos with
      | none => none
      | some r =>
        if r.ret > 0 then
          let n := r.ret.toNat / sizeofDentry
          let buf := copyNames buf (fill page r.stored) i n
          if r.ret.toNat % sizeofDentry ≠ 0 then some ⟨-error, r.pos, buf⟩
          else if r.ret.toNat < size then some ⟨(i + n : ℕ), r.pos, buf⟩
          else readdirLoop dev inode page len fuel (i + n) r.pos buf
        else if r.ret = -eIo ∧ i = 0 then some ⟨-eIo, r.pos, buf⟩
        else some ⟨i, r.pos, buf⟩
    else some ⟨i, pos, buf⟩

def minixFileReaddir (dev : Device) (inode : Inode) (page : Option Ptr) (buf : ℕ → Ptr) (len pos : ℕ) : Option DirResult :=
  match page with
  | none => some ⟨-eNomem, pos, buf⟩
  | some page => readdirLoop dev inode page len len 0 pos buf

/-- a call of sys_readdir: what get_free_page gives, the user's buffer and its length -/
structure Call where
  page : Option Ptr
  buf : ℕ → Ptr
  len : ℕ

/-- the names in the first n elements of the buffer -/
def firstNames (n : ℕ) (buf : ℕ → Ptr) : List (List Byte) := (List.range n).map fun i => strn (minixNameLen + 1) (buf i)

/-- the names that a call returns -/
def DirResult.names (r : DirResult) : List (List Byte) := firstNames r.ret.toNat r.buf

/-- the names of calls one after the other, and where the last one leaves `*pos` -/
def readdirs (dev : Device) (inode : Inode) : List Call → ℕ → Option (List (List Byte) × ℕ)
  | [], pos => some ([], pos)
  | c :: cs, pos =>
    (minixFileReaddir dev inode c.page c.buf c.len pos).bind fun r =>
      (readdirs dev inode cs r.pos).map fun x => (r.names ++ x.1, x.2)

/-! ## The names of a directory -/

/-- the names of the entries in use among a .. b - 1 -/
def Inode.live (inode : Inode) (dev : Device) (a b : ℕ) : List (List Byte) :=
  ((List.range' a (b - a)).filter fun j => inode.inrOf dev j ≠ 0).map (inode.nameOf dev)

/-- Calls of any lengths come to no BUG_ON, and when they are through, they returned the names of the entries in use, once each
and in order. -/
def Lists (dev : Device) (inode : Inode) : Prop :=
  ∀ cs : List Call, (∀ c ∈ cs, 0 < c.len ∧ c.len < 2 ^ 32) →
  ∃ names pos, readdirs dev inode cs 0 = some (names, pos) ∧
    (inode.size ≤ pos → names = inode.live dev 0 (inode.size / sizeofDentry))

/-- entry j is all that there is of a hole at the end of the directory -/
def Lone (dev : Device) (inode : Inode) (j : ℕ) : Prop :=
  ¬ Mapped dev inode (j / dentriesPerBlock) ∧ j % dentriesPerBlock = 0 ∧ sizeofDentry * (j + 1) = inode.size

/-- no entry has inode number 0, and no part of an entry is in a last block that has a zone; the directory is not as large as
the largest file -/
def AllInUse (dev : Device) (inode : Inode) : Prop :=
  inode.size < minixBlockSize * maxBlocks ∧
  (∀ j < inode.size / sizeofDentry, inode.inrOf dev j ≠ 0 ∨ Lone dev inode j) ∧
  (inode.size % sizeofDentry = 0 ∨ inode.size < sizeofDentry ∨ ¬ Mapped dev inode inode.last)

variable {dev : Device} {inode : Inode} {pos left len i j n a b c : ℕ} {buf : ℕ → Ptr} {page tmp : Ptr}

theorem live_empty (h : b ≤ a) : inode.live dev a b = [] := by
  rw [Inode.live, Nat.sub_eq_zero_of_le h]
  rfl

theorem live_append (hab : a ≤ b) (hbc : b ≤ c) : inode.live dev a b ++ inode.live dev b c = inode.live dev a c := by
  obtain ⟨m, rfl⟩ := Nat.exists_eq_add_of_le hab
  obtain ⟨n, rfl⟩ := Nat.exists_eq_add_of_le hbc
  have hlen : a + m + n - a = m + n := by omega
  rw [Inode.live, Inode.live, Inode.live, ← List.map_append, ← List.filter_append, Nat.add_sub_cancel_left,
    Nat.add_sub_cancel_left, hlen, List.range'_append_1]

theorem live_none (h : ∀ j, a ≤ j → j < b → inode.inrOf dev j = 0) : inode.live dev a b = [] := by
  refine List.map_eq_nil_iff.2 (List.filter_eq_nil_iff.2 fun j hj => ?_)
  obtain ⟨h1, h2⟩ := List.mem_range'_1.1 hj
  simpa using h j h1 (by omega)

theorem live_all (h : ∀ j < n, inode.inrOf dev (a + j) ≠ 0) :
    inode.live dev a (a + n) = (List.range n).map fun j => inode.nameOf dev (a + j) := by
  rw [Inode.live, Nat.add_sub_cancel_left, List.range'_eq_map_range, List.filter_eq_self.2, List.map_map]
  · rfl
  · intro x hx
    obtain ⟨j, hj, rfl⟩ := List.mem_map.1 hx
    simpa using h j (List.mem_range.1 hj)

theorem dirBlock_eq (h : dev.Sound) (hb : b < maxBlocks) :
    inode.dirBlock dev b = if Mapped dev inode b then some (inode.zoneOf dev b) else none := by
  rw [Inode.dirBlock, bmap_eq h, if_neg (not_le.2 hb)]
  by_cases hm : Mapped dev inode b
  · rw [if_pos hm]
    exact Option.filter_eq_some_iff.2 ⟨rfl, by simpa [Mapped] using hm⟩
  · rw [if_neg hm]
    have hz : inode.zoneOf dev b = 0 := by
      by_contra hne
      exact hm hne
    rw [hz]
    rfl

theorem inrOf_hole (h : dev.Sound) (hb : j / dentriesPerBlock < maxBlocks) (hm : ¬ Mapped dev inode (j / dentriesPerBlock)) :
    inode.inrOf dev j = 0 := by
  rw [Inode.inrOf, dirBlock_eq h hb, if_neg hm]

/-- the name of an entry is at its bytes of the file -/
theorem nameOf_eq (h : dev.Sound) (hb : j / dentriesPerBlock < maxBlocks) :
    strn minixNameLen (fun t => inode.byte dev (sizeofDentry * j + 2 + t)) = inode.nameOf dev j := by
  have hplace : ∀ t < minixNameLen, (sizeofDentry * j + 2 + t) / minixBlockSize = j / dentriesPerBlock ∧
      (sizeofDentry * j + 2 + t) % minixBlockSize = 16 * (j % dentriesPerBlock) + 2 + t := by
    intro t ht
    unfold sizeofDentry minixBlockSize dentriesPerBlock minixBlockSize sizeofDentry minixNameLen at *
    omega
  rw [Inode.nameOf, dirBlock_eq h hb]
  by_cases hm : Mapped dev inode (j / dentriesPerBlock)
  · rw [if_pos hm]
    refine strn_congr fun t ht => ?_
    rw [Inode.byte, (hplace t ht).1, (hplace t ht).2, if_pos hm]
    exact congrArg _ (Nat.add_comm _ _)
  · rw [if_neg hm]
    have hzero : strn minixNameLen (fun t => inode.byte dev (sizeofDentry * j + 2 + t)) = strn minixNameLen (fun _ => 0) :=
      strn_congr fun t ht => by rw [Inode.byte, (hplace t ht).1, if_neg hm]
    rw [hzero]
    rfl

/-! ## The names of a page -/

theorem strn_dirName (old tmp : Ptr) (j : ℕ) :
    strn (minixNameLen + 1) (dirName old tmp j) = strn minixNameLen (slotName tmp j) := by
  have hend : dirName old tmp j minixNameLen = 0 := Function.update_self ..
  have hcopy : ∀ t < minixNameLen, dirName old tmp j t = strncpy old (slotName tmp j) minixNameLen t := fun t ht =>
    Function.update_of_ne ht.ne _ _
  rw [strn_stop hend (Nat.le_succ _), strn_congr hcopy, strn_strncpy]

theorem firstNames_copy (buf : ℕ → Ptr) (tmp : Ptr) (i n : ℕ) : firstNames (i + n) (copyNames buf tmp i n) =
    firstNames i buf ++ (List.range n).map fun j => strn minixNameLen (slotName tmp j) := by
  induction n with
  | zero => simp [copyNames]
  | succ n ih =>
    have hold : firstNames (i + n) (copyNames buf tmp i (n + 1)) = firstNames (i + n) (copyNames buf tmp i n) := by
      refine List.map_congr_left fun k hk => ?_
      rw [copyNames, Function.update_of_ne (List.mem_range.1 hk).ne]
    have hlast : firstNames (i + (n + 1)) (copyNames buf tmp i (n + 1)) =
        firstNames (i + n) (copyNames buf tmp i (n + 1)) ++ [strn minixNameLen (slotName tmp n)] := by
      rw [firstNames, ← Nat.add_assoc, List.range_succ, List.map_append, List.map_singleton, copyNames, Function.update_self,
        strn_dirName]
      rfl
    rw [hlast, hold, ih, List.range_succ, List.map_append, List.map_singleton, List.append_assoc]

/-- the names of whole entries of the file -/
theorem names_of_bytes (h : dev.Sound) (hpos : pos = sizeofDentry * a) (hn : pos + sizeofDentry * n ≤ b)
    (hb : ∀ j < n, (a + j) / dentriesPerBlock < maxBlocks) :
    ((List.range n).map fun j => strn minixNameLen (slotName (fill page (inode.bytes dev pos b)) j)) =
      (List.range n).map fun j => inode.nameOf dev (a + j) := by
  refine List.map_congr_left fun j hj => ?_
  have hj := List.mem_range.1 hj
  rw [← nameOf_eq h (hb j hj)]
  refine strn_congr fun t ht => ?_
  have hlt : t + (16 * j + 2) < b - pos := by
    unfold sizeofDentry minixNameLen at *
    omega
  have hidx : pos + (t + (16 * j + 2)) = sizeofDentry * (a + j) + 2 + t := by
    unfold sizeofDentry at *
    omega
  change (inode.bytes dev pos b)[t + (16 * j + 2)]?.getD _ = _
  rw [Inode.bytes, List.getElem?_map, List.getElem?_range' hlt, Option.map_some, Option.getD_some, Nat.one_mul, hidx]

/-! ## One read -/

/-- the loop of a read goes through blocks that have zones -/
theorem readLoop_prefix (h : dev.Sound) (hmax : inode.size < minixBlockSize * maxBlocks)
    (hb : minixBlockSize * b < inode.size) (m : ℕ) :
    ∀ fuel left pos, pos ≤ minixBlockSize * b → b - pos / minixBlockSize ≤ m → minixBlockSize * b - pos ≤ left →
    left ≤ fuel → (∀ k, pos / minixBlockSize ≤ k → k < b → Mapped dev inode k) →
    ∃ fuel', left - (minixBlockSize * b - pos) ≤ fuel' ∧ readLoop dev inode fuel left pos =
      (readLoop dev inode fuel' (left - (minixBlockSize * b - pos)) (minixBlockSize * b)).map fun r =>
        { r with stored := inode.bytes dev pos (minixBlockSize * b) ++ r.stored } := by
  have hsame : ∀ fuel left, left ≤ fuel → ∃ fuel', left - (minixBlockSize * b - minixBlockSize * b) ≤ fuel' ∧
      readLoop dev inode fuel left (minixBlockSize * b) =
        (readLoop dev inode fuel' (left - (minixBlockSize * b - minixBlockSize * b)) (minixBlockSize * b)).map fun r =>
          { r with stored := inode.bytes dev (minixBlockSize * b) (minixBlockSize * b) ++ r.stored } := by
    intro fuel left hfuel
    refine ⟨fuel, by omega, ?_⟩
    rw [Nat.sub_self, Nat.sub_zero, bytes_empty le_rfl]
    simp
  induction m with
  | zero =>
    intro fuel left pos hpos hm _ hfuel _
    obtain rfl : pos = minixBlockSize * b := by
      unfold minixBlockSize at *
      omega
    exact hsame fuel left hfuel
  | succ m ih =>
    intro fuel left pos hpos hm hleft hfuel hall
    rcases Nat.lt_or_ge (pos / minixBlockSize) b with hlt | hge
    swap
    · obtain rfl : pos = minixBlockSize * b := by
        unfold minixBlockSize at *
        omega
      exact hsame fuel left hfuel
    have hnext := lt_blockEnd pos
    have hend : blockEnd pos ≤ minixBlockSize * b := by
      unfold blockEnd minixBlockSize at *
      omega
    obtain ⟨fuel, rfl⟩ : ∃ n, fuel = n + 1 := ⟨fuel - 1, by omega⟩
    have hstop : stopOf inode left pos = blockEnd pos := by
      unfold stopOf
      rw [← blockEnd]
      omega
    have hmapped := hall _ le_rfl hlt
    have hblock : ¬ pos / minixBlockSize ≥ maxBlocks := by
      unfold minixBlockSize at *
      omega
    have hmore : blockEnd pos < inode.size := by omega
    obtain ⟨fuel', hfuel', hrest⟩ :=
      ih fuel (left - (blockEnd pos - pos)) (blockEnd pos) hend (by rw [blockEnd_div]; omega) (by omega) (by omega)
      fun k hk hkb => hall k (by rw [blockEnd_div] at hk; omega) hkb
    have hleft' : left - (blockEnd pos - pos) - (minixBlockSize * b - blockEnd pos) =
        left - (minixBlockSize * b - pos) := by omega
    rw [hleft'] at hfuel' hrest
    refine ⟨fuel', hfuel', ?_⟩
    rw [readLoop, if_neg (by omega), turn_eq h, if_neg hblock, hstop]
    simp only [hmapped, hmore, and_self, true_or, if_true, decide_true]
    rw [hrest, Option.map_map, ← bytes_append hnext.le hend]
    refine congrArg (Option.map · _) ?_
    funext r
    simp

/-- a read that stops at no hole -/
theorem fileRead_readable (h : dev.Sound) {size : ℕ} (hr : Readable dev inode size pos) :
    minixFileRead dev inode size pos =
    some ⟨if endOf inode size pos - pos ≠ 0 then ((endOf inode size pos - pos : ℕ) : ℤ) else -eIo,
      pos + (endOf inode size pos - pos), inode.bytes dev pos (endOf inode size pos)⟩ := by
  obtain ⟨r, hread, hstored, hpos, hret⟩ := (read_iff dev inode _ _ h).2 hr
  rw [hstored, length_bytes] at hpos hret
  rw [hread, ← hstored, ← hpos, ← hret]

/-- a read that ends the file in a hole stores the blocks in front of it -/
theorem fileRead_hole (h : dev.Sound) (hmax : inode.size < minixBlockSize * maxBlocks) {size : ℕ}
    (hb : minixBlockSize * b < inode.size) (hlast : inode.size ≤ minixBlockSize * (b + 1)) (hpos : pos ≤ minixBlockSize * b)
    (hsize : minixBlockSize * b < pos + size)
    (hend : inode.size ≤ pos + size) (hall : ∀ k < b, Mapped dev inode k) (hhole : ¬ Mapped dev inode b) :
    minixFileRead dev inode size pos =
    some ⟨if minixBlockSize * b - pos ≠ 0 then ((minixBlockSize * b - pos : ℕ) : ℤ) else -eIo,
      inode.size, inode.bytes dev pos (minixBlockSize * b)⟩ := by
  obtain ⟨fuel, hfuel, hloop⟩ := readLoop_prefix h hmax hb b size size pos hpos (Nat.sub_le _ _) (by omega) le_rfl
    fun k _ hk => hall k hk
  obtain ⟨fuel, rfl⟩ : ∃ n, fuel = n + 1 := ⟨fuel - 1, by omega⟩
  have hdiv : minixBlockSize * b / minixBlockSize = b := Nat.mul_div_cancel_left b (by decide)
  have hblock : ¬ b ≥ maxBlocks := by
    unfold minixBlockSize at *
    omega
  have hstop : stopOf inode (size - (minixBlockSize * b - pos)) (minixBlockSize * b) = inode.size := by
    unfold stopOf
    rw [hdiv]
    unfold minixBlockSize at *
    omega
  have hrest : readLoop dev inode (fuel + 1) (size - (minixBlockSize * b - pos)) (minixBlockSize * b) =
      some ⟨size - (minixBlockSize * b - pos), inode.size, []⟩ := by
    rw [readLoop, if_neg (by omega), turn_eq h, hdiv, if_neg hblock, hstop]
    simp [hhole]
  have hret : size - (size - (minixBlockSize * b - pos)) = minixBlockSize * b - pos := by omega
  rw [minixFileRead, hloop, hrest]
  simp only [Option.map_some, List.append_nil, hret]

/-- where calls leave `*pos` -/
def AtEntry (inode : Inode) (pos : ℕ) : Prop := pos ≤ inode.size ∧ (sizeofDentry ∣ pos ∨ pos = inode.size)

/-- what a read of c entries gives: the bytes up to e, which are entries in use, and `*pos` at e' with nothing listed in
between -/
structure ReadOk (dev : Device) (inode : Inode) (c pos e e' : ℕ) : Prop where
  read : minixFileRead dev inode (sizeofDentry * c) pos = some ⟨if e - pos ≠ 0 then ((e - pos : ℕ) : ℤ) else -eIo, e',
    inode.bytes dev pos e⟩
  le : pos ≤ e ∧ e ≤ e'
  entry : AtEntry inode e'
  whole : e ≤ pos + sizeofDentry * c ∧ (e = pos + sizeofDentry * c → e' = e)
  skipped : inode.live dev (e / sizeofDentry) (e' / sizeofDentry) = []
  used : ∀ j, pos / sizeofDentry ≤ j → j < e / sizeofDentry → inode.inrOf dev j ≠ 0
  aligned : (e - pos) % sizeofDentry = 0 ∨ inode.size < sizeofDentry

/-- the blocks of a directory whose entries are in use -/
theorem AllInUse.mapped (h : dev.Sound) (hd : AllInUse dev inode) (hb : minixBlockSize * (b + 1) < inode.size) :
    Mapped dev inode b := by
  obtain ⟨hmax, hused, -⟩ := hd
  by_contra hm
  have hdiv : dentriesPerBlock * b / dentriesPerBlock = b := Nat.mul_div_cancel_left b (by decide)
  have hlt : dentriesPerBlock * b < inode.size / sizeofDentry := by
    unfold dentriesPerBlock minixBlockSize sizeofDentry at *
    omega
  have hblock : dentriesPerBlock * b / dentriesPerBlock < maxBlocks := by
    rw [hdiv]
    unfold minixBlockSize at *
    omega
  obtain hne | ⟨-, -, hlone⟩ := hused _ hlt
  · exact hne (inrOf_hole h hblock (by rwa [hdiv]))
  · unfold dentriesPerBlock minixBlockSize sizeofDentry at *
    omega

/-- the hole at the end of such a directory is not larger than an entry -/
theorem AllInUse.hole (h : dev.Sound) (hd : AllInUse dev inode) (hm : ¬ Mapped dev inode inode.last) :
    inode.size ≤ minixBlockSize * inode.last + sizeofDentry := by
  obtain ⟨hmax, hused, -⟩ := hd
  by_contra hgt
  have hdiv : dentriesPerBlock * inode.last / dentriesPerBlock = inode.last := Nat.mul_div_cancel_left _ (by decide)
  have hlt : dentriesPerBlock * inode.last < inode.size / sizeofDentry := by
    unfold dentriesPerBlock minixBlockSize sizeofDentry at *
    omega
  have hblock : dentriesPerBlock * inode.last / dentriesPerBlock < maxBlocks := by
    rw [hdiv]
    unfold Inode.last minixBlockSize at *
    omega
  obtain hne | ⟨-, -, hlone⟩ := hused _ hlt
  · exact hne (inrOf_hole h hblock (by rwa [hdiv]))
  · unfold dentriesPerBlock minixBlockSize sizeofDentry at *
    omega

/-- an entry in front of the last block, or in a last block that has a zone, is in use -/
theorem AllInUse.used (hd : AllInUse dev inode) (hj : j < inode.size / sizeofDentry)
    (hm : Mapped dev inode inode.last ∨ sizeofDentry * j < minixBlockSize * inode.last) : inode.inrOf dev j ≠ 0 := by
  refine (hd.2.1 j hj).resolve_right ?_
  rintro ⟨hhole, hfirst, hend⟩
  have hlast : j / dentriesPerBlock = inode.last := by
    unfold Inode.last dentriesPerBlock minixBlockSize sizeofDentry at *
    omega
  obtain hm | hm := hm
  · exact hhole (hlast ▸ hm)
  · unfold Inode.last dentriesPerBlock minixBlockSize sizeofDentry at *
    omega

theorem readOk_end (h : dev.Sound) (hd : AllInUse dev inode) (hc : 0 < c) :
    ReadOk dev inode c inode.size inode.size inode.size := by
  have hblock : ¬ inode.size / minixBlockSize ≥ maxBlocks := by
    have hmax := hd.1
    unfold minixBlockSize at *
    omega
  have hne : sizeofDentry * c ≠ 0 := Nat.mul_ne_zero (by decide) hc.ne'
  refine ⟨?_, ⟨le_rfl, le_rfl⟩, ⟨le_rfl, Or.inr rfl⟩, ⟨Nat.le_add_right _ _, fun _ => rfl⟩, live_empty le_rfl,
    fun j h1 h2 => ?_, Or.inl ?_⟩
  · rw [fileRead_behind h hne le_rfl, if_neg hblock, bytes_empty le_rfl, Nat.sub_self]
    rfl
  · omega
  · rw [Nat.sub_self]
    rfl

/-- a read that comes to the hole at the end -/
theorem readOk_hole (h : dev.Sound) (hd : AllInUse dev inode) (hpos : pos < inode.size) (hdvd : sizeofDentry ∣ pos)
    (hm : ¬ Mapped dev inode inode.last) (hto : minixBlockSize * inode.last < pos + sizeofDentry * c) :
    ReadOk dev inode c pos (minixBlockSize * inode.last) inode.size := by
  have hhole := hd.hole h hm
  have hmax := hd.1
  obtain ⟨a, rfl⟩ := hdvd
  have hb : minixBlockSize * inode.last < inode.size := by
    unfold Inode.last minixBlockSize
    omega
  have hend : inode.size ≤ minixBlockSize * (inode.last + 1) := by
    unfold Inode.last minixBlockSize
    omega
  have hfrom : sizeofDentry * a ≤ minixBlockSize * inode.last := by
    unfold minixBlockSize sizeofDentry at *
    omega
  have hcover : inode.size ≤ sizeofDentry * a + sizeofDentry * c := by
    unfold minixBlockSize sizeofDentry at *
    omega
  refine ⟨?_, ⟨hfrom, hb.le⟩, ⟨le_rfl, Or.inr rfl⟩, ⟨hto.le, fun he => absurd he hto.ne⟩, ?_,
    fun j h1 h2 => ?_, Or.inl ?_⟩
  · exact fileRead_hole h hmax hb hend hfrom hto hcover (fun k hk => hd.mapped h (by unfold minixBlockSize at *; omega)) hm
  · refine live_none fun j h1 h2 => inrOf_hole h ?_ ?_
    · unfold dentriesPerBlock minixBlockSize sizeofDentry at *
      omega
    · have hlast : j / dentriesPerBlock = inode.last := by
        unfold dentriesPerBlock minixBlockSize sizeofDentry at *
        omega
      rwa [hlast]
  · refine hd.used ?_ (Or.inr ?_)
    · unfold minixBlockSize sizeofDentry at *
      omega
    · unfold minixBlockSize sizeofDentry at *
      omega
  · unfold minixBlockSize sizeofDentry
    omega

/-- any other read -/
theorem readOk_bytes (h : dev.Sound) (hd : AllInUse dev inode) (hc : 0 < c) (hpos : pos < inode.size)
    (hdvd : sizeofDentry ∣ pos) (hto : Mapped dev inode inode.last ∨ pos + sizeofDentry * c ≤ minixBlockSize * inode.last) :
    ReadOk dev inode c pos (endOf inode (sizeofDentry * c) pos) (endOf inode (sizeofDentry * c) pos) := by
  obtain ⟨hmax, hused, htail⟩ := id hd
  obtain ⟨a, rfl⟩ := hdvd
  have hb : minixBlockSize * inode.last < inode.size := by
    unfold Inode.last minixBlockSize
    omega
  have hwant : 0 < sizeofDentry * c := Nat.mul_pos (by decide) hc
  have hend : endOf inode (sizeofDentry * c) (sizeofDentry * a) = min (sizeofDentry * a + sizeofDentry * c) inode.size := rfl
  have hafter : sizeofDentry * a < endOf inode (sizeofDentry * c) (sizeofDentry * a) := by
    rw [hend]
    omega
  have hreadable : Readable dev inode (sizeofDentry * c) (sizeofDentry * a) := by
    refine Or.inr ⟨?_, Or.inr ⟨?_, fun k h1 h2 => hd.mapped h ?_, ?_⟩⟩
    · unfold minixBlockSize at *
      omega
    · unfold lastOf minixBlockSize at *
      omega
    · unfold lastOf minixBlockSize at *
      omega
    · by_cases hlast : lastOf inode (sizeofDentry * c) (sizeofDentry * a) = inode.last
      · rw [hlast]
        refine hto.imp_right fun hto => ?_
        unfold lastOf minixBlockSize at *
        omega
      · left
        refine hd.mapped h ?_
        unfold Inode.last lastOf minixBlockSize at *
        omega
  refine ⟨?_, ⟨hafter.le, le_rfl⟩, ⟨Nat.min_le_right _ _, ?_⟩, ⟨Nat.min_le_left _ _, fun _ => rfl⟩,
    live_empty le_rfl, fun j h1 h2 => ?_, ?_⟩
  · rw [fileRead_readable h hreadable, Nat.add_sub_cancel' hafter.le]
  · rw [hend]
    rcases Nat.le_total (sizeofDentry * a + sizeofDentry * c) inode.size with hle | hle
    · rw [min_eq_left hle]
      exact Or.inl (Dvd.intro (a + c) (Nat.mul_add _ _ _))
    · exact Or.inr (min_eq_right hle)
  · refine hd.used ?_ (hto.imp_right fun hto => ?_)
    · unfold sizeofDentry at *
      omega
    · unfold minixBlockSize sizeofDentry at *
      omega
  · rw [hend]
    rcases Nat.le_total (sizeofDentry * a + sizeofDentry * c) inode.size with hle | hle
    · left
      rw [min_eq_left hle, Nat.add_sub_cancel_left]
      exact Nat.mul_mod_right _ _
    · obtain htail | htail | htail := htail
      · left
        rw [min_eq_right hle]
        unfold sizeofDentry at *
        omega
      · exact Or.inr htail
      · left
        have hto := hto.resolve_left htail
        omega

/-- **One read** of a directory whose entries are in use. -/
theorem read_ok (h : dev.Sound) (hd : AllInUse dev inode) (hc : 0 < c) (hpos : AtEntry inode pos) :
    ∃ e e', ReadOk dev inode c pos e e' := by
  obtain ⟨hle, hdvd⟩ := hpos
  rcases Nat.lt_or_eq_of_le hle with hlt | rfl
  swap
  · exact ⟨_, _, readOk_end h hd hc⟩
  have hdvd := hdvd.resolve_right hlt.ne
  by_cases hm : Mapped dev inode inode.last
  · exact ⟨_, _, readOk_bytes h hd hc hlt hdvd (Or.inl hm)⟩
  · rcases Nat.lt_or_ge (minixBlockSize * inode.last) (pos + sizeofDentry * c) with hto | hto
    · exact ⟨_, _, readOk_hole h hd hlt hdvd hm hto⟩
    · exact ⟨_, _, readOk_bytes h hd hc hlt hdvd (Or.inr hto)⟩

/-! ## One call -/

theorem names_count (n : ℕ) (pos : ℕ) (buf : ℕ → Ptr) :
    (⟨(n : ℤ), pos, buf⟩ : DirResult).names = firstNames n buf := by
  rw [DirResult.names, Int.toNat_natCast]

theorem names_error {e : ℤ} (he : e ≤ 0) (pos : ℕ) (buf : ℕ → Ptr) : (⟨e, pos, buf⟩ : DirResult).names = [] := by
  rw [DirResult.names, Int.toNat_of_nonpos he]
  rfl

/-- what a turn of the loop asks for -/
def request (len i : ℕ) : ℕ := min ((len - i) * sizeofDentry % 2 ^ 32) pageSize

theorem request_eq (len i : ℕ) : ∃ c, request len i = sizeofDentry * c := by
  refine ⟨request len i / sizeofDentry, ?_⟩
  unfold request pageSize sizeofDentry
  omega

/-- names i to i + n - 1 of the buffer, after a read of c entries -/
theorem names_read (i : ℕ) (buf : ℕ → Ptr) (page : Ptr) (h : dev.Sound) (hd : AllInUse dev inode) {e e' : ℕ}
    (hr : ReadOk dev inode c pos e e') (hpos : AtEntry inode pos) (hmod : (e - pos) % sizeofDentry = 0) :
    firstNames (i + (e - pos) / sizeofDentry)
      (copyNames buf (fill page (inode.bytes dev pos e)) i ((e - pos) / sizeofDentry)) =
    firstNames i buf ++ inode.live dev (pos / sizeofDentry) (e' / sizeofDentry) := by
  obtain ⟨hle, hle'⟩ := hr.le
  rw [firstNames_copy, List.append_cancel_left_eq]
  have hend := hr.entry.1
  rcases Nat.lt_or_eq_of_le hle with hlt | rfl
  swap
  · rw [hr.skipped, Nat.sub_self, Nat.zero_div]
    rfl
  obtain ⟨a, rfl⟩ := hpos.2.resolve_right (by omega)
  have hdiv : sizeofDentry * a / sizeofDentry = a := Nat.mul_div_cancel_left a (by decide)
  have hlast : e / sizeofDentry = a + (e - sizeofDentry * a) / sizeofDentry := by
    unfold sizeofDentry at *
    omega
  have hmax := hd.1
  have hlive : inode.live dev a (e / sizeofDentry) = inode.live dev a (e' / sizeofDentry) := by
    rw [← live_append (a := a) (b := e / sizeofDentry) (c := e' / sizeofDentry) (by rw [hlast]; exact Nat.le_add_right _ _)
      (Nat.div_le_div_right hle'), hr.skipped,
      List.append_nil]
  rw [names_of_bytes h rfl (by unfold sizeofDentry at *; omega) fun j hj => by
    unfold dentriesPerBlock minixBlockSize sizeofDentry at *
    omega, hdiv, ← hlive, hlast, live_all]
  intro j hj
  refine hr.used _ (by omega) ?_
  rw [hlast]
  omega

/-- **One call** of readdir returns the names of the entries that it moves `*pos` over. -/
theorem loop_ok (h : dev.Sound) (hd : AllInUse dev inode) (page : Ptr) (len fuel : ℕ) : ∀ i pos buf, len - i ≤ fuel →
    AtEntry inode pos → i ≤ pos / sizeofDentry → ∃ r, readdirLoop dev inode page len fuel i pos buf = some r ∧
    pos ≤ r.pos ∧
      AtEntry inode r.pos ∧ r.names = firstNames i buf ++ inode.live dev (pos / sizeofDentry) (r.pos / sizeofDentry) := by
  have hstay : ∀ i pos buf, AtEntry inode pos → pos ≤ (⟨(i : ℕ), pos, buf⟩ : DirResult).pos ∧ AtEntry inode pos ∧
      (⟨(i : ℕ), pos, buf⟩ : DirResult).names = firstNames i buf ++ inode.live dev (pos / sizeofDentry)
      (pos / sizeofDentry) :=
    fun i pos buf hpos => ⟨le_rfl, hpos, by rw [names_count, live_empty le_rfl, List.append_nil]⟩
  induction fuel with
  | zero => exact fun i pos buf _ hpos _ => ⟨_, rfl, hstay i pos buf hpos⟩
  | succ fuel ih =>
    intro i pos buf hfuel hpos hi
    rw [readdirLoop]
    by_cases hlen : i < len
    swap
    · rw [if_neg hlen]
      exact ⟨_, rfl, hstay i pos buf hpos⟩
    rw [if_pos hlen]
    dsimp only
    rw [← request.eq_1]
    -- a read of nothing returns -EIO, as one at the end of the file does
    have heio : ∀ e', pos ≤ e' → AtEntry inode e' → inode.live dev (pos / sizeofDentry) (e' / sizeofDentry) = [] →
        ∃ r, (if -eIo = -eIo ∧ i = 0 then some ⟨-eIo, e', buf⟩ else some ⟨(i : ℕ), e', buf⟩ : Option DirResult) =
        some r ∧
          pos ≤ r.pos ∧ AtEntry inode r.pos ∧
          r.names = firstNames i buf ++ inode.live dev (pos / sizeofDentry) (r.pos / sizeofDentry) := by
      intro e' hle hentry hnone
      split_ifs with h0
      · refine ⟨_, rfl, hle, hentry, ?_⟩
        rw [names_error (by decide), hnone, h0.2]
        rfl
      · refine ⟨_, rfl, hle, hentry, ?_⟩
        rw [names_count, hnone, List.append_nil]
    obtain ⟨c, hc⟩ := request_eq len i
    rw [hc]
    rcases Nat.eq_zero_or_pos c with rfl | hc0
    · have hread : minixFileRead dev inode (sizeofDentry * 0) pos = some ⟨-eIo, pos, []⟩ := rfl
      rw [hread]
      dsimp only
      rw [if_neg (by decide)]
      exact heio pos le_rfl hpos (live_empty le_rfl)
    obtain ⟨e, e', hr⟩ := read_ok h hd hc0 hpos
    obtain ⟨hle, hle'⟩ := hr.le
    rw [hr.read]
    dsimp only
    rcases Nat.lt_or_eq_of_le hle with hlt | rfl
    swap
    · rw [Nat.sub_self, if_neg (not_not_intro rfl), if_neg (by decide)]
      exact heio e' hle' hr.entry hr.skipped
    have hne : e - pos ≠ 0 := by omega
    rw [if_pos hne, if_pos (by omega), Int.toNat_natCast]
    by_cases hmod : (e - pos) % sizeofDentry = 0
    swap
    · -- a directory that is smaller than an entry
      have hsmall := hr.aligned.resolve_left hmod
      have hend := hr.entry.1
      have hstart : pos / sizeofDentry = 0 := Nat.div_eq_of_lt (by omega)
      obtain rfl : i = 0 := by omega
      rw [if_pos hmod]
      refine ⟨_, rfl, hle.trans hle', hr.entry, ?_⟩
      rw [names_error (by decide), hstart, Nat.div_eq_of_lt (show e' < sizeofDentry by omega), live_empty le_rfl]
      rfl
    rw [if_neg (not_not_intro hmod)]
    have hnames := names_read i buf page h hd hr hpos hmod
    by_cases hshort : e - pos < sizeofDentry * c
    · rw [if_pos hshort]
      refine ⟨_, rfl, hle.trans hle', hr.entry, ?_⟩
      rw [names_count, hnames]
    · rw [if_neg hshort]
      obtain ⟨hend, hwhole⟩ := hr.whole
      have hfull : e = pos + sizeofDentry * c := by omega
      obtain rfl := hwhole hfull
      have hdiv : (e' - pos) / sizeofDentry = c := by
        rw [hfull, Nat.add_sub_cancel_left]
        exact Nat.mul_div_cancel_left c (by decide)
      have hnext : e' / sizeofDentry = pos / sizeofDentry + c := by
        rw [hfull]
        exact Nat.add_mul_div_left _ _ (by decide)
      obtain ⟨r, hrun, hrle, hentry, hrest⟩ := ih (i + (e' - pos) / sizeofDentry) e' _ (by rw [hdiv]; omega) hr.entry
        (by rw [hdiv, hnext]; omega)
      refine ⟨r, hrun, by omega, hentry, ?_⟩
      rw [hrest, hnames, List.append_assoc, live_append (Nat.div_le_div_right hle) (Nat.div_le_div_right hrle)]

theorem call_ok (h : dev.Sound) (hd : AllInUse dev inode) (c : Call) (hpos : AtEntry inode pos) :
    ∃ r, minixFileReaddir dev inode c.page c.buf c.len pos = some r ∧ pos ≤ r.pos ∧ AtEntry inode r.pos ∧
      r.names = inode.live dev (pos / sizeofDentry) (r.pos / sizeofDentry) := by
  obtain ⟨page, buf, len⟩ := c
  cases page with
  | none =>
    refine ⟨_, rfl, le_rfl, hpos, ?_⟩
    rw [names_error (by decide), live_empty le_rfl]
  | some page => exact loop_ok h hd page len len 0 pos buf (Nat.sub_le _ _) hpos (Nat.zero_le _)

/-- **Calls one after the other.** -/
theorem readdirs_ok (h : dev.Sound) (hd : AllInUse dev inode) (cs : List Call) : ∀ pos, AtEntry inode pos →
    ∃ names p, readdirs dev inode cs pos = some (names, p) ∧ pos ≤ p ∧ AtEntry inode p ∧
      names = inode.live dev (pos / sizeofDentry) (p / sizeofDentry) := by
  induction cs with
  | nil => exact fun pos hpos => ⟨[], pos, rfl, le_rfl, hpos, (live_empty le_rfl).symm⟩
  | cons c cs ih =>
    intro pos hpos
    obtain ⟨r, hr, hle, hentry, hnames⟩ := call_ok h hd c hpos
    obtain ⟨names, p, hrun, hle', hentry', hrest⟩ := ih r.pos hentry
    refine ⟨r.names ++ names, p, ?_, hle.trans hle', hentry', ?_⟩
    · rw [readdirs, hr, Option.bind_some, hrun]
      rfl
    · rw [hnames, hrest, live_append (Nat.div_le_div_right hle) (Nat.div_le_div_right hle')]

theorem lists_of_inUse (h : dev.Sound) (hd : AllInUse dev inode) : Lists dev inode := by
  intro cs _
  obtain ⟨names, p, hrun, -, hentry, hnames⟩ := readdirs_ok h hd cs 0 ⟨Nat.zero_le _, Or.inl (dvd_zero _)⟩
  refine ⟨names, p, hrun, fun hend => ?_⟩
  obtain rfl : p = inode.size := le_antisymm hentry.1 hend
  rw [hnames, Nat.zero_div]

/-! ## The entries that are listed -/

/-- a call for n entries -/
def ask (n : ℕ) : Call := ⟨some fun _ => 0, fun _ _ => 0, n⟩

/-- a call that reads no whole number of entries returns an error -/
theorem ask_error {stored : List Byte} {n m p : ℕ} (hn : 0 < n ∧ n ≤ 256)
    (hread : minixFileRead dev inode (sizeofDentry * n) pos = some ⟨m, p, stored⟩) (hm : m % sizeofDentry ≠ 0) :
    ∃ r, minixFileReaddir dev inode (ask n).page (ask n).buf (ask n).len pos = some r ∧ r.pos = p ∧ r.names = [] := by
  obtain ⟨k, rfl⟩ := Nat.exists_eq_succ_of_ne_zero hn.1.ne'
  have hsize : min ((k + 1 - 0) * sizeofDentry % 2 ^ 32) pageSize = sizeofDentry * (k + 1) := by
    unfold sizeofDentry pageSize
    omega
  have hpos : m ≠ 0 := by
    rintro rfl
    exact hm rfl
  refine ⟨⟨-error, p, copyNames (ask (k + 1)).buf (fill (fun _ => 0) stored) 0 (m / sizeofDentry)⟩, ?_, rfl,
    names_error (by decide) _ _⟩
  change readdirLoop dev inode (fun _ => 0) (k + 1) (k + 1) 0 pos (ask (k + 1)).buf = _
  rw [readdirLoop, if_pos k.succ_pos]
  simp only [hsize, hread]
  rw [if_pos (by omega), Int.toNat_natCast, if_pos hm]

/-- a call that reads nothing -/
theorem ask_eio {n p : ℕ} (hn : 0 < n ∧ n ≤ 256)
    (hread : minixFileRead dev inode (sizeofDentry * n) pos = some ⟨-eIo, p, []⟩) :
    ∃ r, minixFileReaddir dev inode (ask n).page (ask n).buf (ask n).len pos = some r ∧ r.pos = p ∧ r.names = [] := by
  obtain ⟨k, rfl⟩ := Nat.exists_eq_succ_of_ne_zero hn.1.ne'
  have hsize : min ((k + 1 - 0) * sizeofDentry % 2 ^ 32) pageSize = sizeofDentry * (k + 1) := by
    unfold sizeofDentry pageSize
    omega
  refine ⟨⟨-eIo, p, (ask (k + 1)).buf⟩, ?_, rfl, names_error (by decide) _ _⟩
  change readdirLoop dev inode (fun _ => 0) (k + 1) (k + 1) 0 pos (ask (k + 1)).buf = _
  rw [readdirLoop, if_pos k.succ_pos]
  simp only [hsize, hread]
  rw [if_neg (by decide)]
  exact if_pos ⟨trivial, trivial⟩

/-- a call for one entry that reads it -/
theorem ask_one (h : dev.Sound) (hj : j / dentriesPerBlock < maxBlocks)
    (hread : minixFileRead dev inode (sizeofDentry * 1) (sizeofDentry * j) =
      some ⟨sizeofDentry, sizeofDentry * (j + 1), inode.bytes dev (sizeofDentry * j) (sizeofDentry * (j + 1))⟩) :
    ∃ r, minixFileReaddir dev inode (ask 1).page (ask 1).buf (ask 1).len (sizeofDentry * j) = some r ∧
      r.pos = sizeofDentry * (j + 1) ∧ r.names = [inode.nameOf dev j] := by
  have hnames : ((List.range 1).map fun k => strn minixNameLen
      (slotName (fill (fun _ => 0) (inode.bytes dev (sizeofDentry * j) (sizeofDentry * (j + 1)))) k)) =
      (List.range 1).map fun k => inode.nameOf dev (j + k) := by
    refine names_of_bytes h rfl (by rw [Nat.mul_one, ← Nat.mul_succ]) fun k hk => ?_
    obtain rfl : k = 0 := by omega
    exact hj
  have hcopy := firstNames_copy (ask 1).buf (fill (fun _ => 0) (inode.bytes dev (sizeofDentry * j) (sizeofDentry * (j + 1)))) 0 1
  rw [hnames] at hcopy
  refine ⟨⟨(1 : ℕ), sizeofDentry * (j + 1), copyNames (ask 1).buf (fill (fun _ => 0)
    (inode.bytes dev (sizeofDentry * j) (sizeofDentry * (j + 1)))) 0 1⟩, ?_, rfl, (names_count _ _ _).trans hcopy⟩
  change readdirLoop dev inode (fun _ => 0) 1 1 0 (sizeofDentry * j) (ask 1).buf = _
  have hsize : min ((1 - 0) * sizeofDentry % 2 ^ 32) pageSize = sizeofDentry * 1 := by decide
  rw [readdirLoop, if_pos Nat.one_pos]
  simp only [hsize, hread]
  rfl

/-- an entry that a call for it alone lists -/
def Listed (dev : Device) (inode : Inode) (j : ℕ) : Prop :=
  Mapped dev inode (j / dentriesPerBlock) ∨ sizeofDentry * (j + 1) < inode.size

instance (j : ℕ) : Decidable (Listed dev inode j) := by unfold Listed; infer_instance

/-- a read that ends in a hole at the end of the file, from an entry of the hole -/
theorem read_lone (h : dev.Sound) (hj : j / dentriesPerBlock < maxBlocks) (hlt : sizeofDentry * j < inode.size)
    (hle : inode.size ≤ sizeofDentry * (j + 1)) (hm : ¬ Mapped dev inode (j / dentriesPerBlock)) :
    minixFileRead dev inode (sizeofDentry * 1) (sizeofDentry * j) = some ⟨-eIo, inode.size, []⟩ := by
  have hdiv : sizeofDentry * j / minixBlockSize = j / dentriesPerBlock := by
    unfold dentriesPerBlock minixBlockSize sizeofDentry
    omega
  have hstop : stopOf inode 16 (sizeofDentry * j) = inode.size := by
    unfold stopOf
    rw [hdiv]
    unfold dentriesPerBlock minixBlockSize sizeofDentry at *
    omega
  have hloop : readLoop dev inode 16 16 (sizeofDentry * j) = some ⟨16, inode.size, []⟩ := by
    rw [readLoop, if_neg (by decide), turn_eq h, hdiv, if_neg (not_le.2 hj), hstop]
    simp [hm]
  change (readLoop dev inode 16 16 (sizeofDentry * j)).map _ = _
  rw [hloop]
  rfl

theorem readable_one (hj : j / dentriesPerBlock < maxBlocks) (hlt : sizeofDentry * j < inode.size)
    (hl : Listed dev inode j) : Readable dev inode (sizeofDentry * 1) (sizeofDentry * j) := by
  have hdiv : sizeofDentry * j / minixBlockSize = j / dentriesPerBlock := by
    unfold dentriesPerBlock minixBlockSize sizeofDentry
    omega
  refine (readable_ends (by decide) hlt ?_).2 ⟨?_, ?_⟩
  · unfold endOf blockEnd minixBlockSize sizeofDentry
    omega
  · rwa [hdiv]
  · rw [hdiv]
    exact hl

theorem readdirs_snoc {cs : List Call} {c : Call} {names : List (List Byte)} {p : ℕ} {r : DirResult} :
    ∀ {pos}, readdirs dev inode cs pos = some (names, p) → minixFileReaddir dev inode c.page c.buf c.len p = some r →
    readdirs dev inode (cs ++ [c]) pos = some (names ++ r.names, r.pos) := by
  induction cs generalizing names with
  | nil =>
    intro pos hrun hr
    obtain ⟨rfl, rfl⟩ := Prod.mk.inj (Option.some.inj hrun)
    rw [List.nil_append, readdirs, hr]
    simp [readdirs]
  | cons c' cs ih =>
    intro pos hrun hr
    obtain ⟨r', hr', hmap⟩ := Option.bind_eq_some_iff.1 hrun
    obtain ⟨⟨names', p'⟩, hrest, heq⟩ := Option.map_eq_some_iff.1 hmap
    obtain ⟨rfl, rfl⟩ := Prod.mk.inj heq
    rw [List.cons_append, readdirs, hr', Option.bind_some, ih hrest hr, List.append_assoc]
    rfl

theorem readdirs_stuck {cs : List Call} {c : Call} {names : List (List Byte)} {p : ℕ} :
    ∀ {pos}, readdirs dev inode cs pos = some (names, p) → minixFileReaddir dev inode c.page c.buf c.len p = none →
    readdirs dev inode (cs ++ [c]) pos = none := by
  induction cs generalizing names with
  | nil =>
    intro pos hrun hr
    obtain ⟨-, rfl⟩ := Prod.mk.inj (Option.some.inj hrun)
    rw [List.nil_append, readdirs, hr]
    rfl
  | cons c' cs ih =>
    intro pos hrun hr
    obtain ⟨r', hr', hmap⟩ := Option.bind_eq_some_iff.1 hrun
    obtain ⟨⟨names', p'⟩, hrest, heq⟩ := Option.map_eq_some_iff.1 hmap
    obtain ⟨rfl, rfl⟩ := Prod.mk.inj heq
    rw [List.cons_append, readdirs, hr', Option.bind_some, ih hrest hr]
    rfl

/-- the names that calls for one entry each list -/
def Inode.listed (inode : Inode) (dev : Device) (n : ℕ) : List (List Byte) :=
  ((List.range n).filter fun j => Listed dev inode j).map (inode.nameOf dev)

theorem listed_succ (n : ℕ) : inode.listed dev (n + 1) = inode.listed dev n ++ if Listed dev inode n then [inode.nameOf dev n]
    else [] := by
  rw [Inode.listed, List.range_succ, List.filter_append, List.map_append, Inode.listed]
  split_ifs with hl
  · simp [hl]
  · simp [hl]

/-- **Calls for one entry each** list the entries, in use or not. -/
theorem ask_ones (h : dev.Sound) (n : ℕ) (hsize : n ≤ inode.size / sizeofDentry) (hmax : n ≤ dentriesPerBlock * maxBlocks) :
    readdirs dev inode (List.replicate n (ask 1)) 0 = some (inode.listed dev n, sizeofDentry * n) := by
  induction n with
  | zero => rfl
  | succ n ih =>
    have hrun := ih (by omega) (by omega)
    have hj : n / dentriesPerBlock < maxBlocks := by
      unfold dentriesPerBlock minixBlockSize sizeofDentry at *
      omega
    have hlt : sizeofDentry * n < inode.size := by
      unfold sizeofDentry at *
      omega
    have hle : sizeofDentry * (n + 1) ≤ inode.size := by
      unfold sizeofDentry at *
      omega
    rw [List.replicate_succ', listed_succ]
    by_cases hl : Listed dev inode n
    · have hread := fileRead_readable h (readable_one hj hlt hl)
      have hend : endOf inode (sizeofDentry * 1) (sizeofDentry * n) = sizeofDentry * (n + 1) := by
        unfold endOf sizeofDentry at *
        omega
      have hlen : sizeofDentry * (n + 1) - sizeofDentry * n = sizeofDentry := by
        rw [← Nat.mul_sub, Nat.add_sub_cancel_left, Nat.mul_one]
      rw [hend, hlen, if_pos (by decide)] at hread
      obtain ⟨r, hr, hrpos, hnames⟩ := ask_one h hj hread
      rw [if_pos hl, readdirs_snoc hrun hr, hnames, hrpos]
    · obtain ⟨hm, hend⟩ := not_or.1 hl
      have hsz : inode.size = sizeofDentry * (n + 1) := by omega
      obtain ⟨r, hr, hrpos, hnames⟩ := ask_eio ⟨Nat.one_pos, by decide⟩ (read_lone h hj hlt hsz.le hm)
      rw [if_neg hl, readdirs_snoc hrun hr, hnames, hrpos, hsz]

/-! ## The condition -/

theorem mapped_of_used (h : dev.Sound) (hj : inode.inrOf dev j ≠ 0) : Mapped dev inode (j / dentriesPerBlock) := by
  by_contra hm
  by_cases hb : j / dentriesPerBlock < maxBlocks
  · exact hj (inrOf_hole h hb hm)
  · refine hj ?_
    rw [Inode.inrOf, Inode.dirBlock, bmap_eq h, if_pos (not_lt.1 hb)]
    rfl

/-- when no entry is listed but those in use, those that are listed are in use -/
theorem used_of_listed (h : dev.Sound) (heq : inode.listed dev n = inode.live dev 0 n) (hj : j < n) (hl : Listed dev inode j) :
    inode.inrOf dev j ≠ 0 := by
  have hsub : ((List.range n).filter fun j => inode.inrOf dev j ≠ 0).Sublist
      ((List.range n).filter fun j => Listed dev inode j) := by
    refine List.monotone_filter_right _ fun j hu => ?_
    simp only [ne_eq, decide_eq_true_eq] at hu ⊢
    exact Or.inl (mapped_of_used h hu)
  have hlen : ((List.range n).filter fun j => inode.inrOf dev j ≠ 0).length =
      ((List.range n).filter fun j => Listed dev inode j).length := by
    have hlen := congrArg List.length heq
    rw [Inode.listed, Inode.live, List.length_map, List.length_map, Nat.sub_zero, ← List.range_eq_range'] at hlen
    exact hlen.symm
  have hmem : j ∈ (List.range n).filter fun j => inode.inrOf dev j ≠ 0 := by
    rw [hsub.eq_of_length hlen]
    exact List.mem_filter.2 ⟨List.mem_range.2 hj, by simpa using hl⟩
  simpa using (List.mem_filter.1 hmem).2

/-- calls for one entry each are stuck at the end of the largest file -/
theorem not_lists_of_large (h : dev.Sound) (hge : minixBlockSize * maxBlocks ≤ inode.size) : ¬ Lists dev inode := by
  intro hl
  have hsize : dentriesPerBlock * maxBlocks ≤ inode.size / sizeofDentry := by
    unfold dentriesPerBlock minixBlockSize sizeofDentry at *
    omega
  have hrun := ask_ones h (dentriesPerBlock * maxBlocks) hsize le_rfl
  have hstuck : minixFileReaddir dev inode (ask 1).page (ask 1).buf (ask 1).len (sizeofDentry * (dentriesPerBlock * maxBlocks)) =
      none := by
    have hread : minixFileRead dev inode (sizeofDentry * 1) (sizeofDentry * (dentriesPerBlock * maxBlocks)) = none := by
      have hdiv : sizeofDentry * (dentriesPerBlock * maxBlocks) / minixBlockSize = maxBlocks := by
        unfold dentriesPerBlock minixBlockSize sizeofDentry
        omega
      change (readLoop dev inode 16 16 _).map _ = _
      rw [readLoop, if_neg (by decide), turn_eq h, hdiv, if_pos le_rfl]
      rfl
    have hsize : min ((1 - 0) * sizeofDentry % 2 ^ 32) pageSize = sizeofDentry * 1 := by decide
    change readdirLoop dev inode (fun _ => 0) 1 1 0 (sizeofDentry * (dentriesPerBlock * maxBlocks)) (ask 1).buf = _
    rw [readdirLoop, if_pos Nat.one_pos]
    simp only [hsize, hread]
  obtain ⟨names, p, hsome, -⟩ := hl (List.replicate (dentriesPerBlock * maxBlocks) (ask 1) ++ [ask 1]) fun c hc => by
    obtain hc | hc := List.mem_append.1 hc
    · rw [List.eq_of_mem_replicate hc]
      decide
    · rw [List.mem_singleton.1 hc]
      decide
  rw [readdirs_stuck hrun hstuck] at hsome
  cases hsome

/-- n calls for one entry, and one for m entries that ends at the end of the directory and returns none -/
theorem Lists.after {m : ℕ} {r : DirResult} (hl : Lists dev inode) (hm : 0 < m ∧ m ≤ 256)
    (hrun : readdirs dev inode (List.replicate n (ask 1)) 0 = some (inode.listed dev n, pos))
    (hr : minixFileReaddir dev inode (ask m).page (ask m).buf (ask m).len pos = some r) (hpos : r.pos = inode.size)
    (hnames : r.names = []) : inode.listed dev n = inode.live dev 0 (inode.size / sizeofDentry) := by
  have hall := readdirs_snoc hrun hr
  rw [hnames, List.append_nil, hpos] at hall
  obtain ⟨names, p, hsome, hend⟩ := hl (List.replicate n (ask 1) ++ [ask m]) fun c hc => by
    obtain hc | hc := List.mem_append.1 hc
    · rw [List.eq_of_mem_replicate hc]
      decide
    · rw [List.mem_singleton.1 hc]
      change 0 < m ∧ m < 2 ^ 32
      omega
  obtain ⟨rfl, rfl⟩ := Prod.mk.inj (Option.some.inj (hall.symm.trans hsome))
  exact hend le_rfl

/-- calls for one entry each to the end of the directory -/
theorem Lists.ones (h : dev.Sound) (hl : Lists dev inode) (hmax : inode.size < minixBlockSize * maxBlocks) :
    inode.listed dev (inode.size / sizeofDentry) = inode.live dev 0 (inode.size / sizeofDentry) := by
  have hrun := ask_ones h (inode.size / sizeofDentry) le_rfl (by unfold dentriesPerBlock minixBlockSize sizeofDentry at *; omega)
  by_cases hmod : inode.size % sizeofDentry = 0
  · obtain ⟨names, p, hsome, hend⟩ := hl (List.replicate (inode.size / sizeofDentry) (ask 1)) fun c hc => by
      rw [List.eq_of_mem_replicate hc]
      decide
    obtain ⟨rfl, rfl⟩ := Prod.mk.inj (Option.some.inj (hrun.symm.trans hsome))
    exact hend (by unfold sizeofDentry at *; omega)
  · have hlt : sizeofDentry * (inode.size / sizeofDentry) < inode.size := by
      unfold sizeofDentry at *
      omega
    have hj : inode.size / sizeofDentry / dentriesPerBlock < maxBlocks := by
      unfold dentriesPerBlock minixBlockSize sizeofDentry at *
      omega
    by_cases hm : Mapped dev inode (inode.size / sizeofDentry / dentriesPerBlock)
    · have hread := fileRead_readable h (readable_one hj hlt (Or.inl hm))
      have hend : endOf inode (sizeofDentry * 1) (sizeofDentry * (inode.size / sizeofDentry)) = inode.size := by
        unfold endOf sizeofDentry
        omega
      have hrest : inode.size - sizeofDentry * (inode.size / sizeofDentry) ≠ 0 := by omega
      rw [hend, if_pos hrest, Nat.add_sub_cancel' hlt.le] at hread
      obtain ⟨r, hr, hpos, hnames⟩ := ask_error ⟨Nat.one_pos, by decide⟩ hread (by unfold sizeofDentry at *; omega)
      exact hl.after ⟨Nat.one_pos, by decide⟩ hrun hr hpos hnames
    · obtain ⟨r, hr, hpos, hnames⟩ := ask_eio ⟨Nat.one_pos, by decide⟩
        (read_lone h hj hlt (by unfold sizeofDentry at *; omega) hm)
      exact hl.after ⟨Nat.one_pos, by decide⟩ hrun hr hpos hnames

theorem inUse_of_lists (h : dev.Sound) (hl : Lists dev inode) : AllInUse dev inode := by
  have hmax : inode.size < minixBlockSize * maxBlocks := by
    by_contra hge
    exact not_lists_of_large h (not_lt.1 hge) hl
  have hones := hl.ones h hmax
  refine ⟨hmax, fun j hj => ?_, ?_⟩
  · by_cases hlj : Listed dev inode j
    · exact Or.inl (used_of_listed h hones hj hlj)
    · obtain ⟨hm, hend⟩ := not_or.1 hlj
      refine Or.inr ⟨hm, ?_, by unfold sizeofDentry at *; omega⟩
      by_contra hfirst
      -- the entry in front of it is in the hole, too, and is listed
      have hblock : (j - 1) / dentriesPerBlock = j / dentriesPerBlock := by
        unfold dentriesPerBlock minixBlockSize sizeofDentry at *
        omega
      have hbefore : Listed dev inode (j - 1) := by
        right
        unfold dentriesPerBlock minixBlockSize sizeofDentry at *
        omega
      exact hm (hblock ▸ mapped_of_used h (used_of_listed h hones (by omega) hbefore))
  · by_contra hnot
    obtain ⟨hmod, hsmall, hm⟩ := not_or.1 hnot |>.imp_right not_or.1
    have hm := not_not.1 hm
    obtain ⟨n, hn⟩ : ∃ n, inode.size / sizeofDentry = n + 1 :=
      ⟨inode.size / sizeofDentry - 1, by unfold sizeofDentry at *; omega⟩
    have hlisted : Listed dev inode n := by
      right
      unfold sizeofDentry at *
      omega
    rw [hn] at hones
    have hmapped := mapped_of_used h (used_of_listed h hones (Nat.lt_succ_self n) hlisted)
    have hbefore : n ≤ inode.size / sizeofDentry := by omega
    have hrun := ask_ones h n hbefore (by unfold dentriesPerBlock minixBlockSize sizeofDentry at *; omega)
    have hend : endOf inode (sizeofDentry * 2) (sizeofDentry * n) = inode.size := by
      unfold endOf sizeofDentry at *
      omega
    have hreadable : Readable dev inode (sizeofDentry * 2) (sizeofDentry * n) := by
      have hlast : lastOf inode (sizeofDentry * 2) (sizeofDentry * n) = inode.last := by
        unfold lastOf
        rw [hend]
        rfl
      rw [Readable, hlast]
      refine Or.inr ⟨?_, Or.inr ⟨?_, fun k h1 h2 => ?_, Or.inl hm⟩⟩
      · unfold minixBlockSize sizeofDentry at *
        omega
      · unfold Inode.last minixBlockSize at *
        omega
      · have hk : k = n / dentriesPerBlock := by
          unfold Inode.last dentriesPerBlock minixBlockSize sizeofDentry at *
          omega
        rwa [hk]
    have hread := fileRead_readable h hreadable
    have hrest : inode.size - sizeofDentry * n ≠ 0 := by
      unfold sizeofDentry at *
      omega
    rw [hend, if_pos hrest, Nat.add_sub_cancel' (by omega)] at hread
    obtain ⟨r, hr, hpos, hnames⟩ := ask_error ⟨Nat.two_pos, by decide⟩ hread (by unfold sizeofDentry at *; omega)
    have hfew := hl.after ⟨Nat.two_pos, by decide⟩ hrun hr hpos hnames
    rw [hn, ← hones, listed_succ, if_pos hlisted] at hfew
    simp at hfew

/-- **readdir lists the entries in use exactly when there are no others.** For every directory on a device without failures. -/
theorem lists_iff (h : dev.Sound) : Lists dev inode ↔ AllInUse dev inode := ⟨inUse_of_lists h, lists_of_inUse h⟩

/-- a disk of deleted entries with the name "a" -/
def deletedDisk : Device := ⟨fun _ => some fun i => if i % 16 = 2 then 97#8 else 0, fun _ => true⟩

/-- A deleted entry is listed. -/
theorem deleted_listed : deletedDisk.Sound ∧ readdirs deletedDisk ⟨16, fun _ => 1#16⟩ [ask 1] 0 = some ([[97#8]], 16) ∧
    ¬ Lists deletedDisk ⟨16, fun _ => 1#16⟩ := by
  have hrun : readdirs deletedDisk ⟨16, fun _ => 1#16⟩ [ask 1] 0 = some ([[97#8]], 16) := by decide +kernel
  refine ⟨fun _ => rfl, hrun, fun hl => ?_⟩
  obtain ⟨names, p, hsome, hend⟩ := hl [ask 1] (by simp [ask])
  obtain ⟨rfl, rfl⟩ := Prod.mk.inj (Option.some.inj (hrun.symm.trans hsome))
  have hlive : (⟨16, fun _ => 1#16⟩ : Inode).live deletedDisk 0 (16 / sizeofDentry) = [] := by decide +kernel
  exact List.cons_ne_nil _ _ ((hend le_rfl).trans hlive)

end SinsOs.Minix
