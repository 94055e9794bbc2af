/-
Looking a name up in a directory (minix_lookup, fs/minix/inode.c).

A directory is an array of 16-byte entries, 64 in a block. The scan holds the index of the entry and a pointer into the buffer
of the current block. The test whether the pointer is at the end of the block is the body of `if(minix_d->inr)`, because the
printk in between is not compiled: so it is made at entries in use only, after the entry has been read. A read is the block in
whose buffer it happens and the number of the entry behind the start of this block. iget and dget are the cache's. `none` is a
BUG_ON that fires, or the NULL pointer that is left behind a hole.

- `lookup_iff`: when the scan is right and stays in its block.
-/
import SinsOs.Fs.Minix.Read

namespace SinsOs.Minix

open SinsOs.Lib

/-! ## Model -/

def minixNameLen : ℕ := 14

/-- sizeof(struct minix_dentry) -/
def sizeofDentry : ℕ := 16

def dentriesPerBlock : ℕ := minixBlockSize / sizeofDentry

/-- minix_d->inr, for the entry at a place of the buffer -/
def slotInr (data : Ptr) (slot : ℕ) : ℕ := u16 data (8 * slot)

/-- minix_d->name -/
def slotName (data : Ptr) (slot : ℕ) : Ptr := data.add (16 * slot + 2)

structure Access where
  block : ℕ
  slot : ℕ
deriving DecidableEq, Repr

/-- i, minix_d and minix_block; `held` is false where minix_block is NULL, and minix_d then stays in the buffer of `block` -/
structure Cursor where
  i : ℕ
  block : ℕ
  data : Ptr
  slot : ℕ
  held : Bool

inductive Turn
  | found (c : Cursor)
  | next (c : Cursor)

/-- tmp_name_buf, from whatever is on the stack -/
def tmpNameBuf (stack : Ptr) (name : List Byte) : Ptr :=
  Function.update (strncpy stack (cstr name) name.length) name.length 0

def compareEntry (tmp : Ptr) (c : Cursor) : Turn :=
  if slotInr c.data c.slot ≠ 0 ∧ strncmp tmp (slotName c.data c.slot) minixNameLen = 0 then .found c
  else .next { c with i := c.i + 1, slot := c.slot + 1 }

/-- the block behind the last one, if there is one -/
def nextBlock (dev : Device) (block : ℕ) : Option Ptr := if block = 0 then none else getMinixBlock dev block

/-- one turn of the loop, and what it reads -/
def lookupTurn (dev : Device) (inode : Inode) (tmp : Ptr) (c : Cursor) : Option (Turn × List Access) :=
  if slotInr c.data c.slot ≠ 0 then
    if !c.held then none
    else if c.slot ≥ dentriesPerBlock then
      (bmap dev inode (c.i / dentriesPerBlock)).map fun block =>
        match nextBlock dev block with
        | none => (.next { c with i := c.i + dentriesPerBlock, held := false }, [⟨c.block, c.slot⟩])
        | some data => (compareEntry tmp ⟨c.i, block, data, 0, true⟩, [⟨c.block, c.slot⟩, ⟨block, 0⟩])
    else some (compareEntry tmp c, [⟨c.block, c.slot⟩])
  else some (compareEntry tmp c, [⟨c.block, c.slot⟩])

/-- the loop; every turn adds one to i at least -/
def lookupLoop (dev : Device) (inode : Inode) (tmp : Ptr) (dentries : ℕ) :
    ℕ → Cursor → Option (Option Cursor × List Access)
  | 0, _ => some (none, [])
  | fuel + 1, c =>
    if c.i < dentries then
      match lookupTurn dev inode tmp c with
      | none => none
      | some (.found c, reads) => some (some c, reads)
      | some (.next c, reads) => (lookupLoop dev inode tmp dentries fuel c).map fun r => (r.1, reads ++ r.2)
    else some (none, [])

/-- a dentry of the cache, with the bytes of its name -/
structure Dentry where
  addr : ℕ
  name : Ptr

/-- iget of an inode number, dget of an inode -/
structure Cache where
  iget : ℕ → Option ℕ
  dget : ℕ → Option Dentry

/-- the dentry that is returned, and its inode and name -/
structure Found where
  dentry : ℕ
  inode : ℕ
  name : Ptr

/-- dentry_ret->name, with the NUL at name_len -/
def storedName (old name : Ptr) : Ptr :=
  Function.update (strncpy old name minixNameLen) (strnlen name minixNameLen) 0

def loadEntry (cache : Cache) (c : Cursor) : Option Found :=
  (cache.iget (slotInr c.data c.slot)).bind fun i =>
    (cache.dget i).map fun d => ⟨d.addr, i, storedName d.name (slotName c.data c.slot)⟩

def minixLookup (dev : Device) (cache : Cache) (inode : Inode) (stack : Ptr) (name : List Byte) :
    Option (Option Found × List Access) :=
  let dentries := inode.size / sizeofDentry
  let block := (inode.zone 0).toNat
  if block = 0 then some (none, [])
  else match getMinixBlock dev block with
    | none => some (none, [])
    | some data =>
      (lookupLoop dev inode (tmpNameBuf stack name) dentries dentries ⟨0, block, data, 0, true⟩).map fun r =>
        (r.1.bind (loadEntry cache), r.2)

/-! ## The directory -/

/-- a block that minix_bmap gives -/
def Inode.dirBlock (inode : Inode) (dev : Device) (k : ℕ) : Option ℕ := (bmap dev inode k).filter (· ≠ 0)

/-- the inode number of entry j, which is 0 in a hole -/
def Inode.inrOf (inode : Inode) (dev : Device) (j : ℕ) : ℕ :=
  match inode.dirBlock dev (j / dentriesPerBlock) with
  | none => 0
  | some z => slotInr (dev.bytes z) (j % dentriesPerBlock)

def Inode.nameOf (inode : Inode) (dev : Device) (j : ℕ) : List Byte :=
  match inode.dirBlock dev (j / dentriesPerBlock) with
  | none => []
  | some z => strn minixNameLen (slotName (dev.bytes z) (j % dentriesPerBlock))

/-- entry j is in use and has the name -/
def Matches (dev : Device) (inode : Inode) (name : List Byte) (j : ℕ) : Prop :=
  j < inode.size / sizeofDentry ∧ inode.inrOf dev j ≠ 0 ∧ inode.nameOf dev j = name

instance (dev : Device) (inode : Inode) (name : List Byte) (j : ℕ) : Decidable (Matches dev inode name j) := by
  unfold Matches; infer_instance

/-- a dentry for an entry with the name, or NULL if there is none -/
def Answers (dev : Device) (cache : Cache) (inode : Inode) (name : List Byte) : Option Found → Prop
  | none => ∀ j, ¬ Matches dev inode name j
  | some f => ∃ j, Matches dev inode name j ∧ cache.iget (inode.inrOf dev j) = some f.inode ∧
      (cache.dget f.inode).map Dentry.addr = some f.dentry ∧ strn (minixNameLen + 1) f.name = name

/-- the bytes that are read belong to a block of the directory; the bytes behind a block are those of the next block of the disk
as far as its page goes -/
def Access.Inside (a : Access) (dev : Device) (inode : Inode) : Prop :=
  a.block % 4 + a.slot / dentriesPerBlock < 4 ∧ ∃ k, inode.dirBlock dev k = some (a.block + a.slot / dentriesPerBlock)

def Answered (dev : Device) (cache : Cache) (inode : Inode) (name : List Byte) : Prop :=
  ∀ stack, ∃ r, minixLookup dev cache inode stack name = some r ∧ Answers dev cache inode name r.1

/-- the answer, and bytes of the directory only -/
def Right (dev : Device) (cache : Cache) (inode : Inode) (name : List Byte) : Prop :=
  ∀ stack, ∃ r, minixLookup dev cache inode stack name = some r ∧ Answers dev cache inode name r.1 ∧
    ∀ a ∈ r.2, a.Inside dev inode

/-- minix_d is read in the block it was set to -/
def StaysIn (dev : Device) (cache : Cache) (inode : Inode) (name : List Byte) : Prop :=
  ∀ stack r, minixLookup dev cache inode stack name = some r → ∀ a ∈ r.2, a.slot < dentriesPerBlock

/-- the scan does not come to the end of the first block with entries left, and the inode of the entry it finds is loaded -/
def Within (dev : Device) (cache : Cache) (inode : Inode) (name : List Byte) : Prop :=
  if inode.zone 0 = 0 then ∀ j, ¬ Matches dev inode name j
  else (inode.size / sizeofDentry ≤ dentriesPerBlock ∨ ∃ j < dentriesPerBlock, Matches dev inode name j) ∧
    ∀ j, Matches dev inode name j → (∀ i < j, ¬ Matches dev inode name i) → (cache.iget (inode.inrOf dev j)).isSome

/-! ## Names -/

section Names

variable {name : List Byte}

/-- tmp_name_buf holds the component and a NUL -/
theorem strn_tmpNameBuf (stack : Ptr) (hlen : name.length ≤ minixNameLen) (hname : ∀ b ∈ name, b ≠ 0) :
    strn minixNameLen (tmpNameBuf stack name) = name := by
  have hend : tmpNameBuf stack name name.length = 0 := Function.update_self _ _ _
  have hcopy : ∀ i < name.length, tmpNameBuf stack name i = cstr name i := by
    intro i hi
    rw [tmpNameBuf, Function.update_of_ne hi.ne, strncpy_cstr name hname, if_pos hi]
  calc strn minixNameLen (tmpNameBuf stack name) = strn name.length (tmpNameBuf stack name) := strn_stop hend hlen
    _ = strn name.length (cstr name) := strn_congr hcopy
    _ = name := by rw [strn_cstr name hname, List.take_length]

/-- the name of the dentry is the name of the entry -/
theorem strn_storedName (old p : Ptr) : strn (minixNameLen + 1) (storedName old p) = strn minixNameLen p := by
  have hlen := strnlen_eq minixNameLen p
  have hle := strn_length_le minixNameLen p
  have hend : storedName old p (strnlen p minixNameLen) = 0 := Function.update_self _ _ _
  have hcopy : ∀ i < strnlen p minixNameLen, storedName old p i = cstr (strn minixNameLen p) i := by
    intro i hi
    rw [storedName, Function.update_of_ne hi.ne]
    exact strncpy_lt old p (by rwa [← hlen])
  calc strn (minixNameLen + 1) (storedName old p) = strn (strnlen p minixNameLen) (storedName old p) :=
        strn_stop hend (by omega)
    _ = strn (strnlen p minixNameLen) (cstr (strn minixNameLen p)) := strn_congr hcopy
    _ = strn minixNameLen p := by rw [strn_cstr _ (strn_ne_zero _ _), hlen, List.take_length]

end Names

/-! ## The scan of the first block -/

variable {dev : Device} {inode : Inode} {cache : Cache} {name : List Byte} {tmp data : Ptr} {block : ℕ}

/-- the cursor at entry i of the first block -/
def Cursor.at_ (block : ℕ) (data : Ptr) (i : ℕ) : Cursor := ⟨i, block, data, i, true⟩

/-- entry i of the block has the name -/
def Hit (tmp data : Ptr) (i : ℕ) : Prop := slotInr data i ≠ 0 ∧ strncmp tmp (slotName data i) minixNameLen = 0

theorem lookupTurn_at {i : ℕ} (hi : i < dentriesPerBlock) :
    lookupTurn dev inode tmp (.at_ block data i) = some (compareEntry tmp (.at_ block data i), [⟨block, i⟩]) := by
  unfold lookupTurn Cursor.at_
  rw [if_neg (by simp : ¬ (!true) = true), if_neg (not_le.2 hi), ite_self]

theorem compareEntry_hit {i : ℕ} (h : Hit tmp data i) :
    compareEntry tmp (.at_ block data i) = .found (.at_ block data i) := if_pos h

theorem compareEntry_miss {i : ℕ} (h : ¬ Hit tmp data i) :
    compareEntry tmp (.at_ block data i) = .next (.at_ block data (i + 1)) := if_neg h

/-- entries without the name are read one by one -/
theorem lookupLoop_walk (dentries fuel m : ℕ) : ∀ i, i + m ≤ dentriesPerBlock → i + m ≤ dentries →
    (∀ k, i ≤ k → k < i + m → ¬ Hit tmp data k) →
    lookupLoop dev inode tmp dentries (fuel + m) (.at_ block data i) =
      (lookupLoop dev inode tmp dentries fuel (.at_ block data (i + m))).map fun r =>
        (r.1, (List.range' i m).map (Access.mk block) ++ r.2) := by
  induction m with
  | zero =>
    intro i _ _ _
    simp
  | succ m ih =>
    intro i hblock hend hmiss
    have hlt : i < dentries := by omega
    have hrest := ih (i + 1) (by omega) (by omega) fun k h1 h2 => hmiss k (by omega) (by omega)
    rw [← Nat.add_assoc fuel, lookupLoop, if_pos (show (Cursor.at_ block data i).i < dentries from hlt),
      lookupTurn_at (by omega), compareEntry_miss (hmiss i le_rfl (by omega))]
    dsimp only
    rw [hrest, Option.map_map, List.range'_succ, List.map_cons, Nat.add_assoc i, Nat.add_comm 1 m]
    rfl

/-- the scan stops at the first entry with the name -/
theorem lookupLoop_found {dentries fuel j : ℕ} (hj : j < dentriesPerBlock) (hend : j < dentries) (hfuel : j < fuel)
    (hmiss : ∀ k < j, ¬ Hit tmp data k) (hhit : Hit tmp data j) :
    lookupLoop dev inode tmp dentries fuel (.at_ block data 0) =
      some (some (.at_ block data j), (List.range' 0 (j + 1)).map (Access.mk block)) := by
  obtain ⟨rest, rfl⟩ : ∃ rest, fuel = rest + 1 + j := ⟨fuel - 1 - j, by omega⟩
  rw [lookupLoop_walk dentries (rest + 1) j 0 (by omega) (by omega) fun k _ hk => hmiss k (by omega), Nat.zero_add, lookupLoop,
    if_pos (show (Cursor.at_ block data j).i < dentries from hend), lookupTurn_at hj, compareEntry_hit hhit]
  simp [List.range'_concat]

/-- the scan of a directory of one block reads all of it -/
theorem lookupLoop_end {dentries : ℕ} (hblock : dentries ≤ dentriesPerBlock) (hmiss : ∀ k < dentries, ¬ Hit tmp data k) :
    lookupLoop dev inode tmp dentries dentries (.at_ block data 0) =
      some (none, (List.range' 0 dentries).map (Access.mk block)) := by
  have hwalk : lookupLoop dev inode tmp dentries (0 + dentries) (.at_ block data 0) = _ :=
    lookupLoop_walk dentries 0 dentries 0 (by omega) (by omega) fun k _ hk => hmiss k (by omega)
  rw [Nat.zero_add] at hwalk
  rw [hwalk, lookupLoop]
  simp

/-- a turn reads at minix_d -/
theorem lookupTurn_reads {c : Cursor} {t : Turn} {reads : List Access} (h : lookupTurn dev inode tmp c = some (t, reads)) :
    (⟨c.block, c.slot⟩ : Access) ∈ reads := by
  unfold lookupTurn at h
  split_ifs at h
  · obtain ⟨b, -, hb⟩ := Option.map_eq_some_iff.1 h
    cases hnext : nextBlock dev b with
    | none =>
      rw [hnext] at hb
      cases hb
      exact List.mem_cons_self
    | some data =>
      rw [hnext] at hb
      cases hb
      exact List.mem_cons_self
  · cases h
    exact List.mem_cons_self
  · cases h
    exact List.mem_cons_self

/-- a longer scan reads behind the first block -/
theorem lookupLoop_out {dentries : ℕ} (hblock : dentriesPerBlock < dentries)
    (hmiss : ∀ k < dentriesPerBlock, ¬ Hit tmp data k) {r : Option Cursor × List Access}
    (h : lookupLoop dev inode tmp dentries dentries (.at_ block data 0) = some r) :
    (⟨block, dentriesPerBlock⟩ : Access) ∈ r.2 := by
  obtain ⟨rest, hrest⟩ : ∃ rest, dentries = rest + 1 + dentriesPerBlock := ⟨dentries - 1 - dentriesPerBlock, by omega⟩
  have hwalk : lookupLoop dev inode tmp dentries (rest + 1 + dentriesPerBlock) (.at_ block data 0) = _ :=
    lookupLoop_walk dentries (rest + 1) dentriesPerBlock 0 (by omega) (by omega) fun k _ hk => hmiss k (by omega)
  rw [← hrest, h, Nat.zero_add, lookupLoop,
    if_pos (show (Cursor.at_ block data dentriesPerBlock).i < dentries from hblock)] at hwalk
  cases hturn : lookupTurn dev inode tmp (.at_ block data dentriesPerBlock) with
  | none =>
    rw [hturn] at hwalk
    cases hwalk
  | some t =>
    obtain ⟨t, reads⟩ := t
    have hread := lookupTurn_reads hturn
    rw [hturn] at hwalk
    cases t with
    | found c =>
      cases hwalk
      exact List.mem_append_right _ hread
    | next c =>
      obtain ⟨r', hr', hr⟩ := Option.map_eq_some_iff.1 hwalk.symm
      obtain ⟨r'', -, rfl⟩ := Option.map_eq_some_iff.1 hr'
      rw [← hr]
      exact List.mem_append_right _ (List.mem_append_left _ hread)

/-! ## When the scan is right -/

theorem dirBlock_zero : inode.dirBlock dev 0 = if inode.zone 0 = 0 then none else some (inode.zone 0).toNat := by
  have hzone : inode.zone 0 = 0 ↔ (inode.zone 0).toNat = 0 := by
    rw [← BitVec.toNat_inj]
    rfl
  have hbmap : bmap dev inode 0 = some (inode.zone 0).toNat := by
    rw [bmap, if_neg (by decide), if_pos (by decide)]
  rw [Inode.dirBlock, hbmap]
  by_cases hz : inode.zone 0 = 0
  · rw [if_pos hz, hzone.1 hz]
    rfl
  · rw [if_neg hz]
    exact Option.filter_eq_some_iff.2 ⟨rfl, by simpa using fun h => hz (hzone.2 h)⟩

/-- the entries of the first block are in its buffer -/
theorem entry_first (hz : inode.zone 0 ≠ 0) {j : ℕ} (hj : j < dentriesPerBlock) :
    inode.inrOf dev j = slotInr (dev.bytes (inode.zone 0).toNat) j ∧
      inode.nameOf dev j = strn minixNameLen (slotName (dev.bytes (inode.zone 0).toNat) j) := by
  have hblock : inode.dirBlock dev (j / dentriesPerBlock) = some (inode.zone 0).toNat := by
    rw [Nat.div_eq_of_lt hj, dirBlock_zero, if_neg hz]
  simp only [Inode.inrOf, Inode.nameOf, hblock, Nat.mod_eq_of_lt hj, and_self]

theorem match_iff_hit (hz : inode.zone 0 ≠ 0) (hlen : name.length ≤ minixNameLen) (hname : ∀ b ∈ name, b ≠ 0)
    (stack : Ptr) {j : ℕ} (hj : j < dentriesPerBlock) : Matches dev inode name j ↔ j < inode.size / sizeofDentry ∧
      Hit (tmpNameBuf stack name) (dev.bytes (inode.zone 0).toNat) j := by
  obtain ⟨hinr, hnameOf⟩ := @entry_first dev inode hz j hj
  rw [Matches, Hit, hinr, hnameOf, strncmp_eq_zero, strn_tmpNameBuf stack hlen hname, eq_comm (a := name)]

/-- entries of the first block only, or a match there -/
def Fits (dev : Device) (inode : Inode) (name : List Byte) : Prop :=
  inode.size / sizeofDentry ≤ dentriesPerBlock ∨ ∃ j < dentriesPerBlock, Matches dev inode name j

/-- **The scan of the first block.** It finds the first entry with the name and reads in the block. -/
theorem minixLookup_fits (h : dev.Sound) (hz : inode.zone 0 ≠ 0) (hlen : name.length ≤ minixNameLen)
    (hname : ∀ b ∈ name, b ≠ 0) (hfits : Fits dev inode name) :
    ∃ find reads, (∀ stack, minixLookup dev cache inode stack name = some (find, reads)) ∧
      (∀ a ∈ reads, a.block = (inode.zone 0).toNat ∧ a.slot < dentriesPerBlock) ∧
      ((∃ j < dentriesPerBlock, Matches dev inode name j ∧ (∀ i < j, ¬ Matches dev inode name i) ∧
          find = loadEntry cache (.at_ (inode.zone 0).toNat (dev.bytes (inode.zone 0).toNat) j)) ∨
        (∀ j, ¬ Matches dev inode name j) ∧ find = none) := by
  have hz' : (inode.zone 0).toNat ≠ 0 := fun h0 => hz (BitVec.eq_of_toNat_eq h0)
  have hreads : ∀ n ≤ dentriesPerBlock, ∀ a ∈ (List.range' 0 n).map (Access.mk (inode.zone 0).toNat),
      a.block = (inode.zone 0).toNat ∧ a.slot < dentriesPerBlock := by
    intro n hn a ha
    obtain ⟨s, hs, rfl⟩ := List.mem_map.1 ha
    have hlt : s < 0 + n := (List.mem_range'_1.1 hs).2
    exact ⟨rfl, show s < dentriesPerBlock by omega⟩
  by_cases hmatch : ∃ j, Matches dev inode name j
  · obtain ⟨j, hj, hfirst⟩ : ∃ j, Matches dev inode name j ∧ ∀ i < j, ¬ Matches dev inode name i :=
      ⟨Nat.find hmatch, Nat.find_spec hmatch, fun i hi => Nat.find_min hmatch hi⟩
    have hblock : j < dentriesPerBlock := by
      rcases hfits with hn | ⟨i, hi, him⟩
      · exact Nat.lt_of_lt_of_le hj.1 hn
      · by_contra hge
        exact hfirst i (by omega) him
    refine ⟨_, _, fun stack => ?_, hreads (j + 1) hblock, Or.inl ⟨j, hblock, hj, hfirst, rfl⟩⟩
    have hloop : lookupLoop dev inode (tmpNameBuf stack name) _ _ (.at_ (inode.zone 0).toNat _ 0) = _ :=
      lookupLoop_found hblock hj.1 hj.1
        (fun k hk hhit => hfirst k hk ((match_iff_hit hz hlen hname stack (hk.trans hblock)).2 ⟨hk.trans hj.1, hhit⟩))
        ((match_iff_hit hz hlen hname stack hblock).1 hj).2
    simp only [minixLookup, if_neg hz', h.block, ← Cursor.at_.eq_1, hloop]
    rfl
  · have hnone : ∀ j, ¬ Matches dev inode name j := fun j hj => hmatch ⟨j, hj⟩
    have hn : inode.size / sizeofDentry ≤ dentriesPerBlock := by
      rcases hfits with hn | ⟨i, -, him⟩
      · exact hn
      · exact absurd him (hnone i)
    refine ⟨_, _, fun stack => ?_, hreads _ hn, Or.inr ⟨hnone, rfl⟩⟩
    have hloop : lookupLoop dev inode (tmpNameBuf stack name) _ _ (.at_ (inode.zone 0).toNat _ 0) = _ :=
      lookupLoop_end hn fun k hk hhit => hnone k ((match_iff_hit hz hlen hname stack (by omega)).2 ⟨hk, hhit⟩)
    simp only [minixLookup, if_neg hz', h.block, ← Cursor.at_.eq_1, hloop]
    rfl

/-- a longer scan of a directory without the name in its first block leaves the block -/
theorem minixLookup_leaves (h : dev.Sound) (hz : inode.zone 0 ≠ 0) (hlen : name.length ≤ minixNameLen)
    (hname : ∀ b ∈ name, b ≠ 0) (hfits : ¬ Fits dev inode name) (stack : Ptr) {r : Option Found × List Access}
    (hr : minixLookup dev cache inode stack name = some r) :
    (⟨(inode.zone 0).toNat, dentriesPerBlock⟩ : Access) ∈ r.2 := by
  have hz' : (inode.zone 0).toNat ≠ 0 := fun h0 => hz (BitVec.eq_of_toNat_eq h0)
  obtain ⟨hn, hmiss⟩ := not_or.1 hfits
  simp only [minixLookup, if_neg hz', h.block, ← Cursor.at_.eq_1] at hr
  obtain ⟨r', hr', rfl⟩ := Option.map_eq_some_iff.1 hr
  refine lookupLoop_out (not_le.1 hn) (fun k hk hhit => hmiss ⟨k, hk, ?_⟩) hr'
  exact (match_iff_hit hz hlen hname stack hk).2 ⟨by omega, hhit⟩

theorem loadEntry_isSome (c : Cursor) (hdget : ∀ i, (cache.dget i).isSome) :
    (loadEntry cache c).isSome ↔ (cache.iget (slotInr c.data c.slot)).isSome := by
  rw [loadEntry]
  cases cache.iget (slotInr c.data c.slot) with
  | none => rfl
  | some i => simpa using hdget i

/-- what is found at an entry of the first block is a dentry for the entry -/
theorem loadEntry_answers (hz : inode.zone 0 ≠ 0) {j : ℕ} (hblock : j < dentriesPerBlock) (hj : Matches dev inode name j)
    {f : Found} (hf : loadEntry cache (.at_ (inode.zone 0).toNat (dev.bytes (inode.zone 0).toNat) j) = some f) :
    Answers dev cache inode name (some f) := by
  obtain ⟨hinr, hnameOf⟩ := @entry_first dev inode hz j hblock
  obtain ⟨i, hi, hrest⟩ := Option.bind_eq_some_iff.1 hf
  obtain ⟨d, hd, rfl⟩ := Option.map_eq_some_iff.1 hrest
  refine ⟨j, hj, hinr ▸ hi, ?_, ?_⟩
  · rw [hd]
    rfl
  · exact (strn_storedName _ _).trans (hnameOf ▸ hj.2.2)

/-- the scan of a directory without a first block -/
theorem minixLookup_hole (hz : inode.zone 0 = 0) (stack : Ptr) : minixLookup dev cache inode stack name = some (none, []) := by
  rw [minixLookup]
  exact if_pos (congrArg BitVec.toNat hz)

/-- a scan that stays in its block and gives NULL for names that are not there only -/
theorem within_of_stays (h : dev.Sound) (hdget : ∀ i, (cache.dget i).isSome) (hlen : name.length ≤ minixNameLen)
    (hname : ∀ b ∈ name, b ≠ 0) (hstays : StaysIn dev cache inode name) {stack : Ptr} {r : Option Found × List Access}
    (hr : minixLookup dev cache inode stack name = some r) (hnull : r.1 = none → ∀ j, ¬ Matches dev inode name j) :
    Within dev cache inode name := by
  rw [Within]
  by_cases hz : inode.zone 0 = 0
  · rw [minixLookup_hole hz] at hr
    cases hr
    rw [if_pos hz]
    exact hnull rfl
  rw [if_neg hz]
  have hfits : Fits dev inode name := by
    by_contra hfits
    have hout := minixLookup_leaves h hz hlen hname hfits _ hr
    exact lt_irrefl _ (hstays _ r hr _ hout)
  refine ⟨hfits, fun j hj hfirst => ?_⟩
  obtain ⟨find, reads, hrun, -, hfind⟩ := @minixLookup_fits dev inode cache name h hz hlen hname hfits
  rw [hrun] at hr
  cases hr
  rcases hfind with ⟨i, hi, him, hifirst, rfl⟩ | ⟨hnone, -⟩
  · have heq : i = j := le_antisymm (not_lt.1 fun hlt => hifirst j hlt hj) (not_lt.1 fun hlt => hfirst i hlt him)
    rw [← heq, (entry_first hz hi).1]
    refine (loadEntry_isSome (.at_ (inode.zone 0).toNat (dev.bytes (inode.zone 0).toNat) i) hdget).1 ?_
    by_contra hload
    exact hnull (Option.not_isSome_iff_eq_none.1 hload) i him
  · exact absurd hj (hnone j)

theorem answered_of_within (h : dev.Sound) (hdget : ∀ i, (cache.dget i).isSome) (hlen : name.length ≤ minixNameLen)
    (hname : ∀ b ∈ name, b ≠ 0) (hw : Within dev cache inode name) :
    Answered dev cache inode name ∧ StaysIn dev cache inode name := by
  rw [Within] at hw
  by_cases hz : inode.zone 0 = 0
  · rw [if_pos hz] at hw
    refine ⟨fun stack => ⟨_, minixLookup_hole hz stack, hw⟩, fun stack r hr => ?_⟩
    rw [minixLookup_hole hz] at hr
    cases hr
    simp
  rw [if_neg hz] at hw
  obtain ⟨hfits, hload⟩ := hw
  obtain ⟨find, reads, hrun, hreads, hfind⟩ := @minixLookup_fits dev inode cache name h hz hlen hname hfits
  refine ⟨fun stack => ⟨_, hrun stack, ?_⟩, fun stack r hr => ?_⟩
  · rcases hfind with ⟨i, hi, him, hifirst, rfl⟩ | ⟨hnone, rfl⟩
    · have hinr := hload i him hifirst
      rw [(entry_first hz hi).1] at hinr
      obtain ⟨f, hf⟩ := Option.isSome_iff_exists.1
        ((loadEntry_isSome (.at_ (inode.zone 0).toNat (dev.bytes _) i) hdget).2 hinr)
      rw [hf]
      exact loadEntry_answers hz hi him hf
    · exact hnone
  · rw [hrun] at hr
    cases hr
    exact fun a ha => (hreads a ha).2

/-- what is read is in the first block -/
theorem reads_inside (h : dev.Sound) (hlen : name.length ≤ minixNameLen) (hname : ∀ b ∈ name, b ≠ 0)
    (hw : Within dev cache inode name) {stack : Ptr} {r : Option Found × List Access}
    (hr : minixLookup dev cache inode stack name = some r) : ∀ a ∈ r.2, a.Inside dev inode := by
  rw [Within] at hw
  by_cases hz : inode.zone 0 = 0
  · rw [minixLookup_hole hz] at hr
    cases hr
    simp
  · rw [if_neg hz] at hw
    obtain ⟨find, reads, hrun, hreads, -⟩ := @minixLookup_fits dev inode cache name h hz hlen hname hw.1
    rw [hrun] at hr
    cases hr
    intro a ha
    obtain ⟨hblock, hslot⟩ := hreads a ha
    rw [Access.Inside, Nat.div_eq_of_lt hslot, hblock]
    exact ⟨Nat.mod_lt _ (by decide), 0, by rw [dirBlock_zero, if_neg hz, Nat.add_zero]⟩

/-- **When minix_lookup is right.** Without disk and memory failures it returns a dentry for an entry with the name or NULL if
there is none, reads bytes of the directory only, and reads them in the block its pointer is in, exactly when the directory has
no first block and no entry with the name, or has at most 64 entries or a match among the first 64, and iget gives the inode of
the first match. -/
theorem lookup_iff (dev : Device) (cache : Cache) (inode : Inode) (name : List Byte) (h : dev.Sound)
    (hdget : ∀ i, (cache.dget i).isSome) (hlen : name.length ≤ minixNameLen) (hname : ∀ b ∈ name, b ≠ 0) :
    Right dev cache inode name ∧ StaysIn dev cache inode name ↔ Within dev cache inode name := by
  constructor
  · rintro ⟨hright, hstays⟩
    obtain ⟨r, hr, hanswer, -⟩ := hright fun _ => 0
    refine within_of_stays h hdget hlen hname hstays hr fun hnone => ?_
    rw [hnone] at hanswer
    exact hanswer
  · intro hw
    obtain ⟨hanswered, hstays⟩ := answered_of_within h hdget hlen hname hw
    refine ⟨fun stack => ?_, hstays⟩
    obtain ⟨r, hr, hanswer⟩ := hanswered stack
    exact ⟨r, hr, hanswer, reads_inside h hlen hname hw hr⟩

/-! ## A directory of 65 entries -/

/-- blocks 4 to 7 are the second page: "." and ".." in block 4, and a free block behind it; "b" is the first entry of block 8 -/
def dirDisk : Device where
  bread := fun n => some fun o =>
    if n = 1 then if o = 0 ∨ o = 16 then 1 else if o = 2 ∨ o = 18 ∨ o = 19 then 0x2e else 0
    else if n = 2 then if o = 0 then 2 else if o = 2 then 0x62 else 0
    else 0
  kmalloc := fun _ => true

/-- 65 entries, in blocks 4 and 8 -/
def dirInode : Inode := ⟨1040, fun i => if i = 0 then 4 else if i = 1 then 8 else 0⟩

def fullCache : Cache := ⟨fun nr => some nr, fun i => some ⟨i, fun _ => 0⟩⟩

theorem dirDisk_sound : dirDisk.Sound := fun _ => rfl

/-- ".." is found -/
theorem lookup_dotdot : Right dirDisk fullCache dirInode [0x2e, 0x2e] ∧ StaysIn dirDisk fullCache dirInode [0x2e, 0x2e] := by
  refine (lookup_iff dirDisk fullCache dirInode [0x2e, 0x2e] dirDisk_sound (fun _ => rfl) (by decide) (by decide)).2 ?_
  rw [Within, if_neg (by decide)]
  exact ⟨Or.inr ⟨1, by decide, by decide⟩, fun _ _ _ => rfl⟩

/-- The free block behind block 4 has no entry in use, so the end of block 4 is not seen and "b" is not found. -/
theorem lookup_misses : dirDisk.Sound ∧ (∀ i, (fullCache.dget i).isSome) ∧ Matches dirDisk dirInode [0x62] 64 ∧
    ¬ Right dirDisk fullCache dirInode [0x62] := by
  refine ⟨dirDisk_sound, fun _ => rfl, by decide, fun hright => ?_⟩
  obtain ⟨r, hr, hanswer, -⟩ := hright fun _ => 0
  have hrun : (minixLookup dirDisk fullCache dirInode (fun _ => 0) [0x62]).map (fun r => r.1.isNone) = some true := by
    decide +kernel
  rw [hr, Option.map_some, Option.some.injEq, Option.isNone_iff_eq_none] at hrun
  rw [hrun] at hanswer
  exact hanswer 64 (by decide)

end SinsOs.Minix
