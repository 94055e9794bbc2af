/-
What the minix code does when calls fail: bread and brelse (fs/block_dev.c), get_minix_block and _bmap (fs/minix/block.c) and
minix_read_inode (fs/minix/inode.c).

A call is a kmalloc, a get_free_page, a read or a write of the disk. The calls of a run have numbers, and each can fail
(`Env.fails`). The memory is the multiset of what was obtained and not given back, an object by the number of the call it is
from, so a leak is something left in it and a second release is a fault. The device has a driver, and no other task runs: the
second look of iget into the cache finds what the first one found. The BUG_ONs on NULL arguments are the types of the
arguments, and `block` of minix_bmap is called `k` here.

- `bread_handled`, `get_handled`, `readInode_handled`, `bmap_handled`: which failures the four functions below the loops handle.
-/
import SinsOs.Fs.Minix.Lookup

namespace SinsOs.Minix.Failures

open SinsOs.Lib SinsOs.Minix

/-! ## Calls -/

/-- the device and its super block, the caches by the number of the inode (the names of the dentries, whose inodes are cached
too), what fails, and what free memory holds -/
structure Env where
  disk : ℕ → Ptr
  imapBlocks : ℕ
  zmapBlocks : ℕ
  inodeCached : ℕ → Bool
  dentryCached : ℕ → Option Ptr
  cached : ∀ nr, inodeCached nr = false → dentryCached nr = none
  fails : ℕ → Bool
  stale : ℕ → Ptr

inductive Obj
  | block (id : ℕ)
  | page (id : ℕ)
  | minixBlock (id : ℕ)
  | inode (nr : ℕ)
  | dentry (nr : ℕ)
  | parent
deriving DecidableEq, Repr

/-- what was obtained and not given back, and the number of the next call -/
structure World where
  held : Multiset Obj
  calls : ℕ

/-- what stops the kernel: a NULL pointer that is followed, a BUG_ON, the release of something that is not there -/
inductive Fault
  | null
  | bug
  | free
deriving DecidableEq, Repr

/-- a call that obtains something, or does not -/
def alloc (env : Env) (obj : ℕ → Obj) (w : World) : Option ℕ × World :=
  if env.fails w.calls then (none, { w with calls := w.calls + 1 })
  else (some w.calls, ⟨obj w.calls ::ₘ w.held, w.calls + 1⟩)

def release (o : Obj) (w : World) : Except Fault World :=
  if o ∈ w.held then .ok { w with held := w.held.erase o } else .error .free

/-! ## fs/block_dev.c -/

structure Block where
  id : ℕ
  page : ℕ
  data : Ptr
  dirty : Bool

def getEmptyBlk (env : Env) (w : World) : Except Fault (Option Block × World) :=
  match alloc env .block w with
  | (none, w) => .ok (none, w)
  | (some id, w) =>
    match alloc env .page w with
    | (none, w) => do
      let w ← release (.block id) w
      .ok (none, w)
    | (some page, w) => .ok (some ⟨id, page, env.stale page, false⟩, w)

def putBlk (blk : Block) (w : World) : Except Fault World := do
  let w ← release (.page blk.page) w
  release (.block blk.id) w

def bread (env : Env) (blockNr : ℕ) (w : World) : Except Fault (Option Block × World) := do
  let (blk, w) ← getEmptyBlk env w
  match blk with
  | none => .ok (none, w)
  | some blk =>
    -- the handler sets `uptodate` when the block was read
    if env.fails w.calls then do
      let w ← putBlk blk { w with calls := w.calls + 1 }
      .ok (none, w)
    else .ok (some { blk with data := env.disk blockNr }, { w with calls := w.calls + 1 })

def brelse (env : Env) (blk : Block) (w : World) : Except Fault World :=
  if blk.dirty then
    -- a write that fails leaves `dirty` set, and the BUG_ON fires
    if env.fails w.calls then .error .bug else putBlk blk { w with calls := w.calls + 1 }
  else putBlk blk w

/-! ## fs/minix/block.c -/

/-- struct minix_block -/
structure Mb where
  id : ℕ
  data : Ptr
  blk : Block
  dirty : Bool

def getMinixBlock (env : Env) (minixBlocks : ℕ) (w : World) : Except Fault (Option Mb × World) := do
  let block := minixBlocks / (blockSize / minixBlockSize)
  let offset := minixBlocks % (blockSize / minixBlockSize) * minixBlockSize
  let (blk, w) ← bread env block w
  match blk with
  | none => .ok (none, w)
  | some blk =>
    match alloc env .minixBlock w with
    | (none, w) => .ok (none, w)
    | (some id, w) => .ok (some ⟨id, blk.data.add offset, blk, false⟩, w)

def putMinixBlock (env : Env) (mb : Mb) (w : World) : Except Fault World := do
  let w ← brelse env { mb.blk with dirty := mb.blk.dirty || mb.dirty } w
  release (.minixBlock mb.id) w

/-- entry i of a table of zones, which _bmap reads in three places; 0 when the table is not there -/
def tableEntry (env : Env) (table i : ℕ) (w : World) : Except Fault (ℕ × World) := do
  let (blk, w) ← getMinixBlock env table w
  match blk with
  | none => .ok (0, w)
  | some blk => do
    let w ← putMinixBlock env blk w
    .ok (u16 blk.data i, w)

/-- _bmap; what it would do with `create` is not written -/
def bmap (env : Env) (inode : Inode) (block : ℕ) (w : World) : Except Fault (ℕ × World) :=
  if block ≥ maxBlocks then .error .bug
  else if block < 7 then .ok ((inode.zone block).toNat, w)
  else
    let block := block - 7
    if block < 512 then
      if inode.zone 7 = 0 then .ok (0, w) else tableEntry env (inode.zone 7).toNat block w
    else
      let block := block - 512
      if inode.zone 8 = 0 then .ok (0, w)
      else do
        let (i, w) ← tableEntry env (inode.zone 8).toNat (block / 512) w
        if i = 0 then .ok (0, w) else tableEntry env i (block % 512) w

/-- a block of a file, as minix_file_read and minix_lookup get it: `some none` is a hole, `none` a block that is not read -/
def fileBlock (env : Env) (inode : Inode) (k : ℕ) (w : World) : Except Fault (Option (Option Mb) × World) := do
  let (nr, w) ← bmap env inode k w
  if nr ≠ 0 then do
    let (mb, w) ← getMinixBlock env nr w
    .ok (mb.map some, w)
  else .ok (some none, w)

/-! ## minix_read_inode -/

inductive FileType
  | dir
  | reg
  | chr
  | blk
deriving DecidableEq, Repr

def fileType (mode : ℕ) : Option FileType :=
  if mode &&& 0o170000 = 0o040000 then some .dir
  else if mode &&& 0o170000 = 0o100000 then some .reg
  else if mode &&& 0o170000 = 0o020000 then some .chr
  else if mode &&& 0o170000 = 0o060000 then some .blk
  else none

/-- MKDEV of a zone of a device file -/
def mkdev (zone : ℕ) : ℕ := zone / 256 * 2 ^ 20 + zone % 256

/-- what is stored in the struct inode; rdev of a device only -/
structure Loaded where
  mode : FileType
  uid : ℕ
  size : ℕ
  mtime : ℕ
  gid : ℕ
  nlinks : ℕ
  rdev : Option ℕ
  zone : ℕ → ℕ

def inodesPerBlock : ℕ := 32

/-- the fields of a struct minix_d_inode -/
def readDInode (d : Ptr) : Option Loaded :=
  (fileType (u16 d 0)).map fun mode =>
    { mode
      uid := u16 d 1
      size := u16 d 2 + 65536 * u16 d 3
      mtime := u16 d 4 + 65536 * u16 d 5
      gid := (d 12).toNat
      nlinks := (d 13).toNat
      rdev := if mode = .chr ∨ mode = .blk then some (mkdev (u16 d 7)) else none
      zone := fun i => u16 d (7 + i) }

/-- `none` is -ERROR -/
def minixReadInode (env : Env) (nr : ℕ) (w : World) : Except Fault (Option Loaded × World) := do
  let blkNr := 2 + env.imapBlocks + env.zmapBlocks + (nr - 1) / inodesPerBlock
  let (block, w) ← getMinixBlock env blkNr w
  match block with
  -- block->data is read before the test of block
  | none => .error .null
  | some block => do
    let dInode := block.data.add (32 * ((nr - 1) % inodesPerBlock))
    let w ← putMinixBlock env block w
    .ok (readDInode dInode, w)

/-! ## Which calls fail -/

/-- the k calls from call n on do not fail -/
def Env.Quiet (env : Env) (n k : ℕ) : Prop := ∀ i < k, env.fails (n + i) = false

instance (env : Env) (n k : ℕ) : Decidable (env.Quiet n k) := inferInstanceAs (Decidable (∀ i < k, _))

/-- of the calls from call n on, call n + i is the first that fails -/
def Env.First (env : Env) (n i : ℕ) : Prop := env.Quiet n i ∧ env.fails (n + i) = true

/-- one of the calls [a, b) fails -/
def Env.Failed (env : Env) (a b : ℕ) : Prop := ∃ n, a ≤ n ∧ n < b ∧ env.fails n = true

variable {env : Env} {n m k i j z : ℕ} {w : World} {held : Multiset Obj}

theorem quiet_or_first (env : Env) (n k : ℕ) : env.Quiet n k ∨ ∃ i < k, env.First n i := by
  induction k with
  | zero => exact Or.inl fun i hi => absurd hi (Nat.not_lt_zero i)
  | succ k ih =>
    rcases ih with hq | ⟨i, hi, hf⟩
    · cases hk : env.fails (n + k) with
      | false =>
        refine Or.inl fun i hi => ?_
        rcases Nat.lt_succ_iff_lt_or_eq.1 hi with hlt | rfl
        · exact hq i hlt
        · exact hk
      | true => exact Or.inr ⟨k, Nat.lt_succ_self k, hq, hk⟩
    · exact Or.inr ⟨i, Nat.lt_succ_of_lt hi, hf⟩

theorem Env.Quiet.mono (h : env.Quiet n k) (hm : m ≤ k) : env.Quiet n m := fun i hi => h i (Nat.lt_of_lt_of_le hi hm)

theorem Env.Quiet.tail (h : env.Quiet n (m + k)) : env.Quiet (n + m) k := by
  intro i hi
  rw [Nat.add_assoc]
  exact h (m + i) (Nat.add_lt_add_left hi m)

theorem Env.Quiet.append (h : env.Quiet n m) (h' : env.Quiet (n + m) k) : env.Quiet n (m + k) := by
  intro i hi
  rcases Nat.lt_or_ge i m with hlt | hge
  · exact h i hlt
  · obtain ⟨j, rfl⟩ := Nat.exists_eq_add_of_le hge
    rw [← Nat.add_assoc]
    exact h' j (Nat.lt_of_add_lt_add_left hi)

theorem Env.Quiet.not_failed (h : env.Quiet n k) : ¬ env.Failed n (n + k) := by
  rintro ⟨c, hn, hk, hf⟩
  obtain ⟨i, rfl⟩ := Nat.exists_eq_add_of_le hn
  rw [h i (Nat.lt_of_add_lt_add_left hk)] at hf
  cases hf

/-- behind calls that do not fail -/
theorem Env.Quiet.failed_iff (h : env.Quiet n k) (m : ℕ) : env.Failed n m ↔ env.Failed (n + k) m := by
  constructor
  · rintro ⟨c, hn, hm, hf⟩
    refine ⟨c, Nat.le_of_not_lt fun hlt => h.not_failed ⟨c, hn, hlt, hf⟩, hm, hf⟩
  · rintro ⟨c, hn, hm, hf⟩
    exact ⟨c, Nat.le_of_add_right_le hn, hm, hf⟩

theorem Env.First.failed (h : env.First n i) (hm : n + i < m) : env.Failed n m := ⟨n + i, Nat.le_add_right n i, hm, h.2⟩

theorem Env.First.not_quiet (h : env.First n i) (hk : i < k) : ¬ env.Quiet n k := by
  intro hq
  have hf := h.2
  rw [hq i hk] at hf
  cases hf

theorem Env.First.unique (h : env.First n i) (h' : env.First n j) : i = j :=
  Nat.le_antisymm (Nat.le_of_not_lt fun hlt => h'.not_quiet hlt h.1) (Nat.le_of_not_lt fun hlt => h.not_quiet hlt h'.1)

theorem Env.First.tail (h : env.First n (m + i)) : env.First (n + m) i :=
  ⟨h.1.tail, by rw [Nat.add_assoc]; exact h.2⟩

/-! ## Blocks -/

def Block.objs (b : Block) : Multiset Obj := .page b.page ::ₘ {.block b.id}

def Mb.objs (mb : Mb) : Multiset Obj := .minixBlock mb.id ::ₘ mb.blk.objs

/-- nothing to write -/
def Mb.Clean (mb : Mb) : Prop := mb.blk.dirty = false ∧ mb.dirty = false

/-- the block that the calls n, n + 1 and n + 2 of bread give -/
def Env.blockAt (env : Env) (n blockNr : ℕ) : Block := ⟨n, n + 1, env.disk blockNr, false⟩

/-- the device without failures -/
def Env.device (env : Env) : Device := ⟨fun b => some (env.disk b), fun _ => true⟩

/-- the block that the calls n to n + 3 of get_minix_block give -/
def Env.mbAt (env : Env) (n z : ℕ) : Mb :=
  ⟨n + 3, env.device.bytes z, env.blockAt n (z / (blockSize / minixBlockSize)), false⟩

/-- what get_minix_block loses when the first call that fails is its kmalloc, the last of four -/
def lost (n i : ℕ) : Multiset Obj := if i % 4 = 3 then .page (n + i - 2) ::ₘ {.block (n + i - 3)} else 0

theorem device_sound (env : Env) : env.device.Sound := fun _ => rfl

theorem mbAt_clean (env : Env) (n z : ℕ) : (env.mbAt n z).Clean := ⟨rfl, rfl⟩

theorem lost_eq_zero : lost n i = 0 ↔ i % 4 ≠ 3 := by
  unfold lost
  split_ifs with h
  · exact iff_of_false (Multiset.cons_ne_zero) (not_not.2 h)
  · exact iff_of_true rfl h

theorem lost_tail (hm : m % 4 = 0) : lost (n + m) i = lost n (m + i) := by
  have hmod : (m + i) % 4 = i % 4 := by omega
  rw [lost, lost, hmod, Nat.add_assoc]

theorem alloc_ok (obj : ℕ → Obj) (h : env.fails n = false) :
    alloc env obj ⟨held, n⟩ = (some n, ⟨obj n ::ₘ held, n + 1⟩) := by
  rw [alloc, h]
  rfl

theorem alloc_fails (obj : ℕ → Obj) (h : env.fails n = true) : alloc env obj ⟨held, n⟩ = (none, ⟨held, n + 1⟩) := by
  rw [alloc, h]
  rfl

theorem release_head (o : Obj) (held : Multiset Obj) (n : ℕ) : release o ⟨o ::ₘ held, n⟩ = .ok ⟨held, n⟩ := by
  rw [release, if_pos (Multiset.mem_cons_self o held), Multiset.erase_cons_head]

theorem Block.objs_add (b : Block) (held : Multiset Obj) : b.objs + held = .page b.page ::ₘ .block b.id ::ₘ held := by
  rw [Block.objs, Multiset.cons_add, Multiset.singleton_add]

theorem Mb.objs_add (mb : Mb) (held : Multiset Obj) : mb.objs + held = mb.blk.objs + (.minixBlock mb.id ::ₘ held) := by
  rw [Mb.objs, Multiset.cons_add, Multiset.add_cons]

theorem putBlk_objs (b : Block) (held : Multiset Obj) (n : ℕ) : putBlk b ⟨b.objs + held, n⟩ = .ok ⟨held, n⟩ := by
  rw [Block.objs_add, putBlk, release_head]
  exact release_head _ held n

theorem put_objs {mb : Mb} (h : mb.Clean) (held : Multiset Obj) (n : ℕ) :
    putMinixBlock env mb ⟨mb.objs + held, n⟩ = .ok ⟨held, n⟩ := by
  have hclean : (mb.blk.dirty || mb.dirty) = false := by rw [h.1, h.2]; rfl
  rw [putMinixBlock, hclean, Mb.objs_add, brelse, if_neg Bool.false_ne_true]
  have hput := putBlk_objs { mb.blk with dirty := false } (.minixBlock mb.id ::ₘ held) n
  rw [show mb.blk.objs = Block.objs { mb.blk with dirty := false } from rfl, hput]
  exact release_head _ held n

theorem getEmptyBlk_quiet (h : env.Quiet n 2) : getEmptyBlk env ⟨held, n⟩ =
    .ok (some ⟨n, n + 1, env.stale (n + 1), false⟩, ⟨.page (n + 1) ::ₘ .block n ::ₘ held, n + 2⟩) := by
  rw [getEmptyBlk, alloc_ok (n := n) _ (h 0 (by decide))]
  dsimp only
  rw [alloc_ok _ (h 1 (by decide))]

theorem getEmptyBlk_first (h : env.First n i) (hi : i < 2) :
    getEmptyBlk env ⟨held, n⟩ = .ok (none, ⟨held, n + i + 1⟩) := by
  obtain ⟨hq, hf⟩ := h
  rw [getEmptyBlk]
  interval_cases i
  · rw [alloc_fails (n := n) _ hf]
  · rw [alloc_ok (n := n) _ (hq 0 (by decide))]
    dsimp only
    rw [alloc_fails _ hf]
    dsimp only
    rw [release_head]
    rfl

theorem bread_quiet (h : env.Quiet n 3) (blockNr : ℕ) : bread env blockNr ⟨held, n⟩ =
    .ok (some (env.blockAt n blockNr), ⟨(env.blockAt n blockNr).objs + held, n + 3⟩) := by
  have hread : env.fails (n + 2) = false := h 2 (by decide)
  rw [bread, getEmptyBlk_quiet (h.mono (by decide)), Block.objs_add]
  simp only [bind, Except.bind, hread]
  rfl

theorem bread_first (h : env.First n i) (hi : i < 3) (blockNr : ℕ) :
    bread env blockNr ⟨held, n⟩ = .ok (none, ⟨held, n + i + 1⟩) := by
  rw [bread]
  rcases Nat.lt_succ_iff_lt_or_eq.1 hi with hlt | rfl
  · rw [getEmptyBlk_first h hlt]
    rfl
  · have hput := putBlk_objs ⟨n, n + 1, env.stale (n + 1), false⟩ held (n + 3)
    rw [Block.objs_add] at hput
    rw [getEmptyBlk_quiet h.1]
    simp only [bind, Except.bind, h.2, if_true]
    rw [hput]

theorem get_quiet (h : env.Quiet n 4) (z : ℕ) :
    getMinixBlock env z ⟨held, n⟩ = .ok (some (env.mbAt n z), ⟨(env.mbAt n z).objs + held, n + 4⟩) := by
  rw [getMinixBlock]
  dsimp only
  rw [bread_quiet (h.mono (by decide))]
  simp only [bind, Except.bind]
  rw [alloc_ok _ (h 3 (by decide)), Mb.objs, Multiset.cons_add]
  rfl

theorem get_first (h : env.First n i) (hi : i < 4) (z : ℕ) :
    getMinixBlock env z ⟨held, n⟩ = .ok (none, ⟨lost n i + held, n + i + 1⟩) := by
  rw [getMinixBlock]
  dsimp only
  rcases Nat.lt_succ_iff_lt_or_eq.1 hi with hlt | rfl
  · have hlost : lost n i = 0 := lost_eq_zero.2 (by omega)
    rw [bread_first h hlt, hlost, zero_add]
    rfl
  · rw [bread_quiet h.1]
    simp only [bind, Except.bind]
    rw [alloc_fails _ h.2]
    rfl

theorem table_quiet (h : env.Quiet n 4) (z i : ℕ) :
    tableEntry env z i ⟨held, n⟩ = .ok (u16 (env.device.bytes z) i, ⟨held, n + 4⟩) := by
  rw [tableEntry, get_quiet h]
  simp only [bind, Except.bind]
  rw [put_objs (mbAt_clean env n z)]
  rfl

theorem table_first (h : env.First n j) (hj : j < 4) (z i : ℕ) :
    tableEntry env z i ⟨held, n⟩ = .ok (0, ⟨lost n j + held, n + j + 1⟩) := by
  rw [tableEntry, get_first h hj]
  rfl

/-! ## The zone of a block of a file -/

/-- the calls of _bmap when none of them fails -/
def bmapCalls (env : Env) (inode : Inode) (block : ℕ) : ℕ :=
  if block < 7 then 0
  else if block < 7 + 512 then if inode.zone 7 = 0 then 0 else 4
  else if inode.zone 8 = 0 then 0
  else if env.device.entry (inode.zone 8).toNat ((block - (7 + 512)) / 512) = 0 then 4 else 8

/-- the calls for the block itself, and for its zone before -/
def fileCalls (env : Env) (inode : Inode) (k : ℕ) : ℕ :=
  bmapCalls env inode k + if Mapped env.device inode k then 4 else 0

/-- the double indirect block and the indirect one -/
def twoTables (env : Env) (table i j : ℕ) (w : World) : Except Fault (ℕ × World) := do
  let (i, w) ← tableEntry env table i w
  if i = 0 then .ok (0, w) else tableEntry env i j w

variable {inode : Inode} {block table : ℕ}

theorem device_entry (h : z ≠ 0) (i : ℕ) : env.device.entry z i = u16 (env.device.bytes z) i := if_neg h

theorem zone_ne {i : ℕ} (h : ¬ inode.zone i = 0) : (inode.zone i).toNat ≠ 0 := fun h0 => h (BitVec.eq_of_toNat_eq h0)

/-- _bmap reads no table, one or two -/
theorem bmap_cases (env : Env) (inode : Inode) (hmax : block < maxBlocks) :
    (bmapCalls env inode block = 0 ∧ ∀ w, bmap env inode block w = .ok (inode.zoneOf env.device block, w)) ∨
    (∃ z i, bmapCalls env inode block = 4 ∧ inode.zoneOf env.device block = u16 (env.device.bytes z) i ∧
      ∀ w, bmap env inode block w = tableEntry env z i w) ∨
    ∃ z i j, bmapCalls env inode block = (if u16 (env.device.bytes z) i = 0 then 4 else 8) ∧
      inode.zoneOf env.device block = env.device.entry (u16 (env.device.bytes z) i) j ∧
      ∀ w, bmap env inode block w = twoTables env z i j w := by
  unfold bmapCalls Inode.zoneOf bmap
  simp only [if_neg (not_le.2 hmax)]
  by_cases h7 : block < 7
  · simp only [if_pos h7]
    exact Or.inl ⟨trivial, fun w => trivial⟩
  simp only [if_neg h7]
  by_cases h512 : block < 7 + 512
  · simp only [if_pos h512, if_pos (show block - 7 < 512 by omega)]
    by_cases hz : inode.zone 7 = 0
    · simp only [if_pos hz]
      exact Or.inl ⟨trivial, fun w => by rw [hz]; rfl⟩
    · simp only [if_neg hz]
      exact Or.inr (Or.inl ⟨_, _, trivial, device_entry (zone_ne hz) _, fun w => rfl⟩)
  simp only [if_neg h512, if_neg (show ¬ block - 7 < 512 by omega), Nat.sub_sub]
  by_cases hz : inode.zone 8 = 0
  · simp only [if_pos hz]
    refine Or.inl ⟨trivial, fun w => ?_⟩
    rw [hz]
    rfl
  · simp only [if_neg hz, device_entry (zone_ne hz)]
    exact Or.inr (Or.inr ⟨_, _, _, rfl, rfl, fun w => rfl⟩)

theorem twoTables_quiet (h : env.Quiet n (if u16 (env.device.bytes z) i = 0 then 4 else 8)) :
    twoTables env z i j ⟨held, n⟩ = .ok (env.device.entry (u16 (env.device.bytes z) i) j,
      ⟨held, n + if u16 (env.device.bytes z) i = 0 then 4 else 8⟩) := by
  rw [twoTables]
  split_ifs at h ⊢ with h0
  · rw [table_quiet h, h0]
    rfl
  · rw [table_quiet (h.mono (by decide)), device_entry h0]
    simp only [bind, Except.bind, if_neg h0]
    exact table_quiet (Env.Quiet.tail (m := 4) (k := 4) h) _ _

theorem twoTables_first (h : env.First n k) (hk : k < if u16 (env.device.bytes z) i = 0 then 4 else 8) :
    twoTables env z i j ⟨held, n⟩ = .ok (0, ⟨lost n k + held, n + k + 1⟩) := by
  rw [twoTables]
  by_cases h4 : k < 4
  · rw [table_first h h4]
    rfl
  obtain ⟨l, rfl⟩ := Nat.exists_eq_add_of_le (not_lt.1 h4)
  split_ifs at hk with h0
  · omega
  rw [table_quiet (h.1.mono (by omega))]
  simp only [bind, Except.bind, if_neg h0]
  rw [table_first h.tail (by omega), lost_tail rfl, Nat.add_assoc n]

theorem bmap_quiet (hmax : block < maxBlocks) (h : env.Quiet n (bmapCalls env inode block)) :
    bmap env inode block ⟨held, n⟩ =
      .ok (inode.zoneOf env.device block, ⟨held, n + bmapCalls env inode block⟩) := by
  rcases bmap_cases env inode hmax with ⟨hc, hw⟩ | ⟨z, i, hc, hz, hw⟩ | ⟨z, i, j, hc, hz, hw⟩
  · rw [hw, hc]
    rfl
  · rw [hc] at h ⊢
    rw [hw, hz, table_quiet h]
  · rw [hc] at h ⊢
    rw [hw, hz, twoTables_quiet h]

theorem bmap_first (hmax : block < maxBlocks) (h : env.First n i) (hi : i < bmapCalls env inode block) :
    bmap env inode block ⟨held, n⟩ = .ok (0, ⟨lost n i + held, n + i + 1⟩) := by
  rcases bmap_cases env inode hmax with ⟨hc, hw⟩ | ⟨z, j, hc, hz, hw⟩ | ⟨z, j, l, hc, hz, hw⟩
  · omega
  · rw [hw, table_first h (hc ▸ hi)]
  · rw [hw, twoTables_first h (hc ▸ hi)]

theorem bmapCalls_mod (env : Env) (inode : Inode) (block : ℕ) : bmapCalls env inode block % 4 = 0 := by
  unfold bmapCalls
  split_ifs <;> rfl

/-- the block of a file at the end of its calls, and what is held then -/
def Env.fileMb (env : Env) (inode : Inode) (k n : ℕ) : Option Mb :=
  if Mapped env.device inode k then some (env.mbAt (n + bmapCalls env inode k) (inode.zoneOf env.device k)) else none

def objsOf (mb : Option Mb) : Multiset Obj := mb.elim 0 Mb.objs

theorem file_quiet (hmax : k < maxBlocks) (h : env.Quiet n (fileCalls env inode k)) :
    fileBlock env inode k ⟨held, n⟩ =
      .ok (some (env.fileMb inode k n), ⟨objsOf (env.fileMb inode k n) + held, n + fileCalls env inode k⟩) := by
  rw [fileBlock, bmap_quiet hmax (h.mono (Nat.le_add_right _ _)), Env.fileMb]
  rw [fileCalls] at h ⊢
  simp only [bind, Except.bind]
  by_cases hm : Mapped env.device inode k
  · rw [if_pos hm] at h ⊢
    rw [if_pos hm, if_pos (show inode.zoneOf env.device k ≠ 0 from hm), get_quiet h.tail, Nat.add_assoc]
    rfl
  · rw [if_neg hm, if_neg hm, if_neg (show ¬ inode.zoneOf env.device k ≠ 0 from hm), objsOf, Option.elim, zero_add]
    rfl

/-- a failure in _bmap looks like a hole -/
theorem file_first (hmax : k < maxBlocks) (h : env.First n i) (hi : i < fileCalls env inode k) :
    fileBlock env inode k ⟨held, n⟩ =
      .ok (if i < bmapCalls env inode k then some none else none, ⟨lost n i + held, n + i + 1⟩) := by
  rw [fileBlock]
  by_cases hb : i < bmapCalls env inode k
  · rw [bmap_first hmax h hb, if_pos hb]
    rfl
  obtain ⟨l, rfl⟩ := Nat.exists_eq_add_of_le (not_lt.1 hb)
  rw [fileCalls] at hi
  have hm : Mapped env.device inode k := by
    by_contra hm
    rw [if_neg hm] at hi
    omega
  rw [if_pos hm] at hi
  rw [bmap_quiet hmax (h.1.mono (Nat.le_add_right _ _)), if_neg hb]
  simp only [bind, Except.bind]
  rw [if_pos (show inode.zoneOf env.device k ≠ 0 from hm), get_first h.tail (by omega), lost_tail (bmapCalls_mod env inode k),
    Nat.add_assoc n]
  rfl

/-! ## Runs that handle failures -/

variable {α : Type} {owned : α → Multiset Obj} {tells : α → Prop} {r : Except Fault (α × World)}

/-- **A run that handles its failures.** It ends, it holds nothing new but what belongs to its result, and the result tells of a
call that failed. -/
def Handled (env : Env) (n : ℕ) (held : Multiset Obj) (owned : α → Multiset Obj) (tells : α → Prop)
    (r : Except Fault (α × World)) : Prop :=
  ∃ a w, r = .ok (a, w) ∧ w.held = owned a + held ∧ (env.Failed n w.calls → tells a)

/-- a NULL is returned -/
def IsNull (r : Option α) : Prop := r = none

theorem handled_ok {a : α} {held' : Multiset Obj} (h : r = .ok (a, ⟨held', m⟩)) :
    Handled env n held owned tells r ↔ held' = owned a + held ∧ (env.Failed n m → tells a) := by
  subst h
  constructor
  · rintro ⟨a, w, h, hheld, htell⟩
    cases h
    exact ⟨hheld, htell⟩
  · rintro ⟨hheld, htell⟩
    exact ⟨a, _, rfl, hheld, htell⟩

theorem not_handled {e : Fault} (h : r = .error e) : ¬ Handled env n held owned tells r := by
  rintro ⟨a, w, hok, -⟩
  rw [h] at hok
  cases hok

/-- the end of a run in which no call failed -/
theorem handled_quiet {a : α} (h : r = .ok (a, ⟨owned a + held, n + k⟩)) (hq : env.Quiet n k) :
    Handled env n held owned tells r := (handled_ok h).2 ⟨rfl, fun hf => absurd hf hq.not_failed⟩

/-- no kmalloc of a struct minix_block is the first of k calls that fails -/
def Env.Kept (env : Env) (n k : ℕ) : Prop := ∀ i < k, env.First n i → i % 4 ≠ 3

theorem Env.Quiet.kept (h : env.Quiet n k) : env.Kept n k := fun _ hi hf => absurd h (hf.not_quiet hi)

theorem Env.First.kept_iff (h : env.First n i) (hi : i < k) : env.Kept n k ↔ i % 4 ≠ 3 :=
  ⟨fun hk => hk i hi h, fun hne _ _ hf => h.unique hf ▸ hne⟩

/-- the end of a run at the first call that failed -/
theorem handled_first {a : α} (h : r = .ok (a, ⟨lost n i + held, n + i + 1⟩)) (hf : env.First n i) (hi : i < k)
    (ho : owned a = 0) (ht : tells a) : Handled env n held owned tells r ↔ env.Kept n k := by
  rw [handled_ok h, ho, add_left_inj, lost_eq_zero, hf.kept_iff hi]
  exact ⟨fun h => h.1, fun h => ⟨h, fun _ => ht⟩⟩

/-- **bread.** -/
theorem bread_handled (env : Env) (n : ℕ) (held : Multiset Obj) (blockNr : ℕ) :
    Handled env n held (fun b => b.elim 0 Block.objs) IsNull (bread env blockNr ⟨held, n⟩) := by
  rcases quiet_or_first env n 3 with hq | ⟨i, hi, hf⟩
  · exact handled_quiet (bread_quiet hq blockNr) hq
  · exact (handled_ok (bread_first hf hi blockNr)).2 ⟨(zero_add held).symm, fun _ => rfl⟩

/-- **get_minix_block.** -/
theorem get_handled (env : Env) (n : ℕ) (held : Multiset Obj) (z : ℕ) :
    Handled env n held objsOf IsNull (getMinixBlock env z ⟨held, n⟩) ↔ env.Kept n 4 := by
  rcases quiet_or_first env n 4 with hq | ⟨i, hi, hf⟩
  · exact iff_of_true (handled_quiet (get_quiet hq z) hq) hq.kept
  · exact handled_first (get_first hf hi z) hf hi rfl rfl

/-- the inode on the disk -/
def Env.loaded (env : Env) (nr : ℕ) : Option Loaded :=
  readDInode ((env.device.bytes (2 + env.imapBlocks + env.zmapBlocks + (nr - 1) / inodesPerBlock)).add
    (32 * ((nr - 1) % inodesPerBlock)))

theorem readInode_quiet (h : env.Quiet n 4) (nr : ℕ) :
    minixReadInode env nr ⟨held, n⟩ = .ok (env.loaded nr, ⟨held, n + 4⟩) := by
  rw [minixReadInode]
  dsimp only
  rw [get_quiet h]
  simp only [bind, Except.bind]
  rw [put_objs (mbAt_clean env n _)]
  rfl

theorem readInode_first (h : env.First n i) (hi : i < 4) (nr : ℕ) :
    minixReadInode env nr ⟨held, n⟩ = .error .null := by
  rw [minixReadInode]
  dsimp only
  rw [get_first h hi]
  rfl

/-- **minix_read_inode.** It reads through NULL when its block is not there. -/
theorem readInode_handled (env : Env) (n : ℕ) (held : Multiset Obj) (nr : ℕ) :
    Handled env n held (fun _ => 0) IsNull (minixReadInode env nr ⟨held, n⟩) ↔ env.Quiet n 4 := by
  rcases quiet_or_first env n 4 with hq | ⟨i, hi, hf⟩
  · refine iff_of_true (handled_quiet (k := 4) (a := env.loaded nr) ?_ hq) hq
    rw [readInode_quiet hq, zero_add]
  · exact iff_of_false (not_handled (readInode_first hf hi nr)) (hf.not_quiet hi)

/-- **_bmap.** -/
theorem bmap_handled (env : Env) (inode : Inode) (n : ℕ) (held : Multiset Obj) (block : ℕ) :
    Handled env n held (fun _ => 0) (· = 0) (bmap env inode block ⟨held, n⟩) ↔
      block < maxBlocks ∧ env.Kept n (bmapCalls env inode block) := by
  by_cases hmax : block < maxBlocks
  · rcases quiet_or_first env n (bmapCalls env inode block) with hq | ⟨i, hi, hf⟩
    · refine iff_of_true (handled_quiet (k := bmapCalls env inode block) (a := inode.zoneOf env.device block) ?_ hq)
        ⟨hmax, hq.kept⟩
      rw [bmap_quiet hmax hq, zero_add]
    · rw [and_iff_right hmax]
      exact handled_first (bmap_first hmax hf hi) hf hi rfl rfl
  · refine iff_of_false (not_handled (e := .bug) ?_) fun h => hmax h.1
    rw [bmap, if_pos (not_lt.1 hmax)]

end SinsOs.Minix.Failures
