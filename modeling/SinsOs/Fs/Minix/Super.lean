/-
Mounting a minix file system (minix_get_super, fs/minix/super.c, with iget, minix_read_inode and dget as it calls them).

Every call of get_minix_block takes two things: the buffer of bread, and a struct minix_block of kmalloc. Each of the two can
fail at each place of the code (`Fate`). The memory is the multiset of what was obtained and not given back, so a leak is
something left in it and a second release is a fault. The super block is new, so that neither its root inode nor its root
dentry is in a cache.

- `in_range_iff`: when the accesses to imap and zmap stay on entries that are there. The loops that count free blocks and
  free inodes take their bounds from other fields than the loops that load the maps, and a valid file system can fail.
- `clean_iff`: when SUCCESS means a root dentry and loaded maps, and an error means that nothing is left.
-/
import SinsOs.Core.Checked
import SinsOs.Fs.Minix.Block

namespace SinsOs.Minix.Super

open SinsOs.Core SinsOs.Lib SinsOs.Minix

/-! ## Model -/

def mapSlots : ℕ := 8
def minixSuperMagic : ℕ := 0x137F
def minixRootInr : ℕ := 1
def inodesPerBlock : ℕ := 32

def success : ℤ := 0
def error : ℤ := 1

/-- the places that call get_minix_block -/
inductive Site
  | super
  | imap (i : ℕ)
  | zmap (i : ℕ)
  | inode
deriving DecidableEq, Repr

/-- what becomes of a call: bread fails, kmalloc fails after it, or neither -/
inductive Fate
  | noRead
  | noMem
  | ok
deriving DecidableEq, Repr

/-- the disk, by its blocks of 4096 bytes, and what fails -/
structure Env where
  disk : ℕ → Ptr
  fate : Site → Fate
  inodeMem : Bool
  dentryMem : Bool

inductive Obj
  | block (site : Site)
  | minixBlock (site : Site)
  | inode
  | dentry
deriving DecidableEq, Repr

/-- what was obtained and not given back -/
abbrev Mem := Multiset Obj

/-- what stops the kernel: an index outside of a map, a NULL entry of one, the NULL block of minix_read_inode, the NULL dentry
of dput, and the release of something that is not there -/
inductive Fault
  | slot
  | null
  | nullBlock
  | nullDentry
  | free
deriving DecidableEq, Repr

structure Mb where
  site : Site
  data : Ptr

/-- the fields that the disk has -/
structure SuperBlock where
  ninodes : ℕ
  nzones : ℕ
  imapBlocks : ℕ
  zmapBlocks : ℕ
  firstdatazone : ℕ
  logZoneSize : ℕ
  maxSize : ℕ
  magic : ℕ
deriving DecidableEq, Repr

def readSuper (data : Ptr) : SuperBlock where
  ninodes := u16 data 0
  nzones := u16 data 1
  imapBlocks := u16 data 2
  zmapBlocks := u16 data 3
  firstdatazone := u16 data 4
  logZoneSize := u16 data 5
  maxSize := u16 data 6 + 65536 * u16 data 7
  magic := u16 data 8

def release (o : Obj) (mem : Mem) : Except Fault Mem := if o ∈ mem then .ok (mem.erase o) else .error .free

def getMinixBlock (env : Env) (site : Site) (minixBlocks : ℕ) (mem : Mem) : Option Mb × Mem :=
  let block := minixBlocks / (blockSize / minixBlockSize)
  let offset := minixBlocks % (blockSize / minixBlockSize) * minixBlockSize
  match env.fate site with
  | .noRead => (none, mem)
  | .noMem => (none, .block site ::ₘ mem)
  | .ok => (some ⟨site, (env.disk block).add offset⟩, .minixBlock site ::ₘ .block site ::ₘ mem)

/-- brelse, and kfree; nobody sets `dirty` here -/
def putMinixBlock (mem : Mem) (mb : Mb) : Except Fault Mem := do
  let mem ← release (.block mb.site) mem
  release (.minixBlock mb.site) mem

/-- what the loops that load the maps change -/
structure Load where
  map : List (Option Mb)
  block : ℕ
  mem : Mem

/-- `left` turns from turn i on -/
def loadMap (env : Env) (site : ℕ → Site) : ℕ → ℕ → Load → Except Fault Load
  | 0, _, l => .ok l
  | left + 1, i, l =>
    let (mb, mem) := getMinixBlock env (site i) l.block l.mem
    if i < l.map.length then
      match mb with
      | none => .ok ⟨l.map.set i none, l.block, mem⟩
      | some mb => loadMap env site left (i + 1) ⟨l.map.set i (some mb), l.block + 1, mem⟩
    else .error .slot

def entry (map : List (Option Mb)) (i : ℕ) : Except Fault Mb :=
  match map[i]? with
  | none => .error .slot
  | some none => .error .null
  | some (some mb) => .ok mb

/-- `map[0]->data[0] |= 1` -/
def markUsed (map : List (Option Mb)) : Except Fault (List (Option Mb)) := do
  let mb ← entry map 0
  .ok (map.set 0 (some { mb with data := Function.update mb.data 0 (mb.data 0 ||| 1) }))

/-- the bits that are clear among the first i, added to `free` -/
def countFree (map : List (Option Mb)) : ℕ → ℕ → Except Fault ℕ
  | 0, free => .ok free
  | i + 1, free => do
    let mb ← entry map (i / 8192)
    countFree map i (if (mb.data (i / 8 % 1024)).getLsbD (i % 8) then free else free + 1)

def releaseMap (map : List (Option Mb)) (mem : Mem) : Except Fault Mem :=
  map.foldlM (fun mem e => match e with
    | none => .ok mem
    | some mb => putMinixBlock mem mb) mem

def minixIfmt : ℕ := 0o170000

/-- the formats that minix_read_inode knows: a directory, a file, a character or a block device -/
def knownMode (mode : ℕ) : Bool := mode &&& minixIfmt ∈ [0o040000, 0o100000, 0o020000, 0o060000]

/-- `false`: the mode of the inode is not known. block->data is read before the test of block -/
def minixReadInode (env : Env) (sb : SuperBlock) (nr : ℕ) (mem : Mem) : Except Fault (Bool × Mem) :=
  match getMinixBlock env .inode (2 + sb.imapBlocks + sb.zmapBlocks + (nr - 1) / inodesPerBlock) mem with
  | (none, _) => .error .nullBlock
  | (some block, mem) => do
    let mem ← putMinixBlock mem block
    .ok (knownMode (u16 block.data (16 * ((nr - 1) % inodesPerBlock))), mem)

def iget (env : Env) (sb : SuperBlock) (nr : ℕ) (mem : Mem) : Except Fault (Option Obj × Mem) :=
  if env.inodeMem then do
    let (ok, mem) ← minixReadInode env sb nr (.inode ::ₘ mem)
    if ok then .ok (some .inode, mem)
    else do
      let mem ← release .inode mem
      .ok (none, mem)
  else .ok (none, mem)

def dget (env : Env) (mem : Mem) : Option Obj × Mem :=
  if env.dentryMem then (some .dentry, .dentry ::ₘ mem) else (none, mem)

structure Result where
  ret : ℤ
  root : Option Obj
  imap : List (Option Mb)
  zmap : List (Option Mb)
  mem : Mem

def releaseBlk (blk : Mb) (r : Result) : Except Fault Result := do
  let mem ← putMinixBlock r.mem blk
  .ok { r with mem }

/-- the label release_map and what follows it -/
def releaseMaps (blk : Mb) (r : Result) : Except Fault Result := do
  let mem ← releaseMap r.imap r.mem
  let mem ← releaseMap r.zmap mem
  releaseBlk blk { r with mem }

/-- the first bit of each map is set, and the clear bits are counted for printk -/
def countMaps (sb : SuperBlock) (imap zmap : List (Option Mb)) : Except Fault (List (Option Mb) × List (Option Mb)) := do
  let imap ← markUsed imap
  let zmap ← markUsed zmap
  let _ ← countFree zmap sb.nzones 0
  let _ ← countFree imap (sb.ninodes + 1) 0
  .ok (imap, zmap)

/-- from iget on -/
def getRoot (env : Env) (sb : SuperBlock) (blk : Mb) (imap zmap : List (Option Mb)) (mem : Mem) : Except Fault Result := do
  match ← iget env sb minixRootInr mem with
  | (none, mem) => releaseMaps blk ⟨-error, none, imap, zmap, mem⟩
  | (some _, mem) =>
    match dget env mem with
    -- dput(sb->root) of the root that is NULL
    | (none, _) => .error .nullDentry
    | (some root, mem) => releaseBlk blk ⟨success, some root, imap, zmap, mem⟩

def noMap : List (Option Mb) := List.replicate mapSlots none

def minixGetSuper (env : Env) : Except Fault Result :=
  match getMinixBlock env .super 1 0 with
  | (none, mem) => .ok ⟨-error, none, noMap, noMap, mem⟩
  | (some blk, mem) =>
    let sb := readSuper blk.data
    if sb.magic ≠ minixSuperMagic then releaseBlk blk ⟨-error, none, noMap, noMap, mem⟩
    else do
      let l ← loadMap env .imap sb.imapBlocks 0 ⟨noMap, 2, mem⟩
      let z ← loadMap env .zmap sb.zmapBlocks 0 ⟨noMap, l.block, l.mem⟩
      if z.block ≠ sb.imapBlocks + sb.zmapBlocks + 2 then releaseMaps blk ⟨success, none, l.map, z.map, z.mem⟩
      else do
        let (imap, zmap) ← countMaps sb l.map z.map
        getRoot env sb blk imap zmap z.mem

/-! ## Conditions -/

/-- the bytes of a block of 1024 bytes -/
def Env.bytes (env : Env) (n : ℕ) : Ptr :=
  (env.disk (n / (blockSize / minixBlockSize))).add (n % (blockSize / minixBlockSize) * minixBlockSize)

/-- the super block on the disk -/
def Env.sb (env : Env) : SuperBlock := readSuper (env.bytes 1)

/-- the root inode on the disk is of a known format -/
def Env.rootKnown (env : Env) : Bool := knownMode (u16 (env.bytes (2 + env.sb.imapBlocks + env.sb.zmapBlocks)) 0)

/-- no block of the maps fails -/
def Env.MapsLoad (env : Env) : Prop :=
  (∀ i < env.sb.imapBlocks, env.fate (.imap i) = .ok) ∧ ∀ i < env.sb.zmapBlocks, env.fate (.zmap i) = .ok

/-- the maps fit, neither is empty, and they have a bit for everything that is counted -/
structure SuperBlock.Covered (sb : SuperBlock) : Prop where
  imap : 1 ≤ sb.imapBlocks ∧ sb.imapBlocks ≤ mapSlots
  zmap : 1 ≤ sb.zmapBlocks ∧ sb.zmapBlocks ≤ mapSlots
  zones : sb.nzones ≤ 8192 * sb.zmapBlocks
  inodes : sb.ninodes + 1 ≤ 8192 * sb.imapBlocks

/-- a map of n blocks does not run over its array -/
def Env.Fits (env : Env) (site : ℕ → Site) (n : ℕ) : Prop := n ≤ mapSlots ∨ ∃ i < mapSlots, env.fate (site i) ≠ .ok

variable {env : Env} {site : ℕ → Site} {sb : SuperBlock} {mem : Mem} {map : List (Option Mb)} {blk : Mb}

/-! ## Blocks -/

/-- what a successful get_minix_block obtains -/
def owned (s : Site) : Mem := .block s ::ₘ {.minixBlock s}

def objs (ms : List Mb) : Mem := (ms.map fun mb => owned mb.site).sum

@[simp] theorem objs_nil : objs [] = 0 := rfl

@[simp] theorem objs_cons (mb : Mb) (ms : List Mb) : objs (mb :: ms) = owned mb.site + objs ms := by simp [objs]

theorem objs_append (ms ms' : List Mb) : objs (ms ++ ms') = objs ms + objs ms' := by simp [objs]

theorem getMinixBlock_ok {s : Site} (h : env.fate s = .ok) (n : ℕ) :
    getMinixBlock env s n mem = (some ⟨s, env.bytes n⟩, owned s + mem) := by
  have hmem : Obj.minixBlock s ::ₘ Obj.block s ::ₘ mem = owned s + mem := by
    rw [owned, Multiset.cons_add, Multiset.singleton_add, Multiset.cons_swap]
  simp only [getMinixBlock, h, Env.bytes, hmem]

/-- the data pointer is the one of the device with these failures -/
theorem getMinixBlock_data (env : Env) (s : Site) (n : ℕ) (mem : Mem) :
    (getMinixBlock env s n mem).1.map Mb.data = Minix.getMinixBlock
      ⟨fun b => if env.fate s = .noRead then none else some (env.disk b), fun _ => env.fate s ≠ .noMem⟩ n := by
  cases hf : env.fate s <;> simp [getMinixBlock, Minix.getMinixBlock, hf]

theorem getMinixBlock_none {s : Site} (h : env.fate s ≠ .ok) (n : ℕ) (mem : Mem) : (getMinixBlock env s n mem).1 = none := by
  have hdata := getMinixBlock_data env s n mem
  rw [Minix.getMinixBlock] at hdata
  cases hf : env.fate s with
  | noRead => simpa [hf] using hdata
  | noMem => simpa [hf] using hdata
  | ok => exact absurd hf h

@[simp] theorem putMinixBlock_owned (mb : Mb) (mem : Mem) : putMinixBlock (owned mb.site + mem) mb = .ok mem := by
  have hfirst : release (.block mb.site) (owned mb.site + mem) = .ok (.minixBlock mb.site ::ₘ mem) := by
    simp [release, owned]
  have hnext : release (.minixBlock mb.site) (.minixBlock mb.site ::ₘ mem) = .ok mem := by
    simp [release]
  simp only [putMinixBlock, hfirst, hnext, bind, Except.bind]

/-- a release only fails for what is not there -/
theorem release_ends (o : Obj) (mem : Mem) : Ends (release o mem) (· = .free) fun _ => True := by
  unfold release
  split_ifs <;> trivial

theorem putMinixBlock_ends (mem : Mem) (mb : Mb) : Ends (putMinixBlock mem mb) (· = .free) fun _ => True :=
  (release_ends _ _).bind fun _ _ => release_ends _ _

theorem releaseMap_ends (map : List (Option Mb)) (mem : Mem) : Ends (releaseMap map mem) (· = .free) fun _ => True := by
  induction map generalizing mem with
  | nil => trivial
  | cons e map ih =>
    rw [releaseMap, List.foldlM_cons]
    cases e with
    | none => exact ih mem
    | some mb => exact (putMinixBlock_ends mem mb).bind fun mem _ => ih mem

theorem releaseMaps_ends (blk : Mb) (r : Result) :
    Ends (releaseMaps blk r) (· = .free) fun r' => r'.ret = r.ret ∧ r'.root = r.root :=
  (releaseMap_ends _ _).bind fun _ _ => (releaseMap_ends _ _).bind fun _ _ =>
    (putMinixBlock_ends _ _).bind fun _ _ => ⟨rfl, rfl⟩

/-- the blocks of a map go back, and the entries that are NULL do not matter -/
theorem releaseMap_filled (ms : List Mb) (r : ℕ) (mem : Mem) :
    releaseMap (ms.map some ++ List.replicate r none) (objs ms + mem) = .ok mem := by
  induction ms with
  | nil =>
    induction r with
    | zero => simp [releaseMap, pure, Except.pure]
    | succ r ih => exact ih
  | cons mb ms ih =>
    simp only [List.map_cons, List.cons_append, releaseMap, List.foldlM_cons, objs_cons, add_assoc,
      putMinixBlock_owned, bind, Except.bind]
    exact ih

/-! ## Loading the maps -/

/-- the loop without a failure, from a map that is filled up to its turn -/
theorem loadMap_loads (left : ℕ) (ms : List Mb) (block r : ℕ) (mem : Mem) (hr : left ≤ r)
    (hok : ∀ k, ms.length ≤ k → k < ms.length + left → env.fate (site k) = .ok) :
    ∃ ms', ms'.length = ms.length + left ∧
    loadMap env site left ms.length ⟨ms.map some ++ List.replicate r none, block, objs ms + mem⟩ =
      .ok ⟨ms'.map some ++ List.replicate (r - left) none, block + left, objs ms' + mem⟩ := by
  induction left generalizing ms block r with
  | zero => exact ⟨ms, rfl, rfl⟩
  | succ left ih =>
    obtain ⟨r, rfl⟩ : ∃ r', r = r' + 1 := ⟨r - 1, by omega⟩
    let mb : Mb := ⟨site ms.length, env.bytes block⟩
    have hset : (ms.map some ++ List.replicate (r + 1) none).set ms.length (some mb) =
        (ms ++ [mb]).map some ++ List.replicate r none := by
      simp [List.replicate_succ]
    have hmem : owned (site ms.length) + (objs ms + mem) = objs (ms ++ [mb]) + mem := by
      simp only [objs_append, objs_cons, objs_nil, mb, add_zero]
      rw [← add_assoc, add_comm (owned _)]
    have hlen : (ms ++ [mb]).length = ms.length + 1 := by simp
    obtain ⟨ms', hms', hrun⟩ := ih (ms ++ [mb]) (block + 1) r (by omega) fun k hk hk' => hok k (by omega) (by omega)
    refine ⟨ms', by rw [hms', hlen, Nat.add_right_comm, Nat.add_assoc], ?_⟩
    rw [loadMap, getMinixBlock_ok (hok _ le_rfl (by omega))]
    dsimp only
    rw [if_pos (by simp), hset, hmem, ← hlen, hrun, Nat.add_sub_add_right, Nat.add_right_comm, Nat.add_assoc]

/-- what the loop does on any failures: it runs over the array, or stops at the first block that fails, or loads them all -/
theorem loadMap_ends (left i : ℕ) (l : Load) (hi : i ≤ l.map.length) :
    Ends (loadMap env site left i l)
      (fun f => f = .slot ∧ l.map.length < i + left ∧ ∀ k, i ≤ k → k < l.map.length → env.fate (site k) = .ok)
      fun l' => l'.block ≤ l.block + left ∧
        (l'.block = l.block + left → ∀ k, i ≤ k → k < i + left → env.fate (site k) = .ok) ∧
        (i + left ≤ l.map.length ∨ ∃ k, i ≤ k ∧ k < l.map.length ∧ env.fate (site k) ≠ .ok) := by
  induction left generalizing i l with
  | zero => exact ⟨le_rfl, fun _ k hk hk' => absurd hk' (by omega), Or.inl hi⟩
  | succ left ih =>
    rw [loadMap]
    by_cases hlen : i < l.map.length
    · by_cases hf : env.fate (site i) = .ok
      · rw [getMinixBlock_ok hf]
        dsimp only
        rw [if_pos hlen]
        refine (ih (i + 1) _ (by simpa using hlen)).imp (fun f h => ?_) fun l' h => ?_
        · simp only [List.length_set] at h
          refine ⟨h.1, by omega, fun k hk hk' => ?_⟩
          obtain rfl | hlt := Nat.eq_or_lt_of_le hk
          · exact hf
          · exact h.2.2 k hlt hk'
        · simp only [List.length_set] at h
          refine ⟨by omega, fun hb k hk hk' => ?_, ?_⟩
          · obtain rfl | hlt := Nat.eq_or_lt_of_le hk
            · exact hf
            · exact h.2.1 (by omega) k hlt (by omega)
          · obtain hle | ⟨k, hk, hk', hne⟩ := h.2.2
            · exact Or.inl (by omega)
            · exact Or.inr ⟨k, by omega, hk', hne⟩
      · have hnone := getMinixBlock_none hf l.block l.mem
        obtain ⟨x, mem, hx⟩ : ∃ x mem, getMinixBlock env (site i) l.block l.mem = (x, mem) := ⟨_, _, rfl⟩
        rw [hx] at hnone
        obtain rfl : x = none := hnone
        rw [hx]
        dsimp only
        rw [if_pos hlen]
        exact ⟨Nat.le_add_right _ _, fun hb => absurd hb (by simp), Or.inr ⟨i, le_rfl, hlen, hf⟩⟩
    · obtain ⟨x, mem, hx⟩ : ∃ x mem, getMinixBlock env (site i) l.block l.mem = (x, mem) := ⟨_, _, rfl⟩
      rw [hx]
      dsimp only
      rw [if_neg hlen]
      exact ⟨rfl, by omega, fun k hk hk' => absurd hk' (by omega)⟩

/-! ## Using the maps -/

/-- a map of which the entries of ms are loaded and the others NULL -/
def filled (ms : List Mb) : List (Option Mb) := ms.map some ++ List.replicate (mapSlots - ms.length) none

theorem entry_filled {ms : List Mb} {i : ℕ} (h : i < ms.length) : entry (filled ms) i = .ok (ms.get ⟨i, h⟩) := by
  have hget : (filled ms)[i]? = some (some (ms.get ⟨i, h⟩)) := by
    rw [filled, List.getElem?_append_left (by simpa using h), List.getElem?_map, List.getElem?_eq_getElem h, Option.map_some]
    rfl
  rw [entry, hget]

theorem entry_past {ms : List Mb} {i : ℕ} (h : ms.length ≤ i) : Ends (entry (filled ms) i) (fun f => f = .slot ∨ f = .null)
    fun _ => False := by
  have hnone : ∀ mb, (filled ms)[i]? ≠ some (some mb) := by
    simp [filled, List.getElem?_append_right, h, List.getElem?_replicate]
  unfold entry
  split
  · exact Or.inl rfl
  · exact Or.inr rfl
  · rename_i mb hmb
    exact hnone mb hmb

theorem markUsed_filled {ms : List Mb} (h : 1 ≤ ms.length) :
    ∃ ms', ms'.length = ms.length ∧ objs ms' = objs ms ∧ markUsed (filled ms) = .ok (filled ms') := by
  obtain ⟨mb, ms, rfl⟩ := List.exists_cons_of_length_pos h
  exact ⟨{ mb with data := Function.update mb.data 0 (mb.data 0 ||| 1) } :: ms, rfl, rfl, rfl⟩

theorem markUsed_nil : markUsed (filled []) = .error .null := rfl

theorem countFree_filled {ms : List Mb} {i : ℕ} (free : ℕ) (h : i ≤ 8192 * ms.length) :
    ∃ n, countFree (filled ms) i free = .ok n := by
  induction i generalizing free with
  | zero => exact ⟨free, rfl⟩
  | succ i ih =>
    have hin : i / 8192 < ms.length := Nat.div_lt_of_lt_mul h
    rw [countFree, entry_filled hin]
    exact ih _ (Nat.le_of_succ_le h)

/-- the first bit that is counted is the last one -/
theorem countFree_past {ms : List Mb} {i : ℕ} (free : ℕ) (h : 8192 * ms.length < i) :
    Ends (countFree (filled ms) i free) (fun f => f = .slot ∨ f = .null) fun _ => False := by
  obtain ⟨i, rfl⟩ := Nat.exists_eq_succ_of_ne_zero (Nat.ne_of_gt (Nat.zero_lt_of_lt h))
  have hout : ms.length ≤ i / 8192 := (Nat.le_div_iff_mul_le (by decide)).2 (by rw [Nat.mul_comm]; exact Nat.le_of_lt_succ h)
  exact (entry_past hout).never _

/-- iget of the root inode -/
theorem iget_root (env : Env) (mem : Mem) : iget env env.sb minixRootInr mem =
    if env.inodeMem then
      if env.fate .inode = .ok then
        if env.rootKnown then .ok (some .inode, .inode ::ₘ mem) else .ok (none, mem)
      else .error .nullBlock
    else .ok (none, mem) := by
  unfold iget
  refine if_congr Iff.rfl ?_ rfl
  by_cases hf : env.fate .inode = .ok
  · rw [if_pos hf, minixReadInode, getMinixBlock_ok hf]
    have hput := putMinixBlock_owned ⟨.inode, env.bytes (2 + env.sb.imapBlocks + env.sb.zmapBlocks)⟩ (.inode ::ₘ mem)
    have hfree : release .inode (.inode ::ₘ mem) = .ok mem := by simp [release]
    simp only [minixRootInr, inodesPerBlock, Nat.sub_self, Nat.zero_div, Nat.zero_mod, mul_zero, add_zero] at hput ⊢
    simp only [hput, bind, Except.bind, hfree]
    rfl
  · have hnone := getMinixBlock_none hf
      (2 + env.sb.imapBlocks + env.sb.zmapBlocks + (minixRootInr - 1) / inodesPerBlock) (.inode ::ₘ mem)
    rw [if_neg hf, minixReadInode]
    split
    · rfl
    · rename_i block mem' heq
      rw [heq] at hnone
      exact absurd hnone (by simp)

variable {ims zms : List Mb}

/-- the maps that are marked and counted -/
theorem countMaps_covered (h : sb.Covered) (hi : ims.length = sb.imapBlocks) (hz : zms.length = sb.zmapBlocks) :
    ∃ ims' zms', ims'.length = ims.length ∧ zms'.length = zms.length ∧ objs ims' = objs ims ∧ objs zms' = objs zms ∧
      countMaps sb (filled ims) (filled zms) = .ok (filled ims', filled zms') := by
  obtain ⟨ims', hil, hio, himark⟩ := markUsed_filled (show 1 ≤ ims.length from hi ▸ h.imap.1)
  obtain ⟨zms', hzl, hzo, hzmark⟩ := markUsed_filled (show 1 ≤ zms.length from hz ▸ h.zmap.1)
  obtain ⟨zones, hzones⟩ := countFree_filled 0 (show sb.nzones ≤ 8192 * zms'.length by rw [hzl, hz]; exact h.zones)
  obtain ⟨inodes, hinodes⟩ := countFree_filled 0 (show sb.ninodes + 1 ≤ 8192 * ims'.length by rw [hil, hi]; exact h.inodes)
  refine ⟨ims', zms', hil, hzl, hio, hzo, ?_⟩
  simp only [countMaps, himark, hzmark, hzones, hinodes, bind, Except.bind]

theorem countMaps_uncovered (h : ¬ sb.Covered) (hi : ims.length = sb.imapBlocks) (hz : zms.length = sb.zmapBlocks)
    (hi8 : sb.imapBlocks ≤ mapSlots) (hz8 : sb.zmapBlocks ≤ mapSlots) :
    Ends (countMaps sb (filled ims) (filled zms)) (fun f => f = .slot ∨ f = .null) fun _ => False := by
  by_cases hi1 : 1 ≤ ims.length
  · obtain ⟨ims', hil, -, himark⟩ := markUsed_filled hi1
    by_cases hz1 : 1 ≤ zms.length
    · obtain ⟨zms', hzl, -, hzmark⟩ := markUsed_filled hz1
      simp only [countMaps, himark, hzmark, bind, Except.bind]
      by_cases hzones : sb.nzones ≤ 8192 * zms'.length
      · obtain ⟨zones, hrun⟩ := countFree_filled 0 hzones
        have hinodes : 8192 * ims'.length < sb.ninodes + 1 := by
          by_contra hle
          exact h ⟨⟨hi ▸ hi1, hi8⟩, ⟨hz ▸ hz1, hz8⟩, by rwa [← hz, ← hzl], by
            rw [← hi, ← hil]; exact Nat.le_of_not_lt hle⟩
        simp only [hrun]
        exact (countFree_past 0 hinodes).never _
      · exact (countFree_past 0 (Nat.lt_of_not_le hzones)).never _
    · obtain rfl : zms = [] := List.eq_nil_of_length_eq_zero (Nat.eq_zero_of_not_pos hz1)
      simp only [countMaps, himark, markUsed_nil, bind, Except.bind]
      exact Or.inr rfl
  · obtain rfl : ims = [] := List.eq_nil_of_length_eq_zero (Nat.eq_zero_of_not_pos hi1)
    simp only [countMaps, markUsed_nil, bind, Except.bind]
    exact Or.inr rfl

/-- everything is given back at release_map -/
theorem releaseMaps_filled (ret : ℤ) (root : Option Obj) :
    releaseMaps blk ⟨ret, root, filled ims, filled zms, objs zms + (objs ims + owned blk.site)⟩ =
      .ok ⟨ret, root, filled ims, filled zms, 0⟩ := by
  have himap : releaseMap (filled ims) (objs zms + (objs ims + owned blk.site)) = .ok (objs zms + owned blk.site) := by
    rw [add_left_comm]
    exact releaseMap_filled _ _ _
  have hzmap : releaseMap (filled zms) (objs zms + owned blk.site) = .ok (owned blk.site) := releaseMap_filled _ _ _
  have hblk : putMinixBlock (owned blk.site) blk = .ok 0 := by simpa using putMinixBlock_owned blk 0
  simp only [releaseMaps, releaseBlk, himap, hzmap, hblk, bind, Except.bind]

/-- what the rest of the function does once the maps are counted -/
theorem getRoot_ends : Ends (getRoot env env.sb blk (filled ims) (filled zms) (objs zms + (objs ims + owned blk.site)))
    (fun f => (f = .nullBlock ∧ env.inodeMem ∧ env.fate .inode ≠ .ok) ∨
      (f = .nullDentry ∧ env.inodeMem ∧ env.rootKnown ∧ env.dentryMem = false))
    fun r => (r.ret = success ∧ r.root = some .dentry ∧ r.imap = filled ims ∧ r.zmap = filled zms ∨ r.ret = -error ∧
      r.mem = 0) ∧ (env.inodeMem = false ∨ env.fate .inode = .ok ∧ (env.rootKnown = false ∨ env.dentryMem)) := by
  unfold getRoot
  rw [iget_root]
  by_cases hmem : env.inodeMem
  · rw [if_pos hmem]
    by_cases hf : env.fate .inode = .ok
    · rw [if_pos hf]
      by_cases hk : env.rootKnown
      · rw [if_pos hk]
        by_cases hd : env.dentryMem
        · have hput := putMinixBlock_owned blk (.dentry ::ₘ .inode ::ₘ (objs zms + objs ims))
          have hreorder : Obj.dentry ::ₘ Obj.inode ::ₘ (objs zms + (objs ims + owned blk.site)) =
              owned blk.site + (.dentry ::ₘ .inode ::ₘ (objs zms + objs ims)) := by
            rw [← add_assoc, add_comm (owned _), Multiset.cons_add, Multiset.cons_add]
          simp only [bind, Except.bind, dget, if_pos hd, releaseBlk, hreorder, hput]
          exact ⟨Or.inl ⟨rfl, rfl, rfl, rfl⟩, Or.inr ⟨hf, Or.inr hd⟩⟩
        · simp only [bind, Except.bind, dget, if_neg hd]
          exact Or.inr ⟨rfl, hmem, hk, eq_false_of_ne_true hd⟩
      · rw [if_neg hk]
        simp only [bind, Except.bind, releaseMaps_filled]
        exact ⟨Or.inr ⟨rfl, rfl⟩, Or.inr ⟨hf, Or.inl (eq_false_of_ne_true hk)⟩⟩
    · rw [if_neg hf]
      exact Or.inl ⟨rfl, hmem, hf⟩
  · rw [if_neg hmem]
    simp only [bind, Except.bind, releaseMaps_filled]
    exact ⟨Or.inr ⟨rfl, rfl⟩, Or.inl (eq_false_of_ne_true hmem)⟩

/-! ## Loading both maps -/

theorem Env.MapsLoad.fits (h : env.MapsLoad) (hi : env.Fits .imap env.sb.imapBlocks) (hz : env.Fits .zmap env.sb.zmapBlocks) :
    env.sb.imapBlocks ≤ mapSlots ∧ env.sb.zmapBlocks ≤ mapSlots := by
  constructor
  · by_contra hlt
    obtain hle | ⟨i, hi8, hne⟩ := hi
    · exact hlt hle
    · exact hne (h.1 i (lt_trans hi8 (Nat.lt_of_not_le hlt)))
  · by_contra hlt
    obtain hle | ⟨i, hi8, hne⟩ := hz
    · exact hlt hle
    · exact hne (h.2 i (lt_trans hi8 (Nat.lt_of_not_le hlt)))

/-- one map without a failure -/
theorem loadMap_filled {n : ℕ} (block : ℕ) (mem : Mem) (hn : n ≤ mapSlots) (hok : ∀ k < n, env.fate (site k) = .ok) :
    ∃ ms, ms.length = n ∧ loadMap env site n 0 ⟨noMap, block, mem⟩ = .ok ⟨filled ms, block + n, objs ms + mem⟩ := by
  obtain ⟨ms, hlen, hrun⟩ := loadMap_loads n [] block mapSlots mem hn fun k _ hk => hok k (by simpa using hk)
  have hlen' : ms.length = n := by simpa using hlen
  refine ⟨ms, hlen', ?_⟩
  simpa [noMap, filled, hlen'] using hrun

/-- the function up to the loaded maps -/
theorem minixGetSuper_loads (hs : env.fate .super = .ok) (hmagic : env.sb.magic = minixSuperMagic) (h : env.MapsLoad)
    (hi8 : env.sb.imapBlocks ≤ mapSlots) (hz8 : env.sb.zmapBlocks ≤ mapSlots) :
    ∃ ims zms, ims.length = env.sb.imapBlocks ∧ zms.length = env.sb.zmapBlocks ∧ minixGetSuper env =
      (countMaps env.sb (filled ims) (filled zms) >>= fun maps => getRoot env env.sb ⟨.super, env.bytes 1⟩ maps.1 maps.2
        (objs zms + (objs ims + owned .super))) := by
  obtain ⟨ims, hil, hirun⟩ := loadMap_filled 2 (owned .super + 0) hi8 h.1
  obtain ⟨zms, hzl, hzrun⟩ := loadMap_filled (2 + env.sb.imapBlocks) (objs ims + (owned .super + 0)) hz8 h.2
  refine ⟨ims, zms, hil, hzl, ?_⟩
  have hblock : ¬ 2 + env.sb.imapBlocks + env.sb.zmapBlocks ≠ env.sb.imapBlocks + env.sb.zmapBlocks + 2 :=
    not_not_intro (by rw [Nat.add_assoc, Nat.add_comm])
  rw [minixGetSuper, getMinixBlock_ok hs]
  change (if env.sb.magic ≠ minixSuperMagic then
    _ else loadMap env .imap env.sb.imapBlocks 0 ⟨noMap, 2, owned .super + 0⟩ >>= _) = _
  rw [if_neg (not_not_intro hmagic), hirun]
  change loadMap env .zmap env.sb.zmapBlocks 0 ⟨noMap, 2 + env.sb.imapBlocks, objs ims + (owned .super + 0)⟩ >>= _ = _
  rw [hzrun]
  change (if 2 + env.sb.imapBlocks + env.sb.zmapBlocks ≠ env.sb.imapBlocks + env.sb.zmapBlocks + 2 then _ else _) = _
  rw [if_neg hblock, add_zero]
  rfl

/-- otherwise the function runs over an array, or it ends with SUCCESS and no root -/
theorem minixGetSuper_stops (hs : env.fate .super = .ok) (hmagic : env.sb.magic = minixSuperMagic)
    (h : ¬ (env.MapsLoad ∧ env.Fits .imap env.sb.imapBlocks ∧ env.Fits .zmap env.sb.zmapBlocks)) :
    Ends (minixGetSuper env)
      (fun f => f = .slot ∧ ¬ (env.Fits .imap env.sb.imapBlocks ∧ env.Fits .zmap env.sb.zmapBlocks) ∨
        f = .free ∧ env.Fits .imap env.sb.imapBlocks ∧ env.Fits .zmap env.sb.zmapBlocks)
      fun r => (env.Fits .imap env.sb.imapBlocks ∧ env.Fits .zmap env.sb.zmapBlocks) ∧ r.ret = success ∧ r.root = none := by
  rw [minixGetSuper, getMinixBlock_ok hs]
  change Ends (if env.sb.magic ≠ minixSuperMagic then _ else loadMap env .imap env.sb.imapBlocks 0 ⟨noMap, 2, _⟩ >>= _) _ _
  rw [if_neg (not_not_intro hmagic)]
  have hno : noMap.length = mapSlots := List.length_replicate
  have hover : ∀ {site : ℕ → Site} {n : ℕ}, mapSlots < 0 + n →
      (∀ k, 0 ≤ k → k < mapSlots → env.fate (site k) = .ok) → ¬ env.Fits site n := by
    intro site n hlt hall hfit
    obtain hle | ⟨k, hk, hne⟩ := hfit
    · exact absurd hlt (by rw [Nat.zero_add]; exact Nat.not_lt.2 hle)
    · exact hne (hall k (Nat.zero_le k) hk)
  have hfits : ∀ {site : ℕ → Site} {n : ℕ},
      (0 + n ≤ mapSlots ∨ ∃ k, 0 ≤ k ∧ k < mapSlots ∧ env.fate (site k) ≠ .ok) → env.Fits site n :=
    fun h => h.imp (fun h => by rwa [Nat.zero_add] at h) fun ⟨k, _, hk, hne⟩ => ⟨k, hk, hne⟩
  refine ((loadMap_ends _ 0 _ (Nat.zero_le _)).imp (fun f hf => ?_) fun _ hl => hl).bind fun l hl => ?_
  · rw [hno] at hf
    exact Or.inl ⟨hf.1, fun hfit => hover hf.2.1 hf.2.2 hfit.1⟩
  rw [hno] at hl
  refine ((loadMap_ends _ 0 _ (Nat.zero_le _)).imp (fun f hf => ?_) fun _ hz => hz).bind fun z hz => ?_
  · rw [hno] at hf
    exact Or.inl ⟨hf.1, fun hfit => hover hf.2.1 hf.2.2 hfit.2⟩
  rw [hno] at hz
  have hfit : env.Fits .imap env.sb.imapBlocks ∧ env.Fits .zmap env.sb.zmapBlocks := ⟨hfits hl.2.2, hfits hz.2.2⟩
  have hblock : z.block ≠ env.sb.imapBlocks + env.sb.zmapBlocks + 2 := by
    intro heq
    have hl1 : l.block ≤ 2 + env.sb.imapBlocks := hl.1
    have hz1 : z.block ≤ l.block + env.sb.zmapBlocks := hz.1
    have hlb : l.block = 2 + env.sb.imapBlocks := by omega
    have hzb : z.block = l.block + env.sb.zmapBlocks := by omega
    refine h ⟨⟨fun i hi => ?_, fun i hi => ?_⟩, hfit⟩
    · exact hl.2.1 hlb i (Nat.zero_le i) (by rwa [Nat.zero_add])
    · exact hz.2.1 hzb i (Nat.zero_le i) (by rwa [Nat.zero_add])
  change Ends (if z.block ≠ env.sb.imapBlocks + env.sb.zmapBlocks + 2 then _ else _) _ _
  rw [if_pos hblock]
  exact (releaseMaps_ends _ _).imp (fun f hf => Or.inr ⟨hf, hfit⟩) fun r hr => ⟨hfit, hr.1, hr.2⟩

/-- a block 1 that is not there, or not a minix super block -/
theorem minixGetSuper_early (h : env.fate .super = .ok → env.sb.magic ≠ minixSuperMagic) :
    Ends (minixGetSuper env) (fun _ => False) fun r => r.ret = -error ∧ (r.mem = 0 ↔ env.fate .super ≠ .noMem) := by
  cases hs : env.fate .super with
  | noRead =>
    simp only [minixGetSuper, getMinixBlock, hs]
    exact ⟨rfl, iff_of_true rfl (by decide)⟩
  | noMem =>
    simp only [minixGetSuper, getMinixBlock, hs]
    exact ⟨rfl, by simp⟩
  | ok =>
    have hput := putMinixBlock_owned ⟨.super, env.bytes 1⟩ 0
    rw [minixGetSuper, getMinixBlock_ok hs]
    change Ends (if env.sb.magic ≠ minixSuperMagic then
      releaseBlk ⟨.super, env.bytes 1⟩ ⟨_, _, _, _, owned .super + 0⟩ else _) _ _
    rw [if_pos (h hs)]
    simp only [releaseBlk, hput, bind, Except.bind]
    exact ⟨rfl, iff_of_true rfl (by decide)⟩

/-- every entry of the first n is loaded -/
def Loaded (map : List (Option Mb)) (n : ℕ) : Prop := ∀ i < n, ∃ mb, map[i]? = some (some mb)

theorem loaded_filled {ms : List Mb} {n : ℕ} (h : ms.length = n) : Loaded (filled ms) n := by
  subst h
  intro i hi
  refine ⟨ms.get ⟨i, hi⟩, ?_⟩
  rw [filled, List.getElem?_append_left (by simpa using hi), List.getElem?_map, List.getElem?_eq_getElem hi, Option.map_some]
  rfl

/-- loaded maps that are too short -/
theorem minixGetSuper_uncovered (hs : env.fate .super = .ok) (hmagic : env.sb.magic = minixSuperMagic) (h : env.MapsLoad)
    (hi8 : env.sb.imapBlocks ≤ mapSlots) (hz8 : env.sb.zmapBlocks ≤ mapSlots) (hcov : ¬ env.sb.Covered) :
    Ends (minixGetSuper env) (fun f => f = .slot ∨ f = .null) fun _ => False := by
  obtain ⟨ims, zms, hil, hzl, hrun⟩ := minixGetSuper_loads hs hmagic h hi8 hz8
  rw [hrun]
  exact (countMaps_uncovered hcov hil hzl hi8 hz8).never _

/-- iget and dget of the root, in what they need -/
def Env.RootComes (env : Env) : Prop :=
  env.inodeMem = false ∨ env.fate .inode = .ok ∧ (env.rootKnown = false ∨ env.dentryMem)

/-- loaded maps that are long enough -/
theorem minixGetSuper_covered (hs : env.fate .super = .ok) (hmagic : env.sb.magic = minixSuperMagic) (h : env.MapsLoad)
    (hcov : env.sb.Covered) :
    Ends (minixGetSuper env) (fun f => (f = .nullBlock ∨ f = .nullDentry) ∧ ¬ env.RootComes) fun r => env.RootComes ∧
      (r.ret = success ∧ r.root = some .dentry ∧ Loaded r.imap env.sb.imapBlocks ∧ Loaded r.zmap env.sb.zmapBlocks ∨
        r.ret = -error ∧ r.mem = 0) := by
  obtain ⟨ims, zms, hil, hzl, hrun⟩ := minixGetSuper_loads hs hmagic h hcov.imap.2 hcov.zmap.2
  obtain ⟨ims', zms', hil', hzl', hio, hzo, hcount⟩ := countMaps_covered hcov hil hzl
  rw [hrun]
  simp only [hcount, bind, Except.bind, ← hio, ← hzo]
  refine getRoot_ends.imp (fun f hf => ?_) fun r hr => ⟨hr.2, hr.1.imp_left fun hok => ?_⟩
  · obtain ⟨rfl, hmem, hno⟩ | ⟨rfl, hmem, hknown, hno⟩ := hf
    · refine ⟨Or.inl rfl, fun hroot => ?_⟩
      obtain hroot | hroot := hroot
      · exact absurd (hroot.symm.trans hmem) (by decide)
      · exact hno hroot.1
    · refine ⟨Or.inr rfl, fun hroot => ?_⟩
      obtain hroot | ⟨-, hroot | hroot⟩ := hroot
      · exact absurd (hroot.symm.trans hmem) (by decide)
      · exact absurd (hroot.symm.trans hknown) (by decide)
      · exact absurd (hno.symm.trans hroot) (by decide)
  · obtain ⟨hret, hroot, himap, hzmap⟩ := hok
    rw [himap, hzmap]
    exact ⟨hret, hroot, loaded_filled (hil'.trans hil), loaded_filled (hzl'.trans hzl)⟩

/-! ## Results -/

/-- the maps are long enough for what the disk says, where the code gets to them -/
def Env.MapsRight (env : Env) : Prop :=
  env.fate .super = .ok → env.sb.magic = minixSuperMagic →
    env.Fits .imap env.sb.imapBlocks ∧ env.Fits .zmap env.sb.zmapBlocks ∧ (env.MapsLoad → env.sb.Covered)

/-- no access outside of imap and zmap, and no use of an entry that is not loaded -/
def Env.InRange (env : Env) : Prop := Ends (minixGetSuper env) (fun f => f ≠ .slot ∧ f ≠ .null) fun _ => True

/-- **The maps stay in range exactly when they are long enough.** -/
theorem in_range_iff (env : Env) : env.InRange ↔ env.MapsRight := by
  by_cases hearly : env.fate .super = .ok → env.sb.magic ≠ minixSuperMagic
  · refine iff_of_true ((minixGetSuper_early hearly).imp (fun _ h => h.elim) fun _ _ => trivial) ?_
    intro hs hmagic
    exact absurd hmagic (hearly hs)
  obtain ⟨hs, hmagic⟩ : env.fate .super = .ok ∧ env.sb.magic = minixSuperMagic := by simpa using hearly
  by_cases hall : env.MapsLoad ∧ env.Fits .imap env.sb.imapBlocks ∧ env.Fits .zmap env.sb.zmapBlocks
  · obtain ⟨hload, hi, hz⟩ := hall
    obtain ⟨hi8, hz8⟩ := hload.fits hi hz
    by_cases hcov : env.sb.Covered
    · refine iff_of_true ((minixGetSuper_covered hs hmagic hload hcov).imp (fun f hf => ?_) fun _ _ => trivial) fun _ _ =>
        ⟨hi, hz, fun _ => hcov⟩
      obtain ⟨rfl | rfl, -⟩ := hf <;> decide
    · refine iff_of_false ((minixGetSuper_uncovered hs hmagic hload hi8 hz8 hcov).clash (fun _ h => h.elim) fun f hf => ?_)
        fun h => hcov ((h hs hmagic).2.2 hload)
      obtain rfl | rfl := hf
      · exact fun h => h.1 rfl
      · exact fun h => h.2 rfl
  · have hends := minixGetSuper_stops hs hmagic hall
    by_cases hfit : env.Fits .imap env.sb.imapBlocks ∧ env.Fits .zmap env.sb.zmapBlocks
    · refine iff_of_true (hends.imp (fun f hf => ?_) fun _ _ => trivial) fun _ _ =>
        ⟨hfit.1, hfit.2, fun hload => absurd ⟨hload, hfit⟩ hall⟩
      obtain ⟨-, hno⟩ | ⟨rfl, -⟩ := hf
      · exact absurd hfit hno
      · decide
    · refine iff_of_false (hends.clash (fun r hr => absurd hr.1 hfit) fun f hf => ?_) fun h =>
        hfit ⟨(h hs hmagic).1, (h hs hmagic).2.1⟩
      obtain ⟨rfl, -⟩ | ⟨-, hfits⟩ := hf
      · exact fun h => h.1 rfl
      · exact absurd hfits hfit

/-- SUCCESS means a root dentry and loaded maps, an error that nothing is left, and one of the two comes -/
def Env.Clean (env : Env) : Prop :=
  Ends (minixGetSuper env) (fun _ => False) fun r =>
    (r.ret = success → r.root = some .dentry ∧ Loaded r.imap env.sb.imapBlocks ∧ Loaded r.zmap env.sb.zmapBlocks) ∧
    (r.ret ≠ success → r.mem = 0)

/-- the failures and the disks that the code is ready for -/
def Env.Ready (env : Env) : Prop :=
  env.fate .super = .noRead ∨ env.fate .super = .ok ∧
    (env.sb.magic ≠ minixSuperMagic ∨ env.MapsLoad ∧ env.sb.Covered ∧ env.RootComes)

/-- **The mount is clean exactly when the code is ready for what fails.** -/
theorem clean_iff (env : Env) : env.Clean ↔ env.Ready := by
  by_cases hearly : env.fate .super = .ok → env.sb.magic ≠ minixSuperMagic
  · have hends := minixGetSuper_early hearly
    by_cases hmem : env.fate .super = .noMem
    · refine iff_of_false (hends.clash (fun r hr hclean => ?_) fun _ h => h.elim) ?_
      · exact hr.2.1 (hclean.2 (by rw [hr.1]; decide)) hmem
      · simp [Env.Ready, hmem]
    · refine iff_of_true (hends.imp (fun _ h => h) fun r hr => ⟨fun h => ?_, fun _ => hr.2.2 hmem⟩) ?_
      · exact absurd (hr.1.symm.trans h) (by decide)
      · cases hs : env.fate .super with
        | noRead => exact Or.inl hs
        | noMem => exact absurd hs hmem
        | ok => exact Or.inr ⟨hs, Or.inl (hearly hs)⟩
  obtain ⟨hs, hmagic⟩ : env.fate .super = .ok ∧ env.sb.magic = minixSuperMagic := by simpa using hearly
  have hready : env.Ready ↔ env.MapsLoad ∧ env.sb.Covered ∧ env.RootComes := by simp [Env.Ready, hs, hmagic]
  rw [hready]
  by_cases hall : env.MapsLoad ∧ env.Fits .imap env.sb.imapBlocks ∧ env.Fits .zmap env.sb.zmapBlocks
  · obtain ⟨hload, hi, hz⟩ := hall
    obtain ⟨hi8, hz8⟩ := hload.fits hi hz
    by_cases hcov : env.sb.Covered
    · have hends := minixGetSuper_covered hs hmagic hload hcov
      by_cases hroot : env.RootComes
      · refine iff_of_true (hends.imp (fun f hf => hf.2 hroot) fun r hr => ?_) ⟨hload, hcov, hroot⟩
        obtain ⟨hret, hok⟩ | ⟨hret, hmem⟩ := hr.2
        · exact ⟨fun _ => hok, fun h => absurd hret h⟩
        · exact ⟨fun h => absurd (hret.symm.trans h) (by decide), fun _ => hmem⟩
      · exact iff_of_false (hends.clash (fun r hr _ => hroot hr.1) fun _ _ => id) fun h => hroot h.2.2
    · exact iff_of_false ((minixGetSuper_uncovered hs hmagic hload hi8 hz8 hcov).clash (fun _ h => h.elim) fun _ _ => id)
        fun h => hcov h.2.1
  · refine iff_of_false ((minixGetSuper_stops hs hmagic hall).clash (fun r hr hclean => ?_) fun _ _ => id) fun h => hall ?_
    · have hroot := (hclean.1 hr.2.1).1
      rw [hr.2.2] at hroot
      exact absurd hroot (by simp)
    · exact ⟨h.1, Or.inl h.2.1.imap.2, Or.inl h.2.1.zmap.2⟩

/-! ## Runs that go wrong -/

/-- a disk with the shorts of a super block in block 1, and directories for inodes -/
def diskOf (shorts : List ℕ) : ℕ → Ptr := fun b i =>
  if b = 0 then BitVec.ofNat 8 (shorts.getD ((i - minixBlockSize) / 2) 0 / 256 ^ (i % 2))
  else BitVec.ofNat 8 (0o040755 / 256 ^ (i % 2))

/-- 64 inodes and 8195 zones, of which 8189 are data zones: a bitmap of one block has a bit for each -/
def largeFs : Env := ⟨diskOf [64, 8195, 1, 1, 6, 0, 0x1c00, 0x1008, 0x137f], fun _ => .ok, true, true⟩

/-- **A valid file system on which the zones are counted past the bitmap.** -/
theorem largeFs_null : largeFs.sb = ⟨64, 8195, 1, 1, 6, 0, 268966912, 0x137f⟩ ∧
    (minixGetSuper largeFs).map Result.ret = .error .null ∧ ¬ largeFs.InRange := by
  have hnull : (minixGetSuper largeFs).map Result.ret = .error .null := by decide +kernel
  refine ⟨by decide +kernel, hnull, fun h => ?_⟩
  cases hrun : minixGetSuper largeFs with
  | ok r => simp [hrun, Except.map] at hnull
  | error f =>
    obtain rfl : f = .null := by simpa [hrun, Except.map] using hnull
    exact (h.error hrun).2 rfl

/-- 64 inodes and 360 zones; the read of block 2 fails -/
def badRead : Env :=
  ⟨diskOf [64, 360, 1, 1, 6, 0, 0x1c00, 0x1008, 0x137f], fun s => if s = .imap 0 then .noRead else .ok, true, true⟩

/-- **A failed read of a map gives SUCCESS and no root.** -/
theorem badRead_success : (minixGetSuper badRead).map (fun r => (r.ret, r.root)) = .ok (success, none) ∧ ¬ badRead.Clean := by
  have hsuccess : (minixGetSuper badRead).map (fun r => (r.ret, r.root)) = .ok (success, none) := by decide +kernel
  refine ⟨hsuccess, fun h => ?_⟩
  cases hrun : minixGetSuper badRead with
  | error f => exact h.error hrun
  | ok r =>
    have hr : (r.ret, r.root) = (success, none) := by simpa [hrun, Except.map] using hsuccess
    have hroot := ((h.value hrun).1 (congrArg Prod.fst hr)).1
    exact absurd ((congrArg Prod.snd hr).symm.trans hroot) (by simp)

example : (minixGetSuper { badRead with fate := fun _ => .ok }).map (fun r => (r.ret, r.root)) = .ok (success, some .dentry) := by
  decide +kernel

end SinsOs.Minix.Super
