/-
The loops of the minix code when calls fail: minix_file_read (fs/minix/read.c), and minix_lookup (fs/minix/inode.c) with iget,
iput and dget as it calls them.

minix_block of minix_lookup is NULL behind a block of the directory that is a hole or could not be read, and minix_d then stays
in a page that was given back (`Env.stale`). A reference to an inode is held as the inode itself is.

- `read_handled`, `lookup_handled`: which failures the two loops handle, turn by turn.
- `failures_iff`: which failures the six functions handle.
-/
import SinsOs.Core.Lts
import SinsOs.Fs.Minix.Failures

namespace SinsOs.Minix.Failures

open SinsOs.Core SinsOs.Lib SinsOs.Minix
open Relation (ReflTransGen)

/-! ## minix_file_read -/

/-- one turn, and whether the loop goes on -/
def turn (env : Env) (inode : Inode) (left pos : ℕ) (w : World) : Except Fault ((Loop × Bool) × World) := do
  let (b, w) ← fileBlock env inode (pos / minixBlockSize) w
  match b with
  | none => .ok ((⟨left, pos, []⟩, false), w)
  | some mb =>
    let nr := pos % minixBlockSize
    let chars := min (minixBlockSize - nr) left
    let remains := min (if pos < inode.size then inode.size - pos else 0) chars
    let pos := pos + remains
    let left := left - remains
    match mb with
    | some mb => do
      let bytes := (List.range remains).map fun i => mb.data (nr + i)
      let w ← putMinixBlock env mb w
      .ok ((⟨left, pos, bytes⟩, decide ¬ pos ≥ inode.size), w)
    | none =>
      if pos < inode.size then .ok ((⟨left, pos, List.replicate remains 0⟩, false), w)
      else .ok ((⟨left + remains, pos, []⟩, false), w)

/-- the loop; a turn that does not end it takes a byte of `left` at least -/
def readLoop (env : Env) (inode : Inode) : ℕ → ℕ → ℕ → World → Except Fault (Loop × World)
  | 0, left, pos, w => .ok (⟨left, pos, []⟩, w)
  | fuel + 1, left, pos, w =>
    if left = 0 then .ok (⟨left, pos, []⟩, w)
    else do
      let ((l, more), w) ← turn env inode left pos w
      if more then do
        let (r, w) ← readLoop env inode fuel l.left l.pos w
        .ok ({ r with stored := l.stored ++ r.stored }, w)
      else .ok (l, w)

def minixFileRead (env : Env) (inode : Inode) (size pos : ℕ) (w : World) : Except Fault (Result × World) := do
  let (l, w) ← readLoop env inode size size pos w
  .ok (⟨if size - l.left ≠ 0 then ((size - l.left : ℕ) : ℤ) else -eIo, l.pos, l.stored⟩, w)

/-! ## Turns of the read -/

/-- where a turn of the read begins -/
structure Spot where
  left : ℕ
  pos : ℕ
  calls : ℕ

/-- a turn that reads its block and does not come to the end of the file leads to the next -/
structure Spot.Next (env : Env) (inode : Inode) (s s' : Spot) : Prop where
  left : s.left ≠ 0
  mapped : Mapped env.device inode (s.pos / minixBlockSize)
  quiet : env.Quiet s.calls (fileCalls env inode (s.pos / minixBlockSize))
  inside : stopOf inode s.left s.pos < inode.size
  goes : s' = ⟨s.left - (stopOf inode s.left s.pos - s.pos), stopOf inode s.left s.pos,
    s.calls + fileCalls env inode (s.pos / minixBlockSize)⟩

/-- _bmap has this block, no kmalloc of a struct minix_block is the first call to fail, and where _bmap has a call that fails
the request goes on behind the block, or to the end of the file at least -/
def Spot.Safe (env : Env) (inode : Inode) (s : Spot) : Prop :=
  s.left = 0 ∨ s.pos / minixBlockSize < maxBlocks ∧ env.Kept s.calls (fileCalls env inode (s.pos / minixBlockSize)) ∧
    (env.Quiet s.calls (bmapCalls env inode (s.pos / minixBlockSize)) ∨
      minixBlockSize - s.pos % minixBlockSize < s.left ∨ inode.size ≤ s.pos + s.left)

/-- every turn that the read comes to is safe -/
def SafeRead (env : Env) (inode : Inode) (size pos n : ℕ) : Prop :=
  ∀ s, ReflTransGen (Spot.Next env inode) ⟨size, pos, n⟩ s → s.Safe env inode

/-- a short count, or -EIO -/
def Short (inode : Inode) (size pos : ℕ) (r : Result) : Prop := r.ret < (min size (inode.size - pos) : ℕ)

variable {env : Env} {inode : Inode} {n m k i left pos size start : ℕ} {held : Multiset Obj}

/-- what a turn over a hole does -/
def holeLoop (inode : Inode) (left pos : ℕ) : Loop :=
  let n := min (if pos < inode.size then inode.size - pos else 0) (min (minixBlockSize - pos % minixBlockSize) left)
  if pos + n < inode.size then ⟨left - n, pos + n, List.replicate n 0⟩ else ⟨left - n + n, pos + n, []⟩

/-- without failures a turn is the turn on a sound device -/
theorem turn_quiet (left : ℕ) (held : Multiset Obj) (hmax : pos / minixBlockSize < maxBlocks)
    (h : env.Quiet n (fileCalls env inode (pos / minixBlockSize))) :
    ∃ t, Minix.turn env.device inode left pos = some t ∧
      turn env inode left pos ⟨held, n⟩ = .ok (t, ⟨held, n + fileCalls env inode (pos / minixBlockSize)⟩) := by
  rw [Minix.turn, bmap_eq (device_sound env), if_neg (not_le.2 hmax), turn, file_quiet hmax h, Env.fileMb]
  by_cases hm : Mapped env.device inode (pos / minixBlockSize)
  · rw [if_pos hm]
    simp only [dataBlock_some (device_sound env) hm, bind, Except.bind, objsOf, Option.elim]
    refine ⟨_, rfl, ?_⟩
    rw [put_objs (mbAt_clean _ _ _)]
    rfl
  · rw [if_neg hm]
    simp only [dataBlock_none hm, bind, Except.bind, objsOf, Option.elim, zero_add]
    split_ifs <;> exact ⟨_, rfl, rfl⟩

/-- a turn with a failure is the last one -/
theorem turn_first (hmax : pos / minixBlockSize < maxBlocks) (h : env.First n i)
    (hi : i < fileCalls env inode (pos / minixBlockSize)) :
    turn env inode left pos ⟨held, n⟩ =
      .ok ((if i < bmapCalls env inode (pos / minixBlockSize) then holeLoop inode left pos else ⟨left, pos, []⟩, false),
        ⟨lost n i + held, n + i + 1⟩) := by
  rw [turn, file_first hmax h hi]
  by_cases hb : i < bmapCalls env inode (pos / minixBlockSize)
  · simp only [if_pos hb, bind, Except.bind, holeLoop]
    split_ifs <;> rfl
  · simp only [if_neg hb, bind, Except.bind]

/-! ## The loop of the read -/

/-- what the loop leaves for minix_file_read to tell of -/
def LoopShort (inode : Inode) (size start : ℕ) (l : Loop) : Prop :=
  size - l.left = 0 ∨ size - l.left < min size (inode.size - start)

theorem short_iff {l : Loop} : Short inode size start
    ⟨if size - l.left ≠ 0 then ((size - l.left : ℕ) : ℤ) else -eIo, l.pos, l.stored⟩ ↔
    LoopShort inode size start l := by
  rw [Short, LoopShort]
  dsimp only
  split_ifs with h
  · rw [Nat.cast_lt, or_iff_right h]
  · refine iff_of_true ?_ (Or.inl (not_not.1 h))
    have heio : (0 : ℤ) < eIo := by decide
    omega

/-- the loop at `pos` of a read that began at `start` -/
structure Begun (inode : Inode) (size start left pos : ℕ) : Prop where
  total : left + pos = size + start
  le : start ≤ pos
  inside : pos = start ∨ pos < inode.size

/-- what is left in a turn that does not go through -/
theorem short_here (h : Begun inode size start left pos) (hleft : left ≠ 0) :
    LoopShort inode size start ⟨left, pos, []⟩ := by
  obtain ⟨htotal, hle, hinside⟩ := h
  unfold LoopShort
  dsimp only
  omega

theorem short_hole (h : Begun inode size start left pos) (hleft : left ≠ 0) :
    LoopShort inode size start (holeLoop inode left pos) ↔
      minixBlockSize - pos % minixBlockSize < left ∨ inode.size ≤ pos + left := by
  obtain ⟨htotal, hle, hinside⟩ := h
  have hoff : pos % minixBlockSize < minixBlockSize := Nat.mod_lt _ (by decide)
  unfold LoopShort holeLoop
  dsimp only
  split_ifs <;> dsimp only <;> omega

/-- a turn that does not come to the end of the file goes on -/
theorem stopOf_bounds (left : ℕ) (h : stopOf inode left pos < inode.size) (hleft : left ≠ 0) :
    pos < stopOf inode left pos ∧ stopOf inode left pos - pos ≤ left := by
  have hoff : pos / minixBlockSize * minixBlockSize ≤ pos ∧ pos < (pos / minixBlockSize + 1) * minixBlockSize :=
    ⟨Nat.div_mul_le_self _ _, lt_blockEnd pos⟩
  unfold stopOf at *
  omega

/-- a failed call behind calls that did not fail -/
theorem handled_later {α : Type} {owned : α → Multiset Obj} {tells : α → Prop} {r : Except Fault (α × World)}
    (h : env.Quiet n k) : Handled env n held owned tells r ↔ Handled env (n + k) held owned tells r := by
  unfold Handled
  simp only [h.failed_iff]

/-- a result that is looked at in another way -/
theorem handled_map {α β : Type} (owned : β → Multiset Obj) (tells : β → Prop) (f : α → β)
    (r : Except Fault (α × World)) : Handled env n held owned tells (r >>= fun x => .ok (f x.1, x.2)) ↔
    Handled env n held (owned ∘ f) (tells ∘ f) r := by
  cases r with
  | error e => exact iff_of_false (not_handled rfl) (not_handled rfl)
  | ok x =>
    obtain ⟨a, w⟩ := x
    constructor
    · rintro ⟨_, _, h, hheld, htell⟩
      cases h
      exact ⟨a, w, rfl, hheld, htell⟩
    · rintro ⟨_, _, h, hheld, htell⟩
      cases h
      exact ⟨f a, w, rfl, hheld, htell⟩

/-- **The loop of minix_file_read.** -/
theorem readLoop_handled (size start : ℕ) (fuel : ℕ) :
    ∀ left pos n held, left ≤ fuel → Begun inode size start left pos →
    (Handled env n held (fun _ => 0) (LoopShort inode size start) (readLoop env inode fuel left pos ⟨held, n⟩) ↔
      SafeRead env inode left pos n) := by
  have hend : ∀ pos n held fuel, Handled env n held (fun _ => 0) (LoopShort inode size start)
      (readLoop env inode fuel 0 pos ⟨held, n⟩) ↔ SafeRead env inode 0 pos n := by
    intro pos n held fuel
    have hr : readLoop env inode fuel 0 pos ⟨held, n⟩ = .ok (⟨0, pos, []⟩, ⟨held, n⟩) := by cases fuel <;> rfl
    refine iff_of_true (handled_quiet (k := 0) (a := ⟨0, pos, []⟩) ?_ fun i hi => absurd hi (Nat.not_lt_zero i)) ?_
    · rw [hr, zero_add]
      rfl
    · exact (forall_reaches_last fun u hu => hu.left rfl).2 (Or.inl rfl)
  induction fuel with
  | zero =>
    intro left pos n held hle _
    obtain rfl := Nat.le_zero.1 hle
    exact hend pos n held 0
  | succ fuel ih =>
    intro left pos n held hle hbegun
    by_cases hleft : left = 0
    · subst hleft
      exact hend pos n held (fuel + 1)
    rw [readLoop, if_neg hleft, SafeRead]
    by_cases hmax : pos / minixBlockSize < maxBlocks
    swap
    · -- the BUG_ON of _bmap
      refine iff_of_false (not_handled (e := .bug) ?_) fun h => ?_
      · rw [turn, fileBlock, bmap, if_pos (not_lt.1 hmax)]
        rfl
      · exact (h _ .refl).elim hleft fun h => hmax h.1
    rcases quiet_or_first env n (fileCalls env inode (pos / minixBlockSize)) with hq | ⟨i, hi, hf⟩
    · have hsafe : (Spot.mk left pos n).Safe env inode :=
        Or.inr ⟨hmax, hq.kept, Or.inl (hq.mono (Nat.le_add_right _ _))⟩
      obtain ⟨t, ht, hturn⟩ := turn_quiet left held hmax hq
      rw [turn_eq (device_sound env), if_neg (not_le.2 hmax)] at ht
      rw [hturn]
      by_cases hgo : Mapped env.device inode (pos / minixBlockSize) ∧ stopOf inode left pos < inode.size
      · obtain ⟨hm, hstop⟩ := hgo
        rw [if_pos (Or.inl hm), decide_eq_true ⟨hm, hstop⟩] at ht
        obtain rfl := Option.some.inj ht
        have hnext : ∀ u, Spot.Next env inode ⟨left, pos, n⟩ u ↔ u = ⟨left - (stopOf inode left pos - pos),
            stopOf inode left pos, n + fileCalls env inode (pos / minixBlockSize)⟩ := fun u =>
          ⟨fun h => h.goes, fun h => ⟨hleft, hm, hq, hstop, h⟩⟩
        have hrange := stopOf_bounds left hstop hleft
        rw [forall_reaches_step hnext, and_iff_right hsafe, handled_later hq]
        refine Iff.trans ?_ (ih _ _ _ held (by omega) ⟨by have := hbegun.total; omega, by have := hbegun.le; omega,
          Or.inr hstop⟩)
        exact handled_map (fun _ => 0) (LoopShort inode size start) (fun r : Loop => { r with stored := _ ++ r.stored }) _
      · -- the turn ends the loop
        have hlast : ∀ u, ¬ Spot.Next env inode ⟨left, pos, n⟩ u := fun u hu => hgo ⟨hu.mapped, hu.inside⟩
        rw [forall_reaches_last hlast]
        have hmore : t.2 = false := by
          split_ifs at ht
          · rw [decide_eq_false hgo] at ht
            exact (Option.some.inj ht) ▸ rfl
          · exact (Option.some.inj ht) ▸ rfl
        obtain ⟨l, more⟩ := t
        subst hmore
        refine iff_of_true (handled_quiet (k := fileCalls env inode (pos / minixBlockSize)) (a := l) ?_ hq) hsafe
        rw [zero_add]
        rfl
    · -- a call fails
      have hlast : ∀ u, ¬ Spot.Next env inode ⟨left, pos, n⟩ u := fun u hu => hf.not_quiet hi hu.quiet
      rw [forall_reaches_last hlast, Spot.Safe, or_iff_right hleft, and_iff_right hmax, turn_first hmax hf hi]
      by_cases hb : i < bmapCalls env inode (pos / minixBlockSize)
      · rw [if_pos hb, or_iff_right (hf.not_quiet hb), ← short_hole hbegun hleft, hf.kept_iff hi]
        refine (handled_ok (a := holeLoop inode left pos) rfl).trans ?_
        rw [add_left_inj, lost_eq_zero]
        exact and_congr_right fun _ => ⟨fun h => h (hf.failed (Nat.lt_succ_self _)), fun h _ => h⟩
      · rw [if_neg hb, and_iff_left (Or.inl (hf.1.mono (not_lt.1 hb)))]
        exact handled_first rfl hf hi rfl (short_here hbegun hleft)

/-- **minix_file_read.** -/
theorem read_handled (env : Env) (inode : Inode) (n : ℕ) (held : Multiset Obj) (size pos : ℕ) :
    Handled env n held (fun _ => 0) (Short inode size pos) (minixFileRead env inode size pos ⟨held, n⟩) ↔
      SafeRead env inode size pos n := by
  have hshort : LoopShort inode size pos = Short inode size pos ∘ fun l : Loop =>
      ⟨if size - l.left ≠ 0 then ((size - l.left : ℕ) : ℤ) else -eIo, l.pos, l.stored⟩ := by
    funext l
    exact propext short_iff.symm
  rw [← readLoop_handled size pos size size pos n held le_rfl ⟨rfl, le_rfl, Or.inl rfl⟩, hshort]
  exact handled_map (fun _ => 0) (Short inode size pos) (fun l : Loop =>
    (⟨if size - l.left ≠ 0 then ((size - l.left : ℕ) : ℤ) else -eIo, l.pos, l.stored⟩ : Result)) _

/-! ## iget, iput and dget -/

/-- the number of the inode; `fresh` where dget made the dentry -/
structure Found where
  nr : ℕ
  name : Ptr
  fresh : Bool

/-- the dentry's reference to itself, and those a new one holds -/
def Found.objs (f : Found) : Multiset Obj := .dentry f.nr ::ₘ if f.fresh then .parent ::ₘ {.inode f.nr} else 0

def iget (env : Env) (nr : ℕ) (w : World) : Except Fault (Option ℕ × World) :=
  if env.inodeCached nr then .ok (some nr, { w with held := .inode nr ::ₘ w.held })
  else match alloc env (fun _ => .inode nr) w with
    | (none, w) => .ok (none, w)
    | (some _, w) => do
      let (loaded, w) ← minixReadInode env nr w
      match loaded with
      | none => do
        let w ← release (.inode nr) w
        .ok (none, w)
      | some _ => .ok (some nr, w)

def iput (nr : ℕ) (w : World) : Except Fault World := release (.inode nr) w

def dget (env : Env) (nr : ℕ) (w : World) : Option Found × World :=
  match env.dentryCached nr with
  | some name => (some ⟨nr, name, false⟩, { w with held := .dentry nr ::ₘ w.held })
  | none =>
    match alloc env (fun _ => .dentry nr) w with
    | (none, w) => (none, w)
    | (some _, w) => (some ⟨nr, fun _ => 0, true⟩, { w with held := .parent ::ₘ .inode nr ::ₘ w.held })

/-! ## minix_lookup -/

/-- i, minix_d and minix_block -/
structure Cursor where
  i : ℕ
  data : Ptr
  slot : ℕ
  mb : Option Mb

inductive Turn
  | found (c : Cursor)
  | next (c : Cursor)

def Cursor.advance (c : Cursor) : Cursor := { c with i := c.i + 1, slot := c.slot + 1 }

/-- behind a block that is not there -/
def Cursor.skip (env : Env) (c : Cursor) (calls : ℕ) : Cursor := ⟨c.i + dentriesPerBlock, env.stale calls, c.slot, none⟩

def compareEntry (tmp : Ptr) (c : Cursor) : Turn :=
  if slotInr c.data c.slot ≠ 0 ∧ strncmp tmp (slotName c.data c.slot) minixNameLen = 0 then .found c else .next c.advance

/-- one turn of the loop -/
def lookupTurn (env : Env) (inode : Inode) (tmp : Ptr) (c : Cursor) (w : World) : Except Fault (Turn × World) :=
  if slotInr c.data c.slot ≠ 0 then
    match c.mb with
    -- minix_block->data is read
    | none => .error .null
    | some mb =>
      if c.slot ≥ dentriesPerBlock then do
        let w ← putMinixBlock env mb w
        let (b, w) ← fileBlock env inode (c.i / dentriesPerBlock) w
        match b.join with
        | none => .ok (.next (c.skip env w.calls), w)
        | some mb => .ok (compareEntry tmp ⟨c.i, mb.data, 0, some mb⟩, w)
      else .ok (compareEntry tmp c, w)
  else .ok (compareEntry tmp c, w)

/-- the loop; every turn adds one to i at least -/
def lookupLoop (env : Env) (inode : Inode) (tmp : Ptr) (dentries : ℕ) :
    ℕ → Cursor → World → Except Fault (Turn × World)
  | 0, c, w => .ok (.next c, w)
  | fuel + 1, c, w =>
    if c.i < dentries then do
      let (t, w) ← lookupTurn env inode tmp c w
      match t with
      | .found c => .ok (.found c, w)
      | .next c => lookupLoop env inode tmp dentries fuel c w
    else .ok (.next c, w)

/-- the entry that was found; an inode without a dentry is put, an inode with one is not -/
def loadEntry (env : Env) (c : Cursor) (w : World) : Except Fault (Option Found × World) := do
  let (inodeFind, w) ← iget env (slotInr c.data c.slot) w
  match inodeFind with
  | none => .ok (none, w)
  | some nr =>
    match dget env nr w with
    | (none, w) => do
      let w ← iput nr w
      .ok (none, w)
    | (some d, w) => .ok (some { d with name := storedName d.name (slotName c.data c.slot) }, w)

def Turn.cursor : Turn → Cursor
  | .found c => c
  | .next c => c

def dentryRet (env : Env) : Turn → World → Except Fault (Option Found × World)
  | .found c, w => loadEntry env c w
  | .next _, w => .ok (none, w)

/-- what follows the loop -/
def find (env : Env) (t : Turn) (w : World) : Except Fault (Option Found × World) := do
  let (ret, w) ← dentryRet env t w
  match t.cursor.mb with
  | none => .ok (ret, w)
  | some mb => do
    let w ← putMinixBlock env mb w
    .ok (ret, w)

def minixLookup (env : Env) (inode : Inode) (stack : Ptr) (name : List Byte) (w : World) :
    Except Fault (Option Found × World) := do
  let dentries := inode.size / sizeofDentry
  let block := (inode.zone 0).toNat
  if block = 0 then .ok (none, w)
  else do
    let (mb, w) ← getMinixBlock env block w
    match mb with
    | none => .ok (none, w)
    | some mb => do
      let (t, w) ← lookupLoop env inode (tmpNameBuf stack name) dentries dentries ⟨0, mb.data, 0, some mb⟩ w
      find env t w

/-! ## Turns of the scan -/

/-- a turn of the scan at the test for the end of the block, or at the comparison of the entry -/
inductive Scan
  | test (c : Cursor) (calls : ℕ)
  | compare (c : Cursor) (calls : ℕ)

/-- the next block of the directory is there -/
def Cursor.inBlock (env : Env) (inode : Inode) (c : Cursor) (calls : ℕ) : Cursor :=
  ⟨c.i, env.device.bytes (inode.zoneOf env.device (c.i / dentriesPerBlock)), 0,
    env.fileMb inode (c.i / dentriesPerBlock) calls⟩

/-- the test is made at entries in use, behind the end of the block -/
def Cursor.Ends (c : Cursor) : Prop := slotInr c.data c.slot ≠ 0 ∧ dentriesPerBlock ≤ c.slot

/-- the entry is in use and has the name -/
def Cursor.Hits (tmp : Ptr) (c : Cursor) : Prop := Hit tmp c.data c.slot

inductive Scan.Next (env : Env) (inode : Inode) (tmp : Ptr) (dentries : ℕ) : Scan → Scan → Prop
  | stays {c : Cursor} {n : ℕ} : c.i < dentries → ¬ c.Ends → Next env inode tmp dentries (.test c n) (.compare c n)
  | changes {c : Cursor} {n : ℕ} : c.i < dentries → c.Ends → Mapped env.device inode (c.i / dentriesPerBlock) →
      env.Quiet n (fileCalls env inode (c.i / dentriesPerBlock)) → Next env inode tmp dentries (.test c n)
        (.compare (c.inBlock env inode n) (n + fileCalls env inode (c.i / dentriesPerBlock)))
  | hole {c : Cursor} {n : ℕ} : c.i < dentries → c.Ends → ¬ Mapped env.device inode (c.i / dentriesPerBlock) →
      env.Quiet n (fileCalls env inode (c.i / dentriesPerBlock)) → Next env inode tmp dentries (.test c n)
        (.test (c.skip env (n + fileCalls env inode (c.i / dentriesPerBlock)))
          (n + fileCalls env inode (c.i / dentriesPerBlock)))
  | fails {c : Cursor} {n i : ℕ} : c.i < dentries → c.Ends → i < fileCalls env inode (c.i / dentriesPerBlock) →
      env.First n i → Next env inode tmp dentries (.test c n) (.test (c.skip env (n + i + 1)) (n + i + 1))
  | miss {c : Cursor} {n : ℕ} : ¬ c.Hits tmp → Next env inode tmp dentries (.compare c n) (.test c.advance n)

/-- nothing is loaded for an entry, and its inode is not read without its block -/
def Unloaded (env : Env) (nr n : ℕ) : Prop :=
  if env.inodeCached nr then env.dentryCached nr = none ∧ env.fails n = true
  else env.fails n = true ∨ env.Quiet (n + 1) 4 ∧ (env.loaded nr = none ∨ env.fails (n + 1 + 4) = true)

/-- an entry in use is met with minix_block there only, the block is changed for one that _bmap has and without the loss of a
buffer, and nothing is loaded for the entry that is found -/
def Scan.Safe (env : Env) (inode : Inode) (tmp : Ptr) (dentries : ℕ) : Scan → Prop
  | .test c n => c.i < dentries → slotInr c.data c.slot ≠ 0 → c.mb ≠ none ∧ (dentriesPerBlock ≤ c.slot →
      c.i / dentriesPerBlock < maxBlocks ∧ env.Kept n (fileCalls env inode (c.i / dentriesPerBlock)))
  | .compare c n => c.Hits tmp → Unloaded env (slotInr c.data c.slot) n

/-- every turn that the scan comes to from here is safe -/
def SafeFrom (env : Env) (inode : Inode) (tmp : Ptr) (dentries : ℕ) (s : Scan) : Prop :=
  ∀ t, ReflTransGen (Scan.Next env inode tmp dentries) s t → t.Safe env inode tmp dentries

/-- the first block is not lost, and the scan of the directory is safe -/
def SafeLookup (env : Env) (inode : Inode) (stack : Ptr) (name : List Byte) (n : ℕ) : Prop :=
  (inode.zone 0).toNat = 0 ∨ env.Kept n 4 ∧ (env.Quiet n 4 →
    SafeFrom env inode (tmpNameBuf stack name) (inode.size / sizeofDentry)
      (.test ⟨0, env.device.bytes (inode.zone 0).toNat, 0, some (env.mbAt n (inode.zone 0).toNat)⟩ (n + 4)))

/-! ## The entry that is found -/

def foundObjs (r : Option Found) : Multiset Obj := r.elim 0 Found.objs

variable {tmp : Ptr} {dentries : ℕ} {c : Cursor} {w : World}

theorem iget_cached {nr : ℕ} (h : env.inodeCached nr = true) :
    iget env nr ⟨held, n⟩ = .ok (some nr, ⟨.inode nr ::ₘ held, n⟩) := by
  rw [iget, if_pos h]

theorem iget_fails {nr : ℕ} (h : env.inodeCached nr = false) (hf : env.fails n = true) :
    iget env nr ⟨held, n⟩ = .ok (none, ⟨held, n + 1⟩) := by
  rw [iget, if_neg (by rw [h]; exact Bool.false_ne_true), alloc_fails _ hf]

theorem iget_unread {nr : ℕ} (h : env.inodeCached nr = false) (hf : env.fails n = false) (hi : i < 4)
    (hread : env.First (n + 1) i) : iget env nr ⟨held, n⟩ = .error .null := by
  rw [iget, if_neg (by rw [h]; exact Bool.false_ne_true), alloc_ok _ hf]
  dsimp only
  rw [readInode_first hread hi]
  rfl

theorem iget_read {nr : ℕ} (held : Multiset Obj) (h : env.inodeCached nr = false) (hf : env.fails n = false)
    (hq : env.Quiet (n + 1) 4) :
    iget env nr ⟨held, n⟩ = .ok (match env.loaded nr with
      | none => (none, ⟨held, n + 1 + 4⟩)
      | some _ => (some nr, ⟨.inode nr ::ₘ held, n + 1 + 4⟩)) := by
  rw [iget, if_neg (by rw [h]; exact Bool.false_ne_true), alloc_ok _ hf]
  dsimp only
  rw [readInode_quiet hq]
  cases env.loaded nr with
  | none =>
    simp only [bind, Except.bind]
    rw [release_head]
  | some l => rfl

/-- dget fails, or its dentry comes with what it holds -/
theorem dget_cases (env : Env) (nr n : ℕ) (held : Multiset Obj) :
    (env.dentryCached nr = none ∧ env.fails n = true ∧ dget env nr ⟨held, n⟩ = (none, ⟨held, n + 1⟩)) ∨
    (¬ (env.dentryCached nr = none ∧ env.fails n = true) ∧
      ∃ d m, d.nr = nr ∧ dget env nr ⟨held, n⟩ = (some d, ⟨d.objs + held, m⟩)) := by
  unfold dget
  cases hd : env.dentryCached nr with
  | some name => exact Or.inr ⟨by simp, ⟨nr, name, false⟩, n, rfl, by simp [Found.objs]⟩
  | none =>
    cases hf : env.fails n with
    | true => exact Or.inl ⟨rfl, rfl, by rw [alloc_fails _ hf]⟩
    | false =>
      refine Or.inr ⟨by simp, ⟨nr, fun _ => 0, true⟩, n + 1, rfl, ?_⟩
      rw [alloc_ok _ hf]
      simp only [Found.objs, if_true, Multiset.cons_add, Multiset.singleton_add]
      rw [Multiset.cons_swap (Obj.inode nr) (.dentry nr), Multiset.cons_swap Obj.parent (.dentry nr)]

/-- with its inode there: nothing is loaded when dget fails, and else iget's reference stays -/
theorem load_dget {nr : ℕ} (hnr : slotInr c.data c.slot = nr) {v : World}
    (hget : iget env nr v = .ok (some nr, ⟨.inode nr ::ₘ held, n⟩)) :
    (env.dentryCached nr = none ∧ env.fails n = true ∧ loadEntry env c v = .ok (none, ⟨held, n + 1⟩)) ∨
    (¬ (env.dentryCached nr = none ∧ env.fails n = true) ∧
      ∃ f m, loadEntry env c v = .ok (some f, ⟨f.objs + (.inode f.nr ::ₘ held), m⟩)) := by
  rw [loadEntry, hnr, hget]
  simp only [bind, Except.bind]
  rcases dget_cases env nr n (.inode nr ::ₘ held) with ⟨hd, hf, hget⟩ | ⟨hnot, d, m, rfl, hget⟩
  · refine Or.inl ⟨hd, hf, ?_⟩
    rw [hget]
    simp only [iput, release_head]
  · refine Or.inr ⟨hnot, { d with name := storedName d.name (slotName c.data c.slot) }, m, ?_⟩
    rw [hget]
    rfl

theorem loadEntry_cases (env : Env) (c : Cursor) (n : ℕ) (held : Multiset Obj) :
    (Unloaded env (slotInr c.data c.slot) n ∧ ∃ m, loadEntry env c ⟨held, n⟩ = .ok (none, ⟨held, m⟩)) ∨
    (¬ Unloaded env (slotInr c.data c.slot) n ∧ (loadEntry env c ⟨held, n⟩ = .error .null ∨
      ∃ f m, loadEntry env c ⟨held, n⟩ = .ok (some f, ⟨f.objs + (.inode f.nr ::ₘ held), m⟩))) := by
  obtain ⟨nr, hnr⟩ : ∃ nr, slotInr c.data c.slot = nr := ⟨_, rfl⟩
  rw [hnr, Unloaded]
  cases hcached : env.inodeCached nr with
  | true =>
    rw [if_pos rfl]
    rcases load_dget hnr (iget_cached hcached) with ⟨hd, hf, hload⟩ | ⟨hnot, hload⟩
    · exact Or.inl ⟨⟨hd, hf⟩, n + 1, hload⟩
    · exact Or.inr ⟨hnot, Or.inr hload⟩
  | false =>
    rw [if_neg Bool.false_ne_true]
    have hnull : ∀ {r}, iget env nr ⟨held, n⟩ = r → loadEntry env c ⟨held, n⟩ = r >>= _ := fun h => by
      rw [loadEntry, hnr, h]
    cases hf : env.fails n with
    | true => exact Or.inl ⟨Or.inl rfl, n + 1, hnull (iget_fails hcached hf)⟩
    | false =>
      rw [or_iff_right Bool.false_ne_true]
      rcases quiet_or_first env (n + 1) 4 with hq | ⟨i, hi, hread⟩
      · rw [and_iff_right hq]
        have hget := iget_read held hcached hf hq
        cases hl : env.loaded nr with
        | none =>
          rw [hl] at hget
          exact Or.inl ⟨Or.inl rfl, n + 1 + 4, hnull hget⟩
        | some l =>
          rw [hl] at hget
          rw [or_iff_right (Option.some_ne_none l)]
          rcases load_dget hnr hget with ⟨-, hf, hload⟩ | ⟨hnot, hload⟩
          · exact Or.inl ⟨hf, _, hload⟩
          · exact Or.inr ⟨fun hf => hnot ⟨env.cached nr hcached, hf⟩, Or.inr hload⟩
      · exact Or.inr ⟨fun h => hread.not_quiet hi h.1, Or.inl (hnull (iget_unread hcached hf hi hread))⟩

/-! ## The scan -/

theorem find_ok {t : Turn} (hclean : ∀ mb, t.cursor.mb = some mb → mb.Clean) {r : Option Found}
    (hret : dentryRet env t w = .ok (r, ⟨objsOf t.cursor.mb + held, n⟩)) : find env t w = .ok (r, ⟨held, n⟩) := by
  rw [find, hret]
  simp only [bind, Except.bind]
  cases hmb : t.cursor.mb with
  | none => rw [objsOf, Option.elim, zero_add]
  | some mb =>
    dsimp only [objsOf, Option.elim]
    rw [put_objs (hclean mb hmb)]

theorem find_next (hclean : ∀ mb, c.mb = some mb → mb.Clean) (held : Multiset Obj) (n : ℕ) :
    find env (.next c) ⟨objsOf c.mb + held, n⟩ = .ok (none, ⟨held, n⟩) := find_ok (t := .next c) hclean rfl

theorem find_found (hclean : ∀ mb, c.mb = some mb → mb.Clean) (held : Multiset Obj) (m n : ℕ) :
    Handled env m held foundObjs IsNull (find env (.found c) ⟨objsOf c.mb + held, n⟩) ↔
      Unloaded env (slotInr c.data c.slot) n := by
  rcases loadEntry_cases env c n (objsOf c.mb + held) with ⟨hun, k, hload⟩ | ⟨hun, hload | ⟨f, k, hload⟩⟩
  · exact iff_of_true ((handled_ok (find_ok (t := .found c) hclean hload)).2 ⟨(zero_add held).symm, fun _ => rfl⟩) hun
  · refine iff_of_false (not_handled (e := .null) ?_) hun
    rw [find, dentryRet, hload]
    rfl
  · -- the reference that iget took is left
    refine iff_of_false (fun h => ?_) hun
    rw [← Multiset.add_cons, add_left_comm] at hload
    have hcard := congrArg Multiset.card ((handled_ok (find_ok (t := .found c) hclean hload)).1 h).1
    simp only [foundObjs, Option.elim, Multiset.card_add, Multiset.card_cons] at hcard
    omega

/-- without minix_block no call is made any more -/
theorem lookupLoop_null (env : Env) (inode : Inode) (tmp : Ptr) (dentries : ℕ) (w : World) (fuel : ℕ) :
    ∀ c : Cursor, c.mb = none →
    lookupLoop env inode tmp dentries fuel c w = .error .null ∨
      ∃ c' : Cursor, c'.mb = none ∧ lookupLoop env inode tmp dentries fuel c w = .ok (.next c', w) := by
  induction fuel with
  | zero => exact fun c hmb => Or.inr ⟨c, hmb, rfl⟩
  | succ fuel ih =>
    intro c hmb
    rw [lookupLoop]
    by_cases hi : c.i < dentries
    · rw [if_pos hi, lookupTurn]
      by_cases hinr : slotInr c.data c.slot ≠ 0
      · rw [if_pos hinr, hmb]
        exact Or.inl rfl
      · rw [if_neg hinr, compareEntry, if_neg fun h => hinr h.1]
        exact ih c.advance hmb
    · rw [if_neg hi]
      exact Or.inr ⟨c, hmb, rfl⟩

/-- the scan and what follows it -/
def scan (env : Env) (inode : Inode) (tmp : Ptr) (dentries fuel : ℕ) (c : Cursor) (w : World) :
    Except Fault (Option Found × World) :=
  lookupLoop env inode tmp dentries fuel c w >>= fun x => find env x.1 x.2

/-- a buffer that was lost is missed at the end -/
theorem scan_lost {fuel : ℕ} {lost : Multiset Obj} (hmb : c.mb = none) (hlost : lost ≠ 0) :
    ¬ Handled env m held foundObjs IsNull (scan env inode tmp dentries fuel c ⟨lost + held, n⟩) := by
  rw [scan]
  rcases lookupLoop_null env inode tmp dentries ⟨lost + held, n⟩ fuel c hmb with hnull | ⟨c', hmb', hnext⟩
  · exact not_handled (by rw [hnull]; rfl)
  · intro h
    have hfind : find env (.next c') ⟨objsOf c'.mb + (lost + held), n⟩ = _ :=
      find_next (fun mb h => by rw [hmb'] at h; cases h) (lost + held) n
    rw [hmb', objsOf, Option.elim, zero_add] at hfind
    rw [hnext] at h
    exact hlost (add_right_cancel ((handled_ok hfind).1 h).1)

/-- what follows a turn -/
def rest (env : Env) (inode : Inode) (tmp : Ptr) (dentries fuel : ℕ) : Turn → World → Except Fault (Option Found × World)
  | .found c, w => find env (.found c) w
  | .next c, w => scan env inode tmp dentries fuel c w

theorem scan_succ (fuel : ℕ) (hi : c.i < dentries) : scan env inode tmp dentries (fuel + 1) c w =
    lookupTurn env inode tmp c w >>= fun x => rest env inode tmp dentries fuel x.1 x.2 := by
  rw [scan, lookupLoop, if_pos hi]
  cases lookupTurn env inode tmp c w with
  | error e => rfl
  | ok x =>
    obtain ⟨t, w⟩ := x
    cases t <;> rfl

/-- what the scan does from a cursor on is handled -/
def ScanHandled (env : Env) (inode : Inode) (tmp : Ptr) (dentries m : ℕ) (held : Multiset Obj) (fuel : ℕ) (c : Cursor)
    (n : ℕ) : Prop :=
  Handled env m held foundObjs IsNull (scan env inode tmp dentries fuel c ⟨objsOf c.mb + held, n⟩)

theorem compare_handled {fuel : ℕ} (hclean : ∀ mb, c.mb = some mb → mb.Clean)
    (hnext : ScanHandled env inode tmp dentries m held fuel c.advance n ↔
      SafeFrom env inode tmp dentries (.test c.advance n)) :
    Handled env m held foundObjs IsNull
      (rest env inode tmp dentries fuel (compareEntry tmp c) ⟨objsOf c.mb + held, n⟩) ↔
      SafeFrom env inode tmp dentries (.compare c n) := by
  by_cases hhit : c.Hits tmp
  · rw [compareEntry, if_pos (show _ ∧ _ from hhit), SafeFrom,
      forall_reaches_last fun u hu => by cases hu; exact ‹¬ c.Hits tmp› hhit]
    exact (find_found hclean held m n).trans ⟨fun h _ => h, fun h => h hhit⟩
  · have hstep : ∀ u, Scan.Next env inode tmp dentries (.compare c n) u ↔ u = .test c.advance n := fun u =>
      ⟨fun h => by cases h; rfl, fun h => h ▸ .miss hhit⟩
    have hsafe : (Scan.compare c n).Safe env inode tmp dentries := fun h => absurd h hhit
    rw [compareEntry, if_neg (show ¬ (_ ∧ _) from hhit), SafeFrom, forall_reaches_step hstep, and_iff_right hsafe]
    exact hnext

/-- at the end of the scan -/
theorem scan_end {fuel : ℕ} (hclean : ∀ mb, c.mb = some mb → mb.Clean) (hi : ¬ c.i < dentries) :
    ScanHandled env inode tmp dentries m held fuel c n ↔ SafeFrom env inode tmp dentries (.test c n) := by
  have hloop : lookupLoop env inode tmp dentries fuel c ⟨objsOf c.mb + held, n⟩ =
      .ok (.next c, ⟨objsOf c.mb + held, n⟩) := by
    cases fuel with
    | zero => rfl
    | succ fuel => rw [lookupLoop, if_neg hi]
  refine iff_of_true ((handled_ok (a := none) (m := n) ?_).2 ⟨(zero_add held).symm, fun _ => rfl⟩) ?_
  · rw [scan, hloop]
    exact find_next hclean held n
  · refine (forall_reaches_last fun u hu => ?_).2 fun h => absurd h hi
    cases hu <;> exact hi ‹_›

/-- a turn that does not come to the end of its block -/
theorem scan_stays {fuel : ℕ} (hclean : ∀ mb, c.mb = some mb → mb.Clean) (hi : c.i < dentries) (hends : ¬ c.Ends)
    (hnull : slotInr c.data c.slot ≠ 0 → c.mb ≠ none)
    (hnext : ScanHandled env inode tmp dentries m held fuel c.advance n ↔
      SafeFrom env inode tmp dentries (.test c.advance n)) :
    ScanHandled env inode tmp dentries m held (fuel + 1) c n ↔ SafeFrom env inode tmp dentries (.test c n) := by
  have hturn : lookupTurn env inode tmp c ⟨objsOf c.mb + held, n⟩ =
      .ok (compareEntry tmp c, ⟨objsOf c.mb + held, n⟩) := by
    rw [lookupTurn]
    by_cases hinr : slotInr c.data c.slot ≠ 0
    · obtain ⟨mb, hmb⟩ := Option.ne_none_iff_exists'.1 (hnull hinr)
      rw [if_pos hinr]
      simp only [hmb, if_neg fun h => hends ⟨hinr, h⟩]
    · rw [if_neg hinr]
  have hstep : ∀ u, Scan.Next env inode tmp dentries (.test c n) u ↔ u = .compare c n := by
    refine fun u => ⟨fun h => ?_, fun h => h ▸ .stays hi hends⟩
    cases h with
    | stays => rfl
    | changes _ he => exact absurd he hends
    | hole _ he => exact absurd he hends
    | fails _ he => exact absurd he hends
  have hsafe : (Scan.test c n).Safe env inode tmp dentries := fun _ hinr =>
    ⟨hnull hinr, fun h => absurd ⟨hinr, h⟩ hends⟩
  rw [ScanHandled, scan_succ fuel hi, hturn, SafeFrom, forall_reaches_step hstep, and_iff_right hsafe]
  exact compare_handled hclean hnext

theorem fileMb_clean (k n : ℕ) {mb : Mb} (h : env.fileMb inode k n = some mb) : mb.Clean := by
  rw [Env.fileMb] at h
  split_ifs at h
  cases h
  exact mbAt_clean _ _ _

/-- the turn at the end of a block: minix_block is put before the next one is read -/
theorem changeTurn_eq {mb : Mb} (hmb : c.mb = some mb) (hclean : mb.Clean) (hends : c.Ends) :
    lookupTurn env inode tmp c ⟨objsOf c.mb + held, n⟩ =
      fileBlock env inode (c.i / dentriesPerBlock) ⟨held, n⟩ >>= fun x =>
        match x.1.join with
        | none => .ok (.next (c.skip env x.2.calls), x.2)
        | some mb => .ok (compareEntry tmp ⟨c.i, mb.data, 0, some mb⟩, x.2) := by
  rw [lookupTurn, if_pos hends.1, hmb]
  simp only [if_pos (show c.slot ≥ dentriesPerBlock from hends.2), objsOf, Option.elim]
  rw [put_objs hclean]
  rfl

/-- a turn that changes the block -/
theorem scan_changes {fuel : ℕ} {mb : Mb} (hmb : c.mb = some mb) (hclean : mb.Clean) (hi : c.i < dentries)
    (hends : c.Ends)
    (hih : ∀ d n, (∀ mb, d.mb = some mb → mb.Clean) → c.i < d.i →
      (ScanHandled env inode tmp dentries m held fuel d n ↔ SafeFrom env inode tmp dentries (.test d n))) :
    ScanHandled env inode tmp dentries m held (fuel + 1) c n ↔ SafeFrom env inode tmp dentries (.test c n) := by
  rw [ScanHandled, scan_succ fuel hi, changeTurn_eq hmb hclean hends, SafeFrom]
  by_cases hmax : c.i / dentriesPerBlock < maxBlocks
  swap
  · -- the BUG_ON of _bmap
    refine iff_of_false (not_handled (e := .bug) ?_) fun h => hmax (((h _ .refl) hi hends.1).2 hends.2).1
    rw [fileBlock, bmap, if_pos (not_lt.1 hmax)]
    rfl
  have hsafe : (Scan.test c n).Safe env inode tmp dentries ↔ env.Kept n (fileCalls env inode (c.i / dentriesPerBlock)) :=
    ⟨fun h => ((h hi hends.1).2 hends.2).2,
    fun h _ _ => ⟨by rw [hmb]; exact Option.some_ne_none mb, fun _ => ⟨hmax, h⟩⟩⟩
  have hskip : ∀ mb k, (c.skip env k).mb = some mb → mb.Clean := fun mb k h => by cases h
  rcases quiet_or_first env n (fileCalls env inode (c.i / dentriesPerBlock)) with hq | ⟨i, hlt, hf⟩
  · rw [file_quiet hmax hq]
    by_cases hm : Mapped env.device inode (c.i / dentriesPerBlock)
    · have hfile : env.fileMb inode (c.i / dentriesPerBlock) n = some _ := if_pos hm
      have hstep : ∀ u, Scan.Next env inode tmp dentries (.test c n) u ↔
          u = .compare (c.inBlock env inode n) (n + fileCalls env inode (c.i / dentriesPerBlock)) := by
        refine fun u => ⟨fun h => ?_, fun h => h ▸ .changes hi hends hm hq⟩
        cases h with
        | stays _ he => exact absurd hends he
        | changes => rfl
        | hole _ _ hm' => exact absurd hm hm'
        | fails _ _ hlt hf => exact absurd hq (hf.not_quiet hlt)
      have hclean' : ∀ mb, (c.inBlock env inode n).mb = some mb → mb.Clean := fun mb h => fileMb_clean _ _ h
      rw [forall_reaches_step hstep, and_iff_right (hsafe.2 hq.kept)]
      refine Iff.trans ?_ (compare_handled hclean' (hih (c.inBlock env inode n).advance _ hclean' (Nat.lt_succ_self c.i)))
      rw [Cursor.inBlock, hfile]
      rfl
    · have hfile : env.fileMb inode (c.i / dentriesPerBlock) n = none := if_neg hm
      have hstep : ∀ u, Scan.Next env inode tmp dentries (.test c n) u ↔
          u = .test (c.skip env (n + fileCalls env inode (c.i / dentriesPerBlock)))
            (n + fileCalls env inode (c.i / dentriesPerBlock)) := by
        refine fun u => ⟨fun h => ?_, fun h => h ▸ .hole hi hends hm hq⟩
        cases h with
        | stays _ he => exact absurd hends he
        | changes _ _ hm' => exact absurd hm' hm
        | hole => rfl
        | fails _ _ hlt hf => exact absurd hq (hf.not_quiet hlt)
      rw [forall_reaches_step hstep, and_iff_right (hsafe.2 hq.kept), hfile]
      exact hih _ _ (fun mb => hskip mb _) (Nat.lt_add_of_pos_right (by decide))
  · have hjoin : (if i < bmapCalls env inode (c.i / dentriesPerBlock) then some none else none : Option (Option Mb)).join =
        none := by split_ifs <;> rfl
    have hstep : ∀ u, Scan.Next env inode tmp dentries (.test c n) u ↔
        u = .test (c.skip env (n + i + 1)) (n + i + 1) := by
      refine fun u => ⟨fun h => ?_, fun h => h ▸ .fails hi hends hlt hf⟩
      cases h with
      | stays _ he => exact absurd hends he
      | changes _ _ _ hq => exact absurd hq (hf.not_quiet hlt)
      | hole _ _ _ hq => exact absurd hq (hf.not_quiet hlt)
      | fails _ _ _ hf' => rw [hf.unique hf']
    rw [forall_reaches_step hstep, hsafe, hf.kept_iff hlt, file_first hmax hf hlt]
    simp only [bind, Except.bind, hjoin]
    by_cases hlost : i % 4 ≠ 3
    · rw [and_iff_right hlost, lost_eq_zero.2 hlost]
      exact hih _ _ (fun mb => hskip mb _) (Nat.lt_add_of_pos_right (by decide))
    · exact iff_of_false (scan_lost rfl fun h => hlost (lost_eq_zero.1 h)) fun h => hlost h.1

theorem scan_handled (dentries m : ℕ) (held : Multiset Obj) (fuel : ℕ) : ∀ (c : Cursor) (n : ℕ),
    (∀ mb, c.mb = some mb → mb.Clean) → dentries ≤ c.i + fuel →
    (ScanHandled env inode tmp dentries m held fuel c n ↔ SafeFrom env inode tmp dentries (.test c n)) := by
  induction fuel with
  | zero => exact fun c n hclean hle => scan_end hclean (by omega)
  | succ fuel ih =>
    intro c n hclean hle
    by_cases hi : c.i < dentries
    swap
    · exact scan_end hclean hi
    have hnext := ih c.advance n hclean (show dentries ≤ c.i + 1 + fuel by omega)
    by_cases hinr : slotInr c.data c.slot ≠ 0
    swap
    · exact scan_stays hclean hi (fun h => hinr h.1) (fun h => absurd h hinr) hnext
    cases hmb : c.mb with
    | none =>
      refine iff_of_false (not_handled (e := .null) ?_) fun h => (h _ .refl hi hinr).1 hmb
      rw [scan_succ fuel hi, lookupTurn, if_pos hinr, hmb]
      rfl
    | some mb =>
      have hsome : c.mb ≠ none := by rw [hmb]; exact Option.some_ne_none mb
      by_cases hslot : dentriesPerBlock ≤ c.slot
      swap
      · exact scan_stays hclean hi (fun h => hslot h.2) (fun _ => hsome) hnext
      · exact scan_changes hmb (hclean mb hmb) hi ⟨hinr, hslot⟩ fun d n hd hlt => ih d n hd (by omega)

/-- **minix_lookup.** -/
theorem lookup_handled (env : Env) (inode : Inode) (n : ℕ) (held : Multiset Obj) (stack : Ptr) (name : List Byte) :
    Handled env n held foundObjs IsNull (minixLookup env inode stack name ⟨held, n⟩) ↔
      SafeLookup env inode stack name n := by
  rw [minixLookup, SafeLookup]
  dsimp only
  by_cases hzero : (inode.zone 0).toNat = 0
  · rw [if_pos hzero]
    refine iff_of_true (handled_quiet (k := 0) (a := none) ?_ fun i hi => absurd hi (Nat.not_lt_zero i)) (Or.inl hzero)
    rw [foundObjs, Option.elim, zero_add]
    rfl
  rw [if_neg hzero, or_iff_right hzero]
  rcases quiet_or_first env n 4 with hq | ⟨i, hi, hf⟩
  · rw [and_iff_right hq.kept, imp_iff_right hq, get_quiet hq]
    exact scan_handled _ n held (inode.size / sizeofDentry) _ (n + 4) (fun mb h => Option.some.inj h ▸ mbAt_clean env n _)
      (Nat.le_add_left _ _)
  · rw [and_iff_left fun hq => absurd hq (hf.not_quiet hi), get_first hf hi]
    exact handled_first rfl hf hi rfl rfl

/-! ## The six functions -/

/-- **Which failures the minix code handles.** bread handles them all. get_minix_block loses its buffer when only its kmalloc
fails, and _bmap with it; minix_read_inode does without no call that fails. minix_file_read tells of a failure in _bmap where
the request does not end in the block, and minix_lookup must come to no entry in use behind a block that is not there, and
must not succeed, for then iget's reference stays. -/
theorem failures_iff (env : Env) (n : ℕ) (held : Multiset Obj) :
    (∀ blockNr, Handled env n held (fun b => b.elim 0 Block.objs) IsNull (bread env blockNr ⟨held, n⟩)) ∧
    (∀ z, Handled env n held objsOf IsNull (getMinixBlock env z ⟨held, n⟩) ↔ env.Kept n 4) ∧
    (∀ nr, Handled env n held (fun _ => 0) IsNull (minixReadInode env nr ⟨held, n⟩) ↔ env.Quiet n 4) ∧
    (∀ inode block, Handled env n held (fun _ => 0) (· = 0) (bmap env inode block ⟨held, n⟩) ↔
      block < maxBlocks ∧ env.Kept n (bmapCalls env inode block)) ∧
    (∀ inode stack name, Handled env n held foundObjs IsNull (minixLookup env inode stack name ⟨held, n⟩) ↔
      SafeLookup env inode stack name n) ∧
    ∀ inode size pos, Handled env n held (fun _ => 0) (Short inode size pos)
    (minixFileRead env inode size pos ⟨held, n⟩) ↔
      SafeRead env inode size pos n :=
  ⟨bread_handled env n held, get_handled env n held, readInode_handled env n held, fun inode => bmap_handled env inode n held,
    fun inode => lookup_handled env inode n held, fun inode => read_handled env inode n held⟩

/-- a disk of zeros, and the number of the one call that fails -/
def failsAt (k : ℕ) : Env := ⟨fun _ _ => 0, 1, 1, fun _ => false, fun _ => none, fun _ _ => rfl, (· = k), fun _ _ => 0⟩

/-- without memory for its block minix_read_inode reads through NULL, and without memory for the minix_block get_minix_block
loses the page -/
theorem first_call_fails :
    ¬ Handled (failsAt 0) 0 0 (fun _ => 0) IsNull (minixReadInode (failsAt 0) 1 ⟨0, 0⟩) ∧
    ¬ Handled (failsAt 3) 0 0 objsOf IsNull (getMinixBlock (failsAt 3) 5 ⟨0, 0⟩) := by
  constructor
  · rw [readInode_handled]
    exact fun h => absurd (h 0 (by decide)) (by decide)
  · rw [get_handled]
    exact fun h => h 3 (by decide) ⟨by decide, by decide⟩ (by decide)

end SinsOs.Minix.Failures
