/-
Tasks that change blocks of one device at the same time: bread and brelse without a buffer (fs/block_dev.c), as
blkdev_write and the minix code (get_minix_block, put_minix_block) use them.

Every bread gives a private copy of the block and brelse writes a dirty copy back. A task sleeps in both, so the steps of
different tasks interleave in any order; the controller serves one request at a time (hd_out), so a transfer is one step.
A task chooses its next step freely, as long as the bytes it stores are its own.

- `no_lost_update`: as long as no task writes back a copy of a block that has changed on the disk since its bread, the disk
  has, in every task's bytes, what the task alone would have left there; for blkdev_write these are the bytes written.
- `lost_update`: two tasks that write one byte each of the same block, and one of the two bytes is lost.
- `writeActs_blkdevWrite`: the steps of blkdev_write alone leave the disk that blkdevWrite leaves.
-/
import Mathlib
import SinsOs.Core.Lts
import SinsOs.Fs.BlockDev

namespace SinsOs.BlockRace

open SinsOs.Core SinsOs.Lib SinsOs.BlockDev

/-! ## Model -/

/-- a struct block in memory; `orig` is the block as bread found it -/
structure Copy where
  blockNr : ℕ
  data : ℕ → Byte
  dirty : Bool
  orig : ℕ → Byte

/-- the steps of a task; h names one of the copies that it holds -/
inductive Act
  | bread (h blockNr : ℕ)
  | store (h offset : ℕ) (bytes : List Byte)
  | brelse (h : ℕ)
deriving DecidableEq, Repr

/-- the disk and the copies of one task -/
structure View where
  disk : ℕ → Byte
  copies : ℕ → Option Copy

def blockOf (disk : ℕ → Byte) (blockNr : ℕ) : ℕ → Byte := fun i => disk (blockNr * blockSize + i)

def writeBack (disk : ℕ → Byte) (c : Copy) : ℕ → Byte := fun a =>
  if c.blockNr * blockSize ≤ a ∧ a < c.blockNr * blockSize + blockSize then c.data (a - c.blockNr * blockSize) else disk a

/-- the bytes at the given offset, and the block is dirty -/
def Copy.store (c : Copy) (offset : ℕ) (bytes : List Byte) : Copy :=
  { c with data := flatWrite c.data offset bytes.length fun i => bytes.getD i 0, dirty := true }

def setCopy (copies : ℕ → Option Copy) (h : ℕ) (c : Option Copy) : ℕ → Option Copy := fun k =>
  if k = h then c else copies k

def View.act (v : View) : Act → View
  | .bread h b => { v with copies := setCopy v.copies h (some ⟨b, blockOf v.disk b, false, blockOf v.disk b⟩) }
  | .store h offset bytes => { v with copies := setCopy v.copies h ((v.copies h).map fun c => c.store offset bytes) }
  | .brelse h => ⟨match v.copies h with
      | none => v.disk
      | some c => if c.dirty then writeBack v.disk c else v.disk,
    setCopy v.copies h none⟩

/-- a task alone on the disk -/
def alone (disk : ℕ → Byte) (acts : List Act) : View := acts.foldl View.act ⟨disk, fun _ => none⟩

/-- `acts t` is what task t has done -/
structure Sys where
  disk : ℕ → Byte
  copies : ℕ → ℕ → Option Copy
  acts : ℕ → List Act

namespace Sys

variable (s : Sys)

def view (t : ℕ) : View := ⟨s.disk, s.copies t⟩

def act (t : ℕ) (a : Act) : Sys where
  disk := ((s.view t).act a).disk
  copies := fun u => if u = t then ((s.view t).act a).copies else s.copies u
  acts := fun u => if u = t then s.acts u ++ [a] else s.acts u

end Sys

variable {range : ℕ → Set ℕ}

/-- a task stores bytes of its own into a block that it holds -/
def legal (range : ℕ → Set ℕ) (s : Sys) (t : ℕ) : Act → Prop
  | .store h offset bytes => ∃ c, s.copies t h = some c ∧ offset + bytes.length ≤ blockSize ∧
      ∀ i < bytes.length, c.blockNr * blockSize + (offset + i) ∈ range t
  | _ => True

def system (range : ℕ → Set ℕ) (disk : ℕ → Byte) : Lts Sys (ℕ × Act) where
  start := fun s => s = ⟨disk, fun _ _ => none, fun _ => []⟩
  step := fun s e s' => legal range s e.1 e.2 ∧ s.act e.1 e.2 = s'

/-- the block of a dirty copy has changed on the disk when the copy is written back -/
def Stale (s : Sys) (e : ℕ × Act) : Prop :=
  ∃ h c, e.2 = .brelse h ∧ s.copies e.1 h = some c ∧ c.dirty = true ∧
  ∃ i < blockSize, blockOf s.disk c.blockNr i ≠ c.orig i

/-- the turns of blkdev_write's loop -/
def writeActs (block offset : ℕ) (bytes : List Byte) : List Act :=
  if h : bytes = [] then []
  else
    have hpos : 0 < bytes.length := List.length_pos_iff.2 h
    have hchars : 0 < charsOf bytes.length := charsOf_pos hpos.ne'
    [.bread 0 block, .store 0 offset (bytes.take (charsOf bytes.length)), .brelse 0] ++
      writeActs (block + 1) 0 (bytes.drop (charsOf bytes.length))
termination_by bytes.length

def blkdevWriteActs (pos : ℕ) (bytes : List Byte) : List Act := writeActs (pos / blockSize) (pos % blockSize) bytes

/-! ## A task sees its own bytes as if it were alone -/

/-- two copies of one block that agree on the bytes in r -/
structure CopyAgrees (r : Set ℕ) (c c' : Copy) : Prop where
  blockNr : c.blockNr = c'.blockNr
  dirty : c.dirty = c'.dirty
  data : ∀ i < blockSize, c.blockNr * blockSize + i ∈ r → c.data i = c'.data i

/-- the same copies, and the same bytes in r -/
structure Agrees (r : Set ℕ) (v w : View) : Prop where
  disk : ∀ a ∈ r, v.disk a = w.disk a
  copies : ∀ h, Option.Rel (CopyAgrees r) (v.copies h) (w.copies h)

variable {r : Set ℕ} {v w : View}

theorem setCopy_agrees {f g : ℕ → Option Copy} (hfg : ∀ h, Option.Rel (CopyAgrees r) (f h) (g h)) (h : ℕ)
    {c c' : Option Copy} (hc : Option.Rel (CopyAgrees r) c c') (k : ℕ) :
    Option.Rel (CopyAgrees r) (setCopy f h c k) (setCopy g h c' k) := by
  unfold setCopy
  split_ifs
  · exact hc
  · exact hfg k

theorem writeBack_agrees {d d' : ℕ → Byte} {c c' : Copy} (hd : ∀ a ∈ r, d a = d' a) (hc : CopyAgrees r c c') :
    ∀ a ∈ r, writeBack d c a = writeBack d' c' a := by
  intro a ha
  simp only [writeBack, ← hc.blockNr]
  split_ifs with hin
  · refine hc.data _ (by omega) ?_
    rwa [Nat.add_sub_cancel' hin.1]
  · exact hd a ha

theorem Agrees.cases (h : Agrees r v w) (k : ℕ) : (v.copies k = none ∧ w.copies k = none) ∨
    ∃ c c', v.copies k = some c ∧ w.copies k = some c' ∧ CopyAgrees r c c' := by
  have hk := h.copies k
  cases hv : v.copies k with
  | none =>
    cases hw : w.copies k with
    | none => exact .inl ⟨rfl, rfl⟩
    | some c' => rw [hv, hw] at hk; cases hk
  | some c =>
    cases hw : w.copies k with
    | none => rw [hv, hw] at hk; cases hk
    | some c' =>
      rw [hv, hw] at hk
      cases hk with
      | some hc => exact .inr ⟨c, c', rfl, rfl, hc⟩

theorem store_agrees {c c' : Copy} (hc : CopyAgrees r c c') (offset : ℕ) (bytes : List Byte) :
    CopyAgrees r (c.store offset bytes) (c'.store offset bytes) := by
  refine ⟨hc.blockNr, rfl, fun i hi hr => ?_⟩
  simp only [Copy.store, flatWrite]
  split_ifs
  · rfl
  · exact hc.data i hi hr

/-- a step keeps the agreement -/
theorem act_agrees (h : Agrees r v w) (a : Act) : Agrees r (v.act a) (w.act a) := by
  cases a with
  | bread k b => exact ⟨h.disk, setCopy_agrees h.copies k (.some ⟨rfl, rfl, fun i _ hi => h.disk _ hi⟩)⟩
  | store k offset bytes =>
    refine ⟨h.disk, setCopy_agrees h.copies k ?_⟩
    rcases h.cases k with ⟨hv, hw⟩ | ⟨c, c', hv, hw, hc⟩
    · rw [hv, hw]; exact .none
    · rw [hv, hw]; exact .some (store_agrees hc offset bytes)
  | brelse k =>
    refine ⟨?_, setCopy_agrees h.copies k .none⟩
    rcases h.cases k with ⟨hv, hw⟩ | ⟨c, c', hv, hw, hc⟩
    · simp only [View.act, hv, hw]; exact h.disk
    · simp only [View.act, hv, hw, ← hc.dirty]
      split_ifs
      · exact writeBack_agrees h.disk hc
      · exact h.disk

/-! ## The run -/

/-- outside the task's own bytes its copies are as bread found them -/
def Clean (range : ℕ → Set ℕ) (s : Sys) : Prop := ∀ t h c, s.copies t h = some c → ∀ i < blockSize,
  c.blockNr * blockSize + i ∉ range t → c.data i = c.orig i

/-- **The invariant.** Every task sees its own bytes as if it were alone. -/
structure Own (range : ℕ → Set ℕ) (disk : ℕ → Byte) (s : Sys) : Prop where
  clean : Clean range s
  agrees : ∀ t, Agrees (range t) (s.view t) (alone disk (s.acts t))

variable {s s' : Sys} {disk : ℕ → Byte} {t : ℕ} {a : Act}

theorem clean_act (h : Clean range s) (hl : legal range s t a) : Clean range (s.act t a) := by
  intro u k c hk i hi hr
  simp only [Sys.act] at hk
  split_ifs at hk with hut
  swap
  · exact h u k c hk i hi hr
  subst hut
  cases a with
  | bread j b =>
    simp only [View.act, setCopy] at hk
    split_ifs at hk
    · obtain rfl := Option.some.inj hk; rfl
    · exact h u k c hk i hi hr
  | store j offset bytes =>
    simp only [View.act, setCopy] at hk
    split_ifs at hk
    · obtain ⟨c0, hc0, hlen, hin⟩ := hl
      rw [show (s.view u).copies j = some c0 from hc0, Option.map_some, Option.some.injEq] at hk
      subst hk
      -- a byte that is not the task's is not one of those stored
      have hout : ¬ (offset ≤ i ∧ i < offset + bytes.length) := fun hb => hr (by
        have := hin (i - offset) (by omega)
        rwa [Nat.add_sub_cancel' hb.1] at this)
      have hold := h u j c0 hc0 i hi hr
      simp only [Copy.store, flatWrite, if_neg hout]
      exact hold
    · exact h u k c hk i hi hr
  | brelse j =>
    simp only [View.act, setCopy] at hk
    split_ifs at hk
    exact h u k c hk i hi hr

/-- a step of one task leaves the bytes of the others alone, unless it writes back a stale copy -/
theorem disk_act (h : Clean range s) (hst : ¬ Stale s (t, a)) {b : ℕ} (hb : b ∉ range t) :
    (s.act t a).disk b = s.disk b := by
  cases a with
  | bread k n => rfl
  | store k offset bytes => rfl
  | brelse k =>
    simp only [Sys.act, View.act]
    cases hc : (s.view t).copies k with
    | none => rfl
    | some c =>
      dsimp only
      split_ifs with hd
      · rw [writeBack]
        split_ifs with hin
        · have hi : b - c.blockNr * blockSize < blockSize := by omega
          have heq : c.blockNr * blockSize + (b - c.blockNr * blockSize) = b := Nat.add_sub_cancel' hin.1
          have hdata := h t k c hc _ hi (by rwa [heq])
          by_contra hne
          refine hst ⟨k, c, rfl, hc, hd, _, hi, fun heq2 => hne ?_⟩
          rw [hdata, ← heq2, blockOf, heq]
        · rfl
      · rfl

theorem own_step (hdis : Pairwise fun t u => Disjoint (range t) (range u)) (h : Own range disk s) (hl : legal range s t a)
    (hst : ¬ Stale s (t, a)) : Own range disk (s.act t a) := by
  refine ⟨clean_act h.clean hl, fun u => ?_⟩
  by_cases hut : u = t
  · subst hut
    have hview : (s.act u a).view u = (s.view u).act a := by simp only [Sys.view, Sys.act, if_true]
    have hacts : (s.act u a).acts u = s.acts u ++ [a] := by simp only [Sys.act, if_true]
    rw [hview, hacts, alone, List.foldl_append]
    exact act_agrees (h.agrees u) a
  · have hacts : (s.act t a).acts u = s.acts u := if_neg hut
    have hcopies : (s.act t a).copies u = s.copies u := if_neg hut
    have hold := h.agrees u
    rw [hacts]
    refine ⟨fun b hb => ?_, fun k => ?_⟩
    · have hnot : b ∉ range t := fun hbt => Set.disjoint_left.1 (hdis hut) hb hbt
      exact (disk_act h.clean hst hnot).trans (hold.disk b hb)
    · change Option.Rel _ ((s.act t a).copies u k) _
      rw [hcopies]
      exact hold.copies k

/-! ## blkdev_write -/

/-- one turn of the loop: bread, the copy, brelse -/
theorem turn_disk (block : ℕ) {offset : ℕ} {bytes : List Byte} (h : offset + bytes.length ≤ blockSize) :
    ([.bread 0 block, .store 0 offset bytes, .brelse 0].foldl View.act v).disk =
      flatWrite v.disk (block * blockSize + offset) bytes.length fun i => bytes.getD i 0 := by
  funext b
  simp only [List.foldl_cons, List.foldl_nil, View.act, setCopy, if_true, Option.map_some, Copy.store, writeBack, flatWrite]
  by_cases hb : block * blockSize ≤ b ∧ b < block * blockSize + blockSize
  · rw [if_pos hb]
    by_cases hin : offset ≤ b - block * blockSize ∧ b - block * blockSize < offset + bytes.length
    · rw [if_pos hin, if_pos (by omega), show b - block * blockSize - offset = b - (block * blockSize + offset) by omega]
    · rw [if_neg hin, if_neg (by omega), blockOf, Nat.add_sub_cancel' hb.1]
  · rw [if_neg hb, if_neg (by omega)]

theorem writeActs_disk (block offset : ℕ) (bytes : List Byte) (h : offset = 0 ∨ offset + bytes.length ≤ blockSize) :
    ((writeActs block offset bytes).foldl View.act v).disk =
      flatWrite v.disk (block * blockSize + offset) bytes.length fun i => bytes.getD i 0 := by
  induction hn : bytes.length using Nat.strong_induction_on generalizing v block offset bytes with
  | _ n ih =>
    subst hn
    rw [writeActs]
    split_ifs with h0
    · subst h0
      funext b
      rw [flatWrite, if_neg (by simp)]
      rfl
    have hpos : 0 < bytes.length := List.length_pos_iff.2 h0
    have hc := charsOf_pos hpos.ne'
    have hle := charsOf_le bytes.length
    have htake : (bytes.take (charsOf bytes.length)).length = charsOf bytes.length := by rw [List.length_take]; omega
    have hdrop : (bytes.drop (charsOf bytes.length)).length = bytes.length - charsOf bytes.length := List.length_drop
    have hhead : ∀ i, i < charsOf bytes.length → (bytes.take (charsOf bytes.length)).getD i 0 = bytes.getD i 0 := by
      intro i hi
      simp only [List.getD_eq_getElem?_getD, List.getElem?_take_of_lt hi]
    have htail : ∀ i, (bytes.drop (charsOf bytes.length)).getD i 0 = bytes.getD (charsOf bytes.length + i) 0 := fun i => by
      simp only [List.getD_eq_getElem?_getD, List.getElem?_drop]
    rw [List.foldl_append, ih _ (by omega) (block + 1) 0 _ (.inl rfl) hdrop, turn_disk block (by rw [htake]; exact chars_le h),
      htake]
    funext b
    simp only [flatWrite]
    by_cases hmore : bytes.length - charsOf bytes.length = 0
    · rw [if_neg (by omega)]
      by_cases hb : block * blockSize + offset ≤ b ∧ b < block * blockSize + offset + charsOf bytes.length
      · rw [if_pos hb, if_pos (by omega), hhead _ (by omega)]
      · rw [if_neg hb, if_neg (by omega)]
    · rw [start_next h hmore]
      by_cases hb : block * blockSize + offset + charsOf bytes.length ≤ b ∧
          b < block * blockSize + offset + charsOf bytes.length + (bytes.length - charsOf bytes.length)
      · rw [if_pos hb, if_pos (by omega), htail]
        exact congrArg (bytes.getD · 0) (by omega)
      · rw [if_neg hb]
        by_cases hb2 : block * blockSize + offset ≤ b ∧ b < block * blockSize + offset + charsOf bytes.length
        · rw [if_pos hb2, if_pos (by omega), hhead _ (by omega)]
        · rw [if_neg hb2, if_neg (by omega)]

/-- a position and a length that blkdev_write takes block by block -/
def InBlocks (pos size : ℕ) : Prop := pos % blockSize = 0 ∨ pos % blockSize + size ≤ blockSize

theorem blkdevWriteActs_disk {pos : ℕ} {bytes : List Byte} (h : InBlocks pos bytes.length) :
    (alone disk (blkdevWriteActs pos bytes)).disk = flatWrite disk pos bytes.length fun i => bytes.getD i 0 := by
  rw [alone, blkdevWriteActs, writeActs_disk _ _ _ h, Nat.div_add_mod']

/-- **The steps are those of the code.** A blkdev_write alone leaves the disk that its steps leave. -/
theorem writeActs_blkdevWrite {page : ℕ → Option ℕ} {m : BlockDev.Sys} {buf pos : ℕ} {bytes : List Byte}
    (h : Meets page m.disk bytes.length pos) (hap : Apart page buf bytes.length) (hm : m.touched = [])
    (hbuf : ∀ i < bytes.length, m.mem (buf + i) = bytes.getD i 0) :
    ∃ m', blkdevWrite page m buf bytes.length pos = some ((bytes.length : ℤ), (pos + bytes.length : ℤ), m') ∧
      m'.disk.data = (alone m.disk.data (blkdevWriteActs pos bytes)).disk := by
  obtain ⟨m', hrun, hdisk, -⟩ := writes_of_meets h hap (by rw [hm]; intro e he; exact absurd he List.not_mem_nil)
  refine ⟨m', hrun, ?_⟩
  have hin : InBlocks pos bytes.length := by
    rcases h with h0 | ⟨hfits, -⟩
    · right
      have := Nat.mod_lt pos (show 0 < blockSize by decide)
      omega
    · exact hfits
  rw [hdisk, blkdevWriteActs_disk hin]
  funext b
  simp only [flatWrite]
  split_ifs with hb
  · exact hbuf _ (by omega)
  · rfl

/-! ## All tasks -/

theorem own_start (hs : s = ⟨disk, fun _ _ => none, fun _ => []⟩) : Own range disk s := by
  subst hs
  exact ⟨fun t k c hc => (nomatch hc), fun t => ⟨fun _ _ => rfl, fun _ => .none⟩⟩

/-- **No update is lost while no stale copy is written back.** For any number of tasks with disjoint bytes and any
interleaving: the disk has in every task's bytes what the task alone would have left there. So when a task has finished a
blkdev_write, and has done nothing else, its bytes are on the disk, as on the disk that blkdevWrite leaves. -/
theorem no_lost_update (hdis : Pairwise fun t u => Disjoint (range t) (range u))
    (h : ((system range disk).only fun s e => ¬ Stale s e).Reach s) (t : ℕ) :
    (∀ a ∈ range t, s.disk a = (alone disk (s.acts t)).disk a) ∧
    ∀ pos bytes, s.acts t = blkdevWriteActs pos bytes → InBlocks pos bytes.length →
      (∀ i < bytes.length, pos + i ∈ range t → s.disk (pos + i) = bytes.getD i 0) ∧
      ∀ page m buf, m.disk.data = disk → Meets page m.disk bytes.length pos → Apart page buf bytes.length →
      m.touched = [] →
        (∀ i < bytes.length, m.mem (buf + i) = bytes.getD i 0) →
        ∃ m', blkdevWrite page m buf bytes.length pos = some ((bytes.length : ℤ), (pos + bytes.length : ℤ), m') ∧
          ∀ a ∈ range t, s.disk a = m'.disk.data a := by
  have hown : Own range disk s := h.inv (P := Own range disk) (fun _ hs => own_start hs) fun _ _ _ hi hst => by
    rw [← hst.2.2]; exact own_step hdis hi hst.2.1 hst.1
  have hdisk : ∀ a ∈ range t, s.disk a = (alone disk (s.acts t)).disk a := (hown.agrees t).disk
  refine ⟨hdisk, fun pos bytes hacts hin => ⟨fun i hi hr => ?_, ?_⟩⟩
  · rw [hdisk _ hr, hacts, blkdevWriteActs_disk hin, flatWrite, if_pos (by omega), Nat.add_sub_cancel_left]
  · rintro page m buf rfl hmeets hap hm hbuf
    obtain ⟨m', hrun, hleft⟩ := writeActs_blkdevWrite hmeets hap hm hbuf
    refine ⟨m', hrun, fun a ha => ?_⟩
    rw [hdisk a ha, hacts, hleft]

/-! ## Two tasks, one block or two -/

def own : ℕ → Set ℕ := fun t => {t}

theorem own_disjoint : Pairwise fun t u => Disjoint (own t) (own u) := fun _ _ h => Set.disjoint_singleton.2 h

def blank : Sys := ⟨fun _ => 0, fun _ _ => none, fun _ => []⟩

theorem own_mem (t : ℕ) : 0 * blockSize + t ∈ own t := by
  rw [Nat.zero_mul, Nat.zero_add]
  exact rfl

theorem writeActs_one (block offset : ℕ) (b : Byte) :
    writeActs block offset [b] = [.bread 0 block, .store 0 offset [b], .brelse 0] := by
  rw [writeActs, dif_neg (by simp)]
  have hnil : [b].drop (charsOf [b].length) = [] := rfl
  rw [hnil, writeActs, dif_pos rfl]
  rfl

theorem legal_store (u : ℕ) {c : Copy} (hc : s.copies t 0 = some c) (b : Byte) (hu : c.blockNr * blockSize + u ∈ range t)
    (hlt : u < blockSize) : legal range s t (.store 0 u [b]) := by
  refine ⟨c, hc, hlt, fun i hi => ?_⟩
  have hi0 : i = 0 := Nat.lt_one_iff.1 hi
  rwa [hi0, Nat.add_zero]

/-- a step that writes nothing back is not stale -/
theorem fresh_step (h : ∀ k, a ≠ .brelse k) : ¬ Stale s (t, a) := fun ⟨k, _, he, _⟩ => h k he

theorem blockOf_writeBack {d : ℕ → Byte} {c : Copy} {n i : ℕ} (hi : i < blockSize) (hn : c.blockNr ≠ n) :
    blockOf (writeBack d c) n i = blockOf d n i := by
  refine if_neg fun hin => hn ?_
  have hdiv := Nat.div_eq_of_lt_le hin.1 (show n * blockSize + i < (c.blockNr + 1) * blockSize by rw [Nat.add_mul]; omega)
  rw [← hdiv, Nat.add_comm, Nat.add_mul_div_right _ _ (Nat.zero_lt_of_lt hi), Nat.div_eq_of_lt hi, Nat.zero_add]

/-- task t has the first byte of block t -/
def firsts : ℕ → Set ℕ := fun t => {t * blockSize}

theorem firsts_disjoint : Pairwise fun t u => Disjoint (firsts t) (firsts u) := fun _ _ h =>
  Set.disjoint_singleton.2 fun he => h (Nat.eq_of_mul_eq_mul_right (by decide) he)

theorem first_mem (t : ℕ) : t * blockSize + 0 ∈ firsts t := Nat.add_zero _

/-- the tasks 0 and 1 write the first bytes of the blocks 0 and 1, step by step in turn -/
def stored : Sys := (((blank.act 0 (.bread 0 0)).act 1 (.bread 0 1)).act 0 (.store 0 0 [1])).act 1 (.store 0 0 [2])

def wrote : Sys := (stored.act 0 (.brelse 0)).act 1 (.brelse 0)

/-- the copy that task 0 writes back -/
def firstCopy : Copy := Copy.store ⟨0, blockOf blank.disk 0, false, blockOf blank.disk 0⟩ 0 [1]

theorem brelse_disk {h : ℕ} {c : Copy} (hc : s.copies t h = some c) (hd : c.dirty = true) :
    (s.act t (.brelse h)).disk = writeBack s.disk c := by
  simp only [Sys.act, View.act, Sys.view, hc, hd, if_true]

theorem stored_disk : (stored.act 0 (.brelse 0)).disk = writeBack blank.disk firstCopy :=
  brelse_disk (s := stored) (c := firstCopy) rfl rfl

theorem reach_wrote : ((system firsts blank.disk).only fun s e => ¬ Stale s e).Reach wrote := by
  refine .step (e := (1, .brelse 0)) (.step (e := (0, .brelse 0)) (.step (e := (1, .store 0 0 [2]))
    (.step (e := (0, .store 0 0 [1])) (.step (e := (1, .bread 0 1)) (.step (e := (0, .bread 0 0)) (.start rfl)
    ⟨fresh_step nofun, trivial, rfl⟩) ⟨fresh_step nofun, trivial, rfl⟩)
    ⟨fresh_step nofun, legal_store 0 rfl 1 (by exact first_mem 0) (by decide), rfl⟩)
    ⟨fresh_step nofun, legal_store 0 rfl 2 (by exact first_mem 1) (by decide), rfl⟩)
    ⟨?_, trivial, rfl⟩) ⟨?_, trivial, rfl⟩
  · rintro ⟨h, c, he, hc, -, i, hi, hne⟩
    cases he
    cases hc
    exact hne rfl
  · rintro ⟨h, c, he, hc, -, i, hi, hne⟩
    cases he
    cases hc
    change blockOf (stored.act 0 (.brelse 0)).disk 1 i ≠ 0 at hne
    rw [stored_disk, blockOf_writeBack hi (show firstCopy.blockNr ≠ 1 from Nat.zero_ne_one)] at hne
    exact hne rfl

theorem no_lost_update_two : wrote.disk 0 = 1 ∧ wrote.disk 4096 = 2 :=
  ⟨((no_lost_update firsts_disjoint reach_wrote 0).2 0 [1] (writeActs_one 0 0 1).symm (.inl rfl)).1 0 Nat.one_pos rfl,
    ((no_lost_update firsts_disjoint reach_wrote 1).2 4096 [2] (writeActs_one 1 0 2).symm (.inl rfl)).1 0 Nat.one_pos rfl⟩

/-- both tasks read the block before either writes it back -/
def raced : Sys := (((((blank.act 0 (.bread 0 0)).act 1 (.bread 0 0)).act 0 (.store 0 0 [1])).act 1 (.store 0 1 [1])).act 0
  (.brelse 0)).act 1 (.brelse 0)

theorem lost_update : (Pairwise fun t u => Disjoint (own t) (own u)) ∧ (system own blank.disk).Reach raced ∧
    raced.acts 0 = blkdevWriteActs 0 [1] ∧ raced.acts 1 = blkdevWriteActs 1 [1] ∧ raced.disk 0 = 0 ∧ raced.disk 1 = 1 := by
  refine ⟨own_disjoint, ?_, (writeActs_one 0 0 1).symm, (writeActs_one 0 1 1).symm, by decide +kernel, by decide +kernel⟩
  refine .step (e := (1, .brelse 0)) (.step (e := (0, .brelse 0)) (.step (e := (1, .store 0 1 [1]))
    (.step (e := (0, .store 0 0 [1])) (.step (e := (1, .bread 0 0)) (.step (e := (0, .bread 0 0)) (.start rfl)
    ⟨trivial, rfl⟩) ⟨trivial, rfl⟩) ⟨legal_store 0 rfl 1 (by exact own_mem 0) (by decide), rfl⟩)
    ⟨legal_store 1 rfl 1 (by exact own_mem 1) (by decide), rfl⟩) ⟨trivial, rfl⟩) ⟨trivial, rfl⟩

end SinsOs.BlockRace
