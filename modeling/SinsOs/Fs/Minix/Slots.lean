/-
The slots of a file in the format of minix version 1, and which of them _bmap reads (fs/minix/block.c).

A file has seven zones in the inode, 512 in the table of zone 7, and 512 in each of the 512 tables that the table of zone 8
has. `slots` numbers them in this order, and is a bijection with the blocks below `maxBlocks`. `bmapLog` is _bmap with the
entries of tables that it reads; without them it is `Failures.bmap` (`bmapLog_bmap`).

- `bmap_slot`: where no call fails, _bmap returns what the slot of the block holds and gives back what it obtained, having
  read the entries on the way to the slot and no other.
-/
import SinsOs.Fs.Minix.Failures

namespace SinsOs.Minix.Failures

open SinsOs.Lib SinsOs.Minix

/-! ## The format -/

inductive Slot
  | direct (i : Fin 7)
  | single (i : Fin 512)
  | double (i j : Fin 512)
deriving DecidableEq, Repr

/-- the block of the file that a slot is for -/
def Slot.block : Slot → Fin maxBlocks
  | direct i => ⟨i, by unfold maxBlocks; omega⟩
  | single i => ⟨7 + i, by unfold maxBlocks; omega⟩
  | double i j => ⟨7 + 512 + (512 * i + j), by unfold maxBlocks; omega⟩

def slotOf (block : Fin maxBlocks) : Slot :=
  if h7 : block.val < 7 then .direct ⟨block, h7⟩
  else if h512 : block.val - 7 < 512 then .single ⟨block - 7, h512⟩
  else .double ⟨(block - (7 + 512)) / 512, by have := block.isLt; unfold maxBlocks at this; omega⟩
    ⟨(block - (7 + 512)) % 512, Nat.mod_lt _ (by decide)⟩

/-- what a slot holds; the slots of a table that is not there hold 0 -/
def Slot.value (dev : Device) (inode : Inode) : Slot → ℕ
  | direct i => (inode.zone i).toNat
  | single i => dev.entry (inode.zone 7).toNat i
  | double i j => dev.entry (dev.entry (inode.zone 8).toNat i) j

/-- the entries on the way to a slot, each with the zone of its table -/
def Slot.way (dev : Device) (inode : Inode) : Slot → List (ℕ × ℕ)
  | direct _ => []
  | single i => if inode.zone 7 = 0 then [] else [((inode.zone 7).toNat, i)]
  | double i j =>
    if inode.zone 8 = 0 then []
    else ((inode.zone 8).toNat, i.val) ::
      if dev.entry (inode.zone 8).toNat i = 0 then [] else [(dev.entry (inode.zone 8).toNat i, j)]

/-- **The slots are the blocks**, one for each. -/
def slots : Fin maxBlocks ≃ Slot where
  toFun := slotOf
  invFun := Slot.block
  left_inv block := by
    unfold slotOf
    split_ifs with h7 h512
    · rfl
    · exact Fin.ext (Nat.add_sub_cancel' (Nat.not_lt.1 h7))
    · refine Fin.ext ?_
      simp only [Slot.block]
      omega
  right_inv slot := by
    cases slot with
    | direct i => exact dif_pos i.isLt
    | single i =>
      have hblock : (Slot.single i).block.val = 7 + i := rfl
      unfold slotOf
      split_ifs with h7 h512
      · omega
      · exact congrArg Slot.single (Fin.ext (by simp only [hblock]; omega))
      · omega
    | double i j =>
      have hblock : (Slot.double i j).block.val = 7 + 512 + (512 * i + j) := rfl
      unfold slotOf
      split_ifs with h7 h512
      · omega
      · omega
      · exact congrArg₂ Slot.double (Fin.ext (by simp only [hblock]; omega)) (Fin.ext (by simp only [hblock]; omega))

/-- no entry behind the end of a table -/
theorem Slot.way_lt (dev : Device) (inode : Inode) (slot : Slot) : ∀ r ∈ slot.way dev inode, r.2 < 512 := by
  intro r hr
  cases slot with
  | direct i => exact absurd hr List.not_mem_nil
  | single i =>
    rw [Slot.way] at hr
    split_ifs at hr
    · exact absurd hr List.not_mem_nil
    · rw [List.mem_singleton.1 hr]
      exact i.isLt
  | double i j =>
    rw [Slot.way] at hr
    split_ifs at hr
    · exact absurd hr List.not_mem_nil
    · rw [List.mem_singleton.1 hr]
      exact i.isLt
    · rcases List.mem_cons.1 hr with rfl | hr
      · exact i.isLt
      · rw [List.mem_singleton.1 hr]
        exact j.isLt

/-! ## _bmap with the entries that it reads -/

def tableEntryLog (env : Env) (table i : ℕ) (w : World) : Except Fault (ℕ × World × List (ℕ × ℕ)) := do
  let (blk, w) ← getMinixBlock env table w
  match blk with
  | none => .ok (0, w, [])
  | some blk => do
    let w ← putMinixBlock env blk w
    .ok (u16 blk.data i, w, [(table, i)])

def bmapLog (env : Env) (inode : Inode) (block : ℕ) (w : World) : Except Fault (ℕ × World × List (ℕ × ℕ)) :=
  if block ≥ maxBlocks then .error .bug
  else if block < 7 then .ok ((inode.zone block).toNat, w, [])
  else
    let block := block - 7
    if block < 512 then
      if inode.zone 7 = 0 then .ok (0, w, []) else tableEntryLog env (inode.zone 7).toNat block w
    else
      let block := block - 512
      if inode.zone 8 = 0 then .ok (0, w, [])
      else do
        let (i, w, first) ← tableEntryLog env (inode.zone 8).toNat (block / 512) w
        if i = 0 then .ok (0, w, first)
        else do
          let (i, w, second) ← tableEntryLog env i (block % 512) w
          .ok (i, w, first ++ second)

/-- without the entries -/
def unlogged (r : Except Fault (ℕ × World × List (ℕ × ℕ))) : Except Fault (ℕ × World) := r.map fun (i, w, _) => (i, w)

theorem tableEntryLog_entry (env : Env) (table i : ℕ) (w : World) :
    unlogged (tableEntryLog env table i w) = tableEntry env table i w := by
  unfold tableEntryLog tableEntry
  cases getMinixBlock env table w with
  | error e => rfl
  | ok r =>
    obtain ⟨blk, w⟩ := r
    cases blk with
    | none => rfl
    | some blk =>
      simp only [bind, Except.bind]
      cases putMinixBlock env blk w <;> rfl

/-- **It is _bmap**, with failures or without. -/
theorem bmapLog_bmap (env : Env) (inode : Inode) (block : ℕ) (w : World) :
    unlogged (bmapLog env inode block w) = bmap env inode block w := by
  unfold bmapLog bmap
  dsimp only
  split_ifs with hmax h7 h512 hz7 hz8
  · rfl
  · rfl
  · rfl
  · exact tableEntryLog_entry env _ _ w
  · rfl
  · rw [← tableEntryLog_entry]
    cases tableEntryLog env (inode.zone 8).toNat ((block - 7 - 512) / 512) w with
    | error e => rfl
    | ok r =>
      obtain ⟨i, w, first⟩ := r
      simp only [unlogged, bind, Except.bind, Except.map]
      split_ifs
      · rfl
      · rw [← tableEntryLog_entry]
        cases tableEntryLog env i ((block - 7 - 512) % 512) w <;> rfl

/-! ## Without failures -/

variable {env : Env} {inode : Inode} {n : ℕ} {held : Multiset Obj}

theorem tableLog_quiet (h : env.Quiet n 4) (z i : ℕ) :
    tableEntryLog env z i ⟨held, n⟩ = .ok (u16 (env.device.bytes z) i, ⟨held, n + 4⟩, [(z, i)]) := by
  rw [tableEntryLog, get_quiet h]
  simp only [bind, Except.bind]
  rw [put_objs (mbAt_clean env n z)]
  rfl

/-- _bmap on the way to a slot -/
theorem bmapLog_quiet (slot : Slot) (h : env.Quiet n (bmapCalls env inode slot.block)) :
    bmapLog env inode slot.block ⟨held, n⟩ =
      .ok (slot.value env.device inode, ⟨held, n + bmapCalls env inode slot.block⟩, slot.way env.device inode) := by
  have hmax : ¬ slot.block.val ≥ maxBlocks := Nat.not_le.2 slot.block.isLt
  rw [bmapLog, if_neg hmax]
  dsimp only
  cases slot with
  | direct i =>
    have h7 : (Slot.direct i).block.val < 7 := i.isLt
    rw [if_pos h7, bmapCalls, if_pos h7]
    rfl
  | single i =>
    have hblock : (Slot.single i).block.val = 7 + i := rfl
    have h7 : ¬ 7 + i.val < 7 := by omega
    have h512 : 7 + i.val < 7 + 512 := by omega
    rw [hblock] at h ⊢
    rw [bmapCalls, if_neg h7, if_pos h512] at h ⊢
    rw [if_neg h7, Nat.add_sub_cancel_left, if_pos i.isLt, Slot.value, Slot.way]
    split_ifs at h ⊢ with hz
    · rw [hz]
      rfl
    · rw [tableLog_quiet h, device_entry (zone_ne hz)]
  | double i j =>
    have hblock : (Slot.double i j).block.val = 7 + 512 + (512 * i + j) := rfl
    have h7 : ¬ 7 + 512 + (512 * i.val + j.val) < 7 := by omega
    have h512 : ¬ 7 + 512 + (512 * i.val + j.val) < 7 + 512 := by omega
    have hin : ¬ 7 + 512 + (512 * i.val + j.val) - 7 < 512 := by omega
    have hdiv : (512 * i.val + j.val) / 512 = i := by omega
    have hmod : (512 * i.val + j.val) % 512 = j := by omega
    rw [hblock] at h ⊢
    rw [bmapCalls, if_neg h7, if_neg h512, Nat.add_sub_cancel_left, hdiv] at h ⊢
    rw [if_neg h7, if_neg hin, Nat.sub_sub, Nat.add_sub_cancel_left, hdiv, hmod, Slot.value, Slot.way]
    by_cases hz : inode.zone 8 = 0
    · rw [if_pos hz, if_pos hz, if_pos hz, hz]
      rfl
    · rw [if_neg hz] at h ⊢
      rw [if_neg hz, if_neg hz]
      have hentry : env.device.entry (inode.zone 8).toNat i = u16 (env.device.bytes (inode.zone 8).toNat) i :=
        device_entry (zone_ne hz) i
      rw [hentry] at h ⊢
      by_cases h0 : u16 (env.device.bytes (inode.zone 8).toNat) i = 0
      · -- the entry of the double indirect table is 0
        rw [if_pos h0] at h ⊢
        rw [tableLog_quiet h, h0]
        rfl
      · rw [if_neg h0] at h ⊢
        rw [tableLog_quiet (h.mono (by decide))]
        simp only [bind, Except.bind, if_neg h0]
        rw [tableLog_quiet (Env.Quiet.tail (m := 4) (k := 4) h), device_entry h0]
        rfl

/-- **minix_bmap and the format.** -/
theorem bmap_slot (env : Env) (inode : Inode) (block : Fin maxBlocks) (w : World)
    (h : env.Quiet w.calls (bmapCalls env inode block)) :
    (∃ reads calls, bmap env inode block w = .ok ((slots block).value env.device inode, ⟨w.held, calls⟩) ∧
      bmapLog env inode block w = .ok ((slots block).value env.device inode, ⟨w.held, calls⟩, reads) ∧
      reads = (slots block).way env.device inode ∧ ∀ r ∈ reads, r.2 < 512) ∧
    (slots block).block = block ∧ ∀ block', slots block' = slots block → block' = block := by
  have hblock : (slots block).block = block := slots.left_inv block
  have hrun : bmapLog env inode (slots block).block ⟨w.held, w.calls⟩ = _ :=
    bmapLog_quiet (slots block) (by rw [hblock]; exact h)
  rw [hblock] at hrun
  have hbmap : bmap env inode block w = unlogged _ := (bmapLog_bmap env inode block w).symm.trans (congrArg unlogged hrun)
  exact ⟨⟨_, _, hbmap, hrun, rfl, Slot.way_lt _ _ _⟩, hblock, fun block' he => slots.injective he⟩

theorem empty_caches (nr : ℕ) (_ : (fun _ : ℕ => false) nr = false) : (fun _ : ℕ => (none : Option Ptr)) nr = none := rfl

/-- a disk of ones, whose tables lead to zone 257 -/
def onesDisk : Env := ⟨fun _ _ => 1, 1, 1, fun _ => false, fun _ => none, empty_caches, fun _ => false, fun _ _ => 0⟩

def bigFile : Inode := ⟨0, fun i => if i = 8 then 5 else 0⟩

theorem bmap_slot_double : onesDisk.Quiet 0 (bmapCalls onesDisk bigFile 1032) ∧ slots ⟨1032, by decide⟩ = .double 1 1 ∧
    ∃ calls, bmapLog onesDisk bigFile 1032 ⟨0, 0⟩ = .ok (257, ⟨0, calls⟩, [(5, 1), (257, 1)]) := by
  have hquiet : onesDisk.Quiet 0 (bmapCalls onesDisk bigFile 1032) := fun _ _ => rfl
  obtain ⟨⟨reads, calls, -, hrun, hway, -⟩, -⟩ := bmap_slot onesDisk bigFile ⟨1032, by decide⟩ ⟨0, 0⟩ hquiet
  refine ⟨hquiet, by decide, calls, ?_⟩
  rw [hway] at hrun
  exact hrun

end SinsOs.Minix.Failures
