/-
Blocks of a minix file system (fs/minix/block.c): get_minix_block reads the 4096-byte block that a 1024-byte block is in, and
_bmap finds the zone of a block of a file in the inode, in the indirect block or in the two levels of the double indirect one.

bread and kmalloc are the device's: `none` and `false` are their failures. `zoneOf` is what the format says, and `bmap_eq`
that _bmap computes it on a device without failures, up to the largest block, where its BUG_ON fires.
-/
import SinsOs.Lib.Str

namespace SinsOs.Minix

open SinsOs.Lib

/-! ## Model -/

def blockSize : ℕ := 4096
def minixBlockSize : ℕ := 1024

/-- what bread and kmalloc give for a block -/
structure Device where
  bread : ℕ → Option Ptr
  kmalloc : ℕ → Bool

/-- the fields of struct inode that the files read -/
structure Inode where
  size : ℕ
  zone : ℕ → BitVec 16

/-- the data pointer of the buffer -/
def getMinixBlock (dev : Device) (minixBlocks : ℕ) : Option Ptr :=
  let block := minixBlocks / (blockSize / minixBlockSize)
  let offset := minixBlocks % (blockSize / minixBlockSize) * minixBlockSize
  match dev.bread block with
  | none => none
  | some data => if dev.kmalloc minixBlocks then some (data.add offset) else none

/-- an entry of an array of unsigned shorts -/
def u16 (data : Ptr) (i : ℕ) : ℕ := (data (2 * i)).toNat + 256 * (data (2 * i + 1)).toNat

/-- the blocks of the largest file -/
def maxBlocks : ℕ := 7 + 512 + 512 * 512

/-- `none`: the BUG_ON fired -/
def bmap (dev : Device) (inode : Inode) (block : ℕ) : Option ℕ :=
  if block ≥ maxBlocks then none
  else if block < 7 then some (inode.zone block).toNat
  else
    let block := block - 7
    if block < 512 then
      if inode.zone 7 = 0 then some 0
      else match getMinixBlock dev (inode.zone 7).toNat with
        | none => some 0
        | some data => some (u16 data block)
    else
      let block := block - 512
      if inode.zone 8 = 0 then some 0
      else match getMinixBlock dev (inode.zone 8).toNat with
        | none => some 0
        | some data =>
          let i := u16 data (block / 512)
          if i = 0 then some 0
          else match getMinixBlock dev i with
            | none => some 0
            | some data => some (u16 data (block % 512))

/-! ## The format -/

/-- no disk and no memory failure -/
def Device.Sound (dev : Device) : Prop := ∀ n, (getMinixBlock dev n).isSome

/-- the bytes of a zone -/
def Device.bytes (dev : Device) (n : ℕ) : Ptr := (getMinixBlock dev n).getD fun _ => 0

/-- entry i of the table in zone z, where zone 0 is a table of zeros -/
def Device.entry (dev : Device) (z i : ℕ) : ℕ := if z = 0 then 0 else u16 (dev.bytes z) i

/-- the zone of a block: direct, indirect or double indirect -/
def Inode.zoneOf (inode : Inode) (dev : Device) (block : ℕ) : ℕ :=
  if block < 7 then (inode.zone block).toNat
  else if block < 7 + 512 then dev.entry (inode.zone 7).toNat (block - 7)
  else dev.entry (dev.entry (inode.zone 8).toNat ((block - (7 + 512)) / 512)) ((block - (7 + 512)) % 512)

variable {dev : Device} {inode : Inode}

theorem Device.Sound.block (h : dev.Sound) (n : ℕ) : getMinixBlock dev n = some (dev.bytes n) := by
  obtain ⟨data, hdata⟩ := Option.isSome_iff_exists.1 (h n)
  rw [Device.bytes, hdata, Option.getD_some]

theorem Device.entry_zero (i : ℕ) : dev.entry 0 i = 0 := if_pos rfl

/-- **_bmap computes the zone of every block of the format.** -/
theorem bmap_eq (h : dev.Sound) (block : ℕ) :
    bmap dev inode block = if block ≥ maxBlocks then none else some (inode.zoneOf dev block) := by
  have hzone : ∀ i, inode.zone i = 0 ↔ (inode.zone i).toNat = 0 := fun i => by
    rw [← BitVec.toNat_inj]; rfl
  unfold bmap Inode.zoneOf
  by_cases hmax : block ≥ maxBlocks
  · rw [if_pos hmax, if_pos hmax]
  rw [if_neg hmax, if_neg hmax]
  by_cases h7 : block < 7
  · rw [if_pos h7, if_pos h7]
  rw [if_neg h7, if_neg h7]
  dsimp only
  by_cases h512 : block - 7 < 512
  · rw [if_pos h512, if_pos (show block < 7 + 512 by omega), Device.entry]
    by_cases hz : inode.zone 7 = 0
    · rw [if_pos hz, if_pos ((hzone 7).1 hz)]
    · rw [if_neg hz, if_neg (fun h0 => hz ((hzone 7).2 h0)), h.block]
  · rw [if_neg h512, if_neg (show ¬ block < 7 + 512 by omega), Nat.sub_sub]
    by_cases hz : inode.zone 8 = 0
    · rw [if_pos hz, (hzone 8).1 hz, Device.entry_zero, Device.entry_zero]
    · have hentry : dev.entry (inode.zone 8).toNat ((block - (7 + 512)) / 512) =
          u16 (dev.bytes (inode.zone 8).toNat) ((block - (7 + 512)) / 512) := if_neg fun h0 => hz ((hzone 8).2 h0)
      rw [if_neg hz, h.block, hentry]
      dsimp only
      split_ifs with hi
      · rw [hi, Device.entry_zero]
      · rw [h.block, Device.entry, if_neg hi]

end SinsOs.Minix
