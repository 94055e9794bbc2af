/-
The sectors of a hard disk request (hd_rw_handler, drivers/hd.c) and the blocks of a minix file system that it can read
(get_minix_block, fs/minix/block.c).

A block number counts 4096 bytes, a minix block 1024 and a sector 512. All values are of 32 bits, and the number of the sector
is multiplied and added to before it is compared. The geometry comes from the boot parameters, which have 8 bits for the heads
and the sectors of a track and 16 for the cylinders. A panic and a division by 0 are `none`; the sectors that a command touches
are those that its registers name.

- `request_right`: a request whose sector does not wrap is right.
- `sectors_right_iff`: the last block number wraps to a request before the partition, and a minix block behind the last whole
  block of 4096 bytes cannot be read.
-/
import SinsOs.Drivers.Hd

namespace SinsOs.Hd

/-! ## Model -/

def nrDrives : ℕ := 5

/-- hd_info of a drive -/
structure Geometry where
  head : ℕ
  sect : ℕ
  cyl : ℕ
  head_lt : head < 2 ^ 8
  sect_lt : sect < 2 ^ 8
  cyl_lt : cyl < 2 ^ 16

/-- struct hd_struct -/
structure Partition where
  startSect : ℕ
  nrSects : ℕ
  enable : Bool
deriving DecidableEq, Repr

/-- the tables hd_info and hd: `dev` is five for each drive, the whole drive first -/
structure Disks where
  hdInfo : ℕ → Geometry
  hd : ℕ → Partition

/-- hd_out panics at once -/
def BadSector (r : Request) : Prop := r.drive > 1 ∨ r.head > 15

instance (r : Request) : Decidable (BadSector r) := inferInstanceAs (Decidable (_ ∨ _))

/-- both divisions, and the call of rw_abs_hd -/
def splitSector (g : Geometry) (write : Bool) (drive block blk : ℕ) : Request :=
  let sec := block % g.sect
  let block := block / g.sect
  let head := block % g.head
  let cyl := block / g.head
  ⟨write, drive, sec + 1, head, cyl, blk⟩

/-- what goes to the controller -/
def hdRwHandler (d : Disks) (write : Bool) (dev blockNr blk : ℕ) : Option Request :=
  let block := blockNr * nrSectors % 2 ^ 32
  if dev ≥ 5 * nrDrives ∨ (d.hd dev).enable = false ∨ (block + nrSectors) % 2 ^ 32 > (d.hd dev).nrSects then none
  else
    let block := (block + (d.hd dev).startSect) % 2 ^ 32
    let g := d.hdInfo (dev / 5)
    if g.sect = 0 ∨ g.head = 0 then none
    else
      let r := splitSector g write (dev / 5) block blk
      if BadSector r then none else some r

/-- the block of 4096 bytes that get_minix_block reads -/
def readMinixBlock (d : Disks) (dev minixBlocks blk : ℕ) : Option Request := hdRwHandler d false dev (minixBlocks / 4) blk

/-! ## The drive -/

/-- the sector of a cylinder, a head and a sector of the track -/
def Geometry.sectorOf (g : Geometry) (cyl head sect : ℕ) : ℕ := (cyl * g.head + head) * g.sect + (sect - 1)

def Geometry.sectors (g : Geometry) : ℕ := g.cyl * g.head * g.sect

/-- the sectors that a command transfers -/
def touched (g : Geometry) (regs : Regs) : List ℕ :=
  List.range' (g.sectorOf (regs.cylLow + 256 * regs.cylHigh) (regs.driveHead % 16) regs.sect) regs.nsect

/-- the triple is one of the geometry, for the sector, and the command stays in the partition -/
structure Right (g : Geometry) (p : Partition) (sector : ℕ) (r : Request) : Prop where
  cyl : r.cyl < g.cyl
  head : r.head < g.head
  sect : 1 ≤ r.sect ∧ r.sect ≤ g.sect
  back : g.sectorOf r.cyl r.head r.sect = sector
  inside : ∀ s ∈ touched g r.regs, p.startSect ≤ s ∧ s < p.startSect + p.nrSects

/-- an enabled partition inside of its drive -/
structure Disks.Enabled (d : Disks) (dev : ℕ) : Prop where
  minor : dev < 5 * nrDrives
  enable : (d.hd dev).enable = true
  inside : (d.hd dev).startSect + (d.hd dev).nrSects ≤ (d.hdInfo (dev / 5)).sectors

/-- `block` of hd_rw_handler, before the divisions -/
def Disks.sector (d : Disks) (dev blockNr : ℕ) : ℕ := (blockNr * nrSectors % 2 ^ 32 + (d.hd dev).startSect) % 2 ^ 32

/-- a sector stops the kernel -/
def Stops (d : Disks) (dev sector : ℕ) : Prop :=
  dev / 5 > 1 ∨ (d.hdInfo (dev / 5)).sect = 0 ∨ (d.hdInfo (dev / 5)).head = 0 ∨
    sector / (d.hdInfo (dev / 5)).sect % (d.hdInfo (dev / 5)).head > 15

instance (d : Disks) (dev sector : ℕ) : Decidable (Stops d dev sector) := inferInstanceAs (Decidable (_ ∨ _ ∨ _ ∨ _))

variable {d : Disks} {g : Geometry} {write : Bool} {dev block blockNr blk : ℕ} {r : Request}

theorem sectors_lt (g : Geometry) : g.sectors < 2 ^ 32 - 8 := by
  have hcyl : g.cyl ≤ 65535 := Nat.le_of_lt_succ g.cyl_lt
  have hhead : g.head ≤ 255 := Nat.le_of_lt_succ g.head_lt
  have hsect : g.sect ≤ 255 := Nat.le_of_lt_succ g.sect_lt
  calc g.sectors ≤ 65535 * 255 * 255 := Nat.mul_le_mul (Nat.mul_le_mul hcyl hhead) hsect
    _ < 2 ^ 32 - 8 := by decide

/-- the divisions undo sectorOf -/
theorem split_back (g : Geometry) (write : Bool) (drive block blk : ℕ) :
    g.sectorOf (splitSector g write drive block blk).cyl (splitSector g write drive block blk).head
      (splitSector g write drive block blk).sect = block := by
  simp only [splitSector, Geometry.sectorOf, Nat.add_sub_cancel]
  rw [Nat.div_add_mod', Nat.div_add_mod']

/-- the cylinder is one of the drive -/
theorem split_cyl (hs : 0 < g.sect) (hh : 0 < g.head) : block / g.sect / g.head < g.cyl ↔ block < g.sectors := by
  unfold Geometry.sectors
  rw [Nat.div_lt_iff_lt_mul hh, Nat.div_lt_iff_lt_mul hs]

theorem driveHead_low {drive head : ℕ} (hd : drive ≤ 1) (hh : head ≤ 15) :
    outb (0xA0 ||| drive <<< 4 ||| head) % 16 = head := by
  interval_cases drive <;> interval_cases head <;> rfl

/-- the registers hold the triple -/
theorem regs_touched (hr : ¬ BadSector r) (hcyl : r.cyl < 2 ^ 16) (hsect : r.sect < 2 ^ 8) :
    touched g r.regs = List.range' (g.sectorOf r.cyl r.head r.sect) 8 := by
  obtain ⟨hdrive, hhead⟩ := not_or.1 hr
  have hlow := driveHead_low (Nat.not_lt.1 hdrive) (Nat.not_lt.1 hhead)
  have hcylinder : outb r.cyl + 256 * outb (r.cyl / 256) = r.cyl := by
    unfold outb
    omega
  have hs : outb r.sect = r.sect := Nat.mod_eq_of_lt hsect
  simp only [touched, Request.regs, hlow, hcylinder, hs]
  rfl

/-! ## A request -/

theorem badSector_split (g : Geometry) (write : Bool) (drive block blk : ℕ) :
    BadSector (splitSector g write drive block blk) ↔ drive > 1 ∨ block / g.sect % g.head > 15 := Iff.rfl

/-- what becomes of a request that passes the test of the partition -/
theorem handler_accepted (h : d.Enabled dev)
    (hfits : (blockNr * nrSectors % 2 ^ 32 + nrSectors) % 2 ^ 32 ≤ (d.hd dev).nrSects) :
    hdRwHandler d write dev blockNr blk = if Stops d dev (d.sector dev blockNr) then none
      else some (splitSector (d.hdInfo (dev / 5)) write (dev / 5) (d.sector dev blockNr) blk) := by
  have henable : ¬ (d.hd dev).enable = false := by
    rw [h.enable]
    exact Bool.noConfusion
  have htest : ¬ (dev ≥ 5 * nrDrives ∨ (d.hd dev).enable = false ∨
      (blockNr * nrSectors % 2 ^ 32 + nrSectors) % 2 ^ 32 > (d.hd dev).nrSects) := by
    rintro (hdev | hoff | hbig)
    · exact absurd h.minor (Nat.not_lt.2 hdev)
    · exact henable hoff
    · exact absurd hfits (Nat.not_le.2 hbig)
  rw [hdRwHandler, if_neg htest]
  dsimp only
  rw [← Disks.sector]
  by_cases hzero : (d.hdInfo (dev / 5)).sect = 0 ∨ (d.hdInfo (dev / 5)).head = 0
  · have hstops : Stops d dev (d.sector dev blockNr) := Or.inr (hzero.imp_right Or.inl)
    rw [if_pos hzero, if_pos hstops]
  · rw [if_neg hzero]
    obtain ⟨hs, hh⟩ := not_or.1 hzero
    simp only [badSector_split, Stops, hs, hh, false_or]

theorem handler_refused (hbig : (d.hd dev).nrSects < (blockNr * nrSectors % 2 ^ 32 + nrSectors) % 2 ^ 32) :
    hdRwHandler d write dev blockNr blk = none := if_pos (Or.inr (Or.inr hbig))

/-- the command of a sector of the drive -/
theorem split_right {sector : ℕ} (hstops : ¬ Stops d dev sector) (hsector : sector < (d.hdInfo (dev / 5)).sectors)
    (p : Partition) (write : Bool) (blk : ℕ) :
    Right (d.hdInfo (dev / 5)) p sector (splitSector (d.hdInfo (dev / 5)) write (dev / 5) sector blk) ↔
      p.startSect ≤ sector ∧ sector + 8 ≤ p.startSect + p.nrSects := by
  obtain ⟨hdrive, hrest⟩ := not_or.1 hstops
  obtain ⟨hs, hrest⟩ := not_or.1 hrest
  obtain ⟨hh, hhead⟩ := not_or.1 hrest
  have hs := Nat.pos_of_ne_zero hs
  have hh := Nat.pos_of_ne_zero hh
  have hcyl := (split_cyl hs hh).2 hsector
  have hmod := Nat.mod_lt sector hs
  have hback := split_back (d.hdInfo (dev / 5)) write (dev / 5) sector blk
  have htouched := regs_touched (g := d.hdInfo (dev / 5)) (r := splitSector (d.hdInfo (dev / 5)) write (dev / 5) sector blk)
    (fun hbad => hbad.elim hdrive hhead) (Nat.lt_trans hcyl (d.hdInfo (dev / 5)).cyl_lt)
    (Nat.lt_of_le_of_lt hmod (d.hdInfo (dev / 5)).sect_lt)
  rw [hback] at htouched
  constructor
  · intro hright
    have hfirst := hright.inside sector (htouched ▸ List.mem_range'_1.2 ⟨le_refl _, by omega⟩)
    have hlast := hright.inside (sector + 7) (htouched ▸ List.mem_range'_1.2 ⟨by omega, by omega⟩)
    exact ⟨hfirst.1, hlast.2⟩
  · rintro ⟨hlow, hhigh⟩
    refine ⟨hcyl, Nat.mod_lt _ hh, ⟨Nat.succ_pos _, hmod⟩, hback, fun s hin => ?_⟩
    rw [htouched, List.mem_range'_1] at hin
    exact ⟨Nat.le_trans hlow hin.1, by omega⟩

/-- the sector of a block number that does not wrap -/
theorem sector_plain (hn : (d.hd dev).startSect + (d.hd dev).nrSects < 2 ^ 32)
    (hfits : blockNr * nrSectors % 2 ^ 32 + nrSectors ≤ (d.hd dev).nrSects) :
    d.sector dev blockNr = (d.hd dev).startSect + blockNr * nrSectors % 2 ^ 32 := by
  unfold Disks.sector
  omega

/-- **A request.** Its triple and its sectors are right if and only if it is not the last block number, counted in 29 bits, or
the 8 sectors before the partition stop the kernel. -/
theorem request_right (h : d.Enabled dev) (write : Bool) (blockNr blk : ℕ) :
    (∀ r, hdRwHandler d write dev blockNr blk = some r → Right (d.hdInfo (dev / 5)) (d.hd dev) (d.sector dev blockNr) r) ↔
      blockNr % 2 ^ 29 ≠ 2 ^ 29 - 1 ∨ Stops d dev (((d.hd dev).startSect + (2 ^ 32 - 8)) % 2 ^ 32) := by
  have hsectors := sectors_lt (d.hdInfo (dev / 5))
  have hinside := h.inside
  by_cases hbig : (d.hd dev).nrSects < (blockNr * nrSectors % 2 ^ 32 + nrSectors) % 2 ^ 32
  · rw [handler_refused hbig]
    refine iff_of_true (fun r hr => nomatch hr) (Or.inl ?_)
    unfold nrSectors at hbig
    omega
  have hfits := Nat.not_lt.1 hbig
  rw [handler_accepted h hfits]
  by_cases hlast : blockNr % 2 ^ 29 = 2 ^ 29 - 1
  · have hsector : d.sector dev blockNr = ((d.hd dev).startSect + (2 ^ 32 - 8)) % 2 ^ 32 := by
      unfold Disks.sector nrSectors
      omega
    rw [← hsector]
    by_cases hstops : Stops d dev (d.sector dev blockNr)
    · rw [if_pos hstops]
      exact iff_of_true (fun r hr => nomatch hr) (Or.inr hstops)
    · rw [if_neg hstops]
      refine iff_of_false (fun hright => ?_) (fun hor => hor.elim (fun hne => hne hlast) hstops)
      have hwrong := hright _ rfl
      have hs := Nat.pos_of_ne_zero fun h0 => hstops (Or.inr (Or.inl h0))
      have hh := Nat.pos_of_ne_zero fun h0 => hstops (Or.inr (Or.inr (Or.inl h0)))
      have hlt := (split_cyl hs hh).1 hwrong.cyl
      have hpart := ((split_right hstops hlt (d.hd dev) write blk).1 hwrong).1
      omega
  · refine iff_of_true (fun r hr => ?_) (Or.inl hlast)
    have hplain : blockNr * nrSectors % 2 ^ 32 + nrSectors ≤ (d.hd dev).nrSects := by
      unfold nrSectors at *
      omega
    have hsector := sector_plain (by omega) hplain
    split_ifs at hr with hstops
    obtain rfl := Option.some.inj hr
    unfold nrSectors at hplain hsector
    exact (split_right hstops (by omega) (d.hd dev) write blk).2 ⟨by omega, by omega⟩

/-- **A minix block in the partition.** It can be read if and only if its block of 4096 bytes is in the partition as well and
does not stop the kernel. -/
theorem minix_readable (h : d.Enabled dev) {minixBlocks : ℕ} (hmb : minixBlocks * 2 + 2 ≤ (d.hd dev).nrSects) (blk : ℕ) :
    (readMinixBlock d dev minixBlocks blk).isSome ↔ minixBlocks / 4 * 8 + 8 ≤ (d.hd dev).nrSects ∧
      ¬ Stops d dev ((d.hd dev).startSect + minixBlocks / 4 * 8) := by
  have hsectors := sectors_lt (d.hdInfo (dev / 5))
  have hinside := h.inside
  have hblock : minixBlocks / 4 * nrSectors % 2 ^ 32 = minixBlocks / 4 * 8 := by
    unfold nrSectors
    omega
  have hnowrap : (minixBlocks / 4 * nrSectors % 2 ^ 32 + nrSectors) % 2 ^ 32 = minixBlocks / 4 * 8 + 8 := by
    unfold nrSectors at *
    omega
  rw [readMinixBlock]
  by_cases hfits : minixBlocks / 4 * 8 + 8 ≤ (d.hd dev).nrSects
  · have hsector : d.sector dev (minixBlocks / 4) = (d.hd dev).startSect + minixBlocks / 4 * nrSectors % 2 ^ 32 :=
      sector_plain (by omega) (by rw [hblock]; exact hfits)
    rw [handler_accepted h (hnowrap.trans_le hfits), hsector, hblock]
    split_ifs with hstops
    · exact iff_of_false Bool.noConfusion fun hand => hand.2 hstops
    · exact iff_of_true rfl ⟨hfits, hstops⟩
  · rw [handler_refused (hnowrap.symm ▸ Nat.not_le.1 hfits)]
    exact iff_of_false Bool.noConfusion fun hand => hfits hand.1

/-- **The sectors of a partition.** For every geometry and every enabled partition inside of its drive: which block numbers give
a right request or a panic, and which minix blocks of the partition can be read. -/
theorem sectors_right_iff (h : d.Enabled dev) :
    (∀ write blockNr blk,
      (∀ r, hdRwHandler d write dev blockNr blk = some r → Right (d.hdInfo (dev / 5)) (d.hd dev) (d.sector dev blockNr) r) ↔
        blockNr % 2 ^ 29 ≠ 2 ^ 29 - 1 ∨ Stops d dev (((d.hd dev).startSect + (2 ^ 32 - 8)) % 2 ^ 32)) ∧
    ∀ minixBlocks blk, minixBlocks * 2 + 2 ≤ (d.hd dev).nrSects →
      ((readMinixBlock d dev minixBlocks blk).isSome ↔ minixBlocks / 4 * 8 + 8 ≤ (d.hd dev).nrSects ∧
        ¬ Stops d dev ((d.hd dev).startSect + minixBlocks / 4 * 8)) :=
  ⟨fun write blockNr blk => request_right h write blockNr blk, fun _ blk hmb => minix_readable h hmb blk⟩

/-- a drive of 20 cylinders with 4 heads and 17 sectors, and a partition of 100 sectors from sector 17 on -/
def smallDisk : Disks where
  hdInfo _ := ⟨4, 17, 20, by decide, by decide, by decide⟩
  hd dev := if dev = 1 then ⟨17, 100, true⟩ else ⟨0, 1360, dev = 0⟩

theorem small_enabled : smallDisk.Enabled 1 := ⟨by decide, rfl, by decide⟩

theorem small_right : (∀ r, hdRwHandler smallDisk true 1 11 0 = some r →
      Right (smallDisk.hdInfo 0) (smallDisk.hd 1) (smallDisk.sector 1 11) r) ∧ (readMinixBlock smallDisk 1 47 0).isSome :=
  ⟨((sectors_right_iff small_enabled).1 true 11 0).2 (by decide),
    ((sectors_right_iff small_enabled).2 47 0 (by decide)).2 (by decide)⟩

/-- Block 2^29 - 1 is written to the sectors 9 to 16, and the minix block 48 cannot be read. -/
theorem small_wrong : (∃ r, hdRwHandler smallDisk true 1 (2 ^ 29 - 1) 0 = some r ∧
      touched (smallDisk.hdInfo 0) r.regs = [9, 10, 11, 12, 13, 14, 15, 16]) ∧
    48 * 2 + 2 ≤ (smallDisk.hd 1).nrSects ∧ readMinixBlock smallDisk 1 48 0 = none :=
  ⟨⟨⟨true, 0, 10, 0, 0, 0⟩, by decide, by decide⟩, by decide, by decide⟩

end SinsOs.Hd
