/-
What the boot loader hands over (parse_boot_params, kernel/boot_params.c).

The information block is in memory that the kernel does not write: the map of the memory, an array, and the drives, records that
each begin with their own size. The entries go to two arrays of boot_params of 30 and 5 elements. An index behind an array is a
fault, and a value of the model has no place to store it.

- `copyMmap_ok`, `copyDrives_ok`: what the two arrays hold then.
- `parse_inside_iff`: parse_boot_params ends and stays in its arrays, or stops at a BUG, exactly when there are five drives at
  most, if it comes to the drives at all.
-/
import SinsOs.Core.Checked

namespace SinsOs.Boot

open SinsOs.Core

/-! ## Model -/

abbrev Word := BitVec 32

/-- the memory, by its bytes -/
abbrev Mem := Word → BitVec 8

def u16 (mem : Mem) (a : Word) : BitVec 16 := mem (a + 1) ++ mem a

def u32 (mem : Mem) (a : Word) : Word := u16 mem (a + 2) ++ u16 mem a

def nrMmapEntrys : ℕ := 30
def nrDrives : ℕ := 5
def multibootBootloaderMagic : Word := 0x2BADB002

structure MemoryMap where
  baseAddr : BitVec 64
  size : BitVec 64
  type : Word
deriving DecidableEq, Repr

structure DriveInfo where
  mode : BitVec 8
  cylinders : BitVec 16
  heads : BitVec 8
  sectors : BitVec 8
deriving DecidableEq, Repr

structure BootParams where
  bootDevice : Word
  mmapLength : Word
  drivesLength : Word
  mmap : Fin nrMmapEntrys → MemoryMap
  drives : Fin nrDrives → DriveInfo

/-- a BUG, a store behind an array, and a loop that is not at its end when the fuel is -/
inductive Fault
  | bug
  | outside (index : ℕ)
  | fuel
deriving DecidableEq, Repr

def checkFlag (flags : Word) (bit : ℕ) : Bool := flags.getLsbD bit

/-! The fields of multiboot_info_t. -/

def mbiFlags (mem : Mem) (mbi : Word) : Word := u32 mem mbi
def mbiBootDevice (mem : Mem) (mbi : Word) : Word := u32 mem (mbi + 12)
def mbiMmapLength (mem : Mem) (mbi : Word) : Word := u32 mem (mbi + 44)
def mbiMmapAddr (mem : Mem) (mbi : Word) : Word := u32 mem (mbi + 48)
def mbiDrivesLength (mem : Mem) (mbi : Word) : Word := u32 mem (mbi + 52)
def mbiDrivesAddr (mem : Mem) (mbi : Word) : Word := u32 mem (mbi + 56)

/-- sizeof(multiboot_memory_map_t) -/
def mmapEntrySize : Word := 24

def readMmap (mem : Mem) (a : Word) : MemoryMap where
  baseAddr := u32 mem (a + 8) ++ u32 mem (a + 4)
  size := u32 mem (a + 16) ++ u32 mem (a + 12)
  type := u32 mem (a + 20)

/-- drive_info->size -/
def driveSize (mem : Mem) (a : Word) : Word := u32 mem a

def readDrive (mem : Mem) (a : Word) : DriveInfo where
  mode := mem (a + 5)
  cylinders := u16 mem (a + 6)
  heads := mem (a + 8)
  sectors := mem (a + 9)

def storeMmap (b : BootParams) (index : ℕ) (e : MemoryMap) : Except Fault BootParams :=
  if h : index < nrMmapEntrys then .ok { b with mmap := Function.update b.mmap ⟨index, h⟩ e } else .error (.outside index)

def storeDrive (b : BootParams) (index : ℕ) (d : DriveInfo) : Except Fault BootParams :=
  if h : index < nrDrives then .ok { b with drives := Function.update b.drives ⟨index, h⟩ d } else .error (.outside index)

/-- `left` turns from turn `index` on -/
def copyMmap (mem : Mem) (mmap : Word) : ℕ → ℕ → BootParams → Except Fault BootParams
  | 0, _, b => .ok b
  | left + 1, index, b => do
    let b ← storeMmap b index (readMmap mem (mmap + BitVec.ofNat 32 index * mmapEntrySize))
    copyMmap mem mmap left (index + 1) b

def copyDrives (mem : Mem) (driveEnd : Word) : ℕ → Word → ℕ → BootParams → Except Fault BootParams
  | 0, _, _, _ => .error .fuel
  | fuel + 1, driveAddr, index, b =>
    if driveAddr < driveEnd then do
      let b ← storeDrive b index (readDrive mem driveAddr)
      copyDrives mem driveEnd fuel (driveAddr + driveSize mem driveAddr) (index + 1) b
    else .ok { b with drivesLength := BitVec.ofNat 32 index }

/-- the entries of the map that are there -/
def mmapEntries (mem : Mem) (mbi : Word) : Word := mbiMmapLength mem mbi / mmapEntrySize

def parseMmap (mem : Mem) (mbi : Word) (b : BootParams) : Except Fault BootParams :=
  if checkFlag (mbiFlags mem mbi) 6 then
    let length := mmapEntries mem mbi
    if length.toNat > nrMmapEntrys then .error .bug
    else copyMmap mem (mbiMmapAddr mem mbi) length.toNat 0 { b with mmapLength := length }
  else .ok b

def parseDrives (mem : Mem) (mbi : Word) (fuel : ℕ) (b : BootParams) : Except Fault BootParams :=
  if checkFlag (mbiFlags mem mbi) 7 then
    copyDrives mem (mbiDrivesAddr mem mbi + mbiDrivesLength mem mbi) fuel (mbiDrivesAddr mem mbi) 0 b
  else .ok b

def parseBootParams (mem : Mem) (magic addr : Word) (fuel : ℕ) (b : BootParams) : Except Fault BootParams :=
  if magic ≠ multibootBootloaderMagic then .error .bug
  else if checkFlag (mbiFlags mem addr) 4 && checkFlag (mbiFlags mem addr) 5 then .error .bug
  else do
    let b := if checkFlag (mbiFlags mem addr) 1 then { b with bootDevice := mbiBootDevice mem addr } else b
    let b ← parseMmap mem addr b
    parseDrives mem addr fuel b

/-! ## Both loops -/

/-- it ends, with every store in its array, or stops at a BUG -/
def Inside (x : Except Fault BootParams) : Prop := Ends x (· = .bug) fun _ => True

/-- where record n of the drives begins -/
def record (mem : Mem) (start : Word) : ℕ → Word
  | 0 => start
  | n + 1 => record mem start n + driveSize mem (record mem start n)

variable {mem : Mem} {b : BootParams} {start driveEnd : Word} {i n fuel : ℕ}

theorem storeMmap_ok (h : i < nrMmapEntrys) (b : BootParams) (e : MemoryMap) :
    storeMmap b i e = .ok { b with mmap := Function.update b.mmap ⟨i, h⟩ e } := dif_pos h

theorem storeDrive_ok (h : i < nrDrives) (b : BootParams) (d : DriveInfo) :
    storeDrive b i d = .ok { b with drives := Function.update b.drives ⟨i, h⟩ d } := dif_pos h

theorem storeDrive_outside (h : ¬ i < nrDrives) (b : BootParams) (d : DriveInfo) : storeDrive b i d = .error (.outside i) :=
  dif_neg h

/-- the map stays in its array, and the entries behind its end stay as they are -/
theorem copyMmap_ok (mem : Mem) (mmap : Word) {left : ℕ} (h : i + left ≤ nrMmapEntrys) (b : BootParams) :
    ∃ b', copyMmap mem mmap left i b = .ok b' ∧
      (∀ j : Fin nrMmapEntrys, b'.mmap j = if i ≤ j ∧
      j < i + left then readMmap mem (mmap + BitVec.ofNat 32 j * mmapEntrySize)
        else b.mmap j) ∧ { b' with mmap := b.mmap } = b := by
  induction left generalizing i b with
  | zero => exact ⟨b, rfl, fun j => (if_neg (by omega)).symm, rfl⟩
  | succ left ih =>
    have hi : i < nrMmapEntrys := by omega
    obtain ⟨b', hrun, hmmap, hrest⟩ := ih (i := i + 1) (by omega)
      { b with mmap := Function.update b.mmap ⟨i, hi⟩ (readMmap mem (mmap + BitVec.ofNat 32 i * mmapEntrySize)) }
    refine ⟨b', ?_, fun j => ?_, ?_⟩
    · rw [copyMmap, storeMmap_ok hi]
      exact hrun
    · rw [hmmap j]
      by_cases hj : j = ⟨i, hi⟩
      · subst hj
        rw [if_neg (by simp), if_pos (by simp)]
        exact Function.update_self _ _ _
      · have hne : (j : ℕ) ≠ i := fun he => hj (Fin.ext he)
        simp only [Function.update_of_ne hj]
        split_ifs <;> first | rfl | omega
    · exact congrArg (fun x : BootParams => { x with mmap := b.mmap }) hrest

/-- the drives that are there, and their number -/
theorem copyDrives_ok (hlt : ∀ j, i ≤ j → j < n → record mem start j < driveEnd) (hend : driveEnd ≤ record mem start n)
    (hin : i ≤ n) (hn : n ≤ nrDrives) (hfuel : n < fuel + i) (b : BootParams) :
    ∃ b', copyDrives mem driveEnd fuel (record mem start i) i b = .ok b' ∧ b'.drivesLength = BitVec.ofNat 32 n ∧
      (∀ j : Fin nrDrives, b'.drives j = if i ≤ j ∧ j < n then readDrive mem (record mem start j) else b.drives j) ∧
      b'.mmap = b.mmap ∧ b'.mmapLength = b.mmapLength ∧ b'.bootDevice = b.bootDevice := by
  induction fuel generalizing i b with
  | zero => exact absurd hfuel (by omega)
  | succ fuel ih =>
    rw [copyDrives]
    rcases Nat.lt_or_eq_of_le hin with hlast | rfl
    · have hi : i < nrDrives := Nat.lt_of_lt_of_le hlast hn
      obtain ⟨b', hrun, hlength, hdrives, hrest⟩ :=
        ih (i := i + 1) (fun j hj => hlt j (Nat.le_of_succ_le hj)) hlast
            (by omega) { b with drives := Function.update b.drives ⟨i, hi⟩ (readDrive mem (record mem start i)) }
      refine ⟨b', ?_, hlength, fun j => ?_, hrest⟩
      · rw [if_pos (hlt i (le_refl i) hlast), storeDrive_ok hi]
        exact hrun
      · rw [hdrives j]
        by_cases hj : j = ⟨i, hi⟩
        · subst hj
          rw [if_neg (by simp), if_pos (by simpa using hlast)]
          exact Function.update_self _ _ _
        · have hne : (j : ℕ) ≠ i := fun he => hj (Fin.ext he)
          simp only [Function.update_of_ne hj]
          split_ifs <;> first | rfl | omega
    · rw [if_neg (BitVec.not_lt.2 hend)]
      exact ⟨_, rfl, rfl, fun j => (if_neg (by omega)).symm, rfl, rfl, rfl⟩

/-- more records than drives -/
theorem copyDrives_outside (hlt : ∀ j, i ≤ j → j ≤ nrDrives → record mem start j < driveEnd) (hi : i ≤ nrDrives)
    (hfuel : nrDrives < fuel + i) (b : BootParams) :
    copyDrives mem driveEnd fuel (record mem start i) i b = .error (.outside nrDrives) := by
  induction fuel generalizing i b with
  | zero => exact absurd hfuel (by omega)
  | succ fuel ih =>
    rw [copyDrives, if_pos (hlt i (le_refl i) hi)]
    rcases Nat.lt_or_eq_of_le hi with hin | rfl
    · rw [storeDrive_ok hin]
      exact ih (i := i + 1) (fun j hj => hlt j (Nat.le_of_succ_le hj)) hin (by omega) _
    · rw [storeDrive_outside (lt_irrefl nrDrives)]
      rfl

/-- **The loop over the drives.** It stays in the array exactly when a record up to the sixth begins at the end. -/
theorem copyDrives_iff (mem : Mem) (start driveEnd : Word) (hfuel : nrDrives < fuel + i) (hi : i ≤ nrDrives) (b : BootParams) :
    Inside (copyDrives mem driveEnd fuel (record mem start i) i b) ↔
      ∃ n, i ≤ n ∧ n ≤ nrDrives ∧ driveEnd ≤ record mem start n := by
  constructor
  · intro hin
    by_contra hnone
    push Not at hnone
    rw [copyDrives_outside (fun j hij hj => BitVec.not_le.1 (hnone j hij hj)) hi hfuel] at hin
    exact Fault.noConfusion (show Fault.outside nrDrives = .bug from hin)
  · intro hex
    -- the first record that begins at the end
    obtain ⟨hin, hn, hend⟩ := Nat.find_spec hex
    have hlt : ∀ j, i ≤ j → j < Nat.find hex → record mem start j < driveEnd := fun j hij hj =>
      BitVec.not_le.1 fun hle => Nat.find_min hex hj ⟨hij, hj.le.trans hn, hle⟩
    have hbound : Nat.find hex < fuel + i := by omega
    obtain ⟨b', hrun, -⟩ := copyDrives_ok hlt hend hin hn hbound b
    rw [hrun]
    trivial

/-! ## The whole function -/

theorem parseMmap_cases (mem : Mem) (mbi : Word) (b : BootParams) :
    (checkFlag (mbiFlags mem mbi) 6 = true ∧ nrMmapEntrys < (mmapEntries mem mbi).toNat ∧
    parseMmap mem mbi b = .error .bug) ∨
      ¬ (checkFlag (mbiFlags mem mbi) 6 = true ∧ nrMmapEntrys < (mmapEntries mem mbi).toNat) ∧
      ∃ b', parseMmap mem mbi b = .ok b' := by
  rw [parseMmap]
  dsimp only
  split_ifs with h6 hlen
  · exact Or.inl ⟨h6, hlen, rfl⟩
  · obtain ⟨b', hrun, -⟩ := copyMmap_ok mem (mbiMmapAddr mem mbi)
      (show 0 + (mmapEntries mem mbi).toNat ≤ nrMmapEntrys by omega)
      { b with mmapLength := mmapEntries mem mbi }
    exact Or.inr ⟨fun h => hlen h.2, b', hrun⟩
  · exact Or.inr ⟨fun h => h6 h.1, b, rfl⟩

/-- parse_boot_params stops at a BUG before it comes to the drives -/
def Refused (mem : Mem) (magic addr : Word) : Prop :=
  magic ≠ multibootBootloaderMagic ∨ (checkFlag (mbiFlags mem addr) 4 = true ∧ checkFlag (mbiFlags mem addr) 5 = true) ∨
    (checkFlag (mbiFlags mem addr) 6 = true ∧ nrMmapEntrys < (mmapEntries mem addr).toNat)

/-- **The information block.** parse_boot_params ends and stores in its arrays only, or stops at a BUG, if and only if it is
refused before the drives, has no drives, or has five records at most: one up to the sixth begins at the end of the drives. -/
theorem parse_inside_iff (mem : Mem) (magic addr : Word) (fuel : ℕ) (b : BootParams) :
    Inside (parseBootParams mem magic addr (fuel + (nrDrives + 1)) b) ↔
      Refused mem magic addr ∨ checkFlag (mbiFlags mem addr) 7 = false ∨
        ∃ n ≤ nrDrives, mbiDrivesAddr mem addr + mbiDrivesLength mem addr ≤ record mem (mbiDrivesAddr mem addr) n := by
  unfold Refused
  rw [parseBootParams]
  by_cases hmagic : magic = multibootBootloaderMagic
  swap
  · rw [if_pos hmagic]
    exact iff_of_true rfl (Or.inl (Or.inl hmagic))
  rw [if_neg (not_not.2 hmagic)]
  by_cases h45 : checkFlag (mbiFlags mem addr) 4 = true ∧ checkFlag (mbiFlags mem addr) 5 = true
  · rw [if_pos (by rw [h45.1, h45.2]; rfl)]
    exact iff_of_true rfl (Or.inl (Or.inr (Or.inl h45)))
  rw [if_neg (fun h => h45 (Bool.and_eq_true_iff.1 h))]
  rcases parseMmap_cases mem addr
      (if checkFlag (mbiFlags mem addr) 1 then { b with bootDevice := mbiBootDevice mem addr } else b) with
    ⟨h6, hlen, hrun⟩ | ⟨hfits, b', hrun⟩
  · dsimp only
    rw [hrun]
    exact iff_of_true rfl (Or.inl (Or.inr (Or.inr ⟨h6, hlen⟩)))
  dsimp only
  rw [hrun]
  change Inside (parseDrives mem addr (fuel + (nrDrives + 1)) b') ↔ _
  rw [parseDrives]
  cases h7 : checkFlag (mbiFlags mem addr) 7 with
  | false => exact iff_of_true trivial (Or.inr (Or.inl rfl))
  | true =>
    have hdrives := copyDrives_iff (i := 0) mem (mbiDrivesAddr mem addr) (mbiDrivesAddr mem addr + mbiDrivesLength mem addr)
      (show nrDrives < fuel + (nrDrives + 1) + 0 by omega) (Nat.zero_le _) b'
    rw [if_pos rfl]
    refine hdrives.trans ?_
    constructor
    · rintro ⟨n, -, hn, hend⟩
      exact Or.inr (Or.inr ⟨n, hn, hend⟩)
    · rintro ((h | h | h) | h | ⟨n, hn, hend⟩)
      · exact absurd hmagic h
      · exact absurd h h45
      · exact absurd h hfits
      · cases h
      · exact ⟨n, Nat.zero_le n, hn, hend⟩

def empty : BootParams := ⟨0, 0, 0, fun _ => ⟨0, 0, 0⟩, fun _ => ⟨0, 0, 0, 0⟩⟩

/-- an information block at 0 with six drives at 100, in records of 10 bytes -/
def sixDrives (a : Word) : BitVec 8 :=
  if a = 0 then 0x80
  else if a = 52 then 60
  else if a = 56 then 100
  else if 100 ≤ a ∧ a < 160 ∧ a % 10 = 0 then 10
  else 0

/-- The sixth drive is stored behind the array. -/
theorem sixth_drive : parseBootParams sixDrives multibootBootloaderMagic 0 6 empty = .error (.outside 5) ∧
    ¬ Inside (parseBootParams sixDrives multibootBootloaderMagic 0 6 empty) := by
  have hrun : parseBootParams sixDrives multibootBootloaderMagic 0 6 empty = .error (.outside 5) := by rfl
  refine ⟨hrun, ?_⟩
  rw [hrun]
  intro h
  cases h

end SinsOs.Boot
