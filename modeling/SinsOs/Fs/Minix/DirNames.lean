/-
The two readers of a directory: minix_file_readdir lists names, minix_lookup opens them.

The scan of minix_lookup goes on at the end of a block to the next one when the 16 bytes behind the block have an inode number
that is not 0. If they have none, it takes them for an entry that is not in use, and is out of step with the directory from there
on.

`readdir_iff`: when calls of any lengths list the names of the entries in use, and lookup opens exactly these names and takes no
bytes behind a block for an entry.
-/
import SinsOs.Fs.Minix.Readdir

namespace SinsOs.Minix

open SinsOs.Lib

/-! ## The property -/

/-- a name that fits into an entry -/
def Short (name : List Byte) : Prop := name.length ≤ minixNameLen ∧ ∀ b ∈ name, b ≠ 0

/-- a lookup of the name comes back, with a dentry of that name if it is one of `names`, and with NULL otherwise -/
def Opens (dev : Device) (cache : Cache) (inode : Inode) (names : List (List Byte)) (name : List Byte) : Prop :=
  ∀ stack, ∃ find reads, minixLookup dev cache inode stack name = some (find, reads) ∧ (find.isSome ↔ name ∈ names) ∧
    ∀ f, find = some f → strn (minixNameLen + 1) f.name = name

/-- what the scan takes for an entry is in the block it reads -/
def StepsIn (dev : Device) (cache : Cache) (inode : Inode) (name : List Byte) : Prop :=
  ∀ stack r, minixLookup dev cache inode stack name = some r →
    ∀ a ∈ r.2, a.slot < dentriesPerBlock ∨ slotInr (dev.bytes a.block) a.slot ≠ 0

/-- behind each block that has entries of the directory behind it, the bytes in the place of an entry have an inode number -/
def InStep (dev : Device) (inode : Inode) : Prop :=
  ∀ k, dentriesPerBlock * (k + 1) < inode.size / sizeofDentry →
  slotInr (dev.bytes (inode.zoneOf dev k)) dentriesPerBlock ≠ 0

/-- iget gives the inode of the first entry of each name -/
def Loads (dev : Device) (cache : Cache) (inode : Inode) : Prop :=
  ∀ j, Matches dev inode (inode.nameOf dev j) j → (∀ i < j, ¬ Matches dev inode (inode.nameOf dev j) i) →
    (cache.iget (inode.inrOf dev j)).isSome

variable {dev : Device} {inode : Inode} {cache : Cache} {name : List Byte} {tmp stack : Ptr} {dentries e i j k m : ℕ}

theorem mem_live (name : List Byte) : name ∈ inode.live dev 0 (inode.size / sizeofDentry) ↔
    ∃ j, Matches dev inode name j := by
  simp [Inode.live, Matches, and_assoc]

/-! ## The scan in step -/

/-- the cursor on entry e -/
def Cursor.place (dev : Device) (inode : Inode) (e : ℕ) : Cursor :=
  ⟨e, inode.zoneOf dev (e / dentriesPerBlock), dev.bytes (inode.zoneOf dev (e / dentriesPerBlock)),
  e % dentriesPerBlock, true⟩

/-- the cursor that comes to entry e: on the entry, or at the end of the block in front of it -/
def Cursor.before (dev : Device) (inode : Inode) (e : ℕ) : Cursor :=
  if e % dentriesPerBlock = 0 ∧ e ≠ 0 then
    ⟨e, inode.zoneOf dev (e / dentriesPerBlock - 1), dev.bytes (inode.zoneOf dev (e / dentriesPerBlock - 1)),
    dentriesPerBlock, true⟩
  else .place dev inode e

/-- what a turn reads on its way to entry e -/
def readsOf (dev : Device) (inode : Inode) (e : ℕ) : List Access :=
  if e % dentriesPerBlock = 0 ∧ e ≠ 0 then
    [⟨inode.zoneOf dev (e / dentriesPerBlock - 1), dentriesPerBlock⟩, ⟨inode.zoneOf dev (e / dentriesPerBlock), 0⟩]
  else [⟨inode.zoneOf dev (e / dentriesPerBlock), e % dentriesPerBlock⟩]

/-- the entry has the name in tmp_name_buf -/
def HitAt (dev : Device) (inode : Inode) (tmp : Ptr) (e : ℕ) : Prop :=
  Hit tmp (dev.bytes (inode.zoneOf dev (e / dentriesPerBlock))) (e % dentriesPerBlock)

/-- the bytes behind the block in front of e say that the block ends -/
def StepAt (dev : Device) (inode : Inode) (e : ℕ) : Prop :=
  e % dentriesPerBlock = 0 → e ≠ 0 →
  slotInr (dev.bytes (inode.zoneOf dev (e / dentriesPerBlock - 1))) dentriesPerBlock ≠ 0

theorem InStep.at (h : InStep dev inode) (he : e < inode.size / sizeofDentry) : StepAt dev inode e := by
  intro hmod hne
  have hblock : dentriesPerBlock * (e / dentriesPerBlock - 1 + 1) = e := by
    unfold dentriesPerBlock minixBlockSize sizeofDentry at *
    omega
  exact h _ (by rwa [hblock])

theorem before_i (e : ℕ) : (Cursor.before dev inode e).i = e := by
  rw [Cursor.before]
  split_ifs <;> rfl

theorem compare_hit (h : HitAt dev inode tmp e) : compareEntry tmp (.place dev inode e) = .found (.place dev inode e) := if_pos h

theorem compare_miss (h : ¬ HitAt dev inode tmp e) :
    compareEntry tmp (.place dev inode e) = .next (.before dev inode (e + 1)) := by
  have hnext : (⟨e + 1, inode.zoneOf dev (e / dentriesPerBlock), dev.bytes (inode.zoneOf dev (e / dentriesPerBlock)),
      e % dentriesPerBlock + 1, true⟩ : Cursor) = .before dev inode (e + 1) := by
    rw [Cursor.before]
    split_ifs with hend
    · have hblock : (e + 1) / dentriesPerBlock - 1 = e / dentriesPerBlock := by
        unfold dentriesPerBlock minixBlockSize sizeofDentry at *
        omega
      have hslot : e % dentriesPerBlock + 1 = dentriesPerBlock := by
        unfold dentriesPerBlock minixBlockSize sizeofDentry at *
        omega
      rw [hblock, hslot]
    · have hblock : (e + 1) / dentriesPerBlock = e / dentriesPerBlock := by
        unfold dentriesPerBlock minixBlockSize sizeofDentry at *
        omega
      have hslot : (e + 1) % dentriesPerBlock = e % dentriesPerBlock + 1 := by
        unfold dentriesPerBlock minixBlockSize sizeofDentry at *
        omega
      rw [Cursor.place, hblock, hslot]
  rw [← hnext]
  exact if_neg h

/-- a turn that is in step compares entry e -/
theorem turn_before (h : dev.Sound) (he : e / dentriesPerBlock < maxBlocks) (hm : Mapped dev inode (e / dentriesPerBlock))
    (hs : StepAt dev inode e) : lookupTurn dev inode tmp (.before dev inode e) =
      some (compareEntry tmp (.place dev inode e), readsOf dev inode e) := by
  rw [Cursor.before, readsOf]
  by_cases hend : e % dentriesPerBlock = 0 ∧ e ≠ 0
  · have hnext : nextBlock dev (inode.zoneOf dev (e / dentriesPerBlock)) =
        some (dev.bytes (inode.zoneOf dev (e / dentriesPerBlock))) := by
      rw [nextBlock, if_neg hm, h.block]
    have hbmap : bmap dev inode (e / dentriesPerBlock) = some (inode.zoneOf dev (e / dentriesPerBlock)) := by
      rw [bmap_eq h, if_neg (not_le.2 he)]
    rw [if_pos hend, if_pos hend, lookupTurn, if_pos (hs hend.1 hend.2), if_neg (by simp), if_pos le_rfl]
    simp only [hbmap, hnext, Option.map_some, Cursor.place, hend.1]
  · rw [if_neg hend, if_neg hend, lookupTurn]
    have hslot : ¬ (Cursor.place dev inode e).slot ≥ dentriesPerBlock := not_le.2 (Nat.mod_lt _ (by decide))
    rw [if_neg (show ¬ (!(Cursor.place dev inode e).held) = true by simp [Cursor.place]), if_neg hslot, ite_self]
    rfl

/-- **The scan in step** compares entry after entry until it comes to one with the name. -/
theorem lookupLoop_steps (h : dev.Sound) (dentries fuel m : ℕ) : ∀ i, i + m ≤ dentries →
    (∀ e, i ≤ e → e < i + m → e / dentriesPerBlock < maxBlocks ∧ Mapped dev inode (e / dentriesPerBlock) ∧
      StepAt dev inode e ∧ ¬ HitAt dev inode tmp e) →
    lookupLoop dev inode tmp dentries (fuel + m) (.before dev inode i) =
      (lookupLoop dev inode tmp dentries fuel (.before dev inode (i + m))).map fun r =>
        (r.1, (List.range' i m).flatMap (readsOf dev inode) ++ r.2) := by
  induction m with
  | zero =>
    intro i _ _
    simp
  | succ m ih =>
    intro i hend hall
    have hlt : (Cursor.before dev inode i).i < dentries := by
      rw [before_i]
      omega
    obtain ⟨hmax, hm, hs, hmiss⟩ := hall i le_rfl (by omega)
    have hrest := ih (i + 1) (by omega) fun e h1 h2 => hall e (by omega) (by omega)
    rw [← Nat.add_assoc fuel, lookupLoop, if_pos hlt, turn_before h hmax hm hs, compare_miss hmiss]
    dsimp only
    rw [hrest, Option.map_map, List.range'_succ, List.flatMap_cons, Nat.add_assoc i, Nat.add_comm 1 m]
    refine congrArg (Option.map · _) (funext fun r => ?_)
    simp

/-- reads on the way to entries that are in step -/
theorem readsOf_steps (hall : ∀ e < m, StepAt dev inode e) : ∀ a ∈ (List.range' 0 m).flatMap (readsOf dev inode),
    a.slot < dentriesPerBlock ∨ slotInr (dev.bytes a.block) a.slot ≠ 0 := by
  intro a ha
  obtain ⟨e, he, hae⟩ := List.mem_flatMap.1 ha
  have hlt : e < 0 + m := (List.mem_range'_1.1 he).2
  rw [readsOf] at hae
  split_ifs at hae with hend
  · obtain rfl | hae := List.mem_cons.1 hae
    · exact Or.inr (hall e (by omega) hend.1 hend.2)
    · obtain rfl := List.mem_singleton.1 hae
      exact Or.inl (Nat.succ_pos 63)
  · obtain rfl := List.mem_singleton.1 hae
    exact Or.inl (Nat.mod_lt _ (by decide))

/-- a turn reads at the cursor that it begins with -/
theorem lookupLoop_reads {fuel : ℕ} {c : Cursor} {r : Option Cursor × List Access} (hc : c.i < dentries)
    (hr : lookupLoop dev inode tmp dentries (fuel + 1) c = some r) : (⟨c.block, c.slot⟩ : Access) ∈ r.2 := by
  rw [lookupLoop, if_pos hc] at hr
  cases hturn : lookupTurn dev inode tmp c with
  | none =>
    rw [hturn] at hr
    cases hr
  | some t =>
    obtain ⟨t, reads⟩ := t
    have hread := lookupTurn_reads hturn
    rw [hturn] at hr
    cases t with
    | found c' =>
      cases hr
      exact hread
    | next c' =>
      obtain ⟨r', -, rfl⟩ := Option.map_eq_some_iff.1 hr
      exact List.mem_append_left _ hread

/-! ## A lookup in a directory whose entries are in use -/

/-- an entry of a block that has a zone is in the block's buffer -/
theorem entry_place (h : dev.Sound) (he : e / dentriesPerBlock < maxBlocks) (hm : Mapped dev inode (e / dentriesPerBlock)) :
    inode.inrOf dev e = slotInr (Cursor.place dev inode e).data (Cursor.place dev inode e).slot ∧
      inode.nameOf dev e = strn minixNameLen (slotName (Cursor.place dev inode e).data (Cursor.place dev inode e).slot) := by
  simp only [Inode.inrOf, Inode.nameOf, dirBlock_eq h he, if_pos hm, Cursor.place, and_self]

theorem match_iff_hitAt (h : dev.Sound) (hname : Short name) (stack : Ptr) (he : e / dentriesPerBlock < maxBlocks)
    (hm : Mapped dev inode (e / dentriesPerBlock)) (hlt : e < inode.size / sizeofDentry) :
    Matches dev inode name e ↔ HitAt dev inode (tmpNameBuf stack name) e := by
  obtain ⟨hinr, hnameOf⟩ := @entry_place dev inode e h he hm
  rw [Matches, hinr, hnameOf, HitAt, Hit, strncmp_eq_zero, strn_tmpNameBuf stack hname.1 hname.2, eq_comm (a := name)]
  exact and_iff_right hlt

/-- the entries in use, and whether one in a hole follows them -/
theorem AllInUse.count (hd : AllInUse dev inode) : ∃ m ≤ inode.size / sizeofDentry, (∀ e < m, inode.inrOf dev e ≠ 0) ∧
    (m = inode.size / sizeofDentry ∨ m + 1 = inode.size / sizeofDentry ∧ m % dentriesPerBlock = 0 ∧
      ¬ Mapped dev inode (m / dentriesPerBlock)) := by
  by_cases hall : ∀ e < inode.size / sizeofDentry, inode.inrOf dev e ≠ 0
  · exact ⟨_, le_rfl, hall, Or.inl rfl⟩
  · push Not at hall
    obtain ⟨e, he, hzero⟩ := hall
    obtain ⟨hhole, hfirst, hend⟩ := (hd.2.1 e he).resolve_left (not_not.2 hzero)
    have hsize : e + 1 = inode.size / sizeofDentry := by
      unfold sizeofDentry at *
      omega
    refine ⟨e, he.le, fun i hi => (hd.2.1 i (hi.trans he)).resolve_right fun hlone => ?_, Or.inr ⟨hsize, hfirst, hhole⟩⟩
    have hlast := hlone.2.2
    unfold sizeofDentry at *
    omega

/-- the turn at the end of the last block before a hole leaves the directory -/
theorem turn_hole (h : dev.Sound) (hmax : m / dentriesPerBlock < maxBlocks) (hmod : m % dentriesPerBlock = 0) (hne : m ≠ 0)
    (hs : StepAt dev inode m) (hhole : ¬ Mapped dev inode (m / dentriesPerBlock)) :
    ∃ c, dentriesPerBlock + m = c.i ∧ lookupTurn dev inode tmp (.before dev inode m) =
      some (.next c, [⟨inode.zoneOf dev (m / dentriesPerBlock - 1), dentriesPerBlock⟩]) := by
  have hzone : inode.zoneOf dev (m / dentriesPerBlock) = 0 := not_not.1 hhole
  have hbmap : bmap dev inode (m / dentriesPerBlock) = some 0 := by
    rw [bmap_eq h, if_neg (not_le.2 hmax), hzone]
  have hnext : nextBlock dev 0 = none := if_pos rfl
  rw [Cursor.before, if_pos ⟨hmod, hne⟩, lookupTurn, if_pos (hs hmod hne), if_neg (by simp), if_pos le_rfl]
  simp only [hbmap, hnext, Option.map_some]
  exact ⟨_, Nat.add_comm _ _, rfl⟩

/-- an entry of the directory that is in use, in a scan in step -/
theorem AllInUse.entry (h : dev.Sound) (hd : AllInUse dev inode) (he : e < inode.size / sizeofDentry)
    (hu : inode.inrOf dev e ≠ 0) :
    e / dentriesPerBlock < maxBlocks ∧ Mapped dev inode (e / dentriesPerBlock) := by
  have hmax := hd.1
  refine ⟨?_, mapped_of_used h hu⟩
  unfold dentriesPerBlock minixBlockSize sizeofDentry at *
  omega

/-- the scan of a directory whose first block is no hole -/
theorem minixLookup_scan_eq (h : dev.Sound) (hm : Mapped dev inode 0) (stack : Ptr) (name : List Byte) :
    minixLookup dev cache inode stack name = (lookupLoop dev inode (tmpNameBuf stack name) (inode.size / sizeofDentry)
      (inode.size / sizeofDentry) (.before dev inode 0)).map fun r => (r.1.bind (loadEntry cache), r.2) := by
  have hzone : inode.zoneOf dev 0 = (inode.zone 0).toNat := if_pos (by decide)
  have hne : (inode.zone 0).toNat ≠ 0 := hzone ▸ hm
  have hstart : Cursor.before dev inode 0 = ⟨0, (inode.zone 0).toNat, dev.bytes (inode.zone 0).toNat, 0, true⟩ := by
    rw [Cursor.before, if_neg (by decide), Cursor.place, Nat.zero_div, hzone]
    rfl
  rw [hstart]
  simp only [minixLookup, if_neg hne, h.block]

/-- the first m entries are in blocks of the file that are no holes, and the scan is in step with them -/
def Entered (dev : Device) (inode : Inode) (m : ℕ) : Prop :=
  ∀ e < m, e / dentriesPerBlock < maxBlocks ∧ Mapped dev inode (e / dentriesPerBlock) ∧ StepAt dev inode e

theorem Entered.mono {m' : ℕ} (he : Entered dev inode m) (hle : m' ≤ m) : Entered dev inode m' :=
  fun e hlt => he e (hlt.trans_le hle)

theorem Entered.first (he : Entered dev inode m) (hpos : 0 < m) : Mapped dev inode 0 := (he 0 hpos).2.1

/-- the scan passes entries that have another name -/
theorem scan_misses (h : dev.Sound) (hname : Short name) (he : Entered dev inode m) (hle : m ≤ inode.size / sizeofDentry)
    (hno : ∀ e < m, ¬ Matches dev inode name e) (stack : Ptr) (fuel : ℕ) :
    lookupLoop dev inode (tmpNameBuf stack name) (inode.size / sizeofDentry) (fuel + m) (.before dev inode 0) =
      (lookupLoop dev inode (tmpNameBuf stack name) (inode.size / sizeofDentry) fuel (.before dev inode m)).map fun r =>
        (r.1, (List.range' 0 m).flatMap (readsOf dev inode) ++ r.2) := by
  have hscan := @lookupLoop_steps dev inode (tmpNameBuf stack name) h (inode.size / sizeofDentry) fuel m 0 (by omega)
    fun e _ hlt => by
      obtain ⟨hmax, hmapped, hs⟩ := he e (by omega)
      refine ⟨hmax, hmapped, hs, fun hhit => hno e (by omega) ?_⟩
      exact (match_iff_hitAt h hname stack hmax hmapped (by omega)).2 hhit
  rwa [Nat.zero_add] at hscan

/-- the first entry with the name is the one that is found -/
theorem lookup_found (h : dev.Sound) (hname : Short name) (he : Entered dev inode (m + 1)) (hm : Matches dev inode name m)
    (hbefore : ∀ i < m, ¬ Matches dev inode name i) (stack : Ptr) : minixLookup dev cache inode stack name =
      some (loadEntry cache (.place dev inode m), (List.range' 0 (m + 1)).flatMap (readsOf dev inode)) := by
  obtain ⟨hmax, hmapped, hs⟩ := he m (Nat.lt_succ_self m)
  have hlt := hm.1
  obtain ⟨rest, hfuel⟩ : ∃ rest, inode.size / sizeofDentry = rest + 1 + m :=
    ⟨inode.size / sizeofDentry - 1 - m, by omega⟩
  have hhit := (match_iff_hitAt h hname stack hmax hmapped hlt).1 hm
  have hturn : lookupLoop dev inode (tmpNameBuf stack name) (inode.size / sizeofDentry) (rest + 1)
      (.before dev inode m) = some (some (.place dev inode m), readsOf dev inode m) := by
    rw [lookupLoop, if_pos (by rw [before_i]; omega), turn_before h hmax hmapped hs, compare_hit hhit]
  rw [minixLookup_scan_eq h (he.first (Nat.succ_pos m))]
  nth_rewrite 2 [hfuel]
  rw [scan_misses h hname (he.mono (Nat.le_succ m)) hlt.le hbefore, hturn, List.range'_concat, List.flatMap_append]
  simp

/-- no entry has the name: the scan comes to the end, or leaves the last block before a hole -/
theorem lookup_missing (h : dev.Sound) (hd : AllInUse dev inode) (hstep : InStep dev inode) (hname : Short name)
    (he : Entered dev inode m) (hpos : 0 < m) (hno : ∀ i < m, ¬ Matches dev inode name i)
    (hrest : m = inode.size / sizeofDentry ∨ m + 1 = inode.size / sizeofDentry ∧ m % dentriesPerBlock = 0 ∧
      ¬ Mapped dev inode (m / dentriesPerBlock)) :
    ∃ reads, (∀ stack, minixLookup dev cache inode stack name = some (none, reads)) ∧
      ∀ a ∈ reads, a.slot < dentriesPerBlock ∨ slotInr (dev.bytes a.block) a.slot ≠ 0 := by
  have hreads := @readsOf_steps dev inode m fun e hlt => (he e hlt).2.2
  rcases hrest with heq | ⟨heq, hmod, hhole⟩
  · refine ⟨(List.range' 0 m).flatMap (readsOf dev inode), fun stack => ?_, hreads⟩
    have hend := scan_misses h hname he heq.le hno stack 0
    rw [minixLookup_scan_eq h (he.first hpos)]
    nth_rewrite 2 [← heq]
    rw [← Nat.zero_add m, hend, lookupLoop]
    simp
  · have hs : StepAt dev inode m := hstep.at (by omega)
    have hmax : m / dentriesPerBlock < maxBlocks := by
      have hsize := hd.1
      unfold dentriesPerBlock minixBlockSize sizeofDentry at *
      omega
    refine ⟨(List.range' 0 m).flatMap (readsOf dev inode) ++
      [⟨inode.zoneOf dev (m / dentriesPerBlock - 1), dentriesPerBlock⟩], fun stack => ?_, fun a ha => ?_⟩
    · obtain ⟨c, hc, hturn⟩ := @turn_hole dev inode (tmpNameBuf stack name) m h hmax hmod hpos.ne' hs hhole
      have hend := scan_misses h hname he (by omega) hno stack 1
      have hlast : lookupLoop dev inode (tmpNameBuf stack name) (inode.size / sizeofDentry) 1 (.before dev inode m) =
          some (none, [⟨inode.zoneOf dev (m / dentriesPerBlock - 1), dentriesPerBlock⟩]) := by
        rw [lookupLoop, if_pos (by rw [before_i]; omega), hturn]
        rfl
      rw [minixLookup_scan_eq h (he.first hpos)]
      nth_rewrite 2 [← heq]
      rw [Nat.add_comm m 1, hend, hlast]
      rfl
    · obtain ha | ha := List.mem_append.1 ha
      · exact hreads a ha
      · obtain rfl := List.mem_singleton.1 ha
        exact Or.inr (hs hmod hpos.ne')

/-- the directory has no entry in use: it is empty, or its only entry is in a hole -/
theorem lookup_unused (h : dev.Sound) (hrest : 0 = inode.size / sizeofDentry ∨ ¬ Mapped dev inode 0) (stack : Ptr) :
    minixLookup dev cache inode stack name = some (none, []) := by
  by_cases hm : Mapped dev inode 0
  · rw [minixLookup_scan_eq h hm, ← hrest.resolve_right (not_not.2 hm)]
    rfl
  · have hz : (inode.zone 0).toNat = 0 := not_not.1 hm
    have hzone : inode.zone 0 = 0 := BitVec.eq_of_toNat_eq hz
    exact minixLookup_hole hzone stack

/-- **A lookup in step** finds the first entry with the name, or comes to the end of the directory. -/
theorem lookup_steps (h : dev.Sound) (hd : AllInUse dev inode) (hstep : InStep dev inode) (hname : Short name) :
    ∃ find reads, (∀ stack, minixLookup dev cache inode stack name = some (find, reads)) ∧
      (∀ a ∈ reads, a.slot < dentriesPerBlock ∨ slotInr (dev.bytes a.block) a.slot ≠ 0) ∧
      ((∃ j, Matches dev inode name j ∧ (∀ i < j, ¬ Matches dev inode name i) ∧
          find = loadEntry cache (.place dev inode j)) ∨
        (∀ j, ¬ Matches dev inode name j) ∧ find = none) := by
  obtain ⟨m, hle, hused, hrest⟩ := hd.count
  have hentered : Entered dev inode m := fun e he =>
    ⟨(hd.entry h (by omega) (hused e he)).1, (hd.entry h (by omega) (hused e he)).2, hstep.at (by omega)⟩
  have hbehind : ∀ j, Matches dev inode name j → j < m := by
    intro j hj
    have hmapped := mapped_of_used h hj.2.1
    obtain heq | ⟨heq, -, hhole⟩ := hrest
    · exact heq ▸ hj.1
    · have hlt := hj.1
      by_contra hge
      obtain rfl : j = m := by omega
      exact hhole hmapped
  by_cases hmatch : ∃ j, Matches dev inode name j
  · obtain ⟨j, hj, hbefore⟩ : ∃ j, Matches dev inode name j ∧ ∀ i < j, ¬ Matches dev inode name i :=
      ⟨Nat.find hmatch, Nat.find_spec hmatch, fun i hi => Nat.find_min hmatch hi⟩
    have he : Entered dev inode (j + 1) := hentered.mono (hbehind j hj)
    exact ⟨_, _, lookup_found h hname he hj hbefore, readsOf_steps fun e hlt => (he e hlt).2.2,
      Or.inl ⟨j, hj, hbefore, rfl⟩⟩
  · have hnone : ∀ j, ¬ Matches dev inode name j := fun j hj => hmatch ⟨j, hj⟩
    rcases Nat.eq_zero_or_pos m with rfl | hpos
    · exact ⟨none, [], lookup_unused h (hrest.imp id fun hhole => hhole.2.2), by simp, Or.inr ⟨hnone, rfl⟩⟩
    · obtain ⟨reads, hrun, hreads⟩ := lookup_missing h hd hstep hname hentered hpos (fun i _ => hnone i) hrest
      exact ⟨none, reads, hrun, hreads, Or.inr ⟨hnone, rfl⟩⟩

/-! ## The condition -/

/-- names of four letters -/
def word (f : Fin 4 → Fin 255) : List Byte := List.ofFn fun i => BitVec.ofNat 8 (f i + 1)

theorem letter_toNat (x : Fin 255) : (BitVec.ofNat 8 (x + 1)).toNat = x + 1 := Nat.mod_eq_of_lt (by omega)

theorem word_injective : Function.Injective word := by
  intro f g hfg
  funext i
  have hnat := congrArg BitVec.toNat (congrFun (List.ofFn_injective hfg) i)
  rw [letter_toNat, letter_toNat] at hnat
  exact Fin.ext (by omega)

theorem word_short (f : Fin 4 → Fin 255) : Short (word f) := by
  refine ⟨?_, fun b hb => ?_⟩
  · rw [word, List.length_ofFn]
    decide
  · rw [word, List.mem_ofFn] at hb
    obtain ⟨i, rfl⟩ := hb
    intro hzero
    have hnat : (BitVec.ofNat 8 (f i + 1)).toNat = (0 : Byte).toNat := congrArg BitVec.toNat hzero
    rw [letter_toNat] at hnat
    exact Nat.succ_ne_zero _ hnat

/-- a directory has too few entries for all of them -/
theorem fresh_name (names : List (List Byte)) (hlen : names.length < 2 ^ 31) : ∃ name, Short name ∧ name ∉ names := by
  by_contra hno
  push Not at hno
  have hsub : Finset.univ.image word ⊆ names.toFinset := by
    refine Finset.image_subset_iff.2 fun f _ => List.mem_toFinset.2 (hno _ (word_short f))
  have hcard := Finset.card_le_card hsub
  rw [Finset.card_image_of_injective _ word_injective, Finset.card_univ, Fintype.card_fun, Fintype.card_fin,
    Fintype.card_fin] at hcard
  have hle := List.toFinset_card_le names
  omega

theorem live_length (a b : ℕ) : (inode.live dev a b).length ≤ b - a := by
  rw [Inode.live, List.length_map]
  exact (List.length_filter_le _ _).trans_eq (List.length_range' ..)

/-- a scan of the whole directory that takes no bytes behind a block for an entry is in step -/
theorem inStep_of_opens (h : dev.Sound) (hd : AllInUse dev inode)
    (hall : ∀ name, Short name → Opens dev cache inode (inode.live dev 0 (inode.size / sizeofDentry)) name ∧
      StepsIn dev cache inode name) : InStep dev inode := by
  have hmax := hd.1
  by_contra hno
  obtain ⟨k, hk, hbefore⟩ : ∃ k, (dentriesPerBlock * (k + 1) < inode.size / sizeofDentry ∧
      slotInr (dev.bytes (inode.zoneOf dev k)) dentriesPerBlock = 0) ∧ ∀ i < k, ¬ (dentriesPerBlock * (i + 1) <
      inode.size / sizeofDentry ∧ slotInr (dev.bytes (inode.zoneOf dev i)) dentriesPerBlock = 0) := by
    rw [InStep] at hno
    push Not at hno
    exact ⟨Nat.find hno, Nat.find_spec hno, fun i hi => Nat.find_min hno hi⟩
  obtain ⟨hlt, hzero⟩ := hk
  obtain ⟨name, hname, hout⟩ := fresh_name (inode.live dev 0 (inode.size / sizeofDentry)) (by
    have hlen := @live_length dev inode 0 (inode.size / sizeofDentry)
    unfold maxBlocks minixBlockSize sizeofDentry at *
    omega)
  obtain ⟨hopens, hstays⟩ := hall name hname
  obtain ⟨find, reads, hrun, -⟩ := hopens fun _ => 0
  have hin := hstays _ _ hrun
  -- the entries up to the end of block k are compared in step
  have hentry : ∀ e, 0 ≤ e → e < 0 + dentriesPerBlock * (k + 1) → e / dentriesPerBlock < maxBlocks ∧
      Mapped dev inode (e / dentriesPerBlock) ∧ StepAt dev inode e ∧ ¬ HitAt dev inode (tmpNameBuf (fun _ => 0) name) e := by
    intro e _ he
    have hused : inode.inrOf dev e ≠ 0 := (hd.2.1 e (by omega)).resolve_right fun hlone => by
      have hend := hlone.2.2
      unfold dentriesPerBlock minixBlockSize sizeofDentry at *
      omega
    obtain ⟨hb, hm⟩ := hd.entry h (by omega) hused
    refine ⟨hb, hm, fun hmod hne hz => ?_, fun hhit => ?_⟩
    · refine hbefore (e / dentriesPerBlock - 1) ?_ ⟨?_, hz⟩
      · unfold dentriesPerBlock minixBlockSize sizeofDentry at *
        omega
      · unfold dentriesPerBlock minixBlockSize sizeofDentry at *
        omega
    · exact hout ((mem_live name).2 ⟨e, (match_iff_hitAt h hname _ hb hm (by omega)).2 hhit⟩)
  obtain ⟨rest, hfuel⟩ : ∃ rest, inode.size / sizeofDentry = rest + 1 + dentriesPerBlock * (k + 1) :=
    ⟨inode.size / sizeofDentry - 1 - dentriesPerBlock * (k + 1), by omega⟩
  have hwalk := @lookupLoop_steps dev inode (tmpNameBuf (fun _ => 0) name) h (inode.size / sizeofDentry) (rest + 1)
    (dentriesPerBlock * (k + 1)) 0 (by omega) hentry
  have hfirst : Mapped dev inode 0 := (hentry 0 le_rfl (by rw [Nat.zero_add]; exact Nat.succ_pos _)).2.1
  rw [minixLookup_scan_eq h hfirst] at hrun
  nth_rewrite 2 [hfuel] at hrun
  rw [hwalk, Nat.zero_add] at hrun
  obtain ⟨r, hr, heq⟩ := Option.map_eq_some_iff.1 hrun
  obtain ⟨r', hr', rfl⟩ := Option.map_eq_some_iff.1 hr
  obtain ⟨-, rfl⟩ := Prod.mk.inj heq
  have hread := lookupLoop_reads (by rw [before_i]; exact hlt) hr'
  have hplace : Cursor.before dev inode (dentriesPerBlock * (k + 1)) =
      ⟨dentriesPerBlock * (k + 1), inode.zoneOf dev k, dev.bytes (inode.zoneOf dev k), dentriesPerBlock, true⟩ := by
    have hdiv : dentriesPerBlock * (k + 1) / dentriesPerBlock - 1 = k := by
      rw [Nat.mul_div_cancel_left _ (by decide)]
      rfl
    rw [Cursor.before, if_pos ⟨Nat.mul_mod_right _ _, Nat.succ_ne_zero _⟩, hdiv]
  rw [hplace] at hread
  obtain hlt | hne := hin _ (List.mem_append_right _ hread)
  · exact absurd hlt (lt_irrefl _)
  · exact hne hzero

/-- **When readdir lists the names that lookup can open.** For every directory on a device without failures: calls of readdir of
any lengths list the names of the entries in use, lookup opens these names and no other, and takes no bytes behind a block for an
entry, exactly when the entries of the directory are in use, the bytes behind its blocks keep the scan in step, and iget gives
the inode of the first entry of each name. -/
theorem readdir_iff (h : dev.Sound) (hdget : ∀ i, (cache.dget i).isSome) :
    (Lists dev inode ∧ ∀ name, Short name → Opens dev cache inode (inode.live dev 0 (inode.size / sizeofDentry)) name ∧
      StepsIn dev cache inode name) ↔ AllInUse dev inode ∧ InStep dev inode ∧ Loads dev cache inode := by
  constructor
  · rintro ⟨hlists, hall⟩
    have hd := (lists_iff h).1 hlists
    have hstep := inStep_of_opens h hd hall
    refine ⟨hd, hstep, fun j hj hfirst => ?_⟩
    have hshort : Short (inode.nameOf dev j) := by
      obtain ⟨hb, hm⟩ := hd.entry h hj.1 hj.2.1
      rw [(entry_place h hb hm).2]
      exact ⟨strn_length_le _ _, strn_ne_zero _ _⟩
    obtain ⟨find, reads, hrun, -, hfind⟩ := @lookup_steps dev inode cache _ h hd hstep hshort
    obtain ⟨find', reads', hrun', hsome, -⟩ := (hall _ hshort).1 fun _ => 0
    obtain ⟨rfl, -⟩ := Prod.mk.inj (Option.some.inj ((hrun _).symm.trans hrun'))
    obtain ⟨i, hi, hifirst, rfl⟩ | ⟨hnone, -⟩ := hfind
    · obtain rfl : i = j := le_antisymm (not_lt.1 fun hlt => hifirst j hlt hj) (not_lt.1 fun hlt => hfirst i hlt hi)
      obtain ⟨hb, hm⟩ := hd.entry h hj.1 hj.2.1
      rw [(entry_place h hb hm).1]
      exact (loadEntry_isSome _ hdget).1 (hsome.2 ((mem_live _).2 ⟨i, hj⟩))
    · exact absurd hj (hnone j)
  · rintro ⟨hd, hstep, hload⟩
    refine ⟨(lists_iff h).2 hd, fun name hname => ?_⟩
    obtain ⟨find, reads, hrun, hreads, hfind⟩ := @lookup_steps dev inode cache name h hd hstep hname
    refine ⟨fun stack => ⟨find, reads, hrun stack, ?_⟩, fun stack r hr => ?_⟩
    · obtain ⟨j, hj, hfirst, rfl⟩ | ⟨hnone, rfl⟩ := hfind
      · obtain ⟨hb, hm⟩ := hd.entry h hj.1 hj.2.1
        obtain ⟨hinr, hnameOf⟩ := @entry_place dev inode j h hb hm
        have hsome : (loadEntry cache (.place dev inode j)).isSome := by
          obtain rfl := hj.2.2
          rw [loadEntry_isSome _ hdget, ← hinr]
          exact hload j hj hfirst
        refine ⟨iff_of_true hsome ((mem_live name).2 ⟨j, hj⟩), fun f hf => ?_⟩
        obtain ⟨i, -, hrest⟩ := Option.bind_eq_some_iff.1 hf
        obtain ⟨d, -, rfl⟩ := Option.map_eq_some_iff.1 hrest
        rw [strn_storedName, ← hnameOf]
        exact hj.2.2
      · refine ⟨iff_of_false (by simp) fun hin => ?_, fun f hf => by cases hf⟩
        obtain ⟨j, hj⟩ := (mem_live name).1 hin
        exact hnone j hj
    · rw [hrun] at hr
      cases hr
      exact hreads

/-- page 1 holds entries in use, with names of one byte -/
def namesDisk : Device := ⟨fun _ => some fun o => if o % 16 = 0 then 1 else if o % 16 = 2 then BitVec.ofNat 8 (o / 16 + 1)
    else 0, fun _ => true⟩

/-- 65 entries, in the neighbouring blocks 4 and 5 -/
def namesInode : Inode := ⟨1040, fun i => if i = 0 then 4 else if i = 1 then 5 else 0⟩

theorem readdir_names : Lists namesDisk namesInode ∧ ∀ name, Short name →
    Opens namesDisk fullCache namesInode (namesInode.live namesDisk 0 (1040 / sizeofDentry)) name ∧
      StepsIn namesDisk fullCache namesInode name := by
  refine (@readdir_iff namesDisk namesInode fullCache (fun _ => rfl) fun _ => rfl).2
    ⟨⟨by decide, fun j hj => Or.inl ?_, Or.inl rfl⟩, fun k hk => ?_, fun _ _ _ => rfl⟩
  · have hall : ∀ j < 65, namesInode.inrOf namesDisk j ≠ 0 := by decide +kernel
    exact hall j hj
  · have hone : k = 0 := by
      change 64 * (k + 1) < 65 at hk
      omega
    rw [hone]
    decide

end SinsOs.Minix
