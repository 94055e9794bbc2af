/-
One component of a path in a minix directory: find_entry (fs/namei.c) with minix_lookup (fs/minix/inode.c) behind it.

find_entry compares a cached child with the component for the length of the component only, so it takes the first child whose
name begins with the component. minix_lookup compares whole names.

- `findEntry_right`: when the dentry is one of the inode that the directory has under this name.
-/
import SinsOs.Fs.Namei
import SinsOs.Fs.Minix.Lookup

namespace SinsOs.FindEntry

open SinsOs.Core SinsOs.Lib SinsOs.Dcache SinsOs.Namei

/-! ## Model -/

/-- the inode of the dentry that find_entry returns, `some none` for NULL, and `none` for a BUG_ON -/
def findEntryMinix (dev : Minix.Device) (cache : Minix.Cache) (inode : Minix.Inode) (stack : Ptr) (s : Vfs) (root : ℕ)
    (name : List Byte) : Option (Option ℕ) :=
  match findEntry s root name with
  | .error _ => none
  | .ok (.cached entry, s) => some (some (s.node entry).inode)
  | .ok (.disk _, _) => (Minix.minixLookup dev cache inode stack name).map fun r => r.1.map Minix.Found.inode

/-- an entry of the directory links the name to inode i -/
def Links (dev : Minix.Device) (cache : Minix.Cache) (inode : Minix.Inode) (name : List Byte) (i : ℕ) : Prop :=
  ∃ j, Minix.Matches dev inode name j ∧ cache.iget (inode.inrOf dev j) = some i

/-- the inode of an entry with the name, or NULL if there is none -/
def FindsRight (dev : Minix.Device) (cache : Minix.Cache) (inode : Minix.Inode) (s : Vfs) (root : ℕ)
    (name : List Byte) : Prop :=
  ∀ stack, ∃ find, findEntryMinix dev cache inode stack s root name = some find ∧ match find with
    | none => ∀ j, ¬ Minix.Matches dev inode name j
    | some i => Links dev cache inode name i

/-- the cached children of a dentry belong to entries of its directory -/
def CachedReal (dev : Minix.Device) (cache : Minix.Cache) (inode : Minix.Inode) (s : Vfs) (iter : ℕ) : Prop :=
  ∀ c ∈ (s.node iter).children, Links dev cache inode (s.node c).name (s.node c).inode

/-- the directory and its children are referenced -/
def Alive (s : Vfs) (iter : ℕ) : Prop :=
  (s.node iter).refCount ≠ 0 ∧ ∀ c ∈ (s.node iter).children, (s.node c).refCount ≠ 0

/-! ## The two paths -/

variable {s s' : Vfs} {root iter entry d : ℕ} {name : List Byte}

theorem dref_ok (h : (s.node d).refCount ≠ 0) : dref s d = .ok (s.setCount d ((s.node d).refCount + 1)) := by
  rw [dref, if_neg h]

theorem count_setCount (n x : ℕ) : ((s.setCount d n).node x).refCount = if x = d then n else (s.node x).refCount := by
  by_cases hx : x = d
  · rw [hx, if_pos rfl, Vfs.setCount, Vfs.setNode_self]
  · rw [if_neg hx, Vfs.setCount, Vfs.setNode_of_ne hx]

/-- a dput that leaves a reference -/
theorem dput_ok (h : 2 ≤ (s.node d).refCount) : dput s d = .ok (s.setCount d ((s.node d).refCount - 1)) := by
  have hcount : ((s.setCount d ((s.node d).refCount - 1)).node d).refCount = (s.node d).refCount - 1 := by
    rw [count_setCount, if_pos rfl]
  rw [dput, dputN, if_neg (by omega)]
  dsimp only
  rw [hcount, if_neg (by omega)]
  rfl

/-- find_entry up to the loop over the children -/
theorem findEntry_eq (name : List Byte) (hm : mountTop (s.sbs.card + 1) s root = .ok iter) (halive : Alive s iter) :
    ∃ s', s' = s.setCount iter ((s.node iter).refCount + 1) ∧ findEntry s root name = match findCached s iter name with
      | some entry => do
        let s ← dref s' entry
        let s ← dput s iter
        pure (.cached entry, s)
      | none => pure (.disk iter, s') := by
  have hsame : findCached (s.setCount iter ((s.node iter).refCount + 1)) iter name = findCached s iter name :=
    findCached_congr (children_setCount iter) fixed_setCount
  refine ⟨_, rfl, ?_⟩
  rw [findEntry, hm, ← hsame]
  change (dref s iter >>= _) = _
  rw [dref_ok halive.1]
  rfl

theorem findEntry_cached (hm : mountTop (s.sbs.card + 1) s root = .ok iter) (halive : Alive s iter)
    (hf : findCached s iter name = some entry) :
    ∃ s', findEntry s root name = .ok (.cached entry, s') ∧ (s'.node entry).inode = (s.node entry).inode := by
  have hchild : entry ∈ (s.node iter).children := List.mem_of_find?_eq_some hf
  obtain ⟨s1, hs1, heq⟩ := findEntry_eq name hm halive
  have hcount1 : ∀ x, (s1.node x).refCount = if x = iter then (s.node iter).refCount + 1 else (s.node x).refCount :=
    fun x => by rw [hs1, count_setCount]
  have hentry : (s1.node entry).refCount ≠ 0 := by
    have := halive.2 entry hchild
    rw [hcount1]
    split_ifs <;> omega
  obtain ⟨s2, hs2⟩ : ∃ s2, s2 = s1.setCount entry ((s1.node entry).refCount + 1) := ⟨_, rfl⟩
  have hiter : 2 ≤ (s2.node iter).refCount := by
    have := halive.1
    rw [hs2, count_setCount, hcount1 iter, if_pos rfl]
    split_ifs <;> omega
  have hrun : findEntry s root name = .ok (.cached entry, s2.setCount iter ((s2.node iter).refCount - 1)) := by
    rw [heq, hf]
    change (dref s1 entry >>= _) = _
    rw [dref_ok hentry, ← hs2]
    change (dput s2 iter >>= _) = _
    rw [dput_ok hiter]
    rfl
  refine ⟨_, hrun, ?_⟩
  calc ((s2.setCount iter _).node entry).inode = (s2.node entry).inode := fixed_inode (fixed_setCount entry)
    _ = (s1.node entry).inode := by rw [hs2]; exact fixed_inode (fixed_setCount entry)
    _ = (s.node entry).inode := by rw [hs1]; exact fixed_inode (fixed_setCount entry)

theorem findEntry_disk (hm : mountTop (s.sbs.card + 1) s root = .ok iter) (halive : Alive s iter)
    (hf : findCached s iter name = none) : ∃ s', findEntry s root name = .ok (.disk iter, s') := by
  obtain ⟨s1, -, heq⟩ := findEntry_eq name hm halive
  rw [heq, hf]
  exact ⟨s1, rfl⟩

/-! ## When the dentry is the right one -/

variable {dev : Minix.Device} {cache : Minix.Cache} {inode : Minix.Inode}

theorem findsRight_cached (hm : mountTop (s.sbs.card + 1) s root = .ok iter) (halive : Alive s iter)
    (hf : findCached s iter name = some entry) :
    FindsRight dev cache inode s root name ↔ Links dev cache inode name (s.node entry).inode := by
  obtain ⟨s', hrun, hinode⟩ := findEntry_cached hm halive hf
  have hret : ∀ stack, findEntryMinix dev cache inode stack s root name = some (some (s.node entry).inode) := by
    intro stack
    rw [findEntryMinix, hrun, ← hinode]
  constructor
  · intro h
    obtain ⟨find, hfind, hright⟩ := h fun _ => 0
    rw [hret] at hfind
    cases hfind
    exact hright
  · exact fun h stack => ⟨_, hret stack, h⟩

theorem findEntryMinix_disk (hm : mountTop (s.sbs.card + 1) s root = .ok iter) (halive : Alive s iter)
    (hf : findCached s iter name = none) (stack : Ptr) : findEntryMinix dev cache inode stack s root name =
      (Minix.minixLookup dev cache inode stack name).map fun r => r.1.map Minix.Found.inode := by
  obtain ⟨s', hrun⟩ := findEntry_disk hm halive hf
  rw [findEntryMinix, hrun]

theorem findsRight_disk (h : dev.Sound) (hdget : ∀ i, (cache.dget i).isSome) (hlen : name.length ≤ Minix.minixNameLen)
    (hname : ∀ b ∈ name, b ≠ 0) (hm : mountTop (s.sbs.card + 1) s root = .ok iter) (halive : Alive s iter)
    (hf : findCached s iter name = none) :
    FindsRight dev cache inode s root name ∧ Minix.StaysIn dev cache inode name ↔ Minix.Within dev cache inode name := by
  have hrun : ∀ stack, findEntryMinix dev cache inode stack s root name = _ := findEntryMinix_disk hm halive hf
  constructor
  · rintro ⟨hright, hstays⟩
    obtain ⟨find, hfind, hfound⟩ := hright fun _ => 0
    rw [hrun] at hfind
    obtain ⟨r, hr, rfl⟩ := Option.map_eq_some_iff.1 hfind
    refine Minix.within_of_stays h hdget hlen hname hstays hr fun hnone => ?_
    rw [hnone] at hfound
    exact hfound
  · intro hw
    obtain ⟨hanswered, hstays⟩ := Minix.answered_of_within h hdget hlen hname hw
    refine ⟨fun stack => ?_, hstays⟩
    obtain ⟨⟨find, reads⟩, hr, hanswer⟩ := hanswered stack
    refine ⟨find.map Minix.Found.inode, by rw [hrun, hr, Option.map_some], ?_⟩
    cases find with
    | none => exact hanswer
    | some f =>
      obtain ⟨j, hj, hinode, -⟩ := hanswer
      exact ⟨j, hj, hinode⟩

/-- **When find_entry finds the entry of the directory.** If a cached child begins with the component, exactly when an entry
with this very name links to the inode of the first such child. If there is none, when the scan of the directory does not come
to the end of its first block with entries left. -/
theorem findEntry_right (dev : Minix.Device) (cache : Minix.Cache) (inode : Minix.Inode) (s : Vfs) (root iter : ℕ)
    (name : List Byte) (h : dev.Sound) (hdget : ∀ i, (cache.dget i).isSome) (hlen : name.length ≤ Minix.minixNameLen)
    (hname : ∀ b ∈ name, b ≠ 0) (hm : mountTop (s.sbs.card + 1) s root = .ok iter) (halive : Alive s iter) :
    (∀ entry, findCached s iter name = some entry →
      (FindsRight dev cache inode s root name ↔ Links dev cache inode name (s.node entry).inode)) ∧
    (findCached s iter name = none →
      (FindsRight dev cache inode s root name ∧ Minix.StaysIn dev cache inode name ↔ Minix.Within dev cache inode name)) :=
  ⟨fun _ hf => findsRight_cached hm halive hf, fun hf => findsRight_disk h hdget hlen hname hm halive hf⟩

/-! ## Two names with one beginning -/

def dirEntry (inr : Byte) (name : List Byte) : List Byte := [inr, 0] ++ name ++ List.replicate (14 - name.length) 0

/-- "foobar" -/
def foobar : List Byte := [0x66, 0x6f, 0x6f, 0x62, 0x61, 0x72]

/-- "foo" -/
def foo : List Byte := [0x66, 0x6f, 0x6f]

/-- ".", "..", "foobar" and "foo" in block 4 -/
def fooDisk : Minix.Device where
  bread := fun n => some (if n = 1 then
    cstr (dirEntry 1 [0x2e] ++ dirEntry 1 [0x2e, 0x2e] ++ dirEntry 2 foobar ++ dirEntry 3 foo) else fun _ => 0)
  kmalloc := fun _ => true

def fooDir : Minix.Inode := ⟨64, fun i => if i = 0 then 4 else 0⟩

/-- the dentry of the directory with the one of "foobar" -/
def fooCached : Vfs where
  dents := {droot, 2}
  node := fun d => if d = droot then ⟨[], 0, some droot, none, 1, [2], none, 2⟩
    else ⟨foobar, 6, some droot, none, 2, [], none, 1⟩
  hash := fun _ => []
  sbs := ∅
  super := fun _ => ⟨droot, none⟩
  inodes := ⟨fun i => ⟨i, none, i == 1, 1⟩, []⟩

theorem fooDisk_sound : fooDisk.Sound := fun _ => rfl

theorem fooCached_alive : Alive fooCached droot := by
  refine ⟨by decide, fun c hc => ?_⟩
  obtain rfl : c = 2 := by simpa [fooCached] using hc
  decide

/-- "foobar" is found in memory -/
theorem finds_foobar : FindsRight fooDisk Minix.fullCache fooDir fooCached droot foobar :=
  ((findEntry_right fooDisk Minix.fullCache fooDir fooCached droot droot foobar fooDisk_sound (fun _ => rfl) (by decide)
    (by decide) rfl fooCached_alive).1 2 (by decide)).2 ⟨2, by decide +kernel, by decide +kernel⟩

/-- "foo" is the beginning of a cached name: find_entry gives inode 2, the directory inode 3. -/
theorem foo_finds_foobar : fooDisk.Sound ∧ CachedReal fooDisk Minix.fullCache fooDir fooCached droot ∧
    Links fooDisk Minix.fullCache fooDir foo 3 ∧ ¬ FindsRight fooDisk Minix.fullCache fooDir fooCached droot foo := by
  refine ⟨fooDisk_sound, fun c hc => ?_, ⟨3, by decide +kernel, by decide +kernel⟩, fun hright => ?_⟩
  · obtain rfl : c = 2 := by simpa [fooCached] using hc
    exact ⟨2, by decide +kernel, by decide +kernel⟩
  · have hcached : findCached fooCached droot foo = some 2 := by decide
    obtain ⟨j, hj, hinode⟩ := (findsRight_cached rfl fooCached_alive hcached).1 hright
    have hlt : j < 4 := hj.1
    have hnone : ∀ j < 4, Minix.Matches fooDisk fooDir foo j → Minix.fullCache.iget (fooDir.inrOf fooDisk j) ≠ some 2 := by
      decide +kernel
    exact hnone j hlt hj hinode

end SinsOs.FindEntry
