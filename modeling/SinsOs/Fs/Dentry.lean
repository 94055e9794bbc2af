/-
The dentry tree: dcache, ddecache, dget, dref, dput (fs/dentry.c), over the counts of the inodes (iref, iput of fs/inode.c).

A dentry, an inode and a super block are addresses; the records stand in tables. A BUG_ON that fires, a NULL pointer that is
followed and a loop that does not end are errors. kmalloc gives a free address or none.

- `Tree`: every ref_count is the number of children plus the references held, and the hash has each dentry once.
- `dput_ends`, `dget_ends`: one reference less, one reference more; a dentry nobody holds is freed, up to the first
  ancestor that is held, and no BUG_ON on dentries fires.
-/
import SinsOs.Core.Checked
import SinsOs.Lib.Str

namespace SinsOs.Dcache

open SinsOs.Core SinsOs.Lib

/-! ## Model -/

/-- the BUG_ONs of iref, iput, dref, dput (two), dcache and alloc_super_block, the panic of mount_root, a NULL pointer, a
loop without end, a buffer that is overrun -/
inductive Bug
  | iref
  | iput
  | dref
  | dput
  | children
  | dcache
  | mounted
  | panic
  | null
  | loop
  | overrun
deriving DecidableEq, Repr

structure Inode where
  nr : ℕ
  sb : Option ℕ
  isDir : Bool
  refCount : ℕ
deriving DecidableEq, Repr

/-- `cached` is the inode hash, its lists one after the other -/
structure Inodes where
  node : ℕ → Inode
  cached : List ℕ

structure Dentry where
  name : List Byte
  nameLen : ℕ
  parent : Option ℕ
  sb : Option ℕ
  inode : ℕ
  children : List ℕ
  mount : Option ℕ
  refCount : ℕ
deriving DecidableEq, Repr

structure SuperBlock where
  parent : ℕ
  root : Option ℕ
deriving DecidableEq, Repr

/-- `dents` are the dentries that exist, `sbs` the super blocks -/
structure Vfs where
  dents : Finset ℕ
  node : ℕ → Dentry
  hash : ℕ → List ℕ
  sbs : Finset ℕ
  super : ℕ → SuperBlock
  inodes : Inodes

/-- the static root dentry and its inode (fs/super.c) -/
def droot : ℕ := 1

def iroot : ℕ := 1

def nrHashLists : ℕ := 20

def getHashIndex (i : ℕ) (parent : Option ℕ) : ℕ := (i + parent.getD 0 * 301) % 2 ^ 32 % nrHashLists

def Inodes.setCount (s : Inodes) (i n : ℕ) : Inodes :=
  { s with node := Function.update s.node i { s.node i with refCount := n } }

namespace Vfs

variable (s : Vfs)

def key (d : ℕ) : ℕ × Option ℕ := ((s.node d).inode, (s.node d).parent)

def bucket (d : ℕ) : ℕ := getHashIndex (s.node d).inode (s.node d).parent

def setNode (d : ℕ) (x : Dentry) : Vfs := { s with node := Function.update s.node d x }

def setHash (k : ℕ) (l : List ℕ) : Vfs := { s with hash := Function.update s.hash k l }

def setCount (d n : ℕ) : Vfs := s.setNode d { s.node d with refCount := n }

/-- `list_add(&d->child, &p->children)` -/
def link (p d : ℕ) : Vfs := s.setNode p { s.node p with children := d :: (s.node p).children }

/-- `list_del(&d->child)` -/
def unlink (p d : ℕ) : Vfs := s.setNode p { s.node p with children := (s.node p).children.erase d }

/-- `strncpy(d->name, name, ...)`, with the name_len -/
def rename (d : ℕ) (name : List Byte) : Vfs := s.setNode d { s.node d with name, nameLen := name.length }

/-- `kfree(d)` -/
def free (d : ℕ) : Vfs := { s with dents := s.dents.erase d }

/-- the sum of all ref_counts -/
def total : ℕ := ∑ d ∈ s.dents, (s.node d).refCount

end Vfs

def iref (s : Inodes) (i : ℕ) : Except Bug Inodes :=
  if (s.node i).refCount = 0 then .error .iref else .ok (s.setCount i ((s.node i).refCount + 1))

def iput (s : Inodes) (i : ℕ) : Except Bug Inodes :=
  if (s.node i).refCount = 0 then .error .iput
  else
    let s := s.setCount i ((s.node i).refCount - 1)
    .ok (if (s.node i).refCount = 0 then { s with cached := s.cached.erase i } else s)

def dcache (s : Vfs) (i : ℕ) (parent cached : Option ℕ) : Except Bug (Option ℕ × Vfs) :=
  let index := getHashIndex i parent
  match (s.hash index).find? fun pos => s.key pos = (i, parent) with
  | some pos => if cached ≠ none ∧ cached ≠ some pos then .error .dcache else .ok (some pos, s)
  | none => .ok (cached, match cached with
    | none => s
    | some c => s.setHash index (c :: s.hash index))

def ddecache (s : Vfs) (cached : ℕ) : Vfs :=
  let index := s.bucket cached
  match (s.hash index).find? fun pos => s.key pos = s.key cached with
  | none => s
  | some _ => s.setHash index ((s.hash index).erase cached)

def dref (s : Vfs) (d : ℕ) : Except Bug Vfs :=
  if (s.node d).refCount = 0 then .error .dref else .ok (s.setCount d ((s.node d).refCount + 1))

/-- the part of dget that links the new dentry to its parent -/
def adopt (s : Vfs) (d : ℕ) : Option ℕ → Except Bug Vfs
  | none => .ok s
  | some p => do
    let s ← dref s p
    pure (s.link p d)

/-- `mem` is what kmalloc gives -/
def dget (s : Vfs) (i : ℕ) (parent mem : Option ℕ) : Except Bug (Option ℕ × Vfs) := do
  let (hit, s) ← dcache s i parent none
  match hit, mem with
  | some d, _ =>
    let s ← dref s d
    pure (some d, s)
  | none, none => pure (none, s)
  | none, some d =>
    let s ← adopt s d parent
    let inodes ← iref s.inodes i
    -- list_add(&d->use_list, &d->sb->dentries)
    if (inodes.node i).sb = none then .error .null
    let s := { s with inodes, dents := insert d s.dents }.setNode d ⟨[], 0, parent, (inodes.node i).sb, i, [], none, 1⟩
    let (_, s) ← dcache s i parent (some d)
    pure (some d, s)

/-- dput, up to n dentries deep -/
def dputN : ℕ → Vfs → ℕ → Except Bug Vfs
  | 0, _, _ => .error .loop
  | n + 1, s, d =>
    if (s.node d).refCount = 0 then .error .dput
    else
      let s := s.setCount d ((s.node d).refCount - 1)
      if (s.node d).refCount = 0 then do
        let s ← (match (s.node d).parent with
          | none => pure s
          | some p => dputN n (s.unlink p d) p)
        let inodes ← iput s.inodes (s.node d).inode
        if (s.node d).children ≠ [] then .error .children
        else pure ((ddecache { s with inodes } d).free d)
      else pure s

/-- each call takes a reference away, so that their number bounds the depth -/
def dput (s : Vfs) (d : ℕ) : Except Bug Vfs := dputN (s.total + 1) s d

/-! ## The invariant -/

/-- **The invariant.** `held d` references to dentry d are outside of the tree. The dentries in `dying` have lost their last
reference and their place among their siblings, and wait to be freed. -/
structure Tree (s : Vfs) (held : ℕ → ℕ) (dying : Finset ℕ) : Prop where
  dead : ∀ d ∈ dying, d ∈ s.dents ∧ d ≠ droot ∧ (s.node d).children = [] ∧ held d = 0
  count : ∀ d ∈ s.dents, d ∉ dying →
    (s.node d).refCount = (s.node d).children.length + held d ∧ 0 < (s.node d).refCount
  live : ∀ d, 0 < held d → d ∈ s.dents
  root : 0 < held droot ∧ (s.node droot).parent = some droot
  child : ∀ p ∈ s.dents, ∀ c ∈ (s.node p).children,
    c ∈ s.dents ∧ c ≠ droot ∧ c ∉ dying ∧ (s.node c).parent = some p
  parent : ∀ d ∈ s.dents, d ≠ droot → d ∉ dying → ∀ p, (s.node d).parent = some p →
    p ∈ s.dents ∧ d ∈ (s.node p).children
  nodup : ∀ p ∈ s.dents, (s.node p).children.Nodup
  hashed : ∀ k d, d ∈ s.hash k ↔ d ∈ s.dents ∧ d ≠ droot ∧ k = s.bucket d
  hnodup : ∀ k, (s.hash k).Nodup
  unique : ∀ c ∈ s.dents, ∀ d ∈ s.dents, c ≠ droot → d ≠ droot → s.key c = s.key d → c = d

/-- the fields that dref and dput leave alone -/
def Dentry.fixed (x : Dentry) : Dentry := { x with children := [], refCount := 0 }

/-- the dentries of inode i -/
def Vfs.onInode (s : Vfs) (i : ℕ) : ℕ := (s.dents.filter fun d => (s.node d).inode = i).card

/-- what a dput changes: dentries go, each with one reference to its inode -/
structure Shrunk (s s' : Vfs) : Prop where
  dents : s'.dents ⊆ s.dents
  fixed : ∀ d, (s'.node d).fixed = (s.node d).fixed
  children : ∀ d, (s'.node d).children.Sublist (s.node d).children
  super : s'.sbs = s.sbs ∧ s'.super = s.super
  inode : ∀ i, (s'.inodes.node i).isDir = (s.inodes.node i).isDir ∧ (s'.inodes.node i).sb = (s.inodes.node i).sb ∧
    (s'.inodes.node i).nr = (s.inodes.node i).nr
  balance : ∀ i, (s'.inodes.node i).refCount + s.onInode i = (s.inodes.node i).refCount + s'.onInode i
  cached : s'.inodes.cached.Sublist s.inodes.cached
  kept : ∀ i ∈ s.inodes.cached, 0 < (s'.inodes.node i).refCount → i ∈ s'.inodes.cached

variable {s s' s'' : Vfs} {held : ℕ → ℕ} {dying : Finset ℕ} {c d p i n : ℕ}

namespace Vfs

@[simp] theorem setNode_self (x : Dentry) : (s.setNode d x).node d = x := Function.update_self ..

@[simp] theorem setNode_of_ne {x : Dentry} (h : c ≠ d) : (s.setNode d x).node c = s.node c := Function.update_of_ne h ..

@[simp] theorem setNode_dents (x : Dentry) : (s.setNode d x).dents = s.dents := rfl

@[simp] theorem setNode_hash (x : Dentry) : (s.setNode d x).hash = s.hash := rfl

end Vfs

theorem fixed_fields {x y : Dentry} (h : x.fixed = y.fixed) : x.name = y.name ∧ x.nameLen = y.nameLen ∧
    x.parent = y.parent ∧ x.sb = y.sb ∧ x.inode = y.inode ∧ x.mount = y.mount := by
  simp only [Dentry.fixed, Dentry.mk.injEq, true_and, and_true] at h
  exact h

theorem fixed_parent {x y : Dentry} (h : x.fixed = y.fixed) : x.parent = y.parent := (fixed_fields h).2.2.1

theorem fixed_sb {x y : Dentry} (h : x.fixed = y.fixed) : x.sb = y.sb := (fixed_fields h).2.2.2.1

theorem fixed_inode {x y : Dentry} (h : x.fixed = y.fixed) : x.inode = y.inode := (fixed_fields h).2.2.2.2.1

theorem fixed_mount {x y : Dentry} (h : x.fixed = y.fixed) : x.mount = y.mount := (fixed_fields h).2.2.2.2.2

theorem bucket_congr (h : (s'.node d).fixed = (s.node d).fixed) : s'.bucket d = s.bucket d ∧ s'.key d = s.key d := by
  simp only [Vfs.bucket, Vfs.key, fixed_inode h, fixed_parent h, and_self]

theorem fixed_setCount (x : ℕ) : ((s.setCount d n).node x).fixed = (s.node x).fixed := by
  by_cases h : x = d
  · subst h
    rw [Vfs.setCount, Vfs.setNode_self]
    rfl
  · rw [Vfs.setCount, Vfs.setNode_of_ne h]

theorem children_setCount (x : ℕ) : ((s.setCount d n).node x).children = (s.node x).children := by
  by_cases h : x = d
  · subst h
    rw [Vfs.setCount, Vfs.setNode_self]
  · rw [Vfs.setCount, Vfs.setNode_of_ne h]

theorem parent_setCount (x : ℕ) : ((s.setCount d n).node x).parent = (s.node x).parent :=
  fixed_parent (fixed_setCount x)

/-- only counts change -/
theorem Tree.setCount {held' : ℕ → ℕ} (h : Tree s held dying)
    (hcount : d ∉ dying → n = (s.node d).children.length + held' d ∧ 0 < n) (hother : ∀ x, x ≠ d → held' x = held x)
    (hin : d ∈ s.dents) (hd : d ∈ dying → held' d = 0) (hroot : 0 < held' droot) :
    Tree (s.setCount d n) held' dying := by
  refine ⟨fun x hx => ?_, fun x hx hxd => ?_, fun x hx => ?_, ⟨hroot, ?_⟩, fun q hq c hc => ?_, fun x hx hne hxd q hq => ?_,
    fun q hq => ?_, fun k x => ?_, h.hnodup, fun a ha b hb hna hnb he => ?_⟩
  · obtain ⟨h1, h2, h3, h4⟩ := h.dead x hx
    refine ⟨h1, h2, by rw [children_setCount]; exact h3, ?_⟩
    by_cases hxd : x = d
    · subst hxd; exact hd hx
    · rw [hother x hxd]; exact h4
  · by_cases hxe : x = d
    · subst hxe
      rw [children_setCount, Vfs.setCount, Vfs.setNode_self]
      exact hcount hxd
    · rw [children_setCount, hother x hxe, Vfs.setCount, Vfs.setNode_of_ne hxe]
      exact h.count x hx hxd
  · by_cases hxe : x = d
    · subst hxe; exact hin
    · rw [hother x hxe] at hx
      exact h.live x hx
  · rw [parent_setCount]; exact h.root.2
  · rw [children_setCount] at hc
    rw [parent_setCount]
    exact h.child q hq c hc
  · rw [parent_setCount] at hq
    rw [children_setCount]
    exact h.parent x hx hne hxd q hq
  · rw [children_setCount]; exact h.nodup q hq
  · rw [(bucket_congr (fixed_setCount x)).1]; exact h.hashed k x
  · rw [(bucket_congr (fixed_setCount a)).2, (bucket_congr (fixed_setCount b)).2] at he
    exact h.unique a ha b hb hna hnb he

/-- the fields that rename leaves alone -/
theorem rename_fields (s : Vfs) (d : ℕ) (name : List Byte) (x : ℕ) : ((s.rename d name).node x).parent = (s.node x).parent ∧
    ((s.rename d name).node x).sb = (s.node x).sb ∧ ((s.rename d name).node x).inode = (s.node x).inode ∧
    ((s.rename d name).node x).children = (s.node x).children ∧ ((s.rename d name).node x).mount = (s.node x).mount ∧
    ((s.rename d name).node x).refCount = (s.node x).refCount := by
  by_cases h : x = d
  · subst h
    rw [Vfs.rename, Vfs.setNode_self]
    exact ⟨rfl, rfl, rfl, rfl, rfl, rfl⟩
  · rw [Vfs.rename, Vfs.setNode_of_ne h]
    exact ⟨rfl, rfl, rfl, rfl, rfl, rfl⟩

/-- only these fields count for the tree -/
theorem Tree.congr (h : Tree s held dying) (hdents : s'.dents = s.dents) (hhash : s'.hash = s.hash)
    (hnode : ∀ x, (s'.node x).parent = (s.node x).parent ∧ (s'.node x).inode = (s.node x).inode ∧
      (s'.node x).children = (s.node x).children ∧ (s'.node x).refCount = (s.node x).refCount) : Tree s' held dying := by
  have hparent : ∀ x, (s'.node x).parent = (s.node x).parent := fun x => (hnode x).1
  have hchildren : ∀ x, (s'.node x).children = (s.node x).children := fun x => (hnode x).2.2.1
  have hcount : ∀ x, (s'.node x).refCount = (s.node x).refCount := fun x => (hnode x).2.2.2
  have hkey : ∀ x, s'.key x = s.key x := fun x => by rw [Vfs.key, Vfs.key, hparent, (hnode x).2.1]
  have hbucket : ∀ x, s'.bucket x = s.bucket x := fun x => by rw [Vfs.bucket, Vfs.bucket, hparent, (hnode x).2.1]
  refine ⟨fun x hx => ?_, fun x hx hxd => ?_, fun x hx => ?_, ⟨h.root.1, ?_⟩, fun q hq c hc => ?_,
    fun x hx hne hxd q hq => ?_, fun q hq => ?_, fun k x => ?_, fun k => ?_, fun a ha b hb hna hnb he => ?_⟩
  · rw [hdents, hchildren]; exact h.dead x hx
  · rw [hcount, hchildren]; exact h.count x (hdents ▸ hx) hxd
  · rw [hdents]; exact h.live x hx
  · rw [hparent]; exact h.root.2
  · rw [hchildren] at hc
    rw [hparent, hdents]
    exact h.child q (hdents ▸ hq) c hc
  · rw [hparent] at hq
    rw [hchildren, hdents]
    exact h.parent x (hdents ▸ hx) hne hxd q hq
  · rw [hchildren]; exact h.nodup q (hdents ▸ hq)
  · rw [hbucket, hdents, hhash]; exact h.hashed k x
  · rw [hhash]; exact h.hnodup k
  · rw [hkey, hkey] at he
    exact h.unique a (hdents ▸ ha) b (hdents ▸ hb) hna hnb he

theorem Tree.rename {name : List Byte} (h : Tree s held dying) : Tree (s.rename d name) held dying :=
  h.congr rfl rfl fun x => by
    obtain ⟨h1, -, h3, h4, -, h6⟩ := rename_fields s d name x
    exact ⟨h1, h3, h4, h6⟩

theorem Tree.inodes (h : Tree s held dying) (I : Inodes) : Tree { s with inodes := I } held dying :=
  h.congr rfl rfl fun _ => ⟨rfl, rfl, rfl, rfl⟩

/-! ## dref and dput -/

/-- one reference to d -/
def one (d : ℕ) : ℕ → ℕ := fun x => if x = d then 1 else 0

/-- the reference that d has on its parent -/
def up (s : Vfs) (d : ℕ) : ℕ → ℕ := fun x => if (s.node d).parent = some x then 1 else 0

/-- d is taken off the list of its parent -/
def Vfs.cut (s : Vfs) (d : ℕ) : Vfs :=
  match (s.node d).parent with
  | none => s
  | some p => s.unlink p d

theorem fixed_cut (x : ℕ) : ((s.cut d).node x).fixed = (s.node x).fixed := by
  rw [Vfs.cut]
  cases (s.node d).parent with
  | none => rfl
  | some p =>
    by_cases h : x = p
    · subst h
      simp only [Vfs.unlink, Vfs.setNode_self]
      rfl
    · simp only [Vfs.unlink, Vfs.setNode_of_ne h]

theorem refCount_cut (x : ℕ) : ((s.cut d).node x).refCount = (s.node x).refCount := by
  rw [Vfs.cut]
  cases (s.node d).parent with
  | none => rfl
  | some p =>
    by_cases h : x = p
    · subst h
      simp only [Vfs.unlink, Vfs.setNode_self]
    · simp only [Vfs.unlink, Vfs.setNode_of_ne h]

theorem cut_frame : (s.cut d).dents = s.dents ∧ (s.cut d).hash = s.hash ∧ (s.cut d).sbs = s.sbs ∧
    (s.cut d).super = s.super ∧ (s.cut d).inodes = s.inodes := by
  rw [Vfs.cut]
  cases (s.node d).parent with
  | none => exact ⟨rfl, rfl, rfl, rfl, rfl⟩
  | some p => exact ⟨rfl, rfl, rfl, rfl, rfl⟩

theorem children_cut (hd : ∀ x ∈ s.dents, d ∈ (s.node x).children → (s.node d).parent = some x) {x : ℕ}
    (hx : x ∈ s.dents) :
    ((s.cut d).node x).children = (s.node x).children.erase d := by
  have hno : (s.node d).parent ≠ some x → (s.node x).children = (s.node x).children.erase d := fun hne =>
    (List.erase_of_not_mem fun hin => hne (hd x hx hin)).symm
  rw [Vfs.cut]
  cases hp : (s.node d).parent with
  | none => exact hno (by rw [hp]; simp)
  | some p =>
    by_cases h : x = p
    · subst h
      simp only [Vfs.unlink, Vfs.setNode_self]
    · simp only [Vfs.unlink, Vfs.setNode_of_ne h]
      exact hno (by rw [hp]; simpa using Ne.symm h)

theorem refCount_setCount_ne {x : ℕ} (h : x ≠ d) : ((s.setCount d n).node x).refCount = (s.node x).refCount := by
  rw [Vfs.setCount, Vfs.setNode_of_ne h]

/-- what a dentry with one reference, held outside of the tree, is like -/
theorem Tree.last (h : Tree s (held + one d) dying) (hone : (s.node d).refCount = 1) (hroot : 0 < held droot) :
    d ∈ s.dents ∧ d ∉ dying ∧ d ≠ droot ∧ (s.node d).children = [] ∧ held d = 0 := by
  have hheld : (held + one d) d = held d + 1 := by simp [one]
  have hin : d ∈ s.dents := h.live d (by omega)
  have hdy : d ∉ dying := fun hdy => by have := (h.dead d hdy).2.2.2; omega
  have hc := (h.count d hin hdy).1
  rw [hone, hheld] at hc
  exact ⟨hin, hdy, fun he => by subst he; omega, List.eq_nil_of_length_eq_zero (by omega), by omega⟩

/-- the last reference to d goes: d leaves its siblings, and its parent is owed a reference -/
theorem Tree.detach (h : Tree s (held + one d) dying) (hone : (s.node d).refCount = 1) (hroot : 0 < held droot) :
    Tree ((s.setCount d 0).cut d) (held + up s d) (insert d dying) := by
  obtain ⟨hin, hdy, hne, hnil, hheld⟩ := h.last hone hroot
  have hfixed : ∀ x, (((s.setCount d 0).cut d).node x).fixed = (s.node x).fixed := fun x =>
    (fixed_cut x).trans (fixed_setCount x)
  have hchildren : ∀ x ∈ s.dents, (((s.setCount d 0).cut d).node x).children = (s.node x).children.erase d := fun x hx => by
    rw [children_cut (s := s.setCount d 0) (fun y hy hdy => ?_) hx, children_setCount]
    rw [children_setCount] at hdy
    rw [parent_setCount]
    exact (h.child y hy d hdy).2.2.2
  have hcount : ∀ x, x ≠ d → (((s.setCount d 0).cut d).node x).refCount = (s.node x).refCount := fun x hx => by
    rw [refCount_cut, refCount_setCount_ne hx]
  have hup : ∀ x, (s.node x).children = [] → up s d x = 0 := fun x hx => by
    rw [up, if_neg fun hp => ?_]
    have := (h.parent d hin hne hdy x hp).2
    rw [hx] at this
    exact List.not_mem_nil this
  have hone' : ∀ x, x ≠ d → (held + one d) x = held x := fun x hx => by simp [one, hx]
  obtain ⟨hdents, hhash, -⟩ := cut_frame (s := s.setCount d 0) (d := d)
  rw [show (s.setCount d 0).dents = s.dents from rfl] at hdents
  refine ⟨fun x hx => ?_, fun x hx hxd => ?_, fun x hx => ?_, ⟨?_, ?_⟩, fun p hp c hc => ?_, fun x hx hxr hxd q hq => ?_,
    fun p hp => ?_, fun k x => ?_, fun k => ?_, fun a ha b hb hna hnb he => ?_⟩
  · rcases Finset.mem_insert.1 hx with rfl | hx
    · refine ⟨hdents ▸ hin, hne, by rw [hchildren x hin, hnil]; rfl, ?_⟩
      rw [Pi.add_apply, hheld, hup x hnil]
    · obtain ⟨h1, h2, h3, h4⟩ := h.dead x hx
      refine ⟨hdents ▸ h1, h2, by rw [hchildren x h1, h3]; rfl, ?_⟩
      rw [hone' x fun he => hdy (he ▸ hx)] at h4
      rw [Pi.add_apply, h4, hup x h3]
  · rw [hdents] at hx
    have hxd' : x ≠ d := fun he => hxd (he ▸ Finset.mem_insert_self _ _)
    obtain ⟨h1, h2⟩ := h.count x hx fun hxd'' => hxd (Finset.mem_insert_of_mem hxd'')
    rw [hone' x hxd'] at h1
    rw [hcount x hxd', hchildren x hx, Pi.add_apply, up]
    refine ⟨?_, h2⟩
    split_ifs with hp
    · have hmem := (h.parent d hin hne hdy x hp).2
      have hlen := List.length_erase_of_mem hmem
      have hpos := List.length_pos_of_mem hmem
      omega
    · rw [List.erase_of_not_mem fun hmem => hp (h.child x hx d hmem).2.2.2]
      omega
  · rw [hdents]
    rw [Pi.add_apply, up] at hx
    split_ifs at hx with hp
    · exact (h.parent d hin hne hdy x hp).1
    · exact h.live x (by rw [Pi.add_apply]; omega)
  · exact lt_of_lt_of_le hroot (Nat.le_add_right _ _)
  · rw [fixed_parent (hfixed droot)]; exact h.root.2
  · rw [hdents] at hp ⊢
    rw [hchildren p hp, (h.nodup p hp).mem_erase_iff] at hc
    obtain ⟨h1, h2, h3, h4⟩ := h.child p hp c hc.2
    rw [fixed_parent (hfixed c)]
    exact ⟨h1, h2, fun hx => (Finset.mem_insert.1 hx).elim hc.1 h3, h4⟩
  · rw [hdents] at hx ⊢
    rw [fixed_parent (hfixed x)] at hq
    obtain ⟨h1, h2⟩ := h.parent x hx hxr (fun hx' => hxd (Finset.mem_insert_of_mem hx')) q hq
    refine ⟨h1, ?_⟩
    rw [hchildren q h1, (h.nodup q h1).mem_erase_iff]
    exact ⟨fun he => hxd (he ▸ Finset.mem_insert_self _ _), h2⟩
  · rw [hdents] at hp
    rw [hchildren p hp]
    exact (h.nodup p hp).erase d
  · rw [hdents, hhash, (bucket_congr (hfixed x)).1]
    exact h.hashed k x
  · rw [hhash]; exact h.hnodup k
  · rw [hdents] at ha hb
    rw [(bucket_congr (hfixed a)).2, (bucket_congr (hfixed b)).2] at he
    exact h.unique a ha b hb hna hnb he

theorem ddecache_eq (hd : d ∈ s.hash (s.bucket d)) :
    ddecache s d = s.setHash (s.bucket d) ((s.hash (s.bucket d)).erase d) := by
  rw [ddecache]
  cases hf : (s.hash (s.bucket d)).find? fun pos => s.key pos = s.key d with
  | some pos => rfl
  | none => exact absurd (List.find?_eq_none.1 hf d hd) (by simp)

/-- a dying dentry is freed -/
theorem Tree.bury (h : Tree s held (insert d dying)) (hdy : d ∉ dying) (I : Inodes) :
    Tree ((ddecache { s with inodes := I } d).free d) held dying := by
  obtain ⟨hin, hne, hnil, hheld⟩ := h.dead d (Finset.mem_insert_self _ _)
  have hmem : d ∈ s.hash (s.bucket d) := (h.hashed _ d).2 ⟨hin, hne, rfl⟩
  rw [ddecache_eq (s := { s with inodes := I }) hmem]
  have hne_of : ∀ x, x ∉ insert d dying → x ≠ d := fun x hx he => hx (he ▸ Finset.mem_insert_self _ _)
  refine ⟨fun x hx => ?_, fun x hx hxd => ?_, fun x hx => ?_, h.root, fun p hp c hc => ?_, fun x hx hxr hxd q hq => ?_,
    fun p hp => h.nodup p (Finset.mem_of_mem_erase hp), fun k x => ?_, fun k => ?_, fun a ha b hb => ?_⟩
  · obtain ⟨h1, h2, h3, h4⟩ := h.dead x (Finset.mem_insert_of_mem hx)
    exact ⟨Finset.mem_erase.2 ⟨fun he => hdy (he ▸ hx), h1⟩, h2, h3, h4⟩
  · exact h.count x (Finset.mem_of_mem_erase hx)
      fun hx' => (Finset.mem_insert.1 hx').elim (Finset.ne_of_mem_erase hx) hxd
  · exact Finset.mem_erase.2 ⟨fun he => by rw [he, hheld] at hx; exact lt_irrefl _ hx, h.live x hx⟩
  · obtain ⟨h1, h2, h3, h4⟩ := h.child p (Finset.mem_of_mem_erase hp) c hc
    exact ⟨Finset.mem_erase.2 ⟨hne_of c h3, h1⟩, h2, fun hc' => h3 (Finset.mem_insert_of_mem hc'), h4⟩
  · obtain ⟨h1, h2⟩ := h.parent x (Finset.mem_of_mem_erase hx) hxr
      (fun hx' => (Finset.mem_insert.1 hx').elim (Finset.ne_of_mem_erase hx) hxd) q hq
    refine ⟨Finset.mem_erase.2 ⟨fun he => ?_, h1⟩, h2⟩
    rw [he, hnil] at h2
    exact List.not_mem_nil h2
  · show x ∈ Function.update s.hash (s.bucket d) ((s.hash (s.bucket d)).erase d) k ↔ x ∈ s.dents.erase d ∧ _
    rw [Finset.mem_erase]
    by_cases hk : k = s.bucket d
    · subst hk
      rw [Function.update_self, (h.hnodup _).mem_erase_iff, h.hashed, and_assoc]
      rfl
    · rw [Function.update_of_ne hk, h.hashed]
      refine ⟨fun ⟨h1, h2, h3⟩ => ⟨⟨fun he => hk (he ▸ h3), h1⟩, h2, h3⟩,
        fun ⟨h1, h2, h3⟩ => ⟨h1.2, h2, h3⟩⟩
  · show (Function.update s.hash (s.bucket d) ((s.hash (s.bucket d)).erase d) k).Nodup
    by_cases hk : k = s.bucket d
    · subst hk
      rw [Function.update_self]
      exact (h.hnodup _).erase d
    · rw [Function.update_of_ne hk]
      exact h.hnodup k
  · exact h.unique a (Finset.mem_of_mem_erase ha) b (Finset.mem_of_mem_erase hb)

theorem total_setCount (hd : d ∈ s.dents) : (s.setCount d n).total + (s.node d).refCount = s.total + n := by
  have hother : ∑ x ∈ s.dents.erase d, ((s.setCount d n).node x).refCount = ∑ x ∈ s.dents.erase d, (s.node x).refCount :=
    Finset.sum_congr rfl fun x hx => refCount_setCount_ne (Finset.ne_of_mem_erase hx)
  have hself : ((s.setCount d n).node d).refCount = n := by rw [Vfs.setCount, Vfs.setNode_self]
  rw [Vfs.total, Vfs.total, ← Finset.add_sum_erase _ _ hd,
    ← Finset.add_sum_erase _ _ (show d ∈ (s.setCount d n).dents from hd)]
  change _ + ∑ x ∈ s.dents.erase d, _ + _ = _
  rw [hother, hself]
  omega

theorem total_cut : (s.cut d).total = s.total := by
  rw [Vfs.total, Vfs.total, cut_frame.1]
  exact Finset.sum_congr rfl fun x _ => refCount_cut x

theorem Shrunk.onInode_le (hdents : s'.dents ⊆ s.dents) (hfixed : ∀ d, (s'.node d).fixed = (s.node d).fixed) :
    s'.onInode i ≤ s.onInode i := by
  refine Finset.card_le_card fun x hx => ?_
  obtain ⟨h1, h2⟩ := Finset.mem_filter.1 hx
  exact Finset.mem_filter.2 ⟨hdents h1, (fixed_inode (hfixed x)).symm.trans h2⟩

/-- only counts and lists of children change -/
theorem Shrunk.quiet (hdents : s'.dents = s.dents) (hfixed : ∀ d, (s'.node d).fixed = (s.node d).fixed)
    (hchildren : ∀ d, (s'.node d).children.Sublist (s.node d).children) (hsbs : s'.sbs = s.sbs) (hsuper : s'.super = s.super)
    (hinodes : s'.inodes = s.inodes) : Shrunk s s' := by
  refine ⟨hdents ▸ subset_rfl, hfixed, hchildren, ⟨hsbs, hsuper⟩, fun i => by rw [hinodes]; exact ⟨rfl, rfl, rfl⟩,
    fun i => ?_, hinodes ▸ List.Sublist.refl _, fun i hi _ => hinodes ▸ hi⟩
  have h1 := Shrunk.onInode_le (i := i) hdents.subset hfixed
  have h2 := Shrunk.onInode_le (i := i) hdents.symm.subset fun d => (hfixed d).symm
  rw [hinodes]
  omega

theorem Shrunk.refl (s : Vfs) : Shrunk s s :=
  .quiet rfl (fun _ => rfl) (fun _ => List.Sublist.refl _) rfl rfl rfl

theorem Shrunk.trans (h : Shrunk s s') (h' : Shrunk s' s'') : Shrunk s s'' := by
  refine ⟨h'.dents.trans h.dents, fun d => (h'.fixed d).trans (h.fixed d), fun d => (h'.children d).trans (h.children d),
    ⟨h'.super.1.trans h.super.1, h'.super.2.trans h.super.2⟩, fun i => ?_, fun i => ?_, h'.cached.trans h.cached,
    fun i hi hpos => h'.kept i (h.kept i hi ?_) hpos⟩
  · obtain ⟨h1, h2, h3⟩ := h.inode i
    obtain ⟨h4, h5, h6⟩ := h'.inode i
    exact ⟨h4.trans h1, h5.trans h2, h6.trans h3⟩
  · have h1 := h.balance i
    have h2 := h'.balance i
    omega
  · have h1 := h'.balance i
    have h2 := Shrunk.onInode_le (i := i) h'.dents h'.fixed
    omega

theorem Shrunk.setCount : Shrunk s (s.setCount d n) :=
  .quiet rfl fixed_setCount (fun x => (children_setCount x).symm ▸ List.Sublist.refl _) rfl rfl rfl

theorem Shrunk.cut : Shrunk s (s.cut d) := by
  obtain ⟨h1, -, h3, h4, h5⟩ := cut_frame (s := s) (d := d)
  refine .quiet h1 fixed_cut (fun x => ?_) h3 h4 h5
  rw [Vfs.cut]
  cases (s.node d).parent with
  | none => exact List.Sublist.refl _
  | some p =>
    by_cases h : x = p
    · subst h
      simp only [Vfs.unlink, Vfs.setNode_self]
      exact List.erase_sublist
    · simp only [Vfs.unlink, Vfs.setNode_of_ne h]
      exact List.Sublist.refl _

@[simp] theorem Inodes.setCount_self (s : Inodes) : (s.setCount i n).node i = { s.node i with refCount := n } :=
  Function.update_self ..

theorem Inodes.setCount_of_ne (s : Inodes) {j : ℕ} (h : j ≠ i) : (s.setCount i n).node j = s.node j :=
  Function.update_of_ne h ..

/-- iput takes one reference off, and drops the inode with the last one -/
theorem iput_ends (s : Inodes) (i : ℕ) : Ends (iput s i) (· = .iput) fun s' =>
    (s'.node i).refCount + 1 = (s.node i).refCount ∧ (∀ j ≠ i, s'.node j = s.node j) ∧
    (s'.node i).isDir = (s.node i).isDir ∧ (s'.node i).sb = (s.node i).sb ∧ (s'.node i).nr = (s.node i).nr ∧
    s'.cached.Sublist s.cached ∧ ∀ j ∈ s.cached, 0 < (s'.node j).refCount → j ∈ s'.cached := by
  by_cases h0 : (s.node i).refCount = 0
  · rw [iput, if_pos h0]
    rfl
  · have hother : ∀ j ≠ i, (s.setCount i ((s.node i).refCount - 1)).node j = s.node j := fun j hj => s.setCount_of_ne hj
    rw [iput, if_neg h0]
    dsimp only [Ends]
    split_ifs with h1
    · refine ⟨?_, hother, ?_, ?_, ?_, List.erase_sublist, fun j hj hpos => ?_⟩
      all_goals simp only [Inodes.setCount_self]
      · omega
      · refine (List.mem_erase_of_ne fun he => ?_).2 hj
        subst he
        exact absurd h1 hpos.ne'
    · refine ⟨?_, hother, ?_, ?_, ?_, List.Sublist.refl _, fun j hj _ => hj⟩
      all_goals simp only [Inodes.setCount_self]
      omega

/-- a dying dentry takes its reference to its inode with it -/
theorem Shrunk.bury {I : Inodes} (hin : d ∈ s.dents) (hmem : d ∈ s.hash (s.bucket d))
    (hI : iput s.inodes (s.node d).inode = .ok I) : Shrunk s ((ddecache { s with inodes := I } d).free d) := by
  obtain ⟨h1, h2, h3, h4, h5, h6, h7⟩ := (iput_ends s.inodes (s.node d).inode).value hI
  rw [ddecache_eq (s := { s with inodes := I }) hmem]
  refine ⟨Finset.erase_subset _ _, fun _ => rfl, fun _ => List.Sublist.refl _, ⟨rfl, rfl⟩, fun i => ?_,
    fun i => ?_, h6, h7⟩
  · show (I.node i).isDir = _ ∧ (I.node i).sb = _ ∧ (I.node i).nr = _
    by_cases hi : i = (s.node d).inode
    · subst hi
      exact ⟨h3, h4, h5⟩
    · rw [h2 i hi]
      exact ⟨rfl, rfl, rfl⟩
  · show (I.node i).refCount + _ = _ + ((s.dents.erase d).filter fun x => (s.node x).inode = i).card
    rw [Finset.filter_erase]
    by_cases hi : i = (s.node d).inode
    · subst hi
      have hmem' : d ∈ s.dents.filter fun x => (s.node x).inode = (s.node d).inode := Finset.mem_filter.2 ⟨hin, rfl⟩
      have hcard := Finset.card_erase_add_one hmem'
      rw [Vfs.onInode]
      omega
    · rw [h2 i hi, Finset.erase_eq_of_notMem fun hx => hi (Finset.mem_filter.1 hx).2.symm]
      rfl

/-- **dput.** With a reference to give back, dput ends well, but for the count of an inode. -/
theorem dputN_ends (h : Tree s (held + one d) dying) (hroot : 0 < held droot) (hn : s.total < n) :
    Ends (dputN n s d) (· = .iput) fun s' => Tree s' held dying ∧ Shrunk s s' := by
  induction n generalizing s held dying d with
  | zero => omega
  | succ n ih =>
    have hheld : (held + one d) d = held d + 1 := by simp [one]
    have hin : d ∈ s.dents := h.live d (by omega)
    have hdy : d ∉ dying := fun hdy => by have := (h.dead d hdy).2.2.2; omega
    obtain ⟨hcount, hpos⟩ := h.count d hin hdy
    have htotal := total_setCount (n := (s.node d).refCount - 1) hin
    rw [dputN, if_neg hpos.ne']
    by_cases hlast : (s.node d).refCount = 1
    · obtain ⟨-, -, hne, hnil, hzero⟩ := h.last hlast hroot
      have htree := h.detach hlast hroot
      have hrc : ((s.setCount d 0).node d).refCount = 0 := by rw [Vfs.setCount, Vfs.setNode_self]
      have hparent : ((s.setCount d 0).node d).parent = (s.node d).parent := parent_setCount d
      rw [hlast] at htotal ⊢
      simp only [Nat.sub_self, hrc, if_true] at htotal ⊢
      -- the recursion to the parent gives back what the parent is owed
      have hup : Ends (match ((s.setCount d 0).node d).parent with
          | none => Pure.pure (s.setCount d 0)
          | some p => dputN n ((s.setCount d 0).unlink p d) p) (· = Bug.iput)
          fun s' => Tree s' held (insert d dying) ∧ Shrunk s s' := by
        have hshrunk : Shrunk s ((s.setCount d 0).cut d) := Shrunk.setCount.trans Shrunk.cut
        have htotal' : ((s.setCount d 0).cut d).total < n := by rw [total_cut]; omega
        cases hp : ((s.setCount d 0).node d).parent with
        | none =>
          have hcut : (s.setCount d 0).cut d = s.setCount d 0 := by simp only [Vfs.cut, hp]
          have hnone : up s d = fun _ => 0 := by
            funext x
            rw [up, ← hparent, hp, if_neg (nofun)]
          rw [hcut, hnone] at htree
          rw [hcut] at hshrunk
          exact ⟨htree, hshrunk⟩
        | some p =>
          have hcut : (s.setCount d 0).cut d = (s.setCount d 0).unlink p d := by simp only [Vfs.cut, hp]
          have hsome : up s d = one p := by
            funext x
            rw [up, one, ← hparent, hp]
            simp only [Option.some.injEq, eq_comm]
          rw [hcut, hsome] at htree
          rw [hcut] at hshrunk htotal'
          exact (ih htree hroot htotal').imp (fun _ he => he) fun s' hs' => ⟨hs'.1, hshrunk.trans hs'.2⟩
      refine hup.bind fun s1 hs1 => ?_
      obtain ⟨htree1, hshrunk1⟩ := hs1
      obtain ⟨hin1, hne1, hnil1, -⟩ := htree1.dead d (Finset.mem_insert_self _ _)
      refine (iput_ends s1.inodes (s1.node d).inode).with_value.bind fun I hI => ?_
      rw [if_neg (by simpa using hnil1)]
      exact ⟨htree1.bury hdy I, hshrunk1.trans (Shrunk.bury hin1 ((htree1.hashed _ d).2 ⟨hin1, hne1, rfl⟩) hI.2)⟩
    · have hrc : ((s.setCount d ((s.node d).refCount - 1)).node d).refCount = (s.node d).refCount - 1 := by
        rw [Vfs.setCount, Vfs.setNode_self]
      have hne : (s.node d).refCount - 1 ≠ 0 := by omega
      simp only [hrc, if_neg hne]
      refine ⟨?_, Shrunk.setCount⟩
      exact h.setCount (fun _ => by omega) (fun x hx => by simp [one, hx]) hin (fun hdy' => absurd hdy' hdy) hroot

theorem dput_ends (h : Tree s (held + one d) ∅) (hroot : 0 < held droot) :
    Ends (dput s d) (· = .iput) fun s' => Tree s' held ∅ ∧ Shrunk s s' :=
  dputN_ends h hroot s.total.lt_succ_self

theorem dref_ends (h : Tree s held ∅) (hd : d ∈ s.dents) :
    Ends (dref s d) (fun _ => False) fun s' => s' = s.setCount d ((s.node d).refCount + 1) ∧ Tree s' (held + one d) ∅ := by
  obtain ⟨h1, h2⟩ := h.count d hd (Finset.notMem_empty d)
  rw [dref, if_neg h2.ne']
  refine ⟨rfl, h.setCount (fun _ => ?_) (fun x hx => by simp [one, hx]) hd (fun h => absurd h (Finset.notMem_empty d)) ?_⟩
  · simp only [Pi.add_apply, one, if_true]
    omega
  · exact lt_of_lt_of_le h.root.1 (Nat.le_add_right _ _)

/-! ## dget -/

/-- a reference on the parent, if there is one -/
def owed (parent : Option ℕ) : ℕ → ℕ := fun x => if parent = some x then 1 else 0

def Vfs.linked (s : Vfs) (d : ℕ) : Option ℕ → Vfs
  | none => s
  | some p => s.link p d

/-- the dentry d is new: first among the children of its parent and first in its hash list -/
def Vfs.born (s : Vfs) (d i : ℕ) (parent sb : Option ℕ) (I : Inodes) : Vfs :=
  let s := s.linked d parent
  let s := { s with inodes := I, dents := insert d s.dents }.setNode d ⟨[], 0, parent, sb, i, [], none, 1⟩
  s.setHash (getHashIndex i parent) (d :: s.hash (getHashIndex i parent))

/-- what a dget of inode i under `parent` changes when it returns d -/
structure Grown (s s' : Vfs) (d i : ℕ) (parent : Option ℕ) : Prop where
  dents : s'.dents = insert d s.dents
  fixed : ∀ x ∈ s.dents, (s'.node x).fixed = (s.node x).fixed
  children : ∀ x ∈ s.dents, (s'.node x).children = (s.node x).children ∨
    parent = some x ∧ d ∉ s.dents ∧ (s'.node x).children = d :: (s.node x).children
  found : s'.key d = (i, parent)
  new : d ∉ s.dents → s'.node d = ⟨[], 0, parent, (s.inodes.node i).sb, i, [], none, 1⟩
  super : s'.sbs = s.sbs ∧ s'.super = s.super
  inode : ∀ j, (s'.inodes.node j).isDir = (s.inodes.node j).isDir ∧ (s'.inodes.node j).sb = (s.inodes.node j).sb ∧
    (s'.inodes.node j).nr = (s.inodes.node j).nr
  balance : ∀ j, (s'.inodes.node j).refCount + s.onInode j = (s.inodes.node j).refCount + s'.onInode j
  cached : s'.inodes.cached = s.inodes.cached

variable {parent sb mem : Option ℕ} {I : Inodes}

theorem born_frame (s : Vfs) (d i : ℕ) (parent sb : Option ℕ) (I : Inodes) :
    (s.born d i parent sb I).dents = insert d s.dents ∧ (s.born d i parent sb I).inodes = I ∧
    (s.born d i parent sb I).sbs = s.sbs ∧ (s.born d i parent sb I).super = s.super ∧
    (s.born d i parent sb I).hash = Function.update s.hash (getHashIndex i parent) (d :: s.hash (getHashIndex i parent)) ∧
    (s.born d i parent sb I).node d = ⟨[], 0, parent, sb, i, [], none, 1⟩ := by
  cases parent with
  | none => exact ⟨rfl, rfl, rfl, rfl, rfl, Function.update_self ..⟩
  | some p => exact ⟨rfl, rfl, rfl, rfl, rfl, Function.update_self ..⟩

theorem born_other {x : ℕ} (hx : x ≠ d) : (s.born d i parent sb I).node x =
    if parent = some x then { s.node x with children := d :: (s.node x).children } else s.node x := by
  cases parent with
  | none => exact Function.update_of_ne hx ..
  | some p =>
    have hstep : (s.born d i (some p) sb I).node x = (s.link p d).node x := Function.update_of_ne hx ..
    rw [hstep]
    by_cases hp : x = p
    · subst hp
      rw [if_pos rfl, Vfs.link, Vfs.setNode_self]
    · rw [if_neg fun h => hp (Option.some.inj h).symm, Vfs.link, Vfs.setNode_of_ne hp]

theorem born_fixed {x : ℕ} (hx : x ≠ d) : ((s.born d i parent sb I).node x).fixed = (s.node x).fixed := by
  rw [born_other hx]
  split_ifs
  · rfl
  · rfl

theorem Tree.born (h : Tree s (held + owed parent) ∅) (hroot : 0 < held droot) (hd : d ∉ s.dents)
    (hp : ∀ p ∈ parent, p ∈ s.dents) (hkey : ∀ x ∈ s.dents, x ≠ droot → s.key x ≠ (i, parent)) :
    Tree (s.born d i parent sb I) (held + one d) ∅ := by
  obtain ⟨hdents, -, -, -, hhash, hnode⟩ := born_frame s d i parent sb I
  have hne : ∀ x ∈ s.dents, x ≠ d := fun x hx he => hd (he ▸ hx)
  have hempty : ∀ x, x ∉ (∅ : Finset ℕ) := Finset.notMem_empty
  have hdroot : droot ∈ s.dents := h.live droot h.root.1
  have hzero : (held + owed parent) d = 0 := Nat.eq_zero_of_not_pos fun hpos => hd (h.live d hpos)
  have hcong : ∀ x ∈ s.dents, (s.born d i parent sb I).bucket x = s.bucket x ∧ (s.born d i parent sb I).key x = s.key x :=
    fun x hx => bucket_congr (born_fixed (hne x hx))
  have hbucket : (s.born d i parent sb I).bucket d = getHashIndex i parent := by rw [Vfs.bucket, hnode]
  have hdkey : (s.born d i parent sb I).key d = (i, parent) := by rw [Vfs.key, hnode]
  have hparent : ∀ x ∈ s.dents, ((s.born d i parent sb I).node x).parent = (s.node x).parent := fun x hx =>
    fixed_parent (born_fixed (hne x hx))
  have hchildren : ∀ x ∈ s.dents, ((s.born d i parent sb I).node x).children =
      if parent = some x then d :: (s.node x).children else (s.node x).children := fun x hx => by
    rw [born_other (hne x hx)]
    split_ifs
    · rfl
    · rfl
  have hnotin : ∀ x ∈ s.dents, d ∉ (s.node x).children := fun x hx hin => hd (h.child x hx d hin).1
  have hnothash : ∀ k, d ∉ s.hash k := fun k hin => hd ((h.hashed k d).1 hin).1
  refine ⟨fun x hx => absurd hx (hempty x), fun x hx _ => ?_, fun x hx => ?_, ⟨?_, ?_⟩, fun p hp' c hc => ?_,
    fun x hx hxr _ q hq => ?_, fun p hp' => ?_, fun k x => ?_, fun k => ?_, fun a ha b hb hna hnb he => ?_⟩
  · rw [hdents] at hx
    rcases Finset.mem_insert.1 hx with rfl | hx
    · rw [hnode]
      simp only [Pi.add_apply, one, if_true, List.length_nil] at hzero ⊢
      omega
    · obtain ⟨h1, h2⟩ := h.count x hx (hempty x)
      rw [born_other (hne x hx)]
      simp only [Pi.add_apply, one, if_neg (hne x hx), owed] at h1 ⊢
      split_ifs at h1 ⊢ with hpx
      · simp only [List.length_cons]
        omega
      · omega
  · rw [hdents, Finset.mem_insert]
    by_cases hxd : x = d
    · exact Or.inl hxd
    · simp only [Pi.add_apply, one, if_neg hxd] at hx
      exact Or.inr (h.live x (by rw [Pi.add_apply]; omega))
  · exact lt_of_lt_of_le hroot (Nat.le_add_right _ _)
  · rw [hparent droot hdroot]; exact h.root.2
  · rw [hdents] at hp'
    rcases Finset.mem_insert.1 hp' with rfl | hp'
    · rw [hnode] at hc
      exact absurd hc List.not_mem_nil
    · have hold : c ∈ (s.node p).children → c ∈ (s.born d i parent sb I).dents ∧ c ≠ droot ∧
          c ∉ (∅ : Finset ℕ) ∧ ((s.born d i parent sb I).node c).parent = some p := fun hc' => by
        obtain ⟨h1, h2, h3, h4⟩ := h.child p hp' c hc'
        exact ⟨hdents ▸ Finset.mem_insert_of_mem h1, h2, h3, (hparent c h1).trans h4⟩
      rw [hchildren p hp'] at hc
      split_ifs at hc with hpp
      · rcases List.mem_cons.1 hc with rfl | hc
        · refine ⟨hdents ▸ Finset.mem_insert_self _ _, fun he => hd (he ▸ hdroot), hempty c, ?_⟩
          rw [hnode]
          exact hpp
        · exact hold hc
      · exact hold hc
  · rw [hdents] at hx ⊢
    rcases Finset.mem_insert.1 hx with rfl | hx
    · rw [hnode] at hq
      have hqin := hp q hq
      refine ⟨Finset.mem_insert_of_mem hqin, ?_⟩
      rw [hchildren q hqin, if_pos hq]
      exact List.mem_cons_self
    · rw [hparent x hx] at hq
      obtain ⟨h1, h2⟩ := h.parent x hx hxr (hempty x) q hq
      refine ⟨Finset.mem_insert_of_mem h1, ?_⟩
      rw [hchildren q h1]
      split_ifs
      · exact List.mem_cons_of_mem _ h2
      · exact h2
  · rw [hdents] at hp'
    rcases Finset.mem_insert.1 hp' with rfl | hp'
    · rw [hnode]
      exact List.nodup_nil
    · rw [hchildren p hp']
      split_ifs
      · exact List.nodup_cons.2 ⟨hnotin p hp', h.nodup p hp'⟩
      · exact h.nodup p hp'
  · rw [hdents, hhash, Finset.mem_insert]
    by_cases hxd : x = d
    · subst hxd
      rw [hbucket]
      have hdr : x ≠ droot := fun he => hd (he ▸ hdroot)
      by_cases hk : k = getHashIndex i parent
      · subst hk
        rw [Function.update_self]
        exact ⟨fun _ => ⟨Or.inl rfl, hdr, rfl⟩, fun _ => List.mem_cons_self⟩
      · rw [Function.update_of_ne hk]
        exact ⟨fun hin => absurd hin (hnothash k), fun hin => absurd hin.2.2 hk⟩
    · have hmem : x ∈ Function.update s.hash (getHashIndex i parent) (d :: s.hash (getHashIndex i parent)) k ↔
          x ∈ s.hash k := by
        by_cases hk : k = getHashIndex i parent
        · subst hk
          rw [Function.update_self, List.mem_cons]
          exact ⟨fun h => h.resolve_left hxd, Or.inr⟩
        · rw [Function.update_of_ne hk]
      rw [hmem, h.hashed]
      constructor
      · intro ⟨h1, h2, h3⟩
        exact ⟨Or.inr h1, h2, (hcong x h1).1 ▸ h3⟩
      · intro ⟨h1, h2, h3⟩
        have hx := h1.resolve_left hxd
        exact ⟨hx, h2, (hcong x hx).1 ▸ h3⟩
  · rw [hhash]
    by_cases hk : k = getHashIndex i parent
    · subst hk
      rw [Function.update_self]
      exact List.nodup_cons.2 ⟨hnothash _, h.hnodup _⟩
    · rw [Function.update_of_ne hk]
      exact h.hnodup k
  · rw [hdents, Finset.mem_insert] at ha hb
    rcases ha with rfl | ha'
    · rcases hb with rfl | hb'
      · rfl
      · rw [hdkey, (hcong b hb').2] at he
        exact absurd he.symm (hkey b hb' hnb)
    · rcases hb with rfl | hb'
      · rw [hdkey, (hcong a ha').2] at he
        exact absurd he (hkey a ha' hna)
      · rw [(hcong a ha').2, (hcong b hb').2] at he
        exact h.unique a ha' b hb' hna hnb he

/-- the search of dcache -/
def probe (s : Vfs) (i : ℕ) (parent : Option ℕ) : Option ℕ :=
  (s.hash (getHashIndex i parent)).find? fun pos => s.key pos = (i, parent)

theorem probe_some (h : Tree s held ∅) (hf : probe s i parent = some d) :
    d ∈ s.dents ∧ d ≠ droot ∧ s.key d = (i, parent) := by
  obtain ⟨h1, h2, -⟩ := (h.hashed _ d).1 (List.mem_of_find?_eq_some hf)
  have hkey := List.find?_some hf
  exact ⟨h1, h2, by simpa using hkey⟩

theorem probe_none (h : Tree s held ∅) (hf : probe s i parent = none) :
    ∀ x ∈ s.dents, x ≠ droot → s.key x ≠ (i, parent) := by
  intro x hx hne hkey
  have hbucket : s.bucket x = getHashIndex i parent := by
    rw [Vfs.bucket, show (s.node x).inode = i from congrArg Prod.fst hkey,
      show (s.node x).parent = parent from congrArg Prod.snd hkey]
  have hmem : x ∈ s.hash (getHashIndex i parent) := (h.hashed _ x).2 ⟨hx, hne, hbucket.symm⟩
  have := List.find?_eq_none.1 hf x hmem
  simp [hkey] at this

theorem dcache_null : dcache s i parent none = .ok (probe s i parent, s) := by
  rw [dcache, probe]
  cases (s.hash (getHashIndex i parent)).find? fun pos => s.key pos = (i, parent) with
  | none => rfl
  | some pos => rfl

theorem dcache_insert (hf : probe s i parent = none) :
    dcache s i parent (some c) = .ok (some c, s.setHash (getHashIndex i parent) (c :: s.hash (getHashIndex i parent))) := by
  rw [probe] at hf
  simp only [dcache, hf]

theorem iref_ends (s : Inodes) (i : ℕ) : Ends (iref s i) (· = .iref) fun s' =>
    s' = s.setCount i ((s.node i).refCount + 1) := by
  rw [iref]
  split_ifs
  · rfl
  · rfl

theorem inode_setCount (I : Inodes) (j : ℕ) : ((I.setCount i n).node j).isDir = (I.node j).isDir ∧
    ((I.setCount i n).node j).sb = (I.node j).sb ∧ ((I.setCount i n).node j).nr = (I.node j).nr := by
  by_cases h : j = i
  · subst h
    rw [Inodes.setCount_self]
    exact ⟨rfl, rfl, rfl⟩
  · rw [I.setCount_of_ne h]
    exact ⟨rfl, rfl, rfl⟩

/-- a hit: only the count of d changes -/
theorem Grown.hit (hd : d ∈ s.dents) (hkey : s.key d = (i, parent)) : Grown s (s.setCount d n) d i parent where
  dents := (Finset.insert_eq_of_mem hd).symm
  fixed := fun x _ => fixed_setCount x
  children := fun x _ => Or.inl (children_setCount x)
  found := (bucket_congr (fixed_setCount d)).2.trans hkey
  new := fun hno => absurd hd hno
  super := ⟨rfl, rfl⟩
  inode := fun _ => ⟨rfl, rfl, rfl⟩
  balance := fun j => by
    have hsame : (s.setCount d n).onInode j = s.onInode j := by
      have h := (Shrunk.setCount (s := s) (d := d) (n := n)).balance j
      exact (Nat.add_left_cancel h).symm
    rw [hsame]
    rfl
  cached := rfl

/-- a miss: the counts of the parent and of the inode change -/
theorem Grown.miss (hd : d ∉ s.dents) (hfixed : ∀ x, (s'.node x).fixed = (s.node x).fixed)
    (hchildren : ∀ x, (s'.node x).children = (s.node x).children) (hdents : s'.dents = s.dents) (hsbs : s'.sbs = s.sbs)
    (hsuper : s'.super = s.super) :
    Grown s (s'.born d i parent (s.inodes.node i).sb (s.inodes.setCount i ((s.inodes.node i).refCount + 1))) d i parent := by
  obtain ⟨h1, h2, h3, h4, -, h6⟩ := born_frame s' d i parent (s.inodes.node i).sb
    (s.inodes.setCount i ((s.inodes.node i).refCount + 1))
  have hne : ∀ x ∈ s.dents, x ≠ d := fun x hx he => hd (he ▸ hx)
  refine ⟨by rw [h1, hdents], fun x hx => (born_fixed (hne x hx)).trans (hfixed x), fun x hx => ?_, by rw [Vfs.key, h6],
    fun _ => h6, ⟨h3.trans hsbs, h4.trans hsuper⟩, fun j => by rw [h2]; exact inode_setCount _ j,
      fun j => ?_, by rw [h2]; rfl⟩
  · rw [born_other (hne x hx), ← hchildren x]
    split_ifs with hp
    · exact Or.inr ⟨hp, hd, rfl⟩
    · exact Or.inl rfl
  · have hfilter : (s'.born d i parent (s.inodes.node i).sb (s.inodes.setCount i ((s.inodes.node i).refCount + 1))).onInode j =
        s.onInode j + if j = i then 1 else 0 := by
      have hold : s.dents.filter (fun x => ((s'.born d i parent (s.inodes.node i).sb
          (s.inodes.setCount i ((s.inodes.node i).refCount + 1))).node x).inode = j) =
          s.dents.filter fun x => (s.node x).inode = j := by
        refine Finset.filter_congr fun x hx => ?_
        rw [fixed_inode ((born_fixed (hne x hx)).trans (hfixed x))]
      rw [Vfs.onInode, h1, hdents, Finset.filter_insert, hold, h6]
      by_cases hij : i = j
      · subst hij
        rw [if_pos rfl, if_pos rfl, Finset.card_insert_of_notMem fun hin => hd (Finset.mem_filter.1 hin).1]
        rfl
      · rw [if_neg hij, if_neg (Ne.symm hij)]
        rfl
    rw [hfilter, h2]
    by_cases hij : j = i
    · subst hij
      rw [Inodes.setCount_self, if_pos rfl]
      dsimp only
      omega
    · rw [if_neg hij, s.inodes.setCount_of_ne hij]
      rfl

/-- the parent has got the reference of a new child -/
def Vfs.counted (s : Vfs) : Option ℕ → Vfs
  | none => s
  | some p => s.setCount p ((s.node p).refCount + 1)

theorem counted_frame (s : Vfs) (parent : Option ℕ) : (∀ x, ((s.counted parent).node x).fixed = (s.node x).fixed) ∧
    (∀ x, ((s.counted parent).node x).children = (s.node x).children) ∧ (s.counted parent).dents = s.dents ∧
    (s.counted parent).sbs = s.sbs ∧ (s.counted parent).super = s.super ∧ (s.counted parent).hash = s.hash ∧
    (s.counted parent).inodes = s.inodes := by
  cases parent with
  | none => exact ⟨fun _ => rfl, fun _ => rfl, rfl, rfl, rfl, rfl, rfl⟩
  | some p => exact ⟨fixed_setCount, children_setCount, rfl, rfl, rfl, rfl, rfl⟩

theorem linked_frame (s : Vfs) (d : ℕ) (parent : Option ℕ) :
    (s.linked d parent).dents = s.dents ∧ (s.linked d parent).inodes = s.inodes ∧ (s.linked d parent).hash = s.hash ∧
    ∀ x, ((s.linked d parent).node x).fixed = (s.node x).fixed := by
  cases parent with
  | none => exact ⟨rfl, rfl, rfl, fun _ => rfl⟩
  | some p =>
    refine ⟨rfl, rfl, rfl, fun x => ?_⟩
    by_cases h : x = p
    · subst h
      simp only [Vfs.linked, Vfs.link, Vfs.setNode_self]
      rfl
    · simp only [Vfs.linked, Vfs.link, Vfs.setNode_of_ne h]

theorem adopt_ends (h : Tree s held ∅) (hp : ∀ p ∈ parent, p ∈ s.dents) :
    Ends (adopt s d parent) (fun _ => False) fun s1 =>
    s1 = (s.counted parent).linked d parent ∧ Tree (s.counted parent) (held + owed parent) ∅ := by
  cases parent with
  | none =>
    refine ⟨rfl, ?_⟩
    have hnone : held + owed none = held := by
      funext x
      simp [owed]
    rw [hnone]
    exact h
  | some p =>
    refine (dref_ends h (hp p rfl)).bind fun s1 hs1 => ?_
    obtain ⟨rfl, htree⟩ := hs1
    refine ⟨rfl, ?_⟩
    have hone : held + owed (some p) = held + one p := by
      funext x
      simp only [Pi.add_apply, owed, one, Option.some.injEq, eq_comm]
    rw [hone]
    exact htree

/-- **dget.** It returns NULL with nothing changed, or a dentry of the inode under `parent` with a reference to it. -/
theorem dget_ends (i : ℕ) (parent mem : Option ℕ) (h : Tree s held ∅) (hroot : 0 < held droot)
    (hmem : ∀ d ∈ mem, d ∉ s.dents) (hp : ∀ p ∈ parent, p ∈ s.dents) (hsb : (s.inodes.node i).sb ≠ none) :
    Ends (dget s i parent mem) (· = .iref) fun r => match r.1 with
      | none => r.2 = s
      | some d => d ≠ droot ∧ Tree r.2 (held + one d) ∅ ∧ Grown s r.2 d i parent := by
  rw [dget, dcache_null]
  cases hf : probe s i parent with
  | some d =>
    obtain ⟨hd, hne, hkey⟩ := probe_some h hf
    refine ((dref_ends h hd).imp (fun _ he => he.elim) fun _ ha => ha).bind fun s1 hs1 => ?_
    obtain ⟨rfl, htree⟩ := hs1
    exact ⟨hne, htree, .hit hd hkey⟩
  | none =>
    have hno := probe_none h hf
    cases mem with
    | none => rfl
    | some d =>
      have hd : d ∉ s.dents := hmem d rfl
      have hdne : d ≠ droot := fun he => hd (he ▸ h.live droot h.root.1)
      obtain ⟨hfixed, hchildren, hdents, hsbs, hsuper, hhash, hinodes⟩ := counted_frame s parent
      obtain ⟨hldents, hlinodes, hlhash, hlfixed⟩ := linked_frame (s.counted parent) d parent
      refine ((adopt_ends (d := d) h hp).imp (fun _ he => he.elim) fun _ ha => ha).bind fun s1 hs1 => ?_
      obtain ⟨rfl, htree⟩ := hs1
      rw [hlinodes, hinodes]
      refine (iref_ends _ _).bind fun I hI => ?_
      subst hI
      rw [(inode_setCount s.inodes i).2.1, if_neg hsb]
      -- the second search of the hash list misses as well
      set s2 := { (s.counted parent).linked d parent with
        dents := insert d ((s.counted parent).linked d parent).dents
        inodes := s.inodes.setCount i ((s.inodes.node i).refCount + 1) }.setNode d
          ⟨[], 0, parent, (s.inodes.node i).sb, i, [], none, 1⟩ with hs2
      have hmiss : probe s2 i parent = none := by
        refine List.find?_eq_none.2 fun x hx => ?_
        have hx' : x ∈ s.hash (getHashIndex i parent) := by
          rw [← hhash, ← hlhash]
          exact hx
        obtain ⟨h1, h2, -⟩ := (h.hashed _ x).1 hx'
        have hnode : s2.node x = ((s.counted parent).linked d parent).node x := Vfs.setNode_of_ne fun he => hd (he ▸ h1)
        have hkey : s2.key x = s.key x := (bucket_congr (by rw [hnode, hlfixed, hfixed])).2
        simpa [hkey] using hno x h1 h2
      show Ends (dcache s2 i parent (some d) >>= fun r => Pure.pure (some d, r.2)) _ _
      rw [dcache_insert hmiss]
      have hgrown : Grown s ((s.counted parent).born d i parent (s.inodes.node i).sb
        (s.inodes.setCount i ((s.inodes.node i).refCount + 1))) d i parent := .miss hd hfixed hchildren hdents hsbs hsuper
      refine ⟨hdne, htree.born hroot (hdents ▸ hd) (fun p hpp => hdents ▸ hp p hpp) fun x hx hne => ?_, hgrown⟩
      rw [(bucket_congr (hfixed x)).2]
      exact hno x (hdents ▸ hx) hne

end SinsOs.Dcache
