/-
Mounting on a dentry (do_mount and alloc_super_block, fs/super.c).

do_mount makes a super block, hangs it on the dentry, and tries the file system types on it in the order of fs_types. What a
type's get_super does to the super block and to memory is the type's own: it is a parameter here, and `none` stands for a
get_super in which the kernel stops. dealloc_super_block is called from nowhere.

- `tryTypes_cases`: the loop ends at the first type that succeeds, or behind the last one with nothing taken back.
- `minix_mount_iff`: with the one type of this kernel, a mount is right when minix_get_super succeeds and makes a root.
- `mount_iff`: with any types, when there is no memory for the super block, or a type succeeds and the first that does makes a
  root.
-/
import SinsOs.Fs.Minix.Super

namespace SinsOs.Mount

open SinsOs.Lib (success error eNomem)

/-! ## Model -/

/-- struct super_block; `root` is NULL or a dentry, and `data` the fields of the file system -/
structure SuperBlock (ρ δ : Type) where
  fsType : Option ℕ
  magic : ℕ
  dev : ℕ
  parent : ℕ
  root : Option ρ
  data : δ

/-- struct file_system_type; μ is what the file systems have allocated -/
structure FsType (ρ δ μ : Type) where
  addr : ℕ
  getSuper : SuperBlock ρ δ → μ → Option (ℤ × SuperBlock ρ δ × μ)

/-- `mount` and `refCount` of the dentry, the lists of the types, the super blocks in memory, and the rest of the memory -/
structure World (ρ δ μ : Type) where
  mount : Option ℕ
  refCount : ℕ
  sbList : ℕ → List ℕ
  super : ℕ → SuperBlock ρ δ
  supers : Multiset ℕ
  mem : μ

def Failed (res : ℤ) : Prop := res < 0

instance (res : ℤ) : Decidable (Failed res) := inferInstanceAs (Decidable (_ < _))

variable {ρ δ μ : Type}

/-- the super block that alloc_super_block fills; `data` is what kmalloc left there -/
def newSuper (dev de : ℕ) (data : δ) : SuperBlock ρ δ := ⟨none, 0, dev, de, none, data⟩

/-- `none`: a BUG_ON, for a mount point or a dentry without a reference -/
def allocSuperBlock (mem : Option ℕ) (dev de : ℕ) (data : δ) (w : World ρ δ μ) :
    Option (Option ℕ × World ρ δ μ) :=
  match mem with
  | none => some (none, w)
  | some sb =>
    if w.mount ≠ none then none
    else if w.refCount = 0 then none
    else some (some sb, { w with
      mount := some sb
      refCount := w.refCount + 1
      super := Function.update w.super sb (newSuper dev de data)
      supers := sb ::ₘ w.supers })

/-- the loop over fs_types -/
def tryTypes (b : ℕ) : List (FsType ρ δ μ) → World ρ δ μ → Option (ℤ × World ρ δ μ)
  | [], w => some (-error, w)
  | fst :: types, w =>
    (fst.getSuper { w.super b with fsType := some fst.addr } w.mem).bind fun (res, sb, mem) =>
      let w := { w with super := Function.update w.super b sb, mem := mem }
      if Failed res then tryTypes b types w
      else some (success, { w with sbList := Function.update w.sbList fst.addr (b :: w.sbList fst.addr) })

def doMount (types : List (FsType ρ δ μ)) (mem : Option ℕ) (dev de : ℕ) (data : δ) (w : World ρ δ μ) :
    Option (ℤ × World ρ δ μ) :=
  (allocSuperBlock mem dev de data w).bind fun (sb, w) =>
    match sb with
    | none => some (-eNomem, w)
    | some b => tryTypes b types w

/-! ## Types that succeed -/

/-- the types are tried one after the other on one super block; the first that does not fail leaves P -/
inductive FirstSucceeds (P : FsType ρ δ μ → SuperBlock ρ δ → μ → Prop) :
    List (FsType ρ δ μ) → SuperBlock ρ δ → μ → Prop
  | here {fst : FsType ρ δ μ} {types : List (FsType ρ δ μ)} {sb sb' : SuperBlock ρ δ} {mem mem' : μ} {res : ℤ} :
    fst.getSuper { sb with fsType := some fst.addr } mem = some (res, sb', mem') → ¬ Failed res → P fst sb' mem' →
      FirstSucceeds P (fst :: types) sb mem
  | later {fst : FsType ρ δ μ} {types : List (FsType ρ δ μ)} {sb sb' : SuperBlock ρ δ} {mem mem' : μ} {res : ℤ} :
    fst.getSuper { sb with fsType := some fst.addr } mem = some (res, sb', mem') → Failed res →
      FirstSucceeds P types sb' mem' → FirstSucceeds P (fst :: types) sb mem

/-- **What do_mount is for.** It succeeds exactly when a type does, and the dentry then has the super block, which is on the list
of the type and has a root; when it fails, everything is as it was. -/
def Lawful (types : List (FsType ρ δ μ)) (mem : Option ℕ) (dev de : ℕ) (data : δ) (w : World ρ δ μ) : Prop :=
  ∃ ret w', doMount types mem dev de data w = some (ret, w') ∧
    (ret = success ↔ mem.isSome ∧ FirstSucceeds (fun _ _ _ => True) types (newSuper dev de data) w.mem) ∧
    (ret = success → ∃ b, mem = some b ∧ w'.mount = some b ∧
      FirstSucceeds (fun fst sb mem => w'.super b = sb ∧ w'.mem = mem ∧ b ∈ w'.sbList fst.addr ∧ sb.root ≠ none) types
        (newSuper dev de data) w.mem) ∧
    (ret ≠ success → w'.mount = w.mount ∧ w'.refCount = w.refCount ∧ w'.sbList = w.sbList ∧ w'.supers = w.supers ∧
      w'.mem = w.mem)

variable {types : List (FsType ρ δ μ)} {w w' : World ρ δ μ} {sb : SuperBlock ρ δ} {mem : μ} {data : δ}
variable {b dev de : ℕ} {ret : ℤ}
variable {P Q : FsType ρ δ μ → SuperBlock ρ δ → μ → Prop}

theorem FirstSucceeds.imp (h : FirstSucceeds P types sb mem) (hpq : ∀ fst sb mem, P fst sb mem → Q fst sb mem) :
    FirstSucceeds Q types sb mem := by
  induction h with
  | here hget hok hp => exact .here hget hok (hpq _ _ _ hp)
  | later hget hfail _ ih => exact .later hget hfail ih

/-- there is one first type -/
theorem FirstSucceeds.and (hp : FirstSucceeds P types sb mem) (hq : FirstSucceeds Q types sb mem) :
    FirstSucceeds (fun fst sb mem => P fst sb mem ∧ Q fst sb mem) types sb mem := by
  induction hp with
  | here hget hok hp =>
    cases hq with
    | here hget' hok' hq =>
      rw [hget] at hget'
      cases hget'
      exact .here hget hok ⟨hp, hq⟩
    | later hget' hfail _ =>
      rw [hget] at hget'
      cases hget'
      exact absurd hfail hok
  | later hget hfail _ ih =>
    cases hq with
    | here hget' hok' _ =>
      rw [hget] at hget'
      cases hget'
      exact absurd hfail hok'
    | later hget' _ hq =>
      rw [hget] at hget'
      cases hget'
      exact .later hget hfail (ih hq)

/-! ## The loop -/

/-- what the loop leaves at the first type that succeeds -/
def Listed (b : ℕ) (w' : World ρ δ μ) (fst : FsType ρ δ μ) (sb : SuperBlock ρ δ) (mem : μ) : Prop :=
  w'.super b = sb ∧ w'.mem = mem ∧ b ∈ w'.sbList fst.addr

theorem tryTypes_cons (b : ℕ) {fst : FsType ρ δ μ} {sb' : SuperBlock ρ δ} {mem' : μ} {res : ℤ}
    (hget : fst.getSuper { w.super b with fsType := some fst.addr } w.mem = some (res, sb', mem')) :
    tryTypes b (fst :: types) w =
      if Failed res then tryTypes b types { w with super := Function.update w.super b sb', mem := mem' }
      else some (success, { w with
        super := Function.update w.super b sb'
        mem := mem'
        sbList := Function.update w.sbList fst.addr (b :: w.sbList fst.addr) }) := by
  rw [tryTypes, hget]
  rfl

/-- **The loop** ends at the first type that succeeds, or behind the last one; the dentry keeps the super block. -/
theorem tryTypes_cases (h : tryTypes b types w = some (ret, w')) : w'.mount = w.mount ∧
    (ret = success ∧ FirstSucceeds (Listed b w') types (w.super b) w.mem ∨
      ret = -error ∧ ¬ FirstSucceeds (fun _ _ _ => True) types (w.super b) w.mem) := by
  induction types generalizing w with
  | nil =>
    cases h
    exact ⟨rfl, .inr ⟨rfl, nofun⟩⟩
  | cons fst types ih =>
    cases hget : fst.getSuper { w.super b with fsType := some fst.addr } w.mem with
    | none =>
      rw [tryTypes, hget] at h
      cases h
    | some r =>
      obtain ⟨res, sb', mem'⟩ := r
      rw [tryTypes_cons b hget] at h
      by_cases hfail : Failed res
      · rw [if_pos hfail] at h
        obtain ⟨hmount, hrest⟩ := ih h
        simp only [Function.update_self] at hrest
        refine ⟨hmount, hrest.imp (fun ⟨hret, hfirst⟩ => ⟨hret, .later hget hfail hfirst⟩)
          fun ⟨hret, hnone⟩ => ⟨hret, ?_⟩⟩
        intro hfirst
        cases hfirst with
        | here hget' hok _ =>
          rw [hget] at hget'
          cases hget'
          exact hok hfail
        | later hget' _ hfirst =>
          rw [hget] at hget'
          cases hget'
          exact hnone hfirst
      · rw [if_neg hfail] at h
        cases h
        refine ⟨rfl, .inl ⟨rfl, .here hget hfail ⟨Function.update_self .., rfl, ?_⟩⟩⟩
        change b ∈ Function.update w.sbList fst.addr (b :: w.sbList fst.addr) fst.addr
        rw [Function.update_self]
        exact List.mem_cons_self

/-- a type that succeeds ends the loop -/
theorem tryTypes_of_first (h : FirstSucceeds P types (w.super b) w.mem) : ∃ w', tryTypes b types w = some (success, w') := by
  obtain ⟨sb, hsb⟩ : ∃ sb, w.super b = sb := ⟨_, rfl⟩
  obtain ⟨mem, hmem⟩ : ∃ mem, w.mem = mem := ⟨_, rfl⟩
  rw [hsb, hmem] at h
  induction h generalizing w with
  | here hget hok _ =>
    rw [← hsb, ← hmem] at hget
    rw [tryTypes_cons b hget, if_neg hok]
    exact ⟨_, rfl⟩
  | later hget hfail _ ih =>
    rw [← hsb, ← hmem] at hget
    rw [tryTypes_cons b hget, if_pos hfail]
    exact ih (Function.update_self ..) rfl

/-! ## do_mount -/

/-- the state in which the types are tried -/
def attached (b dev de : ℕ) (data : δ) (w : World ρ δ μ) : World ρ δ μ :=
  { w with
    mount := some b
    refCount := w.refCount + 1
    super := Function.update w.super b (newSuper dev de data)
    supers := b ::ₘ w.supers }

theorem doMount_eq (hm : w.mount = none) (hc : w.refCount ≠ 0) (types : List (FsType ρ δ μ)) (b dev de : ℕ) (data : δ) :
    doMount types (some b) dev de data w = tryTypes b types (attached b dev de data w) := by
  rw [doMount, allocSuperBlock]
  dsimp only
  rw [if_neg (not_not.2 hm), if_neg hc]
  rfl

/-- a mount that is right with memory ends at a type that leaves a root: otherwise the super block is still on the dentry -/
theorem first_of_lawful (hm : w.mount = none) (hc : w.refCount ≠ 0) (h : Lawful types (some b) dev de data w) :
    FirstSucceeds (fun _ sb _ => sb.root ≠ none) types (newSuper dev de data) w.mem := by
  obtain ⟨ret, w', hrun, -, hgood, hundone⟩ := h
  rw [doMount_eq hm hc] at hrun
  obtain ⟨hmount, ⟨hret, -⟩ | ⟨hret, -⟩⟩ := tryTypes_cases hrun
  · obtain ⟨_, -, -, hfirst⟩ := hgood hret
    exact hfirst.imp fun _ _ _ hall => hall.2.2.2
  · have hne : ret ≠ success := by
      rw [hret]
      decide
    have hback := (hundone hne).1
    rw [hmount, hm] at hback
    cases hback

theorem lawful_of_first (hm : w.mount = none) (hc : w.refCount ≠ 0)
    (h : FirstSucceeds (fun _ sb _ => sb.root ≠ none) types (newSuper dev de data) w.mem) :
    Lawful types (some b) dev de data w := by
  have hsuper : (attached b dev de data w).super b = newSuper dev de data := Function.update_self ..
  obtain ⟨w', hrun⟩ := tryTypes_of_first (w := attached b dev de data w) (hsuper.symm ▸ h)
  obtain ⟨hmount, ⟨-, hlisted⟩ | ⟨hret, -⟩⟩ := tryTypes_cases hrun
  · rw [hsuper] at hlisted
    have hsuccess : (some b).isSome ∧ FirstSucceeds (fun _ _ _ => True) types (newSuper dev de data) w.mem :=
      ⟨rfl, h.imp fun _ _ _ _ => trivial⟩
    refine ⟨success, w', (doMount_eq hm hc ..).trans hrun, iff_of_true rfl hsuccess, fun _ => ⟨b, rfl, hmount, ?_⟩, ?_⟩
    · refine (hlisted.and h).imp fun _ _ _ hall => ?_
      exact ⟨hall.1.1, hall.1.2.1, hall.1.2.2, hall.2⟩
    · exact fun hne => absurd rfl hne
  · exact absurd hret (by decide)

/-- without memory nothing is tried -/
theorem lawful_of_none (types : List (FsType ρ δ μ)) (dev de : ℕ) (data : δ) (w : World ρ δ μ) :
    Lawful types none dev de data w := by
  refine ⟨-eNomem, w, rfl, iff_of_false (by decide) (fun h => Bool.noConfusion h.1), fun h => ?_, fun _ => ?_⟩
  · exact absurd h (by decide)
  · exact ⟨rfl, rfl, rfl, rfl, rfl⟩

/-! ## The minix type -/

open Minix.Super (Env Obj Mem Mb minixGetSuper noMap badRead)

/-- the fields of struct super_block that minix has, as far as they change -/
abbrev MinixData : Type := List (Option Mb) × List (Option Mb)

/-- minix_fs_type on a disk where something may fail -/
def minixFsType (env : Env) : FsType Obj MinixData Mem where
  addr := 0
  getSuper := fun sb mem =>
    match minixGetSuper env with
    | .error _ => none
    | .ok r => some (r.ret, { sb with root := r.root, data := (r.imap, r.zmap) }, r.mem + mem)

/-- minix_get_super succeeds, with a root -/
def RootMade (env : Env) : Prop := ∃ r, minixGetSuper env = .ok r ∧ ¬ Failed r.ret ∧ r.root ≠ none

variable {env : Env} {r : Minix.Super.Result}

theorem minix_getSuper (h : minixGetSuper env = .ok r) (sb : SuperBlock Obj MinixData) (mem : Mem) :
    (minixFsType env).getSuper sb mem = some (r.ret, { sb with root := r.root, data := (r.imap, r.zmap) }, r.mem + mem) := by
  simp only [minixFsType, h]

theorem minix_first_iff (env : Env) (sb : SuperBlock Obj MinixData) (mem : Mem) :
    FirstSucceeds (fun _ sb _ => sb.root ≠ none) [minixFsType env] sb mem ↔ RootMade env := by
  cases hrun : minixGetSuper env with
  | error f =>
    have hget : ∀ sb mem, (minixFsType env).getSuper sb mem = none := fun sb mem => by simp only [minixFsType, hrun]
    refine iff_of_false (fun h => ?_) fun ⟨r, hr, _⟩ => ?_
    · cases h with
      | here hget' =>
        rw [hget] at hget'
        cases hget'
      | later _ _ hrest => cases hrest
    · rw [hrun] at hr
      cases hr
  | ok r =>
    have hget := minix_getSuper hrun { sb with fsType := some (minixFsType env).addr } mem
    constructor
    · intro h
      cases h with
      | here hget' hok hroot =>
        rw [hget] at hget'
        cases hget'
        exact ⟨r, hrun, hok, hroot⟩
      | later _ _ hrest => cases hrest
    · rintro ⟨r', hr', hok, hroot⟩
      rw [hrun] at hr'
      cases hr'
      exact .here hget hok hroot

/-- **The mounts of this kernel** are right when minix_get_super succeeds with a root. -/
theorem minix_mount_iff (env : Env) (b dev de : ℕ) (data : MinixData) (w : World Obj MinixData Mem) (hm : w.mount = none)
    (hc : w.refCount ≠ 0) : Lawful [minixFsType env] (some b) dev de data w ↔ RootMade env := by
  rw [← minix_first_iff env (newSuper dev de data) w.mem]
  exact ⟨first_of_lawful hm hc, lawful_of_first hm hc⟩

/-! ## All types -/

/-- **When do_mount is right.** For all types and failures, on a dentry that is referenced and no mount point: exactly when there
is no memory for the super block, or a type succeeds and the first that does leaves a root. -/
theorem mount_iff (types : List (FsType ρ δ μ)) (mem : Option ℕ) (dev de : ℕ) (data : δ) (w : World ρ δ μ)
    (hm : w.mount = none) (hc : w.refCount ≠ 0) : Lawful types mem dev de data w ↔
      mem = none ∨ FirstSucceeds (fun _ sb _ => sb.root ≠ none) types (newSuper dev de data) w.mem := by
  cases mem with
  | none => exact iff_of_true (lawful_of_none types dev de data w) (Or.inl rfl)
  | some b =>
    rw [or_iff_right nofun]
    exact ⟨first_of_lawful hm hc, lawful_of_first hm hc⟩

/-- a dentry with one reference -/
def emptyWorld : World Obj MinixData Mem := ⟨none, 1, fun _ => [], fun _ => newSuper 0 0 (noMap, noMap), 0, 0⟩

/-- a valid file system and no failures -/
def goodDisk : Env := { badRead with fate := fun _ => .ok }

/-- block 1 has no magic number -/
def emptyDisk : Env := ⟨fun _ _ => 0, fun _ => .ok, true, true⟩

theorem good_mount : Lawful [minixFsType goodDisk] (some 5) 0 7 (noMap, noMap) emptyWorld := by
  have hrun : (minixGetSuper goodDisk).map (fun r => (r.ret, r.root)) = .ok (success, some .dentry) := by decide +kernel
  refine (mount_iff [minixFsType goodDisk] (some 5) 0 7 (noMap, noMap) emptyWorld rfl (by decide)).2 (Or.inr ?_)
  refine (minix_first_iff goodDisk _ _).2 ?_
  cases hr : minixGetSuper goodDisk with
  | error f =>
    rw [hr] at hrun
    cases hrun
  | ok r =>
    have hfields : (r.ret, r.root) = (success, some .dentry) := by
      rw [hr] at hrun
      exact Except.ok.inj hrun
    have hret : r.ret = success := congrArg Prod.fst hfields
    have hroot : r.root = some .dentry := congrArg Prod.snd hfields
    refine ⟨r, hr, ?_, ?_⟩
    · rw [hret]
      decide
    · rw [hroot]
      exact nofun

/-- The disk has no file system: do_mount fails, and the super block stays on the dentry with a reference to it. -/
theorem empty_mount : (doMount [minixFsType emptyDisk] (some 5) 0 7 (noMap, noMap) emptyWorld).map
      (fun r => (r.1, r.2.mount, r.2.refCount, r.2.supers)) = some (-error, some 5, 2, {5}) ∧
    ¬ Lawful [minixFsType emptyDisk] (some 5) 0 7 (noMap, noMap) emptyWorld := by
  have hrun : (doMount [minixFsType emptyDisk] (some 5) 0 7 (noMap, noMap) emptyWorld).map
      (fun r => (r.1, r.2.mount, r.2.refCount, r.2.supers)) = some (-error, some 5, 2, {5}) := by decide +kernel
  refine ⟨hrun, ?_⟩
  rintro ⟨ret, w', hlaw, -, -, hundone⟩
  rw [hlaw, Option.map_some, Option.some.injEq] at hrun
  have hret : ret = -error := congrArg Prod.fst hrun
  have hmount : w'.mount = some 5 := congrArg (fun r => r.2.1) hrun
  have hback := (hundone (by rw [hret]; decide)).1
  rw [hmount] at hback
  cases hback

end SinsOs.Mount
