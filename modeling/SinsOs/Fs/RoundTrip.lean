/-
sys_getcwd against lookup (fs/namei.c): the string that sys_getcwd stores, given back to lookup.

- `under_reachable`: no dentry is a child of droot, and the root of the file system is the only one without a parent.
- `walk_way`: a lookup on the way to p, that finds no other entry in the way, is still on the way after a step, or returns p.
- `getcwd_lookup`: sys_getcwd keeps to the buffer but for one byte and a path without names; and lookup of the string leads
  back to the pwd, as long as no other entry is taken for one on the way.
-/
import SinsOs.Fs.Getcwd

namespace SinsOs.Namei

open SinsOs.Core SinsOs.Lib SinsOs.Dcache

variable {v v' : Vfs} {o o' : ℕ → ℕ} {b r d i p n k y : ℕ} {w : Walk} {a : Answer} {s s' : Sys} {t : Task} {goal : Goal}
  {l : List ℕ}

/-! ## The shape of the tree -/

/-- no dentry is a child of droot, and only r has no parent -/
def Under (v : Vfs) (r : ℕ) : Prop :=
  ∀ d ∈ v.dents, d ≠ droot → (v.node d).parent ≠ some droot ∧ ((v.node d).parent = none → d = r)

/-- every dentry of v' is one of v, or a child of another dentry than droot -/
def Sprung (v v' : Vfs) : Prop := ∀ d ∈ v'.dents, d ∈ v.dents ∨ ∃ q, q ≠ droot ∧ (v'.node d).parent = some q

theorem Sprung.of_subset (h : v'.dents ⊆ v.dents) : Sprung v v' := fun _ hd => Or.inl (h hd)

theorem Sprung.shrunk {v'' : Vfs} (h : Sprung v v') (hs : v''.dents ⊆ v'.dents) (hk : Kept v' v'') : Sprung v v'' := by
  intro d hd
  rcases h d (hs hd) with hin | ⟨q, hq, hp⟩
  · exact Or.inl hin
  · exact Or.inr ⟨q, hq, (hk.same d (hs hd) hd).1.trans hp⟩

theorem Under.sprung (h : Under v r) (hs : Sprung v v') (hk : Kept v v') : Under v' r := by
  intro d hd hne
  rcases hs d hd with hin | ⟨q, hq, hp⟩
  · rw [(hk.same d hin hd).1]
    exact h d hin hne
  · rw [hp]
    exact ⟨fun he => hq (Option.some.inj he), nofun⟩

/-- a new dentry is a child of the directory that was searched on the disk -/
theorem Sprung.asked {dir : ℕ} {comp : List Byte} {find : Option ℕ} {held : ℕ → ℕ}
    (h : Asked v dir comp a held b r v' find) (hdir : dir ≠ droot) : Sprung v v' := by
  cases find with
  | none =>
    obtain ⟨-, I, rfl, -⟩ := h
    exact .of_subset subset_rfl
  | some d =>
    obtain ⟨-, -, i, v1, -, hg, rfl⟩ := h
    intro x hx
    have hx1 : x ∈ insert d v.dents := hg.dents ▸ hx
    rcases Finset.mem_insert.1 hx1 with rfl | hin
    · refine Or.inr ⟨dir, hdir, ?_⟩
      rw [(rename_fields v1 x _ x).1]
      exact congrArg Prod.snd hg.found
    · exact Or.inl hin

theorem walkStep_sprung (h : Fine v (o + w.refs) b r) (h0 : 0 < o droot) (hr : 0 < o r) (hw : WalkOk w)
    (hmem : ∀ d ∈ a.mem, d ∉ v.dents) (hsb : ∀ i ∈ a.inode, (a.inodes.node i).sb = (v.node w.iter).sb) :
    Ends (walkStep v w a) OfInode fun res => Sprung v res.2 := by
  rw [walkStep]
  cases hph : w.phase with
  | name => exact (nameStep_ends h h0 hr hw hph).imp (fun _ he => he) fun _ hres => .of_subset hres.2.1.dents
  | finish => exact (finishStep_ends h h0 hr hw hph).imp (fun _ he => he) fun _ hres => .of_subset hres.2.1.dents
  | disk prev comp =>
    refine (diskStep_ends h h0 hr hw hph hmem hsb).imp (fun _ he => he) fun res hres => ?_
    obtain ⟨-, -, find, v1, hasked, hshrunk, -⟩ := hres
    exact (Sprung.asked hasked (hw.disk prev comp hph).1).shrunk hshrunk.dents (.of_shrunk hshrunk)

theorem dref_dents (v : Vfs) (d : ℕ) : Ends (dref v d) (fun _ => True) fun v' => v'.dents = v.dents := by
  rw [dref]
  split_ifs
  · exact trivial
  · rfl

theorem drefField_dents (v : Vfs) (p : Option ℕ) : Ends (drefField v p) (fun _ => True) fun v' => v'.dents = v.dents := by
  cases p with
  | none => rfl
  | some d => exact dref_dents v d

theorem step_sprung {op : Op} (h : NameiOk s b r) (hl : legal s op) :
    Ends (step s op) (fun _ => True) fun s' => Sprung s.vfs s'.vfs := by
  cases op with
  | start t goal path nul =>
    have hstart : Ends (lookupStart s.vfs (s.task t) goal path nul) (fun _ => True) fun res => res.2.dents = s.vfs.dents :=
      (dref_dents _ _).bind fun _ hv => hv
    exact hstart.bind fun res hres => Sprung.of_subset hres.subset
  | walk t w a =>
    obtain ⟨h0, hr⟩ := rest_pos s t r
    have ⟨ht, hwalk, hmem, hsb⟩ := hl.1
    have hsprung := walkStep_sprung (h.walk_fine ht hwalk) (Nat.add_pos_left h0 _) (Nat.add_pos_left hr _)
      ((h.tasks t ht).walk w hwalk).2.2 hmem hsb
    have hstep : Ends (walkStep s.vfs w a) (fun _ => True) _ :=
      (walk_outcome h hl.1).with_value.imp (fun _ _ => trivial) fun _ hres => hres
    refine hstep.bind fun res hres => ?_
    obtain ⟨out, v1⟩ := res
    obtain ⟨⟨hfine1, hkept1, -, hbelow⟩, hval⟩ := hres
    have hsprung1 : Sprung s.vfs v1 := hsprung.value hval
    cases out with
    | going w' => exact hsprung1
    | returned find =>
      refine ((finish_ends hfine1 h0 hr hbelow).imp (fun _ _ => trivial) fun _ hres => hres).bind fun res hres => ?_
      exact hsprung1.shrunk hres.2.2.1 hres.2.1
  | kernelThread t new =>
    refine (drefField_dents _ _).bind fun v1 hv1 => (drefField_dents _ _).bind fun v2 hv2 => ?_
    exact Sprung.of_subset (hv2.trans hv1).subset
  | fault t w => exact Sprung.of_subset subset_rfl
  | overrun t w => exact trivial
  | release t =>
    obtain ⟨h0, hr⟩ := rest_pos s t r
    refine ((dputField_ends (h.idle_fine hl.1 hl.2) (Nat.add_pos_left h0 _) (Nat.add_pos_left hr _)).imp (fun _ _ => trivial)
      fun _ hv => hv).bind fun v1 hv1 => ?_
    refine ((dropField_ends hv1.1.1 h0 hr).imp (fun _ _ => trivial) fun _ hv => hv).bind fun v2 hv2 => ?_
    exact Sprung.of_subset (hv2.2.dents.trans hv1.1.2.dents)

/-- **The shape stays.** -/
theorem step_under {op : Op} (h : NameiOk s b r) (hu : Under s.vfs r) (hl : legal s op) (hst : step s op = .ok s') :
    NameiOk s' b r ∧ Kept s.vfs s'.vfs ∧ Under s'.vfs r := by
  obtain ⟨hok, hkept⟩ := (step_ok h hl).value hst
  exact ⟨hok, hkept, hu.sprung ((step_sprung h hl).value hst) hkept⟩

theorem under_reachable (h : system.Reach s) : ∃ b r, NameiOk s b r ∧ Under s.vfs r := by
  refine Lts.Reach.inv (M := system) (P := fun s => ∃ b r, NameiOk s b r ∧ Under s.vfs r) (fun s h0 => ?_)
    (fun s op s' ⟨b, r, hok, hu⟩ hst => ?_) h
  · obtain ⟨b, r, hok, hdents⟩ := mounted_ok h0
    refine ⟨b, r, hok, fun d hd hne => ?_⟩
    rw [hdents, Finset.mem_insert, Finset.mem_singleton] at hd
    obtain rfl : d = r := hd.resolve_right hne
    rw [hok.fine.mount.root.2.2]
    exact ⟨nofun, fun _ => rfl⟩
  · obtain ⟨h1, -, h2⟩ := step_under hok hu hst.1 hst.2
    exact ⟨b, r, h1, h2⟩

/-! ## The way down -/

/-- `ys` leads from d, or the root of the file system mounted on it, down to p -/
def Way (v : Vfs) (r : ℕ) : ℕ → List ℕ → ℕ → Prop
  | d, [], p => cover r d = p
  | d, y :: ys, p => (v.node y).parent = some (cover r d) ∧ Way v r y ys p

theorem cover_of_ne (h : d ≠ droot) : cover r d = d := if_neg h

theorem way_congr {d' : ℕ} {ys : List ℕ} (h : cover r d = cover r d') : Way v r d ys p ↔ Way v r d' ys p := by
  cases ys with
  | nil => rw [Way, Way, h]
  | cons y ys => rw [Way, Way, h]

/-- a dentry whose parent is a directory of the file system is not droot -/
theorem Fine.step_ne (h : Fine v o b r) (hy : (v.node y).parent = some (cover r d)) : y ≠ droot := by
  rintro rfl
  rw [h.tree.root.2] at hy
  exact h.cover_ne (Option.some.inj hy).symm

theorem above_step (hy : (v.node y).parent = some d) : above v y = d := by rw [above, hy]

theorem Way.below (h : Fine v o b r) {ys : List ℕ} (hway : Way v r d ys p) : Below v (cover r d) p := by
  induction ys generalizing d with
  | nil => exact ⟨0, hway.symm⟩
  | cons y ys ih =>
    obtain ⟨hy, hrest⟩ := hway
    have hbelow := ih hrest
    rw [cover_of_ne (h.step_ne hy)] at hbelow
    exact Below.trans ⟨1, above_step hy⟩ hbelow

/-- a dentry on the way exists -/
theorem Way.mem (h : Fine v o b r) (hp : p ∈ v.dents) {ys : List ℕ} (hway : Way v r d ys p) (hd : d ≠ droot) :
    d ∈ v.dents := by
  induction ys generalizing d with
  | nil =>
    have hdp : d = p := (cover_of_ne hd).symm.trans hway
    exact hdp ▸ hp
  | cons y ys ih =>
    obtain ⟨hy, hrest⟩ := hway
    have hne : y ≠ droot := h.step_ne hy
    rw [cover_of_ne hd] at hy
    exact (h.tree.parent y (ih hrest hne) hne (Finset.notMem_empty y) d hy).1

/-- **The way stays** as long as p does. -/
theorem Way.kept (h : Fine v o b r) (h' : Fine v' o' b r) (hk : Kept v v') (hp : p ∈ v.dents) (hp' : p ∈ v'.dents)
    {ys : List ℕ} (hway : Way v r d ys p) : Way v' r d ys p := by
  induction ys generalizing d with
  | nil => exact hway
  | cons y ys ih =>
    obtain ⟨hy, hrest⟩ := hway
    have hne : y ≠ droot := h.step_ne hy
    have hrest' := ih hrest
    exact ⟨(hk.same y (hrest.mem h hp hne) (hrest'.mem h' hp' hne)).1.trans hy, hrest'⟩

theorem Descends.last_mem {top : ℕ} {l : List ℕ} (h : Descends v top l d) (hl : l ≠ []) : d ∈ l := by
  induction l generalizing top with
  | nil => exact absurd rfl hl
  | cons y l ih =>
    cases l with
    | nil =>
      have hd : d = y := h.2
      exact hd ▸ List.mem_cons_self
    | cons z l => exact List.mem_cons_of_mem _ (ih h.2 (List.cons_ne_nil z l))

/-- droot is its own parent, so that the way up does not come to it from below and go on -/
theorem Descends.ne_droot (h : Fine v o b r) {top : ℕ} {l : List ℕ} (hdesc : Descends v top l d)
    (hhead : ∀ y ∈ l.head?, y ≠ droot) : ∀ y ∈ l, y ≠ droot := by
  induction l generalizing top with
  | nil => exact fun y hy => absurd hy List.not_mem_nil
  | cons x l ih =>
    have hx : x ≠ droot := hhead x rfl
    have hrest : ∀ y ∈ l, y ≠ droot := by
      refine ih hdesc.2 fun z hz he => ?_
      cases l with
      | nil => cases hz
      | cons z' l =>
        cases hz
        have hz : above v z = x := hdesc.2.1
        rw [he, above_droot h.tree] at hz
        exact hx hz.symm
    intro y hy
    rcases List.mem_cons.1 hy with rfl | hy
    · exact hx
    · exact hrest y hy

/-- the dentries that sys_getcwd lists are not droot -/
theorem listed_ne (h : Fine v o b r) {root : ℕ} {l : List ℕ} (hdesc : Descends v root l d) (hl : ∀ y ∈ l, y ≠ root) :
    ∀ y ∈ l, y ≠ droot := by
  refine hdesc.ne_droot h fun y hy he => ?_
  cases l with
  | nil => cases hy
  | cons x l =>
    cases hy
    have hroot : above v y = root := hdesc.1
    rw [he, above_droot h.tree] at hroot
    exact hl y List.mem_cons_self (he.trans hroot)

/-- the list of sys_getcwd without the root of the file system is the way down -/
theorem way_of_descends (h : Fine v o b r) (hu : Under v r) {root : ℕ} {l : List ℕ} (hdesc : Descends v root l p)
    (hin : ∀ y ∈ l, y ∈ v.dents) (hne : ∀ y ∈ l, y ≠ droot) (hp : p ≠ droot) :
    Way v r root (l.filter fun y => (v.node y).parent ≠ none) p := by
  induction l generalizing root with
  | nil =>
    have hroot : p = root := hdesc
    exact hroot ▸ cover_of_ne hp
  | cons y l ih =>
    obtain ⟨htop, hrest⟩ := hdesc
    have hrest' := ih hrest (fun z hz => hin z (List.mem_cons_of_mem _ hz)) fun z hz => hne z (List.mem_cons_of_mem _ hz)
    have hyne := hne y List.mem_cons_self
    obtain ⟨hunder, hnone⟩ := hu y (hin y List.mem_cons_self) hyne
    cases hparent : (v.node y).parent with
    | none =>
      obtain rfl : y = r := hnone hparent
      have hroot : root = droot := by
        rw [← htop, above, hparent, (h.mount.others y h.mount.root.1 hyne).2]
        show (v.super b).parent = droot
        rw [h.mount.super]
      rw [List.filter_cons_of_neg (by simp [hparent])]
      refine (way_congr ?_).1 hrest'
      rw [hroot, cover_of_ne hyne]
      rfl
    | some q =>
      have hq : q = root := by rw [← htop, above_step hparent]
      have hqne : root ≠ droot := fun he => hunder (by rw [hparent, hq, he])
      rw [List.filter_cons_of_pos (by simp [hparent])]
      exact ⟨by rw [hparent, hq, cover_of_ne hqne], hrest'⟩

/-! ## A lookup on the way -/

/-- components behind a slash each -/
def spell (comps : List (List Byte)) : List Byte := comps.flatMap fun comp => slash :: comp

/-- the rest of a path that leads from d to p, when the first n dentries of the way have been read off it -/
def Ahead (v : Vfs) (r p d n : ℕ) (rest : List Byte) : Prop :=
  ∃ ys comps, Way v r d ys p ∧ ys.length = comps.length + n ∧ (∀ comp ∈ comps, CompOk comp) ∧ spell comps = rest

/-- the walk w is on the way to p -/
def OnWay (v : Vfs) (r p : ℕ) (w : Walk) : Prop :=
  match w.phase with
  | .name => Ahead v r p w.iter 0 w.rest ∨ Ahead v r p w.iter 0 (slash :: w.rest)
  | .disk _ _ => Ahead v r p w.iter 1 w.rest
  | .finish => cover r w.iter = p

/-- **Nothing is in the way.** A directory is one. In front of its child on the way to p there is no child with a name that
begins with the component, and none behind it either if its own name does not begin so. The file system gives the inode of
the child on the way. -/
structure Clear (v : Vfs) (r p : ℕ) (w : Walk) (a : Answer) : Prop where
  isDir : w.phase = .name → w.rest.takeWhile (· ≠ slash) ≠ [] → (v.inodes.node (v.node w.iter).inode).isDir
  cached : w.phase = .name → ∀ comp, comp = w.rest.takeWhile (· ≠ slash) → comp ≠ [] → ∀ pre y post,
    (v.node (cover r w.iter)).children = pre ++ y :: post → Below v y p →
    (∀ c ∈ pre, ¬ comp <+: (v.node c).name) ∧ (comp <+: (v.node y).name ∨ ∀ c ∈ post, ¬ comp <+: (v.node c).name)
  disk : ∀ prev comp, w.phase = .disk prev comp → ∀ y ∈ (v.node w.iter).children, Below v y p →
    a.inode = some (v.node y).inode

theorem Ahead.kept (h : Fine v o b r) (h' : Fine v' o' b r) (hk : Kept v v') (hp : p ∈ v.dents) (hp' : p ∈ v'.dents)
    {rest : List Byte} (ha : Ahead v r p d n rest) : Ahead v' r p d n rest := by
  obtain ⟨ys, comps, hway, hrest⟩ := ha
  exact ⟨ys, comps, hway.kept h h' hk hp hp', hrest⟩

theorem OnWay.kept (h : Fine v o b r) (h' : Fine v' o' b r) (hk : Kept v v') (hp : p ∈ v.dents) (hp' : p ∈ v'.dents)
    (hw : OnWay v r p w) : OnWay v' r p w := by
  rw [OnWay] at hw ⊢
  cases hph : w.phase with
  | name =>
    rw [hph] at hw
    exact hw.imp (fun ha => ha.kept h h' hk hp hp') fun ha => ha.kept h h' hk hp hp'
  | disk prev comp =>
    rw [hph] at hw
    exact Ahead.kept h h' hk hp hp' hw
  | finish =>
    rw [hph] at hw
    exact hw

theorem Ahead.skip {rest : List Byte} (ha : Ahead v r p d 0 rest) (w : Walk) :
    OnWay v r p ({ w with iter := d }.skip rest) := by
  rw [Walk.skip]
  split_ifs with hrest
  · obtain ⟨ys, comps, hway, hlen, -, hspell⟩ := ha
    have hcomps : comps = [] := by
      cases comps with
      | nil => rfl
      | cons comp comps =>
        have hnil := hspell.trans hrest
        cases hnil
    rw [hcomps] at hlen
    rw [List.length_eq_zero_iff.1 hlen] at hway
    exact hway
  · exact Or.inl ha

theorem takeWhile_clean {comp : List Byte} (hcomp : CompOk comp) (comps : List (List Byte)) :
    (comp ++ spell comps).takeWhile (· ≠ slash) = comp ∧ (comp ++ spell comps).dropWhile (· ≠ slash) = spell comps := by
  have hclean : ∀ c ∈ comp, decide (c ≠ slash) = true := fun c hc => by simpa using (hcomp.clean c hc).2
  have hspell : (spell comps).takeWhile (· ≠ slash) = [] ∧ (spell comps).dropWhile (· ≠ slash) = spell comps := by
    cases comps with
    | nil => exact ⟨rfl, rfl⟩
    | cons comp' comps => exact ⟨List.takeWhile_cons_of_neg (by simp), List.dropWhile_cons_of_neg (by simp)⟩
  rw [List.takeWhile_append_of_pos hclean, List.dropWhile_append_of_pos hclean, hspell.1, hspell.2, List.append_nil]
  exact ⟨rfl, rfl⟩

/-- the comparison of find_entry -/
theorem begins_iff {name comp : List Byte} (hname : ∀ c ∈ name, c ≠ 0) (hcomp : ∀ c ∈ comp, c ≠ 0) :
    strncmp (cstr name) (cstr comp) comp.length = 0 ↔ comp <+: name := by
  rw [strncmp_eq_zero, strn_cstr name hname, strn_cstr comp hcomp, List.take_length, List.prefix_iff_eq_take, eq_comm]

theorem Fine.child_of (h : Fine v o b r) (hy : (v.node y).parent = some (cover r d)) (hin : y ∈ v.dents) :
    y ∈ (v.node (cover r d)).children :=
  (h.tree.parent y hin (h.step_ne hy) (Finset.notMem_empty y) _ hy).2

/-- find_entry finds the dentry on the way, or nothing -/
theorem findCached_way (h : Fine v o b r) {entry : ℕ} {comp : List Byte} (hd : d ∈ v.dents) (hcomp : ∀ c ∈ comp, c ≠ 0)
    (hy : y ∈ (v.node d).children) (hclear : ∀ pre post, (v.node d).children = pre ++ y :: post →
      (∀ c ∈ pre, ¬ comp <+: (v.node c).name) ∧ (comp <+: (v.node y).name ∨ ∀ c ∈ post, ¬ comp <+: (v.node c).name))
    (hf : findCached v d comp = some entry) : entry = y := by
  obtain ⟨pre, post, hsplit⟩ := List.append_of_mem hy
  obtain ⟨hpre, hpost⟩ := hclear pre post hsplit
  have hmatch : ∀ c ∈ (v.node d).children,
      strncmp (cstr (v.node c).name) (cstr comp) comp.length = 0 ↔ comp <+: (v.node c).name := fun c hc => by
    obtain ⟨h1, h2, -, h4⟩ := h.tree.child d hd c hc
    have hnamed := (h.names c h1 h2 (by rw [h4]; exact nofun)).1
    exact begins_iff (fun x hx => (hnamed.clean x hx).1) hcomp
  have hnone : ∀ l : List ℕ, (∀ c ∈ l, c ∈ (v.node d).children ∧ ¬ comp <+: (v.node c).name) →
      l.find? (fun c => strncmp (cstr (v.node c).name) (cstr comp) comp.length = 0) = none := fun l hl => by
    refine List.find?_eq_none.2 fun c hc => ?_
    rw [decide_eq_true_eq, hmatch c (hl c hc).1]
    exact (hl c hc).2
  have hpre' := hnone pre fun c hc => ⟨by rw [hsplit]; exact List.mem_append_left _ hc, hpre c hc⟩
  rw [findCached, hsplit, List.find?_append, hpre', Option.none_or] at hf
  by_cases hbegins : comp <+: (v.node y).name
  · rw [List.find?_cons_of_pos (by rw [decide_eq_true_eq]; exact (hmatch y hy).2 hbegins)] at hf
    exact (Option.some.inj hf).symm
  · have hpost' := hnone post fun c hc => by
      refine ⟨?_, hpost.resolve_left hbegins c hc⟩
      rw [hsplit]
      exact List.mem_append_right _ (List.mem_cons_of_mem _ hc)
    rw [List.find?_cons_of_neg (by rw [decide_eq_true_eq, hmatch y hy]; exact hbegins), hpost'] at hf
    cases hf

/-- dget finds the dentry that is there -/
theorem dget_hit {held : ℕ → ℕ} {parent mem : Option ℕ} (h : Tree v held ∅) (hy : y ∈ v.dents) (hne : y ≠ droot)
    (hkey : v.key y = (i, parent)) : Ends (dget v i parent mem) (fun _ => True) fun res => res.1 = some y := by
  rw [dget, dcache_null]
  cases hf : probe v i parent with
  | none => exact absurd hkey (probe_none h hf y hy hne)
  | some d =>
    obtain ⟨hd, hdne, hdkey⟩ := probe_some h hf
    have hdy : d = y := h.unique d hd y hy hdne hne (hdkey.trans hkey.symm)
    exact (Ends.any (dref v d)).bind fun _ _ => congrArg some hdy

/-- **A component.** The walk goes on on the way. -/
theorem nameStep_way (h : Fine v (o + w.refs) b r) (h0 : 0 < o droot) (hr : 0 < o r) (hp : p ∈ v.dents)
    (hph : w.phase = .name) (hway : OnWay v r p w) (hc : Clear v r p w a) :
    Ends (nameStep v w) (fun _ => True) fun res => ∃ w', res.1 = .going w' ∧ OnWay v r p w' := by
  have hrefs : w.refs = one w.iter := by
    rw [Walk.refs, hph]
    exact add_zero _
  have hiter : w.iter ∈ v.dents := h.live (by simp [hrefs, one])
  rw [OnWay, hph] at hway
  rw [nameStep]
  rcases hway with hway | hway
  · obtain ⟨ys, comps, hys, hlen, hcomps, hspell⟩ := hway
    cases comps with
    | nil =>
      have hrest : w.rest = [] := hspell.symm
      rw [hrest]
      exact ⟨_, rfl, Ahead.skip ⟨ys, [], hys, hlen, hcomps, rfl⟩ w⟩
    | cons comp comps =>
      have hrest : w.rest = slash :: (comp ++ spell comps) := hspell.symm
      rw [hrest, if_pos (List.takeWhile_cons_of_neg (by simp)), List.dropWhile_cons_of_neg (by simp)]
      refine ⟨_, rfl, ?_⟩
      rw [OnWay]
      dsimp only
      rw [hph]
      exact Or.inr ⟨ys, comp :: comps, hys, hlen, hcomps, rfl⟩
  · obtain ⟨ys, comps, hys, hlen, hcomps, hspell⟩ := hway
    cases comps with
    | nil => cases hspell
    | cons comp comps =>
      have hrest : w.rest = comp ++ spell comps := (List.cons.inj hspell).2.symm
      have hcomp := hcomps comp List.mem_cons_self
      obtain ⟨htake, hdrop⟩ := takeWhile_clean hcomp comps
      rw [← hrest] at htake hdrop
      rw [htake, hdrop, if_neg hcomp.ne, if_neg hcomp.dot, if_neg hcomp.dots,
        if_pos (hc.isDir hph (by rw [htake]; exact hcomp.ne))]
      cases ys with
      | nil => simp at hlen
      | cons y ys =>
        obtain ⟨hy, hys'⟩ := hys
        have hne : y ≠ droot := h.step_ne hy
        have hbelow : Below v y p := cover_of_ne hne ▸ hys'.below h
        have hlen' : ys.length = comps.length + 0 := by simpa using hlen
        have hahead : Ahead v r p y 0 (spell comps) :=
          ⟨ys, comps, hys', hlen', fun c hcs => hcomps c (List.mem_cons_of_mem _ hcs), rfl⟩
        rw [hrefs] at h
        refine ((findEntry_ends h (Nat.add_pos_left h0 _) (Nat.add_pos_left hr _) hiter comp).imp (fun _ _ => trivial)
          fun _ hres => hres).bind fun res hres => ?_
        obtain ⟨entry, v1⟩ := res
        cases entry with
        | cached entry =>
          have hentry : entry = y := findCached_way h (h.cover_mem hiter) (fun c hcc => (hcomp.clean c hcc).1)
            (h.child_of hy (hys'.mem h hp hne))
            (fun pre post hsplit => hc.cached hph comp htake.symm hcomp.ne pre y post hsplit hbelow) hres.2.1
          exact (Ends.any _).bind fun _ _ => ⟨_, rfl, hentry ▸ hahead.skip w⟩
        | disk dir =>
          have hdir : dir = cover r w.iter := hres.2.2.1
          refine ⟨_, rfl, ?_⟩
          show Ahead v r p dir 1 (spell comps)
          rw [hdir]
          exact ⟨y :: ys, comps, (way_congr (cover_of_ne h.cover_ne)).2 ⟨hy, hys'⟩, by rw [List.length_cons, hlen'],
            fun c hcs => hcomps c (List.mem_cons_of_mem _ hcs), rfl⟩

/-- **The file system answers.** -/
theorem diskStep_way {prev : ℕ} {comp : List Byte} (h : Fine v (o + w.refs) b r) (hp : p ∈ v.dents) (hw : WalkOk w)
    (hph : w.phase = .disk prev comp) (hway : OnWay v r p w) (hc : Clear v r p w a) :
    Ends (diskStep v w prev comp a) (fun _ => True) fun res => ∃ w', res.1 = .going w' ∧ OnWay v r p w' := by
  have hne : w.iter ≠ droot := (hw.disk prev comp hph).1
  rw [OnWay, hph] at hway
  obtain ⟨ys, comps, hys, hlen, hcomps, hspell⟩ := hway
  cases ys with
  | nil => simp at hlen
  | cons y ys =>
    obtain ⟨hy, hys'⟩ := hys
    have hyne : y ≠ droot := h.step_ne hy
    have hyin := hys'.mem h hp hyne
    have hbelow : Below v y p := cover_of_ne hyne ▸ hys'.below h
    have hchild := h.child_of hy hyin
    rw [cover_of_ne hne] at hy hchild
    have hanswer := hc.disk prev comp hph y hchild hbelow
    have hfound : Ends (lookupDisk v w.iter comp a) (fun _ => True) fun res => res.1 = some y := by
      rw [lookupDisk, hanswer]
      have hkey : ({ v with inodes := a.inodes } : Vfs).key y = ((v.node y).inode, some w.iter) := by
        rw [← hy]
        rfl
      refine (dget_hit (h.tree.inodes a.inodes) hyin hyne hkey).bind fun res hres => ?_
      obtain ⟨find, v1⟩ := res
      cases hres
      exact rfl
    rw [diskStep]
    refine hfound.bind fun res hres => ?_
    obtain ⟨find, v1⟩ := res
    cases hres
    refine (Ends.any _).bind fun _ _ => (Ends.any _).bind fun _ _ => ⟨_, rfl, ?_⟩
    refine Ahead.skip ⟨ys, comps, hys', ?_, hcomps, hspell⟩ w
    rw [List.length_cons] at hlen
    omega

/-- **Behind the path.** lookup returns p, or crosses the mount to it. -/
theorem finishStep_way (h : Fine v (o + w.refs) b r) (hph : w.phase = .finish) (hway : OnWay v r p w) :
    Ends (finishStep v w) (fun _ => True) fun res =>
      (∃ w', res.1 = .going w' ∧ OnWay v r p w') ∨ res.1 = .returned (some p) := by
  have hiter : w.iter ∈ v.dents := h.live (by simp [Walk.refs, one])
  rw [OnWay, hph] at hway
  change cover r w.iter = p at hway
  rw [finishStep]
  by_cases hroot : w.iter = droot
  · rw [hroot, h.mount.covers]
    dsimp only
    rw [h.mount.super]
    refine (Ends.any _).bind fun _ _ => (Ends.any _).bind fun _ _ => Or.inl ⟨_, rfl, ?_⟩
    rw [OnWay]
    dsimp only
    rw [hph]
    show cover r r = p
    rw [cover_of_ne h.mount.root.2.1, ← hway, hroot]
    rfl
  · rw [(h.mount.others w.iter hiter hroot).1]
    rw [cover_of_ne hroot] at hway
    exact Or.inr (congrArg (fun d => Outcome.returned (some d)) hway)

/-- **One step on the way.** The walk is on the way to p afterwards, or lookup returns p. -/
theorem walk_way (h : NameiOk s b r) (hl : Meets s k w a) (hpwd : (s.task k).pwd = some p)
    (hway : OnWay s.vfs r p w) (hc : Clear s.vfs r p w a) {out : Outcome} (hres : walkStep s.vfs w a = .ok (out, v')) :
    (∃ w', out = .going w' ∧ OnWay v' r p w') ∨ out = .returned (some p) := by
  have hk : k ∈ s.tasks := hl.1
  have hwalk : (s.task k).walk = some w := hl.2.1
  obtain ⟨h0, hr⟩ := rest_pos s k r
  have hfine := h.walk_fine hk hwalk
  have hin : p ∈ s.vfs.dents := task_live h.fine hk (pwd_refs hpwd)
  have hwok : WalkOk w := ((h.tasks k hk).walk w hwalk).2.2
  have hends : Ends (walkStep s.vfs w a) (fun _ => True) fun res =>
      (∃ w', res.1 = .going w' ∧ OnWay s.vfs r p w') ∨ res.1 = .returned (some p) := by
    rw [walkStep]
    cases hph : w.phase with
    | name =>
      exact (nameStep_way hfine (Nat.add_pos_left h0 _) (Nat.add_pos_left hr _) hin hph hway hc).imp (fun _ he => he)
        fun _ hres => Or.inl hres
    | disk prev comp => exact (diskStep_way hfine hin hwok hph hway hc).imp (fun _ he => he) fun _ hres => Or.inl hres
    | finish => exact finishStep_way hfine hph hway
  obtain ⟨hfine', hkept, -, -⟩ := (walk_outcome h hl).value hres
  have hin' : p ∈ v'.dents := hfine'.live (by
    simp only [Pi.add_apply, owed]
    rw [if_pos hpwd]
    omega)
  refine (hends.value hres).imp_left fun hgoing => ?_
  obtain ⟨w', hw', hon⟩ := hgoing
  exact ⟨w', hw', hon.kept h.fine hfine' hkept hin hin'⟩

/-! ## Whole lookups -/

/-- task k has this root and this pwd -/
def Stays (k : ℕ) (root : Option ℕ) (p : ℕ) (s : Sys) : Prop :=
  k ∈ s.tasks ∧ (s.task k).root = root ∧ (s.task k).pwd = some p

/-- in a step of its own, task k finds nothing in the way to p, and lookup does not return yet -/
def Going (k r p : ℕ) (s : Sys) (op : Op) : Prop :=
  ∀ w a, op = .walk k w a → Clear s.vfs r p w a ∧ ∀ find v, walkStep s.vfs w a ≠ .ok (.returned find, v)

/-- task k has n steps at most of its lookup before it, on the way to its pwd -/
structure OnTrack (k b r p : ℕ) (root : Option ℕ) (goal : Goal) (s : Sys) (n : ℕ) : Prop where
  ok : NameiOk s b r
  stays : Stays k root p s
  walk : ∃ w, (s.task k).walk = some w ∧ w.goal = goal ∧ w.nul = true ∧ w.measure = n ∧ OnWay s.vfs r p w

variable {root : Option ℕ}

theorem Stays.mem (h : NameiOk s b r) (hs : Stays k root p s) : p ∈ s.vfs.dents := task_live h.fine hs.1 (pwd_refs hs.2.2)

theorem OnTrack.other {op : Op} (h : OnTrack k b r p root goal s n) (hl : legal s op) (hst : step s op = .ok s')
    (hne : k ≠ op.task) : OnTrack k b r p root goal s' n := by
  obtain ⟨hok, hstays, w, hw, hgoal, hnul, hn, hway⟩ := h
  obtain ⟨hok', hkept⟩ := (step_ok hok hl).value hst
  obtain ⟨hk', htask⟩ := step_other hl hst hstays.1 hne
  have hstays' : Stays k root p s' := by
    rw [Stays, htask]
    exact ⟨hk', hstays.2⟩
  refine ⟨hok', hstays', w, htask ▸ hw, hgoal, hnul, hn, ?_⟩
  exact hway.kept hok.fine hok'.fine hkept (hstays.mem hok) (hstays'.mem hok')

theorem OnTrack.own {op : Op} (h : OnTrack k b r p root goal s n) (hl : legal s op) (hst : step s op = .ok s')
    (hop : op.task = k) (hg : Going k r p s op) : ∃ m < n, OnTrack k b r p root goal s' m := by
  obtain ⟨hok, hstays, w, hw, hgoal, hnul, hn, hway⟩ := h
  obtain ⟨a, rfl⟩ := own_walk hl hop hw hnul (step_fits hst)
  obtain ⟨hclear, hgoing⟩ := hg w a rfl
  have hok' := ((step_ok hok hl).value hst).1
  obtain ⟨out, v, hres, hgoes⟩ := walk_eq hst
  rcases walk_way hok hl.1 hstays.2.2 hway hclear hres with ⟨w', rfl, hway'⟩ | rfl
  · obtain ⟨htasks, hvfs, htask⟩ := hgoes w' rfl
    obtain ⟨-, -, hstepped, -⟩ := (walk_outcome hok hl.1).value hres
    obtain ⟨hgoal', hsame, hmeasure, -⟩ := hstepped.goes w' rfl
    refine ⟨_, hn ▸ hmeasure, hok', ?_, w', by rw [htask], hgoal'.trans hgoal, hsame.2.trans hnul, rfl,
      hvfs.symm ▸ hway'⟩
    rw [Stays, htask, htasks]
    exact hstays
  · exact absurd hres (hgoing _ _)

/-- **A run of a lookup** keeps to the way, and has as many steps of the task as the measure says at most. -/
theorem OnTrack.run {ops : List Op} (h : OnTrack k b r p root goal s n) (hrun : (system.only (Going k r p)).Run s ops s') :
    ∃ m, OnTrack k b r p root goal s' m ∧ m + (ops.filter fun op => op.task = k).length ≤ n := by
  refine Lts.Run.ranked (fun op => op.task = k) (OnTrack k b r p root goal) ?_ ?_ hrun h
  · intro u op u' m hst hop hm
    exact hm.other hst.2.1 hst.2.2 fun he => by simp [he] at hop
  · intro u op u' m hst hop hm
    exact hm.own hst.2.1 hst.2.2 (by simpa using hop) hst.1

/-- a path that leads from the directory d down to p -/
def Leads (v : Vfs) (r p d : ℕ) (path : List Byte) : Prop :=
  ∃ rest, path = slash :: rest ∧ (Ahead v r p d 0 rest ∨ Ahead v r p d 0 (slash :: rest))

theorem stays_first {ops : List Op} (hrun : (system.only fun u _ => Stays k root p u).Run s ops s') (hend : Stays k root p s') :
    Stays k root p s := by
  cases hrun with
  | nil => exact hend
  | cons hst _ => exact hst.1

theorem Leads.run {path : List Byte} {ops : List Op} (hok : NameiOk s b r)
    (hrun : (system.only fun u _ => Stays k root p u).Run s ops s') (hend : Stays k root p s') (h : Leads s.vfs r p d path) :
    NameiOk s' b r ∧ Leads s'.vfs r p d path := by
  induction hrun with
  | nil => exact ⟨hok, h⟩
  | cons hst hrun ih =>
    obtain ⟨hok', hkept⟩ := (step_ok hok hst.2.1).value hst.2.2
    obtain ⟨rest, hpath, hahead⟩ := h
    have hp := hst.1.mem hok
    have hp' := (stays_first hrun hend).mem hok'
    exact ih hok' hend ⟨rest, hpath, hahead.imp (fun ha => ha.kept hok.fine hok'.fine hkept hp hp')
      fun ha => ha.kept hok.fine hok'.fine hkept hp hp'⟩

/-- a lookup that has begun is on the way -/
theorem Leads.start {path : List Byte} (hok : NameiOk s b r) (hs : Stays k (some d) p s) (h : Leads s.vfs r p d path)
    (hgoal : goal ≠ .chroot) (hst : system.step s (.start k goal path true) s') :
    OnTrack k b r p (some d) goal s' (2 * path.length + 2) := by
  obtain ⟨rest, rfl, hahead⟩ := h
  obtain ⟨hok', hkept⟩ := (step_ok hok hst.1).value hst.2
  obtain ⟨htasks, htask⟩ := start_eq hst.2
  have hbegins : begins (s.task k) goal (slash :: rest) true = ⟨goal, some d, d, rest, .name, true⟩ := by
    rw [begins, if_pos rfl, hs.2.1]
    cases goal with
    | chroot => exact absurd rfl hgoal
    | open_ | chdir => exact congrArg (fun root => Walk.mk _ root d rest .name true) hs.2.1
  rw [hbegins] at htask
  have hs' : Stays k (some d) p s' := by
    rw [Stays, htask, htasks]
    exact hs
  refine ⟨hok', hs', ⟨goal, some d, d, rest, .name, true⟩, by rw [htask], rfl, rfl, ?_, ?_⟩
  · rw [List.length_cons]
    rfl
  · have hon : OnWay s.vfs r p ⟨goal, some d, d, rest, .name, true⟩ := hahead
    exact hon.kept hok.fine hok'.fine hkept (hs.mem hok) (hs'.mem hok')

/-- the caller of a lookup that returned the pwd keeps its root and its pwd -/
theorem finish_back (v : Vfs) (ht : t.pwd = some p) (hgoal : goal ≠ .chroot) :
    Ends (finish v t goal (some p)) (fun _ => True) fun res => res.2.1.root = t.root ∧ res.2.1.pwd = some p := by
  cases goal with
  | chroot => exact absurd rfl hgoal
  | open_ => exact (Ends.any _).bind fun _ _ => ⟨rfl, ht⟩
  | chdir =>
    refine (Ends.any _).bind fun ok _ => ?_
    show Ends (if _ then _ else _) _ _
    split_ifs
    · exact (Ends.any _).bind fun _ _ => ⟨rfl, rfl⟩
    · exact (Ends.any _).bind fun _ _ => ⟨rfl, ht⟩

theorem returned_back (hs : Stays k root p s) (hgoal : w.goal ≠ .chroot) (hst : step s (.walk k w a) = .ok s')
    (hres : walkStep s.vfs w a = .ok (.returned (some p), v)) : Stays k root p s' := by
  have hends : Ends (finish v (s.task k) w.goal (some p) >>= fun res =>
      Pure.pure ({ s with vfs := res.2.2 }.setTask k { res.2.1 with walk := none })) (fun _ : Bug => True)
      (Stays k root p) := by
    refine (finish_back v hs.2.2 hgoal).bind fun res hfields => ?_
    have htask : ({ s with vfs := res.2.2 }.setTask k { res.2.1 with walk := none }).task k = { res.2.1 with walk := none } :=
      Function.update_self ..
    show Stays k root p _
    rw [Stays, htask]
    exact ⟨hs.1, hfields.1.trans hs.2.1, hfields.2⟩
  refine hends.value ?_
  rw [← hst]
  show _ = walk s k w a
  rw [walk, hres]
  rfl

/-! ## The string and the buffer -/

/-- the path of a directory, of which sys_getcwd lists the dentries -/
def fullPath (v : Vfs) (names : List ℕ) : List Byte := if printed v names = [] then [slash] else printed v names

/-- the string at p -/
def Holds (p : Ptr) (str : List Byte) : Prop := (∀ c ∈ str, c ≠ 0) ∧ ∀ j ≤ str.length, p j = cstr str j

theorem Descends.above_mem {top : ℕ} {l : List ℕ} (h : Descends v top l d) (hl : l ≠ []) : above v d ∈ top :: l := by
  induction l generalizing top with
  | nil => exact absurd rfl hl
  | cons y l ih =>
    obtain ⟨hy, hrest⟩ := h
    cases l with
    | nil =>
      have hd : d = y := hrest
      rw [hd, hy]
      exact List.mem_cons_self
    | cons z l => exact List.mem_cons_of_mem _ (ih hrest (List.cons_ne_nil z l))

theorem OneMount.above_root (h : OneMount v b r) : above v r = droot := by
  rw [above, h.root.2.2, (h.others r h.root.1 h.root.2.1).2]
  show (v.super b).parent = droot
  rw [h.super]

/-- **The list of the root directory.** It is empty, or it is the root of the mounted file system. -/
theorem root_listed (h : Fine v o b r) (hu : Under v r) {root : ℕ} {l : List ℕ} (hdesc : Descends v root l p)
    (hl : ∀ y ∈ l, y ∈ v.dents ∧ y ≠ root) (hsame : printed v l = [] ∨ cover r p = cover r root) :
    (l = [] ∧ p = root) ∨ (l = [r] ∧ p = r ∧ root = droot) := by
  have hne := listed_ne h hdesc fun y hy => (hl y hy).2
  have hroot := h.mount.above_root
  cases l with
  | nil => exact Or.inl ⟨rfl, hdesc⟩
  | cons y l =>
    obtain ⟨hy, hrest⟩ := hdesc
    refine Or.inr ?_
    rcases hsame with hnil | hcover
    · rw [printed_nil_iff] at hnil
      have hr : ∀ z ∈ y :: l, z = r := fun z hz => (hu z (hl z hz).1 (hne z hz)).2 (hnil z hz)
      obtain rfl : y = r := hr y List.mem_cons_self
      cases l with
      | nil =>
        have hp : p = y := hrest
        exact ⟨rfl, hp, hy.symm.trans hroot⟩
      | cons z l =>
        obtain rfl : z = y := hr z (List.mem_cons_of_mem _ List.mem_cons_self)
        have hz : above v z = z := hrest.1
        exact absurd (hz.symm.trans hroot) h.mount.root.2.1
    · have hp := Descends.last_mem (l := y :: l) ⟨hy, hrest⟩ (List.cons_ne_nil y l)
      rw [cover_of_ne (hne p hp)] at hcover
      have hdroot : root = droot := by
        by_contra hno
        rw [cover_of_ne hno] at hcover
        exact (hl p hp).2 hcover
      have hpr : p = r := by
        rw [hcover, hdroot]
        rfl
      refine ⟨?_, hpr, hdroot⟩
      cases l with
      | nil =>
        have hpy : p = y := hrest
        rw [← hpy, hpr]
      | cons z l =>
        have habove := hrest.above_mem (List.cons_ne_nil z l)
        rw [hpr, hroot] at habove
        exact absurd rfl (hne droot habove)

theorem nothing_printed (h : Fine v o b r) (hu : Under v r) {root : ℕ} {l : List ℕ} (hdesc : Descends v root l p)
    (hl : ∀ y ∈ l, y ∈ v.dents ∧ y ≠ root) : printed v l = [] ↔ cover r p = cover r root := by
  constructor
  · intro hnil
    rcases root_listed h hu hdesc hl (Or.inl hnil) with ⟨-, hp⟩ | ⟨-, hp, hroot⟩
    · rw [hp]
    · rw [hp, hroot, cover_of_ne h.mount.root.2.1]
      rfl
  · intro hcover
    rw [printed_nil_iff]
    rcases root_listed h hu hdesc hl (Or.inr hcover) with ⟨hnil, -⟩ | ⟨hlist, -, -⟩
    · rw [hnil]
      exact fun y hy => absurd hy List.not_mem_nil
    · rw [hlist]
      intro y hy
      rw [List.mem_singleton.1 hy]
      exact h.mount.root.2.2

theorem printed_spell (v : Vfs) (l : List ℕ) :
    printed v l = spell ((l.filter fun y => (v.node y).parent ≠ none).map fun y => (v.node y).name) := by
  induction l with
  | nil => rfl
  | cons y l ih =>
    rw [printed_cons, ih]
    by_cases hp : (v.node y).parent = none
    · rw [if_pos hp, List.filter_cons_of_neg (by simp [hp]), List.nil_append]
    · rw [if_neg hp, List.filter_cons_of_pos (by simp [hp]), List.map_cons]
      rfl

theorem fullPath_leads (h : Fine v o b r) (hu : Under v r) {root : ℕ} {l : List ℕ} (hdesc : Descends v root l p)
    (hl : ∀ y ∈ l, y ∈ v.dents ∧ y ≠ root) (hp : p ≠ droot) : Leads v r p root (fullPath v l) := by
  have hne := listed_ne h hdesc fun y hy => (hl y hy).2
  have hway := way_of_descends h hu hdesc (fun y hy => (hl y hy).1) hne hp
  have hahead : Ahead v r p root 0 (printed v l) := by
    refine ⟨_, _, hway, (List.length_map _).symm, fun comp hcomp => ?_, (printed_spell v l).symm⟩
    obtain ⟨y, hy, rfl⟩ := List.mem_map.1 hcomp
    obtain ⟨hyl, hparent⟩ := List.mem_filter.1 hy
    exact (h.names y (hl y hyl).1 (hne y hyl) (by simpa using hparent)).1
  rw [fullPath]
  by_cases hnil : printed v l = []
  · rw [if_pos hnil]
    exact ⟨[], rfl, Or.inl (hnil ▸ hahead)⟩
  · rw [if_neg hnil]
    obtain ⟨ys, comps, hys, hlen, hcomps, hspell⟩ := hahead
    cases comps with
    | nil => exact absurd hspell.symm hnil
    | cons comp comps => exact ⟨comp ++ spell comps, hspell.symm, Or.inr ⟨ys, comp :: comps, hys, hlen, hcomps, rfl⟩⟩

theorem printed_clean (h : AllNamed v l) : ∀ c ∈ printed v l, c ≠ 0 := by
  intro c hc
  obtain ⟨y, hy, hcy⟩ := List.mem_flatMap.1 hc
  split_ifs at hcy with hp
  · exact absurd hcy List.not_mem_nil
  · rcases List.mem_cons.1 hcy with rfl | hcy
    · decide
    · exact (((h y hy) hp).1.clean c hcy).1

/-- what sys_getcwd lists for task t -/
structure Listed (mem : ℕ → Bool) (v : Vfs) (r : ℕ) (t : Task) (l : List ℕ) : Prop where
  climb : climb mem (v.dents.card + 1) v t.root t.pwd [] = .ok (if ∀ n < l.length, mem n = true then some l else none)
  named : AllNamed v l
  nothing : printed v l = [] ↔ t.pwd.map (cover r) = t.root.map (cover r)
  short : printed v l = [] → l.length = if t.pwd = t.root then 0 else 1
  between : ∀ d p, t.root = some d → t.pwd = some p → Descends v d l p ∧ (∀ y ∈ l, y ≠ d) ∧
    (p ≠ droot → Leads v r p d (fullPath v l))

theorem listed (h : NameiOk s b r) (hu : Under s.vfs r) (hk : k ∈ s.tasks) (mem : ℕ → Bool) :
    ∃ l, Listed mem s.vfs r (s.task k) l := by
  have ht := h.tasks k hk
  cases hroot : (s.task k).root with
  | none =>
    have hpwd := ht.set.1 hroot
    refine ⟨[], ?_, fun y hy => absurd hy List.not_mem_nil, ?_, fun _ => ?_, fun d p hd => ?_⟩
    · have hall : ∀ n < ([] : List ℕ).length, mem n = true := fun n hn => absurd hn (Nat.not_lt_zero n)
      rw [hroot, hpwd, if_pos hall]
      rfl
    · rw [hroot, hpwd]
      exact iff_of_true rfl rfl
    · rw [hroot, hpwd, if_pos rfl]
      rfl
    · exact nomatch hroot.symm.trans hd
  | some d =>
    cases hpwd : (s.task k).pwd with
    | none => exact nomatch hroot.symm.trans (ht.set.2 hpwd)
    | some p =>
      have hbelow := ht.pwd p hpwd
      rw [hroot, Option.getD_some] at hbelow
      obtain ⟨l, hdesc, hl, hclimb⟩ := climb_below h.fine mem (task_live h.fine hk (pwd_refs hpwd)) hbelow
      refine ⟨l, ?_, fun y hy => ?_, ?_, fun hnil => ?_, fun d' p' hd' hp' => ?_⟩
      · rw [hroot, hpwd, hclimb]
      · exact h.fine.names y (hl y hy).1 (listed_ne h.fine hdesc (fun y hy => (hl y hy).2) y hy)
      · rw [hroot, hpwd, nothing_printed h.fine hu hdesc hl]
        simp
      · rw [hroot, hpwd]
        rcases root_listed h.fine hu hdesc hl (Or.inl hnil) with ⟨hlist, hp⟩ | ⟨hlist, hp, hd⟩
        · rw [hlist, if_pos (congrArg some hp)]
          rfl
        · have hne : ¬ some p = some d := by
            rw [hp, hd, Option.some_inj]
            exact h.fine.mount.root.2.1
          rw [hlist, if_neg hne]
          rfl
      · obtain rfl : d = d' := Option.some.inj (hroot.symm.trans hd')
        obtain rfl : p = p' := Option.some.inj (hpwd.symm.trans hp')
        exact ⟨hdesc, fun y hy => (hl y hy).2, fun hne => fullPath_leads h.fine hu hdesc hl hne⟩

theorem fill_nothing {len : ℕ} {buf : Buf} (h : printed v l = []) : fill v len l 0 0 buf = (1, (buf.put 0 slash).put 1 0) := by
  induction l with
  | nil => rfl
  | cons y l ih =>
    rw [printed_nil_iff] at h
    rw [fill, if_pos (h y List.mem_cons_self)]
    exact ih ((printed_nil_iff v l).2 fun z hz => h z (List.mem_cons_of_mem _ hz))

theorem sysGetcwd_eq {mem : ℕ → Bool} {len : ℕ} (hl : Listed mem v r t l) (hlen : 1 ≤ len) (buf : Ptr) :
    sysGetcwd mem v t buf len = .ok (if ∀ n < l.length, mem n = true then fill v len l 0 0 (Buf.put ⟨buf, 0⟩ 0 0)
      else (-eNomem, ⟨buf, 0⟩)) := by
  rw [sysGetcwd, hl.climb]
  by_cases hmem : ∀ n < l.length, mem n = true
  · rw [if_pos hmem, if_pos hmem]
    show (if len = 0 then _ else _) = _
    rw [if_neg (by omega)]
    rfl
  · rw [if_neg hmem, if_neg hmem]
    rfl

/-- **How far sys_getcwd writes.** -/
theorem getcwd_top {mem : ℕ → Bool} {len : ℕ} {ret : ℤ} {buf : Ptr} {B : Buf} (hl : Listed mem v r t l) (hlen : 1 ≤ len)
    (hB : sysGetcwd mem v t buf len = .ok (ret, B)) : B.top ≤ len ↔
      2 ≤ len ∨ t.pwd.map (cover r) ≠ t.root.map (cover r) ∨ (t.pwd ≠ t.root ∧ mem 0 = false) := by
  rw [sysGetcwd_eq hl hlen] at hB
  by_cases hmem : ∀ n < l.length, mem n = true
  · rw [if_pos hmem] at hB
    obtain ⟨h1, h2, h3⟩ := fill_top v len l 0 (Buf.put ⟨buf, 0⟩ 0 0) (by simp [Buf.put_top]) (Or.inl rfl)
    rw [Except.ok.inj hB] at h1 h2 h3
    dsimp only at h1 h2 h3
    constructor
    · intro htop
      by_contra hno
      simp only [not_or, not_not] at hno
      have := h3 rfl (hl.nothing.2 hno.2.1)
      omega
    · rintro (h | h | ⟨hne, hfail⟩)
      · exact h1 h
      · have hprinted : printed v l ≠ [] := fun hnil => h (hl.nothing.1 hnil)
        by_cases h2len : 2 ≤ len
        · exact h1 h2len
        · have := h2 (by omega)
          rw [if_neg hprinted] at this
          omega
      · by_cases hnil : printed v l = []
        · have hlength := hl.short hnil
          rw [if_neg hne] at hlength
          exact nomatch (hmem 0 (by omega)).symm.trans hfail
        · by_cases h2len : 2 ≤ len
          · exact h1 h2len
          · have := h2 (by omega)
            rw [if_neg hnil] at this
            omega
  · rw [if_neg hmem] at hB
    have htop : B.top = 0 := by
      cases hB
      rfl
    refine iff_of_true (by omega) (Or.inr ?_)
    by_cases hnil : printed v l = []
    · have hlength := hl.short hnil
      obtain ⟨n, hn, hfail⟩ : ∃ n < l.length, mem n = false := by simpa using hmem
      split_ifs at hlength with hsame
      · omega
      · obtain rfl : n = 0 := by omega
        exact Or.inr ⟨hsame, hfail⟩
    · exact Or.inl fun he => hnil (hl.nothing.2 he)

/-- **What sys_getcwd stores** in a buffer with room for it. -/
theorem getcwd_stores {mem : ℕ → Bool} {len : ℕ} {ret : ℤ} {buf : Ptr} {B : Buf} (hl : Listed mem v r t l)
    (hmem : ∀ n < l.length, mem n = true) (hlen : (fullPath v l).length + 2 ≤ len)
    (hB : sysGetcwd mem v t buf len = .ok (ret, B)) : ret = (fullPath v l).length ∧ Holds B.bytes (fullPath v l) := by
  rw [sysGetcwd_eq hl (by omega), if_pos hmem] at hB
  have hfill := Except.ok.inj hB
  rw [fullPath] at hlen ⊢
  by_cases hnil : printed v l = []
  · rw [fill_nothing hnil] at hfill
    cases hfill
    rw [if_pos hnil]
    refine ⟨rfl, by decide, fun j hj => ?_⟩
    have hj1 : j ≤ 1 := hj
    interval_cases j
    · rfl
    · rfl
  · rw [if_neg hnil] at hlen ⊢
    obtain ⟨h1, h2⟩ := fill_room v len l hl.named 0 (Buf.put ⟨buf, 0⟩ 0 0) (Or.inr hnil) (by omega)
    rw [hfill] at h1 h2
    refine ⟨by simpa using h1, printed_clean hl.named, fun j hj => ?_⟩
    rw [h2 j (by omega), if_neg (Nat.not_lt_zero j), Nat.sub_zero]

/-- lookup of the path by task k leads back to p. It begins in a later state, with the root and the pwd as they were all the
time; it returns within 2n + 3 steps of the task, for a path of n bytes, whatever the others do meanwhile; and as long as
nothing is in the way, it returns p, and the root and the pwd are the same after the system call. -/
def LeadsBack (k r p : ℕ) (root : Option ℕ) (path : List Byte) (s : Sys) : Prop :=
  ∀ ops s1 goal s2 ops' u, (system.only fun u _ => Stays k root p u).Run s ops s1 → Stays k root p s1 → goal ≠ .chroot →
    system.step s1 (.start k goal path true) s2 → (system.only (Going k r p)).Run s2 ops' u →
    (ops'.filter fun op => op.task = k).length ≤ 2 * path.length + 2 ∧
    ∀ w a find v u', Clear u.vfs r p w a → system.step u (.walk k w a) u' → walkStep u.vfs w a = .ok (.returned find, v) →
      find = some p ∧ Stays k root p u'

theorem Leads.back {path : List Byte} (hok : NameiOk s b r) (h : Leads s.vfs r p d path) : LeadsBack k r p (some d) path s := by
  intro ops s1 goal s2 ops' u hrun hstays hgoal hst hrun'
  obtain ⟨hok1, hleads⟩ := h.run hok hrun hstays
  obtain ⟨m, ⟨hok', hstays', w', hw', hgoal', -, -, hway⟩, hm⟩ := (hleads.start hok1 hstays hgoal hst).run hrun'
  refine ⟨by omega, fun w a find v u' hclear hst' hres => ?_⟩
  obtain rfl : w' = w := Option.some.inj (hw'.symm.trans hst'.1.1.2.1)
  rcases walk_way hok' hst'.1.1 hstays'.2.2 hway hclear hres with ⟨w'', hout, -⟩ | hout
  · cases hout
  · cases hout
    exact ⟨rfl, returned_back hstays' (hgoal' ▸ hgoal) hst'.2 hres⟩

/-- **sys_getcwd and lookup.** In every reachable state, for every buffer of one byte or more: sys_getcwd keeps to the buffer
exactly if the buffer has two bytes, or the pwd is not the directory of the root, or there is no memory for the list. For a pwd
other than droot, and memory for the list, what it stores in a buffer with room for the path and two bytes is the path of the
pwd; and lookup of this string leads back. -/
theorem getcwd_lookup (h : system.Reach s) (hk : k ∈ s.tasks) (mem : ℕ → Bool) (buf : Ptr) {len : ℕ} (hlen : 1 ≤ len) :
    ∃ b r, OneMount s.vfs b r ∧ ∃ ret B, sysGetcwd mem s.vfs (s.task k) buf len = .ok (ret, B) ∧
      (B.top ≤ len ↔ 2 ≤ len ∨ (s.task k).pwd.map (cover r) ≠ (s.task k).root.map (cover r) ∨
        ((s.task k).pwd ≠ (s.task k).root ∧ mem 0 = false)) ∧
      ∀ d p, (s.task k).root = some d → (s.task k).pwd = some p → p ≠ droot →
        ∃ l, Descends s.vfs d l p ∧ (∀ y ∈ l, y ≠ d) ∧
          ((∀ n < l.length, mem n = true) → (fullPath s.vfs l).length + 2 ≤ len →
            ret = (fullPath s.vfs l).length ∧ Holds B.bytes (fullPath s.vfs l)) ∧
          LeadsBack k r p (some d) (fullPath s.vfs l) s := by
  obtain ⟨b, r, hok, hu⟩ := under_reachable h
  obtain ⟨l, hl⟩ := listed hok hu hk mem
  obtain ⟨⟨ret, B⟩, hB⟩ : ∃ res, sysGetcwd mem s.vfs (s.task k) buf len = .ok res := ⟨_, sysGetcwd_eq hl hlen buf⟩
  refine ⟨b, r, hok.fine.mount, ret, B, hB, getcwd_top hl hlen hB, fun d p hd hp hne => ?_⟩
  obtain ⟨hdesc, hnot, hleads⟩ := hl.between d p hd hp
  exact ⟨l, hdesc, hnot, fun hmem hroom => getcwd_stores hl hmem hroom hB, (hleads hne).back hok⟩

/-! ## Two names with one beginning -/

/-- task t changes to a directory under the root that is cached as dentry i -/
def chdirCached (t i : ℕ) (comp : List Byte) : List Op :=
  [.start t .chdir (slash :: comp) true, .walk t ⟨.chdir, some droot, droot, comp, .name, true⟩ (answer none),
    .walk t ⟨.chdir, some droot, i, [], .finish, true⟩ (answer none)]

/-- task 0 has changed to "/a" -/
theorem inA_reached : ∃ s, system.Reach s ∧ 0 ∈ s.tasks ∧ (s.task 0).root = some droot ∧ (s.task 0).pwd = some 3 := by
  have hfields : ((chdirDisk 0 3 nameA).foldlM next first).any (fun s => 0 ∈ s.tasks ∧ (s.task 0).root = some droot ∧
      (s.task 0).pwd = some 3) = true := by decide +kernel
  obtain ⟨s, hs, hp⟩ := (Option.any_eq_true _ _).1 hfields
  exact ⟨s, .fold next_step first_reached hs, of_decide_eq_true hp⟩

theorem getcwd_inA : ∃ s r path, system.Reach s ∧ (s.task 0).pwd = some 3 ∧ LeadsBack 0 r 3 (some droot) path s := by
  obtain ⟨s, hs, hin, hroot, hpwd⟩ := inA_reached
  obtain ⟨_, r, _, _, _, _, _, hback⟩ := getcwd_lookup hs hin (fun _ => true) (fun _ => 0) (show 1 ≤ 100 by decide)
  obtain ⟨l, -, -, -, hleads⟩ := hback droot 3 hroot hpwd (by decide)
  exact ⟨s, r, _, hs, hpwd, hleads⟩

/-- what sys_getcwd stores for task 0 is "/a" -/
def storesA (s : Sys) : Bool :=
  (sysGetcwd (fun _ => true) s.vfs (s.task 0) (fun _ => 0) 100).toOption.any fun res =>
    res.1 = 2 ∧ ∀ j < 3, res.2.bytes j = cstr (slash :: nameA) j

instance (k p : ℕ) (root : Option ℕ) (s : Sys) : Decidable (Stays k root p s) := inferInstanceAs (Decidable (_ ∧ _ ∧ _))

theorem storesA_holds {s : Sys} (h : storesA s = true) :
    ∃ B, sysGetcwd (fun _ => true) s.vfs (s.task 0) (fun _ => 0) 100 = .ok (2, B) ∧ Holds B.bytes (slash :: nameA) := by
  obtain ⟨⟨ret, B⟩, hres, hB⟩ := (Option.any_eq_true _ _).1 h
  obtain ⟨hret, hbytes⟩ := of_decide_eq_true hB
  cases hg : sysGetcwd (fun _ => true) s.vfs (s.task 0) (fun _ => 0) 100 with
  | error e =>
    rw [hg] at hres
    cases hres
  | ok res =>
    rw [hg] at hres
    cases hres
    cases hret
    exact ⟨B, rfl, by decide, fun j hj => hbytes j (Nat.lt_succ_of_le hj)⟩

/-- What sys_getcwd stores for the root takes two bytes of a buffer of one. And task 0, whose pwd is "/a", goes to "/ab" with
chdir(getcwd()), when task 1 has changed to "/ab". -/
theorem getcwd_misleads :
    (∃ B, sysGetcwd (fun _ => true) first.vfs (first.task 0) (fun _ => 0) 1 = .ok (1, B) ∧ B.top = 2) ∧
    ∃ s s', system.Reach s ∧ Stays 0 (some droot) 3 s ∧
      (∃ B, sysGetcwd (fun _ => true) s.vfs (s.task 0) (fun _ => 0) 100 = .ok (2, B) ∧ Holds B.bytes (slash :: nameA)) ∧
      system.Run s (chdirCached 0 4 nameA) s' ∧ Stays 0 (some droot) 4 s' := by
  refine ⟨⟨_, rfl, by decide +kernel⟩, ?_⟩
  have hbegin : ((chdirDisk 0 3 nameA ++ .kernelThread 0 1 :: chdirDisk 1 4 nameAb).foldlM next first).any (fun s =>
      Stays 0 (some droot) 3 s ∧ storesA s = true ∧
        ((chdirCached 0 4 nameA).foldlM next s).any (fun s' => Stays 0 (some droot) 4 s') = true) = true := by
    decide +kernel
  obtain ⟨s, hs, hbegin⟩ := (Option.any_eq_true _ _).1 hbegin
  obtain ⟨hstays, hstores, hend⟩ := of_decide_eq_true hbegin
  obtain ⟨s', hs', hend⟩ := (Option.any_eq_true _ _).1 hend
  exact ⟨s, s', .fold next_step first_reached hs, hstays, storesA_holds hstores, .fold next_step hs', of_decide_eq_true hend⟩
end SinsOs.Namei
