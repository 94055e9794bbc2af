/-
Path lookup over whole runs: any number of tasks that call open, chdir and chroot, fork and are released, in any order.

- `counts_lost`: in every reachable state every ref_count is the number of children, task fields, mounts, super block roots and
  walks in progress that point to the dentry, three more for droot, and the references of walks that page faults have ended.
- `counts_reachable`: while there are no such walks the counts are exact, and no BUG_ON on dentries fires.
- `droot_counts`: droot has three references more than point to it.
-/
import SinsOs.Fs.Namei

namespace SinsOs.Namei

open SinsOs.Core SinsOs.Lib SinsOs.Dcache

variable {v v' : Vfs} {o o' : ℕ → ℕ} {b r d i p n : ℕ} {w : Walk} {a : Answer}

/-! ## The end of the system calls -/

/-- what is reached by a function that stays in S is reached in less than |S| steps -/
theorem reach_lt_card {α : Type} {f : α → α} {S : Finset α} (hf : ∀ x ∈ S, f x ∈ S) {x y : α} (hx : x ∈ S)
    (h : ∃ n, f^[n] x = y) : ∃ n < S.card, f^[n] x = y := by
  classical
  refine ⟨Nat.find h, ?_, Nat.find_spec h⟩
  have hin : ∀ k, f^[k] x ∈ S := fun k => by
    induction k with
    | zero => exact hx
    | succ k ih => rw [Function.iterate_succ_apply']; exact hf _ ih
  have hinj : Set.InjOn (fun k => f^[k] x) (Finset.range (Nat.find h + 1)) := by
    -- a repetition would give a shorter way
    have hlt : ∀ i j, i < j → j ≤ Nat.find h → f^[i] x ≠ f^[j] x := fun i j hij hj he => by
      have hshort : f^[Nat.find h - j + i] x = y := by
        rw [Function.iterate_add_apply, he, ← Function.iterate_add_apply, Nat.sub_add_cancel hj]
        exact Nat.find_spec h
      have := Nat.find_min' h hshort
      omega
    intro i hi j hj he
    have hi' := Finset.mem_range.1 hi
    have hj' := Finset.mem_range.1 hj
    rcases lt_trichotomy i j with hij | hij | hij
    · exact absurd he (hlt i j hij (by omega))
    · exact hij
    · exact absurd he.symm (hlt j i hij (by omega))
  have hcard := Finset.card_le_card_of_injOn (fun k => f^[k] x) (fun k _ => hin k) hinj
  rw [Finset.card_range] at hcard
  omega

theorem above_droot (h : Tree v o ∅) : above v droot = droot := by
  rw [above, h.root.2]

/-- the loop of sys_chdir ends, and finds the root above -/
theorem within_below (h : Fine v o b r) {top : ℕ} (hd : d ∈ v.dents) (hbelow : Below v top d) :
    within (v.dents.card + 1) v top d = .ok true := by
  have hloop : ∀ n m x, m < n → x ∈ v.dents → (above v)^[m] x = top → within n v top x = .ok true := by
    intro n
    induction n with
    | zero => intro m x hm; omega
    | succ n ih =>
      intro m x hm hx hreach
      rw [within]
      by_cases h0 : x = droot
      · rw [h0, Function.iterate_fixed (above_droot h.tree)] at hreach
        rw [if_pos h0, h0, hreach]
        simp
      · rw [if_neg h0]
        split_ifs with htop
        · rfl
        · rw [h.parentOf hx]
          cases m with
          | zero => exact absurd hreach htop
          | succ m => exact ih m _ (by omega) (h.above_mem hx) hreach
  obtain ⟨n, hn, hreach⟩ := reach_lt_card (fun x hx => h.above_mem hx) hd hbelow
  exact hloop _ n d (by omega) hd hreach

/-- the way up from a dentry that stays -/
theorem Below.kept {top x : ℕ} (h : Fine v o b r) (h' : Fine v' o' b r) (hk : Kept v v') (hx : x ∈ v.dents)
    (hx' : x ∈ v'.dents) (hbelow : Below v top x) : Below v' top x := by
  obtain ⟨n, hn⟩ := hbelow
  refine ⟨n, ?_⟩
  have habove : ∀ y ∈ v.dents, y ∈ v'.dents → above v' y = above v y := fun y hy hy' => by
    obtain ⟨h1, h2, -⟩ := hk.same y hy hy'
    rw [above, above, h1, h2, hk.super]
  have hloop : ∀ n y, y ∈ v.dents → y ∈ v'.dents → (above v')^[n] y = (above v)^[n] y := by
    intro n
    induction n with
    | zero => intro y _ _; rfl
    | succ n ih =>
      intro y hy hy'
      rw [Function.iterate_succ_apply, Function.iterate_succ_apply, habove y hy hy']
      exact ih _ (h.above_mem hy) (habove y hy hy' ▸ h'.above_mem hy')
  rw [hloop n x hx hx', hn]

/-- the root of the walks that task t begins for `goal` -/
def top (t : Task) (goal : Goal) : ℕ :=
  match goal with
  | .chroot => droot
  | .open_ | .chdir => t.root.getD droot

/-- what the caller of lookup leaves in its task -/
structure Finished (t : Task) (goal : Goal) (find : Option ℕ) (t' : Task) : Prop where
  walk : t'.walk = t.walk
  fields : t'.root = t.root ∧ t'.pwd = t.pwd ∨
      (∃ d, find = some d ∧ goal = .chdir ∧ t.pwd ≠ none ∧ t'.root = t.root ∧
    t'.pwd = some d) ∨ ∃ d, find = some d ∧ goal = .chroot ∧ t'.root = some d ∧ t'.pwd = some d

/-- the errors of system calls: those of the counts of inodes, and the NULL fields of a task that has no pwd -/
def OfTask (t : Task) (e : Bug) : Prop := OfInode e ∨ (e = .null ∧ (t.root = none ∨ t.pwd = none))

variable {t : Task} {find : Option ℕ} {goal : Goal}

theorem openNamei_ends (h : Fine v (o + owed find) b r) (h0 : 0 < o droot) (hr : 0 < o r) :
    Ends (openNamei v find) OfInode fun res => Fine res.2.2 o b r ∧ match find with
      | none => res = (-error, none, v)
      | some d => res.1 = success ∧ res.2.1 = some (v.node d).inode ∧
        ∃ I, iref v.inodes (v.node d).inode = .ok I ∧ Shrunk { v with inodes := I } res.2.2 := by
  cases find with
  | none =>
    rw [owed_none, add_zero] at h
    exact ⟨h, rfl⟩
  | some d =>
    rw [owed_some] at h
    refine ((iref_ends _ _).with_value.imp (fun _ he => Or.inl he) fun _ hI => hI).bind fun I hI => ?_
    refine ((h.inodes I).dput h0 hr).bind fun v1 hv1 => ?_
    exact ⟨hv1.1, rfl, rfl, I, hI.2, hv1.2⟩

theorem dropField_ends {p : Option ℕ} (h : Fine v (o + owed p) b r) (h0 : 0 < o droot) (hr : 0 < o r) :
    Ends (dropField v p) OfInode fun v' => Fine v' o b r ∧ Shrunk v v' := by
  cases p with
  | none =>
    rw [owed_none, add_zero] at h
    exact ⟨h, .refl v⟩
  | some d =>
    rw [owed_some] at h
    exact h.dput h0 hr

theorem dputField_ends {p : Option ℕ} (h : Fine v (o + owed p) b r) (h0 : 0 < o droot) (hr : 0 < o r) :
    Ends (dputField v p) (fun e => OfInode e ∨ (e = .null ∧ p = none)) fun v' => (Fine v' o b r ∧ Shrunk v v') ∧
    p ≠ none := by
  cases p with
  | none => exact Or.inr ⟨rfl, rfl⟩
  | some d =>
    rw [owed_some] at h
    exact (h.dput h0 hr).imp (fun _ he => Or.inl he) fun _ hv => ⟨hv, nofun⟩

theorem sysChdir_ends (h : Fine v (o + owed t.pwd + owed find) b r) (h0 : 0 < o droot) (hr : 0 < o r)
    (hbelow : ∀ d ∈ find, Below v (t.root.getD droot) d) :
    Ends (sysChdir v t find) (OfTask t) fun res => Fine res.2.2 (o + owed res.2.1.pwd) b r ∧ Shrunk v res.2.2 ∧
      Finished t .chdir find res.2.1 ∧ res.2.1.root = t.root := by
  cases find with
  | none =>
    rw [owed_none, add_zero] at h
    exact ⟨h, .refl v, ⟨rfl, Or.inl ⟨rfl, rfl⟩⟩, rfl⟩
  | some d =>
    rw [owed_some] at h
    rw [sysChdir, within_below h (h.live (by simp [one])) (hbelow d rfl)]
    show Ends (if _ then _ else _) _ _
    split_ifs with hdir
    · rw [add_right_comm, ← owed_some] at h
      refine ((dputField_ends h (Nat.add_pos_left h0 _) (Nat.add_pos_left hr _)).imp (fun e he => ?_) fun _ hv => hv).bind
        fun v1 hv1 => ?_
      · rcases he with he | ⟨h1, h2⟩
        · exact Or.inl he
        · exact Or.inr ⟨h1, Or.inr h2⟩
      · exact ⟨hv1.1.1, hv1.1.2, ⟨rfl, Or.inr (Or.inl ⟨d, rfl, rfl, hv1.2, rfl, rfl⟩)⟩, rfl⟩
    · refine ((h.dput (Nat.add_pos_left h0 _) (Nat.add_pos_left hr _)).imp (fun _ he => Or.inl he) fun _ hv => hv).bind
        fun v1 hv1 => ?_
      exact ⟨hv1.1, hv1.2, ⟨rfl, Or.inl ⟨rfl, rfl⟩⟩, rfl⟩

theorem sysChroot_ends (h : Fine v (o + owed t.root + owed t.pwd + owed find) b r) (h0 : 0 < o droot) (hr : 0 < o r) :
    Ends (sysChroot v t find) OfInode fun res => Fine res.2.2 (o + owed res.2.1.root + owed res.2.1.pwd) b r ∧
      Shrunk v res.2.2 ∧ Finished t .chroot find res.2.1 := by
  cases find with
  | none =>
    rw [owed_none, add_zero] at h
    exact ⟨h, .refl v, ⟨rfl, Or.inl ⟨rfl, rfl⟩⟩⟩
  | some d =>
    rw [sysChroot]
    split_ifs with hdir
    · have hsum : o + owed t.root + owed t.pwd + owed (some d) = o + owed (some d) + owed t.pwd + owed t.root := by abel
      rw [hsum] at h
      refine (dropField_ends h (by simp only [Pi.add_apply]; omega) (by simp only [Pi.add_apply]; omega)).bind fun v1 hv1 => ?_
      have hin : d ∈ v1.dents := hv1.1.live (by simp [owed])
      refine (hv1.1.dref hin).bind fun v2 hv2 => ?_
      obtain ⟨hfine2, hshrunk2, -, -⟩ := hv2
      rw [add_right_comm, ← owed_some] at hfine2
      refine (dropField_ends hfine2 (by simp only [Pi.add_apply]; omega) (by simp only [Pi.add_apply]; omega)).bind
        fun v3 hv3 => ?_
      exact ⟨hv3.1, (hv1.2.trans hshrunk2).trans hv3.2, ⟨rfl, Or.inr (Or.inr ⟨d, rfl, rfl, rfl, rfl⟩)⟩⟩
    · rw [owed_some] at h
      refine (h.dput (by simp only [Pi.add_apply]; omega) (by simp only [Pi.add_apply]; omega)).bind fun v1 hv1 => ?_
      exact ⟨hv1.1, hv1.2, ⟨rfl, Or.inl ⟨rfl, rfl⟩⟩⟩

/-- **The caller of lookup.** It gives back the reference, or keeps it in its task. -/
theorem finish_ends (h : Fine v (o + (owed t.root + owed t.pwd) + owed find) b r) (h0 : 0 < o droot) (hr : 0 < o r)
    (hbelow : ∀ d ∈ find, Below v (top t goal) d) :
    Ends (finish v t goal find) (OfTask t) fun res => Fine res.2.2 (o + (owed res.2.1.root + owed res.2.1.pwd)) b r ∧
      Kept v res.2.2 ∧ res.2.2.dents ⊆ v.dents ∧ Finished t goal find res.2.1 := by
  cases goal with
  | open_ =>
    refine ((openNamei_ends h (Nat.add_pos_left h0 _) (Nat.add_pos_left hr _)).imp (fun _ he => Or.inl he)
      fun _ hv => hv).bind fun res hres => ?_
    obtain ⟨ret, i, v1⟩ := res
    obtain ⟨hfine, hres⟩ := hres
    cases find with
    | none =>
      cases hres
      exact ⟨hfine, .of_shrunk (.refl v), subset_rfl, rfl, Or.inl ⟨rfl, rfl⟩⟩
    | some d =>
      obtain ⟨-, -, I, -, hshrunk⟩ := hres
      have hinodes : Kept v { v with inodes := I } := ⟨rfl, fun _ _ _ => ⟨rfl, rfl, rfl⟩⟩
      exact ⟨hfine, hinodes.shrunk hshrunk, hshrunk.dents, rfl, Or.inl ⟨rfl, rfl⟩⟩
  | chdir =>
    rw [← add_assoc] at h
    refine (sysChdir_ends h (Nat.add_pos_left h0 _) (Nat.add_pos_left hr _) hbelow).imp (fun _ he => he) fun res hres => ?_
    obtain ⟨h1, h2, h3, h4⟩ := hres
    rw [h4, ← add_assoc]
    exact ⟨h1, .of_shrunk h2, h2.dents, h3⟩
  | chroot =>
    rw [← add_assoc] at h
    refine (sysChroot_ends h h0 hr).imp (fun _ he => Or.inl he) fun res hres => ?_
    rw [← add_assoc]
    exact ⟨hres.1, .of_shrunk hres.2.1, hres.2.1.dents, hres.2.2⟩

/-! ## Every reachable state -/

def Task.refs (t : Task) : ℕ → ℕ :=
  owed t.root + owed t.pwd + match t.walk with
    | none => 0
    | some w => w.refs

namespace Sys

variable (s : Sys)

/-- the super blocks that are mounted on d or have d as their root -/
def mounts (d : ℕ) : ℕ :=
  ∑ b ∈ s.vfs.sbs, ((if (s.vfs.super b).parent = d then 1 else 0) + if (s.vfs.super b).root = some d then 1 else 0)

/-- the fields of tasks that point to d -/
def fields (d : ℕ) : ℕ :=
  ∑ t ∈ s.tasks, ((if (s.task t).root = some d then 1 else 0) + if (s.task t).pwd = some d then 1 else 0)

/-- the references to d that lookups in progress hold -/
def walks (d : ℕ) : ℕ :=
  ∑ t ∈ s.tasks, match (s.task t).walk with
    | none => 0
    | some w => w.refs d

/-- everything that points to dentry d -/
def uses (d : ℕ) : ℕ := (s.vfs.node d).children.length + s.fields d + s.mounts d + s.walks d

/-- the references that are not from children -/
def held : ℕ → ℕ := fun d => s.fields d + s.mounts d + s.walks d + (if d = droot then 3 else 0) + s.lost d

end Sys

/-- what holds of one task: its pwd and its walk are below its root -/
structure TaskOk (v : Vfs) (t : Task) : Prop where
  set : t.root = none ↔ t.pwd = none
  pwd : ∀ d ∈ t.pwd, Below v (t.root.getD droot) d
  walk : ∀ w ∈ t.walk, w.root = some (top t w.goal) ∧ Below v (top t w.goal) w.iter ∧ WalkOk w

/-- **The invariant.** -/
structure NameiOk (s : Sys) (b r : ℕ) : Prop where
  fine : Fine s.vfs s.held b r
  tasks : ∀ t ∈ s.tasks, TaskOk s.vfs (s.task t)

variable {s s' : Sys} {k : ℕ}

/-- the references to droot that nothing gives back -/
def extra : ℕ → ℕ := fun d => if d = droot then 3 else 0

/-- the references of the one mount, and the three more of droot -/
def base (r : ℕ) : ℕ → ℕ := one droot + one r + extra

theorem mounts_eq (h : OneMount s.vfs b r) (d : ℕ) : s.mounts d = one droot d + one r d := by
  rw [Sys.mounts, h.sbs, Finset.sum_singleton, h.super]
  simp only [one, Option.some.injEq, eq_comm]

theorem held_eq (h : OneMount s.vfs b r) : s.held = ∑ t ∈ s.tasks, (s.task t).refs + (base r + s.lost) := by
  funext d
  have hrefs : (∑ t ∈ s.tasks, (s.task t).refs) d = s.fields d + s.walks d := by
    rw [Finset.sum_apply, Sys.fields, Sys.walks, ← Finset.sum_add_distrib]
    refine Finset.sum_congr rfl fun t _ => ?_
    simp only [Task.refs, Pi.add_apply, owed]
    cases (s.task t).walk with
    | none => rfl
    | some w => rfl
  simp only [Sys.held, Pi.add_apply, base, extra, hrefs, mounts_eq h]
  omega

theorem base_pos (r : ℕ) : 0 < base r droot ∧ 0 < base r r := by
  simp only [base, extra, Pi.add_apply, one, if_true]
  omega

/-- the references of the tasks other than t, the base, and those that are lost -/
def Sys.rest (s : Sys) (t r : ℕ) : ℕ → ℕ := ∑ u ∈ s.tasks.erase t, (s.task u).refs + (base r + s.lost)

theorem rest_pos (s : Sys) (t r : ℕ) : 0 < s.rest t r droot ∧ 0 < s.rest t r r := by
  obtain ⟨h1, h2⟩ := base_pos r
  simp only [Sys.rest, Pi.add_apply]
  omega

theorem held_split (h : OneMount s.vfs b r) (hk : k ∈ s.tasks) : s.held = s.rest k r + (s.task k).refs := by
  rw [held_eq h, Sys.rest, ← Finset.add_sum_erase _ _ hk]
  abel

theorem refs_le (hk : k ∈ s.tasks) (d : ℕ) : (s.task k).refs d ≤ (∑ t ∈ s.tasks, (s.task t).refs) d := by
  rw [Finset.sum_apply]
  exact Finset.single_le_sum (fun t _ => Nat.zero_le ((s.task t).refs d)) hk

theorem task_live (h : Fine s.vfs s.held b r) (hk : k ∈ s.tasks) (hd : 0 < (s.task k).refs d) : d ∈ s.vfs.dents := by
  refine h.live (lt_of_lt_of_le hd ?_)
  rw [held_eq h.mount]
  exact le_trans (refs_le hk d) (Nat.le_add_right _ _)

theorem pwd_refs (hd : d ∈ t.pwd) : 0 < t.refs d := by
  simp only [Task.refs, Pi.add_apply, owed]
  rw [if_pos (show t.pwd = some d from hd)]
  omega

theorem root_refs (hd : d ∈ t.root) : 0 < t.refs d := by
  simp only [Task.refs, Pi.add_apply, owed]
  rw [if_pos (show t.root = some d from hd)]
  omega

theorem iter_refs (hw : w ∈ t.walk) : 0 < t.refs w.iter := by
  simp only [Task.refs, show t.walk = some w from hw, Pi.add_apply, Walk.refs, one, if_true]
  omega

/-- a task that does nothing while the tree changes -/
theorem TaskOk.kept (h : TaskOk v t) (hf : Fine v o b r) (hf' : Fine v' o' b r) (hk : Kept v v')
    (hin : ∀ d, 0 < t.refs d → d ∈ v.dents ∧ d ∈ v'.dents) : TaskOk v' t := by
  refine ⟨h.set, fun d hd => ?_, fun w hw => ?_⟩
  · obtain ⟨h1, h2⟩ := hin d (pwd_refs hd)
    exact (h.pwd d hd).kept hf hf' hk h1 h2
  · obtain ⟨h1, h2, h3⟩ := h.walk w hw
    obtain ⟨h4, h5⟩ := hin w.iter (iter_refs hw)
    exact ⟨h1, h2.kept hf hf' hk h4 h5, h3⟩

/-- task k and the tree change -/
theorem NameiOk.setTask (h : NameiOk s b r) (hk : k ∈ s.tasks) (hfine : Fine v' (s.rest k r + t.refs) b r)
    (hkept : Kept s.vfs v') (ht : TaskOk v' t) : NameiOk ({ s with vfs := v' }.setTask k t) b r := by
  have hself : Function.update s.task k t k = t := Function.update_self ..
  have hother : ∀ u, u ≠ k → Function.update s.task k t u = s.task u := fun u hu => Function.update_of_ne hu ..
  have hheld : ({ s with vfs := v' }.setTask k t).held = s.rest k r + t.refs := by
    have hrest : ({ s with vfs := v' }.setTask k t).rest k r = s.rest k r := by
      rw [Sys.rest, Sys.rest]
      refine congrArg (· + (base r + s.lost)) (Finset.sum_congr rfl fun u hu => ?_)
      exact congrArg Task.refs (hother u (Finset.ne_of_mem_erase hu))
    have hsplit : ({ s with vfs := v' }.setTask k t).held =
        ({ s with vfs := v' }.setTask k t).rest k r + (Function.update s.task k t k).refs := held_split hfine.mount hk
    rw [hsplit, hrest, hself]
  have hfine' : Fine v' ({ s with vfs := v' }.setTask k t).held b r := hheld ▸ hfine
  refine ⟨hfine', fun u hu => ?_⟩
  by_cases huk : u = k
  · subst huk
    show TaskOk v' (Function.update s.task u t u)
    rw [hself]
    exact ht
  · have hold : ({ s with vfs := v' }.setTask k t).task u = s.task u := hother u huk
    rw [hold]
    refine (h.tasks u hu).kept h.fine hfine' hkept fun d hd => ⟨task_live h.fine hu hd, ?_⟩
    exact task_live (s := { s with vfs := v' }.setTask k t) hfine' hu (by rw [hold]; exact hd)

theorem Below.trans {x y z : ℕ} (h : Below v x y) (h' : Below v y z) : Below v x z := by
  obtain ⟨m, hm⟩ := h
  obtain ⟨n, hn⟩ := h'
  exact ⟨m + n, by rw [Function.iterate_add_apply, hn, hm]⟩

theorem Below.mem {x y : ℕ} (h : Fine v o b r) (hy : y ∈ v.dents) (hbelow : Below v x y) : x ∈ v.dents := by
  obtain ⟨n, rfl⟩ := hbelow
  induction n with
  | zero => exact hy
  | succ n ih => rw [Function.iterate_succ_apply']; exact h.above_mem ih

/-- a walk that is below its root stays there -/
theorem Moved.below {x y : ℕ} (hf : Fine v o b r) (hf' : Fine v' o' b r) (hk : Kept v v') (hw : w.iter ∈ v.dents)
    (hx : x ∈ v'.dents) (hroot : w.root = some y) (hbelow : Below v y w.iter) (hm : Moved v v' w x) : Below v' y x := by
  rcases hm with hm | ⟨hne, rfl⟩
  · exact (hbelow.kept hf hf' hk hw (hm.mem hf' hx)).trans hm
  · obtain ⟨n, hn⟩ := hbelow
    cases n with
    | zero => exact absurd (hroot.trans (congrArg some hn.symm)) hne
    | succ n => exact Below.kept hf hf' hk (hf.above_mem hw) hx ⟨n, hn⟩

/-- the task of a caller that has ended, when what its fields point to is where it should be -/
theorem Finished.ok {t' : Task} (h : Finished t goal find t') (ht : TaskOk v t)
    (hpwd : ∀ d ∈ t'.pwd, d ∈ t.pwd → Below v' (t.root.getD droot) d)
    (hfind : ∀ d ∈ t'.pwd, d ∈ find → Below v' (top t goal) d) : TaskOk v' { t' with walk := none } := by
  rcases h.fields with ⟨h1, h2⟩ | ⟨d, hd, rfl, hne, h1, h2⟩ | ⟨d, hd, rfl, h1, h2⟩
  · refine ⟨?_, fun e he => ?_, fun w hw => (nomatch hw)⟩
    · show t'.root = none ↔ t'.pwd = none
      rw [h1, h2]
      exact ht.set
    · show Below v' (t'.root.getD droot) e
      rw [h1]
      exact hpwd e he (h2 ▸ he)
  · refine ⟨?_, fun e he => ?_, fun w hw => (nomatch hw)⟩
    · show t'.root = none ↔ t'.pwd = none
      rw [h1, h2]
      exact iff_of_false (fun hr => hne (ht.set.1 hr)) nofun
    · show Below v' (t'.root.getD droot) e
      have hed : e ∈ find := by
        rw [hd, ← h2]
        exact he
      rw [h1]
      exact hfind e he hed
  · refine ⟨?_, fun e he => ?_, fun w hw => (nomatch hw)⟩
    · show t'.root = none ↔ t'.pwd = none
      rw [h1, h2]
    · show Below v' (t'.root.getD droot) e
      have hed : e = d := by
        have he' : t'.pwd = some e := he
        rw [h2] at he'
        exact (Option.some.inj he').symm
      rw [h1, hed]
      exact ⟨0, rfl⟩

/-- the references of a task that walks, and the others -/
theorem NameiOk.walk_fine (h : NameiOk s b r) (hk : k ∈ s.tasks) (hwalk : (s.task k).walk = some w) :
    Fine s.vfs (s.rest k r + (owed (s.task k).root + owed (s.task k).pwd) + w.refs) b r := by
  have hheld := held_split h.fine.mount hk
  rw [Task.refs, hwalk, ← add_assoc] at hheld
  exact hheld ▸ h.fine

/-- the references of a task that does not walk, and the others -/
theorem NameiOk.idle_fine (h : NameiOk s b r) (hk : k ∈ s.tasks) (hwalk : (s.task k).walk = none) :
    Fine s.vfs (s.rest k r + owed (s.task k).pwd + owed (s.task k).root) b r := by
  have hheld := held_split h.fine.mount hk
  rw [Task.refs, hwalk, add_zero, add_comm (owed _), ← add_assoc] at hheld
  exact hheld ▸ h.fine

/-- what a step of a walk comes to, in a state that meets the invariant -/
theorem walk_outcome (h : NameiOk s b r) (hl : Meets s k w a) : Ends (walkStep s.vfs w a) OfInode fun res =>
    Fine res.2 (s.rest k r + (owed (s.task k).root + owed (s.task k).pwd) + res.1.refs) b r ∧ Kept s.vfs res.2 ∧
      Stepped s.vfs res.2 w res.1 ∧ ∀ d ∈ res.1.iter, Below res.2 (top (s.task k) w.goal) d := by
  obtain ⟨hk, hwalk, hmem, hsb⟩ := hl
  obtain ⟨hroot, hbelow, hdisk⟩ := (h.tasks k hk).walk w hwalk
  have hiter : w.iter ∈ s.vfs.dents := task_live h.fine hk (iter_refs hwalk)
  obtain ⟨h0, hr⟩ := rest_pos s k r
  refine (walkStep_ends (h.walk_fine hk hwalk) (Nat.add_pos_left h0 _) (Nat.add_pos_left hr _) hdisk hmem hsb).imp
    (fun _ he => he)
    fun res hres => ?_
  obtain ⟨hfine', hkept, hstepped⟩ := hres
  refine ⟨hfine', hkept, hstepped, fun d hd => ?_⟩
  have hin : d ∈ res.2.dents := by
    refine hfine'.live ?_
    cases hout : res.1 with
    | going w' =>
      rw [hout] at hd
      cases hd
      simp [Outcome.refs, Walk.refs, one]
    | returned find =>
      rw [hout] at hd
      rw [Outcome.refs, show find = some d from hd]
      simp [owed]
  exact (hstepped.moved d hd).below h.fine hfine' hkept hiter hin hroot hbelow

/-- **One step of a walk, and the end of its system call.** -/
theorem walk_ok (h : NameiOk s b r) (hl : Meets s k w a) :
    Ends (walk s k w a) (OfTask (s.task k)) fun s' => NameiOk s' b r ∧ Kept s.vfs s'.vfs := by
  have hk : k ∈ s.tasks := hl.1
  have hwalk : (s.task k).walk = some w := hl.2.1
  obtain ⟨hroot, -, -⟩ := (h.tasks k hk).walk w hwalk
  obtain ⟨h0, hr⟩ := rest_pos s k r
  rw [walk]
  refine ((walk_outcome h hl).imp (fun _ he => Or.inl he) fun _ hv => hv).bind fun res hres => ?_
  obtain ⟨out, v1⟩ := res
  obtain ⟨hfine1, hkept1, hstepped, hbelow⟩ := hres
  have hlive : ∀ d, 0 < (s.task k).refs d → d ∈ s.vfs.dents := fun d => task_live h.fine hk
  cases out with
  | going w' =>
    obtain ⟨hgoal, hroot', -, hdisk'⟩ := hstepped.goes w' rfl
    refine ⟨h.setTask hk ?_ hkept1 ⟨(h.tasks k hk).set, fun d hd => ?_, fun w'' hw'' => ?_⟩, hkept1⟩
    · rw [add_assoc] at hfine1
      exact hfine1
    · have hd1 : d ∈ v1.dents := hfine1.live (by
        simp only [Pi.add_apply, owed]
        rw [if_pos (show (s.task k).pwd = some d from hd)]
        omega)
      exact ((h.tasks k hk).pwd d hd).kept h.fine hfine1 hkept1 (hlive d (pwd_refs hd)) hd1
    · cases hw''
      rw [hroot'.1, hgoal]
      exact ⟨hroot, hbelow w'.iter rfl, hdisk'⟩
  | returned find =>
    refine (finish_ends hfine1 h0 hr hbelow).bind fun res hres => ?_
    obtain ⟨ret, x, v2⟩ := res
    obtain ⟨hfine2, hkept2, hsub, hfin⟩ := hres
    have hkept := hkept1.trans hkept2 hsub
    have hpwd : ∀ d ∈ x.pwd, d ∈ v2.dents := fun d hd => hfine2.live (by
      simp only [Pi.add_apply, owed]
      rw [if_pos (show x.pwd = some d from hd)]
      omega)
    refine ⟨h.setTask hk ?_ hkept (hfin.ok (h.tasks k hk) (fun d hd hold => ?_) fun d hd hold => ?_), hkept⟩
    · show Fine v2 (s.rest k r + (owed x.root + owed x.pwd + 0)) b r
      rw [add_zero]
      exact hfine2
    · exact ((h.tasks k hk).pwd d hold).kept h.fine hfine2 hkept (hlive d (pwd_refs hold)) (hpwd d hd)
    · exact (hbelow d hold).kept hfine1 hfine2 hkept2 (hsub (hpwd d hd)) (hpwd d hd)

/-- where a walk begins: at the root of its task, at its pwd, or at droot -/
structure Begun (v : Vfs) (t : Task) (goal : Goal) (rest : List Byte) (nul : Bool) (u : Walk) : Prop where
  caller : u.goal = goal
  nul : u.nul = nul
  root : u.root = some (top t goal)
  phase : u.phase = .name
  rest : u.rest = rest
  below : Below v (top t goal) u.iter
  field : u.iter = droot ∨ t.root = some u.iter ∨ t.pwd = some u.iter

theorem beginsAt_ok (h : TaskOk v t) (rest : List Byte) (nul : Bool) {iter : Option ℕ}
    (hiter : iter = t.root ∨ iter = t.pwd) :
    Begun v t goal rest nul (beginsAt t goal rest nul iter) := by
  have hnone : iter = none → t.root.getD droot = droot := fun he => by
    have hroot : t.root = none := by
      rcases hiter with hi | hi
      · rw [← hi, he]
      · exact h.set.2 (hi ▸ he)
    rw [hroot]
    rfl
  have hsome : ∀ d, iter = some d → t.root = some (t.root.getD droot) ∧ Below v (t.root.getD droot) d ∧
      (t.root = some d ∨ t.pwd = some d) := fun d he => by
    rcases hiter with hi | hi
    · rw [← hi, he]
      exact ⟨rfl, ⟨0, rfl⟩, Or.inl rfl⟩
    · have hpwd : t.pwd = some d := hi ▸ he
      obtain ⟨e, he'⟩ := Option.ne_none_iff_exists'.1 fun hr => nomatch (h.set.1 hr).symm.trans hpwd
      exact ⟨by rw [he']; rfl, h.pwd d hpwd, Or.inr hpwd⟩
  cases iter with
  | none =>
    have htop : top t goal = droot := by
      cases goal with
      | chroot => rfl
      | open_ | chdir => exact hnone rfl
    have hwalk : beginsAt t goal rest nul none = ⟨goal, some droot, droot, rest, .name, nul⟩ := by cases goal <;> rfl
    rw [hwalk]
    exact ⟨rfl, rfl, by rw [htop], rfl, rfl, ⟨0, htop.symm⟩, Or.inl rfl⟩
  | some d =>
    obtain ⟨h1, h2, h3⟩ := hsome d rfl
    cases goal with
    | chroot => exact ⟨rfl, rfl, rfl, rfl, rfl, ⟨0, rfl⟩, Or.inl rfl⟩
    | open_ | chdir => exact ⟨rfl, rfl, h1, rfl, rfl, h2, Or.inr h3⟩

theorem begins_ok (h : TaskOk v t) (goal : Goal) (path : List Byte) (nul : Bool) :
    ∃ rest, rest.Sublist path ∧ Begun v t goal rest nul (begins t goal path nul) := by
  cases path with
  | nil => exact ⟨[], .refl _, beginsAt_ok h [] nul (Or.inr rfl)⟩
  | cons c cs =>
    rw [begins]
    split_ifs
    · exact ⟨cs, List.sublist_cons_self c cs, beginsAt_ok h cs nul (Or.inl rfl)⟩
    · exact ⟨c :: cs, .refl _, beginsAt_ok h (c :: cs) nul (Or.inr rfl)⟩

theorem lookupStart_ends (h : Fine v o b r) {path : List Byte} {nul : Bool} (hin : (begins t goal path nul).iter ∈ v.dents) :
    Ends (lookupStart v t goal path nul) OfInode fun res => res.1 = begins t goal path nul ∧
      Fine res.2 (o + one (begins t goal path nul).iter) b r ∧ Shrunk v res.2 ∧ res.2.dents = v.dents := by
  rw [lookupStart]
  refine (h.dref hin).bind fun v1 hv1 => ?_
  exact ⟨rfl, hv1.1, hv1.2.1, hv1.2.2.1⟩

theorem start_ok (h : NameiOk s b r) {path : List Byte} {nul : Bool} (hk : k ∈ s.tasks) (hwalk : (s.task k).walk = none)
    (hpath : ∀ c ∈ path, c ≠ 0) : Ends (step s (.start k goal path nul)) (OfTask (s.task k)) fun s' =>
      NameiOk s' b r ∧ Shrunk s.vfs s'.vfs := by
  obtain ⟨rest, hrest, hbegun⟩ := begins_ok (h.tasks k hk) goal path nul
  have hin : (begins (s.task k) goal path nul).iter ∈ s.vfs.dents := by
    rcases hbegun.field with h5 | h5 | h5
    · rw [h5]
      exact h.fine.live h.fine.tree.root.1
    · exact task_live h.fine hk (root_refs h5)
    · exact task_live h.fine hk (pwd_refs h5)
  rw [step]
  refine ((lookupStart_ends h.fine hin).imp (fun _ he => Or.inl he) fun _ hv => hv).bind fun res hres => ?_
  obtain ⟨w, v1⟩ := res
  obtain ⟨rfl, hfine1, hshrunk1, hdents1⟩ := hres
  have hkept := Kept.of_shrunk hshrunk1
  have hstay : ∀ d, 0 < (s.task k).refs d → d ∈ s.vfs.dents ∧ d ∈ v1.dents := fun d hd => by
    have hlive := task_live h.fine hk hd
    exact ⟨hlive, hdents1.symm ▸ hlive⟩
  have hold := (h.tasks k hk).kept h.fine hfine1 hkept hstay
  refine ⟨h.setTask hk ?_ hkept ⟨hold.set, hold.pwd, fun w hw => ?_⟩, hshrunk1⟩
  · have hrefs : (Task.mk (s.task k).root (s.task k).pwd (some (begins (s.task k) goal path nul))).refs =
        (s.task k).refs + one (begins (s.task k) goal path nul).iter := by
      simp only [Task.refs, hwalk, Walk.refs, hbegun.phase, Phase.refs, add_zero]
    show Fine v1 (s.rest k r + (Task.mk (s.task k).root (s.task k).pwd (some (begins (s.task k) goal path nul))).refs) b r
    rw [hrefs, ← add_assoc, ← held_split h.fine.mount hk]
    exact hfine1
  · cases hw
    refine ⟨by rw [hbegun.caller]; exact hbegun.root, ?_, fun c hc => ?_, fun prev comp hp => ?_⟩
    · rw [hbegun.caller]
      exact hbegun.below.kept h.fine hfine1 hkept hin (hdents1.symm ▸ hin)
    · rw [hbegun.rest] at hc
      exact hpath c (hrest.subset hc)
    · rw [hbegun.phase] at hp
      cases hp

theorem drefField_ends {p : Option ℕ} (h : Fine v o b r) (hp : ∀ d ∈ p, d ∈ v.dents) :
    Ends (drefField v p) OfInode fun v' => Fine v' (o + owed p) b r ∧ Shrunk v v' ∧ v'.dents = v.dents := by
  cases p with
  | none =>
    rw [owed_none, add_zero]
    exact ⟨h, .refl v, rfl⟩
  | some d =>
    rw [owed_some]
    exact (h.dref (hp d rfl)).imp (fun _ he => he) fun v1 hv1 => ⟨hv1.1, hv1.2.1, hv1.2.2.1⟩

theorem kernelThread_ok (h : NameiOk s b r) (hk : k ∈ s.tasks) (hn : n ∉ s.tasks) :
    Ends (step s (.kernelThread k n)) (OfTask (s.task k)) fun s' => NameiOk s' b r ∧ Shrunk s.vfs s'.vfs := by
  have hroot : ∀ d ∈ (s.task k).root, d ∈ s.vfs.dents := fun d hd => task_live h.fine hk (root_refs hd)
  have hpwd : ∀ d ∈ (s.task k).pwd, d ∈ s.vfs.dents := fun d hd => task_live h.fine hk (pwd_refs hd)
  rw [step, kernelThread]
  refine ((drefField_ends h.fine hpwd).imp (fun _ he => Or.inl he) fun _ hv => hv).bind fun v1 hv1 => ?_
  obtain ⟨hfine1, hshrunk1, hdents1⟩ := hv1
  refine ((drefField_ends hfine1 fun d hd => hdents1.symm ▸ hroot d hd).imp (fun _ he => Or.inl he) fun _ hv => hv).bind
    fun v2 hv2 => ?_
  obtain ⟨hfine2, hshrunk2, hdents2⟩ := hv2
  have hshrunk := hshrunk1.trans hshrunk2
  have hkept := Kept.of_shrunk hshrunk
  have hdents : v2.dents = s.vfs.dents := hdents2.trans hdents1
  have hold : ∀ t ∈ s.tasks, TaskOk v2 (s.task t) := fun t ht => by
    refine (h.tasks t ht).kept h.fine hfine2 hkept fun d hd => ?_
    have hlive := task_live h.fine ht hd
    exact ⟨hlive, hdents.symm ▸ hlive⟩
  have hnew : ∀ x, Function.update s.task n x n = x := fun x => Function.update_self ..
  have hother : ∀ x, ∀ t ∈ s.tasks, Function.update s.task n x t = s.task t := fun x t ht => by
    have hne : t ≠ n := fun he => hn (he ▸ ht)
    exact Function.update_of_ne hne ..
  refine ⟨⟨?_, fun t ht => ?_⟩, hshrunk⟩
  · have hheld : ({ s with vfs := v2, tasks := insert n s.tasks }.setTask n ⟨(s.task k).root, (s.task k).pwd, none⟩).held =
        s.held + owed (s.task k).pwd + owed (s.task k).root := by
      rw [held_eq (b := b) (r := r) hfine2.mount, held_eq h.fine.mount]
      show ∑ t ∈ insert n s.tasks, (Function.update s.task n ⟨(s.task k).root, (s.task k).pwd, none⟩ t).refs +
        (base r + s.lost) = _
      rw [Finset.sum_insert hn, hnew, Finset.sum_congr rfl fun t ht => congrArg Task.refs (hother _ t ht)]
      simp only [Task.refs]
      abel
    rw [hheld]
    exact hfine2
  · show TaskOk v2 (Function.update s.task n ⟨(s.task k).root, (s.task k).pwd, none⟩ t)
    rcases Finset.mem_insert.1 ht with rfl | ht
    · rw [hnew]
      exact ⟨(h.tasks k hk).set, (hold k hk).pwd, fun w hw => (nomatch hw)⟩
    · rw [hother _ t ht]
      exact hold t ht

theorem release_ok (h : NameiOk s b r) (hl : legal s (.release k)) :
    Ends (step s (.release k)) (OfTask (s.task k)) fun s' => NameiOk s' b r ∧ Shrunk s.vfs s'.vfs := by
  obtain ⟨hk, hwalk⟩ := hl
  obtain ⟨h0, hr⟩ := rest_pos s k r
  rw [step, kthreadRelease]
  refine ((dputField_ends (h.idle_fine hk hwalk) (Nat.add_pos_left h0 _) (Nat.add_pos_left hr _)).imp (fun e he => ?_)
    fun _ hv => hv).bind
    fun v1 hv1 => ?_
  · rcases he with he | ⟨h1, h2⟩
    · exact Or.inl he
    · exact Or.inr ⟨h1, Or.inl h2⟩
  · refine ((dropField_ends hv1.1.1 h0 hr).imp (fun _ he => Or.inl he) fun _ hv => hv).bind fun v2 hv2 => ?_
    obtain ⟨hfine2, hshrunk2⟩ := hv2
    have hshrunk := hv1.1.2.trans hshrunk2
    have hkept := Kept.of_shrunk hshrunk
    have hheld : ({ s with vfs := v2, tasks := s.tasks.erase k, dead := s.dead.erase k } : Sys).held = s.rest k r :=
      held_eq (s := { s with vfs := v2, tasks := s.tasks.erase k, dead := s.dead.erase k }) hfine2.mount
    have hfine' : Fine v2 ({ s with vfs := v2, tasks := s.tasks.erase k, dead := s.dead.erase k } : Sys).held b r :=
      hheld ▸ hfine2
    refine ⟨⟨hfine', fun t ht => ?_⟩, hshrunk⟩
    have ht' := Finset.mem_of_mem_erase ht
    refine (h.tasks t ht').kept h.fine hfine' hkept fun d hd => ⟨task_live h.fine ht' hd, ?_⟩
    exact task_live (s := { s with vfs := v2, tasks := s.tasks.erase k, dead := s.dead.erase k }) hfine' ht hd

/-- the reference of a lookup that a page fault ends is lost -/
theorem fault_ok (h : NameiOk s b r) (hl : legal s (.fault k w)) : NameiOk (fault s k w) b r := by
  obtain ⟨hk, hwalk, hphase, -⟩ := hl
  have hself : Function.update s.task k { s.task k with walk := none } k = { s.task k with walk := none } :=
    Function.update_self ..
  have hother : ∀ u, u ≠ k → Function.update s.task k { s.task k with walk := none } u = s.task u :=
    fun u hu => Function.update_of_ne hu ..
  have hheld : (fault s k w).held = s.held := by
    have hsplit : (fault s k w).held = (fault s k w).rest k r + ((fault s k w).task k).refs := held_split h.fine.mount hk
    have hrest : (fault s k w).rest k r = s.rest k r + one w.iter := by
      have hsum : ∑ u ∈ s.tasks.erase k, ((fault s k w).task u).refs = ∑ u ∈ s.tasks.erase k, (s.task u).refs :=
        Finset.sum_congr rfl fun u hu => congrArg Task.refs (hother u (Finset.ne_of_mem_erase hu))
      show ∑ u ∈ s.tasks.erase k, ((fault s k w).task u).refs + (base r + (s.lost + one w.iter)) = _
      rw [hsum, Sys.rest]
      abel
    have hrefs : (s.task k).refs = ((fault s k w).task k).refs + one w.iter := by
      show _ = (Function.update s.task k { s.task k with walk := none } k).refs + one w.iter
      rw [hself]
      simp only [Task.refs, hwalk, Walk.refs, hphase, Phase.refs, add_zero]
    rw [hsplit, hrest, held_split h.fine.mount hk, hrefs]
    abel
  refine ⟨hheld ▸ h.fine, fun u hu => ?_⟩
  show TaskOk s.vfs (Function.update s.task k { s.task k with walk := none } u)
  by_cases huk : u = k
  · rw [huk, hself]
    exact ⟨(h.tasks k hk).set, (h.tasks k hk).pwd, fun w hw => (nomatch hw)⟩
  · rw [hother u huk]
    exact h.tasks u hu

/-- the task that an operation is for -/
def Op.task : Op → ℕ
  | .start t _ _ _ | .walk t _ _ | .kernelThread t _ | .release t | .fault t _ | .overrun t _ => t

/-- a component of more than MINIX_NAME_LEN bytes is compared with an entry -/
def Op.overruns : Op → Bool
  | .overrun _ _ => true
  | _ => false

/-- a page fault ends a lookup -/
def Op.faults : Op → Bool
  | .fault _ _ => true
  | _ => false

/-- **One step.** -/
theorem step_ok (h : NameiOk s b r) {op : Op} (hl : legal s op) :
    Ends (step s op) (fun e => OfTask (s.task op.task) e ∨ (e = .overrun ∧ op.overruns = true)) fun s' =>
      NameiOk s' b r ∧ Kept s.vfs s'.vfs := by
  cases op with
  | start t goal path nul =>
    exact (start_ok h hl.1 hl.2.1 hl.2.2.1).imp (fun _ he => Or.inl he) fun _ hs => ⟨hs.1, .of_shrunk hs.2⟩
  | walk t w a => exact (walk_ok h hl.1).imp (fun _ he => Or.inl he) fun _ hs => hs
  | kernelThread t new =>
    exact (kernelThread_ok h hl.1 hl.2.2.1).imp (fun _ he => Or.inl he) fun _ hs => ⟨hs.1, .of_shrunk hs.2⟩
  | release t => exact (release_ok h hl).imp (fun _ he => Or.inl he) fun _ hs => ⟨hs.1, .of_shrunk hs.2⟩
  | fault t w => exact ⟨fault_ok h hl, rfl, fun _ _ _ => ⟨rfl, rfl, rfl⟩⟩
  | overrun t w => exact Or.inr ⟨rfl, rfl⟩

/-- only a page fault loses references -/
theorem step_lost {op : Op} (hst : step s op = .ok s') (hop : op.faults = false) : s'.lost = s.lost := by
  have hends : Ends (step s op) (fun _ => True) fun s' => s'.lost = s.lost := by
    cases op with
    | start t goal path nul => exact (Ends.any _).bind fun _ _ => rfl
    | walk t w a =>
      refine (Ends.any (walkStep s.vfs w a)).bind fun res _ => ?_
      obtain ⟨out, v⟩ := res
      cases out with
      | going w' => exact rfl
      | returned find => exact (Ends.any _).bind fun _ _ => rfl
    | kernelThread t new => exact (Ends.any _).bind fun _ _ => (Ends.any _).bind fun _ _ => rfl
    | release t => exact (Ends.any _).bind fun _ _ => (Ends.any _).bind fun _ _ => rfl
    | fault t w => cases hop
    | overrun t w => trivial
  exact hends.value hst

/-! ## The mount of the root -/

/-- the tree of droot alone -/
theorem tree_alone (hdents : v.dents = {droot}) (hhash : ∀ k, v.hash k = [])
    (hnode : (v.node droot).parent = some droot ∧ (v.node droot).children = [] ∧ (v.node droot).refCount = 3) :
    Tree v extra ∅ := by
  obtain ⟨hparent, hchildren, hcount⟩ := hnode
  have honly : ∀ d ∈ v.dents, d = droot := fun d hd => by
    rw [hdents] at hd
    exact Finset.mem_singleton.1 hd
  refine ⟨fun d hd => absurd hd (Finset.notMem_empty d), fun d hd _ => ?_, fun d hd => ?_, ⟨by decide, hparent⟩,
    fun p hp c hc => ?_, fun d hd hne => absurd (honly d hd) hne, fun p hp => ?_, fun k d => ?_, fun k => ?_,
    fun c hc _ _ hne => absurd (honly c hc) hne⟩
  · rw [honly d hd, hcount, hchildren]
    decide
  · rw [hdents, Finset.mem_singleton]
    by_contra hne
    rw [extra, if_neg hne] at hd
    exact lt_irrefl 0 hd
  · rw [honly p hp, hchildren] at hc
    exact absurd hc List.not_mem_nil
  · rw [honly p hp, hchildren]
    exact List.nodup_nil
  · rw [hhash k]
    exact iff_of_false List.not_mem_nil fun ⟨h1, h2, _⟩ => h2 (honly d h1)
  · rw [hhash k]
    exact List.nodup_nil

/-- the state after init_droot -/
structure Rooted (v : Vfs) : Prop where
  tree : Tree v extra ∅
  dents : v.dents = {droot}
  sbs : v.sbs = ∅
  mount : (v.node droot).mount = none
  cached : v.inodes.cached = []

theorem initDroot_ends : Ends (initDroot boot) (fun _ => False) Rooted :=
  show Rooted _ from ⟨tree_alone rfl (fun _ => rfl) ⟨rfl, rfl, rfl⟩, rfl, rfl, rfl, rfl⟩

/-- the state after alloc_super_block -/
structure Covered (v : Vfs) (b : ℕ) : Prop where
  tree : Tree v (extra + one droot) ∅
  dents : v.dents = {droot}
  sbs : v.sbs = {b}
  super : v.super b = ⟨droot, none⟩
  mount : (v.node droot).mount = some b
  cached : v.inodes.cached = []

theorem allocSuperBlock_ends (h : Rooted v) (b : ℕ) :
    Ends (allocSuperBlock v b droot) (fun _ => False) fun v' => Covered v' b := by
  have hin : droot ∈ v.dents := h.tree.live droot h.tree.root.1
  rw [allocSuperBlock, if_neg (by rw [h.mount]; simp)]
  refine (dref_ends h.tree hin).bind fun v1 hv1 => ?_
  obtain ⟨hv1, htree⟩ := hv1
  have hframe : v1.dents = v.dents ∧ v1.sbs = v.sbs ∧ v1.inodes = v.inodes := by
    subst hv1
    exact ⟨rfl, rfl, rfl⟩
  have hself : (v1.setNode droot { v1.node droot with mount := some b }).node droot = { v1.node droot with mount := some b } :=
    Vfs.setNode_self _
  refine ⟨htree.congr rfl rfl fun x => ?_, hframe.1.trans h.dents, ?_, Function.update_self .., ?_,
    hframe.2.2 ▸ h.cached⟩
  · show ((v1.setNode droot { v1.node droot with mount := some b }).node x).parent = _ ∧
      ((v1.setNode droot { v1.node droot with mount := some b }).node x).inode = _ ∧
      ((v1.setNode droot { v1.node droot with mount := some b }).node x).children = _ ∧
      ((v1.setNode droot { v1.node droot with mount := some b }).node x).refCount = _
    by_cases hx : x = droot
    · subst hx
      rw [hself]
      exact ⟨rfl, rfl, rfl, rfl⟩
    · rw [Vfs.setNode_of_ne hx]
      exact ⟨rfl, rfl, rfl, rfl⟩
  · show insert b v1.sbs = {b}
    rw [hframe.2.1, h.sbs]
    rfl
  · show ((v1.setNode droot { v1.node droot with mount := some b }).node droot).mount = some b
    rw [hself]

/-- iget gives an inode of the super block -/
theorem iget_ends (I : Inodes) (sb : Option ℕ) (nr : ℕ) (mem : Option ℕ) (load : Option Bool) :
    Ends (iget I sb nr mem load) (· = .iref) fun res => match res.1 with
      | none => res.2 = I
      | some i => (res.2.node i).sb = sb := by
  unfold iget
  cases hf : I.cached.find? fun i => (I.node i).sb = sb ∧ (I.node i).nr = nr with
  | some i =>
    have hi := List.find?_some hf
    rw [decide_eq_true_eq] at hi
    refine (iref_ends I i).bind fun I1 hI => ?_
    subst hI
    exact (inode_setCount I i).2.1.trans hi.1
  | none =>
    cases mem with
    | none => rfl
    | some i =>
      cases load with
      | none => rfl
      | some isDir =>
        show (Function.update I.node i ⟨nr, sb, isDir, 1⟩ i).sb = sb
        rw [Function.update_self]

theorem minixGetSuper_ends (h : Covered v b) {mem dmem : Option ℕ} {load : Option Bool} (hd : ∀ d ∈ dmem, d ≠ droot) :
    Ends (minixGetSuper v b mem load dmem) (fun _ => True) fun res =>
      res.1 = success → ∃ r, Fine res.2 (extra + one droot + one r) b r ∧ res.2.dents = {r, droot} := by
  rw [minixGetSuper]
  refine ((iget_ends v.inodes (some b) minixRootInr mem load).imp (fun _ _ => trivial) fun _ hv => hv).bind fun res hres => ?_
  obtain ⟨i, I⟩ := res
  cases i with
  | none => exact fun he => absurd (show -error = success from he) (by decide)
  | some i =>
    have hsb : (I.node i).sb = some b := hres
    have hmem : ∀ d ∈ dmem, d ∉ ({ v with inodes := I } : Vfs).dents := fun d hdm => by
      show d ∉ v.dents
      rw [h.dents, Finset.mem_singleton]
      exact hd d hdm
    have hget := dget_ends i none dmem (h.tree.inodes I)
      (by decide) hmem (fun p hp => (nomatch hp)) (by show (I.node i).sb ≠ none; rw [hsb]; exact nofun)
    refine (hget.imp (fun _ _ => trivial) fun _ hv => hv).bind fun res hres => ?_
    obtain ⟨d, v1⟩ := res
    cases d with
    | none => exact trivial
    | some d =>
      obtain ⟨hne, htree, hgrown⟩ := hres
      have hdents : v1.dents = {d, droot} := hgrown.dents.trans (congrArg (insert d) h.dents)
      have hnew : v1.node d = ⟨[], 0, none, some b, i, [], none, 1⟩ := by
        rw [hgrown.new (by show d ∉ v.dents; rw [h.dents, Finset.mem_singleton]; exact hne)]
        show Dentry.mk [] 0 none (I.node i).sb i [] none 1 = _
        rw [hsb]
      have hdroot : droot ∈ v.dents := h.tree.live droot h.tree.root.1
      have honly : ∀ x ∈ v1.dents, x ≠ droot → x = d := fun x hx hxne => by
        rw [hdents, Finset.mem_insert, Finset.mem_singleton] at hx
        exact hx.resolve_right hxne
      refine fun _ => ⟨d, ⟨htree.congr rfl rfl fun _ => ⟨rfl, rfl, rfl, rfl⟩,
        ⟨hgrown.super.1.trans h.sbs, ?_, ?_, ?_, ?_⟩, ?_⟩, hdents⟩
      · show Function.update v1.super b { v1.super b with root := some d } b = _
        rw [Function.update_self, hgrown.super.2]
        show SuperBlock.mk (v.super b).parent (some d) = _
        rw [h.super]
      · exact (fixed_mount (hgrown.fixed droot hdroot)).trans h.mount
      · exact ⟨htree.live d (by simp [one]), hne, congrArg Dentry.parent hnew⟩
      · intro x hx hxne
        show (v1.node x).mount = none ∧ (v1.node x).sb = some b
        rw [honly x hx hxne, hnew]
        exact ⟨rfl, rfl⟩
      · intro x hx hxne hp
        change (v1.node x).parent ≠ none at hp
        rw [honly x hx hxne, hnew] at hp
        exact absurd rfl hp

/-- **mount_root.** -/
theorem mountRoot_ends (b : ℕ) (mem : Option ℕ) (load : Option Bool) (dmem : Option ℕ) (hd : ∀ d ∈ dmem, d ≠ droot) :
    Ends (mountRoot boot b mem load dmem) (fun _ => True) fun v =>
      ∃ r, Fine v (one droot + one droot + base r) b r ∧ v.dents = {r, droot} := by
  rw [mountRoot]
  refine (initDroot_ends.imp (fun _ _ => trivial) fun _ hv => hv).bind fun v1 hv1 => ?_
  have hmount : Ends (doMount v1 b droot mem load dmem) (fun _ => True) fun res =>
      res.1 = success → ∃ r, Fine res.2 (extra + one droot + one r) b r ∧ res.2.dents = {r, droot} :=
    ((allocSuperBlock_ends hv1 b).imp (fun _ _ => trivial) fun _ hv => hv).bind fun v2 hv2 => minixGetSuper_ends hv2 hd
  refine hmount.bind fun res hres => ?_
  obtain ⟨ret, v2⟩ := res
  by_cases hret : ret = success
  · obtain ⟨r, hfine, hdents⟩ := hres hret
    show Ends (if ret ≠ success then _ else _) _ _
    rw [if_neg (by simpa using hret)]
    have hin : droot ∈ v2.dents := hfine.live hfine.tree.root.1
    refine ((hfine.dref hin).imp (fun _ _ => trivial) fun _ hv => hv).bind fun v3 hv3 => ?_
    obtain ⟨hfine3, -, hdents3, -⟩ := hv3
    refine (hfine3.dref (hdents3.symm ▸ hin)).imp (fun _ _ => trivial) fun v4 hv4 =>
      ⟨r, ?_, hv4.2.2.1.trans (hdents3.trans hdents)⟩
    have hsum : one droot + one droot + base r = extra + one droot + one r + one droot + one droot := by
      rw [base]
      abel
    rw [hsum]
    exact hv4.1
  · show Ends (if ret ≠ success then _ else _) _ _
    rw [if_pos hret]
    exact trivial

theorem mounted_ok (h : Mounted s) : ∃ b r, NameiOk s b r ∧ s.vfs.dents = {r, droot} := by
  obtain ⟨t, b, mem, load, dmem, -, hd, hv, ht, htask, hothers, -, hlost⟩ := h
  obtain ⟨r, hfine, hdents⟩ := (mountRoot_ends b mem load dmem hd).value hv
  have hrefs : ∑ u ∈ s.tasks, (s.task u).refs = one droot + one droot := by
    rw [← Finset.add_sum_erase _ _ ht, htask, Finset.sum_eq_zero fun u hu => ?_]
    · simp only [Task.refs, owed_some, add_zero]
    · rw [hothers u (Finset.ne_of_mem_erase hu)]
      simp only [Task.refs, owed_none, add_zero]
  refine ⟨b, r, ⟨?_, fun u _ => ?_⟩, hdents⟩
  · rw [held_eq hfine.mount, hrefs, hlost, add_zero]
    exact hfine
  · by_cases hu : u = t
    · rw [hu, htask]
      exact ⟨by simp, fun d hd => by cases hd; exact ⟨0, rfl⟩, fun w hw => (nomatch hw)⟩
    · rw [hothers u hu]
      exact ⟨by simp, fun d hd => (nomatch hd), fun w hw => (nomatch hw)⟩

theorem reachable_ok (h : system.Reach s) : ∃ b r, NameiOk s b r :=
  Lts.Reach.inv (M := system) (P := fun s => ∃ b r, NameiOk s b r)
    (fun _ h0 => by
      obtain ⟨b, r, hok, -⟩ := mounted_ok h0
      exact ⟨b, r, hok⟩)
    (fun _ _ _ ⟨b, r, hok⟩ hst => ⟨b, r, ((step_ok hok hst.1).value hst.2).1⟩) h

theorem reach_of_only {ok : Sys → Op → Prop} (h : (system.only ok).Reach s) : system.Reach s :=
  Lts.Reach.inv (M := system.only ok) (P := system.Reach) (fun _ h0 => .start h0) (fun _ _ _ hs hst => .step hs hst.2) h

/-- the references to a dentry in any run; those of lookups that page faults have ended come on top -/
theorem counts_lost (h : system.Reach s) :
    (∀ d ∈ s.vfs.dents, (s.vfs.node d).refCount = s.uses d + (if d = droot then 3 else 0) + s.lost d) ∧
    (∀ d ∈ s.vfs.dents, 0 < s.uses d + s.lost d) ∧
    (∀ d, d ∉ s.vfs.dents → s.fields d = 0 ∧ s.mounts d = 0 ∧ s.walks d = 0 ∧ s.lost d = 0 ∧
      ∀ c ∈ s.vfs.dents, (s.vfs.node c).parent ≠ some d) := by
  obtain ⟨b, r, hok⟩ := reachable_ok h
  have htree := hok.fine.tree
  have hpointed : ∀ d, d ∉ s.vfs.dents → s.held d = 0 := fun d hd =>
    Nat.eq_zero_of_not_pos fun hpos => hd (htree.live d hpos)
  refine ⟨fun d hd => ?_, fun d hd => ?_, fun d hd => ?_⟩
  · rw [(htree.count d hd (Finset.notMem_empty d)).1, Sys.uses, Sys.held]
    omega
  · obtain ⟨h1, h2⟩ := htree.count d hd (Finset.notMem_empty d)
    by_cases hdroot : d = droot
    · have := mounts_eq hok.fine.mount d
      rw [Sys.uses, this, one, if_pos hdroot]
      omega
    · rw [h1] at h2
      simp only [Sys.held, if_neg hdroot] at h2
      rw [Sys.uses]
      omega
  · have hzero := hpointed d hd
    simp only [Sys.held] at hzero
    refine ⟨by omega, by omega, by omega, by omega, fun c hc hp => ?_⟩
    by_cases hcd : c = droot
    · rw [hcd, htree.root.2] at hp
      cases hp
      exact hd (htree.live droot htree.root.1)
    · exact hd (htree.parent c hc hcd (Finset.notMem_empty c) d hp).1

/-- **Every reference is counted.** While no page fault ends a lookup, the references to a dentry are its children, the root and
pwd fields of tasks, mounts, super block roots and lookups in progress, and three more for droot. A dentry that nothing points
to is gone, nothing points to one that is gone, no BUG_ON on dentries fires, and the hash has at most one dentry for each inode
and parent. -/
theorem counts_reachable (h : (system.only fun _ op => op.faults = false).Reach s) :
    (∀ d ∈ s.vfs.dents, (s.vfs.node d).refCount = s.uses d + if d = droot then 3 else 0) ∧
    (∀ d ∈ s.vfs.dents, 0 < s.uses d) ∧
    (∀ d, d ∉ s.vfs.dents → s.fields d = 0 ∧ s.mounts d = 0 ∧ s.walks d = 0 ∧
      ∀ c ∈ s.vfs.dents, (s.vfs.node c).parent ≠ some d) ∧
    (∀ op e, legal s op → step s op = .error e → e ≠ .dref ∧ e ≠ .dput ∧ e ≠ .children ∧ e ≠ .dcache ∧
      (OfTask (s.task op.task) e ∨ (e = .overrun ∧ op.overruns = true))) ∧
    ∀ j k, (s.vfs.hash j).Nodup ∧ ∀ c ∈ s.vfs.hash j, ∀ d ∈ s.vfs.hash k, s.vfs.key c = s.vfs.key d → c = d := by
  have hreach := reach_of_only h
  have hlost : s.lost = 0 := by
    refine Lts.Reach.inv (M := system.only fun _ op => op.faults = false) (P := fun s => s.lost = 0) (fun s h0 => ?_)
      (fun s op s' hs hst => (step_lost hst.2.2 hst.1).trans hs) h
    obtain ⟨_, _, _, _, _, _, _, _, _, _, _, _, hlost⟩ := h0
    exact hlost
  obtain ⟨hcount, huses, hgone⟩ := counts_lost hreach
  have hzero : ∀ d, s.lost d = 0 := fun d => congrFun hlost d
  obtain ⟨b, r, hok⟩ := reachable_ok hreach
  have htree := hok.fine.tree
  refine ⟨fun d hd => ?_, fun d hd => ?_, fun d hd => ?_, fun op e hl he => ?_, fun j k => ⟨htree.hnodup j, ?_⟩⟩
  · rw [hcount d hd, hzero, add_zero]
  · have hpos := huses d hd
    rwa [hzero, add_zero] at hpos
  · obtain ⟨h1, h2, h3, -, h4⟩ := hgone d hd
    exact ⟨h1, h2, h3, h4⟩
  · have hof := (step_ok hok hl).error he
    refine ⟨?_, ?_, ?_, ?_, hof⟩
    all_goals
      rintro rfl
      rcases hof with ((hof | hof) | hof) | hof
      · cases hof
      · cases hof
      · cases hof.1
      · cases hof.1
  · intro c hc d hd hkey
    obtain ⟨h1, h2, -⟩ := (htree.hashed j c).1 hc
    obtain ⟨h3, h4, -⟩ := (htree.hashed k d).1 hd
    exact htree.unique c h1 d h3 h2 h4 hkey

/-! ## One task -/

/-- the tree that mount_root leaves, with the super block, the inode and the dentry of the root at 2 -/
def mounted : Vfs :=
  match mountRoot boot 2 (some 2) (some true) (some 2) with
  | .ok v => v
  | .error _ => boot

def first : Sys := ⟨mounted, {0},
    fun u => if u = 0 then ⟨some droot, some droot, none⟩ else ⟨none, none, none⟩, ∅, 0⟩

theorem first_mounted : Mounted first := by
  refine ⟨0, 2, some 2, some true, some 2, fun i hi => ?_, fun d hd => ?_, rfl, by decide, rfl,
    fun u hu => if_neg hu, rfl, rfl⟩
  · cases hi
    decide
  · cases hd
    decide

theorem first_reached : system.Reach first := .start first_mounted

instance (s : Sys) (t : ℕ) (w : Walk) (a : Answer) : Decidable (Meets s t w a) :=
  inferInstanceAs (Decidable (_ ∧ _ ∧ _ ∧ _))

instance (s : Sys) (op : Op) : Decidable (legal s op) :=
  match op with
  | .start .. => inferInstanceAs (Decidable (_ ∧ _ ∧ _ ∧ _ ∧ _))
  | .walk .. => inferInstanceAs (Decidable (_ ∧ _ ∧ _))
  | .kernelThread .. => inferInstanceAs (Decidable (_ ∧ _ ∧ _ ∧ _))
  | .release .. => inferInstanceAs (Decidable (_ ∧ _))
  | .fault .. | .overrun .. => inferInstanceAs (Decidable (_ ∧ _ ∧ _))

/-- a legal step that ends well -/
def next (s : Sys) (op : Op) : Option Sys := if legal s op then (step s op).toOption else none

theorem next_step (s : Sys) (op : Op) (s' : Sys) (h : next s op = some s') : system.step s op s' := by
  rw [next] at h
  split_ifs at h with hl
  refine ⟨hl, ?_⟩
  cases hst : step s op with
  | error e =>
    rw [hst] at h
    cases h
  | ok s1 =>
    rw [hst] at h
    exact congrArg Except.ok (Option.some.inj h)

/-- "a" -/
def nameA : List Byte := [0x61]

/-- "ab" -/
def nameAb : List Byte := [0x61, 0x62]

/-- a file system that has directories only -/
def answer (i : Option ℕ) : Answer := ⟨⟨fun i => ⟨i, some 2, true, 9⟩, []⟩, i, i⟩

/-- task t changes to a directory under the root that is not cached and has inode i -/
def chdirDisk (t i : ℕ) (comp : List Byte) : List Op :=
  [.start t .chdir (slash :: comp) true, .walk t ⟨.chdir, some droot, droot, comp, .name, true⟩ (answer none),
    .walk t ⟨.chdir, some droot, 2, [], .disk droot comp, true⟩ (answer (some i)),
    .walk t ⟨.chdir, some droot, i, [], .finish, true⟩ (answer none)]

/-- "/" -/
def chdirTop (t : ℕ) : List Op :=
  [.start t .chdir [slash] true, .walk t ⟨.chdir, some droot, droot, [], .name, true⟩ (answer none),
    .walk t ⟨.chdir, some droot, droot, [], .finish, true⟩ (answer none),
    .walk t ⟨.chdir, some droot, 2, [], .finish, true⟩ (answer none)]

/-- task 0 changes to "/a", makes task 1, which changes to "/ab", and changes to "/" -/
def moves : List Op := chdirDisk 0 3 nameA ++ .kernelThread 0 1 :: chdirDisk 1 4 nameAb ++ chdirTop 0

/-- the child "ab", the super block and the pwd of task 0 point to the root, and "a" has been freed -/
theorem counts_moves : ∃ s : Sys, (s.vfs.node 2).refCount = s.uses 2 ∧ s.uses 2 = 3 ∧ (s.task 1).pwd = some 4 ∧
    3 ∉ s.vfs.dents ∧ s.fields 3 = 0 := by
  have hfields : (moves.foldlM (fun s op => if op.faults = false then next s op else none) first).any (fun s =>
      2 ∈ s.vfs.dents ∧ s.uses 2 = 3 ∧ (s.task 1).pwd = some 4 ∧ 3 ∉ s.vfs.dents) = true := by decide +kernel
  obtain ⟨s, hs, hp⟩ := (Option.any_eq_true _ _).1 hfields
  obtain ⟨hin, huses, hpwd, hgone⟩ := of_decide_eq_true hp
  have hreach : (system.only fun _ op => op.faults = false).Reach s :=
    .fold_only (M := system) next_step (.start first_mounted) hs
  obtain ⟨hcount, -, hnobody, -, -⟩ := counts_reachable hreach
  exact ⟨s, hcount 2 hin, huses, hpwd, hgone, (hnobody 3 hgone).1⟩

theorem droot_counts : system.Reach first ∧ droot ∈ first.vfs.dents ∧ (first.vfs.node droot).refCount = 6 ∧
    first.uses droot = 3 := ⟨first_reached, by decide, by decide, by decide⟩

end SinsOs.Namei
