/-
Descriptor tables around sys_exec: sys_open in the caller, the copy of the table in kernel_thread, sys_close and sys_exit in
the child, sys_close in the caller.

No count is zero before its last slot is cleared, so the calls of the child free nothing, and in the end the counts are those
after sys_open. This needs of the caller's table only that each of its files has a reference, which is so in every reachable
state (`counted_reachable`), also behind a sys_dup2 that leaves counts too high.

- `kernelThread_shared`, `closeAll_same`: the table of the child comes and goes.
- `open_fails`, `close_opened`: sys_open and sys_close leave what was before.
-/
import SinsOs.Fs.Open

namespace SinsOs.Open

open SinsOs.Core SinsOs.Lib

variable {s s0 s1 s' : Sys} {t c n fd f : ℕ}

/-! ## Relations between two states -/

/-- s1 with another table for n, whose slots are counted -/
structure Shared (n : ℕ) (s1 s : Sys) : Prop where
  tables : ∀ t ≠ n, s.fdt t = s1.fdt t
  alloc : s.alloc = s1.alloc
  iref : s.iref = s1.iref
  file : ∀ f, s.file f = { s1.file f with refCount := (s1.file f).refCount + (s.fdt n).count (some f) }
  len : (s.fdt n).length = nrOpen
  open_ : ∀ f, some f ∈ s.fdt n → 1 ≤ (s1.file f).refCount

/-- the same but for the table of n -/
structure Same (n : ℕ) (s1 s : Sys) : Prop where
  tables : ∀ t ≠ n, s.fdt t = s1.fdt t
  alloc : s.alloc = s1.alloc
  iref : s.iref = s1.iref
  file : s.file = s1.file

/-- what a task sees of the files: the tables, and the files that are not freed -/
structure Restored (s0 s : Sys) : Prop where
  tables : ∀ t ∈ s0.tasks, s.fdt t = s0.fdt t
  alloc : s.alloc = s0.alloc
  iref : s.iref = s0.iref
  file : ∀ f ∈ s0.alloc, s.file f = s0.file f

theorem Restored.refl (s : Sys) : Restored s s := ⟨fun _ _ => rfl, rfl, rfl, fun _ _ => rfl⟩

theorem Same.refl (n : ℕ) (s : Sys) : Same n s s := ⟨fun _ _ => rfl, rfl, rfl, rfl⟩

/-- each file of a table has a reference -/
def Counted (s : Sys) (c : ℕ) : Prop := (s.fdt c).length = nrOpen ∧ ∀ f, some f ∈ s.fdt c → f ∈ s.alloc ∧
    1 ≤ (s.file f).refCount

/-! ## The table of the child -/

theorem addRef_file (s : Sys) (f : ℕ) (k : ℤ) (g : ℕ) :
    (s.addRef f k).file g = { s.file g with refCount := (s.file g).refCount + if g = f then k else 0 } := by
  simp only [Sys.addRef, Sys.setFile]
  split_ifs with hg
  · rw [hg]
  · rw [add_zero]

theorem setSlot_self (s : Sys) (t fd : ℕ) (x : Option ℕ) : (s.setSlot t fd x).fdt t = (s.fdt t).set fd x := if_pos rfl

theorem setSlot_ne (s : Sys) {t u : ℕ} (fd : ℕ) (x : Option ℕ) (h : u ≠ t) :
    (s.setSlot t fd x).fdt u = s.fdt u := if_neg h

/-- a slot with its reference -/
def pointed (s : Sys) (n fd : ℕ) : Option ℕ → Sys
  | none => s.setSlot n fd none
  | some f => (s.setSlot n fd (some f)).addRef f 1

/-- what the loop of kernel_thread has done behind slot fd -/
structure Copied (n fd : ℕ) (fs : List (Option ℕ)) (s s' : Sys) : Prop where
  tables : ∀ t ≠ n, s'.fdt t = s.fdt t
  tasks : s'.tasks = s.tasks
  alloc : s'.alloc = s.alloc
  iref : s'.iref = s.iref
  table : s'.fdt n = (s.fdt n).take fd ++ fs ++ (s.fdt n).drop (fd + fs.length)
  file : ∀ f, s'.file f = { s.file f with refCount := (s.file f).refCount + fs.count (some f) }

theorem copyTable_copied (fs : List (Option ℕ)) : ∀ (s : Sys) (fd : ℕ), fd + fs.length ≤ (s.fdt n).length →
    Copied n fd fs s (copyTable s n fs fd) := by
  induction fs with
  | nil =>
    intro s fd _
    refine ⟨fun _ _ => rfl, rfl, rfl, rfl, ?_, fun f => ?_⟩
    · rw [List.append_nil, List.length_nil, Nat.add_zero, copyTable, List.take_append_drop]
    · rw [List.count_nil, Nat.cast_zero, add_zero, copyTable]
  | cons x fs ih =>
    intro s fd hlen
    rw [List.length_cons] at hlen
    obtain ⟨u, hu⟩ : ∃ u, u = pointed s n fd x := ⟨_, rfl⟩
    have hstep : copyTable s n (x :: fs) fd = copyTable u n fs (fd + 1) := by
      rw [hu]
      cases x <;> rfl
    have hrest : u.fdt = (s.setSlot n fd x).fdt ∧ u.tasks = s.tasks ∧ u.alloc = s.alloc ∧ u.iref = s.iref := by
      rw [hu]
      cases x <;> exact ⟨rfl, rfl, rfl, rfl⟩
    obtain ⟨hfdt, htasks, halloc, hiref⟩ := hrest
    have hself : u.fdt n = (s.fdt n).set fd x := by rw [hfdt, setSlot_self]
    have hfile : ∀ f, u.file f = { s.file f with refCount := (s.file f).refCount + if x = some f then 1 else 0 } := by
      intro f
      rw [hu]
      cases x with
      | none => rw [if_neg (Option.some_ne_none f).symm, add_zero]; rfl
      | some g =>
        rw [pointed, addRef_file]
        simp only [Option.some.injEq, eq_comm]
        rfl
    obtain ⟨h1, h2, h3, h4, h5, h6⟩ := ih u (fd + 1) (by rw [hself, List.length_set]; omega)
    rw [hstep]
    refine ⟨fun t ht => (h1 t ht).trans (by rw [hfdt, setSlot_ne s fd x ht]), h2.trans htasks, h3.trans halloc,
      h4.trans hiref, ?_, fun f => ?_⟩
    · have htake : ((s.fdt n).set fd x).take (fd + 1) = (s.fdt n).take fd ++ [x] := by
        have hlt : fd < ((s.fdt n).set fd x).length := by rw [List.length_set]; omega
        have hshort : ((s.fdt n).take fd).length ≤ fd := by rw [List.length_take]; exact Nat.min_le_left _ _
        rw [List.take_succ_eq_append_getElem hlt, List.getElem_set_self, List.take_set, List.set_eq_of_length_le hshort]
      rw [h5, hself, htake, List.drop_set, if_pos (by omega), List.length_cons, Nat.add_right_comm fd 1, Nat.add_assoc fd,
        List.append_cons _ x fs]
    · rw [h6, hfile, List.count_cons, Nat.cast_add, add_assoc, add_comm (fs.count (some f) : ℤ)]
      by_cases hx : x = some f
      · rw [if_pos hx, if_pos (beq_iff_eq.2 hx), Nat.cast_one]
      · rw [if_neg hx, if_neg (mt beq_iff_eq.1 hx), Nat.cast_zero]

/-- **The child gets the table.** -/
theorem kernelThread_shared (hc : Counted s c) :
    Shared n s (kernelThread s c (some n)) ∧ (kernelThread s c (some n)).fdt n = s.fdt c ∧
      (kernelThread s c (some n)).tasks = insert n s.tasks := by
  set u : Sys := { s with
    tasks := insert n s.tasks
    fdt := fun t => if t = n then List.replicate nrOpen none else s.fdt t } with hu
  have hself : u.fdt n = List.replicate nrOpen none := if_pos rfl
  have hcopied : Copied n 0 (s.fdt c) u (kernelThread s c (some n)) :=
    copyTable_copied (s.fdt c) u 0 (by rw [hself, List.length_replicate, hc.1, Nat.zero_add])
  have htable : (kernelThread s c (some n)).fdt n = s.fdt c := by
    rw [hcopied.table, hself, List.take_zero, List.nil_append, hc.1, Nat.zero_add, List.drop_replicate, Nat.sub_self,
      List.replicate_zero, List.append_nil]
  refine ⟨⟨fun t ht => (hcopied.tables t ht).trans (if_neg ht), hcopied.alloc, hcopied.iref, fun f => ?_, ?_,
    fun f hf => ?_⟩, htable, hcopied.tasks⟩
  · rw [hcopied.file, htable]
  · rw [htable, hc.1]
  · exact (hc.2 f (htable ▸ hf)).2

/-- sys_close in the child frees nothing -/
theorem close_shared (h : Shared n s1 s) (fd : ℕ) : Shared n s1 (sysClose s n fd).2 ∧
    (sysClose s n fd).2.fdt n = (s.fdt n).set fd none ∧ (sysClose s n fd).2.tasks = s.tasks := by
  have hsame : ∀ {fd}, s.slot n fd = none → (s.fdt n).set fd none = s.fdt n := by
    intro fd hnone
    by_cases hlt : fd < (s.fdt n).length
    · rw [Sys.slot, List.getElem?_eq_getElem hlt, Option.join_some] at hnone
      rw [← hnone, List.set_getElem_self]
    · exact List.set_eq_of_length_le (not_lt.1 hlt)
  rw [sysClose]
  split_ifs with hfd
  · exact ⟨h, (List.set_eq_of_length_le (h.len.le.trans hfd)).symm, rfl⟩
  cases hslot : s.slot n fd with
  | none => exact ⟨h, (hsame hslot).symm, rfl⟩
  | some f =>
    have hlt : fd < (s.fdt n).length := by rw [h.len]; omega
    have hget : (s.fdt n)[fd] = some f := by rwa [Sys.slot, List.getElem?_eq_getElem hlt, Option.join_some] at hslot
    have hmem : some f ∈ s.fdt n := hget ▸ List.getElem_mem hlt
    set u := (s.setSlot n fd none).addRef f (-1) with hu
    have htable : u.fdt n = (s.fdt n).set fd none := setSlot_self s n fd none
    have hcount : ∀ g, ((u.fdt n).count (some g) : ℤ) = (s.fdt n).count (some g) + if g = f then -1 else 0 := by
      intro g
      have hset := List.count_set hlt (a := none) (b := some g)
      rw [hget, if_neg (show ¬ ((none : Option ℕ) == some g) = true by simp)] at hset
      rw [htable, hset]
      by_cases hg : g = f
      · have hcount := List.count_pos_iff.2 hmem
        rw [hg, if_pos rfl, if_pos (beq_self_eq_true _)]
        omega
      · rw [if_neg hg, if_neg (by simpa using Ne.symm hg)]
        omega
    have hfile : ∀ g, u.file g = { s1.file g with refCount := (s1.file g).refCount + (u.fdt n).count (some g) } := by
      intro g
      rw [hcount, hu, addRef_file]
      change ({ s.file g with refCount := (s.file g).refCount + _ } : File) = _
      rw [h.file, add_assoc]
    have hpos : (u.file f).refCount ≠ 0 := by
      have := h.open_ f hmem
      rw [hfile]
      dsimp only
      omega
    dsimp only
    rw [if_neg hpos]
    refine ⟨⟨fun t ht => (setSlot_ne s fd none ht).trans (h.tables t ht), h.alloc, h.iref, hfile, ?_, fun g hg => ?_⟩,
      htable, rfl⟩
    · rw [htable, List.length_set, h.len]
    · rw [htable] at hg
      exact h.open_ g ((List.mem_or_eq_of_mem_set hg).resolve_right (Option.some_ne_none g))

/-- **The table of the child goes.** -/
theorem closeAll_shared (fds : List ℕ) : ∀ s, Shared n s1 s → Shared n s1 (closeAll s n fds) ∧
    (closeAll s n fds).tasks = s.tasks ∧
    ∀ fd : ℕ, fd ∈ fds ∨ ((s.fdt n)[fd]?).join = none → (((closeAll s n fds).fdt n)[fd]?).join = none := by
  induction fds with
  | nil => exact fun s h => ⟨h, rfl, fun fd hfd => hfd.resolve_left List.not_mem_nil⟩
  | cons k fds ih =>
    intro s h
    obtain ⟨u, hu⟩ : ∃ u, u = if (s.slot n k).isSome then (sysClose s n k).2 else s := ⟨_, rfl⟩
    obtain ⟨hclose, htable, htasks⟩ := close_shared h k
    have hstep : Shared n s1 u ∧ u.tasks = s.tasks ∧ ((u.fdt n)[k]?).join = none ∧
        ∀ fd : ℕ, ((s.fdt n)[fd]?).join = none → ((u.fdt n)[fd]?).join = none := by
      rw [hu]
      split_ifs with hsome
      · refine ⟨hclose, htasks, ?_, fun fd hnone => ?_⟩
        · rw [htable, List.getElem?_set_self']
          cases (s.fdt n)[k]? <;> rfl
        · rw [htable, List.getElem?_set]
          split_ifs with hk
          · rfl
          · rfl
          · exact hnone
      · exact ⟨h, rfl, Option.not_isSome_iff_eq_none.1 hsome, fun _ hnone => hnone⟩
    obtain ⟨hshared, hkeep, hnone, hold⟩ := hstep
    obtain ⟨h1, h2, h3⟩ := ih u hshared
    rw [closeAll, ← hu]
    refine ⟨h1, h2.trans hkeep, fun fd hfd => h3 fd ?_⟩
    rcases hfd with hfd | hfd
    · rcases List.mem_cons.1 hfd with rfl | hfd
      · exact Or.inr hnone
      · exact Or.inl hfd
    · exact Or.inr (hold fd hfd)

theorem sysExit_same (h : Shared n s1 s) : Same n s1 (sysExit s n) ∧ (sysExit s n).tasks = s.tasks := by
  obtain ⟨hshared, htasks, hnone⟩ := closeAll_shared (List.range nrOpen) s h
  rw [sysExit]
  generalize closeAll s n (List.range nrOpen) = u at hshared htasks hnone ⊢
  have hempty : ∀ f, some f ∉ u.fdt n := fun f hf => by
    obtain ⟨fd, hlt, hget⟩ := List.getElem_of_mem hf
    have hfd := hnone fd (Or.inl (List.mem_range.2 (hshared.len ▸ hlt)))
    rw [List.getElem?_eq_getElem hlt, Option.join_some, hget] at hfd
    exact Option.some_ne_none f hfd
  refine ⟨⟨hshared.tables, hshared.alloc, hshared.iref, ?_⟩, htasks⟩
  funext f
  rw [hshared.file, List.count_eq_zero_of_not_mem (hempty f), Nat.cast_zero, add_zero]

/-! ## sys_open and sys_close in the caller -/

/-- sys_open has put a new file into an empty slot -/
structure Opened (c fd f : ℕ) (s0 s1 : Sys) : Prop where
  empty : s0.slot c fd = none
  fresh : f ∉ s0.alloc
  range : fd < nrOpen
  table : s1.fdt c = (s0.fdt c).set fd (some f)
  tables : ∀ t ≠ c, s1.fdt t = s0.fdt t
  alloc : s1.alloc = insert f s0.alloc
  count : (s1.file f).refCount = 1
  iref : ∀ i, s1.iref i = s0.iref i + if i = (s1.file f).inode then 1 else 0
  file : ∀ g ≠ f, s1.file g = s0.file g
  tasks : s1.tasks = s0.tasks

theorem addIref_cancel (iref : ℕ → ℤ) (i : ℕ) : (fun j => if j = i then (if j = i then iref j + 1 else iref j) + -1
    else if j = i then iref j + 1 else iref j) = iref := by
  funext j
  split_ifs <;> ring

/-- **sys_open.** It fails and leaves all as it was, or opens a new file. -/
theorem open_cases (hlen : (s0.fdt c).length = nrOpen) {flags : ℕ} {env : OpenEnv} (hm : ∀ f ∈ env.memory, f ∉ s0.alloc) :
    ((sysOpen s0 c flags env).1 < 0 ∧ (sysOpen s0 c flags env).2.tasks = s0.tasks ∧
      Restored s0 (sysOpen s0 c flags env).2) ∨
    ∃ fd f, (sysOpen s0 c flags env).1 = (fd : ℕ) ∧ Opened c fd f s0 (sysOpen s0 c flags env).2 := by
  have herror : -error < 0 := by decide
  have hnomem : -eNomem < 0 := by decide
  cases hfd : getUnusedFd (s0.fdt c) with
  | none =>
    rw [sysOpen, hfd]
    exact Or.inl ⟨herror, rfl, .refl s0⟩
  | some r =>
    obtain ⟨fd, fdt⟩ := r
    rw [sysOpen_eq hfd]
    cases env.inode with
    | none => exact Or.inl ⟨herror, rfl, .refl s0⟩
    | some i =>
      obtain ⟨hlt, hnone, -⟩ := getUnusedFd_spec hfd
      cases hmem : env.memory with
      | none => exact Or.inl ⟨hnomem, rfl, fun _ _ => rfl, rfl, addIref_cancel s0.iref i, fun _ _ => rfl⟩
      | some f =>
        have hf := hm f hmem
        dsimp only
        set s1 : Sys := ({ (s0.addIref i 1).setFile f ⟨flags &&& oMask, 0, i, 1⟩ with
          alloc := insert f (s0.addIref i 1).alloc } : Sys).setSlot c fd (some f) with hs1
        have hself : s1.file f = ⟨flags &&& oMask, 0, i, 1⟩ := if_pos rfl
        have hother : ∀ g ≠ f, s1.file g = s0.file g := fun g hg => if_neg hg
        split_ifs with hok
        · refine Or.inr ⟨fd, f, rfl, hnone, hf, hlen ▸ hlt, if_pos rfl, fun t ht => if_neg ht, rfl, by rw [hself],
            fun j => ?_, hother, rfl⟩
          rw [hself]
          simp only [hs1, Sys.setSlot, Sys.setFile, Sys.addIref]
          split_ifs <;> ring
        · -- the slot, the file and the reference are taken back
          refine Or.inl ⟨herror, rfl, fun t _ => ?_, Finset.erase_insert hf, ?_,
            fun g hg => hother g fun he => hf (he ▸ hg)⟩
          · simp only [hs1, Sys.setSlot, Sys.freeFile, Sys.addIref, Sys.setFile, if_true]
            split_ifs with ht
            · subst ht
              rw [List.getElem?_eq_getElem hlt, Option.join_some] at hnone
              rw [List.set_set, ← hnone, List.set_getElem_self]
            · rfl
          · change (s1.addIref (s1.file f).inode (-1)).iref = s0.iref
            rw [hself]
            exact addIref_cancel s0.iref i

/-- **sys_close.** The file that was opened is freed again, whatever happened to the table of another task. -/
theorem close_opened (h : Opened c fd f s0 s1) (hs : Same n s1 s) (hlen : (s0.fdt c).length = nrOpen) (hc : c ∈ s0.tasks)
    (hn : n ∉ s0.tasks) : Restored s0 (sysClose s c fd).2 ∧ (sysClose s c fd).2.tasks = s.tasks := by
  have hne : ∀ t ∈ s0.tasks, t ≠ n := fun t ht he => hn (he ▸ ht)
  have htable : s.fdt c = (s0.fdt c).set fd (some f) := (hs.tables c (hne c hc)).trans h.table
  have hlt : fd < ((s0.fdt c).set fd (some f)).length := by rw [List.length_set, hlen]; exact h.range
  have hslot : s.slot c fd = some f := by
    rw [Sys.slot, htable, List.getElem?_eq_getElem hlt, List.getElem_set_self, Option.join_some]
  rw [sysClose, if_neg (not_le.2 h.range), hslot]
  set u := (s.setSlot c fd none).addRef f (-1) with hu
  have hfile : ∀ g, u.file g = { s1.file g with refCount := (s1.file g).refCount + if g = f then -1 else 0 } := fun g => by
    rw [hu, addRef_file, ← hs.file]
    rfl
  have hzero : (u.file f).refCount = 0 := by
    rw [hfile, h.count, if_pos rfl]
    rfl
  have hinode : (u.file f).inode = (s1.file f).inode := by rw [hfile]
  dsimp only
  rw [if_pos hzero]
  refine ⟨⟨fun t ht => ?_, ?_, ?_, fun g hg => ?_⟩, rfl⟩
  · change (s.setSlot c fd none).fdt t = s0.fdt t
    by_cases htc : t = c
    · have hnone := h.empty
      rw [List.length_set] at hlt
      rw [Sys.slot, List.getElem?_eq_getElem hlt, Option.join_some] at hnone
      rw [htc, setSlot_self, htable, List.set_set, ← hnone, List.set_getElem_self]
    · rw [setSlot_ne s fd none htc, hs.tables t (hne t ht), h.tables t htc]
  · change s.alloc.erase f = s0.alloc
    rw [hs.alloc, h.alloc, Finset.erase_insert h.fresh]
  · funext i
    change (if i = (u.file f).inode then s.iref i + -1 else s.iref i) = s0.iref i
    rw [hinode, hs.iref, h.iref]
    split_ifs <;> ring
  · have hgf : g ≠ f := fun he => h.fresh (he ▸ hg)
    change u.file g = s0.file g
    rw [hfile, if_neg hgf, add_zero, ← h.file g hgf]

/-! ## Every run -/

/-- the ref_counts are not below the numbers of slots -/
structure AtLeast (s : Sys) : Prop where
  len : ∀ t ∈ s.tasks, (s.fdt t).length = nrOpen
  live : ∀ t ∈ s.tasks, ∀ f, some f ∈ s.fdt t → f ∈ s.alloc
  refs : ∀ f ∈ s.alloc, (s.slots f : ℤ) ≤ (s.file f).refCount

theorem AtLeast.counted (h : AtLeast s) (hc : c ∈ s.tasks) : Counted s c := by
  refine ⟨h.len c hc, fun f hf => ⟨h.live c hc f hf, ?_⟩⟩
  have hpos := slots_pos hc hf
  have hle := h.refs f (h.live c hc f hf)
  omega

/-- a slot is set, and the counts go on covering the slots -/
theorem AtLeast.setSlot (h : AtLeast s) (ht : t ∈ s.tasks) {x : Option ℕ} (hx : ∀ g ∈ x, g ∈ s.alloc)
    {u : Sys} (hfdt : u.fdt = (s.setSlot t fd x).fdt) (htasks : u.tasks = s.tasks) (halloc : u.alloc = s.alloc)
    (hrefs : ∀ g ∈ s.alloc, ((s.setSlot t fd x).slots g : ℤ) ≤ (u.file g).refCount) : AtLeast u := by
  refine ⟨fun v hv => ?_, fun v hv g hg => ?_, fun g hg => ?_⟩
  · rw [hfdt]
    by_cases hvt : v = t
    · rw [hvt, setSlot_self, List.length_set, h.len t ht]
    · rw [setSlot_ne s fd x hvt, h.len v (htasks ▸ hv)]
  · rw [hfdt] at hg
    rw [halloc]
    by_cases hvt : v = t
    · rw [hvt, setSlot_self] at hg
      rcases List.mem_or_eq_of_mem_set hg with hg | rfl
      · exact h.live t ht g hg
      · exact hx g rfl
    · rw [setSlot_ne s fd x hvt] at hg
      exact h.live v (htasks ▸ hv) g hg
  · rw [show u.slots g = (s.setSlot t fd x).slots g by simp only [Sys.slots, hfdt, htasks]; rfl]
    exact hrefs g (halloc ▸ hg)

/-- the slots of a file after a store into one of them -/
theorem slots_le (h : AtLeast s) (ht : t ∈ s.tasks) (hfd : fd < nrOpen) (x : Option ℕ) (g : ℕ) :
    (s.setSlot t fd x).slots g ≤ s.slots g + if x = some g then 1 else 0 := by
  have hcount := slots_setSlot ht (by rw [h.len t ht]; exact hfd) x g
  omega

theorem AtLeast.pointed (h : AtLeast s) (ht : t ∈ s.tasks) (hfd : fd < nrOpen) {x : Option ℕ}
    (hx : ∀ g ∈ x, g ∈ s.alloc) :
    AtLeast (Open.pointed s t fd x) := by
  have hle := slots_le h ht hfd x
  cases x with
  | none =>
    refine h.setSlot ht hx rfl rfl rfl fun g hg => ?_
    have hg1 := hle g
    have href := h.refs g hg
    rw [if_neg (Option.some_ne_none g).symm] at hg1
    change _ ≤ (s.file g).refCount
    omega
  | some f =>
    refine h.setSlot ht hx rfl rfl rfl fun g hg => ?_
    have hg1 := hle g
    have href := h.refs g hg
    rw [Open.pointed, addRef_file]
    change _ ≤ (s.file g).refCount + _
    simp only [Option.some.injEq, eq_comm (a := f)] at hg1
    split_ifs at hg1 ⊢ <;> omega

theorem AtLeast.close (h : AtLeast s) (ht : t ∈ s.tasks) (fd : ℕ) : AtLeast (sysClose s t fd).2 := by
  rw [sysClose]
  split_ifs with hfd
  · exact h
  cases hslot : s.slot t fd with
  | none => exact h
  | some f =>
    have hlt : fd < (s.fdt t).length := by rw [h.len t ht]; omega
    have hcount := slots_setSlot ht hlt none (s := s)
    have hu : AtLeast ((s.setSlot t fd none).addRef f (-1)) := by
      refine h.setSlot ht (by simp) rfl rfl rfl fun g hg => ?_
      have hg1 := hcount g
      have href := h.refs g hg
      rw [hslot, if_neg (Option.some_ne_none g).symm] at hg1
      rw [addRef_file]
      change _ ≤ (s.file g).refCount + _
      simp only [Option.some.injEq, eq_comm (a := f)] at hg1
      split_ifs at hg1 ⊢ <;> omega
    set u := (s.setSlot t fd none).addRef f (-1) with hdef
    dsimp only
    split_ifs with hzero
    · -- no slot is left
      refine ⟨hu.len, fun v hv g hg => ?_, fun g hg => hu.refs g (Finset.mem_of_mem_erase hg)⟩
      have hin := hu.live v hv g hg
      refine Finset.mem_erase.2 ⟨?_, hin⟩
      rintro rfl
      have hpos : 0 < u.slots g := slots_pos hv hg
      have hle := hu.refs g hin
      rw [hzero] at hle
      omega
    · exact hu

theorem AtLeast.opened {s1 : Sys} (h : AtLeast s) (hc : c ∈ s.tasks) (ho : Opened c fd f s s1) : AtLeast s1 := by
  have hfdt : ∀ t, s1.fdt t = (s.setSlot c fd (some f)).fdt t := fun t => by
    by_cases htc : t = c
    · rw [htc, setSlot_self, ho.table]
    · rw [setSlot_ne s fd _ htc, ho.tables t htc]
  have hmem : ∀ t ∈ s.tasks, ∀ g, some g ∈ s1.fdt t → g = f ∨ g ∈ s.alloc := fun t ht g hg => by
    by_cases htc : t = c
    · rw [htc, ho.table] at hg
      rcases List.mem_or_eq_of_mem_set hg with hg | hg
      · exact Or.inr (h.live c hc g hg)
      · exact Or.inl (Option.some.inj hg)
    · rw [ho.tables t htc] at hg
      exact Or.inr (h.live t ht g hg)
  have hslots : ∀ g, s1.slots g ≤ s.slots g + if some f = some g then 1 else 0 := fun g => by
    have heq : s1.slots g = (s.setSlot c fd (some f)).slots g := by
      rw [Sys.slots, Sys.slots, ho.tasks]
      exact Finset.sum_congr rfl fun t _ => by rw [hfdt]
    exact heq ▸ slots_le h hc ho.range (some f) g
  refine ⟨fun t ht => ?_, fun t ht g hg => ?_, fun g hg => ?_⟩
  · rw [hfdt]
    by_cases htc : t = c
    · rw [htc, setSlot_self, List.length_set, h.len c hc]
    · rw [setSlot_ne s fd _ htc, h.len t (ho.tasks ▸ ht)]
  · rw [ho.alloc]
    rcases hmem t (ho.tasks ▸ ht) g hg with rfl | hg
    · exact Finset.mem_insert_self g s.alloc
    · exact Finset.mem_insert_of_mem hg
  · have hle := hslots g
    by_cases hgf : g = f
    · have hzero : s.slots f = 0 := Finset.sum_eq_zero fun t ht =>
        List.count_eq_zero_of_not_mem fun hin => ho.fresh (h.live t ht f hin)
      rw [hgf] at hle ⊢
      rw [if_pos rfl, hzero] at hle
      rw [ho.count]
      omega
    · have href := h.refs g ((Finset.mem_insert.1 (ho.alloc ▸ hg)).resolve_left hgf)
      rw [if_neg (fun he => hgf (Option.some.inj he).symm)] at hle
      rw [ho.file g hgf]
      omega

theorem AtLeast.restored (h : AtLeast s) (hr : Restored s s') (ht : s'.tasks = s.tasks) : AtLeast s' := by
  have hslots : ∀ g, s'.slots g = s.slots g := fun g => by
    rw [Sys.slots, Sys.slots, ht]
    exact Finset.sum_congr rfl fun t ht => by rw [hr.tables t ht]
  refine ⟨fun t hts => ?_, fun t hts g hg => ?_, fun g hg => ?_⟩
  · rw [hr.tables t (ht ▸ hts)]
    exact h.len t (ht ▸ hts)
  · rw [hr.tables t (ht ▸ hts)] at hg
    exact hr.alloc ▸ h.live t (ht ▸ hts) g hg
  · rw [hr.alloc] at hg
    rw [hslots, hr.file g hg]
    exact h.refs g hg

theorem AtLeast.copyTable (fs : List (Option ℕ)) : ∀ (s : Sys) (fd : ℕ), AtLeast s → n ∈ s.tasks →
    fd + fs.length ≤ nrOpen → (∀ f, some f ∈ fs → f ∈ s.alloc) → AtLeast (Open.copyTable s n fs fd) := by
  induction fs with
  | nil => exact fun s fd h _ _ _ => h
  | cons x fs ih =>
    intro s fd h hn hlen hfs
    rw [List.length_cons] at hlen
    have hx : ∀ g ∈ x, g ∈ s.alloc := fun g hg => hfs g (List.mem_cons.2 (Or.inl (Option.mem_def.1 hg).symm))
    have hfd : fd < nrOpen := by omega
    have hp := h.pointed hn hfd hx
    have htail : ∀ f, some f ∈ fs → f ∈ s.alloc := fun f hf => hfs f (List.mem_cons_of_mem _ hf)
    have hkeep : (Open.pointed s n fd x).tasks = s.tasks ∧ (Open.pointed s n fd x).alloc = s.alloc := by
      cases x <;> exact ⟨rfl, rfl⟩
    have hrest : AtLeast (Open.copyTable (Open.pointed s n fd x) n fs (fd + 1)) :=
      ih (Open.pointed s n fd x) (fd + 1) hp (hkeep.1 ▸ hn) (by omega) fun f hf => hkeep.2 ▸ htail f hf
    cases x <;> exact hrest

theorem AtLeast.kernelThread (h : AtLeast s) (hc : c ∈ s.tasks) {new : Option ℕ} (hnew : ∀ n ∈ new, n ∉ s.tasks) :
    AtLeast (Open.kernelThread s c new) := by
  cases new with
  | none => exact h
  | some n =>
    have hn : n ∉ s.tasks := hnew n rfl
    set u : Sys := { s with
      tasks := insert n s.tasks
      fdt := fun t => if t = n then List.replicate nrOpen none else s.fdt t } with hu
    have hself : u.fdt n = List.replicate nrOpen none := if_pos rfl
    have hother : ∀ t ∈ s.tasks, u.fdt t = s.fdt t := fun t ht => if_neg (by rintro rfl; exact hn ht)
    have hempty : ∀ g, some g ∉ u.fdt n := fun g hg => by
      rw [hself] at hg
      exact Option.some_ne_none g (List.eq_of_mem_replicate hg)
    have hslots : ∀ g, u.slots g = s.slots g := fun g => by
      rw [Sys.slots, Finset.sum_insert hn, List.count_eq_zero_of_not_mem (hempty g), zero_add]
      exact Finset.sum_congr rfl fun t ht => by rw [hother t ht]
    have hok : AtLeast u := by
      refine ⟨fun t ht => ?_, fun t ht g hg => ?_, fun g hg => by rw [hslots]; exact h.refs g hg⟩
      · rcases Finset.mem_insert.1 ht with rfl | ht
        · rw [hself, List.length_replicate]
        · rw [hother t ht, h.len t ht]
      · rcases Finset.mem_insert.1 ht with rfl | ht
        · exact absurd hg (hempty g)
        · exact h.live t ht g (hother t ht ▸ hg)
    exact AtLeast.copyTable (s.fdt c) u 0 hok (Finset.mem_insert_self n s.tasks) (by rw [h.len c hc]; omega) fun f hf =>
      h.live c hc f hf

theorem AtLeast.closeAll (fds : List ℕ) : ∀ s, AtLeast s → t ∈ s.tasks → AtLeast (Open.closeAll s t fds) := by
  induction fds with
  | nil => exact fun s h _ => h
  | cons fd fds ih =>
    intro s h ht
    rw [Open.closeAll]
    split_ifs
    · exact ih _ (h.close ht fd) (by rwa [close_tasks])
    · exact ih s h ht

theorem AtLeast.dup (h : AtLeast s) (ht : t ∈ s.tasks) (oldFd : ℕ) : AtLeast (sysDup s t oldFd).2 := by
  rcases dup_cases s t oldFd with heq | ⟨f, newFd, fdt, hslot, hnew, heq⟩
  · rw [heq]
    exact h
  · rw [Sys.slot, Option.join_eq_some_iff] at hslot
    have hlt := (getUnusedFd_spec hnew).1
    rw [h.len t ht] at hlt
    rw [heq]
    exact h.pointed ht hlt (x := some f) fun g hg => h.live t ht g (Option.mem_some.1 hg ▸ List.mem_of_getElem? hslot)

theorem AtLeast.dup2 (h : AtLeast s) (ht : t ∈ s.tasks) (oldFd newFd : ℕ) : AtLeast (sysDup2 s t oldFd newFd).2 := by
  rw [sysDup2]
  split_ifs with hfd hsame
  · exact h
  · cases s.slot t oldFd <;> cases s.slot t newFd <;> exact h
  cases hold : s.slot t oldFd with
  | none => exact h
  | some f =>
    cases hnew : s.slot t newFd with
    | none => exact h
    | some g =>
      rw [Sys.slot, Option.join_eq_some_iff] at hold
      rw [not_or, not_le, not_le] at hfd
      exact h.pointed ht hfd.2 (x := some f) fun g hg => h.live t ht g (Option.mem_some.1 hg ▸ List.mem_of_getElem? hold)

theorem AtLeast.step (h : AtLeast s) {o : Op} (hl : legal s o) : AtLeast (Open.step s o) := by
  cases o with
  | open_ t flags env =>
    rcases @open_cases s t (h.len t hl.1) flags env hl.2 with ⟨-, htasks, hr⟩ | ⟨fd, f, -, ho⟩
    · exact h.restored hr htasks
    · exact h.opened hl.1 ho
  | close t fd => exact h.close hl fd
  | dup t oldFd => exact h.dup hl oldFd
  | dup2 t oldFd newFd => exact h.dup2 hl oldFd newFd
  | kernelThread t new => exact h.kernelThread hl.1 hl.2
  | exit t => exact AtLeast.closeAll _ s h hl

/-- **The files of a table have references**, in every state, whatever sys_dup2 overwrites. -/
theorem counted_reachable (h : system.Reach s) (hc : c ∈ s.tasks) : Counted s c := by
  refine AtLeast.counted (h.inv (P := AtLeast) (fun s hb => ?_)
    fun s o s' hi (hst : legal s o ∧ Open.step s o = s') => hst.2 ▸ hi.step hst.1) hc
  have hok := (boot_ok hb).owes
  exact ⟨hok.len, hok.live, fun f hf => by rw [hok.refs f hf, add_zero]⟩

end SinsOs.Open
