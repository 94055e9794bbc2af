/-
Components of any length in minix_lookup (fs/minix/inode.c), and the paths they come from (fs/namei.c).

lookup cuts a path at its slashes and hands every component on as it is. minix_lookup copies it into tmp_name_buf, which has
MINIX_NAME_LEN + 1 bytes, at every entry that it compares; and it compares MINIX_NAME_LEN bytes.

- `minixLookup_scan`, `tmpNameBuf_stores`: where the scan of minix_lookup stops, and the stores of its copy.
- `safe_iff`: the stores are inside of tmp_name_buf, and the component is not taken for an entry with a shorter name, exactly
  when the component is no longer than a name or no entry is compared.
- `long_names_iff`: so it is in every lookup of every path; the children of a dentry are compared with the whole component.
- `comp_reached`: nothing on the way looks at the length.
-/
import SinsOs.Fs.NameiRun
import SinsOs.Fs.FindEntry
import Mathlib.Data.List.TakeWhile

namespace SinsOs.LongNames

open SinsOs.Core SinsOs.Lib SinsOs.Dcache SinsOs.Namei
open Minix (Device Cache Cursor Turn slotInr slotName dentriesPerBlock tmpNameBuf lookupTurn lookupLoop compareEntry nextBlock
  getMinixBlock bmap)

/-! ## Stores -/

/-- the stores of strncpy from byte i on -/
def strncpyStores (src : Ptr) : ℕ → ℕ → List (ℕ × Byte)
  | _, 0 => []
  | i, count + 1 => (i, src i) :: if src i = 0 then [] else strncpyStores src (i + 1) count

/-- strncpy, and tmp_name_buf[len] = 0 -/
def copyStores (name : List Byte) : List (ℕ × Byte) := strncpyStores (cstr name) 0 name.length ++ [(name.length, 0)]

def store (p : Ptr) (s : ℕ × Byte) : Ptr := Function.update p s.1 s.2

/-- the entry is compared: it is no end of a block, or the next block is there -/
def compares (dev : Device) (inode : Minix.Inode) (c : Cursor) : Bool :=
  if slotInr c.data c.slot ≠ 0 then
    if !c.held then false
    else if c.slot ≥ dentriesPerBlock then
      match bmap dev inode (c.i / dentriesPerBlock) with
      | none => false
      | some block => (nextBlock dev block).isSome
    else true
  else true

/-- the stores into tmp_name_buf, turn after turn -/
def loopStores (dev : Device) (inode : Minix.Inode) (tmp : Ptr) (name : List Byte) (dentries : ℕ) :
    ℕ → Cursor → List (ℕ × Byte)
  | 0, _ => []
  | fuel + 1, c =>
    if c.i < dentries then
      (if compares dev inode c then copyStores name else []) ++
        match lookupTurn dev inode tmp c with
        | some (.next c, _) => loopStores dev inode tmp name dentries fuel c
        | some (.found _, _) | none => []
    else []

/-- the first block of the directory, and its buffer -/
def firstCursor (dev : Device) (inode : Minix.Inode) : Option Cursor :=
  let block := (inode.zone 0).toNat
  if block = 0 then none else (getMinixBlock dev block).map fun data => ⟨0, block, data, 0, true⟩

def dentries (inode : Minix.Inode) : ℕ := inode.size / Minix.sizeofDentry

def lookupStores (dev : Device) (inode : Minix.Inode) (stack : Ptr) (name : List Byte) : List (ℕ × Byte) :=
  match firstCursor dev inode with
  | none => []
  | some c => loopStores dev inode (tmpNameBuf stack name) name (dentries inode) (dentries inode) c

/-- where the loop stops -/
def lookupScan (dev : Device) (inode : Minix.Inode) (stack : Ptr) (name : List Byte) :
    Option (Option Cursor × List Minix.Access) :=
  match firstCursor dev inode with
  | none => some (none, [])
  | some c => lookupLoop dev inode (tmpNameBuf stack name) (dentries inode) (dentries inode) c

/-! ## Safety -/

def tmpNameLen : ℕ := Minix.minixNameLen + 1

def entryName (c : Cursor) : List Byte := strn Minix.minixNameLen (slotName c.data c.slot)

/-- the entry has another name, which is a prefix of the component -/
def OnlyPrefix (entry name : List Byte) : Prop := entry <+: name ∧ entry ≠ name

/-- minix_lookup writes inside of tmp_name_buf, and does not stop at an entry whose name is only a prefix -/
def Safe (dev : Device) (inode : Minix.Inode) (stack : Ptr) (name : List Byte) : Prop :=
  (∀ s ∈ lookupStores dev inode stack name, s.1 < tmpNameLen) ∧
    ∀ c reads, lookupScan dev inode stack name = some (some c, reads) → ¬ OnlyPrefix (entryName c) name

/-- the directory has a first block that can be read, and entries -/
def Searched (dev : Device) (inode : Minix.Inode) : Prop := (firstCursor dev inode).isSome ∧ dentries inode ≠ 0

instance (dev : Device) (inode : Minix.Inode) : Decidable (Searched dev inode) := inferInstanceAs (Decidable (_ ∧ _))

variable {dev : Device} {inode : Minix.Inode} {cache : Cache} {stack tmp src : Ptr} {name : List Byte} {c c' : Cursor}

/-- the model of the loop is the one of the whole function -/
theorem minixLookup_scan (dev : Device) (cache : Cache) (inode : Minix.Inode) (stack : Ptr) (name : List Byte) :
    Minix.minixLookup dev cache inode stack name =
      (lookupScan dev inode stack name).map fun r => (r.1.bind (Minix.loadEntry cache), r.2) := by
  rw [Minix.minixLookup, lookupScan, firstCursor]
  split_ifs with hz
  · rfl
  · cases getMinixBlock dev (inode.zone 0).toNat <;> rfl

/-! ## The stores of a copy -/

theorem strncpyStores_lt (src : Ptr) (count i : ℕ) : ∀ s ∈ strncpyStores src i count, i ≤ s.1 ∧ s.1 < i + count := by
  induction count generalizing i with
  | zero => simp [strncpyStores]
  | succ count ih =>
    intro s hs
    rw [strncpyStores, List.mem_cons] at hs
    rcases hs with rfl | hs
    · exact ⟨le_rfl, by dsimp only; omega⟩
    · split_ifs at hs
      · exact absurd hs List.not_mem_nil
      · obtain ⟨hle, hlt⟩ := ih (i + 1) s hs
        exact ⟨by omega, by omega⟩

/-- stores above i leave what is below -/
theorem foldl_store_of_lt (stores : List (ℕ × Byte)) (p : Ptr) {i : ℕ} (h : ∀ s ∈ stores, i < s.1) :
    stores.foldl store p i = p i := by
  induction stores generalizing p with
  | nil => rfl
  | cons s stores ih =>
    rw [List.foldl_cons, ih _ fun s' hs' => h s' (List.mem_cons_of_mem _ hs'), store,
      Function.update_of_ne (h s List.mem_cons_self).ne]

/-- the copy is the stores one after the other -/
theorem strncpy_stores (dest src : Ptr) (count i : ℕ) (k : ℕ) :
    ((strncpyStores src i count).foldl store dest) (i + k) = strncpy (dest.add i) (src.add i) count k := by
  induction count generalizing dest i k with
  | zero => exact congrArg dest (Nat.add_comm i k)
  | succ count ih =>
    have hsrc : src.add i 0 = src i := congrArg src (Nat.zero_add i)
    rw [strncpyStores, List.foldl_cons]
    cases k with
    | zero =>
      have habove : ∀ s ∈ (if src i = 0 then [] else strncpyStores src (i + 1) count), i < s.1 := by
        intro s hs
        split_ifs at hs
        · exact absurd hs List.not_mem_nil
        · exact (strncpyStores_lt src count (i + 1) s hs).1
      have hstored : store dest (i, src i) i = src i := Function.update_self ..
      exact ((foldl_store_of_lt _ _ habove).trans hstored).trans hsrc.symm
    | succ k =>
      rw [strncpy]
      dsimp only
      rw [hsrc]
      have hother : store dest (i, src i) (i + (k + 1)) = dest (i + (k + 1)) := Function.update_of_ne (by omega) _ _
      split_ifs with h0
      · rw [List.foldl_nil, hother]
        exact congrArg dest (Nat.add_comm ..)
      · have hnext := ih (store dest (i, src i)) (i + 1) k
        rw [Nat.add_assoc, Nat.add_comm 1 k] at hnext
        rw [hnext]
        have hdest : (store dest (i, src i)).add (i + 1) = (dest.add i).add 1 := by
          funext j
          change store dest (i, src i) (j + (i + 1)) = dest (j + 1 + i)
          rw [store, Function.update_of_ne (by dsimp only; omega)]
          exact congrArg dest (by omega)
        have hsrc' : src.add (i + 1) = (src.add i).add 1 := by
          funext j
          exact congrArg src (by omega)
        rw [hdest, hsrc']

/-- **tmp_name_buf** is what the stores leave. -/
theorem tmpNameBuf_stores (stack : Ptr) (name : List Byte) : (copyStores name).foldl store stack = tmpNameBuf stack name := by
  rw [copyStores, List.foldl_append, List.foldl_cons, List.foldl_nil, tmpNameBuf, store]
  congr 1
  funext k
  have hcopy := strncpy_stores stack (cstr name) name.length 0 k
  rwa [Nat.zero_add] at hcopy

theorem copyStores_le (name : List Byte) : ∀ s ∈ copyStores name, s.1 ≤ name.length := by
  intro s hs
  rcases List.mem_append.1 hs with hs | hs
  · have := (strncpyStores_lt (cstr name) name.length 0 s hs).2
    omega
  · rw [List.mem_singleton.1 hs]

theorem nul_stored (name : List Byte) : (name.length, 0) ∈ copyStores name := List.mem_append_right _ List.mem_cons_self

/-! ## The loop -/

theorem loopStores_copy (dentries fuel : ℕ) (c : Cursor) :
    ∀ s ∈ loopStores dev inode tmp name dentries fuel c, s ∈ copyStores name := by
  induction fuel generalizing c with
  | zero => simp [loopStores]
  | succ fuel ih =>
    intro s hs
    rw [loopStores] at hs
    split_ifs at hs with h1 h2
    · rcases List.mem_append.1 hs with hs | hs
      · exact hs
      · split at hs
        · exact ih _ s hs
        · exact absurd hs List.not_mem_nil
        · exact absurd hs List.not_mem_nil
    · split at hs
      · exact ih _ s hs
      · exact absurd hs List.not_mem_nil
      · exact absurd hs List.not_mem_nil
    · exact absurd hs List.not_mem_nil

theorem firstCursor_start (h : firstCursor dev inode = some c) : c.i = 0 ∧ c.slot = 0 ∧ c.held = true := by
  rw [firstCursor] at h
  split_ifs at h
  obtain ⟨data, -, rfl⟩ := Option.map_eq_some_iff.1 h
  exact ⟨rfl, rfl, rfl⟩

/-- the first entry is compared -/
theorem lookupStores_first (h : Searched dev inode) : (name.length, 0) ∈ lookupStores dev inode stack name := by
  obtain ⟨c, hc⟩ := Option.isSome_iff_exists.1 h.1
  obtain ⟨hi, hslot, hheld⟩ := firstCursor_start hc
  obtain ⟨n, hn⟩ := Nat.exists_eq_succ_of_ne_zero h.2
  have hcompares : compares dev inode c = true := by
    have hlt : ¬ 0 ≥ dentriesPerBlock := by decide
    simp [compares, hheld, hslot, hlt]
  rw [lookupStores, hc, hn]
  change _ ∈ loopStores dev inode (tmpNameBuf stack name) name (n + 1) (n + 1) c
  rw [loopStores, hi, if_pos (Nat.succ_pos n), hcompares, if_pos rfl]
  exact List.mem_append_left _ (nul_stored name)

theorem no_dentries (h : ¬ Searched dev inode) (hc : firstCursor dev inode = some c) : dentries inode = 0 := by
  by_contra hne
  exact h ⟨by rw [hc]; rfl, hne⟩

theorem lookupStores_none (h : ¬ Searched dev inode) : lookupStores dev inode stack name = [] := by
  rw [lookupStores]
  cases hc : firstCursor dev inode with
  | none => rfl
  | some c =>
    dsimp only
    rw [no_dentries h hc]
    rfl

theorem lookupScan_none (h : ¬ Searched dev inode) : lookupScan dev inode stack name = some (none, []) := by
  rw [lookupScan]
  cases hc : firstCursor dev inode with
  | none => rfl
  | some c =>
    dsimp only
    rw [no_dentries h hc]
    rfl

theorem compareEntry_found (h : compareEntry tmp c = .found c') :
    strncmp tmp (slotName c'.data c'.slot) Minix.minixNameLen = 0 := by
  rw [compareEntry] at h
  split_ifs at h with hhit
  cases h
  exact hhit.2

theorem lookupTurn_found {reads : List Minix.Access} (h : lookupTurn dev inode tmp c = some (.found c', reads)) :
    strncmp tmp (slotName c'.data c'.slot) Minix.minixNameLen = 0 := by
  rw [lookupTurn] at h
  split_ifs at h
  · obtain ⟨b, -, hb⟩ := Option.map_eq_some_iff.1 h
    cases hnext : nextBlock dev b with
    | none =>
      rw [hnext] at hb
      cases hb
    | some data =>
      rw [hnext] at hb
      exact compareEntry_found (congrArg Prod.fst hb)
  · exact compareEntry_found (congrArg Prod.fst (Option.some.inj h))
  · exact compareEntry_found (congrArg Prod.fst (Option.some.inj h))

theorem lookupLoop_hit {dentries fuel : ℕ} {reads : List Minix.Access}
    (h : lookupLoop dev inode tmp dentries fuel c = some (some c', reads)) :
    strncmp tmp (slotName c'.data c'.slot) Minix.minixNameLen = 0 := by
  induction fuel generalizing c reads with
  | zero => cases h
  | succ fuel ih =>
    rw [lookupLoop] at h
    split_ifs at h
    · split at h
      case h_1 => cases h
      case h_2 c1 reads1 hturn =>
        cases h
        exact lookupTurn_found hturn
      case h_3 c1 reads1 hturn =>
        obtain ⟨⟨find, reads2⟩, hrest, heq⟩ := Option.map_eq_some_iff.1 h
        obtain rfl : find = some c' := congrArg Prod.fst heq
        exact ih hrest
    · cases h

/-- an entry where the scan stops has the name, if it fits -/
theorem entryName_eq (hlen : name.length ≤ Minix.minixNameLen) (hname : ∀ b ∈ name, b ≠ 0) {reads : List Minix.Access}
    (h : lookupScan dev inode stack name = some (some c, reads)) : entryName c = name := by
  rw [lookupScan] at h
  cases hc : firstCursor dev inode with
  | none =>
    rw [hc] at h
    cases h
  | some c0 =>
    rw [hc] at h
    have hhit := (strncmp_eq_zero _ _ _).1 (lookupLoop_hit h)
    rw [Minix.strn_tmpNameBuf stack hlen hname] at hhit
    exact hhit.symm

/-- **A lookup is safe** exactly when the component is no longer than a name or no entry is compared. -/
theorem safe_iff (hname : ∀ b ∈ name, b ≠ 0) (dev : Device) (inode : Minix.Inode) (stack : Ptr) :
    Safe dev inode stack name ↔ name.length ≤ Minix.minixNameLen ∨ ¬ Searched dev inode := by
  constructor
  · rintro ⟨hinside, -⟩
    by_cases hs : Searched dev inode
    · exact Or.inl (Nat.le_of_lt_succ (hinside _ (lookupStores_first hs)))
    · exact Or.inr hs
  · rintro (hlen | hs)
    · refine ⟨fun s hs => ?_, fun c reads hscan hpre => hpre.2 (entryName_eq hlen hname hscan)⟩
      have hcopy : s ∈ copyStores name := by
        rw [lookupStores] at hs
        split at hs
        · exact absurd hs List.not_mem_nil
        · exact loopStores_copy _ _ _ s hs
      exact Nat.lt_succ_of_le ((copyStores_le name s hcopy).trans hlen)
    · refine ⟨fun s hin => ?_, fun c reads hscan => ?_⟩
      · rw [lookupStores_none hs] at hin
        exact absurd hin List.not_mem_nil
      · rw [lookupScan_none hs] at hscan
        cases hscan

/-! ## Paths -/

variable {s : Sys} {v : Vfs}

/-- a cached child that is found begins with the component -/
theorem findCached_whole (hname : ∀ b ∈ name, b ≠ 0) {dir entry : ℕ} (h : findCached v dir name = some entry) :
    ¬ OnlyPrefix (v.node entry).name name := by
  rintro ⟨⟨more, hmore⟩, hne⟩
  have hcmp := List.find?_some h
  rw [decide_eq_true_eq, strncmp_eq_zero, strn_cstr name hname, List.take_length] at hcmp
  have hclean : ∀ b ∈ (v.node entry).name, b ≠ 0 := fun b hb => hname b (hmore ▸ List.mem_append_left _ hb)
  rw [strn_cstr _ hclean] at hcmp
  have hlen := congrArg List.length hcmp
  have hsum := congrArg List.length hmore
  rw [List.length_append] at hsum
  rw [List.length_take] at hlen
  have hnil : more = [] := List.eq_nil_of_length_eq_zero (by omega)
  rw [hnil, List.append_nil] at hmore
  exact hne hmore

/-- **Components of paths.** In every reachable state, whatever paths the tasks look up: a task that is in the file system with
a component is safe there, for all directories, if and only if the component is no longer than a name or no entry is compared; and
the search in memory takes no component for a child whose name is only a prefix of it. -/
theorem long_names_iff (h : system.Reach s) {t : ℕ} (ht : t ∈ s.tasks) {w : Walk} (hw : (s.task t).walk = some w) :
    (∀ prev comp, w.phase = .disk prev comp → ∀ dev inode stack,
      (Safe dev inode stack comp ↔ comp.length ≤ Minix.minixNameLen ∨ ¬ Searched dev inode)) ∧
    ∀ dir entry, findCached s.vfs dir (w.rest.takeWhile (· ≠ slash)) = some entry →
      ¬ OnlyPrefix (s.vfs.node entry).name (w.rest.takeWhile (· ≠ slash)) := by
  obtain ⟨b, r, hok⟩ := reachable_ok h
  obtain ⟨-, -, hwalk⟩ := (hok.tasks t ht).walk w hw
  constructor
  · intro prev comp hphase dev inode stack
    exact safe_iff (fun c hc => ((hwalk.disk prev comp hphase).2.clean c hc).1) dev inode stack
  · intro dir entry hfind
    exact findCached_whole (fun c hc => hwalk.rest c ((List.takeWhile_sublist _).subset hc)) hfind

/-! ## A component of 15 characters -/

/-- **A component of any length** comes to the file system. -/
theorem comp_reached {comp : List Byte} (hc : CompOk comp) :
    ∃ s w, system.Reach s ∧ 0 ∈ s.tasks ∧ (s.task 0).walk = some w ∧ w.nul = true ∧ w.phase = .disk droot comp := by
  obtain ⟨c, cs, rfl⟩ := List.exists_cons_of_ne_nil hc.ne
  obtain ⟨w0, hw0⟩ : ∃ w0 : Walk, w0 = ⟨.open_, some droot, droot, c :: cs, .name, true⟩ := ⟨_, rfl⟩
  obtain ⟨v1, hv1⟩ : ∃ v1, v1 = mounted.setCount droot ((mounted.node droot).refCount + 1) := ⟨_, rfl⟩
  obtain ⟨s1, hs1⟩ : ∃ s1, s1 = ({ first with vfs := v1 } : Sys).setTask 0 { first.task 0 with walk := some w0 } :=
    ⟨_, rfl⟩
  have hbegins : begins (first.task 0) .open_ (c :: cs) true = w0 := by
    rw [begins, if_neg (hc.clean c List.mem_cons_self).2, hw0]
    rfl
  have hstart : step first (.start 0 .open_ (c :: cs) true) = .ok s1 := by
    rw [hs1, step, lookupStart, hbegins, hv1, hw0]
    rfl
  have hlegal0 : legal first (.start 0 .open_ (c :: cs) true) :=
    ⟨Finset.mem_singleton_self 0, rfl, fun b hb => (hc.clean b hb).1, Finset.notMem_empty 0,
      fun hnil => absurd hnil (List.cons_ne_nil c cs)⟩
  have hreach1 : system.Reach s1 := .step first_reached ⟨hlegal0, hstart⟩
  -- the root of the file system is dentry 2, and it has no children
  have hname : ∀ b ∈ c :: cs, decide (b ≠ slash) = true := fun b hb => decide_eq_true (hc.clean b hb).2
  have hm : mountTop (v1.sbs.card + 1) v1 droot = .ok 2 := by
    rw [hv1]
    rfl
  have halive : FindEntry.Alive v1 2 := by
    rw [hv1]
    exact ⟨by decide, fun x hx => absurd hx List.not_mem_nil⟩
  have hnone : findCached v1 2 (c :: cs) = none := by
    rw [hv1]
    rfl
  obtain ⟨v2, hfind⟩ := FindEntry.findEntry_disk hm halive hnone
  have hdir : (v1.inodes.node (v1.node w0.iter).inode).isDir = true := by
    rw [hv1, hw0]
    rfl
  obtain ⟨w1, hw1⟩ : ∃ w1 : Walk, w1 = ⟨.open_, some droot, 2, [], .disk droot (c :: cs), true⟩ := ⟨_, rfl⟩
  have hstep : walkStep v1 w0 ⟨v1.inodes, none, none⟩ = .ok (.going w1, v2) := by
    have hphase : w0.phase = .name := by rw [hw0]
    have hrest : w0.rest = c :: cs := by rw [hw0]
    have hiter : w0.iter = droot := by rw [hw0]
    rw [walkStep, hphase]
    dsimp only
    rw [nameStep, hrest, List.takeWhile_eq_self_iff.2 hname, List.dropWhile_eq_nil_iff.2 hname]
    dsimp only
    rw [if_neg hc.ne, if_neg hc.dot, if_neg hc.dots, if_pos hdir, hiter, hfind, hw1, hw0]
    rfl
  have hwalk : (s1.task 0).walk = some w0 := by rw [hs1]; rfl
  have hlegal : legal s1 (.walk 0 w0 ⟨v1.inodes, none, none⟩) := by
    refine ⟨⟨?_, hwalk, fun d hd => ?_, fun i hi => ?_⟩, fun hfault => ?_, fun _ => rfl⟩
    · rw [hs1]
      exact Finset.mem_singleton_self 0
    · cases hd
    · cases hi
    · rw [hw0] at hfault
      cases hfault.2.1
  obtain ⟨s2, hs2⟩ : ∃ s2, s2 = ({ s1 with vfs := v2 } : Sys).setTask 0 { s1.task 0 with walk := some w1 } := ⟨_, rfl⟩
  have hwalked : step s1 (.walk 0 w0 ⟨v1.inodes, none, none⟩) = .ok s2 := by
    have hvfs : s1.vfs = v1 := by rw [hs1]; rfl
    rw [step, walk, hvfs, hstep, hs2]
    rfl
  refine ⟨s2, w1, .step hreach1 ⟨hlegal, hwalked⟩, ?_, ?_, ?_, ?_⟩
  · rw [hs2, hs1]
    exact Finset.mem_singleton_self 0
  · rw [hs2]
    rfl
  · rw [hw1]
  · rw [hw1]

/-- "foo" is looked up -/
theorem foo_safe : ∃ s w, system.Reach s ∧ (s.task 0).walk = some w ∧ w.phase = .disk droot FindEntry.foo ∧
    Safe FindEntry.fooDisk FindEntry.fooDir (fun _ => 0) FindEntry.foo := by
  have hcomp : CompOk FindEntry.foo := ⟨by decide, by decide, by decide, by decide⟩
  obtain ⟨s, w, h, ht, hw, -, hp⟩ := comp_reached hcomp
  exact ⟨s, w, h, hw, hp, ((long_names_iff h ht hw).1 droot FindEntry.foo hp _ _ _).2 (Or.inl (by decide))⟩

/-- n times "a" -/
def manyA (n : ℕ) : List Byte := List.replicate n 0x61

/-- an entry of 14 characters in block 4 -/
def longDisk : Device where
  bread := fun n => some (if n = 1 then cstr (FindEntry.dirEntry 2 (manyA 14)) else fun _ => 0)
  kmalloc := fun _ => true

def longDir : Minix.Inode := ⟨16, fun i => if i = 0 then 4 else 0⟩

/-- A component of 15 characters comes to the lookup of a directory with an entry of 14 of them: it is written over the end of
tmp_name_buf, and the entry is taken for it. -/
theorem long_component : ∃ s w, system.Reach s ∧ (s.task 0).walk = some w ∧ w.phase = .disk droot (manyA 15) ∧
    (15, 0) ∈ lookupStores longDisk longDir (fun _ => 0) (manyA 15) ∧
    (∃ r, Minix.minixLookup longDisk Minix.fullCache longDir (fun _ => 0) (manyA 15) = some r ∧
      r.1.map Minix.Found.inode = some 2) ∧
    (∃ c reads, lookupScan longDisk longDir (fun _ => 0) (manyA 15) = some (some c, reads) ∧
      OnlyPrefix (entryName c) (manyA 15)) ∧
    ¬ Safe longDisk longDir (fun _ => 0) (manyA 15) := by
  have hcomp : CompOk (manyA 15) := ⟨by decide, by decide, by decide, by decide⟩
  obtain ⟨s, w, h, -, hw, -, hp⟩ := comp_reached hcomp
  have hlen : (manyA 15).length = 15 := rfl
  have hstore : ((manyA 15).length, 0) ∈ lookupStores longDisk longDir (fun _ => 0) (manyA 15) :=
    lookupStores_first ⟨by decide, by decide⟩
  rw [hlen] at hstore
  have hname : (lookupScan longDisk longDir (fun _ => 0) (manyA 15)).map (fun r => r.1.map entryName) =
      some (some (manyA 14)) := by
    decide +kernel
  have hfound : (Minix.minixLookup longDisk Minix.fullCache longDir (fun _ => 0) (manyA 15)).map
      (fun r => r.1.map Minix.Found.inode) = some (some 2) := by
    rw [minixLookup_scan]
    decide +kernel
  obtain ⟨r, hr, hinode⟩ := Option.map_eq_some_iff.1 hfound
  obtain ⟨⟨find, reads⟩, hscan, hentry⟩ := Option.map_eq_some_iff.1 hname
  obtain ⟨c, rfl, hc⟩ := Option.map_eq_some_iff.1 hentry
  refine ⟨s, w, h, hw, hp, hstore, ⟨r, hr, hinode⟩, ⟨c, reads, hscan, ?_⟩, fun hsafe => ?_⟩
  · rw [hc]
    exact ⟨by decide, by decide⟩
  · exact absurd (hsafe.1 _ hstore) (by decide)

end SinsOs.LongNames
