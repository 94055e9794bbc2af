/-
The inode cache: icache, idecache, iget, iref, iput (fs/inode.c), with any number of tasks.

A call of iget is cut where it can sleep: before read_inode, for iput_lock, and in read_inode; a call of iput is cut in
write_inode. `held i` counts the references to inode i that iget and iref have handed out and iput has not got back. A
failed BUG_ON is `none`.

- `cache_reachable`: as long as no iget finds, after its read_inode, that another task has cached the same inode meanwhile,
  there is at most one cached inode for each (sb, nr), every iget returns it, its ref_count is the number of references
  held, no BUG_ON fires, and no held inode is freed.
- `race_frees`: two tasks that miss at the same time, and the inode is freed under the slower one.
-/
import SinsOs.Core.Lts

namespace SinsOs.InodeCache

open SinsOs.Core

/-! ## Model -/

def nrHashLists : ℕ := 20

structure Inode where
  sb : ℕ
  nr : ℕ
  refCount : ℕ
  dirty : Bool
deriving DecidableEq, Repr

/-- where a task sleeps: for iput_lock, in read_inode, in write_inode -/
inductive Call
  | waiting (i : ℕ)
  | reading (i : ℕ)
  | writing (i : ℕ)
deriving DecidableEq, Repr

def Call.inode : Call → ℕ
  | .waiting i | .reading i | .writing i => i

/-- the ref_count of the inode meanwhile -/
def Call.count : Call → ℕ
  | .waiting _ | .reading _ => 1
  | .writing _ => 0

structure Sys where
  node : ℕ → Inode
  alloc : Finset ℕ
  hash : ℕ → List ℕ
  iputLock : Bool
  calls : ℕ → Option Call
  held : ℕ → ℕ

def getHashIndex (sb nr : ℕ) : ℕ := (sb + nr * 301) % 2 ^ 32 % nrHashLists

namespace Sys

variable (s : Sys)

def key (i : ℕ) : ℕ × ℕ := ((s.node i).sb, (s.node i).nr)

def bucket (i : ℕ) : ℕ := getHashIndex (s.node i).sb (s.node i).nr

def setNode (i : ℕ) (x : Inode) : Sys := { s with node := fun j => if j = i then x else s.node j }

def setHash (k : ℕ) (l : List ℕ) : Sys := { s with hash := fun j => if j = k then l else s.hash j }

def setCall (t : ℕ) (c : Option Call) : Sys := { s with calls := fun u => if u = t then c else s.calls u }

def setHeld (i n : ℕ) : Sys := { s with held := fun j => if j = i then n else s.held j }

def hand (i : ℕ) : Sys := s.setHeld i (s.held i + 1)

/-- `kfree(i)` -/
def free (i : ℕ) : Sys := { s with alloc := s.alloc.erase i }

end Sys

def icache (s : Sys) (sb nr : ℕ) (cached : Option ℕ) : Option (Option ℕ × Sys) :=
  let index := getHashIndex sb nr
  match (s.hash index).find? fun pos => s.key pos = (sb, nr) with
  | some pos => if cached ≠ none ∧ cached ≠ some pos then none else some (some pos, s)
  | none => some (cached, match cached with
    | none => s
    | some c => s.setHash index (c :: s.hash index))

def idecache (s : Sys) (cached : ℕ) : Sys :=
  let index := s.bucket cached
  match (s.hash index).find? fun pos => s.key pos = s.key cached with
  | none => s
  | some _ => s.setHash index ((s.hash index).erase cached)

def iref (s : Sys) (i : ℕ) : Option Sys :=
  if (s.node i).refCount = 0 then none
  else some (s.setNode i { s.node i with refCount := (s.node i).refCount + 1 })

/-- iget up to read_inode; `mem` is the memory that kmalloc gives. The result is the inode returned, if the call is over. -/
def igetStart (s : Sys) (t sb nr : ℕ) (mem : Option ℕ) : Option (Option ℕ × Sys) :=
  match icache s sb nr none with
  | none => none
  | some (some i, s) => (iref s i).map fun s => (some i, s.hand i)
  | some (none, s) =>
    match mem with
    | none => some (none, s)
    | some i =>
      let s := { s.setNode i ⟨sb, nr, 1, false⟩ with alloc := insert i s.alloc }
      some (none, s.setCall t (some (if s.iputLock then .waiting i else .reading i)))

/-- the event of wait_event holds -/
def igetGo (s : Sys) (t i : ℕ) : Sys := s.setCall t (some (.reading i))

/-- the second search of iget -/
def igetCache (s : Sys) (i : ℕ) : Option (Option ℕ × Sys) :=
  match icache s (s.node i).sb (s.node i).nr none with
  | none => none
  | some (some tmp, s) => some (some tmp, (s.free i).hand tmp)
  | some (none, s) =>
    match icache s (s.node i).sb (s.node i).nr (some i) with
    | none => none
    | some (_, s) => some (some i, s.hand i)

/-- iget from the end of read_inode on -/
def igetDone (s : Sys) (t i : ℕ) (ok : Bool) : Option (Option ℕ × Sys) :=
  let s := s.setCall t none
  if ok then igetCache s i else some (none, s.free i)

/-- iput up to write_inode -/
def iput (hasWriteInode : ℕ → Bool) (s : Sys) (t i : ℕ) : Option Sys :=
  if (s.node i).refCount = 0 then none
  else
    let s := (s.setNode i { s.node i with refCount := (s.node i).refCount - 1 }).setHeld i (s.held i - 1)
    if (s.node i).refCount = 0 then
      let s := idecache s i
      if (s.node i).dirty ∧ hasWriteInode (s.node i).sb then some { s.setCall t (some (.writing i)) with iputLock := true }
      else some (s.free i)
    else some s

/-- iput from the end of write_inode on -/
def iputDone (s : Sys) (t i : ℕ) : Sys := { (s.setCall t none).free i with iputLock := false }

inductive Op
  | igetStart (t sb nr : ℕ) (mem : Option ℕ)
  | igetGo (t i : ℕ)
  | igetDone (t i : ℕ) (ok : Bool)
  | iref (t i : ℕ)
  | iput (t i : ℕ)
  | iputDone (t i : ℕ)
  | setDirty (t i : ℕ)
deriving DecidableEq, Repr

/-- a task in no call begins one; kmalloc gives free memory; iref, iput and changes are for inodes that are held -/
def legal (s : Sys) : Op → Prop
  | .igetStart t _ _ mem => s.calls t = none ∧ ∀ i ∈ mem, i ∉ s.alloc
  | .igetGo t i => s.calls t = some (.waiting i) ∧ s.iputLock = false
  | .igetDone t i _ => s.calls t = some (.reading i)
  | .iref t i | .iput t i | .setDirty t i => s.calls t = none ∧ 0 < s.held i
  | .iputDone t i => s.calls t = some (.writing i)

variable (hasWriteInode : ℕ → Bool)

def step (s : Sys) : Op → Option (Option ℕ × Sys)
  | .igetStart t sb nr mem => igetStart s t sb nr mem
  | .igetGo t i => some (none, igetGo s t i)
  | .igetDone t i ok => igetDone s t i ok
  | .iref _ i => (iref s i).map fun s => (none, s.hand i)
  | .iput t i => (iput hasWriteInode s t i).map fun s => (none, s)
  | .iputDone t i => some (none, iputDone s t i)
  | .setDirty _ i => some (none, s.setNode i { s.node i with dirty := true })

def boot : Sys := ⟨fun _ => ⟨0, 0, 0, false⟩, ∅, fun _ => [], false, fun _ => none, fun _ => 0⟩

def system : Lts Sys Op where
  start := fun s => s = boot
  step := fun s o s' => legal s o ∧ ∃ r, step hasWriteInode s o = some (r, s')

/-- an iget whose read_inode has succeeded and whose inode another task has cached meanwhile -/
def LosesRace (s : Sys) : Op → Prop
  | .igetDone _ i ok => ok = true ∧ ∃ j ∈ s.hash (s.bucket i), s.key j = s.key i
  | _ => False

/-! ## The invariant -/

/-- **The invariant.** The hash lists have one inode for each key, counted by the references held, and the inodes of calls
that sleep are in none of them. -/
structure CacheOk (s : Sys) : Prop where
  hashed : ∀ k, ∀ i ∈ s.hash k, k = s.bucket i ∧ i ∈ s.alloc ∧ 0 < (s.node i).refCount ∧
      (s.node i).refCount = s.held i
  nodup : ∀ k, (s.hash k).Nodup
  unique : ∀ k, ∀ i ∈ s.hash k, ∀ j ∈ s.hash k, s.key i = s.key j → i = j
  held : ∀ i, 0 < s.held i → i ∈ s.hash (s.bucket i)
  calls : ∀ t c, s.calls t = some c → c.inode ∈ s.alloc ∧ (s.node c.inode).refCount = c.count ∧
      ∀ k, c.inode ∉ s.hash k
  sole : ∀ t u c d, s.calls t = some c → s.calls u = some d → c.inode = d.inode → t = u

variable {hasWriteInode} {s s' : Sys} {t u i j k sb nr : ℕ}

theorem boot_ok : CacheOk boot :=
  ⟨fun _ _ hi => absurd hi List.not_mem_nil, fun _ => List.nodup_nil, fun _ _ hi => absurd hi List.not_mem_nil,
    fun _ hi => absurd hi (lt_irrefl 0), fun _ _ hc => (nomatch hc), fun _ _ _ _ hc => (nomatch hc)⟩

theorem bucket_congr (h : s'.key i = s.key j) : s'.bucket i = s.bucket j := by
  have h1 := congrArg Prod.fst h
  have h2 := congrArg Prod.snd h
  simp only [Sys.key] at h1 h2
  simp only [Sys.bucket, h1, h2]

/-- only counts and marks change -/
theorem CacheOk.recount (h : CacheOk s) (ha : s'.alloc = s.alloc) (hh : s'.hash = s.hash) (hc : s'.calls = s.calls)
    (hkey : ∀ i, s'.key i = s.key i)
    (hcount : ∀ k, ∀ i ∈ s.hash k, 0 < (s'.node i).refCount ∧ (s'.node i).refCount = s'.held i)
    (hcalls : ∀ i, (∀ k, i ∉ s.hash k) → (s'.node i).refCount = (s.node i).refCount)
    (hheld : ∀ i, 0 < s'.held i → i ∈ s.hash (s.bucket i)) : CacheOk s' := by
  refine ⟨fun k i hi => ?_, fun k => by rw [hh]; exact h.nodup k, fun k i hi j hj he => ?_, fun i hi => ?_, fun t c hc' => ?_,
    fun t u c d h1 h2 he => h.sole t u c d (hc ▸ h1) (hc ▸ h2) he⟩
  · rw [hh] at hi
    obtain ⟨h1, h2, -, -⟩ := h.hashed k i hi
    exact ⟨by rw [bucket_congr (hkey i)]; exact h1, ha ▸ h2, hcount k i hi⟩
  · rw [hh] at hi hj
    rw [hkey, hkey] at he
    exact h.unique k i hi j hj he
  · rw [hh, bucket_congr (hkey i)]
    exact hheld i hi
  · obtain ⟨h1, h2, h3⟩ := h.calls t c (hc ▸ hc')
    rw [ha, hh, hcalls _ h3]
    exact ⟨h1, h2, h3⟩

/-- a call ends or goes on with its inode -/
theorem CacheOk.setCall (h : CacheOk s) {c : Option Call}
    (hc : ∀ d ∈ c, (d.inode ∈ s.alloc ∧ (s.node d.inode).refCount = d.count ∧ ∀ k, d.inode ∉ s.hash k) ∧
      ∀ u e, u ≠ t → s.calls u = some e → e.inode ≠ d.inode) : CacheOk (s.setCall t c) := by
  refine ⟨h.hashed, h.nodup, h.unique, h.held, fun u d hd => ?_, fun u v d e hd he hde => ?_⟩
  · simp only [Sys.setCall] at hd
    split_ifs at hd with hu
    · exact (hc d hd).1
    · exact h.calls u d hd
  · simp only [Sys.setCall] at hd he
    split_ifs at hd he with hu hv hv
    · rw [hu, hv]
    · exact absurd hde.symm ((hc d hd).2 v e hv he)
    · exact absurd hde ((hc e he).2 u d hu hd)
    · exact h.sole u v d e hd he hde

/-- an inode that no list and no call has is freed -/
theorem CacheOk.free (h : CacheOk s) (hi : ∀ k, i ∉ s.hash k) (hc : ∀ t c, s.calls t = some c → c.inode ≠ i) :
    CacheOk (s.free i) := by
  refine ⟨fun k j hj => ?_, h.nodup, h.unique, h.held, fun t c hct => ⟨?_, (h.calls t c hct).2⟩, h.sole⟩
  · obtain ⟨h1, h2, h3⟩ := h.hashed k j hj
    have hne : j ≠ i := fun he => hi k (he ▸ hj)
    exact ⟨h1, Finset.mem_erase.2 ⟨hne, h2⟩, h3⟩
  · exact Finset.mem_erase.2 ⟨hc t c hct, (h.calls t c hct).1⟩

/-! ## The cache -/

/-- the search of icache -/
def probe (s : Sys) (sb nr : ℕ) : Option ℕ := (s.hash (getHashIndex sb nr)).find? fun pos => s.key pos = (sb, nr)

theorem probe_some (h : probe s sb nr = some i) : i ∈ s.hash (getHashIndex sb nr) ∧ s.key i = (sb, nr) :=
  ⟨List.mem_of_find?_eq_some h, by simpa using List.find?_some h⟩

theorem probe_none (h : probe s sb nr = none) (hi : i ∈ s.hash (getHashIndex sb nr)) : s.key i ≠ (sb, nr) := by
  have := List.find?_eq_none.1 h i hi
  simpa using this

theorem icache_null : icache s sb nr none = some (probe s sb nr, s) := by
  simp only [icache, probe]
  cases (s.hash (getHashIndex sb nr)).find? fun pos => s.key pos = (sb, nr) <;> simp

theorem icache_insert (h : probe s sb nr = none) :
    icache s sb nr (some i) = some (some i, s.setHash (getHashIndex sb nr) (i :: s.hash (getHashIndex sb nr))) := by
  rw [probe] at h
  simp only [icache, h]

/-- a cached inode is handed out once more -/
theorem hand_ok (h : CacheOk s) (hi : i ∈ s.hash k) :
    ∃ s', iref s i = some s' ∧ CacheOk (s'.hand i) := by
  obtain ⟨hk, -, hpos, hcount⟩ := h.hashed k i hi
  refine ⟨_, if_neg hpos.ne', h.recount rfl rfl rfl (fun j => ?_) (fun m j hj => ?_) (fun j hj => ?_) fun j hj => ?_⟩
  · simp only [Sys.key, Sys.hand, Sys.setHeld, Sys.setNode]
    split_ifs with hji
    · rw [hji]
    · rfl
  · obtain ⟨-, -, hpos', hcount'⟩ := h.hashed m j hj
    simp only [Sys.hand, Sys.setHeld, Sys.setNode]
    split_ifs
    · exact ⟨Nat.succ_pos _, congrArg (· + 1) hcount⟩
    · exact ⟨hpos', hcount'⟩
  · have hne : j ≠ i := fun he => hj k (he ▸ hi)
    simp only [Sys.hand, Sys.setHeld, Sys.setNode, if_neg hne]
  · simp only [Sys.hand, Sys.setHeld, Sys.setNode] at hj
    split_ifs at hj with hji
    · rw [hji, ← hk]; exact hi
    · exact h.held j hj

theorem igetStart_ok (t sb nr : ℕ) (h : CacheOk s) {mem : Option ℕ} (hmem : ∀ i ∈ mem, i ∉ s.alloc) :
    ∃ r s', igetStart s t sb nr mem = some (r, s') ∧ CacheOk s' ∧
      ∀ i ∈ r, i ∈ s'.hash (getHashIndex sb nr) ∧ s'.key i = (sb, nr) := by
  rw [igetStart, icache_null]
  cases hp : probe s sb nr with
  | some i =>
    obtain ⟨hi, hkey⟩ := probe_some hp
    obtain ⟨s1, hs1, hok⟩ := hand_ok h hi
    refine ⟨some i, s1.hand i, by simp only [hs1, Option.map_some], hok, ?_⟩
    rintro j ⟨⟩
    obtain rfl := (Option.some.inj ((if_neg (h.hashed _ i hi).2.2.1.ne').symm.trans hs1))
    refine ⟨hi, ?_⟩
    rw [← hkey]
    simp only [Sys.key, Sys.hand, Sys.setHeld, Sys.setNode, if_true]
  | none =>
    cases hm : mem with
    | none => exact ⟨none, s, rfl, h, fun i hi => nomatch hi⟩
    | some i =>
      have hfresh : i ∉ s.alloc := hmem i hm
      have hout : ∀ k, i ∉ s.hash k := fun k hi => hfresh (h.hashed k i hi).2.1
      have hother : ∀ j, j ≠ i → (s.setNode i ⟨sb, nr, 1, false⟩).node j = s.node j := fun j hj => if_neg hj
      set s1 : Sys := { s.setNode i ⟨sb, nr, 1, false⟩ with alloc := insert i s.alloc } with hs1
      have hkey : ∀ j, j ≠ i → s1.key j = s.key j := fun j hj => by simp only [Sys.key]; rw [hs1]; simp only [hother j hj]
      have hne : ∀ k, ∀ j ∈ s.hash k, j ≠ i := fun k j hj he => hout k (he ▸ hj)
      have hok : CacheOk s1 := by
        refine ⟨fun k j hj => ?_, h.nodup, fun k a ha b hb he => ?_, fun j hj => ?_, fun u c hc => ?_, h.sole⟩
        · obtain ⟨h1, h2, h3, h4⟩ := h.hashed k j hj
          have hnode : s1.node j = s.node j := hother j (hne k j hj)
          exact ⟨by rw [bucket_congr (hkey j (hne k j hj))]; exact h1, Finset.mem_insert_of_mem h2, by rw [hnode]; exact h3,
            by rw [hnode]; exact h4⟩
        · rw [hkey a (hne k a ha), hkey b (hne k b hb)] at he
          exact h.unique k a ha b hb he
        · have hold := h.held j hj
          rw [bucket_congr (hkey j (hne _ j hold))]
          exact hold
        · obtain ⟨h1, h2, h3⟩ := h.calls u c hc
          have hnode : s1.node c.inode = s.node c.inode := hother _ fun he => hfresh (he ▸ h1)
          exact ⟨Finset.mem_insert_of_mem h1, by rw [hnode]; exact h2, h3⟩
      refine ⟨none, _, rfl, hok.setCall ?_, fun j hj => nomatch hj⟩
      intro d hd
      have hdi : d.inode = i ∧ d.count = 1 := by
        obtain rfl := Option.some.inj hd
        split_ifs <;> exact ⟨rfl, rfl⟩
      rw [hdi.1, hdi.2]
      refine ⟨⟨Finset.mem_insert_self i _, congrArg Inode.refCount (if_pos rfl), hout⟩, fun u e _ he hei => ?_⟩
      exact hfresh (hei ▸ (h.calls u e he).1)

theorem igetGo_ok (h : CacheOk s) (ht : s.calls t = some (.waiting i)) : CacheOk (igetGo s t i) := by
  refine h.setCall fun d hd => ?_
  obtain rfl := Option.some.inj hd
  obtain ⟨h1, h2, h3⟩ := h.calls t _ ht
  exact ⟨⟨h1, h2, h3⟩, fun u e hu he hei => hu (h.sole u t e _ he ht hei)⟩

/-- the task is in no call any more, and no other call has its inode -/
theorem CacheOk.endCall (h : CacheOk s) {c : Call} (ht : s.calls t = some c) :
    CacheOk (s.setCall t none) ∧ ∀ u d, (s.setCall t none).calls u = some d → d.inode ≠ c.inode := by
  refine ⟨h.setCall fun d hd => (nomatch hd), fun u d hd => ?_⟩
  simp only [Sys.setCall] at hd
  split_ifs at hd with hu
  exact fun he => hu (h.sole u t d c hd ht he)

/-- the new inode is cached and handed out -/
theorem insert_ok (h : CacheOk s) (ha : i ∈ s.alloc) (hr : (s.node i).refCount = 1) (hout : ∀ k, i ∉ s.hash k)
    (hc : ∀ u d, s.calls u = some d → d.inode ≠ i) (hmiss : ∀ j ∈ s.hash (s.bucket i), s.key j ≠ s.key i) :
    CacheOk ((s.setHash (s.bucket i) (i :: s.hash (s.bucket i))).hand i) := by
  have hheld : s.held i = 0 := by
    by_contra hne
    exact hout _ (h.held i (Nat.pos_of_ne_zero hne))
  have hmem : ∀ k j, j ∈ (if k = s.bucket i then i :: s.hash (s.bucket i) else s.hash k) ↔
      (j = i ∧ k = s.bucket i) ∨ j ∈ s.hash k := fun k j => by
    split_ifs with hk
    · rw [List.mem_cons, hk]; simp
    · simp [hk]
  refine ⟨fun k j hj => ?_, fun k => ?_, fun k a ha' b hb he => ?_, fun j hj => ?_, fun u d hd => ?_, h.sole⟩
  · rcases (hmem k j).1 hj with ⟨rfl, hk⟩ | hj
    · refine ⟨hk, ha, hr ▸ Nat.one_pos, hr.trans ?_⟩
      simp only [Sys.hand, Sys.setHeld, if_true]
      exact (congrArg (· + 1) hheld).symm
    · obtain ⟨h1, h2, h3, h4⟩ := h.hashed k j hj
      have hne : j ≠ i := fun he => hout k (he ▸ hj)
      refine ⟨h1, h2, h3, ?_⟩
      simp only [Sys.hand, Sys.setHeld, if_neg hne]
      exact h4
  · simp only [Sys.hand, Sys.setHeld, Sys.setHash]
    split_ifs with hk
    · exact List.nodup_cons.2 ⟨hout _, h.nodup _⟩
    · exact h.nodup k
  · rcases (hmem k a).1 ha' with ⟨rfl, hk⟩ | ha1
    · rcases (hmem k b).1 hb with ⟨rfl, -⟩ | hb1
      · rfl
      · exact absurd he.symm (hmiss b (hk ▸ hb1))
    · rcases (hmem k b).1 hb with ⟨rfl, hk⟩ | hb1
      · exact absurd he (hmiss a (hk ▸ ha1))
      · exact h.unique k a ha1 b hb1 he
  · refine (hmem _ j).2 ?_
    simp only [Sys.hand, Sys.setHeld] at hj
    split_ifs at hj with hji
    · exact .inl ⟨hji, by rw [hji]; rfl⟩
    · exact .inr (h.held j hj)
  · obtain ⟨h1, h2, h3⟩ := h.calls u d hd
    refine ⟨h1, h2, fun k hk => ?_⟩
    rcases (hmem k _).1 hk with ⟨he, -⟩ | hk
    · exact hc u d hd he
    · exact h3 k hk

theorem igetCache_miss (hmiss : ∀ j ∈ s.hash (s.bucket i), s.key j ≠ s.key i) :
    igetCache s i = some (some i, (s.setHash (s.bucket i) (i :: s.hash (s.bucket i))).hand i) := by
  have hprobe : probe s (s.node i).sb (s.node i).nr = none := by
    cases hp : probe s (s.node i).sb (s.node i).nr with
    | none => rfl
    | some j => exact absurd (probe_some hp).2 (hmiss j (probe_some hp).1)
  rw [igetCache, icache_null, hprobe]
  dsimp only
  rw [icache_insert hprobe]
  rfl

theorem igetDone_ok (h : CacheOk s) (ht : s.calls t = some (.reading i)) {ok : Bool} (hno : ¬ LosesRace s (.igetDone t i ok)) :
    ∃ r s', igetDone s t i ok = some (r, s') ∧ CacheOk s' ∧
      ∀ j ∈ r, j ∈ s'.hash (s.bucket i) ∧ s'.key j = s.key i := by
  obtain ⟨hok, hc⟩ := h.endCall ht
  obtain ⟨ha, hr, hout⟩ := h.calls t _ ht
  cases ok with
  | false => exact ⟨none, _, rfl, hok.free hout hc, fun j hj => nomatch hj⟩
  | true =>
    have hmiss : ∀ j ∈ s.hash (s.bucket i), s.key j ≠ s.key i := fun j hj he => hno ⟨rfl, j, hj, he⟩
    refine ⟨some i, _, igetCache_miss (s := s.setCall t none) hmiss, insert_ok hok ha hr hout hc hmiss, ?_⟩
    rintro j ⟨⟩
    refine ⟨?_, rfl⟩
    have hbucket : (s.setCall t none).bucket i = s.bucket i := rfl
    simp only [Sys.hand, Sys.setHeld, Sys.setHash, hbucket, if_true]
    exact List.mem_cons_self

/-- in a good state idecache takes the inode out of its list -/
theorem idecache_eq (hi : i ∈ s.hash (s.bucket i)) :
    idecache s i = s.setHash (s.bucket i) ((s.hash (s.bucket i)).erase i) := by
  rw [idecache]
  cases hf : (s.hash (s.bucket i)).find? fun pos => s.key pos = s.key i with
  | none => exact absurd (List.find?_eq_none.1 hf i hi) (by simp)
  | some j => rfl

theorem CacheOk.lock (h : CacheOk s) (b : Bool) : CacheOk { s with iputLock := b } :=
  ⟨h.hashed, h.nodup, h.unique, h.held, h.calls, h.sole⟩

/-- an inode whose last reference is given back leaves its list -/
theorem CacheOk.unlist (h : CacheOk s) (hin : i ∈ s.hash (s.bucket i)) (ha : s'.alloc = s.alloc) (hc : s'.calls = s.calls)
    (hh : s'.hash = fun k => if k = s.bucket i then (s.hash (s.bucket i)).erase i else s.hash k)
    (hkey : ∀ j, s'.key j = s.key j) (hnode : ∀ j, j ≠ i → s'.node j = s.node j)
    (hheld : ∀ j, j ≠ i → s'.held j = s.held j)
    (h0 : s'.held i = 0) : CacheOk s' ∧ ∀ k, i ∉ s'.hash k := by
  have hmem : ∀ k j, j ∈ s'.hash k ↔ j ∈ s.hash k ∧ j ≠ i := fun k j => by
    rw [hh]
    dsimp only
    split_ifs with hk
    · rw [hk, (h.nodup _).mem_erase_iff, and_comm]
    · refine ⟨fun hj => ⟨hj, fun he => hk ?_⟩, fun hj => hj.1⟩
      rw [← he]
      exact (h.hashed k j hj).1
  refine ⟨⟨fun k j hj => ?_, fun k => ?_, fun k a ha1 b hb he => ?_, fun j hj => ?_, fun u d hd => ?_, ?_⟩,
    fun k hk => ((hmem k i).1 hk).2 rfl⟩
  · obtain ⟨hj, hne⟩ := (hmem k j).1 hj
    obtain ⟨h1, h2, h3, h4⟩ := h.hashed k j hj
    rw [bucket_congr (hkey j), ha, hnode j hne, hheld j hne]
    exact ⟨h1, h2, h3, h4⟩
  · rw [hh]
    dsimp only
    split_ifs
    · exact (h.nodup _).erase i
    · exact h.nodup k
  · rw [hkey, hkey] at he
    exact h.unique k a ((hmem k a).1 ha1).1 b ((hmem k b).1 hb).1 he
  · have hne : j ≠ i := fun he => by rw [he, h0] at hj; exact absurd hj (lt_irrefl 0)
    rw [bucket_congr (hkey j)]
    exact (hmem _ j).2 ⟨h.held j (by rwa [← hheld j hne]), hne⟩
  · rw [hc] at hd
    obtain ⟨h1, h2, h3⟩ := h.calls u d hd
    have hne : d.inode ≠ i := fun he => h3 _ (he ▸ hin)
    rw [ha, hnode _ hne]
    exact ⟨h1, h2, fun k hk => h3 k ((hmem k _).1 hk).1⟩
  · rw [hc]
    exact h.sole

theorem iput_ok (hasWriteInode : ℕ → Bool) (t : ℕ) (h : CacheOk s) (hi : 0 < s.held i) :
    ∃ s', iput hasWriteInode s t i = some s' ∧ CacheOk s' := by
  have hin := h.held i hi
  obtain ⟨-, ha, hpos, hcount⟩ := h.hashed _ i hin
  rw [iput, if_neg hpos.ne']
  set s1 := (s.setNode i { s.node i with refCount := (s.node i).refCount - 1 }).setHeld i (s.held i - 1) with hs1
  have hkey : ∀ j, s1.key j = s.key j := fun j => by
    simp only [hs1, Sys.key, Sys.setHeld, Sys.setNode]
    split_ifs with hji
    · rw [hji]
    · rfl
  have hnode : ∀ j, j ≠ i → s1.node j = s.node j := fun j hj => if_neg hj
  have hself : (s1.node i).refCount = (s.node i).refCount - 1 := congrArg Inode.refCount (if_pos rfl)
  have hheld : ∀ j, j ≠ i → s1.held j = s.held j := fun j hj => if_neg hj
  have hheldi : s1.held i = s.held i - 1 := if_pos rfl
  have hb : s1.bucket i = s.bucket i := bucket_congr (hkey i)
  have hide : idecache s1 i = s1.setHash (s.bucket i) ((s.hash (s.bucket i)).erase i) := by
    rw [← hb]
    exact idecache_eq (by rw [hb]; exact hin)
  have hunlist : (s1.node i).refCount = 0 → CacheOk (s1.setHash (s.bucket i) ((s.hash (s.bucket i)).erase i)) ∧
      ∀ k, i ∉ (s1.setHash (s.bucket i) ((s.hash (s.bucket i)).erase i)).hash k := fun hz =>
    h.unlist hin rfl rfl rfl hkey hnode hheld (by change s1.held i = 0; omega)
  dsimp only
  split_ifs with hz hd
  · obtain ⟨hok, hout⟩ := hunlist hz
    rw [hide]
    refine ⟨_, rfl, CacheOk.lock (hok.setCall fun d hd => ?_) true⟩
    obtain rfl := Option.some.inj hd
    exact ⟨⟨ha, hz, hout⟩, fun u e _ he hei =>
      (h.calls u e he).2.2 (s.bucket i) (by rw [show e.inode = i from hei]; exact hin)⟩
  · obtain ⟨hok, hout⟩ := hunlist hz
    rw [hide]
    exact ⟨_, rfl, hok.free hout fun u e he hei => (h.calls u e he).2.2 _ (hei ▸ hin)⟩
  · refine ⟨s1, rfl, h.recount rfl rfl rfl hkey (fun k j hj => ?_) (fun j hj => ?_) fun j hj => ?_⟩
    · by_cases hji : j = i
      · subst hji
        exact ⟨by omega, by rw [hself, hheldi, hcount]⟩
      · obtain ⟨-, -, h3, h4⟩ := h.hashed k j hj
        rw [hnode j hji, hheld j hji]
        exact ⟨h3, h4⟩
    · have hji : j ≠ i := fun he => hj _ (he ▸ hin)
      rw [hnode j hji]
    · by_cases hji : j = i
      · rw [hji]; exact hin
      · exact h.held j (by rwa [hheld j hji] at hj)

theorem iputDone_ok (h : CacheOk s) (ht : s.calls t = some (.writing i)) : CacheOk (iputDone s t i) := by
  obtain ⟨hok, hc⟩ := h.endCall ht
  obtain ⟨-, -, hout⟩ := h.calls t _ ht
  exact CacheOk.lock (hok.free hout hc) false

theorem setDirty_ok (h : CacheOk s) : CacheOk (s.setNode i { s.node i with dirty := true }) := by
  have hnode : ∀ j, ((s.setNode i { s.node i with dirty := true }).node j).refCount = (s.node j).refCount := fun j => by
    simp only [Sys.setNode]
    split_ifs with hji
    · rw [hji]
    · rfl
  refine h.recount rfl rfl rfl (fun j => ?_) (fun k j hj => ?_) (fun j _ => hnode j) h.held
  · simp only [Sys.key, Sys.setNode]
    split_ifs with hji
    · rw [hji]
    · rfl
  · rw [hnode]
    obtain ⟨-, -, h3, h4⟩ := h.hashed k j hj
    exact ⟨h3, h4⟩

/-- what iget looks for -/
def wanted (s : Sys) : Op → Option (ℕ × ℕ)
  | .igetStart _ sb nr _ => some (sb, nr)
  | .igetDone _ i _ => some (s.key i)
  | _ => none

/-- one step: no BUG_ON, and iget returns the cached inode -/
theorem step_ok (hasWriteInode : ℕ → Bool) {o : Op} (h : CacheOk s) (hl : legal s o) (hno : ¬ LosesRace s o) :
    ∃ r s', step hasWriteInode s o = some (r, s') ∧ CacheOk s' ∧
      ∀ i ∈ r, ∃ key ∈ wanted s o, i ∈ s'.hash (getHashIndex key.1 key.2) ∧ s'.key i = key := by
  cases o with
  | igetStart t sb nr mem =>
    obtain ⟨r, s', hs, hok, hr⟩ := igetStart_ok t sb nr h hl.2
    exact ⟨r, s', hs, hok, fun i hi => ⟨(sb, nr), rfl, hr i hi⟩⟩
  | igetGo t i => exact ⟨none, _, rfl, igetGo_ok h hl.1, fun i hi => nomatch hi⟩
  | igetDone t i ok =>
    obtain ⟨r, s', hs, hok, hr⟩ := igetDone_ok h hl hno
    exact ⟨r, s', hs, hok, fun j hj => ⟨s.key i, rfl, hr j hj⟩⟩
  | iref t i =>
    obtain ⟨s', hs, hok⟩ := hand_ok h (h.held i hl.2)
    exact ⟨none, s'.hand i, by simp only [step, hs, Option.map_some], hok, fun i hi => nomatch hi⟩
  | iput t i =>
    obtain ⟨s', hs, hok⟩ := iput_ok hasWriteInode t h hl.2
    exact ⟨none, s', by simp only [step, hs, Option.map_some], hok, fun i hi => nomatch hi⟩
  | iputDone t i => exact ⟨none, _, rfl, iputDone_ok h hl, fun i hi => nomatch hi⟩
  | setDirty t i => exact ⟨none, _, rfl, setDirty_ok h, fun i hi => nomatch hi⟩

/-- **The inode cache is right while no iget loses a race.** In every run of any number of tasks in which no iget finds,
after a successful read_inode, its inode already cached: at most one inode with each (sb, nr) is cached, its ref_count is the
number of references handed out and not given back, an inode with such references is cached and not freed, no BUG_ON fires,
and what iget returns is the cached inode of its (sb, nr). -/
theorem cache_reachable (h : ((system hasWriteInode).only fun s o => ¬ LosesRace s o).Reach s) :
    (∀ k, (s.hash k).Nodup) ∧ (∀ k l, ∀ i ∈ s.hash k, ∀ j ∈ s.hash l, s.key i = s.key j → i = j) ∧
    (∀ k, ∀ i ∈ s.hash k, (s.node i).refCount = s.held i) ∧
    (∀ i, 0 < s.held i → i ∈ s.hash (s.bucket i) ∧ i ∈ s.alloc) ∧
    ∀ o, legal s o → ¬ LosesRace s o → ∃ r s', step hasWriteInode s o = some (r, s') ∧
      ∀ i ∈ r, ∃ key ∈ wanted s o, i ∈ s'.hash (getHashIndex key.1 key.2) ∧ s'.key i = key := by
  have hok : CacheOk s := h.inv (fun s hs => hs ▸ boot_ok) fun s o s' hi hst => by
    obtain ⟨hno, hl, r, hs⟩ := hst
    obtain ⟨r', s'', hs', hok, -⟩ := step_ok hasWriteInode hi hl hno
    rw [hs] at hs'
    cases hs'
    exact hok
  refine ⟨hok.nodup, fun k l i hi j hj he => ?_, fun k i hi => (hok.hashed k i hi).2.2.2, fun i hi => ?_, fun o hl hno => ?_⟩
  · have hkl : l = k := by rw [(hok.hashed k i hi).1, (hok.hashed l j hj).1, bucket_congr he]
    exact hok.unique k i hi j (hkl ▸ hj) he
  · exact ⟨hok.held i hi, (hok.hashed _ i (hok.held i hi)).2.1⟩
  · obtain ⟨r, s', hs, -, hr⟩ := step_ok hasWriteInode hok hl hno
    exact ⟨r, s', hs, hr⟩

/-! ## Two tasks -/

instance (s : Sys) (o : Op) : Decidable (legal s o) :=
  match o with
  | .igetStart _ _ _ _ | .igetGo _ _ | .iref _ _ | .iput _ _ | .setDirty _ _ => inferInstanceAs (Decidable (_ ∧ _))
  | .igetDone _ _ _ | .iputDone _ _ => inferInstanceAs (Decidable (_ = _))

instance (s : Sys) (o : Op) : Decidable (LosesRace s o) :=
  match o with
  | .igetDone _ _ _ => inferInstanceAs (Decidable (_ ∧ ∃ j ∈ _, _))
  | .igetStart _ _ _ _ | .igetGo _ _ | .iref _ _ | .iput _ _ | .iputDone _ _ | .setDirty _ _ => isFalse id

/-- a legal step on a super block with write_inode -/
def legalStep (s : Sys) (o : Op) : Option Sys := if legal s o then (step (fun _ => true) s o).map Prod.snd else none

theorem legalStep_step (s : Sys) (o : Op) (s' : Sys) (h : legalStep s o = some s') : (system fun _ => true).step s o s' := by
  rw [legalStep] at h
  split_ifs at h with hl
  obtain ⟨⟨r, s1⟩, hs, rfl⟩ := Option.map_eq_some_iff.1 h
  exact ⟨hl, r, hs⟩

/-- two tasks read two inodes at the same time, one takes the other's over, and gives its own back while the other waits for
write_inode to get it again -/
def twoInodes : List Op := [.igetStart 0 1 2 (some 10), .igetStart 1 1 3 (some 11), .igetDone 0 10 true, .igetDone 1 11 true,
  .igetStart 1 1 2 none, .iput 0 10, .setDirty 1 11, .iput 1 11, .igetStart 0 1 3 (some 12), .iputDone 1 11, .igetGo 0 12,
  .igetDone 0 12 true]

def shared : Sys :=
  (twoInodes.foldlM (fun s o => if ¬ LosesRace s o then legalStep s o else none) boot).get (by decide +kernel)

theorem cache_two : (10 ∈ shared.hash (shared.bucket 10) ∧ (shared.node 10).refCount = shared.held 10 ∧
    shared.held 10 = 1) ∧ (12 ∈ shared.hash (shared.bucket 12) ∧ (shared.node 12).refCount = shared.held 12 ∧
    shared.held 12 = 1) ∧ 11 ∉ shared.alloc := by
  have hreach : ((system fun _ => true).only fun s o => ¬ LosesRace s o).Reach shared :=
    Lts.Reach.fold_only legalStep_step (.start rfl) (Option.some_get _).symm
  obtain ⟨-, -, hcount, -⟩ := cache_reachable hreach
  have h10 : 10 ∈ shared.hash (shared.bucket 10) := by decide +kernel
  have h12 : 12 ∈ shared.hash (shared.bucket 12) := by decide +kernel
  exact ⟨⟨h10, hcount _ 10 h10, by decide +kernel⟩, ⟨h12, hcount _ 12 h12, by decide +kernel⟩, by decide +kernel⟩

def after (s : Sys) (o : Op) : Sys :=
  match step (fun _ => false) s o with
  | none => s
  | some (_, s) => s

/-- both tasks miss, and both get inode 10 -/
def raced : Sys := after (after (after (after boot (.igetStart 0 1 2 (some 10))) (.igetStart 1 1 2 (some 11)))
  (.igetDone 0 10 true)) (.igetDone 1 11 true)

theorem race_frees : (system fun _ => false).Reach raced ∧ raced.held 10 = 2 ∧ (raced.node 10).refCount = 1 ∧
    (system fun _ => false).Reach (after raced (.iput 0 10)) ∧ (after raced (.iput 0 10)).held 10 = 1 ∧
    10 ∉ (after raced (.iput 0 10)).alloc := by
  have h : (system fun _ => false).Reach raced :=
    .step (e := .igetDone 1 11 true) (.step (e := .igetDone 0 10 true) (.step (e := .igetStart 1 1 2 (some 11))
      (.step (e := .igetStart 0 1 2 (some 10)) (.start rfl) ⟨⟨rfl, by decide⟩, none, rfl⟩)
      ⟨⟨rfl, by decide⟩, none, rfl⟩) ⟨rfl, some 10, rfl⟩) ⟨rfl, some 10, rfl⟩
  exact ⟨h, rfl, rfl, .step (e := .iput 0 10) h ⟨⟨rfl, by decide⟩, none, rfl⟩, rfl, by decide⟩

end SinsOs.InodeCache
