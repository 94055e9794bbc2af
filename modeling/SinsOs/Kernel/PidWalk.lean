/-
get_task_by_pid (kernel/sched.c) as a walk that any task may come in between.

- `pids_distinct`: pids are distinct, every task is in the list of its pid, and an uninterrupted call finds the task with a pid. A
  call that is interrupted is right in every run in which each of its reads is of a node that is on the list of the pid.
- `walk_strays`: a walk stands on a task, which is released; its page becomes a task of another list, and the walk goes round
  there for ever.
-/
import Mathlib.Data.List.TakeWhile
import SinsOs.Kernel.Pid

namespace SinsOs.Pid

open SinsOs.Core SinsOs.Bits

/-! ## Calls with their past -/

def Look.sought : Look → Word
  | .before p _ | .behind p _ | .returned p _ => p

def Absent (s : Sys) (p : Word) : Prop := ∀ x ∈ s.tasks, s.pid x ≠ p

instance (s : Sys) (p : Word) : Decidable (Absent s p) := List.decidableBAll (fun x => s.pid x ≠ p) s.tasks

/-- the system, and for each task whether at some moment since its call of get_task_by_pid there was no task with the pid -/
structure Watched where
  sys : Sys
  gone : ℕ → Bool

def Op.starts (t : ℕ) : Op → Bool
  | .look u _ => u = t
  | _ => false

def Watched.next (c : Watched) (op : Op) (s : Sys) : Watched where
  sys := s
  gone := fun t =>
    match s.walk t with
    | none => false
    | some l => (c.gone t && !op.starts t) || decide (Absent s l.sought)

def watched : Lts Watched Op where
  start := fun c => c.sys = booted ∧ c.gone = fun _ => false
  step := fun c op c' => ∃ s, step c.sys op = some s ∧ c' = c.next op s

/-- the node is on the list of the pid -/
def OnList (s : Sys) (p : Word) : Node → Prop
  | .head j => j = Sys.list p
  | .task t => t ∈ s.pidLists (Sys.list p)

instance (s : Sys) (p : Word) (pos : Node) : Decidable (OnList s p pos) := by
  cases pos
  all_goals
    unfold OnList
    infer_instance

/-- the node that the next read is of -/
def Look.node : Look → Option Node
  | .before _ pos | .behind _ pos => some pos
  | .returned _ _ => none

/-- a walk reads nodes of its list -/
def Linked (s : Sys) : Op → Prop
  | .walk t _ => ∀ l ∈ s.walk t, ∀ pos ∈ l.node, OnList s l.sought pos
  | _ => True

instance (s : Sys) (op : Op) : Decidable (Linked s op) := by
  cases op
  all_goals
    unfold Linked
    infer_instance

/-- the call that task t has just come back from was right: the task it gives is there with the pid, or there was none at some
moment of the call -/
def RightAnswer (c : Watched) (t : ℕ) (p : Word) : Option Node → Prop
  | some (.task x) => x ∈ c.sys.tasks ∧ c.sys.pid x = p
  | some (.head _) => False
  | none => c.gone t = true

/-! ## Where a walk is -/

/-- the walk has x before it -/
def Ahead (l : List ℕ) (x : ℕ) : Look → Prop
  | .before _ (.task c) => c ∈ l → x ∈ l.dropWhile (· ≠ c)
  | .behind _ (.task c) => c ∈ l → x ∈ (l.dropWhile (· ≠ c)).tail
  | .before _ (.head _) | .behind _ (.head _) => False
  | .returned _ _ => True

/-- **The invariant.** While there was a task with the pid all the time, there is one, and it is before the walk. -/
def WatchOk (c : Watched) : Prop := ∀ t l, c.sys.walk t = some l → c.gone t = false →
  (∃ x ∈ c.sys.tasks, c.sys.pid x = l.sought) ∧
    ∀ x ∈ c.sys.tasks, c.sys.pid x = l.sought → Ahead (c.sys.pidLists (Sys.list l.sought)) x l

variable {c c' : Watched} {s s' : Sys} {op : Op} {t u x y dead new : ℕ} {p w : Word} {l : List ℕ} {k : Look}

theorem dropWhile_self (l : List ℕ) (h : y ∈ l) : ∃ b, l.dropWhile (· ≠ y) = y :: b := by
  induction l with
  | nil => cases h
  | cons z l ih =>
    rw [List.dropWhile_cons]
    by_cases hz : z = y
    · rw [hz]
      exact ⟨l, by simp⟩
    · rw [if_pos (by simpa using hz)]
      exact ih ((List.mem_cons.1 h).resolve_left (Ne.symm hz))

/-- from a task on, the tasks behind it -/
theorem dropWhile_append_cons {a b : List ℕ} (hl : l = a ++ y :: b) (hnd : l.Nodup) : l.dropWhile (· ≠ y) = y :: b := by
  rw [hl] at hnd ⊢
  have hout : ∀ v ∈ a, v ≠ y := fun v hv he => (List.nodup_append.1 hnd).2.2 v hv y List.mem_cons_self he
  rw [List.dropWhile_append_of_pos fun v hv => by simpa using hout v hv]
  simp

/-- no task is twice on the list, so the next one is where it goes on -/
theorem dropWhile_next {z : ℕ} {b : List ℕ} (hb : l.dropWhile (· ≠ y) = y :: z :: b) (hnd : l.Nodup) :
    l.dropWhile (· ≠ z) = z :: b := by
  obtain ⟨a, ha⟩ := List.dropWhile_suffix (p := fun v => decide (v ≠ y)) (l := l)
  have hsplit : l = (a ++ [y]) ++ z :: b := by
    rw [← ha, hb]
    simp
  exact dropWhile_append_cons hsplit hnd

/-- the list from a node that is not the dead one, after list_del -/
theorem mem_dropWhile_erase (hx : x ≠ dead) (hy : y ≠ dead) (h : x ∈ l.dropWhile (· ≠ y)) :
    x ∈ (l.erase dead).dropWhile (· ≠ y) := by
  induction l with
  | nil => cases h
  | cons z l ih =>
    by_cases hz : z = y
    · subst hz
      rw [List.erase_cons_tail (by simpa using hy)]
      simp only [ne_eq, not_true, decide_false, List.dropWhile_cons, Bool.false_eq_true, if_false, List.mem_cons] at h ⊢
      exact h.imp_right fun h => (List.mem_erase_of_ne hx).2 h
    · rw [List.dropWhile_cons, if_pos (by simpa using hz)] at h
      by_cases hd : z = dead
      · subst hd
        rw [List.erase_cons_head]
        exact h
      · rw [List.erase_cons_tail (by simpa using hd), List.dropWhile_cons, if_pos (by simpa using hz)]
        exact ih h

theorem mem_tail_erase (hx : x ≠ dead) (hy : y ≠ dead) (h : x ∈ (l.dropWhile (· ≠ y)).tail) :
    x ∈ ((l.erase dead).dropWhile (· ≠ y)).tail := by
  induction l with
  | nil => cases h
  | cons z l ih =>
    by_cases hz : z = y
    · subst hz
      rw [List.erase_cons_tail (by simpa using hy)]
      simp only [ne_eq, not_true, decide_false, List.dropWhile_cons, Bool.false_eq_true, if_false, List.tail_cons] at h ⊢
      exact (List.mem_erase_of_ne hx).2 h
    · rw [List.dropWhile_cons, if_pos (by simpa using hz)] at h
      by_cases hd : z = dead
      · subst hd
        rw [List.erase_cons_head]
        exact h
      · rw [List.erase_cons_tail (by simpa using hd), List.dropWhile_cons, if_pos (by simpa using hz)]
        exact ih h

/-- list_del of another task leaves x before the walk -/
theorem Ahead.erase (h : Ahead l x k) (hnd : l.Nodup) (hx : x ≠ dead) : Ahead (l.erase dead) x k := by
  have hstill : ∀ y, y ∈ l.erase dead → y ≠ dead ∧ y ∈ l := fun y hy => hnd.mem_erase_iff.1 hy
  match k with
  | .before _ (.task y) => exact fun hy => mem_dropWhile_erase hx (hstill y hy).1 (h (hstill y hy).2)
  | .behind _ (.task y) => exact fun hy => mem_tail_erase hx (hstill y hy).1 (h (hstill y hy).2)
  | .before _ (.head _) => exact h
  | .behind _ (.head _) => exact h
  | .returned _ _ => trivial

/-- list_add puts a task in front of all -/
theorem Ahead.cons (h : Ahead l x k) (hx : x ∈ l) (new : ℕ) : Ahead (new :: l) x k := by
  match k with
  | .before _ (.task y) =>
    intro hy
    rw [List.dropWhile_cons]
    by_cases hn : new = y
    · rw [if_neg (by simpa using hn)]
      exact List.mem_cons_of_mem _ hx
    · rw [if_pos (by simpa using hn)]
      exact h ((List.mem_cons.1 hy).resolve_left (Ne.symm hn))
  | .behind _ (.task y) =>
    intro hy
    rw [List.dropWhile_cons]
    by_cases hn : new = y
    · rw [if_neg (by simpa using hn)]
      exact hx
    · rw [if_pos (by simpa using hn)]
      exact h ((List.mem_cons.1 hy).resolve_left (Ne.symm hn))
  | .before _ (.head _) => exact h
  | .behind _ (.head _) => exact h
  | .returned _ _ => trivial

/-- the next node, from a task of the list -/
theorem nextOf_linked (hok : PidOk s) (hy : y ∈ s.pidLists (Sys.list p)) :
    s.nextOf (.task y) = firstOf ((s.pidLists (Sys.list p)).dropWhile (· ≠ y)).tail (Sys.list p) := by
  have hlist := ((hok.lists.mem _ y).1 hy).2
  rw [Sys.nextOf, ← hlist, if_pos hy]

/-! ## One step -/

theorem next_gone (hgone : (c.next op s').gone t = false) (hk : s'.walk t = some k) :
    (op.starts t = true ∨ c.gone t = false) ∧ ∃ x ∈ s'.tasks, s'.pid x = k.sought := by
  simp only [Watched.next, hk, Bool.or_eq_false_iff, Bool.and_eq_false_iff, Bool.not_eq_false', decide_eq_false_iff_not] at hgone
  obtain ⟨hsince, hthere⟩ := hgone
  rw [Absent] at hthere
  push Not at hthere
  exact ⟨hsince.symm, hthere⟩

/-- a step of the system that leaves the walk where it is -/
theorem WatchOk.keep (h : WatchOk c) (hk : c.sys.walk t = some k) (hstart : op.starts t = false) (hwalk : s'.walk t = some k)
    (hgone : (c.next op s').gone t = false)
    (hback : (∃ y ∈ c.sys.tasks, c.sys.pid y = k.sought) → ∀ x ∈ s'.tasks, s'.pid x = k.sought →
      x ∈ c.sys.tasks ∧ c.sys.pid x = k.sought ∧
        (Ahead (c.sys.pidLists (Sys.list k.sought)) x k → Ahead (s'.pidLists (Sys.list k.sought)) x k)) :
    (∃ x ∈ s'.tasks, s'.pid x = k.sought) ∧
      ∀ x ∈ s'.tasks, s'.pid x = k.sought → Ahead (s'.pidLists (Sys.list k.sought)) x k := by
  obtain ⟨hsince, hthere⟩ := next_gone hgone hwalk
  have hgone' : c.gone t = false := hsince.resolve_left (by rw [hstart]; exact Bool.false_ne_true)
  obtain ⟨hex, hahead⟩ := h t k hk hgone'
  refine ⟨hthere, fun x hx hp => ?_⟩
  obtain ⟨hin, hpid, hstep⟩ := hback hex x hx hp
  exact hstep (hahead x hin hpid)

/-- a step that changes no list, no pid of a task and no walk -/
theorem WatchOk.same (h : WatchOk c) (hstart : ∀ t, op.starts t = false) (htasks : s'.tasks = c.sys.tasks)
    (hlists : s'.pidLists = c.sys.pidLists) (hpid : ∀ x ∈ c.sys.tasks, s'.pid x = c.sys.pid x)
    (hwalk : s'.walk = c.sys.walk) :
    WatchOk (c.next op s') := by
  intro t k hk hgone
  have hk' : c.sys.walk t = some k := hwalk ▸ hk
  refine h.keep hk' (hstart t) hk hgone fun _ x hx hp => ?_
  have hin : x ∈ c.sys.tasks := htasks ▸ (show x ∈ s'.tasks from hx)
  refine ⟨hin, (hpid x hin).symm.trans hp, fun ha => ?_⟩
  change Ahead (s'.pidLists (Sys.list k.sought)) x k
  rwa [hlists]

/-- a walk begins at the first task of the list -/
theorem ahead_first (hx : x ∈ l) (j : ℕ) : Ahead l x (.before p (firstOf l j)) := by
  cases l with
  | nil => cases hx
  | cons y b =>
    intro _
    simpa using hx

/-- **One read of a walk.** -/
theorem walkOn_ok (hok : PidOk c.sys) (h : WatchOk c) (hl : Linked c.sys (.walk t w)) (hst : c.sys.walkOn t w = some s')
    (hk : s'.walk t = some k) (hgone : (c.next (.walk t w) s').gone t = false) :
    (∃ x ∈ s'.tasks, s'.pid x = k.sought) ∧
      ∀ x ∈ s'.tasks, s'.pid x = k.sought → Ahead (s'.pidLists (Sys.list k.sought)) x k := by
  obtain ⟨hsince, hthere⟩ := next_gone hgone hk
  have hgone' : c.gone t = false := hsince.resolve_left Bool.false_ne_true
  refine ⟨hthere, ?_⟩
  rw [Sys.walkOn] at hst
  split at hst
  case h_1 p pos hwalk =>
    obtain ⟨-, hahead⟩ := h t _ hwalk hgone'
    split_ifs at hst with hhead hpid
    · cases hst
      cases (Function.update_self ..).symm.trans hk
      exact fun _ _ _ => trivial
    · cases hst
      cases (Function.update_self ..).symm.trans hk
      exact fun _ _ _ => trivial
    · cases hst
      cases (Function.update_self ..).symm.trans hk
      intro x hx hp
      have hbefore := hahead x hx hp
      have hon : OnList c.sys p pos := hl _ hwalk pos rfl
      cases pos with
      | head j => exact hbefore
      | task y =>
        intro hy
        obtain ⟨b, hb⟩ := dropWhile_self _ hon
        have hin := hbefore hon
        simp only [Look.sought] at hin
        rw [hb] at hin
        change x ∈ ((c.sys.pidLists (Sys.list p)).dropWhile (· ≠ y)).tail
        rw [hb]
        refine (List.mem_cons.1 hin).resolve_left ?_
        rintro rfl
        exact hpid hp
  case h_2 p pos hwalk =>
    obtain ⟨-, hahead⟩ := h t _ hwalk hgone'
    cases hst
    cases (Function.update_self ..).symm.trans hk
    intro x hx hp
    have hbehind := hahead x hx hp
    have hon : OnList c.sys p pos := hl _ hwalk pos rfl
    cases pos with
    | head j => exact absurd hbehind id
    | task y =>
      have hin : x ∈ ((c.sys.pidLists (Sys.list p)).dropWhile (· ≠ y)).tail := hbehind hon
      change Ahead (c.sys.pidLists (Sys.list p)) x (.before p (c.sys.nextOf (.task y)))
      rw [nextOf_linked hok hon]
      obtain ⟨b, hb⟩ := dropWhile_self _ hon
      rw [hb, List.tail_cons] at hin ⊢
      cases b with
      | nil => cases hin
      | cons z b =>
        intro _
        rw [dropWhile_next hb (hok.lists.lists _)]
        exact hin
  case h_3 => cases hst

theorem insert_next (hok : PidOk c.sys) (h : WatchOk c) (hst : stepOf c.sys (.insert t) = some s') :
    WatchOk (c.next (.insert t) s') := by
  obtain ⟨new, hm, rfl⟩ := insert_inv hst
  have hnew : new ∉ c.sys.tasks := (hok.making.maker t _ hm).2
  intro u k hk hgone
  have hk' : c.sys.walk u = some k := hk
  refine h.keep hk' rfl hk hgone ?_
  rintro ⟨y, hy, hyp⟩ x hx hp
  change x ∈ new :: c.sys.tasks at hx
  change c.sys.pid x = k.sought at hp
  -- the pid of the new task is not in use
  have hne : x ≠ new := by
    rintro rfl
    refine hnew ?_
    rw [hok.pids.distinct x y (Or.inr ⟨t, hm⟩) (Or.inl hy) (hp.trans hyp.symm)]
    exact hy
  have hin := (List.mem_cons.1 hx).resolve_left hne
  refine ⟨hin, hp, fun ha => ?_⟩
  have hmem : x ∈ c.sys.pidLists (Sys.list k.sought) := (hok.lists.mem _ x).2 ⟨hin, by rw [hp]⟩
  change Ahead (if Sys.list k.sought = Sys.list (c.sys.pid new) then new :: c.sys.pidLists (Sys.list k.sought)
    else c.sys.pidLists (Sys.list k.sought)) x k
  split_ifs
  · exact ha.cons hmem new
  · exact ha

theorem release_next (hok : PidOk c.sys) (h : WatchOk c) (hst : stepOf c.sys (.release t dead) = some s') :
    WatchOk (c.next (.release t dead) s') := by
  rw [stepOf] at hst
  split_ifs at hst
  cases hst
  intro u k hk hgone
  have hk' : c.sys.walk u = some k := hk
  refine h.keep hk' rfl hk hgone fun _ x hx hp => ?_
  obtain ⟨hne, hin⟩ := (hok.lists.tasks.mem_erase_iff).1 hx
  exact ⟨hin, hp, fun ha => ha.erase (hok.lists.lists _) hne⟩

/-- the walk of another task -/
theorem WatchOk.other (h : WatchOk c) {k' : Look} (hu : u ≠ t) (hop : op.starts u = false)
    (hk : (c.sys.setWalk t k').walk u = some k) (hgone : (c.next op (c.sys.setWalk t k')).gone u = false) :
    (∃ x ∈ c.sys.tasks, c.sys.pid x = k.sought) ∧
      ∀ x ∈ c.sys.tasks, c.sys.pid x = k.sought → Ahead (c.sys.pidLists (Sys.list k.sought)) x k := by
  have hkeep := h.keep ((Function.update_of_ne hu ..).symm.trans hk) hop hk hgone fun _ _ hx hp => ⟨hx, hp, id⟩
  exact hkeep

theorem look_next (hok : PidOk c.sys) (h : WatchOk c) (hst : stepOf c.sys (.look t p) = some s') :
    WatchOk (c.next (.look t p) s') := by
  rw [stepOf] at hst
  split_ifs at hst
  cases hst
  intro u k hk hgone
  by_cases hu : u = t
  · subst hu
    obtain ⟨-, hthere⟩ := next_gone hgone hk
    cases (Function.update_self ..).symm.trans hk
    refine ⟨hthere, fun x hx hp => ahead_first ?_ _⟩
    exact (hok.lists.mem _ x).2 ⟨hx, congrArg Sys.list hp.symm⟩
  · have hop : (Op.look t p).starts u = false := decide_eq_false (Ne.symm hu)
    exact h.other hu hop hk hgone

theorem next_ok (hok : PidOk c.sys) (h : WatchOk c) (hl : Linked c.sys op) (hst : step c.sys op = some s') :
    WatchOk (c.next op s') := by
  rw [step] at hst
  split_ifs at hst with hlegal
  cases op with
  | insert t => exact insert_next hok h hst
  | release t dead => exact release_next hok h hst
  | look t p => exact look_next hok h hst
  | walk t w =>
    intro u k hk hgone
    by_cases hu : u = t
    · subst hu
      exact walkOn_ok hok h hl hst hk hgone
    · obtain ⟨k', rfl⟩ := walkOn_cases hst
      exact h.other hu rfl hk hgone
  | _ =>
    obtain ⟨htasks, hlists, hwalk, hpid⟩ := unseen_step hok.making rfl hst
    exact h.same (fun _ => rfl) htasks hlists hpid hwalk

/-! ## Every run -/

/-- **One read that comes to the end of the call.** -/
theorem walkOn_right (hok : PidOk c.sys) (h : WatchOk c) (hl : Linked c.sys (.walk t w)) (hst : c.sys.walkOn t w = some s')
    {find : Option Node} (hk : s'.walk t = some (.returned p find)) : RightAnswer (c.next (.walk t w) s') t p find := by
  rw [Sys.walkOn] at hst
  split at hst
  case h_1 q pos hwalk =>
    have hon : OnList c.sys q pos := hl _ hwalk pos rfl
    split_ifs at hst with hhead hpid
    · cases hst
      cases (Function.update_self ..).symm.trans hk
      by_contra hno
      have hgone : c.gone t = false := by
        by_contra htrue
        refine hno ?_
        simp only [RightAnswer, Watched.next, hk, Op.starts]
        simp [Bool.not_eq_false .. ▸ htrue]
      obtain ⟨⟨x, hx, hp⟩, hahead⟩ := h t _ hwalk hgone
      rw [hhead] at hahead
      exact hahead x hx hp
    · cases hst
      cases (Function.update_self ..).symm.trans hk
      cases pos with
      | head j => exact absurd (congrArg Node.head hon) hhead
      | task y => exact ⟨((hok.lists.mem _ y).1 hon).1, hpid⟩
    · cases hst
      cases (Function.update_self ..).symm.trans hk
  case h_2 q pos hwalk =>
    cases hst
    cases (Function.update_self ..).symm.trans hk
  case h_3 => cases hst

/-- the reads of a walk from the end of a on, when nothing comes in between -/
theorem walk_alone (b : List ℕ) : ∀ (s : Sys) (a : List ℕ), PidOk s → t ∈ s.tasks →
    (s.masked = none ∨ s.masked = some t) → s.pidLists (Sys.list p) = a ++ b →
    s.walk t = some (.before p (firstOf b (Sys.list p))) →
    ∃ n s2, (List.replicate n (Op.walk t 0)).foldlM step s = some s2 ∧
      s2.walk t = some (.returned p ((b.find? fun x => s.pid x = p).map Node.task)) := by
  induction b with
  | nil =>
    intro s a _ ht hmask _ hwalk
    refine ⟨1, s.setWalk t (.returned p none), ?_, Function.update_self ..⟩
    have hstep : step s (.walk t 0) = some (s.setWalk t (.returned p none)) := by
      rw [step, if_pos ⟨ht, hmask⟩, stepOf, Sys.walkOn, hwalk]
      exact if_pos rfl
    simpa using hstep
  | cons y b ih =>
    intro s a hok ht hmask hlist hwalk
    have hy : y ∈ s.pidLists (Sys.list p) := by
      rw [hlist]
      exact List.mem_append_right _ List.mem_cons_self
    by_cases hp : s.pid y = p
    · refine ⟨1, s.setWalk t (.returned p (some (.task y))), ?_, ?_⟩
      · have hstep : step s (.walk t 0) = some (s.setWalk t (.returned p (some (.task y)))) := by
          rw [step, if_pos ⟨ht, hmask⟩, stepOf, Sys.walkOn, hwalk]
          exact (if_neg Node.noConfusion).trans (if_pos hp)
        simpa using hstep
      · rw [List.find?_cons_of_pos (by simpa using hp)]
        exact Function.update_self ..
    · have hfirst : step s (.walk t 0) = some (s.setWalk t (.behind p (.task y))) := by
        rw [step, if_pos ⟨ht, hmask⟩, stepOf, Sys.walkOn, hwalk]
        exact (if_neg Node.noConfusion).trans (if_neg hp)
      have hok1 := setWalk_ok hok t (.behind p (.task y))
      have hwalk1 : (s.setWalk t (.behind p (.task y))).walk t = some (.behind p (.task y)) := Function.update_self ..
      have hnext : (s.setWalk t (.behind p (.task y))).nextOf (.task y) = firstOf b (Sys.list p) := by
        rw [nextOf_linked hok1 (show y ∈ s.pidLists (Sys.list p) from hy)]
        change firstOf ((s.pidLists (Sys.list p)).dropWhile (· ≠ y)).tail (Sys.list p) = _
        rw [dropWhile_append_cons hlist (hok.lists.lists _), List.tail_cons]
      have hsecond : step (s.setWalk t (.behind p (.task y))) (.walk t 0) =
          some ((s.setWalk t (.behind p (.task y))).setWalk t (.before p (firstOf b (Sys.list p)))) := by
        rw [step, if_pos ⟨ht, hmask⟩, stepOf, Sys.walkOn, hwalk1]
        simp only [hnext]
      obtain ⟨n, s2, hrun, hreturned⟩ := ih _ (a ++ [y]) (setWalk_ok hok1 t (.before p (firstOf b (Sys.list p)))) ht hmask
        (by rw [List.append_assoc, List.singleton_append]; exact hlist) (Function.update_self ..)
      refine ⟨n + 2, s2, ?_, ?_⟩
      · rw [List.replicate_succ, List.replicate_succ, List.foldlM_cons, hfirst]
        simp only [Option.bind_eq_bind, Option.bind_some, List.foldlM_cons, hsecond]
        exact hrun
      · rw [List.find?_cons_of_neg (by simpa using hp)]
        exact hreturned

/-- the reads that a walk has left -/
def readsLeft (l : List ℕ) : Look → ℕ
  | .before _ (.task y) => 2 * (l.dropWhile (· ≠ y)).length + 1
  | .behind _ (.task y) => 2 * ((l.dropWhile (· ≠ y)).length - 1) + 2
  | .before _ (.head _) => 1
  | .behind _ (.head _) | .returned _ _ => 0

/-- only the list behind the node that a walk stands on counts -/
theorem readsLeft_mono {l l' : List ℕ} (h : ∀ p y, k = .before p (.task y) ∨ k = .behind p (.task y) →
    (l'.dropWhile (· ≠ y)).length ≤ (l.dropWhile (· ≠ y)).length) : readsLeft l' k ≤ readsLeft l k := by
  cases k with
  | before p pos =>
    cases pos with
    | head j => exact le_rfl
    | task y =>
      have hlen := h p y (Or.inl rfl)
      change 2 * (l'.dropWhile (· ≠ y)).length + 1 ≤ 2 * (l.dropWhile (· ≠ y)).length + 1
      omega
  | behind p pos =>
    cases pos with
    | head j => exact le_rfl
    | task y =>
      have hlen := h p y (Or.inr rfl)
      change 2 * ((l'.dropWhile (· ≠ y)).length - 1) + 2 ≤ 2 * ((l.dropWhile (· ≠ y)).length - 1) + 2
      omega
  | returned p find => exact le_rfl

def Op.reads (t : ℕ) : Op → Bool
  | .walk u _ => u = t
  | _ => false

/-- the page that the walk of task t stands on becomes a task of a list -/
def Relists (s : Sys) (t : ℕ) : Op → Prop
  | .insert u => ∃ m ∈ s.making u, ∃ p, s.walk t = some (.before p (.task m.new)) ∨
    s.walk t = some (.behind p (.task m.new))
  | _ => False

theorem dropWhile_erase_length (l : List ℕ) (hnd : l.Nodup) (dead y : ℕ) :
    ((l.erase dead).dropWhile (· ≠ y)).length ≤ (l.dropWhile (· ≠ y)).length := by
  by_cases hy : y = dead
  · subst hy
    have hnone : (l.erase y).dropWhile (· ≠ y) = [] := by
      refine List.dropWhile_eq_nil_iff.2 fun x hx => ?_
      simpa using (hnd.mem_erase_iff.1 hx).1
    rw [hnone]
    exact Nat.zero_le _
  · induction l with
    | nil => exact le_rfl
    | cons z l ih =>
      by_cases hd : z = dead
      · subst hd
        rw [List.erase_cons_head, List.dropWhile_cons_of_pos (by simpa using Ne.symm hy)]
      · rw [List.erase_cons_tail (by simpa using hd), List.dropWhile_cons, List.dropWhile_cons]
        split_ifs
        · exact ih (List.nodup_cons.1 hnd).2
        · rw [List.length_cons, List.length_cons]
          exact Nat.succ_le_succ List.length_erase_le

/-- **A step of another task** takes no read of a walk back. -/
theorem readsLeft_other (hok : PidOk s) (hst : step s op = some s') (hread : op.reads t = false) (hstart : op.starts t = false)
    (hrelist : ¬ Relists s t op) (hk : s.walk t = some k) : s'.walk t = some k ∧
      readsLeft (s'.pidLists (Sys.list k.sought)) k ≤ readsLeft (s.pidLists (Sys.list k.sought)) k := by
  rw [step] at hst
  split_ifs at hst with hlegal
  cases op with
  | insert u =>
    obtain ⟨new, hm, rfl⟩ := insert_inv hst
    refine ⟨hk, ?_⟩
    change readsLeft (if Sys.list k.sought = Sys.list (s.pid new) then new :: s.pidLists (Sys.list k.sought)
      else s.pidLists (Sys.list k.sought)) k ≤ _
    split_ifs
    · refine readsLeft_mono fun p y hy => ?_
      have hne : new ≠ y := by
        rintro rfl
        exact hrelist ⟨_, hm, p, hy.imp (fun he => hk.trans (congrArg some he)) fun he => hk.trans (congrArg some he)⟩
      rw [List.dropWhile_cons, if_pos (by simpa using hne)]
    · exact le_rfl
  | release u dead =>
    rw [stepOf] at hst
    split_ifs at hst
    cases hst
    exact ⟨hk, readsLeft_mono fun p y hy => dropWhile_erase_length _ (hok.lists.lists _) dead y⟩
  | look u p =>
    have hne : t ≠ u := fun he => by simp [Op.starts, he] at hstart
    rw [stepOf] at hst
    split_ifs at hst
    cases hst
    exact ⟨(Function.update_of_ne hne ..).trans hk, le_rfl⟩
  | walk u w =>
    have hne : t ≠ u := fun he => by simp [Op.reads, he] at hread
    obtain ⟨k', rfl⟩ := walkOn_cases hst
    exact ⟨(Function.update_of_ne hne ..).trans hk, le_rfl⟩
  | _ =>
    obtain ⟨-, hlists, hwalk, -⟩ := unseen_step hok.making rfl hst
    rw [hwalk, hlists]
    exact ⟨hk, le_rfl⟩

/-- the walk stands behind no head, where get_task_by_pid is over -/
def OffHead : Look → Prop
  | .behind _ (.head _) => False
  | _ => True

/-- **A read of its own** brings a walk nearer to its end. -/
theorem readsLeft_own (hok : PidOk s) (hl : Linked s (.walk t w)) (hst : s.walkOn t w = some s') (hk : s.walk t = some k)
    (hoff : OffHead k) : ∃ k', s'.walk t = some k' ∧ OffHead k' ∧
      readsLeft (s'.pidLists (Sys.list k'.sought)) k' < readsLeft (s.pidLists (Sys.list k.sought)) k := by
  rw [Sys.walkOn, hk] at hst
  cases k with
  | before p pos =>
    have hon : OnList s p pos := hl _ hk pos rfl
    have hpos : 0 < readsLeft (s.pidLists (Sys.list p)) (.before p pos) := by
      cases pos
      all_goals exact Nat.succ_pos _
    dsimp only at hst
    split_ifs at hst with hhead hpid
    · cases hst
      exact ⟨_, Function.update_self .., trivial, hpos⟩
    · cases hst
      exact ⟨_, Function.update_self .., trivial, hpos⟩
    · cases hst
      cases pos with
      | head j => exact absurd (congrArg Node.head hon) hhead
      | task y =>
        refine ⟨_, Function.update_self .., trivial, ?_⟩
        obtain ⟨b, hb⟩ := dropWhile_self _ hon
        change 2 * (((s.pidLists (Sys.list p)).dropWhile (· ≠ y)).length - 1) + 2 <
          2 * ((s.pidLists (Sys.list p)).dropWhile (· ≠ y)).length + 1
        rw [hb, List.length_cons]
        omega
  | behind p pos =>
    cases pos with
    | head j => exact hoff.elim
    | task y =>
      have hon : OnList s p (.task y) := hl _ hk _ rfl
      cases hst
      refine ⟨_, Function.update_self .., trivial, ?_⟩
      rw [nextOf_linked hok hon]
      change readsLeft (s.pidLists (Sys.list p)) (.before p _) <
        2 * (((s.pidLists (Sys.list p)).dropWhile (· ≠ y)).length - 1) + 2
      obtain ⟨b, hb⟩ := dropWhile_self _ hon
      rw [hb, List.tail_cons, List.length_cons]
      cases b with
      | nil => exact Nat.lt_of_sub_eq_succ rfl
      | cons z b =>
        change 2 * ((s.pidLists (Sys.list p)).dropWhile (· ≠ z)).length + 1 < _
        rw [dropWhile_next hb (hok.lists.lists _), List.length_cons]
        omega
  | returned p find => cases hst

/-- **The length of a walk.** A call of get_task_by_pid is over after two reads for each task of the list and one more, whatever
comes in between. -/
theorem walk_ends {c1 c2 : Watched} {ops : List Op} (hok : PidOk c.sys) (hsolo : Solo c.sys) (hst : watched.step c (.look t p) c1)
    (hrun : (watched.only fun c op => Linked c.sys op ∧ op.starts t = false ∧ ¬ Relists c.sys t op).Run c1 ops c2) :
    (ops.filter (Op.reads t)).length ≤ 2 * (c.sys.pidLists (Sys.list p)).length + 1 := by
  obtain ⟨s, hs, rfl⟩ := hst
  have hrank := hrun.ranked (Op.reads t) (n := 2 * (c.sys.pidLists (Sys.list p)).length + 1)
    (fun c n => (PidOk c.sys ∧ Solo c.sys) ∧ ∃ k, c.sys.walk t = some k ∧ OffHead k ∧
      readsLeft (c.sys.pidLists (Sys.list k.sought)) k ≤ n) ?_ ?_ ?_
  · obtain ⟨m, -, hle⟩ := hrank
    exact (Nat.le_add_left ..).trans hle
  · rintro d op d' n ⟨⟨hl, hstart, hrelist⟩, s2, hs2, rfl⟩ hread ⟨⟨hok, hsolo⟩, k, hk, hoff, hn⟩
    obtain ⟨hk', hle⟩ := readsLeft_other hok hs2 hread hstart hrelist hk
    exact ⟨step_ok hok hsolo hs2, k, hk', hoff, hle.trans hn⟩
  · rintro d op d' n ⟨⟨hl, -, -⟩, s2, hs2, rfl⟩ hread ⟨⟨hok, hsolo⟩, k, hk, hoff, hn⟩
    cases op with
    | walk u w =>
      obtain rfl : u = t := by simpa [Op.reads] using hread
      have hs2' := hs2
      rw [step] at hs2'
      split_ifs at hs2'
      obtain ⟨k', hk', hoff', hlt⟩ := readsLeft_own hok hl hs2' hk hoff
      exact ⟨_, hlt.trans_le hn, step_ok hok hsolo hs2, k', hk', hoff', le_rfl⟩
    | _ => cases hread
  · have hnext := step_ok hok hsolo hs
    rw [step] at hs
    split_ifs at hs
    rw [stepOf] at hs
    split_ifs at hs
    cases hs
    refine ⟨hnext, _, Function.update_self .., trivial, ?_⟩
    change readsLeft (c.sys.pidLists (Sys.list p)) (.before p (firstOf (c.sys.pidLists (Sys.list p)) (Sys.list p))) ≤ _
    cases c.sys.pidLists (Sys.list p) with
    | nil => exact le_rfl
    | cons y b =>
      change 2 * ((y :: b).dropWhile (· ≠ y)).length + 1 ≤ _
      simp

theorem booted_solo : Solo booted := fun t m hm => by cases hm

/-- **Process ids.** In every run in which the reads of get_task_by_pid are of nodes of its list: the tasks have distinct pids,
each is in the list of its pid and in no other, the scan of find_usable_pid ends, a call of get_task_by_pid that nothing
interrupts finds the task with the pid exactly if there is one, and one that is interrupted gives a task that has the pid when it
returns, or NULL if there was none at some moment of the call. It comes to its end unless the page that it stands on becomes a
task again. -/
theorem pids_distinct (h : (watched.only fun c op => Linked c.sys op).Reach c) :
    (∀ t ∈ c.sys.tasks, ∀ u ∈ c.sys.tasks, c.sys.pid t = c.sys.pid u → t = u) ∧
    (∀ j t, t ∈ c.sys.pidLists j ↔ t ∈ c.sys.tasks ∧ j = Sys.list (c.sys.pid t)) ∧
    (∀ j, (c.sys.pidLists j).Nodup) ∧ (c.sys.tasks.length < 2 ^ 32 → (scan c.sys).isSome) ∧
    (∀ p t, c.sys.getTaskByPid p = some t ↔ t ∈ c.sys.tasks ∧ c.sys.pid t = p) ∧
    (∀ t p s, step c.sys (.look t p) = some s → ∃ n s2, (List.replicate n (Op.walk t 0)).foldlM step s = some s2 ∧
      s2.walk t = some (.returned p ((c.sys.getTaskByPid p).map Node.task))) ∧
    (∀ t w c' p find, Linked c.sys (.walk t w) → watched.step c (.walk t w) c' → c'.sys.walk t = some (.returned p find) →
      RightAnswer c' t p find) ∧
    ∀ t p c1 ops c2, watched.step c (.look t p) c1 →
      (watched.only fun c op => Linked c.sys op ∧ op.starts t = false ∧ ¬ Relists c.sys t op).Run c1 ops c2 →
        (ops.filter (Op.reads t)).length ≤ 2 * (c.sys.pidLists (Sys.list p)).length + 1 := by
  obtain ⟨⟨hok, hsolo⟩, hwatch⟩ : (PidOk c.sys ∧ Solo c.sys) ∧ WatchOk c := by
    refine Lts.Reach.inv (M := watched.only fun c op => Linked c.sys op)
      (P := fun c => (PidOk c.sys ∧ Solo c.sys) ∧ WatchOk c)
      (fun c h0 => ?_) (fun c op c' hc hst => ?_) h
    · obtain ⟨hsys, -⟩ := h0
      rw [hsys]
      refine ⟨⟨booted_ok, booted_solo⟩, fun t k hk => ?_⟩
      rw [hsys] at hk
      cases hk
    · obtain ⟨hl, s, hs, rfl⟩ := hst
      exact ⟨step_ok hc.1.1 hc.1.2 hs, next_ok hc.1.1 hc.2 hl hs⟩
  refine ⟨fun t ht u hu => hok.pids.distinct t u (Or.inl ht) (Or.inl hu), hok.lists.mem, hok.lists.lists, scan_ends,
    getTaskByPid_iff hok, fun t p s hs => ?_, fun t w c' p find hl hst hk => ?_,
    fun t p c1 ops c2 hst hrun => walk_ends hok hsolo hst hrun⟩
  · rw [step] at hs
    split_ifs at hs with hlegal
    rw [stepOf] at hs
    split_ifs at hs
    cases hs
    exact walk_alone (c.sys.pidLists (Sys.list p)) _ [] (setWalk_ok hok t _) hlegal.1 hlegal.2 rfl (Function.update_self ..)
  · obtain ⟨s, hs, rfl⟩ := hst
    rw [step] at hs
    split_ifs at hs
    exact walkOn_right hok hwatch hl hs hk

/-- kernel_thread by task t -/
def thread (t new : ℕ) (masked : Bool) : List Op := [.enter t new masked, .scan t, .load t, .store t, .insert t]

/-- task 2 looks for task 1, which starts another thread meanwhile -/
def interrupted : List Op := thread 0 1 false ++ thread 1 2 true ++ [.look 2 1] ++ thread 1 3 true

def Watched.act (c : Watched) (op : Op) : Option Watched := (step c.sys op).map (c.next op)

theorem act_step (c : Watched) (op : Op) (c' : Watched) (h : c.act op = some c') : watched.step c op c' := by
  obtain ⟨s, hs, rfl⟩ := Option.map_eq_some_iff.1 h
  exact ⟨s, hs, rfl⟩

def Watched.linkedStep (c : Watched) (op : Op) : Option Watched := if Linked c.sys op then c.act op else none

theorem pids_interrupted : ∃ c c', interrupted.foldlM Watched.linkedStep ⟨booted, fun _ => false⟩ = some c ∧
    c.sys.tasks = [3, 2, 1, 0] ∧ c.sys.getTaskByPid 3 = some 3 ∧ watched.step c (.walk 2 0) c' ∧
    RightAnswer c' 2 1 (some (.task 1)) := by
  obtain ⟨c, hc⟩ : ∃ c, interrupted.foldlM Watched.linkedStep ⟨booted, fun _ => false⟩ = some c :=
    Option.isSome_iff_exists.1 (by decide)
  have htasks : (interrupted.foldlM Watched.linkedStep ⟨booted, fun _ => false⟩).map (fun c => (c.sys.tasks, c.sys.pid 3)) =
      some ([3, 2, 1, 0], 3) := by decide
  have hlast : (interrupted.foldlM Watched.linkedStep ⟨booted, fun _ => false⟩).map
      (fun c => (decide (Linked c.sys (.walk 2 0)), (step c.sys (.walk 2 0)).map fun s => s.walk 2)) =
        some (true, some (some (.returned 1 (some (.task 1))))) := by decide
  rw [hc, Option.map_some, Option.some.injEq, Prod.mk.injEq] at htasks hlast
  have hreach : (watched.only fun c op => Linked c.sys op).Reach c :=
    .fold_only (M := watched) act_step (.start ⟨rfl, rfl⟩) hc
  obtain ⟨-, -, -, -, hfind, -, hright, -⟩ := pids_distinct hreach
  obtain ⟨s, hs, hwalk⟩ := Option.map_eq_some_iff.1 hlast.2
  refine ⟨c, c.next (.walk 2 0) s, hc, htasks.1, (hfind 3 3).2 ⟨?_, htasks.2⟩, ⟨s, hs, rfl⟩, ?_⟩
  · rw [htasks.1]
    decide
  · exact hright 2 0 _ 1 _ (of_decide_eq_true hlast.1) ⟨s, hs, rfl⟩ hwalk

/-- task 3 looks for pid 12 and stands on task 2, which is released; its page becomes the task with pid 4 -/
def reaped : List Op := thread 0 1 false ++ thread 1 2 true ++ thread 1 3 true ++
  [.look 3 12, .walk 3 0, .release 1 2] ++ thread 1 2 true

/-- a walk for pid 12 goes round in pid_lists[4] -/
structure Strayed (s : Sys) : Prop where
  runs : 3 ∈ s.tasks ∧ s.masked = none
  list : s.pid 2 = 4 ∧ s.nextOf (.task 2) = .head 4 ∧ s.nextOf (.head 4) = .task 2
  walk : s.walk 3 ∈ [some (.behind 12 (.task 2)), some (.before 12 (.head 4)), some (.behind 12 (.head 4)),
      some (.before 12 (.task 2))]

theorem strayed_step (h : Strayed s) (hw : w ≠ 12) : ∃ s', step s (.walk 3 w) = some s' ∧ Strayed s' := by
  have hkeep : ∀ l, some l ∈ [some (Look.behind 12 (.task 2)), some (.before 12 (.head 4)), some (.behind 12 (.head 4)),
      some (.before 12 (.task 2))] → Strayed (s.setWalk 3 l) := fun l hl => by
    refine ⟨h.runs, h.list, ?_⟩
    change Function.update s.walk 3 (some l) 3 ∈ _
    rwa [Function.update_self]
  rw [step, if_pos ⟨h.runs.1, Or.inl h.runs.2⟩, stepOf, Sys.walkOn]
  have hwalk := h.walk
  simp only [List.mem_cons, List.not_mem_nil, or_false] at hwalk
  rcases hwalk with hwalk | hwalk | hwalk | hwalk
  · rw [hwalk]
    exact ⟨_, congrArg (fun n => some (s.setWalk 3 (.before 12 n))) h.list.2.1, hkeep _ (by decide)⟩
  · rw [hwalk]
    exact ⟨_, (if_neg (by decide)).trans (if_neg hw), hkeep _ (by decide)⟩
  · rw [hwalk]
    exact ⟨_, congrArg (fun n => some (s.setWalk 3 (.before 12 n))) h.list.2.2, hkeep _ (by decide)⟩
  · rw [hwalk]
    have hpid : s.pid 2 ≠ 12 := by
      rw [h.list.1]
      decide
    exact ⟨_, (if_neg Node.noConfusion).trans (if_neg hpid), hkeep _ (by decide)⟩

theorem strayed_run (h : Strayed s) (ws : List Word) (hws : 12 ∉ ws) :
    ∃ s', (ws.map (Op.walk 3)).foldlM step s = some s' ∧ Strayed s' := by
  induction ws generalizing s with
  | nil => exact ⟨s, rfl, h⟩
  | cons w ws ih =>
    obtain ⟨hw, hws⟩ := not_or.1 (mt List.mem_cons.2 hws)
    obtain ⟨s1, hs1, hstrayed⟩ := strayed_step h (Ne.symm hw)
    obtain ⟨s2, hs2, hend⟩ := ih hstrayed hws
    refine ⟨s2, ?_, hend⟩
    rw [List.map_cons, List.foldlM_cons, hs1]
    exact hs2

/-- there is no task with pid 12, and get_task_by_pid(12) never says so -/
theorem walk_strays : ∃ s, system.Reach s ∧ (∀ t ∈ s.tasks, s.pid t ≠ 12) ∧ ∀ ws : List Word, 12 ∉ ws →
    ∃ s', (ws.map (Op.walk 3)).foldlM step s = some s' ∧ ∀ find, s'.walk 3 ≠ some (.returned 12 find) := by
  obtain ⟨s, hs⟩ : ∃ s, reaped.foldlM step booted = some s := Option.isSome_iff_exists.1 (by decide)
  have hlisted : (reaped.foldlM step booted).map (fun s => (s.tasks, s.masked, s.tasks.map s.pid, s.pid 2)) =
      some ([2, 3, 1, 0], none, [4, 3, 1, 0], 4) := by decide
  have hstands : (reaped.foldlM step booted).map (fun s => (s.nextOf (.task 2), s.nextOf (.head 4), s.walk 3)) =
      some (.head 4, .task 2, some (.behind 12 (.task 2))) := by decide
  rw [hs] at hlisted hstands
  simp only [Option.map_some, Option.some.injEq, Prod.mk.injEq] at hlisted hstands
  obtain ⟨htasks, hmasked, hpids, hpid⟩ := hlisted
  obtain ⟨hnext, hhead, hwalk⟩ := hstands
  have hstrayed : Strayed s := by
    refine ⟨⟨?_, hmasked⟩, ⟨hpid, hnext, hhead⟩, ?_⟩
    · rw [htasks]
      decide
    · rw [hwalk]
      decide
  refine ⟨s, .fold (M := system) (fun _ _ _ hst => hst) (.start rfl) hs, fun t ht he => ?_, fun ws hws => ?_⟩
  · have hin : (12 : Word) ∈ s.tasks.map s.pid := he ▸ List.mem_map_of_mem ht
    rw [hpids] at hin
    exact absurd hin (by decide)
  · obtain ⟨s', hs', hend⟩ := strayed_run hstrayed ws hws
    refine ⟨s', hs', fun find hreturned => ?_⟩
    have hin := hend.walk
    rw [hreturned] at hin
    simp at hin

end SinsOs.Pid
