/-
The terminal (drivers/tty.c): a read takes a line of key events, and hands out what fits.

The characters of an open file are a list. A read edits its end until a carriage return comes, and then takes characters from
its front. What did not fit stays in the list, and the next read edits the same list.

- `loop_line`: the loop leaves a prefix of the old characters, followed by the edited line. They are all kept when there are
  none, or when no backspace comes while the line is empty.
- `read_lines_iff`: so the characters handed out and left over are the edited lines, in every session, exactly when no backspace
  comes while its line is empty and characters of earlier lines are left over.
-/
import SinsOs.Drivers.Console
import SinsOs.Drivers.Keyboard

namespace SinsOs.Tty

open Console (isprint)
open Keyboard (Keyval)

/-! ## Model -/

abbrev Byte := BitVec 8

/-- struct kbd_event, and whether kmalloc has a node for it -/
structure Event where
  kv : Keyval
  mem : Bool
deriving DecidableEq

def Event.val (e : Event) : Byte := e.kv.val

/-- the list at private_data, and what was echoed -/
structure File where
  chars : List Byte
  echo : List Byte
deriving DecidableEq

def pushChar (mem : Bool) (b : Byte) (chars : List Byte) : Option (List Byte) := if mem then some (chars ++ [b]) else none

/-- the character and the list without it; -ERROR when the list is empty -/
def popChar (back : Bool) (chars : List Byte) : Option (Byte × List Byte) :=
  if back then chars.getLast?.map fun b => (b, chars.dropLast)
  else chars.head?.map fun b => (b, chars.tail)

def cr : Byte := 0x0D
def bs : Byte := 0x08
def tab : Byte := 0x09
def space : Byte := 0x20

def isBreak (e : Event) : Bool := e.val == cr

/-- printk("\b \b") -/
def erase : List Byte := [bs, space, bs]

/-- push_char, the echo, and whether the loop is left -/
def pushed (f : File) (mem : Bool) (b : Byte) : File × Bool :=
  match pushChar mem b f.chars with
  | some chars => (⟨chars, f.echo ++ [b]⟩, false)
  | none => (f, true)

/-- a turn of the loop, and whether it is left -/
def turn (f : File) (e : Event) : File × Bool :=
  if isBreak e then ({ f with echo := f.echo ++ [0x0A] }, true)
  else if isprint e.val then pushed f e.mem e.val
  else if e.val = bs then
    match popChar true f.chars with
    | some (_, chars) => (⟨chars, f.echo ++ erase⟩, false)
    | none => (f, false)
  else if e.val = tab then pushed f e.mem space
  else (f, false)

/-- the loop, and the events that are left; `none` while keyboard_read has nothing to return -/
def loop (f : File) : List Event → Option (File × List Event)
  | [] => none
  | e :: events => if (turn f e).2 then some ((turn f e).1, events) else loop (turn f e).1 events

/-- what the second loop stores, what it returns and the characters it leaves -/
structure Copied where
  stores : List (ℕ × Byte)
  count : ℕ
  chars : List Byte
deriving DecidableEq

/-- the second loop, with `room` turns to go -/
def copy (count : ℕ) (chars : List Byte) : ℕ → Copied
  | 0 => ⟨[], count, chars⟩
  | room + 1 =>
    match popChar false chars with
    | some (b, rest) => { copy (count + 1) rest room with stores := (count, b) :: (copy (count + 1) rest room).stores }
    | none => ⟨[(count, 0)], count, chars⟩

/-- tty_read, with the events that the keyboard has for it -/
def ttyRead (f : File) (events : List Event) (size : ℕ) : Option (Copied × File × List Event) :=
  (loop f events).map fun r =>
    let c := copy 0 r.1.chars size
    (c, { r.1 with chars := c.chars }, r.2)

/-! ## Sessions -/

/-- the first bytes of the buffer, as many as the return value says -/
def Copied.bytes (c : Copied) : List Byte := (c.stores.take c.count).map Prod.snd

/-- the file, the events to come and what the reads so far have returned -/
structure Session where
  file : File
  events : List Event
  delivered : List Byte

/-- a call; when it does not return, no other one does -/
def Session.read (s : Session) (size : ℕ) : Session :=
  match ttyRead s.file s.events size with
  | some (c, f, events) => ⟨f, events, s.delivered ++ c.bytes⟩
  | none => s

def Session.reads (s : Session) (sizes : List ℕ) : Session := sizes.foldl Session.read s

/-- tty_open -/
def opened (events : List Event) : Session := ⟨⟨[], []⟩, events, []⟩

/-! ## Edited lines -/

/-- the events cut at the carriage returns -/
def lines (events : List Event) : List (List Event) := (events.splitOnP isBreak).dropLast

def editStep (text : List Byte) (e : Event) : List Byte :=
  if isprint e.val then text ++ [e.val]
  else if e.val = bs then text.dropLast
  else if e.val = tab then text ++ [space]
  else text

def edit (line : List Event) : List Byte := line.foldl editStep []

/-- what has been delivered is a prefix of the edited lines, and nothing of the lines that were read is missing -/
def Kept (events : List Event) (sizes : List ℕ) : Prop :=
  let s := (opened events).reads sizes
  s.delivered <+: (lines events).flatMap edit ∧
    s.delivered ++ s.file.chars = ((lines events).take sizes.length).flatMap edit

/-- no backspace comes while the line, of which `text` is there, is empty -/
def Solid (text : List Byte) : List Event → Prop
  | [] => True
  | e :: line => (e.val = bs → text ≠ []) ∧ Solid (editStep text e) line

instance Solid.dec : (text : List Byte) → (line : List Event) → Decidable (Solid text line)
  | _, [] => inferInstanceAs (Decidable True)
  | text, e :: line =>
    have := Solid.dec (editStep text e) line
    inferInstanceAs (Decidable (_ ∧ _))

/-- every line that is read while characters are left over is solid; there are `left` at first -/
def Clean (left : ℕ) : List (List Event × ℕ) → Prop
  | [] => True
  | (line, size) :: more => (0 < left → Solid [] line) ∧ Clean (left + (edit line).length - size) more

instance Clean.dec : (left : ℕ) → (reads : List (List Event × ℕ)) → Decidable (Clean left reads)
  | _, [] => inferInstanceAs (Decidable True)
  | left, (line, size) :: more =>
    have := Clean.dec (left + (edit line).length - size) more
    inferInstanceAs (Decidable (_ ∧ _))

variable {f : File} {e brk : Event} {old text chars : List Byte} {line events : List Event} {s : Session} {size : ℕ}

/-! ## The loop -/

@[simp] theorem popChar_front_nil : popChar false [] = none := rfl
@[simp] theorem popChar_front_cons (b : Byte) (chars : List Byte) : popChar false (b :: chars) = some (b, chars) := rfl

theorem popChar_back (chars : List Byte) (b : Byte) : popChar true (chars ++ [b]) = some (b, chars) := by
  simp [popChar]

theorem popChar_back_chars (f : File) : (match popChar true f.chars with
    | some (_, chars) => ((⟨chars, f.echo ++ erase⟩ : File), false)
    | none => (f, false)).1.chars = f.chars.dropLast := by
  obtain ⟨chars, echo⟩ := f
  induction chars using List.reverseRecOn with
  | nil => rfl
  | append_singleton chars b _ => simp [popChar_back]

theorem pushed_mem (f : File) (b : Byte) : pushed f true b = (⟨f.chars ++ [b], f.echo ++ [b]⟩, false) := rfl

/-- a turn which is no carriage return edits the whole list -/
theorem turn_edits (hb : isBreak e = false) (hm : e.mem = true) (f : File) :
    (turn f e).2 = false ∧ (turn f e).1.chars = editStep f.chars e := by
  rw [turn, editStep, hb, if_neg Bool.false_ne_true, hm]
  by_cases hp : isprint e.val
  · rw [if_pos hp, if_pos hp, pushed_mem]
    exact ⟨rfl, rfl⟩
  rw [if_neg hp, if_neg hp]
  by_cases hs : e.val = bs
  · rw [if_pos hs, if_pos hs]
    refine ⟨?_, popChar_back_chars f⟩
    split <;> rfl
  rw [if_neg hs, if_neg hs]
  by_cases ht : e.val = tab
  · rw [if_pos ht, if_pos ht, pushed_mem]
    exact ⟨rfl, rfl⟩
  rw [if_neg ht, if_neg ht]
  exact ⟨rfl, rfl⟩

/-- the edit of a line behind other characters, away from an empty line -/
theorem editStep_append (he : e.val = bs → text ≠ []) (old : List Byte) :
    editStep (old ++ text) e = old ++ editStep text e := by
  unfold editStep
  split_ifs with hp hs ht
  · exact List.append_assoc ..
  · exact List.dropLast_append_of_ne_nil (he hs)
  · exact List.append_assoc ..
  · rfl

theorem editStep_bs (he : e.val = bs) (text : List Byte) : editStep text e = text.dropLast := by
  have hp : ¬ isprint e.val := by
    rw [he]
    decide
  rw [editStep, if_neg hp, if_pos he]

/-- **A line behind the characters that were left over.** The loop keeps a prefix of them, and all of them exactly when there
are none or the line is solid. -/
theorem loop_line (hline : ∀ e ∈ line, isBreak e = false ∧ e.mem = true) (hbrk : isBreak brk = true) (rest : List Event)
    (hf : f.chars = old ++ text) :
    ∃ f' kept, loop f (line ++ brk :: rest) = some (f', rest) ∧ f'.chars = kept ++ line.foldl editStep text ∧
      kept <+: old ∧ (kept = old ↔ old = [] ∨ Solid text line) := by
  induction line generalizing f old text with
  | nil =>
    have hturn : turn f brk = ({ f with echo := f.echo ++ [0x0A] }, true) := by rw [turn, if_pos hbrk]
    refine ⟨{ f with echo := f.echo ++ [0x0A] }, old, ?_, hf, List.prefix_refl _, by simp [Solid]⟩
    rw [List.nil_append, loop, hturn, if_pos rfl]
  | cons e line ih =>
    obtain ⟨hb, hm⟩ := hline e (by simp)
    obtain ⟨hgo, hchars⟩ := turn_edits hb hm f
    have hrest : ∀ e ∈ line, isBreak e = false ∧ e.mem = true := fun e' he' => hline e' (by simp [he'])
    have hloop : loop f (e :: line ++ brk :: rest) = loop (turn f e).1 (line ++ brk :: rest) := by
      rw [List.cons_append, loop, if_neg (by simp [hgo])]
    rw [hloop, List.foldl_cons, Solid]
    by_cases he : e.val = bs → text ≠ []
    · have hnext : (turn f e).1.chars = old ++ editStep text e := by rw [hchars, hf, editStep_append he]
      rw [and_iff_right he]
      exact ih hrest hnext
    · obtain ⟨hbs, hnil⟩ : e.val = bs ∧ text = [] := by simpa using he
      -- the backspace goes past the beginning of the line
      have hnext : (turn f e).1.chars = old.dropLast ++ editStep text e := by
        rw [hchars, hf, hnil, List.append_nil, editStep_bs hbs, editStep_bs hbs, List.dropLast_nil, List.append_nil]
      obtain ⟨f', kept, hrun, hend, hpre, -⟩ := ih hrest hnext
      refine ⟨f', kept, hrun, hend, hpre.trans (List.dropLast_prefix old), ?_⟩
      simp only [he, false_and, or_false]
      constructor
      · intro hall
        have hlen := hpre.length_le
        rw [hall, List.length_dropLast] at hlen
        exact List.eq_nil_of_length_eq_zero (by omega)
      · intro hnone
        rw [hnone] at hpre ⊢
        exact List.prefix_nil.1 hpre

/-- there is no end of the loop without a carriage return -/
theorem loop_none (hline : ∀ e ∈ line, isBreak e = false ∧ e.mem = true) (f : File) : loop f line = none := by
  induction line generalizing f with
  | nil => rfl
  | cons e line ih =>
    obtain ⟨hb, hm⟩ := hline e (by simp)
    rw [loop, if_neg (by simp [(turn_edits hb hm f).1])]
    exact ih (fun e' he' => hline e' (by simp [he'])) _

/-! ## The buffer -/

theorem copy_count (room count : ℕ) (chars : List Byte) : (copy count chars room).count = count + min room chars.length := by
  induction room generalizing count chars with
  | zero => simp [copy]
  | succ room ih =>
    cases chars with
    | nil => simp [copy]
    | cons b chars =>
      simp only [copy, popChar_front_cons, ih, List.length_cons]
      omega

theorem copy_chars (room count : ℕ) (chars : List Byte) : (copy count chars room).chars = chars.drop room := by
  induction room generalizing count chars with
  | zero => rfl
  | succ room ih =>
    cases chars with
    | nil => rfl
    | cons b chars => simp [copy, ih]

theorem copy_bytes (room count : ℕ) (chars : List Byte) :
    ((copy count chars room).stores.take (min room chars.length)).map Prod.snd = chars.take room := by
  induction room generalizing count chars with
  | zero => simp
  | succ room ih =>
    cases chars with
    | nil => simp
    | cons b chars =>
      have hmin : min (room + 1) (chars.length + 1) = min room chars.length + 1 := by omega
      simp only [copy, popChar_front_cons, List.length_cons, hmin, List.take_succ_cons, List.map_cons, ih]

/-- the stores go up from `count`, and there are no more than there is room for -/
theorem copy_stores (room count : ℕ) (chars : List Byte) :
    (copy count chars room).stores.length ≤ room ∧
      ∀ store ∈ (copy count chars room).stores, store.1 < count + room := by
  induction room generalizing count chars with
  | zero => simp [copy]
  | succ room ih =>
    cases chars with
    | nil => simp [copy]
    | cons b chars =>
      obtain ⟨hlen, hlt⟩ := ih (count + 1) chars
      simp only [copy, popChar_front_cons, List.length_cons, List.mem_cons, forall_eq_or_imp]
      refine ⟨by omega, by omega, fun store hstore => ?_⟩
      have hroom := hlt store hstore
      omega

theorem copied_bytes (chars : List Byte) (size : ℕ) : (copy 0 chars size).bytes = chars.take size := by
  rw [Copied.bytes, copy_count, Nat.zero_add, copy_bytes]

theorem ttyRead_stores {c : Copied} {f' : File} {rest : List Event} (h : ttyRead f events size = some (c, f', rest)) :
    c.stores.length ≤ size ∧ ∀ store ∈ c.stores, store.1 < size := by
  obtain ⟨r, -, heq⟩ := Option.map_eq_some_iff.1 h
  have hc : copy 0 r.1.chars size = c := congrArg Prod.fst heq
  have hstores := copy_stores size 0 r.1.chars
  rwa [hc, Nat.zero_add] at hstores

/-! ## Sessions of reads -/

/-- the events before a carriage return, or no carriage return -/
theorem cut (events : List Event) : (∀ e ∈ events, isBreak e = false) ∨
    ∃ line brk rest, events = line ++ brk :: rest ∧ (∀ e ∈ line, isBreak e = false) ∧ isBreak brk = true := by
  induction events with
  | nil => exact .inl (by simp)
  | cons e events ih =>
    by_cases hb : isBreak e = true
    · exact .inr ⟨[], e, events, rfl, by simp, hb⟩
    rw [Bool.not_eq_true] at hb
    obtain hnone | ⟨line, brk, rest, heq, hline, hbrk⟩ := ih
    · exact .inl (by simpa [hb] using hnone)
    · exact .inr ⟨e :: line, brk, rest, by rw [heq, List.cons_append], by simpa [hb] using hline, hbrk⟩

theorem lines_none (h : ∀ e ∈ events, isBreak e = false) : lines events = [] := by
  rw [lines, List.splitOnP_eq_singleton h]
  rfl

theorem lines_cons (hline : ∀ e ∈ line, isBreak e = false) (hbrk : isBreak brk = true) (rest : List Event) :
    lines (line ++ brk :: rest) = line :: lines rest := by
  rw [lines, List.splitOnP_append_cons_of_forall_mem hline brk hbrk rest,
    List.dropLast_cons_of_ne_nil (List.splitOnP_ne_nil _ _), lines]

/-- a read of a line -/
theorem read_line (hline : ∀ e ∈ line, isBreak e = false ∧ e.mem = true) (hbrk : isBreak brk = true) (rest : List Event)
    (hs : s.events = line ++ brk :: rest) (size : ℕ) :
    ∃ kept, (s.read size).delivered ++ (s.read size).file.chars = s.delivered ++ (kept ++ edit line) ∧
      (s.read size).file.chars = (kept ++ edit line).drop size ∧ (s.read size).events = rest ∧ kept <+: s.file.chars ∧
      (kept = s.file.chars ↔ s.file.chars = [] ∨ Solid [] line) := by
  obtain ⟨f', kept, hloop, hchars, hpre, hall⟩ := loop_line hline hbrk rest (List.append_nil s.file.chars).symm
  have hread : s.read size = ⟨{ f' with chars := (copy 0 f'.chars size).chars }, rest,
      s.delivered ++ (copy 0 f'.chars size).bytes⟩ := by
    rw [Session.read, ttyRead, hs, hloop]
    rfl
  have hdrop : (copy 0 f'.chars size).chars = (kept ++ edit line).drop size := by rw [copy_chars, hchars, edit]
  have htake : (copy 0 f'.chars size).bytes = (kept ++ edit line).take size := by rw [copied_bytes, hchars, edit]
  refine ⟨kept, ?_, ?_, ?_, hpre, hall⟩
  · rw [hread]
    simp only [htake, hdrop, List.append_assoc, List.take_append_drop]
  · rw [hread]
    exact hdrop
  · rw [hread]

theorem read_none (hnone : ∀ e ∈ s.events, isBreak e = false ∧ e.mem = true) (size : ℕ) : s.read size = s := by
  rw [Session.read, ttyRead, loop_none hnone]
  rfl

theorem reads_none (hnone : ∀ e ∈ s.events, isBreak e = false ∧ e.mem = true) (sizes : List ℕ) : s.reads sizes = s := by
  induction sizes with
  | nil => rfl
  | cons size sizes ih => rw [Session.reads, List.foldl_cons, read_none hnone, ← Session.reads, ih]

/-- nothing that was there or was typed is missing after some reads -/
def Session.Whole (s : Session) (sizes : List ℕ) : Prop :=
  (s.reads sizes).delivered ++ (s.reads sizes).file.chars =
    s.delivered ++ s.file.chars ++ ((lines s.events).take sizes.length).flatMap edit

theorem whole_nil (s : Session) : s.Whole [] := by simp [Session.Whole, Session.reads]

/-- **A session of reads** misses nothing after any of its calls if and only if the lines are clean. -/
theorem whole_iff (hmem : ∀ e ∈ s.events, e.mem = true) (sizes : List ℕ) :
    (∀ calls, calls <+: sizes → s.Whole calls) ↔ Clean s.file.chars.length ((lines s.events).zip sizes) := by
  induction sizes generalizing s with
  | nil =>
    refine iff_of_true (fun calls hcalls => ?_) (by simp [Clean])
    rw [List.prefix_nil.1 hcalls]
    exact whole_nil s
  | cons size sizes ih =>
    obtain hnone | ⟨line, brk, rest, heq, hline, hbrk⟩ := cut s.events
    · have hquiet : ∀ e ∈ s.events, isBreak e = false ∧ e.mem = true := fun e he => ⟨hnone e he, hmem e he⟩
      rw [lines_none hnone]
      refine iff_of_true (fun calls _ => ?_) (by simp [Clean])
      rw [Session.Whole, reads_none hquiet, lines_none hnone]
      simp
    have hboth : ∀ e ∈ line, isBreak e = false ∧ e.mem = true := fun e he => ⟨hline e he, hmem e (by simp [heq, he])⟩
    obtain ⟨kept, hwhole, hdrop, hevents, hpre, hall⟩ := read_line hboth hbrk rest heq size
    have hlines : lines s.events = line :: lines rest := by rw [heq, lines_cons hline hbrk]
    have hmem' : ∀ e ∈ (s.read size).events, e.mem = true := fun e he => hmem e (by
      rw [hevents] at he
      simp [heq, he])
    have hreads : ∀ calls, s.reads (size :: calls) = (s.read size).reads calls := fun calls => rfl
    rw [hlines, List.zip_cons_cons, Clean]
    have hsolid : (0 < s.file.chars.length → Solid [] line) ↔ kept = s.file.chars := by
      rw [hall, List.length_pos_iff]
      tauto
    rw [hsolid]
    by_cases hkept : kept = s.file.chars
    · -- the same sessions, from the state after the first read
      have hstep : ∀ calls, s.Whole (size :: calls) ↔ (s.read size).Whole calls := by
        intro calls
        rw [Session.Whole, Session.Whole, hreads, hwhole, hlines, hevents, hkept]
        simp only [List.length_cons, List.take_succ_cons, List.flatMap_cons, List.append_assoc]
      have hleft : (s.read size).file.chars.length = s.file.chars.length + (edit line).length - size := by
        rw [hdrop, hkept, List.length_drop, List.length_append]
      rw [← hleft, ← hevents, ← ih hmem']
      refine ⟨fun h => ⟨hkept, fun calls hcalls => ?_⟩, fun h calls hcalls => ?_⟩
      · exact (hstep calls).1 (h _ (by simpa using hcalls))
      · cases calls with
        | nil => exact whole_nil s
        | cons first calls =>
          obtain ⟨rfl, hmore⟩ := List.cons_prefix_cons.1 hcalls
          exact (hstep calls).2 (h.2 calls hmore)
    · refine iff_of_false (fun h => hkept ?_) fun h => hkept h.1
      have hfirst := h [size] (by simp)
      rw [Session.Whole, hreads, hlines] at hfirst
      change (s.read size).delivered ++ (s.read size).file.chars = _ at hfirst
      rw [hwhole] at hfirst
      have hlen := congrArg List.length hfirst
      simp at hlen
      exact hpre.eq_of_length (by omega)

theorem kept_iff (events : List Event) (sizes : List ℕ) : Kept events sizes ↔ (opened events).Whole sizes := by
  have hw : (opened events).Whole sizes ↔ ((opened events).reads sizes).delivered ++
      ((opened events).reads sizes).file.chars = ((lines events).take sizes.length).flatMap edit := Iff.rfl
  rw [Kept, hw]
  refine and_iff_right_of_imp fun hall => ?_
  have hpre : ((opened events).reads sizes).delivered <+: ((lines events).take sizes.length).flatMap edit :=
    hall ▸ List.prefix_append _ _
  have hmore : ((lines events).take sizes.length).flatMap edit <+: (lines events).flatMap edit := by
    conv_rhs => rw [← List.take_append_drop sizes.length (lines events), List.flatMap_append]
    exact List.prefix_append _ _
  exact hpre.trans hmore

/-- **Reading lines.** For all events and sizes, when no allocation fails: after each read the bytes handed out, and the
characters left over, are the edited lines if and only if no backspace comes while its line is empty and characters of earlier
lines are left over. A read stores at most `size` bytes, all of them in the buffer. -/
theorem read_lines_iff (events : List Event) (hmem : ∀ e ∈ events, e.mem = true) (sizes : List ℕ) :
    ((∀ calls, calls <+: sizes → Kept events calls) ↔ Clean 0 ((lines events).zip sizes)) ∧
      ∀ f more size c f' rest, ttyRead f more size = some (c, f', rest) →
        c.stores.length ≤ size ∧ ∀ store ∈ c.stores, store.1 < size := by
  refine ⟨?_, fun f more size c f' rest h => ttyRead_stores h⟩
  simp only [kept_iff]
  exact whole_iff (s := opened events) hmem sizes

def typed (text : List ℕ) : List Event := text.map fun n => ⟨⟨BitVec.ofNat 8 n, 0⟩, true⟩

/-- "ab", a backspace and "c", read in two parts -/
theorem read_in_parts : Kept (typed [0x61, 0x62, 0x08, 0x63, 0x0D, 0x0D]) [1] ∧
    Kept (typed [0x61, 0x62, 0x08, 0x63, 0x0D, 0x0D]) [1, 1] := by
  have hkept := (read_lines_iff (typed [0x61, 0x62, 0x08, 0x63, 0x0D, 0x0D]) (by decide) [1, 1]).1.2 (by decide)
  exact ⟨hkept [1] (by decide), hkept [1, 1] (List.prefix_refl _)⟩

/-- "abc", a backspace and "x" -/
def abcThenX : List Event := typed [0x61, 0x62, 0x63, 0x0D, 0x08, 0x78, 0x0D]

/-- "abc" is read into two bytes; then the backspace and "x" are typed. -/
theorem lost_char : ((opened abcThenX).reads [2, 8]).delivered = [0x61, 0x62, 0x78] ∧
    (lines abcThenX).flatMap edit = [0x61, 0x62, 0x63, 0x78] ∧ ¬ Kept abcThenX [2, 8] := by
  have hread : ((opened abcThenX).reads [2, 8]).delivered = [0x61, 0x62, 0x78] := by decide
  have hedit : (lines abcThenX).flatMap edit = [0x61, 0x62, 0x63, 0x78] := by decide
  refine ⟨hread, hedit, fun h => ?_⟩
  have hpre := h.1
  rw [hread, hedit] at hpre
  exact absurd hpre (by decide)

end SinsOs.Tty
