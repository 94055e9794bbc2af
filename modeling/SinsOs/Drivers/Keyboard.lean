/-
The keyboard (drivers/keyboard.c): the scan codes, and what the press of a key queues.

The handler gets a byte at a time. It does nothing at a prefix, turns `shift` and `ctrl` over at every code of a shift or a
control key, and queues one of the two characters of a key that is pressed. The third column of the key map is never read, and
it is left out.

A keyboard sends a code for a press, again and again while the key is down, and another one for a release, with a prefix for the
keys that the first keyboards did not have.

- `feed_shift`: `shift` is the parity of the codes of shift keys so far.
- `shifted_iff`: so a press queues the character that belongs to the shift keys held down exactly when their state has this
  parity.
-/
import Mathlib.Tactic

namespace SinsOs.Keyboard

/-! ## Model -/

abbrev Byte := BitVec 8

/-- val[0] and val[1] of struct keyval; the other two are 0 -/
structure Keyval where
  val : Byte
  sub : Byte
deriving DecidableEq, Repr

def ktEsc : ℕ := 0
def ktShift : ℕ := 1
def ktAlt : ℕ := 2
def ktCtrl : ℕ := 3

def key (n : ℕ) : Keyval := ⟨BitVec.ofNat 8 n, 0⟩
def chr (c : Char) : Keyval := key c.toNat
def noKey : Keyval := key 0

def special (type sub : ℕ) : Keyval := ⟨BitVec.ofNat 8 (0x80 + type), BitVec.ofNat 8 sub⟩

def esc : Keyval := special ktEsc 0
def shiftL : Keyval := special ktShift 0
def shiftR : Keyval := special ktShift 1
def altL : Keyval := special ktAlt 0
def ctrlL : Keyval := special ktCtrl 0

/-- F1 to F12 -/
def fKey (n : ℕ) : Keyval := special 4 (n - 1)

/-- CAPS_LOCK, NUM_LOCK and SCROLL_LOCK -/
def lock (n : ℕ) : Keyval := special 5 n

/-- PAD_ENTER, PAD_HOME and so on -/
def pad (n : ℕ) : Keyval := special 6 n

/-- the columns for no shift and for shift; the rest of the 0x80 rows is 0 -/
def keymap : List (Keyval × Keyval) :=
  [ -- 0x00
    (noKey, noKey), (esc, esc), (chr '1', chr '!'), (chr '2', chr '@'),
    (chr '3', chr '#'), (chr '4', chr '$'), (chr '5', chr '%'), (chr '6', chr '^'),
    (chr '7', chr '&'), (chr '8', chr '*'), (chr '9', chr '('), (chr '0', chr ')'),
    (chr '-', chr '_'), (chr '=', chr '+'), (key 0x08, key 0x08), (key 0x09, key 0x09),
    -- 0x10
    (chr 'q', chr 'Q'), (chr 'w', chr 'W'), (chr 'e', chr 'E'), (chr 'r', chr 'R'),
    (chr 't', chr 'T'), (chr 'y', chr 'Y'), (chr 'u', chr 'U'), (chr 'i', chr 'I'),
    (chr 'o', chr 'O'), (chr 'p', chr 'P'), (chr '[', key 0x7B), (chr ']', key 0x7D),
    (key 0x0D, key 0x0D), (ctrlL, ctrlL), (chr 'a', chr 'A'), (chr 's', chr 'S'),
    -- 0x20
    (chr 'd', chr 'D'), (chr 'f', chr 'F'), (chr 'g', chr 'G'), (chr 'h', chr 'H'),
    (chr 'j', chr 'J'), (chr 'k', chr 'K'), (chr 'l', chr 'L'), (chr ';', chr ':'),
    (key 0x27, key 0x22), (key 0x60, chr '~'), (shiftL, shiftL), (key 0x5C, chr '|'),
    (chr 'z', chr 'Z'), (chr 'x', chr 'X'), (chr 'c', chr 'C'), (chr 'v', chr 'V'),
    -- 0x30
    (chr 'b', chr 'B'), (chr 'n', chr 'N'), (chr 'm', chr 'M'), (chr ',', chr '<'),
    (chr '.', chr '>'), (chr '/', chr '?'), (shiftR, shiftR), (chr '*', chr '*'),
    (altL, altL), (chr ' ', chr ' '), (lock 0, lock 0), (fKey 1, fKey 1),
    (fKey 2, fKey 2), (fKey 3, fKey 3), (fKey 4, fKey 4), (fKey 5, fKey 5),
    -- 0x40
    (fKey 6, fKey 6), (fKey 7, fKey 7), (fKey 8, fKey 8), (fKey 9, fKey 9),
    (fKey 10, fKey 10), (lock 1, lock 1), (lock 2, lock 2), (pad 1, chr '7'),
    (pad 2, chr '8'), (pad 3, chr '9'), (pad 4, chr '-'), (pad 5, chr '4'),
    (pad 6, chr '5'), (pad 7, chr '6'), (pad 8, chr '+'), (pad 9, chr '1'),
    -- 0x50
    (pad 10, chr '2'), (pad 11, chr '3'), (pad 12, chr '0'), (pad 13, chr '.'),
    (noKey, noKey), (noKey, noKey), (noKey, noKey), (fKey 11, fKey 11),
    (fKey 12, fKey 12), (noKey, noKey), (noKey, noKey), (noKey, noKey),
    (noKey, noKey), (noKey, noKey), (noKey, noKey), (noKey, noKey) ]

def keymapRow (code : Byte) : Keyval × Keyval := keymap.getD (code &&& 0x7F).toNat (noKey, noKey)

/-- the static variables of the handler -/
structure Modifiers where
  shift : Bool
  ctrl : Bool
deriving DecidableEq, Repr

/-- a key with a character, by its plain column -/
def Normal (code : Byte) : Prop := (keymapRow code).1.val &&& 0x80 = 0

instance (code : Byte) : Decidable (Normal code) := inferInstanceAs (Decidable (_ = _))

/-- a special key -/
def modify (m : Modifiers) (code : Byte) : Modifiers :=
  let type := ((keymapRow code).1.val &&& 0x7F).toNat
  if type = ktShift then { m with shift := !m.shift }
  else if type = ktCtrl then { m with ctrl := !m.ctrl }
  else m

/-- keyboard_handler up to the queue, and what it is about to queue -/
def translate (m : Modifiers) (code : Byte) : Modifiers × Option Keyval :=
  if code = 0xE1 ∨ code = 0xE0 then (m, none)
  else if ¬ Normal code then (modify m code, none)
  else if code &&& 0x80 = 0 then (m, some (if m.shift then (keymapRow code).2 else (keymapRow code).1))
  else (m, none)

def start : Modifiers := ⟨false, false⟩

/-! ## A keyboard -/

/-- what comes before a code: the prefix 0xE0, or 0xE1 as for the pause key -/
inductive Lead
  | plain
  | ext
  | ext1
deriving DecidableEq

/-- a key by its code, which is not that of a prefix when the key is released -/
structure Key where
  ahead : Lead
  code : ℕ
  lt : code < 0x80
  ne : code ≠ 0x60 ∧ code ≠ 0x61
deriving DecidableEq

/-- one of the two shift keys -/
def Key.IsShift (k : Key) : Prop := k.ahead = .plain ∧ (k.code = 0x2A ∨ k.code = 0x36)

instance (k : Key) : Decidable k.IsShift := inferInstanceAs (Decidable (_ ∧ _))

/-- a press, or another make code of a key that is held, and a release -/
inductive Event
  | make (k : Key)
  | brk (k : Key)
deriving DecidableEq

def Event.key : Event → Key
  | .make k => k
  | .brk k => k

def Key.lead (k : Key) : List Byte :=
  match k.ahead with
  | .plain => []
  | .ext => [0xE0]
  | .ext1 => [0xE1]

def Key.byte (k : Key) : Byte := BitVec.ofNat 8 k.code

def Event.code : Event → Byte
  | .make k => k.byte
  | .brk k => k.byte ||| 0x80

def Event.bytes (e : Event) : List Byte := e.key.lead ++ [e.code]

/-- the keys that are held down -/
def held (events : List Event) : Finset Key :=
  events.foldl (fun down e => match e with
    | .make k => insert k down
    | .brk k => down.erase k) ∅

def ShiftHeld (events : List Event) : Prop := ∃ k ∈ held events, k.IsShift

instance (events : List Event) : Decidable (ShiftHeld events) := inferInstanceAs (Decidable (∃ k ∈ held events, k.IsShift))

/-- the code of a shift key, or that code behind a prefix -/
def Event.ShiftCode (e : Event) : Prop := e.key.code = 0x2A ∨ e.key.code = 0x36

instance (e : Event) : Decidable e.ShiftCode := inferInstanceAs (Decidable (_ ∨ _))

def shiftCodes (events : List Event) : ℕ := events.countP fun e => e.ShiftCode

/-- the handler at a sequence of bytes -/
def feed (m : Modifiers) (bytes : List Byte) : Modifiers := bytes.foldl (fun m b => (translate m b).1) m

def after (events : List Event) : Modifiers := feed start (events.flatMap Event.bytes)

/-- what the make code of a key queues -/
def queued (events : List Event) (k : Key) : Option Keyval := (translate (feed (after events) k.lead) k.byte).2

/-- every make code of a normal key queues what belongs to the shift keys that are held down -/
def Lawful (events : List Event) : Prop :=
  ∀ pre k, pre ++ [.make k] <+: events → Normal k.byte →
    queued pre k = some (if ShiftHeld pre then (keymapRow k.byte).2 else (keymapRow k.byte).1)

variable {m : Modifiers} {events : List Event} {e : Event} {k : Key} {code : Byte}

/-! ## The shift bit -/

theorem feed_append (m : Modifiers) (a b : List Byte) : feed m (a ++ b) = feed (feed m a) b := List.foldl_append

theorem feed_lead (m : Modifiers) (k : Key) : feed m k.lead = m := by
  unfold Key.lead
  split <;> rfl

/-- the shift keys are the ones of the map with the type -/
theorem shift_rows : ∀ n < 0x80, (¬ Normal (BitVec.ofNat 8 n) ∧
    ((keymapRow (BitVec.ofNat 8 n)).1.val &&& 0x7F).toNat = ktShift) ↔ n = 0x2A ∨ n = 0x36 := by
  decide +kernel

theorem code_row (e : Event) : keymapRow e.code = keymapRow e.key.byte := by
  cases e with
  | make k => rfl
  | brk k =>
    have hmask : ∀ b : Byte, (b ||| 0x80) &&& 0x7F = b &&& 0x7F := by decide
    rw [Event.code, keymapRow, hmask]
    rfl

/-- a code is no prefix -/
theorem code_ne (e : Event) : ¬ (e.code = 0xE1 ∨ e.code = 0xE0) := by
  have hmake : ∀ n < 0x80, ¬ (BitVec.ofNat 8 n = 0xE1 ∨ BitVec.ofNat 8 n = 0xE0) := by decide
  have hbrk : ∀ n < 0x80, n ≠ 0x60 ∧ n ≠ 0x61 →
      ¬ (BitVec.ofNat 8 n ||| 0x80 = 0xE1 ∨ BitVec.ofNat 8 n ||| 0x80 = 0xE0) := by
    decide
  cases e with
  | make k => exact hmake k.code k.lt
  | brk k => exact hbrk k.code k.lt k.ne

theorem normal_code (e : Event) : Normal e.code ↔ Normal e.key.byte := by
  rw [Normal, Normal, code_row]

theorem translate_shift (m : Modifiers) (e : Event) : (translate m e.code).1.shift = (m.shift ^^ decide e.ShiftCode) := by
  have hrows : (¬ Normal e.key.byte ∧ ((keymapRow e.key.byte).1.val &&& 0x7F).toNat = ktShift) ↔ e.ShiftCode :=
    shift_rows e.key.code e.key.lt
  rw [translate, if_neg (code_ne e)]
  by_cases hn : Normal e.code
  · have hkey : ¬ e.ShiftCode := fun hs => (hrows.2 hs).1 ((normal_code e).1 hn)
    rw [if_neg (not_not.2 hn), decide_eq_false hkey, Bool.xor_false]
    split_ifs <;> rfl
  · rw [if_pos hn, modify, code_row]
    dsimp only
    by_cases hs : e.ShiftCode
    · rw [if_pos (hrows.2 hs).2, decide_eq_true hs, Bool.xor_true]
    · have htype : ¬ ((keymapRow e.key.byte).1.val &&& 0x7F).toNat = ktShift := fun ht =>
        hs (hrows.1 ⟨fun hk => hn ((normal_code e).2 hk), ht⟩)
      rw [if_neg htype, decide_eq_false hs, Bool.xor_false]
      split_ifs <;> rfl

/-- **A code of a shift key turns `shift` over**, and no other code changes it. -/
theorem feed_event (m : Modifiers) (e : Event) : (feed m e.bytes).shift = (m.shift ^^ decide e.ShiftCode) := by
  rw [Event.bytes, feed_append, feed_lead]
  exact translate_shift m e

/-- `shift` is the parity of the codes so far. -/
theorem feed_shift (events : List Event) : (after events).shift = decide (Odd (shiftCodes events)) := by
  induction events using List.reverseRecOn with
  | nil => rfl
  | append_singleton events e ih =>
    have hafter : after (events ++ [e]) = feed (after events) e.bytes := by
      rw [after, List.flatMap_append, feed_append]
      simp [after]
    have hcount : shiftCodes (events ++ [e]) = shiftCodes events + if e.ShiftCode then 1 else 0 := by
      simp only [shiftCodes, List.countP_append, List.countP_singleton, decide_eq_true_eq]
    rw [hafter, feed_event, ih, hcount]
    by_cases hs : e.ShiftCode
    · simp only [hs, if_true, decide_true, Bool.xor_true, Nat.odd_add_one, decide_not]
    · simp [hs]

/-! ## The character of a press -/

theorem queued_eq (hn : Normal k.byte) (events : List Event) : queued events k =
    some (if Odd (shiftCodes events) then (keymapRow k.byte).2 else (keymapRow k.byte).1) := by
  have hmake : ∀ n < 0x80, BitVec.ofNat 8 n &&& (0x80 : Byte) = 0 := by decide
  have hcode : ¬ (k.byte = 0xE1 ∨ k.byte = 0xE0) := code_ne (.make k)
  have hpress : k.byte &&& 0x80 = 0 := hmake k.code k.lt
  rw [queued, feed_lead, translate, if_neg hcode, if_neg (not_not.2 hn), if_pos hpress, feed_shift]
  simp only [decide_eq_true_eq]

/-- **Shifted characters.** In every sequence of make and break codes, every make code of a normal key queues the character that
belongs to the shift keys held down if and only if, at every make code of a key with two characters, the codes of shift keys so
far are odd in number exactly when a shift key is held down. -/
theorem shifted_iff (events : List Event) : Lawful events ↔
    ∀ pre k, pre ++ [.make k] <+: events → Normal k.byte → (keymapRow k.byte).1 ≠ (keymapRow k.byte).2 →
      (Odd (shiftCodes pre) ↔ ShiftHeld pre) := by
  constructor
  · intro h pre k hpre hn hne
    have hq := h pre k hpre hn
    rw [queued_eq hn] at hq
    have hcol := Option.some.inj hq
    by_cases hodd : Odd (shiftCodes pre) <;> by_cases hheld : ShiftHeld pre
    · exact iff_of_true hodd hheld
    · rw [if_pos hodd, if_neg hheld] at hcol
      exact absurd hcol.symm hne
    · rw [if_neg hodd, if_pos hheld] at hcol
      exact absurd hcol hne
    · exact iff_of_false hodd hheld
  · intro h pre k hpre hn
    rw [queued_eq hn]
    by_cases hne : (keymapRow k.byte).1 = (keymapRow k.byte).2
    · rw [hne, ite_self, ite_self]
    · simp only [h pre k hpre hn hne]

def keyA : Key := ⟨.plain, 0x1E, by decide, by decide⟩
def keyShiftL : Key := ⟨.plain, 0x2A, by decide, by decide⟩

/-- The left shift key is held down long enough to repeat, and then A is pressed. -/
theorem shift_repeated : Normal keyA.byte ∧ ShiftHeld [.make keyShiftL, .make keyShiftL] ∧
    queued [.make keyShiftL, .make keyShiftL] keyA = some (chr 'a') ∧
    ¬ Lawful [.make keyShiftL, .make keyShiftL, .make keyA] := by
  have hn : Normal keyA.byte := by decide
  have hheld : ShiftHeld [.make keyShiftL, .make keyShiftL] := by decide
  have hq : queued [.make keyShiftL, .make keyShiftL] keyA = some (chr 'a') := by decide
  refine ⟨hn, hheld, hq, fun hlaw => ?_⟩
  have hwant := hlaw [.make keyShiftL, .make keyShiftL] keyA (List.prefix_refl _) hn
  rw [hq, if_pos hheld] at hwant
  exact absurd hwant (by decide)

end SinsOs.Keyboard
