/-
The console of the kernel (drivers/console.c) and a terminal of 25 rows and 80 columns.

Addresses count the cells of the video memory from SCREEN_START on: every address that the driver makes is even there. The
visible window is the cells from `origin` on. scroll_up moves the window on by a row while there is memory behind it; then it
copies rows back to the start, and it copies from the first row of the window and not from the second.

- `scrollUp_eq`: what a scroll shows, in both branches.
- `putByte_follows`: a byte keeps the cursor of the terminal, and its window exactly when it is not a scroll for the 180th time,
  or the 360th and so on, or all rows are equal then.
- `matches_iff`: so for every cut of a text into calls of con_write.
-/
import SinsOs.Lib.Str

namespace SinsOs.Console

open SinsOs.Lib

abbrev Cell := BitVec 16
abbrev Mem := ℕ → Cell

/-! ## Model -/

def lines : ℕ := 25
def columns : ℕ := 80

/-- SCREEN_END, in cells -/
def screenEnd : ℕ := 0x4000

/-- light grey on black -/
def blank : Cell := 0x0720

/-- the variables of the driver, and the video memory -/
structure State where
  mem : Mem
  origin : ℕ
  scrEnd : ℕ
  pos : ℕ
  x : ℕ
  y : ℕ

/-- n cells from i on -/
def fill (mem : Mem) (i : ℕ) (v : Cell) : ℕ → Mem
  | 0 => mem
  | n + 1 => fill (Function.update mem i v) (i + 1) v n

/-- the copy from the first cell on -/
def copyUp (mem : Mem) (dest src : ℕ) : ℕ → Mem
  | 0 => mem
  | n + 1 => copyUp (Function.update mem dest (mem src)) (dest + 1) (src + 1) n

/-- the copy from the last cell on -/
def copyDown (mem : Mem) (dest src : ℕ) : ℕ → Mem
  | 0 => mem
  | n + 1 => copyDown (Function.update mem (dest + n) (mem (src + n))) dest src n

def memmove (mem : Mem) (dest src count : ℕ) : Mem :=
  if dest ≤ src then copyUp mem dest src count else copyDown mem dest src count

def gotoxy (s : State) (newX newY : ℕ) : State :=
  if newX ≥ columns ∨ newY ≥ lines then s
  else { s with x := newX, y := newY, pos := s.origin + (newY * columns + newX) }

def clear (s : State) : State := { s with mem := fill s.mem 0 blank screenEnd }

def scrollUp (s : State) : State :=
  let s :=
    if s.scrEnd + columns < screenEnd then { s with origin := s.origin + columns, scrEnd := s.scrEnd + columns }
    else { s with mem := memmove s.mem 0 s.origin (columns * (lines - 1)), origin := 0, scrEnd := columns * lines }
  { s with mem := fill s.mem (s.scrEnd - columns) blank columns }

def putchar (s : State) (ch : Cell) : State :=
  let s := { s with mem := Function.update s.mem s.pos (0x0700 + ch), x := s.x + 1 }
  let s := if s.x ≥ columns then { s with y := s.y + 1, x := 0 } else s
  let s := if s.y ≥ lines then { scrollUp s with y := s.y - 1 } else s
  gotoxy s s.x s.y

def insertLine (s : State) : State :=
  let s := { s with y := s.y + 1 }
  let s := if s.y ≥ lines then { scrollUp s with y := s.y - 1 } else s
  gotoxy s s.x s.y

def cntrlLeft (s : State) : State := gotoxy { s with x := 0 } 0 s.y

def cntrlVtable (s : State) : State :=
  let oldX := s.x
  let s := { s with x := (s.x + 7) / 8 * 8 }
  let s := if s.x = oldX then { s with x := s.x + 8 } else s
  let s := if s.x ≥ columns then { s with y := s.y + 1, x := 0 } else s
  let s := if s.y ≥ lines then { scrollUp s with y := s.y - 1 } else s
  gotoxy s s.x s.y

def cntrlBack (s : State) : State :=
  let s := if s.x ≠ 0 then { s with x := s.x - 1 } else if s.y ≠ 0 then { s with y := s.y - 1, x := columns - 1 } else s
  gotoxy s s.x s.y

def cntrlBeep (s : State) : State := { s with mem := Function.update s.mem (s.scrEnd - 1) 0x0201 }

/-- the bytes of _ctype that are letters, digits, punctuation or a space -/
def isprint (ch : Byte) : Prop := (0x20 ≤ ch ∧ ch ≤ 0x7e) ∨ 0xa0 ≤ ch

def iscntrl (ch : Byte) : Prop := ch ≤ 0x1f ∨ ch = 0x7f

instance (ch : Byte) : Decidable (isprint ch) := inferInstanceAs (Decidable (_ ∨ _))
instance (ch : Byte) : Decidable (iscntrl ch) := inferInstanceAs (Decidable (_ ∨ _))

/-- a turn of the loop of con_write -/
def putByte (s : State) (ch : Byte) : State :=
  if isprint ch then putchar s (ch.setWidth 16)
  else if iscntrl ch then
    if ch = 0x0a then cntrlLeft (insertLine s)
    else if ch = 0x09 then cntrlVtable s
    else if ch = 0x0d then cntrlLeft s
    else if ch = 0x08 then cntrlBack s
    else if ch = 0x07 then cntrlBeep s
    else s
  else s

def conWrite (s : State) (buf : List Byte) : State := buf.foldl putByte s

/-- con_init, on whatever the memory holds -/
def conInit (mem : Mem) : State := gotoxy (clear ⟨mem, 0, lines * columns, 0, 0, 0⟩) 0 0

/-! ## A terminal -/

/-- the cells of 25 rows, the cursor, and how often a row came in -/
structure Terminal where
  cell : ℕ → ℕ → Cell
  x : ℕ
  y : ℕ
  scrolls : ℕ

namespace Terminal

/-- row k + 1 goes to row k, and the last row is blank -/
def scroll (t : Terminal) : Terminal :=
  { t with cell := fun row col => if row + 1 < lines then t.cell (row + 1) col else blank, scrolls := t.scrolls + 1 }

def nextRow (t : Terminal) : Terminal := if t.y + 1 < lines then { t with y := t.y + 1 } else t.scroll

/-- what a byte writes, where it puts the cursor in the row, and whether the next row comes then -/
def edit (t : Terminal) (ch : Byte) : Terminal × Bool :=
  if isprint ch then
    let t := { t with cell := fun row col => if row = t.y ∧ col = t.x then 0x0700 + ch.setWidth 16 else t.cell row col }
    if t.x + 1 < columns then ({ t with x := t.x + 1 }, false) else ({ t with x := 0 }, true)
  else if ch = 0x0a then ({ t with x := 0 }, true)
  else if ch = 0x09 then
    if (t.x / 8 + 1) * 8 < columns then ({ t with x := (t.x / 8 + 1) * 8 }, false) else ({ t with x := 0 }, true)
  else if ch = 0x0d then ({ t with x := 0 }, false)
  else if ch = 0x08 then
    if t.x ≠ 0 then ({ t with x := t.x - 1 }, false)
    else if t.y ≠ 0 then ({ t with x := columns - 1, y := t.y - 1 }, false)
    else (t, false)
  else (t, false)

def put (t : Terminal) (ch : Byte) : Terminal :=
  match t.edit ch with
  | (t, true) => t.nextRow
  | (t, false) => t

def write (t : Terminal) (text : List Byte) : Terminal := text.foldl put t

def start : Terminal := ⟨fun _ _ => blank, 0, 0, 0⟩

/-- the scrolls that the video memory has room for, and the one that copies -/
def room : ℕ := 180

/-- the rows are equal when the next one comes in and the memory is full -/
def Still (t : Terminal) : Prop :=
  t.y + 1 = lines → (t.scrolls + 1) % room = 0 →
    ∀ row col, row + 1 < lines → col < columns → t.cell row col = t.cell (row + 1) col

/-- a byte that does not scroll a full memory, or scrolls equal rows -/
def Quiet (t : Terminal) (ch : Byte) : Prop := (t.edit ch).2 = true → (t.edit ch).1.Still

end Terminal

/-- the bytes that the terminal knows -/
def Plain (ch : Byte) : Prop := isprint ch ∨ ch = 0x0a ∨ ch = 0x0d ∨ ch = 0x09 ∨ ch = 0x08

instance (ch : Byte) : Decidable (Plain ch) := inferInstanceAs (Decidable (_ ∨ _))

/-- the cells of the window -/
def Window (s : State) (cell : ℕ → ℕ → Cell) : Prop :=
  ∀ row col, row < lines → col < columns → s.mem (s.origin + (row * columns + col)) = cell row col

/-- the window and the cursor are the terminal's -/
def Matches (s : State) (t : Terminal) : Prop := Window s t.cell ∧ s.x = t.x ∧ s.y = t.y

/-- what the variables of the driver are for the terminal -/
structure Base (s : State) (t : Terminal) : Prop where
  origin : s.origin = columns * (t.scrolls % Terminal.room)
  scrEnd : s.scrEnd = s.origin + columns * lines
  x : s.x = t.x
  y : s.y = t.y
  pos : s.pos = s.origin + (s.y * columns + s.x)
  col : s.x < columns
  row : s.y < lines

variable {s : State} {t : Terminal} {mem : Mem} {cell : ℕ → ℕ → Cell}

/-! ## Memory -/

theorem fill_eq (mem : Mem) (i : ℕ) (v : Cell) (n a : ℕ) : fill mem i v n a = if i ≤ a ∧ a < i + n then v else mem a := by
  induction n generalizing mem i with
  | zero => simp [fill]
  | succ n ih =>
    rw [fill, ih, Function.update_apply]
    split_ifs <;> first | rfl | omega

/-- a copy to the left reads no cell that it wrote before -/
theorem copyUp_eq (mem : Mem) {dest src : ℕ} (h : dest ≤ src) (n a : ℕ) :
    copyUp mem dest src n a = if dest ≤ a ∧ a < dest + n then mem (src + (a - dest)) else mem a := by
  induction n generalizing mem dest src with
  | zero => simp [copyUp]
  | succ n ih =>
    rw [copyUp, ih _ (Nat.succ_le_succ h)]
    by_cases hin : dest + 1 ≤ a ∧ a < dest + 1 + n
    · have hne : src + 1 + (a - (dest + 1)) ≠ dest := by omega
      have hsrc : src + 1 + (a - (dest + 1)) = src + (a - dest) := by omega
      rw [if_pos hin, if_pos (by omega), Function.update_of_ne hne, hsrc]
    · rw [if_neg hin]
      by_cases ha : a = dest
      · subst ha
        rw [Function.update_self, if_pos (by omega), Nat.sub_self, Nat.add_zero]
      · rw [Function.update_of_ne ha, if_neg (by omega)]

theorem memmove_eq (mem : Mem) {dest src : ℕ} (h : dest ≤ src) (n a : ℕ) :
    memmove mem dest src n a = if dest ≤ a ∧ a < dest + n then mem (src + (a - dest)) else mem a := by
  rw [memmove, if_pos h, copyUp_eq mem h]

/-! ## Scrolling -/

theorem cell_index {row col : ℕ} (hrow : row < lines) (hcol : col < columns) : row * columns + col < columns * lines := by
  unfold lines columns at *
  omega

theorem scrollUp_move (h : s.scrEnd + columns < screenEnd) : scrollUp s =
    { s with mem := fill s.mem s.scrEnd blank columns, origin := s.origin + columns, scrEnd := s.scrEnd + columns } := by
  rw [scrollUp, if_pos h, Nat.add_sub_cancel]

theorem scrollUp_copy (h : ¬ s.scrEnd + columns < screenEnd) : scrollUp s =
    { s with
      mem := fill (memmove s.mem 0 s.origin (columns * (lines - 1))) (columns * lines - columns) blank columns
      origin := 0
      scrEnd := columns * lines } := by
  rw [scrollUp, if_neg h]

/-- **What a scroll shows.** The rows move up by one while the memory lasts, and stay where they are when it is full. -/
theorem scrollUp_eq {n : ℕ} (horigin : s.origin = columns * (n % Terminal.room)) (hend : s.scrEnd = s.origin + columns * lines)
    (hwin : Window s cell) :
    (scrollUp s).origin = columns * ((n + 1) % Terminal.room) ∧ (scrollUp s).scrEnd = (scrollUp s).origin + columns * lines ∧
      Window (scrollUp s) fun row col =>
        if row + 1 < lines then if (n + 1) % Terminal.room = 0 then cell row col else cell (row + 1) col else blank := by
  have hlt : n % Terminal.room < Terminal.room := Nat.mod_lt _ (by decide)
  by_cases hroom : s.scrEnd + columns < screenEnd
  · have hne : (n + 1) % Terminal.room = n % Terminal.room + 1 := by
      unfold Terminal.room columns lines screenEnd at *
      omega
    have hnz : (n + 1) % Terminal.room ≠ 0 := by
      rw [hne]
      exact Nat.succ_ne_zero _
    rw [scrollUp_move hroom]
    refine ⟨by rw [hne, horigin, Nat.mul_succ], by rw [hend, Nat.add_right_comm], fun row col hrow hcol => ?_⟩
    simp only [fill_eq, if_neg hnz]
    by_cases hlast : row + 1 < lines
    · have hidx : s.origin + columns + (row * columns + col) = s.origin + ((row + 1) * columns + col) := by ring
      have hbefore : s.origin + ((row + 1) * columns + col) < s.scrEnd := by
        rw [hend]
        exact Nat.add_lt_add_left (cell_index hlast hcol) _
      rw [hidx, if_neg fun h => absurd h.1 (Nat.not_le.2 hbefore), if_pos hlast]
      exact hwin (row + 1) col hlast hcol
    · have hin : s.scrEnd ≤ s.origin + columns + (row * columns + col) ∧
          s.origin + columns + (row * columns + col) < s.scrEnd + columns := by
        unfold lines columns at *
        omega
      rw [if_pos hin, if_neg hlast]
  · have hz : (n + 1) % Terminal.room = 0 := by
      unfold Terminal.room columns lines screenEnd at *
      omega
    rw [scrollUp_copy hroom]
    refine ⟨by rw [hz, Nat.mul_zero], by rw [Nat.zero_add], fun row col hrow hcol => ?_⟩
    simp only [fill_eq, memmove_eq _ (Nat.zero_le _), if_pos hz, Nat.zero_le, true_and, Nat.zero_add, Nat.sub_zero]
    by_cases hlast : row + 1 < lines
    · have hin : row * columns + col < columns * (lines - 1) := by
        unfold lines columns at *
        omega
      have hbefore : ¬ (columns * lines - columns ≤ row * columns + col) := Nat.not_le.2 hin
      rw [if_neg fun h => hbefore h.1, if_pos hin, if_pos hlast]
      exact hwin row col hrow hcol
    · have hin : columns * lines - columns ≤ row * columns + col ∧
          row * columns + col < columns * lines - columns + columns := by
        unfold lines columns at *
        omega
      rw [if_pos hin, if_neg hlast]

theorem scrollUp_cursor (s : State) : (scrollUp s).x = s.x ∧ (scrollUp s).y = s.y := by
  unfold scrollUp
  split_ifs <;> exact ⟨rfl, rfl⟩

theorem gotoxy_in {newX newY : ℕ} (hx : newX < columns) (hy : newY < lines) :
    gotoxy s newX newY = { s with x := newX, y := newY, pos := s.origin + (newY * columns + newX) } :=
  if_neg (not_or.2 ⟨Nat.not_le.2 hx, Nat.not_le.2 hy⟩)

/-! ## One byte -/

/-- the end of the functions that can pass the last row -/
def settle (s : State) : State :=
  let s := if s.y ≥ lines then { scrollUp s with y := s.y - 1 } else s
  gotoxy s s.x s.y

/-- what a function has set before its end -/
structure Half (s : State) (t : Terminal) : Prop where
  origin : s.origin = columns * (t.scrolls % Terminal.room)
  scrEnd : s.scrEnd = s.origin + columns * lines
  cell : Window s t.cell
  x : s.x = t.x
  col : t.x < columns
  row : t.y < lines

theorem settle_stay (h : Half s t) (hy : s.y = t.y) : Base (settle s) t ∧ Window (settle s) t.cell := by
  have hcol : s.x < columns := h.x ▸ h.col
  have hrow : s.y < lines := hy ▸ h.row
  rw [settle, if_neg (Nat.not_le.2 hrow)]
  rw [gotoxy_in hcol hrow]
  exact ⟨⟨h.origin, h.scrEnd, h.x, hy, rfl, hcol, hrow⟩, h.cell⟩

theorem settle_next (h : Half s t) (hy : s.y = t.y + 1) :
    Base (settle s) t.nextRow ∧ (Window (settle s) t.nextRow.cell ↔ t.Still) := by
  have hcol : s.x < columns := h.x ▸ h.col
  by_cases hlast : t.y + 1 < lines
  · have hrow : s.y < lines := hy ▸ hlast
    rw [settle, if_neg (Nat.not_le.2 hrow), gotoxy_in hcol hrow, Terminal.nextRow, if_pos hlast]
    refine ⟨⟨h.origin, h.scrEnd, h.x, hy, rfl, hcol, hrow⟩, iff_of_true h.cell fun heq => ?_⟩
    exact absurd heq (Nat.ne_of_lt hlast)
  · have hrow : s.y ≥ lines := hy ▸ Nat.not_lt.1 hlast
    have heq : t.y + 1 = lines := le_antisymm h.row (Nat.not_lt.1 hlast)
    obtain ⟨horigin, hend, hwin⟩ := scrollUp_eq h.origin h.scrEnd h.cell
    have hx : (scrollUp s).x = t.x := (scrollUp_cursor s).1.trans h.x
    have hy' : s.y - 1 = t.y := by rw [hy, Nat.add_sub_cancel]
    have hgoto : settle s = { scrollUp s with x := t.x, y := t.y, pos := (scrollUp s).origin + (t.y * columns + t.x) } := by
      rw [settle, if_pos hrow]
      change gotoxy { scrollUp s with y := s.y - 1 } (scrollUp s).x (s.y - 1) = _
      rw [hx, hy', gotoxy_in h.col h.row]
    rw [hgoto, Terminal.nextRow, if_neg hlast]
    refine ⟨⟨horigin, hend, rfl, rfl, rfl, h.col, h.row⟩, fun hw _ hz row col hrow hcol => ?_,
      fun hstill row col hrow hcol => ?_⟩
    · have hshown := hwin row col (Nat.lt_of_succ_lt hrow) hcol
      have hwanted := hw row col (Nat.lt_of_succ_lt hrow) hcol
      simp only [if_pos hrow, if_pos hz] at hshown
      simp only [Terminal.scroll, if_pos hrow] at hwanted
      exact hshown.symm.trans hwanted
    · refine (hwin row col hrow hcol).trans ?_
      simp only [Terminal.scroll]
      by_cases hnext : row + 1 < lines
      · rw [if_pos hnext, if_pos hnext]
        split_ifs with hz
        · exact hstill heq hz row col hnext hcol
        · rfl
      · rw [if_neg hnext, if_neg hnext]

theorem cntrlLeft_base (h : Base s t) : Base (cntrlLeft s) { t with x := 0 } ∧ (cntrlLeft s).mem = s.mem ∧
    (cntrlLeft s).origin = s.origin := by
  have hzero : 0 < columns := by decide
  rw [cntrlLeft, gotoxy_in hzero h.row]
  exact ⟨⟨h.origin, h.scrEnd, rfl, h.y, rfl, hzero, h.row⟩, rfl, rfl⟩

/-- the character is in its cell, and in no other -/
theorem window_write (h : Base s t) (hw : Window s t.cell) (v : Cell) (x y : ℕ) :
    Window { s with mem := Function.update s.mem s.pos v, x, y } fun row col =>
      if row = t.y ∧ col = t.x then v else t.cell row col := by
  intro row col hrow hcol
  have hpos : s.origin + (row * columns + col) = s.pos ↔ row = t.y ∧ col = t.x := by
    rw [h.pos, h.x, h.y]
    have hx : t.x < columns := h.x ▸ h.col
    unfold columns at *
    omega
  by_cases hat : row = t.y ∧ col = t.x
  · simp only [hpos.2 hat, if_pos hat, Function.update_self]
  · simp only [if_neg hat]
    rw [Function.update_of_ne fun he => hat (hpos.1 he)]
    exact hw row col hrow hcol

theorem tab_stop (x : ℕ) : (if (x + 7) / 8 * 8 = x then (x + 7) / 8 * 8 + 8 else (x + 7) / 8 * 8) = (x / 8 + 1) * 8 := by
  split_ifs <;> omega

/-- the variables are right after a byte, and the window is if the byte is quiet -/
def Follows (s' : State) (t : Terminal) (ch : Byte) : Prop :=
  Base s' (t.put ch) ∧ (Window s' (t.put ch).cell ↔ t.Quiet ch)

variable {s' : State} {ch : Byte}

theorem Follows.stay {u : Terminal} (hedit : t.edit ch = (u, false)) (h : Base s' u ∧ Window s' u.cell) : Follows s' t ch := by
  rw [Follows, Terminal.put, Terminal.Quiet, hedit]
  exact ⟨h.1, iff_of_true h.2 fun hdown => absurd hdown (by simp)⟩

theorem Follows.next {u : Terminal} (hedit : t.edit ch = (u, true))
    (h : Base s' u.nextRow ∧ (Window s' u.nextRow.cell ↔ u.Still)) :
    Follows s' t ch := by
  rw [Follows, Terminal.put, Terminal.Quiet, hedit]
  exact ⟨h.1, h.2.trans (by simp)⟩

theorem Base.half (h : Base s t) (hw : Window s t.cell) : Half s t :=
  ⟨h.origin, h.scrEnd, hw, h.x, h.x ▸ h.col, h.y ▸ h.row⟩

theorem putchar_follows (h : Base s t) (hw : Window s t.cell) (hp : isprint ch) : Follows (putchar s (ch.setWidth 16)) t ch := by
  have hcell := window_write h hw (0x0700 + ch.setWidth 16)
  have hy : t.y < lines := h.y ▸ h.row
  by_cases hlt : t.x + 1 < columns
  · have hcol : ¬ s.x + 1 ≥ columns := by
      rw [h.x]
      exact Nat.not_le.2 hlt
    refine Follows.stay (by rw [Terminal.edit, if_pos hp, if_pos hlt]) ?_
    rw [putchar, if_neg hcol]
    exact settle_stay ⟨h.origin, h.scrEnd, hcell _ _, congrArg (· + 1) h.x, hlt, hy⟩ h.y
  · have hcol : s.x + 1 ≥ columns := by
      rw [h.x]
      exact Nat.not_lt.1 hlt
    refine Follows.next (by rw [Terminal.edit, if_pos hp, if_neg hlt]) ?_
    rw [putchar, if_pos hcol]
    exact settle_next ⟨h.origin, h.scrEnd, hcell _ _, rfl, Nat.zero_lt_succ _, hy⟩ (congrArg (· + 1) h.y)

theorem newline_follows (h : Base s t) (hw : Window s t.cell) : Follows (cntrlLeft (insertLine s)) t 0x0a := by
  have hhalf := h.half hw
  have hline := settle_next (s := { s with y := s.y + 1 }) ⟨h.origin, h.scrEnd, hw, h.x, hhalf.col, hhalf.row⟩
      (congrArg (· + 1) h.y)
  obtain ⟨hbase, hmem, horigin⟩ := cntrlLeft_base hline.1
  have hrow : ({ t with x := 0 } : Terminal).nextRow = { t.nextRow with x := 0 } := by
    unfold Terminal.nextRow Terminal.scroll
    split_ifs <;> rfl
  refine Follows.next (u := { t with x := 0 }) (by rw [Terminal.edit, if_neg (by decide), if_pos rfl]) ?_
  rw [hrow]
  refine ⟨hbase, ?_⟩
  change Window (cntrlLeft (settle _)) t.nextRow.cell ↔ _
  rw [Window, hmem, horigin]
  exact hline.2

theorem return_follows (h : Base s t) (hw : Window s t.cell) : Follows (cntrlLeft s) t 0x0d := by
  obtain ⟨hbase, hmem, horigin⟩ := cntrlLeft_base h
  refine Follows.stay (u := { t with x := 0 }) (by simp [Terminal.edit, isprint]) ⟨hbase, ?_⟩
  change Window (cntrlLeft s) t.cell
  rw [Window, hmem, horigin]
  exact hw

theorem tab_follows (h : Base s t) (hw : Window s t.cell) : Follows (cntrlVtable s) t 0x09 := by
  have hhalf := h.half hw
  have hset : cntrlVtable s = settle (if (s.x / 8 + 1) * 8 ≥ columns then { s with y := s.y + 1, x := 0 }
      else { s with x := (s.x / 8 + 1) * 8 }) := by
    rw [← tab_stop s.x, cntrlVtable]
    by_cases hstop : (s.x + 7) / 8 * 8 = s.x
    · simp only [if_pos hstop]
      rfl
    · simp only [if_neg hstop]
      rfl
  rw [hset]
  by_cases hlt : (t.x / 8 + 1) * 8 < columns
  · have hcol : ¬ (s.x / 8 + 1) * 8 ≥ columns := by
      rw [h.x]
      exact Nat.not_le.2 hlt
    refine Follows.stay (u := { t with x := (t.x / 8 + 1) * 8 }) (by simp [Terminal.edit, isprint, hlt]) ?_
    rw [if_neg hcol]
    exact settle_stay ⟨h.origin, h.scrEnd, hw, by rw [h.x], hlt, hhalf.row⟩ h.y
  · have hcol : (s.x / 8 + 1) * 8 ≥ columns := by
      rw [h.x]
      exact Nat.not_lt.1 hlt
    refine Follows.next (u := { t with x := 0 }) (by simp [Terminal.edit, isprint, hlt]) ?_
    rw [if_pos hcol]
    exact settle_next ⟨h.origin, h.scrEnd, hw, rfl, Nat.zero_lt_succ _, hhalf.row⟩ (congrArg (· + 1) h.y)

theorem back_follows (h : Base s t) (hw : Window s t.cell) : Follows (cntrlBack s) t 0x08 := by
  have hhalf := h.half hw
  have hedit : ∀ t', (if t.x ≠ 0 then ({ t with x := t.x - 1 }, false) else if t.y ≠ 0 then
      ({ t with x := columns - 1, y := t.y - 1 }, false) else (t, false) : Terminal × Bool) = t' → t.edit 0x08 = t' := by
    intro t' heq
    rw [← heq, Terminal.edit, if_neg (by decide), if_neg (by decide), if_neg (by decide), if_neg (by decide), if_pos rfl]
  by_cases hx : t.x = 0
  · by_cases hy : t.y = 0
    · refine Follows.stay (hedit _ (by rw [if_neg (not_not_intro hx), if_neg (not_not_intro hy)])) ?_
      rw [cntrlBack, h.x, h.y, if_neg (not_not_intro hx), if_neg (not_not_intro hy), gotoxy_in h.col h.row]
      exact ⟨⟨h.origin, h.scrEnd, h.x, h.y, rfl, h.col, h.row⟩, hw⟩
    · have hrow : t.y - 1 < lines := Nat.lt_of_le_of_lt (Nat.sub_le _ _) hhalf.row
      have hcol : columns - 1 < columns := by decide
      refine Follows.stay (hedit _ (by rw [if_neg (not_not_intro hx), if_pos hy])) ?_
      rw [cntrlBack, h.x, h.y, if_neg (not_not_intro hx), if_pos hy, gotoxy_in hcol hrow]
      exact ⟨⟨h.origin, h.scrEnd, rfl, rfl, rfl, hcol, hrow⟩, hw⟩
  · have hcol : t.x - 1 < columns := Nat.lt_of_le_of_lt (Nat.sub_le _ _) hhalf.col
    refine Follows.stay (hedit _ (by rw [if_pos hx])) ?_
    rw [cntrlBack, h.x, if_pos hx, gotoxy_in hcol h.row]
    exact ⟨⟨h.origin, h.scrEnd, rfl, h.y, rfl, hcol, h.row⟩, hw⟩

/-- **One byte.** The variables stay right, and the window does exactly when the byte is quiet. -/
theorem putByte_follows (h : Base s t) (hw : Window s t.cell) (hp : Plain ch) : Follows (putByte s ch) t ch := by
  by_cases hprint : isprint ch
  · rw [putByte, if_pos hprint]
    exact putchar_follows h hw hprint
  obtain rfl | rfl | rfl | rfl := hp.resolve_left hprint
  · rw [putByte, if_neg hprint, if_pos (by decide), if_pos rfl]
    exact newline_follows h hw
  · rw [putByte, if_neg hprint, if_pos (by decide), if_neg (by decide), if_neg (by decide), if_pos rfl]
    exact return_follows h hw
  · rw [putByte, if_neg hprint, if_pos (by decide), if_neg (by decide), if_pos rfl]
    exact tab_follows h hw
  · rw [putByte, if_neg hprint, if_pos (by decide), if_neg (by decide), if_neg (by decide), if_neg (by decide), if_pos rfl]
    exact back_follows h hw

/-! ## Texts -/

/-- every byte of the text is quiet where it comes -/
def QuietText (text : List Byte) : Prop := ∀ pre ch, pre ++ [ch] <+: text → (Terminal.start.write pre).Quiet ch

theorem conInit_base (mem : Mem) : Base (conInit mem) Terminal.start ∧ Window (conInit mem) Terminal.start.cell := by
  have hx : 0 < columns := by decide
  have hy : 0 < lines := by decide
  rw [conInit, gotoxy_in hx hy]
  refine ⟨⟨rfl, rfl, rfl, rfl, rfl, hx, hy⟩, fun row col hrow hcol => ?_⟩
  have hidx := cell_index hrow hcol
  have hend : columns * lines < screenEnd := by decide
  simp only [clear, fill_eq]
  exact if_pos ⟨Nat.zero_le _, by omega⟩

theorem conWrite_snoc (s : State) (text : List Byte) (ch : Byte) : conWrite s (text ++ [ch]) = putByte (conWrite s text) ch :=
  List.foldl_concat ..

theorem write_snoc (t : Terminal) (text : List Byte) (ch : Byte) : t.write (text ++ [ch]) = (t.write text).put ch :=
  List.foldl_concat ..

/-- the calls do one after the other what one call does -/
theorem conWrite_flatten (s : State) (bufs : List (List Byte)) : bufs.foldl conWrite s = conWrite s bufs.flatten := by
  rw [conWrite, List.foldl_flatten]
  rfl

/-- the run over a text, from what holds after each part of it -/
theorem conWrite_follows {text : List Byte} (mem : Mem) (hp : ∀ ch ∈ text, Plain ch)
    (hstep : ∀ pre ch, pre ++ [ch] <+: text → (Terminal.start.write pre).Quiet ch ∨
      Window (conWrite (conInit mem) (pre ++ [ch])) (Terminal.start.write (pre ++ [ch])).cell) :
    Base (conWrite (conInit mem) text) (Terminal.start.write text) ∧
      Window (conWrite (conInit mem) text) (Terminal.start.write text).cell := by
  induction text using List.reverseRecOn with
  | nil => exact conInit_base mem
  | append_singleton text ch ih =>
    obtain ⟨hbase, hwin⟩ := ih (fun c hc => hp c (List.mem_append_left _ hc))
      fun pre c hpre => hstep pre c (hpre.trans (List.prefix_append _ _))
    obtain ⟨hnext, hiff⟩ := putByte_follows hbase hwin (hp ch (by simp))
    have hlast := hstep text ch List.prefix_rfl
    rw [conWrite_snoc, write_snoc] at *
    exact ⟨hnext, hlast.elim hiff.2 id⟩

/-- **The console is the terminal exactly on quiet texts**, for every cut into calls of con_write. -/
theorem matches_iff (mem : Mem) (text : List Byte) (hp : ∀ ch ∈ text, Plain ch) :
    (∀ bufs : List (List Byte), bufs.flatten <+: text →
      Matches (bufs.foldl conWrite (conInit mem)) (Terminal.start.write bufs.flatten)) ↔ QuietText text := by
  constructor
  · intro h pre ch hpre
    have hwin : ∀ p, p <+: text → Window (conWrite (conInit mem) p) (Terminal.start.write p).cell := by
      intro p hp'
      have hcall := h [p] (by simpa using hp')
      simpa [conWrite_flatten] using hcall.1
    have hsub : pre <+: text := (List.prefix_append _ _).trans hpre
    obtain ⟨hbase, hnow⟩ := conWrite_follows mem (fun c hc => hp c (hsub.subset hc))
      fun p c hp' => Or.inr (hwin _ (hp'.trans hsub))
    have hplain : Plain ch := hp ch (hpre.subset (by simp))
    refine (putByte_follows hbase hnow hplain).2.1 ?_
    rw [← conWrite_snoc, ← write_snoc]
    exact hwin _ hpre
  · intro h bufs hbufs
    rw [conWrite_flatten]
    obtain ⟨hbase, hwin⟩ := conWrite_follows mem (fun c hc => hp c (hbufs.subset hc))
      fun p c hp' => Or.inl (h p c (hp'.trans hbufs))
    exact ⟨hwin, hbase.x, hbase.y⟩

theorem matches_iff_line : (∀ bufs : List (List Byte), bufs.flatten <+: [0x61, 0x09, 0x0a] →
    Matches (bufs.foldl conWrite (conInit fun _ => 0)) (Terminal.start.write bufs.flatten)) ↔ QuietText [0x61, 0x09, 0x0a] :=
  matches_iff _ _ (by decide)

/-! ## The scroll that copies -/

theorem edit_scrolls (t : Terminal) (ch : Byte) : (t.edit ch).1.scrolls = t.scrolls := by
  simp only [Terminal.edit]
  split_ifs <;> rfl

/-- a byte that is not quiet makes a scroll, and the number of scrolls is a multiple of the room then -/
theorem put_scrolls (t : Terminal) (ch : Byte) : t.scrolls ≤ (t.put ch).scrolls ∧
    (¬ t.Quiet ch → (t.put ch).scrolls = t.scrolls + 1 ∧ (t.scrolls + 1) % Terminal.room = 0) := by
  have hscrolls := edit_scrolls t ch
  unfold Terminal.put Terminal.Quiet
  generalize t.edit ch = e at hscrolls ⊢
  obtain ⟨t', down⟩ := e
  change t'.scrolls = t.scrolls at hscrolls
  cases down with
  | false => exact ⟨hscrolls.ge, fun h => absurd (fun hdown => absurd hdown (by simp)) h⟩
  | true =>
    by_cases hlast : t'.y + 1 < lines
    · simp only [Terminal.nextRow, if_pos hlast]
      exact ⟨hscrolls.ge, fun h => absurd (fun _ heq => absurd heq (Nat.ne_of_lt hlast)) h⟩
    · simp only [Terminal.nextRow, if_neg hlast, Terminal.scroll]
      refine ⟨(hscrolls.ge).trans (Nat.le_succ _), fun h => ⟨congrArg (· + 1) hscrolls, ?_⟩⟩
      by_contra hz
      exact h fun _ _ hz' => absurd (hscrolls ▸ hz') hz

theorem write_scrolls (t : Terminal) (pre post : List Byte) : (t.write pre).scrolls ≤ (t.write (pre ++ post)).scrolls := by
  induction post using List.reverseRecOn with
  | nil => rw [List.append_nil]
  | append_singleton post ch ih =>
    rw [← List.append_assoc, write_snoc]
    exact ih.trans (put_scrolls _ ch).1

/-- up to the scroll that copies every text is quiet -/
theorem quiet_of_few {text : List Byte} (h : (Terminal.start.write text).scrolls < Terminal.room) : QuietText text := by
  intro pre ch hpre
  by_contra hq
  obtain ⟨hput, hmod⟩ := (put_scrolls _ ch).2 hq
  obtain ⟨post, rfl⟩ := hpre
  have hmono := write_scrolls Terminal.start (pre ++ [ch]) post
  rw [write_snoc, hput] at hmono
  have hroom : Terminal.room ≤ (Terminal.start.write pre).scrolls + 1 :=
    Nat.le_of_dvd (Nat.succ_pos _) (Nat.dvd_of_mod_eq_zero hmod)
  exact absurd h (Nat.not_lt.2 (hroom.trans hmono))

theorem write_newlines (n : ℕ) : Terminal.start.write (List.replicate n 0x0a) =
    ⟨fun _ _ => blank, 0, min n (lines - 1), n - (lines - 1)⟩ := by
  induction n with
  | zero => rfl
  | succ n ih =>
    have hput : ∀ t : Terminal, t.put 0x0a = ({ t with x := 0 } : Terminal).nextRow := by
      intro t
      rw [Terminal.put, Terminal.edit, if_neg (by decide), if_pos rfl]
    rw [List.replicate_succ', write_snoc, ih, hput, Terminal.nextRow]
    by_cases hn : n + 1 < lines
    · have hmin : min n (lines - 1) = n := min_eq_left (Nat.le_sub_one_of_lt (Nat.lt_of_succ_lt hn))
      have hmin' : min (n + 1) (lines - 1) = n + 1 := min_eq_left (Nat.le_sub_one_of_lt hn)
      simp only [hmin, hmin', if_pos hn]
      congr 1
      unfold lines at *
      omega
    · have hmin : min n (lines - 1) = lines - 1 := min_eq_right (by unfold lines at *; omega)
      have hmin' : min (n + 1) (lines - 1) = lines - 1 := min_eq_right (by unfold lines at *; omega)
      have hlast : ¬ lines - 1 + 1 < lines := by decide
      simp only [hmin, hmin', if_neg hlast, Terminal.scroll, ite_self]
      congr 1
      unfold lines at *
      omega

/-- 203 newlines are 179 scrolls; a character in the last row, and a newline then -/
def fullText : List Byte := List.replicate 203 0x0a ++ [0x61]

theorem fullText_plain : ∀ ch ∈ fullText, Plain ch := by
  intro ch hch
  rcases List.mem_append.1 hch with h | h
  · rw [List.eq_of_mem_replicate h]
    decide
  · rw [List.mem_singleton.1 h]
    decide

/-- **The row of the character stays where it was, and the character is gone.** -/
theorem copy_mismatch : ¬ Matches (conWrite (conInit fun _ => 0) (fullText ++ [0x0a]))
    (Terminal.start.write (fullText ++ [0x0a])) := by
  have hstart : Terminal.start.write fullText =
      ⟨fun row col => if row = 24 ∧ col = 0 then 0x0761 else blank, 1, 24, 179⟩ := by
    rw [fullText, write_snoc, write_newlines]
    rfl
  have hquiet : QuietText fullText := quiet_of_few (by rw [hstart]; decide)
  obtain ⟨hbase, hwin⟩ := conWrite_follows (fun _ => 0) fullText_plain fun pre ch hpre => Or.inl (hquiet pre ch hpre)
  intro h
  rw [conWrite_snoc, write_snoc] at h
  have hstill := (putByte_follows hbase hwin (by decide)).2.1 h.1
  rw [hstart] at hstill
  have hrows := hstill (by decide) (by decide) (by decide) 23 0 (by decide) (by decide)
  exact absurd hrows (by decide)

end SinsOs.Console
