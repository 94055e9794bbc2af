/-
Where con_write stores (drivers/console.c): the variables of the driver stay in their ranges for every output, bytes outside of
the ASCII control characters and `\a` included, and no store leaves the video memory.

`stores` lists the cells that a byte stores, and `putByte_frame` says that no other cell changes.

- `putByte_bounds`: a byte keeps the ranges.
- `console_bounded`: so every call of con_write does, from con_init on.
-/
import SinsOs.Drivers.Console

namespace SinsOs.Console

open SinsOs.Lib

/-- the ranges of the variables, and how they hang together -/
structure Bounds (s : State) : Prop where
  col : s.x < columns
  row : s.y < lines
  window : s.scrEnd = s.origin + columns * lines
  pos : s.pos = s.origin + (s.y * columns + s.x)
  inside : s.scrEnd ≤ screenEnd

/-! ## The stores -/

/-- memmove and the loop that clears the last row -/
def scrollUpStores (s : State) : List ℕ :=
  if s.scrEnd + columns < screenEnd then List.range' s.scrEnd columns
  else List.range (columns * (lines - 1)) ++ List.range' (columns * lines - columns) columns

/-- the end of the functions that can pass the last row -/
def settleStores (s : State) : List ℕ := if s.y ≥ lines then scrollUpStores s else []

/-- the cursor of putchar before its end -/
def putcharCursor (s : State) : State :=
  let s := { s with x := s.x + 1 }
  if s.x ≥ columns then { s with y := s.y + 1, x := 0 } else s

/-- the cursor of cntrl_vtable before its end -/
def vtableCursor (s : State) : State :=
  let oldX := s.x
  let s := { s with x := (s.x + 7) / 8 * 8 }
  let s := if s.x = oldX then { s with x := s.x + 8 } else s
  if s.x ≥ columns then { s with y := s.y + 1, x := 0 } else s

/-- the cells that a turn of the loop of con_write stores -/
def stores (s : State) (ch : Byte) : List ℕ :=
  if isprint ch then s.pos :: settleStores (putcharCursor s)
  else if iscntrl ch then
    if ch = 0x0a then settleStores { s with y := s.y + 1 }
    else if ch = 0x09 then settleStores (vtableCursor s)
    else if ch = 0x0d then []
    else if ch = 0x08 then []
    else if ch = 0x07 then [s.scrEnd - 1]
    else []
  else []

variable {s : State} {ch : Byte} {a : ℕ}

theorem putchar_eq (s : State) (ch : Cell) :
    putchar s ch = settle (putcharCursor { s with mem := Function.update s.mem s.pos (0x0700 + ch) }) := rfl

theorem insertLine_eq (s : State) : insertLine s = settle { s with y := s.y + 1 } := rfl

theorem cntrlVtable_eq (s : State) : cntrlVtable s = settle (vtableCursor s) := rfl

theorem putcharCursor_frame (s : State) (mem : Mem) :
    settleStores (putcharCursor { s with mem }) = settleStores (putcharCursor s) ∧
      (putcharCursor { s with mem }).mem = mem := by
  unfold putcharCursor
  dsimp only
  split_ifs <;> exact ⟨rfl, rfl⟩

theorem vtableCursor_mem (s : State) : (vtableCursor s).mem = s.mem := by
  unfold vtableCursor
  dsimp only
  split_ifs <;> rfl

/-! ## Frames -/

theorem gotoxy_mem (s : State) (newX newY : ℕ) : (gotoxy s newX newY).mem = s.mem := by
  rw [gotoxy]
  split_ifs <;> rfl

theorem scrollUp_frame (ha : a ∉ scrollUpStores s) : (scrollUp s).mem a = s.mem a := by
  rw [scrollUpStores] at ha
  split_ifs at ha with h
  · rw [scrollUp_move h]
    dsimp only
    rw [fill_eq, if_neg (by simpa [List.mem_range'_1] using ha)]
  · rw [scrollUp_copy h]
    simp only [List.mem_append, List.mem_range, List.mem_range'_1, not_or] at ha
    dsimp only
    rw [fill_eq, if_neg ha.2, memmove_eq _ (Nat.zero_le _), if_neg (by omega)]

theorem settle_frame (ha : a ∉ settleStores s) : (settle s).mem a = s.mem a := by
  rw [settleStores] at ha
  rw [settle, gotoxy_mem]
  split_ifs at ha ⊢ with h
  · exact scrollUp_frame ha
  · rfl

theorem cntrlBack_mem (s : State) : (cntrlBack s).mem = s.mem := by
  rw [cntrlBack, gotoxy_mem]
  split_ifs <;> rfl

/-- **The list of the stores is complete.** -/
theorem putByte_frame (ha : a ∉ stores s ch) : (putByte s ch).mem a = s.mem a := by
  rw [stores] at ha
  rw [putByte]
  split_ifs at ha ⊢
  · rw [List.mem_cons, not_or] at ha
    obtain ⟨hstores, hmem⟩ := putcharCursor_frame s (Function.update s.mem s.pos (0x0700 + ch.setWidth 16))
    rw [putchar_eq, settle_frame (hstores ▸ ha.2), hmem]
    exact Function.update_of_ne ha.1 _ _
  · rw [cntrlLeft, gotoxy_mem, insertLine_eq]
    exact settle_frame ha
  · rw [cntrlVtable_eq, settle_frame ha, vtableCursor_mem]
  · rw [cntrlLeft, gotoxy_mem]
  · rw [cntrlBack_mem]
  · rw [List.mem_singleton] at ha
    exact Function.update_of_ne ha _ _
  · rfl
  · rfl

/-! ## The ranges -/

theorem gotoxy_bounds (hx : s.x < columns) (hy : s.y < lines) (hw : s.scrEnd = s.origin + columns * lines)
    (hi : s.scrEnd ≤ screenEnd) : Bounds (gotoxy s s.x s.y) := by
  rw [gotoxy_in hx hy]
  exact ⟨hx, hy, hw, rfl, hi⟩

theorem scrollUp_window (hw : s.scrEnd = s.origin + columns * lines) :
    (scrollUp s).scrEnd = (scrollUp s).origin + columns * lines ∧ (scrollUp s).scrEnd ≤ screenEnd := by
  by_cases h : s.scrEnd + columns < screenEnd
  · rw [scrollUp_move h]
    refine ⟨?_, Nat.le_of_lt h⟩
    dsimp only
    omega
  · rw [scrollUp_copy h]
    exact ⟨(Nat.zero_add _).symm, show columns * lines ≤ screenEnd by decide⟩

/-- the row may be the one behind the last -/
theorem settle_bounds (hx : s.x < columns) (hy : s.y ≤ lines) (hw : s.scrEnd = s.origin + columns * lines)
    (hi : s.scrEnd ≤ screenEnd) : Bounds (settle s) := by
  by_cases h : s.y ≥ lines
  · obtain ⟨hwindow, hinside⟩ := scrollUp_window hw
    have hcol : (scrollUp s).x < columns := (scrollUp_cursor s).1 ▸ hx
    have hlines : 0 < lines := by decide
    rw [settle, if_pos h]
    exact gotoxy_bounds hcol (show s.y - 1 < lines by omega) hwindow hinside
  · rw [settle, if_neg h]
    exact gotoxy_bounds hx (Nat.not_le.1 h) hw hi

theorem putcharCursor_range (h : Bounds s) : (putcharCursor s).x < columns ∧ (putcharCursor s).y ≤ lines ∧
    (putcharCursor s).origin = s.origin ∧ (putcharCursor s).scrEnd = s.scrEnd := by
  have hx := h.col
  have hy := h.row
  unfold putcharCursor
  dsimp only
  split_ifs with hc
  · exact ⟨Nat.zero_lt_succ _, hy, rfl, rfl⟩
  · exact ⟨Nat.not_le.1 hc, Nat.le_of_lt hy, rfl, rfl⟩

theorem vtableCursor_range (h : Bounds s) : (vtableCursor s).x < columns ∧ (vtableCursor s).y ≤ lines ∧
    (vtableCursor s).origin = s.origin ∧ (vtableCursor s).scrEnd = s.scrEnd := by
  have hy := h.row
  unfold vtableCursor
  dsimp only
  split_ifs with h8 hc hc
  · exact ⟨Nat.zero_lt_succ _, hy, rfl, rfl⟩
  · exact ⟨Nat.not_le.1 hc, Nat.le_of_lt hy, rfl, rfl⟩
  · exact ⟨Nat.zero_lt_succ _, hy, rfl, rfl⟩
  · exact ⟨Nat.not_le.1 hc, Nat.le_of_lt hy, rfl, rfl⟩

theorem putchar_bounds (h : Bounds s) (ch : Cell) : Bounds (putchar s ch) := by
  have hstored : Bounds { s with mem := Function.update s.mem s.pos (0x0700 + ch) } :=
    ⟨h.col, h.row, h.window, h.pos, h.inside⟩
  obtain ⟨hx, hy, horigin, hend⟩ := putcharCursor_range hstored
  rw [putchar_eq]
  exact settle_bounds hx hy (by rw [hend, horigin, h.window]) (hend.le.trans h.inside)

theorem insertLine_bounds (h : Bounds s) : Bounds (insertLine s) := by
  rw [insertLine_eq]
  exact settle_bounds h.col h.row h.window h.inside

theorem cntrlVtable_bounds (h : Bounds s) : Bounds (cntrlVtable s) := by
  obtain ⟨hx, hy, horigin, hend⟩ := vtableCursor_range h
  rw [cntrlVtable_eq]
  exact settle_bounds hx hy (by rw [hend, horigin, h.window]) (hend.le.trans h.inside)

theorem cntrlLeft_bounds (h : Bounds s) : Bounds (cntrlLeft s) := by
  have hzero : 0 < columns := by decide
  rw [cntrlLeft, gotoxy_in hzero h.row]
  exact ⟨hzero, h.row, h.window, rfl, h.inside⟩

theorem cntrlBack_bounds (h : Bounds s) : Bounds (cntrlBack s) := by
  have hx := h.col
  have hy := h.row
  unfold cntrlBack
  dsimp only
  split_ifs with h0 h1
  · exact gotoxy_bounds (show s.x - 1 < columns by omega) hy h.window h.inside
  · exact gotoxy_bounds (show columns - 1 < columns by decide) (show s.y - 1 < lines by omega) h.window h.inside
  · exact gotoxy_bounds hx hy h.window h.inside

/-- **One byte.** Whatever it is, the ranges hold after it. -/
theorem putByte_bounds (h : Bounds s) (ch : Byte) : Bounds (putByte s ch) := by
  rw [putByte]
  split_ifs
  · exact putchar_bounds h _
  · exact cntrlLeft_bounds (insertLine_bounds h)
  · exact cntrlVtable_bounds h
  · exact cntrlLeft_bounds h
  · exact cntrlBack_bounds h
  · exact ⟨h.col, h.row, h.window, h.pos, h.inside⟩
  · exact h
  · exact h

theorem conWrite_bounds (h : Bounds s) (buf : List Byte) : Bounds (conWrite s buf) := by
  induction buf generalizing s with
  | nil => exact h
  | cons ch buf ih => exact ih (putByte_bounds h ch)

theorem conInit_bounds (mem : Mem) : Bounds (conInit mem) := by
  have hzero : 0 < columns ∧ 0 < lines ∧ lines * columns ≤ screenEnd := by decide
  exact gotoxy_bounds (s := clear ⟨mem, 0, lines * columns, 0, 0, 0⟩) hzero.1 hzero.2.1 rfl hzero.2.2

/-! ## The stores in range -/

theorem scrollUpStores_inside (ha : a ∈ scrollUpStores s) : a < screenEnd := by
  rw [scrollUpStores] at ha
  split_ifs at ha with hroom
  · rw [List.mem_range'_1] at ha
    omega
  · rw [List.mem_append, List.mem_range, List.mem_range'_1] at ha
    unfold columns lines screenEnd at *
    omega

theorem settleStores_inside (ha : a ∈ settleStores s) : a < screenEnd := by
  rw [settleStores] at ha
  split_ifs at ha
  · exact scrollUpStores_inside ha
  · cases ha

theorem stores_inside (h : Bounds s) (ha : a ∈ stores s ch) : a < screenEnd := by
  have hend : 0 < s.scrEnd := by
    rw [h.window]
    exact Nat.add_pos_right _ (by decide)
  rw [stores] at ha
  split_ifs at ha
  · rcases List.mem_cons.1 ha with rfl | ha
    · have hcell := cell_index h.row h.col
      have hwindow := h.window
      have hpos := h.pos
      have hinside := h.inside
      omega
    · exact settleStores_inside ha
  · exact settleStores_inside ha
  · exact settleStores_inside ha
  · cases ha
  · cases ha
  · rw [List.mem_singleton.1 ha]
    exact Nat.lt_of_lt_of_le (Nat.sub_lt hend Nat.one_pos) h.inside
  · cases ha
  · cases ha

/-- **The console stays in its memory.** For every memory at the start, every sequence of calls of con_write behind con_init and
every place in the call that follows, the ranges hold, and the next byte stores inside of the video memory only. -/
theorem console_bounded (mem : Mem) (calls : List (List Byte)) (pre : List Byte) (ch : Byte) :
    Bounds (conWrite (calls.foldl conWrite (conInit mem)) pre) ∧
    (∀ a ∈ stores (conWrite (calls.foldl conWrite (conInit mem)) pre) ch, a < screenEnd) ∧
    ∀ a, a ∉ stores (conWrite (calls.foldl conWrite (conInit mem)) pre) ch →
      (putByte (conWrite (calls.foldl conWrite (conInit mem)) pre) ch).mem a =
        (conWrite (calls.foldl conWrite (conInit mem)) pre).mem a := by
  have hcalls : Bounds (calls.foldl conWrite (conInit mem)) := by
    rw [conWrite_flatten]
    exact conWrite_bounds (conInit_bounds mem) _
  have hbounds := conWrite_bounds hcalls pre
  exact ⟨hbounds, fun a ha => stores_inside hbounds ha, fun a ha => putByte_frame ha⟩

end SinsOs.Console
