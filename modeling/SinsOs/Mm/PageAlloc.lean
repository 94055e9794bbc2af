/-
The page allocator (kernel/mm/page_alloc.c): free areas, get_buddy, reduce, expand, build_zone_buddy_system, alloc_pages
and dealloc_pages.

The state is the flag words of mmap[] and the free areas of every zone. The node of a descriptor is linked into
lists of its own zone only, and a doubly linked list is the list of its elements. `none` is a BUG_ON that fires: panic
never returns. irq_save and irq_restore bracket every operation, so operations are atomic.
-/
import SinsOs.Mm.Zone

namespace SinsOs.PageAlloc

open SinsOs.Bits SinsOs.Mm

structure FreeArea where
  list : List ℕ
  size : ℕ
deriving DecidableEq, Repr

/-- the part of memory the page allocator owns -/
structure St where
  /-- mmap[p].flags -/
  flags : ℕ → Word
  /-- zones_list[z].free_area[k] -/
  freeArea : ℕ → ℕ → FreeArea

def mmapBitsPrivate : ℕ := 0
def mmapBitsUsed : ℕ := 1

namespace St

variable (m : St)

def mmapTestPrivate (p : ℕ) : Bool := testBit (m.flags p) mmapBitsPrivate
def mmapTestUsed (p : ℕ) : Bool := testBit (m.flags p) mmapBitsUsed

def setFlags (p : ℕ) (w : Word) : St := { m with flags := fun q => if q = p then w else m.flags q }

def mmapSetPrivate (p : ℕ) : St := m.setFlags p (setBit (m.flags p) mmapBitsPrivate)
def mmapClearPrivate (p : ℕ) : St := m.setFlags p (clearBit (m.flags p) mmapBitsPrivate)
def mmapSetUsed (p : ℕ) : St := m.setFlags p (setBit (m.flags p) mmapBitsUsed)
def mmapClearUsed (p : ℕ) : St := m.setFlags p (clearBit (m.flags p) mmapBitsUsed)

def setArea (z k : ℕ) (a : FreeArea) : St :=
  { m with freeArea := fun z' k' => if z' = z ∧ k' = k then a else m.freeArea z' k' }

/-- list_add to free_area[k].list, after size++ -/
def listAdd (z p k : ℕ) : St :=
  m.setArea z k ⟨p :: (m.freeArea z k).list, (m.freeArea z k).size + 1⟩

/-- list_del_init: the node leaves whichever list of its zone it is on -/
def listDel (z p : ℕ) : St :=
  { m with freeArea := fun z' k' =>
      if z' = z then ⟨(m.freeArea z' k').list.erase p, (m.freeArea z' k').size⟩ else m.freeArea z' k' }

end St

variable (L : Layout)

/-! ## Free areas -/

def initFreeArea (m : St) (z k : ℕ) : St := m.setArea z k ⟨[], 0⟩

def initAddToFreeArea (m : St) (z p k : ℕ) : St := (m.mmapSetPrivate p).listAdd z p k

def addToFreeArea (m : St) (z p k : ℕ) : Option St :=
  if m.mmapTestPrivate p then some (m.listAdd z p k) else none

/-- the inner `none` is the NULL of an empty list -/
def popFromFreeArea (m : St) (z k : ℕ) : Option (ℕ × St) :=
  match (m.freeArea z k).list with
  | [] => none
  | fetch :: rest => some (fetch, m.setArea z k ⟨rest, (m.freeArea z k).size - 1⟩)

def removeFromFreeArea (m : St) (z p k : ℕ) : St :=
  (m.setArea z k ⟨(m.freeArea z k).list, (m.freeArea z k).size - 1⟩).listDel z p

/-! ## Buddies -/

/-- the tests at the end of get_buddy: a head, not allocated, and no head in the middle -/
def probeBuddy (m : St) (myBuddy order : ℕ) : Option ℕ :=
  if !m.mmapTestPrivate myBuddy then none
  else if m.mmapTestUsed myBuddy then none
  else if order = 0 ∨ !m.mmapTestPrivate (myBuddy + 2 ^ (order - 1)) then some myBuddy
  else none

def getBuddy (m : St) (z me order : ℕ) : Option ℕ :=
  let combineSize := 2 ^ (order + 1)
  let buddySize := 2 ^ order
  let offset := me - (L.zone z).mmapBase
  if offset % combineSize = 0 then
    -- the pointer difference is signed
    let myBuddy := (L.zone z).mmapBase + offset + buddySize
    if ((myBuddy + buddySize : ℕ) : ℤ) - (L.zone z).mmapEnd > 0 then none else probeBuddy m myBuddy order
  else probeBuddy m ((L.zone z).mmapBase + offset - buddySize) order

/-- halve a block of the given order; the right half goes to the free area -/
def reduce (m : St) (z p order : ℕ) : Option (ℕ × St) :=
  if order = 0 then none
  else
    let buddy2 := p + 2 ^ (order - 1)
    (addToFreeArea (m.mmapSetPrivate buddy2) z buddy2 (order - 1)).map fun m' => (p, m')

def expand (m : St) (buddy1 buddy2 : ℕ) : ℕ × St :=
  if buddy1 < buddy2 then (buddy1, m.mmapClearPrivate buddy2) else (buddy2, m.mmapClearPrivate buddy1)

/-! ## build_zone_buddy_system -/

/-- the while loop of _build_zone_buddy_system; returns the size that is left -/
def buildLoop (m : St) (z mmapIndex size : ℕ) : St × ℕ :=
  if 4096 ≤ size then
    let order := if size > 4096 <<< maxOrder then maxOrder else (getOrderFloor size).toNat
    buildLoop (initAddToFreeArea m z ((L.zone z).mmapBase + mmapIndex) order) z (mmapIndex + 2 ^ order)
      (size - 4096 <<< order)
  else (m, size)
termination_by size
decreasing_by
  exact Nat.sub_lt (by omega) (by rw [Nat.shiftLeft_eq]; positivity)

/-- `size` is an unsigned long, so the byte count is taken modulo 2^32 -/
def buildZoneBuddySystem (m : St) (z : ℕ) : Option St :=
  let m := (List.range (maxOrder + 1)).foldl (fun m k => initFreeArea m z k) m
  let size := ((L.zone z).mmapEnd - (L.zone z).mmapBase) * 4096 % 2 ^ 32
  let r := buildLoop L m z 0 size
  if r.2 ≠ 0 then none else some r.1

/-- the zone loop of page_alloc_init -/
def buildZones (m : St) : List ℕ → Option St
  | [] => some m
  | z :: zs => (buildZoneBuddySystem L m z).bind fun m' => buildZones m' zs

/-! ## alloc_pages and dealloc_pages -/

/-- halve `fetch` until its order is the requested one -/
def reduceLoop (m : St) (z order : ℕ) : ℕ → ℕ → Option (ℕ × St)
  | searchOrder, fetch =>
    if searchOrder = order then some (fetch, m)
    else match searchOrder with
      | 0 => none
      | so + 1 => (reduce m z fetch (so + 1)).bind fun r => reduceLoop r.2 z order so r.1

/-- the search over the orders of one zone; the inner `none` sends alloc_pages on to the next zone -/
def searchZone (m : St) (z order : ℕ) : List ℕ → Option (Option (ℕ × St))
  | [] => some none
  | searchOrder :: rest =>
    match popFromFreeArea m z searchOrder with
    | some (fetch, m') =>
      (reduceLoop m' z order searchOrder fetch).map fun r => some (r.1, r.2.mmapSetUsed r.1)
    | none => searchZone m z order rest

def searchZones (m : St) (order : ℕ) : List ℕ → Option (Option ℕ × St)
  | [] => some (none, m)
  | z :: zs =>
    match searchZone m z order (List.range' order (maxOrder + 1 - order)) with
    | none => none
    | some (some (p, m')) => some (some p, m')
    | some none => searchZones m order zs

/-- the page is `none` where alloc_pages returns NULL -/
def allocPages (m : St) (zoneType order : ℕ) : Option (Option ℕ × St) :=
  if nrZoneTypes ≤ zoneType then none
  else if maxOrder < order then some (none, m)
  else searchZones m order (L.chain zoneType)

/-- the while loop of dealloc_pages, entered with order ≤ MAX_ORDER -/
def mergeLoop (m : St) (z buddy1 order : ℕ) : St × ℕ × ℕ :=
  if maxOrder ≤ order then (m, buddy1, order)
  else match getBuddy L m z buddy1 order with
    | none => (m, buddy1, order)
    | some buddy2 =>
      let r := expand (removeFromFreeArea m z buddy2 order) buddy1 buddy2
      mergeLoop r.2 z r.1 (order + 1)
termination_by maxOrder - order

def deallocPages (m : St) (page order : ℕ) : Option St :=
  if !m.mmapTestUsed page then none
  else if maxOrder < order then none
  else match L.pageToZone page with
    | none => none
    | some z =>
      let r := mergeLoop L (m.mmapClearUsed page) z page order
      addToFreeArea r.1 z r.2.1 r.2.2

/-! ## Views of the updates -/

namespace St

variable (m : St)

@[simp] theorem private_setPrivate (p q : ℕ) :
    (m.mmapSetPrivate p).mmapTestPrivate q = (decide (q = p) || m.mmapTestPrivate q) := by
  simp only [mmapSetPrivate, setFlags, mmapTestPrivate]
  split_ifs with h
  · subst h; rw [testBit_setBit (by decide) (by decide)]; simp
  · simp [h]

@[simp] theorem private_clearPrivate (p q : ℕ) :
    (m.mmapClearPrivate p).mmapTestPrivate q = (!decide (q = p) && m.mmapTestPrivate q) := by
  simp only [mmapClearPrivate, setFlags, mmapTestPrivate]
  split_ifs with h
  · subst h; rw [testBit_clearBit (by decide) (by decide)]; simp
  · simp [h]

@[simp] theorem private_setUsed (p q : ℕ) : (m.mmapSetUsed p).mmapTestPrivate q = m.mmapTestPrivate q := by
  simp only [mmapSetUsed, setFlags, mmapTestPrivate]
  split_ifs with h
  · subst h; rw [testBit_setBit (by decide) (by decide)]; simp [mmapBitsPrivate, mmapBitsUsed]
  · rfl

@[simp] theorem private_clearUsed (p q : ℕ) : (m.mmapClearUsed p).mmapTestPrivate q = m.mmapTestPrivate q := by
  simp only [mmapClearUsed, setFlags, mmapTestPrivate]
  split_ifs with h
  · subst h; rw [testBit_clearBit (by decide) (by decide)]; simp [mmapBitsPrivate, mmapBitsUsed]
  · rfl

@[simp] theorem used_setPrivate (p q : ℕ) : (m.mmapSetPrivate p).mmapTestUsed q = m.mmapTestUsed q := by
  simp only [mmapSetPrivate, setFlags, mmapTestUsed]
  split_ifs with h
  · subst h; rw [testBit_setBit (by decide) (by decide)]; simp [mmapBitsPrivate, mmapBitsUsed]
  · rfl

@[simp] theorem used_clearPrivate (p q : ℕ) : (m.mmapClearPrivate p).mmapTestUsed q = m.mmapTestUsed q := by
  simp only [mmapClearPrivate, setFlags, mmapTestUsed]
  split_ifs with h
  · subst h; rw [testBit_clearBit (by decide) (by decide)]; simp [mmapBitsPrivate, mmapBitsUsed]
  · rfl

@[simp] theorem used_setUsed (p q : ℕ) :
    (m.mmapSetUsed p).mmapTestUsed q = (decide (q = p) || m.mmapTestUsed q) := by
  simp only [mmapSetUsed, setFlags, mmapTestUsed]
  split_ifs with h
  · subst h; rw [testBit_setBit (by decide) (by decide)]; simp
  · simp [h]

@[simp] theorem used_clearUsed (p q : ℕ) :
    (m.mmapClearUsed p).mmapTestUsed q = (!decide (q = p) && m.mmapTestUsed q) := by
  simp only [mmapClearUsed, setFlags, mmapTestUsed]
  split_ifs with h
  · subst h; rw [testBit_clearBit (by decide) (by decide)]; simp
  · simp [h]

@[simp] theorem freeArea_setFlags (p : ℕ) (w : Word) : (m.setFlags p w).freeArea = m.freeArea := rfl
@[simp] theorem freeArea_setPrivate (p : ℕ) : (m.mmapSetPrivate p).freeArea = m.freeArea := rfl
@[simp] theorem freeArea_clearPrivate (p : ℕ) : (m.mmapClearPrivate p).freeArea = m.freeArea := rfl
@[simp] theorem freeArea_setUsed (p : ℕ) : (m.mmapSetUsed p).freeArea = m.freeArea := rfl
@[simp] theorem freeArea_clearUsed (p : ℕ) : (m.mmapClearUsed p).freeArea = m.freeArea := rfl

@[simp] theorem flags_setArea (z k : ℕ) (a : FreeArea) : (m.setArea z k a).flags = m.flags := rfl
@[simp] theorem flags_listAdd (z p k : ℕ) : (m.listAdd z p k).flags = m.flags := rfl
@[simp] theorem flags_listDel (z p : ℕ) : (m.listDel z p).flags = m.flags := rfl

theorem freeArea_setArea (z k : ℕ) (a : FreeArea) (z' k' : ℕ) :
    (m.setArea z k a).freeArea z' k' = if z' = z ∧ k' = k then a else m.freeArea z' k' := rfl

theorem freeArea_listAdd (z p k z' k' : ℕ) :
    (m.listAdd z p k).freeArea z' k' =
      if z' = z ∧ k' = k then ⟨p :: (m.freeArea z k).list, (m.freeArea z k).size + 1⟩ else m.freeArea z' k' := rfl

theorem freeArea_listDel (z p z' k' : ℕ) :
    (m.listDel z p).freeArea z' k' =
      if z' = z then ⟨(m.freeArea z' k').list.erase p, (m.freeArea z' k').size⟩ else m.freeArea z' k' := rfl

theorem private_of_flags {m m' : St} (h : m'.flags = m.flags) (q : ℕ) : m'.mmapTestPrivate q = m.mmapTestPrivate q := by
  simp only [mmapTestPrivate, h]

theorem used_of_flags {m m' : St} (h : m'.flags = m.flags) (q : ℕ) : m'.mmapTestUsed q = m.mmapTestUsed q := by
  simp only [mmapTestUsed, h]

end St

end SinsOs.PageAlloc
