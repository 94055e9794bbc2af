/-
Reading text: vsscanf of lib/vsprintf.c, and the way back from vsprintf.

What vsscanf stores through its pointers is a log of addresses with the bytes written there. The text that is read is not in
those bytes.

- `loop_sep`: a separator is read off against the same one in the format, white space at once.
- `vsscanf_vsprintf`: with one format for both, vsscanf reads back the integers that vsprintf wrote, up to the first text that
  does not start with a decimal digit.
-/
import SinsOs.Lib.Vsprintf

namespace SinsOs.Vsscanf

open Lib Strtoul Div64 Vsprintf

/-! ## Model -/

structure Scan where
  fmt : List Byte
  str : List Byte
  args : VaList
  num : ℕ
  /-- set once and kept from one conversion to the next -/
  fieldWidth : ℤ
  stores : List (ℕ × List Byte)

inductive Turn where
  | again : Scan → Turn
  | done : Scan → Turn

def intMax : ℤ := 2 ^ 31 - 1

/-- do ... while (field_width-- > 0 && *str): what is copied, what is left of the text and of the width -/
def copyChars : ℤ → List Byte → List Byte × List Byte × ℤ
  | width, [] => ([], [], width)
  | width, c :: str =>
    if 0 < width ∧ str ≠ [] then
      let (copied, rest) := copyChars (width - 1) str
      (c :: copied, rest)
    else ([c], str, width - 1)

/-- while (*str && !isspace(*str) && field_width--) -/
def copyWord : ℤ → List Byte → List Byte × List Byte × ℤ
  | width, [] => ([], [], width)
  | width, c :: str =>
    if isspace c then ([], c :: str, width)
    else if width = 0 then ([], c :: str, width - 1)
    else
      let (copied, rest) := copyWord (width - 1) str
      (c :: copied, rest)

/-- an integer of that many bytes in memory -/
def intBytes (size : ℕ) (v : ℤ) : List Byte :=
  (List.range size).map fun i => BitVec.ofInt 8 (v / 2 ^ (8 * i))

def Scan.store (s : Scan) (bytes : List Byte) : Scan :=
  { s with args := s.args.next, stores := s.stores ++ [((s.args 0).toNat, bytes)] }

def skipSpace (s : Scan) : Scan :=
  if isspace (s.fmt.headD 0) then { s with fmt := s.fmt.dropWhile isspace, str := s.str.dropWhile isspace } else s

/-- an integer conversion of a text without white space in front -/
def readInteger (s : Scan) (qualifier : Option Byte) (base : ℕ) (sign : Bool) : Scan :=
  let ul := simpleStrtoul s.str base
  let l := simpleStrtol s.str base
  let ull := simpleStrtoull s.str base
  let ll := simpleStrtoll s.str base
  let s := { s with num := s.num + 1 }
  if qualifier = some (ch 'h') then
    if sign then { s.store (intBytes 2 l.1) with str := l.2 } else { s.store (intBytes 2 ul.1) with str := ul.2 }
  else if qualifier = some (ch 'L') then
    if sign then { s.store (intBytes 8 ll.1) with str := ll.2 } else { s.store (intBytes 8 ull.1) with str := ull.2 }
  else if qualifier = some (ch 'Z') then { s.store (intBytes 4 ul.1) with str := ul.2 }
  else if sign then { s.store (intBytes 4 l.1) with str := l.2 } else { s.store (intBytes 4 ul.1) with str := ul.2 }

def integer (s : Scan) (qualifier : Option Byte) (base : ℕ) (sign : Bool) : Turn :=
  let s := { s with str := s.str.dropWhile isspace }
  if s.str = [] ∨ !isdigit (s.str.headD 0) then .done s else .again (readInteger s qualifier base sign)

/-- the switch on the conversion c; the text was read from its start on -/
def convert (text : List Byte) (s : Scan) (qualifier : Option Byte) (c : Byte) : Turn :=
  if c = ch 'c' then
    let width := if s.fieldWidth = -1 then 1 else s.fieldWidth
    let (copied, rest, width) := copyChars width s.str
    .again { s.store copied with str := rest, fieldWidth := width, num := s.num + 1 }
  else if c = ch 's' then
    let width := if s.fieldWidth = -1 then intMax else s.fieldWidth
    let (copied, rest, width) := copyWord width (s.str.dropWhile isspace)
    .again { s.store (copied ++ [0]) with str := rest, fieldWidth := width, num := s.num + 1 }
  else if c = ch 'n' then .again (s.store (intBytes 4 (text.length - s.str.length)))
  else if c = ch 'o' then integer s qualifier 8 false
  else if c = ch 'x' ∨ c = ch 'X' then integer s qualifier 16 false
  else if c = ch 'd' ∨ c = ch 'i' then integer s qualifier 10 true
  else if c = ch 'u' then integer s qualifier 10 false
  else if c = ch '%' then
    if s.str.headD 0 = ch '%' then .again { s with str := s.str.tail } else .done { s with str := s.str.tail }
  else .done s

/-- a directive behind its '%' -/
def directive (text : List Byte) (s : Scan) : Turn :=
  if s.fmt.headD 0 = ch '*' then
    .again { s with fmt := s.fmt.dropWhile fun c => !isspace c, str := s.str.dropWhile fun c => !isspace c }
  else
    let s := if isdigit (s.fmt.headD 0) then { s with fieldWidth := (skipAtoi 0 s.fmt).1, fmt := (skipAtoi 0 s.fmt).2 } else s
    let c := s.fmt.headD 0
    let qualified := c = ch 'h' ∨ c = ch 'l' ∨ c = ch 'L' ∨ c = ch 'Z'
    let qualifier := if qualified then some c else none
    let s := if qualified then { s with fmt := s.fmt.tail } else s
    if s.fmt = [] ∨ s.str = [] then .done s
    else convert text { s with fmt := s.fmt.tail } qualifier (s.fmt.headD 0)

/-- the body of the loop -/
def turn (text : List Byte) (s : Scan) : Turn :=
  let s := skipSpace s
  if s.fmt.headD 0 ≠ ch '%' ∧ s.fmt ≠ [] then
    let next := { s with fmt := s.fmt.tail, str := s.str.tail }
    if s.fmt.headD 0 ≠ s.str.headD 0 then .done next else .again next
  else if s.fmt = [] then .done s
  else directive text { s with fmt := s.fmt.tail }

def loop (text : List Byte) : ℕ → Scan → Option Scan
  | 0, _ => none
  | fuel + 1, s =>
    if s.fmt = [] ∨ s.str = [] then some s
    else
      match turn text s with
      | .again s => loop text fuel s
      | .done s => some s

/-- the number of items read and what is stored -/
def vsscanf (buf fmt : List Byte) (args : VaList) : Option (ℕ × List (ℕ × List Byte)) :=
  (loop buf (fmt.length + 1) ⟨fmt, buf, args, 0, -1, []⟩).map fun s => (s.num, s.stores)

/-! ## What is printed -/

inductive Qualifier where
  | int | h | l | L | Z
  deriving DecidableEq

inductive Conv where
  | o | X | x | d | i | u
  deriving DecidableEq

def Qualifier.byte : Qualifier → Option Byte
  | .int => none
  | .h => some (ch 'h')
  | .l => some (ch 'l')
  | .L => some (ch 'L')
  | .Z => some (ch 'Z')

def Qualifier.size : Qualifier → ℕ
  | .h => 2
  | .L => 8
  | _ => 4

def Conv.byte : Conv → Byte
  | .o => ch 'o'
  | .X => ch 'X'
  | .x => ch 'x'
  | .d => ch 'd'
  | .i => ch 'i'
  | .u => ch 'u'

def Conv.base : Conv → ℕ
  | .o => 8
  | .X | .x => 16
  | _ => 10

def Conv.sign : Conv → Bool
  | .d | .i => true
  | _ => false

def Conv.flags (c : Conv) : Flags := { (default : Flags) with sign := c.sign, large := c = .X }

/-- a conversion behind a separator, with the argument that is printed and the pointer to read it back to -/
structure Item where
  sep : List Byte
  qualifier : Qualifier
  conv : Conv
  low : BitVec 32
  high : BitVec 32
  ptr : BitVec 32

def VaList.push (args : VaList) (a : BitVec 32) : VaList
  | 0 => a
  | i + 1 => args i

def Item.directive (it : Item) (fmt : List Byte) : List Byte := it.qualifier.byte.toList ++ it.conv.byte :: fmt

def formatOf : List Item → List Byte
  | [] => []
  | it :: items => it.sep ++ ch '%' :: it.directive (formatOf items)

/-- the argument of an item takes one word or two -/
def Item.pushOn (it : Item) (args : VaList) : VaList :=
  if it.qualifier = .L then VaList.push (VaList.push args it.high) it.low else VaList.push args it.low

def printArgs (items : List Item) (args : VaList) : VaList := items.foldr Item.pushOn args
def scanArgs (items : List Item) (args : VaList) : VaList := items.foldr (fun it args => VaList.push args it.ptr) args

/-- the argument as number gets it -/
def Item.num (it : Item) : ℕ := (getNumber it.qualifier.byte it.conv.sign (it.pushOn fun _ => 0)).1

def Item.text (it : Item) : List Byte := numberText it.num it.conv.base (-1) (-1) it.conv.flags

def printed (items : List Item) : List Byte := items.flatMap fun it => it.sep ++ it.text

variable {it : Item} {items : List Item} {fmt rest : List Byte} {args : VaList} {fuel : ℕ}

theorem getNumber_push : getNumber it.qualifier.byte it.conv.sign (it.pushOn args) = (it.num, args) := by
  rw [Item.num, Item.pushOn, Item.pushOn]
  cases it.qualifier <;> rfl

/-- a byte that no flag, width or precision starts with -/
def Plain (c : Byte) : Prop :=
  c ≠ ch '-' ∧ c ≠ ch '+' ∧ c ≠ ch ' ' ∧ c ≠ ch '#' ∧ c ≠ ch '0' ∧ isdigit c = false ∧
  c ≠ ch '*' ∧ c ≠ ch '.'

instance (c : Byte) : Decidable (Plain c) := inferInstanceAs (Decidable (_ ∧ _))

theorem parse_plain {c : Byte} (hc : Plain c) : Vsprintf.directive (c :: fmt) args =
    Vsprintf.convert (getQualifier ⟨c :: fmt, args, default, -1, -1, none⟩) := by
  obtain ⟨h1, h2, h3, h4, h5, h6, h7, h8⟩ := hc
  have hflags : flagLoop default (c :: fmt) = (default, c :: fmt) := by
    rw [flagLoop, if_neg h1, if_neg h2, if_neg h3, if_neg h4, if_neg h5]
  have hwidth : getWidth ⟨c :: fmt, args, default, -1, -1, none⟩ = ⟨c :: fmt, args, default, -1, -1, none⟩ := by
    rw [getWidth, List.headD_cons, h6, if_neg Bool.false_ne_true, if_neg h7]
  have hprec : getPrecision ⟨c :: fmt, args, default, -1, -1, none⟩ = ⟨c :: fmt, args, default, -1, -1, none⟩ := by
    rw [getPrecision, List.headD_cons, if_neg h8]
  rw [Vsprintf.directive, hflags]
  dsimp only
  rw [hwidth, hprec]

theorem conv_plain : ∀ c : Conv, Plain c.byte ∧
    ¬ (c.byte = ch 'h' ∨ c.byte = ch 'l' ∨ c.byte = ch 'L' ∨ c.byte = ch 'Z') ∧ isspace c.byte = false := by
  intro c
  cases c <;> decide

theorem qualifier_plain : ∀ q : Qualifier, ∀ c ∈ q.byte, Plain c ∧
    (c = ch 'h' ∨ c = ch 'l' ∨ c = ch 'L' ∨ c = ch 'Z') := by
  intro q
  cases q <;> decide

theorem convert_item : Vsprintf.convert ⟨it.conv.byte :: fmt, it.pushOn args, default, -1, -1, it.qualifier.byte⟩ =
    some (.put it.text, fmt, args) := by
  have hint : Vsprintf.integer ⟨it.conv.byte :: fmt, it.pushOn args, default, -1, -1, it.qualifier.byte⟩ it.conv.base
      it.conv.flags = some (.put it.text, fmt, args) := by
    have hsign : it.conv.flags.sign = it.conv.sign := rfl
    rw [Vsprintf.integer, hsign, getNumber_push]
    dsimp only
    rw [number_eq]
    · rfl
    · cases it.conv <;> decide
    · cases it.conv <;> decide
    · exact getNumber_lt _ _
  rw [← hint, Vsprintf.convert, List.headD_cons]
  cases it.conv <;> simp +decide only [Conv.byte, Conv.base, Conv.flags, Conv.sign, if_true, if_false] <;> rfl

theorem directive_item : Vsprintf.directive (it.directive fmt) (it.pushOn args) = some (.put it.text, fmt, args) := by
  obtain ⟨hplain, hnone, -⟩ := conv_plain it.conv
  rw [Item.directive, ← convert_item]
  cases hq : it.qualifier.byte with
  | none =>
    rw [Option.toList_none, List.nil_append, parse_plain hplain, getQualifier, List.headD_cons]
    dsimp only
    rw [if_neg hnone]
  | some c =>
    obtain ⟨hc, hqual⟩ := qualifier_plain it.qualifier c hq
    rw [Option.toList_some, List.singleton_append, parse_plain hc, getQualifier, List.headD_cons]
    dsimp only
    rw [if_pos hqual, List.tail_cons, List.headD_cons, if_neg fun h => hnone (Or.inr (Or.inl h.2))]

/-! ## Printing -/

/-- separators are plain text, and behind an item they do not go on with a digit -/
def SepsOk (items : List Item) : Prop := ∀ it ∈ items, ∀ c ∈ it.sep, c ≠ 0 ∧ c ≠ ch '%'
def Parted (items : List Item) : Prop := ∀ it ∈ items.tail, it.sep ≠ [] ∧ isxdigit (it.sep.headD 0) = false

instance : DecidablePred SepsOk := fun items => inferInstanceAs (Decidable (∀ it ∈ items, ∀ c ∈ it.sep, _))
instance : DecidablePred Parted := fun items => inferInstanceAs (Decidable (∀ it ∈ items.tail, _))

def effectsOf (items : List Item) : List Effect := items.flatMap fun it => it.sep.map (fun c => .put [c]) ++ [.put it.text]

theorem effects_sep {sep : List Byte} (hsep : ∀ c ∈ sep, c ≠ 0 ∧ c ≠ ch '%') :
    effects (sep.length + fuel) (sep ++ fmt) args = (effects fuel fmt args).map (sep.map (fun c => .put [c]) ++ ·) := by
  induction sep with
  | nil => rw [List.length_nil, Nat.zero_add, List.nil_append]; exact (Option.map_id' ..).symm
  | cons c sep ih =>
    rw [List.length_cons, Nat.add_right_comm, List.cons_append, effects, if_pos (hsep c List.mem_cons_self).2,
      ih fun d hd => hsep d (List.mem_cons_of_mem _ hd), Option.map_map]
    rfl

theorem effects_items (hsep : SepsOk items) (hfuel : (formatOf items).length < fuel) :
    effects fuel (formatOf items) (printArgs items args) = some (effectsOf items) := by
  induction items generalizing fuel with
  | nil =>
    obtain ⟨fuel, rfl⟩ := Nat.exists_eq_add_one.2 (Nat.zero_lt_of_lt hfuel)
    rfl
  | cons it items ih =>
    simp only [formatOf, Item.directive, List.length_append, List.length_cons] at hfuel
    obtain ⟨k, rfl⟩ : ∃ k, fuel = it.sep.length + (k + 1) := ⟨fuel - it.sep.length - 1, by omega⟩
    rw [formatOf, effects_sep (hsep it List.mem_cons_self), effects, if_neg (not_not.2 rfl)]
    have hrest := @ih k (fun jt hj => hsep jt (List.mem_cons_of_mem _ hj)) (by omega)
    rw [printArgs] at hrest
    rw [printArgs, List.foldr_cons, directive_item]
    simp only [Option.bind_eq_bind, Option.bind_some, hrest, Option.map_some]
    rw [effectsOf, effectsOf, List.flatMap_cons, List.append_assoc]
    rfl

theorem text_items {mem : Ptr} : textOf mem (effectsOf items) = printed items := by
  have hsep : ∀ l : List Byte, (l.map fun c => Effect.put [c]).flatMap (Effect.text mem) = l := by
    intro l
    induction l with
    | nil => rfl
    | cons c l ih => rw [List.map_cons, List.flatMap_cons, ih]; rfl
  induction items with
  | nil => rfl
  | cons it items ih =>
    rw [textOf] at ih
    rw [textOf, effectsOf, List.flatMap_cons, List.flatMap_append, List.flatMap_append, hsep, ← effectsOf, ih,
      List.flatMap_singleton]
    rfl

/-! ## Reading -/

/-- the argument, as one number -/
def Item.word (it : Item) : ℕ := it.low.toNat + 2 ^ 32 * it.high.toNat

/-- what reading the item back leaves at its pointer: the bytes that the conversion printed -/
def Item.stored (it : Item) : ℕ × List Byte := (it.ptr.toNat, intBytes it.qualifier.size it.word)

/-- vsscanf reads a number only if its first byte is a decimal digit -/
def Item.Readable (it : Item) : Prop := isdigit (it.text.headD 0)

instance : DecidablePred Item.Readable := fun it => inferInstanceAs (Decidable (isdigit (it.text.headD 0) = true))

theorem intBytes_congr {size : ℕ} {v v' : ℤ} (h : v ≡ v' [ZMOD 2 ^ (8 * size)]) : intBytes size v = intBytes size v' := by
  refine List.map_congr_left fun i hi => ?_
  obtain ⟨q, hq⟩ := h.dvd
  have hi : i < size := List.mem_range.1 hi
  have hpow : (2 : ℤ) ^ (8 * size) * q = 2 ^ (8 * (size - i - 1)) * 2 ^ 8 * q * 2 ^ (8 * i) := by
    have : (2 : ℤ) ^ (8 * size) = 2 ^ (8 * (size - i - 1)) * 2 ^ 8 * 2 ^ (8 * i) := by
      rw [← pow_add, ← pow_add]
      congr 1
      omega
    rw [this]
    ring
  obtain rfl : v' = v + 2 ^ (8 * (size - i - 1)) * 2 ^ 8 * q * 2 ^ (8 * i) := by rw [← hpow]; linarith
  rw [Int.add_mul_ediv_right _ _ (by positivity)]
  apply BitVec.eq_of_toInt_eq
  rw [BitVec.toInt_ofInt, BitVec.toInt_ofInt, mul_right_comm]
  exact (Int.add_mul_bmod_self_right _ _ _).symm

theorem num_word : it.num % 2 ^ (8 * it.qualifier.size) = it.word % 2 ^ (8 * it.qualifier.size) := by
  have hlow := it.low.isLt
  have hhigh := it.high.isLt
  rw [Item.num, Item.pushOn, Item.word]
  cases it.qualifier <;> cases it.conv.sign <;>
    simp +decide only [getNumber, Qualifier.size, VaList.push, signExtend, if_true, if_false] <;>
    (try split_ifs) <;> omega

theorem xdigit_not_space : ∀ c : Byte, isxdigit c → isspace c = false ∧ c ≠ ch '-' ∧ c ≠ 0 := by decide

theorem conv_base (c : Conv) : 2 ≤ c.base ∧ c.base ≤ 16 := by cases c <;> decide

theorem plain_text : it.text = signOf it.conv.flags it.num ++ numeral it.conv.flags.large it.conv.base
    (magnitude it.conv.flags it.num) := by
  have hspecial : specialOf it.conv.flags it.conv.base = [] := rfl
  rw [Item.text, numberText, hspecial]
  generalize numeral it.conv.flags.large it.conv.base (magnitude it.conv.flags it.num) = l
  have hzeros : ((-1 : ℤ) - l.length).toNat = 0 := by omega
  have hroom : ((-1 : ℤ) - (signOf it.conv.flags it.num ++ []).length - max (l.length : ℤ) (-1)).toNat = 0 := by omega
  rw [hzeros, hroom]
  exact congrArg (· ++ l) ((List.append_nil _).trans (List.append_nil _))

theorem signOf_item (n : ℕ) : signOf it.conv.flags n = if it.conv.sign ∧ 2 ^ 63 ≤ n then [ch '-'] else [] := by
  have hsign : it.conv.flags.sign = it.conv.sign := rfl
  have hplus : it.conv.flags.plus = false := rfl
  have hspace : it.conv.flags.space = false := rfl
  rw [signOf, hsign, hplus, hspace]
  cases it.conv.sign <;> simp

/-- the sign, or the first digit -/
theorem text_head : ∃ c l, it.text = c :: l ∧ isspace c = false ∧ c ≠ 0 := by
  obtain ⟨h2, h16⟩ := conv_base it.conv
  obtain ⟨c, l, hcons, hc⟩ := @padded_head _ (magnitude it.conv.flags it.num) 0 it.conv.flags.large h2 h16
  rw [plain_text, signOf_item, show numeral _ _ _ = c :: l from hcons]
  split_ifs
  · exact ⟨_, _, rfl, by decide, by decide⟩
  · exact ⟨c, l, rfl, (xdigit_not_space c hc.1).1, (xdigit_not_space c hc.1).2.2⟩

theorem readable_text (h : it.Readable) : it.text = numeral it.conv.flags.large it.conv.base it.num := by
  have hpos : ¬ (it.conv.sign ∧ 2 ^ 63 ≤ it.num) := by
    intro hneg
    rw [Item.Readable, plain_text, signOf_item, if_pos hneg] at h
    exact absurd (show isdigit (ch '-') = true from h) (by decide)
  have hmag : magnitude it.conv.flags it.num = it.num := if_neg hpos
  rw [plain_text, signOf_item, if_neg hpos, hmag, List.nil_append]

/-- no digit in front of the rest -/
def Ends (rest : List Byte) : Prop := ∀ c ∈ rest.head?, isxdigit c = false

theorem strto_item (h : it.Readable) (hrest : Ends rest) (w : ℕ) :
    strto w (it.text ++ rest) it.conv.base = (it.num % 2 ^ w, rest) := by
  obtain ⟨h2, h16⟩ := conv_base it.conv
  rw [readable_text h]
  exact strto_numeral (k := 0) h2 h16 fun c hc hd => Bool.false_ne_true ((hrest c hc).symm.trans hd.1)

theorem strtoSigned_item (h : it.Readable) (hrest : Ends rest) (w : ℕ) :
    strtoSigned w (it.text ++ rest) it.conv.base = (Int.bmod (it.num % 2 ^ w : ℕ) (2 ^ w), rest) := by
  obtain ⟨h2, h16⟩ := conv_base it.conv
  have hminus : (it.text ++ rest).headD 0 ≠ ch '-' := by
    obtain ⟨c, l, hcons, hc⟩ := @padded_head _ it.num 0 it.conv.flags.large h2 h16
    rw [readable_text h, show numeral _ _ it.num = c :: l from hcons]
    exact (xdigit_not_space c hc.1).2.1
  rw [strtoSigned, if_neg hminus, strto_item h hrest]

/-- a result of enough bits has the bytes of the argument -/
theorem stored_bytes {w : ℕ} (hw : 8 * it.qualifier.size ≤ w) :
    intBytes it.qualifier.size (it.num % 2 ^ w : ℕ) = intBytes it.qualifier.size it.word ∧
      intBytes it.qualifier.size (Int.bmod (it.num % 2 ^ w : ℕ) (2 ^ w)) = intBytes it.qualifier.size it.word := by
  have hdvd : (2 : ℕ) ^ (8 * it.qualifier.size) ∣ 2 ^ w := Nat.pow_dvd_pow 2 hw
  have hcut : ((it.num % 2 ^ w : ℕ) : ℤ) ≡ it.word [ZMOD 2 ^ (8 * it.qualifier.size)] := by
    have hnat : it.num % 2 ^ w ≡ it.word [MOD 2 ^ (8 * it.qualifier.size)] :=
      (Nat.mod_mod_of_dvd _ hdvd).trans num_word
    exact_mod_cast (Int.natCast_modEq_iff.2 hnat)
  have hbmod : Int.bmod (it.num % 2 ^ w : ℕ) (2 ^ w) ≡ (it.num % 2 ^ w : ℕ) [ZMOD 2 ^ (8 * it.qualifier.size)] := by
    have hdvd' : (2 : ℤ) ^ (8 * it.qualifier.size) ∣ ((2 ^ w : ℕ) : ℤ) := by exact_mod_cast hdvd
    exact Int.ModEq.of_dvd hdvd' Int.bmod_emod
  exact ⟨intBytes_congr hcut, intBytes_congr (hbmod.trans hcut)⟩

/-- the scan behind an item whose bytes were b -/
def Scan.behind (s : Scan) (rest b : List Byte) : Scan :=
  { s with num := s.num + 1, str := rest, args := s.args.next, stores := s.stores ++ [((s.args 0).toNat, b)] }

theorem readInteger_item {s : Scan} (h : it.Readable) (hrest : Ends rest) (hstr : s.str = it.text ++ rest) :
    readInteger s it.qualifier.byte it.conv.base it.conv.sign = s.behind rest (intBytes it.qualifier.size it.word) := by
  have hul := strto_item h hrest
  have hl := strtoSigned_item h hrest
  have hbytes := fun {w} => @stored_bytes it w
  rw [readInteger, simpleStrtoul, simpleStrtol, simpleStrtoull, simpleStrtoll, hstr, hul, hul, hl, hl]
  cases hq : it.qualifier with
  | L =>
    rw [hq] at hbytes
    obtain ⟨hb, hb'⟩ := hbytes (w := 64) le_rfl
    simp only [Qualifier.size] at hb hb'
    cases it.conv.sign <;> simp +decide only [Scan.store, if_true, if_false, Qualifier.size, hb, hb'] <;> rfl
  | _ =>
    rw [hq] at hbytes
    obtain ⟨hb, hb'⟩ := hbytes (w := 32) (by decide)
    simp only [Qualifier.size] at hb hb'
    cases it.conv.sign <;> simp +decide only [Scan.store, if_true, if_false, Qualifier.size, hb, hb'] <;> rfl

variable {s : Scan} {text : List Byte}

theorem dropWhile_space {l : List Byte} (hl : isspace (l.headD 0) = false) : l.dropWhile isspace = l := by
  cases l with
  | nil => rfl
  | cons c l => exact List.dropWhile_cons_of_neg (by rw [show isspace c = false from hl]; exact Bool.false_ne_true)

theorem text_append : ∃ c l, it.text ++ rest = c :: l ∧ it.text.headD 0 = c ∧ isspace c = false ∧ c ≠ 0 := by
  obtain ⟨c, l, hcons, hspace, hc0⟩ := @text_head it
  exact ⟨c, l ++ rest, by rw [hcons]; rfl, by rw [hcons]; rfl, hspace, hc0⟩

theorem integer_item (hrest : Ends rest) (hstr : s.str = it.text ++ rest) :
    integer s it.qualifier.byte it.conv.base it.conv.sign =
      if it.Readable then .again (s.behind rest (intBytes it.qualifier.size it.word)) else .done s := by
  obtain ⟨c, l, hcons, hhead, hspace, -⟩ := @text_append it rest
  have hdrop : s.str.dropWhile isspace = s.str := by
    rw [hstr, hcons]
    exact dropWhile_space hspace
  have hne : s.str ≠ [] := by
    rw [hstr, hcons]
    exact List.cons_ne_nil _ _
  have hdigit : isdigit (s.str.headD 0) = isdigit (it.text.headD 0) := by
    rw [hstr, hcons, hhead]
    rfl
  rw [integer, hdrop]
  dsimp only
  split_ifs with hstop hread hread
  · rw [hdigit, show isdigit (it.text.headD 0) = true from hread] at hstop
    exact absurd (hstop.resolve_left hne) (by decide)
  · rfl
  · exact congrArg Turn.again (readInteger_item hread hrest hstr)
  · rw [hdigit] at hstop
    exact absurd (Or.inr (by rw [Bool.eq_false_iff.2 hread]; rfl)) hstop

theorem convert_scan (q : Option Byte) : convert text s q it.conv.byte = integer s q it.conv.base it.conv.sign := by
  rw [convert]
  cases it.conv <;> simp +decide only [if_true, if_false] <;> rfl

theorem directive_scan (hfmt : s.fmt = it.directive fmt) (hstr : s.str ≠ []) :
    directive text s = integer { s with fmt := fmt } it.qualifier.byte it.conv.base it.conv.sign := by
  obtain ⟨hplain, hnone, -⟩ := conv_plain it.conv
  have hgo : ∀ l, ¬ (it.conv.byte :: l = [] ∨ s.str = []) := fun l h => h.elim (fun h => List.cons_ne_nil _ _ h) hstr
  rw [← @convert_scan _ _ text, directive, hfmt, Item.directive]
  cases hq : it.qualifier.byte with
  | none =>
    obtain ⟨-, -, -, -, -, hdigit, hstar, -⟩ := hplain
    rw [Option.toList_none, List.nil_append, List.headD_cons, if_neg hstar, hdigit, if_neg Bool.false_ne_true]
    simp only [hfmt, Item.directive, hq, Option.toList_none, List.nil_append, List.headD_cons, hnone, if_false, hgo,
      List.tail_cons]
  | some c =>
    obtain ⟨⟨-, -, -, -, -, hdigit, hstar, -⟩, hqual⟩ := qualifier_plain it.qualifier c hq
    rw [Option.toList_some, List.singleton_append, List.headD_cons, if_neg hstar, hdigit, if_neg Bool.false_ne_true]
    simp only [hfmt, Item.directive, hq, Option.toList_some, List.singleton_append, List.headD_cons, hqual, if_true,
      hgo, if_false, List.tail_cons]

/-- the scan in front of an item -/
theorem turn_item (hfmt : s.fmt = ch '%' :: it.directive fmt) (hrest : Ends rest) (hstr : s.str = it.text ++ rest) :
    turn text s = if it.Readable then .again ({ s with fmt := fmt }.behind rest (intBytes it.qualifier.size it.word))
      else .done { s with fmt := fmt } := by
  obtain ⟨c, l, hcons, -⟩ := @text_append it rest
  have hne : s.str ≠ [] := by
    rw [hstr, hcons]
    exact List.cons_ne_nil _ _
  have hskip : skipSpace s = s := by
    rw [skipSpace, hfmt, List.headD_cons, if_neg (by decide)]
  rw [turn, hskip, hfmt, if_neg fun h => h.1 rfl, if_neg (List.cons_ne_nil _ _)]
  exact (directive_scan (s := { s with fmt := it.directive fmt }) rfl hne).trans
    (integer_item (s := { s with fmt := fmt }) hrest hstr)

/-! ## A run -/

/-- the white space of a separator is skipped with its next byte or its item -/
theorem turn_skip (s : Scan) : turn text (skipSpace s) = turn text s := by
  have hidem : skipSpace (skipSpace s) = skipSpace s := by
    rw [skipSpace.eq_def s]
    split_ifs with h
    · have hhead : isspace ((s.fmt.dropWhile isspace).headD 0) = false := by
        cases hd : s.fmt.dropWhile isspace with
        | nil => rfl
        | cons c l =>
          have hne : s.fmt.dropWhile isspace ≠ [] := by rw [hd]; exact List.cons_ne_nil _ _
          have hhead := List.head_dropWhile_not isspace hne
          simp only [hd, List.head_cons] at hhead
          exact hhead
      rw [skipSpace, hhead, if_neg Bool.false_ne_true]
    · rw [skipSpace, if_neg h]
  rw [turn, turn, hidem]

theorem loop_again {s' : Scan} (hfmt : s.fmt ≠ []) (hstr : s.str ≠ []) (hturn : turn text s = .again s') :
    loop text (fuel + 1) s = loop text fuel s' := by
  rw [loop, if_neg (by rintro (h | h) <;> contradiction), hturn]

theorem loop_skip (hfmt : (skipSpace s).fmt ≠ []) (hstr : (skipSpace s).str ≠ []) (fuel : ℕ) :
    loop text fuel s = loop text fuel (skipSpace s) := by
  cases fuel with
  | zero => rfl
  | succ fuel =>
    have hne : s.fmt ≠ [] ∧ s.str ≠ [] := by
      rw [skipSpace] at hfmt hstr
      split_ifs at hfmt hstr
      · constructor <;> intro h <;> rw [h] at hfmt hstr <;> contradiction
      · exact ⟨hfmt, hstr⟩
    rw [loop, loop, if_neg (by rintro (h | h) <;> exact absurd h (by simp [hne])),
      if_neg (by rintro (h | h) <;> contradiction), turn_skip]

theorem drop_sep {sep R : List Byte} (hR : isspace (R.headD 0) = false) :
    (sep ++ R).dropWhile isspace = sep.dropWhile isspace ++ R := by
  rw [List.dropWhile_append]
  split_ifs with h
  · rw [dropWhile_space hR, List.isEmpty_iff.1 h, List.nil_append]
  · rfl

/-- a separator in the text is read off against the same one in the format -/
theorem loop_sep {sep F T : List Byte} (hsep : ∀ c ∈ sep, c ≠ 0 ∧ c ≠ ch '%') (hF : isspace (F.headD 0) = false)
    (hF' : F ≠ []) (hT : isspace (T.headD 0) = false) (hT' : T ≠ []) :
    ∃ n ≤ sep.length, ∀ fuel, loop text (fuel + n) { s with fmt := sep ++ F, str := sep ++ T } =
      loop text fuel { s with fmt := F, str := T } := by
  have hnil : ∀ {l R : List Byte}, R ≠ [] → l ++ R ≠ [] := fun hR h => hR (List.append_eq_nil_iff.1 h).2
  induction hlen : sep.length using Nat.strong_induction_on generalizing sep with
  | _ len ih =>
    subst hlen
    cases sep with
    | nil => exact ⟨0, le_rfl, fun _ => rfl⟩
    | cons c sep =>
      rw [List.length_cons] at ih ⊢
      by_cases hc : isspace c = true
      · -- both sides lose their white space, the format and the text the same
        have hshort : ((c :: sep).dropWhile isspace).length ≤ sep.length := by
          rw [List.dropWhile_cons_of_pos hc]
          exact (List.dropWhile_sublist _).length_le
        have hmem : ∀ d ∈ (c :: sep).dropWhile isspace, d ≠ 0 ∧ d ≠ ch '%' := fun d hd =>
          hsep d ((List.dropWhile_sublist _).subset hd)
        have hskip : skipSpace { s with fmt := c :: sep ++ F, str := c :: sep ++ T } =
            { s with fmt := (c :: sep).dropWhile isspace ++ F, str := (c :: sep).dropWhile isspace ++ T } := by
          rw [← drop_sep hF, ← drop_sep hT]
          exact if_pos hc
        obtain ⟨n, hn, hloop⟩ := ih _ (by omega) hmem rfl
        refine ⟨n, by omega, fun fuel => ?_⟩
        rw [← hloop, loop_skip, hskip]
        · rw [hskip]; exact hnil hF'
        · rw [hskip]; exact hnil hT'
      · obtain ⟨n, hn, hloop⟩ := ih sep.length (by omega) (fun d hd => hsep d (List.mem_cons_of_mem _ hd)) rfl
        refine ⟨n + 1, by omega, fun fuel => ?_⟩
        rw [← hloop, ← Nat.add_assoc]
        refine loop_again (List.cons_ne_nil _ _) (List.cons_ne_nil _ _) ?_
        have hskip : skipSpace { s with fmt := c :: sep ++ F, str := c :: sep ++ T } =
            { s with fmt := c :: sep ++ F, str := c :: sep ++ T } := if_neg hc
        rw [turn, hskip]
        exact (if_pos ⟨(hsep c List.mem_cons_self).2, List.cons_ne_nil _ _⟩).trans (if_neg (not_not.2 rfl))

theorem printed_ends (hparted : Parted (it :: items)) : Ends (printed items) := by
  cases items with
  | nil => exact fun c hc => absurd hc (by simp [printed])
  | cons jt items =>
    obtain ⟨hne, hhead⟩ := hparted jt List.mem_cons_self
    obtain ⟨c, sep, hcons⟩ := List.exists_cons_of_ne_nil hne
    intro d hd
    rw [printed, List.flatMap_cons, hcons] at hd
    obtain rfl : c = d := Option.some.inj hd
    rwa [hcons] at hhead

/-- a run reads the items up to the first one that it cannot read -/
theorem loop_items (hsep : SepsOk items) (hparted : Parted items) (hfuel : (formatOf items).length < fuel)
    (hfmt : s.fmt = formatOf items) (hstr : s.str = printed items) (hargs : s.args = scanArgs items args) :
    ∃ s', loop text fuel s = some s' ∧ s'.num = s.num + (items.takeWhile Item.Readable).length ∧
      s'.stores = s.stores ++ (items.takeWhile Item.Readable).map Item.stored := by
  induction items generalizing fuel s with
  | nil =>
    obtain ⟨fuel, rfl⟩ := Nat.exists_eq_add_one.2 (Nat.zero_lt_of_lt hfuel)
    exact ⟨s, if_pos (Or.inl hfmt), rfl, (List.append_nil _).symm⟩
  | cons it items ih =>
    have hrest := printed_ends hparted
    obtain ⟨c, l, hcons, -, hspace, -⟩ := @text_append it (printed items)
    have hsplit : s.str = it.sep ++ (it.text ++ printed items) := by
      rw [hstr, printed, List.flatMap_cons, List.append_assoc]
      rfl
    have hT : it.text ++ printed items ≠ [] := by rw [hcons]; exact List.cons_ne_nil _ _
    -- the separator
    obtain ⟨n, hn, hloop⟩ := @loop_sep s text _ (ch '%' :: it.directive (formatOf items)) _ (hsep it List.mem_cons_self)
      (by rw [List.headD_cons]; decide) (List.cons_ne_nil _ _) (by rw [hcons]; exact hspace) hT
    rw [← hsplit, show it.sep ++ ch '%' :: it.directive (formatOf items) = s.fmt from hfmt.symm] at hloop
    simp only [formatOf, Item.directive, List.length_append, List.length_cons] at hfuel
    obtain ⟨k, rfl⟩ : ∃ k, fuel = k + 1 + n := ⟨fuel - 1 - n, by omega⟩
    -- the item
    have hturn := @turn_item it (formatOf items) (printed items)
      { s with fmt := ch '%' :: it.directive (formatOf items), str := it.text ++ printed items } text rfl hrest rfl
    rw [show s = { s with fmt := s.fmt, str := s.str } from rfl, hloop]
    by_cases hread : it.Readable
    · rw [if_pos hread] at hturn
      rw [loop_again (List.cons_ne_nil _ _) hT hturn, List.takeWhile_cons_of_pos (by simpa using hread)]
      have hnext : s.args.next = scanArgs items args := by rw [hargs]; rfl
      have hptr : (s.args 0) = it.ptr := by rw [hargs]; rfl
      obtain ⟨s', hs', hnum, hstores⟩ := @ih k ({ s with fmt := formatOf items, str := it.text ++ printed items }.behind
        (printed items) (intBytes it.qualifier.size it.word)) (fun jt hj => hsep jt (List.mem_cons_of_mem _ hj))
        (fun jt hj => hparted jt (List.mem_of_mem_tail hj)) (by omega) rfl rfl hnext
      refine ⟨s', hs', ?_, ?_⟩
      · have hnum' : s'.num = s.num + 1 + (items.takeWhile Item.Readable).length := hnum
        rw [hnum', List.length_cons]
        omega
      · have hstores' : s'.stores = s.stores ++ [((s.args 0).toNat, intBytes it.qualifier.size it.word)] ++
            (items.takeWhile Item.Readable).map Item.stored := hstores
        rw [hstores', hptr, List.append_assoc]
        rfl
    · rw [if_neg hread] at hturn
      rw [loop, if_neg (by rintro (h | h); exacts [List.cons_ne_nil _ _ h, hT h]), hturn,
        List.takeWhile_cons_of_neg (by simpa using hread)]
      exact ⟨_, rfl, rfl, (List.append_nil _).symm⟩

theorem printed_nonzero (hsep : SepsOk items) : ∀ c ∈ printed items, c ≠ 0 := by
  intro c hc
  obtain ⟨it, hit, hc⟩ := List.mem_flatMap.1 hc
  rcases List.mem_append.1 hc with h | h
  · exact (hsep it hit c h).1
  · rw [plain_text, signOf_item] at h
    rcases List.mem_append.1 h with h | h
    · split_ifs at h
      · rw [List.mem_singleton.1 h]; decide
      · cases h
    · obtain ⟨h2, h16⟩ := conv_base it.conv
      exact (xdigit_not_space c (numeral_digits h2 h16 c h).1).2.2

/-- the string in a memory is what was written there -/
theorem string_at {mem : Ptr} {buf : ℕ} {l : List Byte} (h : StrAt mem buf l) (hl : ∀ c ∈ l, c ≠ 0)
    (hlen : l.length ≤ 2 ^ 32) :
    strn (2 ^ 32) (mem.add buf) = l := by
  have hcstr : strn (2 ^ 32) (cstr l) = l := by rw [strn_cstr l hl, List.take_of_length_le hlen]
  have hagree : strn (2 ^ 32) (mem.add buf) = strn (2 ^ 32) (cstr l) := by
    refine strn_agree fun i hi => ?_
    rw [hcstr] at hi
    rw [Ptr.add, Nat.add_comm]
    exact h i hi
  rw [hagree, hcstr]

/-- **vsscanf reads back what vsprintf wrote.** For integer conversions of every kind, base and width, between separators that do
not run into a number: with the same format, the arguments come back through the pointers, each as wide as its conversion, up to
the first item whose text does not start with a decimal digit. Such an item ends the scan: a negative number, or a hexadecimal one
that starts with a letter. -/
theorem vsscanf_vsprintf (mem : Ptr) {buf : ℕ} (args ptrs : VaList) (hbuf : 0 < buf)
    (hroom : buf + (printed items).length < 2 ^ 32) (hsep : SepsOk items) (hparted : Parted items) :
    ∃ mem', vsprintf mem buf (formatOf items) (printArgs items args) = some (mem', (printed items).length) ∧
      vsscanf (strn (2 ^ 32) (mem'.add buf)) (formatOf items) (scanArgs items ptrs) =
        some ((items.takeWhile Item.Readable).length, (items.takeWhile Item.Readable).map Item.stored) := by
  have hes := @effects_items items args _ hsep (Nat.lt_succ_self _)
  rw [← @text_items items mem] at hroom
  have hapart : ∀ e ∈ effectsOf items, e.Apart mem buf (2 ^ 32 - 1) (textOf mem (effectsOf items)).length := by
    intro e he
    obtain ⟨it, -, he⟩ := List.mem_flatMap.1 he
    rcases List.mem_append.1 he with h | h
    · obtain ⟨c, -, rfl⟩ := List.mem_map.1 h
      exact trivial
    · rw [List.mem_singleton.1 h]
      exact trivial
  obtain ⟨mem', hprint, hstr, -⟩ := vsprintf_eq hbuf hes hroom hapart
  rw [text_items] at hprint hstr hroom
  refine ⟨mem', hprint, ?_⟩
  rw [string_at hstr (printed_nonzero hsep) (by omega)]
  obtain ⟨s, hs, hnum, hstores⟩ := @loop_items items _ _
    ⟨formatOf items, printed items, scanArgs items ptrs, 0, -1, []⟩ (printed items) hsep hparted
    (Nat.lt_succ_self _) rfl rfl rfl
  rw [vsscanf, hs, Option.map_some, hnum, hstores, Nat.zero_add, List.nil_append]

/-- a decimal and a hexadecimal number, and a negative one that is not read back -/
def threeItems : List Item :=
  [⟨[], .int, .u, 42, 0, 100⟩, ⟨[ch ',', ch ' '], .l, .x, 31, 0, 104⟩, ⟨[ch ' '], .int, .d, 0xFFFFFFFF, 0, 108⟩]

theorem vsscanf_three : ∃ mem', vsprintf (fun _ => 0) 16 (formatOf threeItems) (printArgs threeItems fun _ => 0) =
    some (mem', 9) ∧ vsscanf (strn (2 ^ 32) (mem'.add 16)) (formatOf threeItems) (scanArgs threeItems fun _ => 0) =
      some (2, [(100, [42, 0, 0, 0]), (104, [31, 0, 0, 0])]) :=
  @vsscanf_vsprintf threeItems (fun _ => 0) 16 (fun _ => 0) (fun _ => 0) (by decide) (by decide) (by decide)
    (by decide)

end SinsOs.Vsscanf
