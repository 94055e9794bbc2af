/-
Writing text into a buffer: number, vsnprintf and vsprintf of lib/vsprintf.c.

A format is the list of its bytes in front of the NUL, the arguments are the words of the stack that va_arg reads one after the
other. An int is an integer: what happens behind the overflow of a width or a precision is undefined, and not followed. Every byte
of the text is stored by the same three lines, so that a directive is the bytes that it puts, and only %s and %n use the memory.

- `number_eq`: what number puts for a number, with blanks or zeros up to the width.
- `number_reads_back`: simple_strtoll reads it again.
- `vsnprintf_writes`: vsnprintf writes in its buffer only, leaves the text cut to the size there, with its NUL, and returns the
  length of the whole text. vsprintf writes the whole text, whatever the size of its buffer is.
-/
import SinsOs.Lib.Buffer
import SinsOs.Lib.Div64
import SinsOs.Lib.Strtoul

namespace SinsOs.Vsprintf

open Lib Strtoul Div64

/-! ## Numbers -/

structure Flags where
  zeropad : Bool
  sign : Bool
  plus : Bool
  space : Bool
  left : Bool
  special : Bool
  large : Bool
  deriving DecidableEq, Inhabited

/-- while (size-- > 0) puts c: the bytes, and the size behind the loop -/
def spend (c : Byte) (size : ℤ) : List Byte × ℤ := (.replicate size.toNat c, min size 0 - 1)

/-- the digits in tmp, the lowest first -/
def tmpLoop (large : Bool) (base : ℕ) : ℕ → ℕ → Option (List Byte)
  | 0, _ => none
  | room + 1, num =>
    if num = 0 then some [] else do
      let (quotient, remainder) ← doDiv64 num base
      (tmpLoop large base room quotient).map ((digits large).getD remainder 0 :: ·)

/-- tmp, of 66 bytes -/
def tmpDigits (large : Bool) (base num : ℕ) : Option (List Byte) :=
  if num = 0 then some [ch '0'] else tmpLoop large base 66 num

def signOf (type : Flags) (num : ℕ) : List Byte :=
  if type.sign then
    if 2 ^ 63 ≤ num then [ch '-'] else if type.plus then [ch '+'] else if type.space then [ch ' '] else []
  else []

/-- num = -num in the sign's branch, on the word -/
def magnitude (type : Flags) (num : ℕ) : ℕ := if type.sign ∧ 2 ^ 63 ≤ num then 2 ^ 64 - num else num

def specialOf (type : Flags) (base : ℕ) : List Byte :=
  if type.special then
    if base = 8 then [ch '0'] else if base = 16 then [ch '0', (digits type.large).getD 33 0] else []
  else []

/-- the bytes that number puts -/
def number (num base : ℕ) (size precision : ℤ) (type : Flags) : Option (List Byte) :=
  let zeropad := type.zeropad && !type.left
  if base < 2 ∨ 36 < base then none else do
    let c := if zeropad then ch '0' else ch ' '
    let sign := signOf type num
    let special := specialOf type base
    let size := size - sign.length - special.length
    let tmp ← tmpDigits type.large base (magnitude type num)
    let precision := max (tmp.length : ℤ) precision
    let size := size - precision
    let blanks := if zeropad || type.left then ([], size) else spend (ch ' ') size
    let fill := if type.left then ([], blanks.2) else spend c blanks.2
    let zeros := List.replicate (precision - tmp.length).toNat (ch '0')
    some (blanks.1 ++ sign ++ special ++ fill.1 ++ zeros ++ tmp.reverse ++ (spend (ch ' ') fill.2).1)

/-! ## Formats -/

abbrev VaList := ℕ → BitVec 32

def VaList.next (args : VaList) : VaList := fun i => args (i + 1)

inductive Effect where
  | put : List Byte → Effect
  /-- a string with its width, its precision and LEFT -/
  | string : ℕ → ℤ → ℤ → Bool → Effect
  | store : ℕ → Effect

def flagLoop : Flags → List Byte → Flags × List Byte
  | flags, [] => (flags, [])
  | flags, c :: fmt =>
    if c = ch '-' then flagLoop { flags with left := true } fmt
    else if c = ch '+' then flagLoop { flags with plus := true } fmt
    else if c = ch ' ' then flagLoop { flags with space := true } fmt
    else if c = ch '#' then flagLoop { flags with special := true } fmt
    else if c = ch '0' then flagLoop { flags with zeropad := true } fmt
    else (flags, c :: fmt)

def skipAtoi : ℕ → List Byte → ℕ × List Byte
  | i, [] => (i, [])
  | i, c :: s => if isdigit c then skipAtoi (i * 10 + (c.toNat - '0'.toNat)) s else (i, c :: s)

/-- a directive while it is parsed, fmt and args being what is left of them -/
structure Directive where
  fmt : List Byte
  args : VaList
  flags : Flags
  fieldWidth : ℤ
  precision : ℤ
  qualifier : Option Byte

def getWidth (d : Directive) : Directive :=
  if isdigit (d.fmt.headD 0) then { d with fieldWidth := (skipAtoi 0 d.fmt).1, fmt := (skipAtoi 0 d.fmt).2 }
  else if d.fmt.headD 0 = ch '*' then
    let width := (d.args 0).toInt
    if width < 0 then
      { d with fmt := d.fmt.tail, args := d.args.next, fieldWidth := -width, flags := { d.flags with left := true } }
    else { d with fmt := d.fmt.tail, args := d.args.next, fieldWidth := width }
  else d

def getPrecision (d : Directive) : Directive :=
  if d.fmt.headD 0 = ch '.' then
    let d := { d with fmt := d.fmt.tail }
    if isdigit (d.fmt.headD 0) then { d with precision := (skipAtoi 0 d.fmt).1, fmt := (skipAtoi 0 d.fmt).2 }
    else if d.fmt.headD 0 = ch '*' then
      { d with fmt := d.fmt.tail, args := d.args.next, precision := max 0 (d.args 0).toInt }
    else { d with precision := 0 }
  else d

def getQualifier (d : Directive) : Directive :=
  let c := d.fmt.headD 0
  if c = ch 'h' ∨ c = ch 'l' ∨ c = ch 'L' ∨ c = ch 'Z' then
    let fmt := d.fmt.tail
    if c = ch 'l' ∧ fmt.headD 0 = ch 'l' then { d with qualifier := some (ch 'L'), fmt := fmt.tail }
    else { d with qualifier := some c, fmt := fmt }
  else d

/-- a word of k bits as a long long -/
def signExtend (k w : ℕ) : ℕ := if w < 2 ^ (k - 1) then w else w + (2 ^ 64 - 2 ^ k)

def getNumber (qualifier : Option Byte) (sign : Bool) (args : VaList) : ℕ × VaList :=
  let word := (args 0).toNat
  if qualifier = some (ch 'L') then (word + 2 ^ 32 * (args 1).toNat, args.next.next)
  else if qualifier = some (ch 'l') then (if sign then signExtend 32 word else word, args.next)
  else if qualifier = some (ch 'Z') then (word, args.next)
  else if qualifier = some (ch 'h') then (if sign then signExtend 16 (word % 2 ^ 16) else word % 2 ^ 16, args.next)
  else (if sign then signExtend 32 word else word, args.next)

def integer (d : Directive) (base : ℕ) (flags : Flags) : Option (Effect × List Byte × VaList) :=
  let (num, args) := getNumber d.qualifier flags.sign d.args
  (number num base d.fieldWidth d.precision flags).map fun text => (.put text, d.fmt.tail, args)

/-- the switch on the conversion -/
def convert (d : Directive) : Option (Effect × List Byte × VaList) :=
  let c := d.fmt.headD 0
  if c = ch 'c' then
    let pad := spend (ch ' ') (d.fieldWidth - 1)
    let text := [(d.args 0).truncate 8]
    some (.put (if d.flags.left then text ++ pad.1 else pad.1 ++ text ++ (spend (ch ' ') pad.2).1), d.fmt.tail, d.args.next)
  else if c = ch 's' then some (.string (d.args 0).toNat d.fieldWidth d.precision d.flags.left, d.fmt.tail, d.args.next)
  else if c = ch 'p' then
    let width := if d.fieldWidth = -1 then 8 else d.fieldWidth
    let flags := if d.fieldWidth = -1 then { d.flags with zeropad := true } else d.flags
    (number (d.args 0).toNat 16 width d.precision flags).map fun text => (.put text, d.fmt.tail, d.args.next)
  else if c = ch 'n' then some (.store (d.args 0).toNat, d.fmt.tail, d.args.next)
  else if c = ch '%' then some (.put [ch '%'], d.fmt.tail, d.args)
  else if c = ch 'o' then integer d 8 d.flags
  else if c = ch 'X' then integer d 16 { d.flags with large := true }
  else if c = ch 'x' then integer d 16 d.flags
  else if c = ch 'd' ∨ c = ch 'i' then integer d 10 { d.flags with sign := true }
  else if c = ch 'u' then integer d 10 d.flags
  else some (.put (ch '%' :: d.fmt.take 1), d.fmt.tail, d.args)

/-- what a directive does, fmt being behind its '%', with what is left of the format and of the arguments -/
def directive (fmt : List Byte) (args : VaList) : Option (Effect × List Byte × VaList) :=
  let (flags, fmt) := flagLoop default fmt
  convert (getQualifier (getPrecision (getWidth ⟨fmt, args, flags, -1, -1, none⟩)))

/-- the loop over the format -/
def effects : ℕ → List Byte → VaList → Option (List Effect)
  | 0, _, _ => none
  | _ + 1, [], _ => some []
  | fuel + 1, c :: fmt, args =>
    if c ≠ ch '%' then (effects fuel fmt args).map (.put [c] :: ·) else do
      let (e, fmt, args) ← directive fmt args
      (effects fuel fmt args).map (e :: ·)

/-! ## Output -/

structure Out where
  mem : Ptr
  str : ℕ

/-- if (str <= end) *str = c; ++str -/
def put (last : ℕ) (o : Out) (c : Byte) : Out :=
  ⟨if o.str ≤ last then Function.update o.mem o.str c else o.mem, (o.str + 1) % 2 ^ 32⟩

def puts (last : ℕ) (o : Out) (l : List Byte) : Out := l.foldl (put last) o

/-- the loop that copies len bytes from s -/
def copy (last : ℕ) : ℕ → ℕ → Out → Out
  | 0, _, o => o
  | len + 1, s, o => copy last len (s + 1) (put last o (o.mem s))

def nullText : List Byte := ['<', 'N', 'U', 'L', 'L', '>'].map ch

/-- if (!s) s = "<NULL>" -/
def stringAt (mem : Ptr) (s : ℕ) : Ptr := if s = 0 then cstr nullText else mem.add s

def putString (last : ℕ) (o : Out) (s len : ℕ) : Out := if s = 0 then puts last o (nullText.take len) else copy last len s o

def store32 (mem : Ptr) (p n : ℕ) : Ptr :=
  (List.range 4).foldl (fun mem i => Function.update mem (p + i) (BitVec.ofNat 8 (n / 2 ^ (8 * i)))) mem

def perform (last buf : ℕ) (o : Out) : Effect → Out
  | .put l => puts last o l
  | .string s width precision left =>
    let len := strnlen (stringAt o.mem s) (u32 precision)
    let pad := if left then ([], width - len) else spend (ch ' ') (width - len)
    puts last (putString last (puts last o pad.1) s len) (spend (ch ' ') pad.2).1
  | .store ip => { o with mem := store32 o.mem ip ((o.str + 2 ^ 32 - buf) % 2 ^ 32) }

/-- the memory and str - buf -/
def vsnprintf (mem : Ptr) (buf size : ℕ) (fmt : List Byte) (args : VaList) : Option (Ptr × ℕ) := do
  let last := (buf + size + (2 ^ 32 - 1)) % 2 ^ 32
  let wrapped := last < (buf + (2 ^ 32 - 1)) % 2 ^ 32
  let last := if wrapped then 2 ^ 32 - 1 else last
  let size := if wrapped then (last + 2 ^ 32 - buf + 1) % 2 ^ 32 else size
  let es ← effects (fmt.length + 1) fmt args
  let o := es.foldl (perform last buf) ⟨mem, buf⟩
  let mem := if o.str ≤ last then Function.update o.mem o.str 0 else if 0 < size then Function.update o.mem last 0 else o.mem
  some (mem, (o.str + 2 ^ 32 - buf) % 2 ^ 32)

def vsprintf (mem : Ptr) (buf : ℕ) (fmt : List Byte) (args : VaList) : Option (Ptr × ℕ) :=
  vsnprintf mem buf 0xFFFFFFFF fmt args

/-! ## What number puts -/

variable {num base room : ℕ} {size precision : ℤ} {type : Flags} {large : Bool}

/-- the sign and the 0x, then at least precision digits, and blanks or zeros up to the width -/
def numberText (num base : ℕ) (size precision : ℤ) (type : Flags) : List Byte :=
  let digits := numeral type.large base (magnitude type num)
  let zeros := List.replicate (precision - digits.length).toNat (ch '0')
  let lead := signOf type num ++ specialOf type base
  let room := (size - lead.length - max (digits.length : ℤ) precision).toNat
  if type.left then lead ++ zeros ++ digits ++ .replicate room (ch ' ')
  else if type.zeropad then lead ++ .replicate room (ch '0') ++ zeros ++ digits
  else .replicate room (ch ' ') ++ lead ++ zeros ++ digits

theorem tmpLoop_eq (hbase : 2 ≤ base) (hcut : base < 2 ^ 32) (hnum : num < 2 ^ 64) (hroom : (base.digits num).length < room) :
    tmpLoop large base room num = some ((base.digits num).map ((digits large).getD · 0)) := by
  induction room generalizing num with
  | zero => cases hroom
  | succ room ih =>
    rw [tmpLoop]
    split_ifs with h0
    · rw [h0, Nat.digits_zero, List.map_nil]
    · have hdigits := Nat.digits_def' hbase (Nat.pos_of_ne_zero h0)
      rw [hdigits, List.length_cons] at hroom
      rw [doDiv64_eq hnum (by omega) hcut, hdigits, List.map_cons]
      simp only [Option.bind_eq_bind, Option.bind_some]
      rw [ih ((Nat.div_le_self _ _).trans_lt hnum) (by omega), Option.map_some]

theorem magnitude_lt (hnum : num < 2 ^ 64) : magnitude type num < 2 ^ 64 := by
  rw [magnitude]
  split_ifs <;> omega

theorem tmpDigits_eq (hbase : 2 ≤ base) (hcut : base < 2 ^ 32) (hnum : num < 2 ^ 64) :
    tmpDigits large base num = some (numeral large base num).reverse := by
  rw [tmpDigits, numeral]
  split_ifs
  · rfl
  · have hlen : (base.digits num).length ≤ 64 :=
      (Nat.digits_length_le_iff hbase num).2 (hnum.trans_le (Nat.pow_le_pow_left hbase 64))
    rw [tmpLoop_eq hbase hcut hnum (by omega), List.reverse_reverse]

/-- **What number puts.** -/
theorem number_eq (hbase : 2 ≤ base) (h36 : base ≤ 36) (hnum : num < 2 ^ 64) :
    number num base size precision type = some (numberText num base size precision type) := by
  have hok : ¬ (base < 2 ∨ 36 < base) := by omega
  rw [number, if_neg hok, tmpDigits_eq hbase (by omega) (magnitude_lt hnum)]
  simp only [Option.bind_eq_bind, Option.bind_some, List.length_reverse, List.reverse_reverse]
  rw [numberText]
  generalize numeral type.large base (magnitude type num) = l
  generalize hroom : size - (signOf type num).length - (specialOf type base).length - max (l.length : ℤ) precision = room
  have hroom' : size - ((signOf type num ++ specialOf type base).length : ℤ) - max (l.length : ℤ) precision = room := by
    rw [List.length_append]
    omega
  have hzeros : (max (l.length : ℤ) precision - l.length).toNat = (precision - l.length).toNat := by omega
  simp only [hroom', hzeros]
  -- a loop leaves less than zero of the size, so that no later one puts anything
  cases type.left <;> cases type.zeropad <;> simp [spend]

variable {d : Directive} {fmt : List Byte} {args : VaList}

theorem flagLoop_length : ∀ (flags : Flags) (fmt : List Byte), (flagLoop flags fmt).2.length ≤ fmt.length
  | _, [] => le_rfl
  | flags, c :: fmt => by
    rw [flagLoop]
    split_ifs
    all_goals first | exact (flagLoop_length _ fmt).trans (Nat.le_succ _) | exact le_rfl

theorem skipAtoi_length : ∀ (i : ℕ) (s : List Byte), (skipAtoi i s).2.length ≤ s.length
  | _, [] => le_rfl
  | i, c :: s => by
    rw [skipAtoi]
    split_ifs
    · exact (skipAtoi_length _ s).trans (Nat.le_succ _)
    · exact le_rfl

theorem tail_length (l : List Byte) : l.tail.length ≤ l.length := by
  rw [List.length_tail]
  exact Nat.sub_le _ _

theorem getWidth_length : (getWidth d).fmt.length ≤ d.fmt.length := by
  rw [getWidth]
  split_ifs
  · exact skipAtoi_length 0 d.fmt
  · exact (apply_ite (fun d : Directive => d.fmt.length ≤ _) _ _ _).mpr (by split_ifs <;> exact tail_length _)
  · exact le_rfl

theorem getPrecision_length : (getPrecision d).fmt.length ≤ d.fmt.length := by
  rw [getPrecision]
  dsimp only
  split_ifs
  · exact (skipAtoi_length 0 _).trans (tail_length _)
  · exact (tail_length _).trans (tail_length _)
  · exact tail_length _
  · exact le_rfl

theorem getQualifier_length : (getQualifier d).fmt.length ≤ d.fmt.length := by
  rw [getQualifier]
  dsimp only
  split_ifs
  · exact (tail_length _).trans (tail_length _)
  · exact tail_length _
  · exact le_rfl

theorem getNumber_lt (qualifier : Option Byte) (sign : Bool) : (getNumber qualifier sign args).1 < 2 ^ 64 := by
  have h0 := (args 0).isLt
  have h1 := (args 1).isLt
  rw [getNumber]
  dsimp only [signExtend]
  split_ifs <;> dsimp only <;> omega

/-- a conversion takes one byte of the format -/
def Converts (d : Directive) (r : Option (Effect × List Byte × VaList)) : Prop := ∃ e args, r = some (e, d.fmt.tail, args)

theorem integer_some (hbase : 2 ≤ base) (h36 : base ≤ 36) (flags : Flags) : Converts d (integer d base flags) := by
  rw [integer]
  dsimp only
  rw [number_eq hbase h36 (getNumber_lt _ _)]
  exact ⟨_, _, rfl⟩

theorem convert_some : Converts d (convert d) := by
  have hp : (d.args 0).toNat < 2 ^ 64 := (d.args 0).isLt.trans (by norm_num)
  have hother : ∀ e args, Converts d (some (e, d.fmt.tail, args)) := fun e args => ⟨e, args, rfl⟩
  rw [convert]
  dsimp only
  rw [number_eq (by norm_num) (by norm_num) hp]
  iterate 5 refine iteInduction (motive := Converts d) (fun _ => hother _ _) fun _ => ?_
  iterate 5 refine iteInduction (motive := Converts d) (fun _ => integer_some (by norm_num) (by norm_num) _) fun _ => ?_
  exact hother _ _

theorem directive_some : ∃ e fmt' args', directive fmt args = some (e, fmt', args') ∧ fmt'.length ≤ fmt.length := by
  rw [directive]
  dsimp only
  obtain ⟨e, args', he⟩ := convert_some (d := getQualifier (getPrecision (getWidth
    ⟨(flagLoop default fmt).2, args, (flagLoop default fmt).1, -1, -1, none⟩)))
  refine ⟨e, _, args', he, ?_⟩
  calc _ ≤ _ := tail_length _
    _ ≤ _ := getQualifier_length
    _ ≤ _ := getPrecision_length
    _ ≤ (flagLoop default fmt).2.length := getWidth_length
    _ ≤ fmt.length := flagLoop_length _ _

theorem effects_some {fuel : ℕ} (hfuel : fmt.length < fuel) : ∃ es, effects fuel fmt args = some es := by
  induction fuel generalizing fmt args with
  | zero => cases hfuel
  | succ fuel ih =>
    cases fmt with
    | nil => exact ⟨[], rfl⟩
    | cons c fmt =>
      rw [List.length_cons] at hfuel
      rw [effects]
      split_ifs
      · obtain ⟨es, hes⟩ := @ih fmt args (by omega)
        exact ⟨_, by rw [hes]; rfl⟩
      · obtain ⟨e, fmt', args', he, hlen⟩ := @directive_some fmt args
        obtain ⟨es, hes⟩ := @ih fmt' args' (by omega)
        exact ⟨e :: es, by simp only [he, Option.bind_eq_bind, Option.bind_some, hes, Option.map_some]⟩

/-! ## What is in the buffer -/

variable {mem : Ptr} {buf last total : ℕ} {o : Out} {t l : List Byte} {e : Effect} {es : List Effect}

/-- the text of an effect, with the strings of a memory -/
def Effect.text (mem : Ptr) : Effect → List Byte
  | .put l => l
  | .string s width precision left =>
    let str := strn (u32 precision) (stringAt mem s)
    let pad := List.replicate (width - str.length).toNat (ch ' ')
    if left then str ++ pad else pad ++ str
  | .store _ => []

def textOf (mem : Ptr) (es : List Effect) : List Byte := es.flatMap (Effect.text mem)

/-- no byte of a text of that length at buf, up to last -/
def Outside (buf last total a : ℕ) : Prop := a < buf ∨ last < a ∨ buf + total ≤ a

/-- no %n, and a string does not lie where the text goes -/
def Effect.Apart (mem : Ptr) (buf last total : ℕ) : Effect → Prop
  | .put _ => True
  | .string s _ precision _ => s = 0 ∨ ∀ i ≤ (strn (u32 precision) (stringAt mem s)).length, Outside buf last total (s + i)
  | .store _ => False

/-- the text t is at buf, up to last, and the rest is as in mem -/
structure Holds (mem : Ptr) (buf last : ℕ) (o : Out) (t : List Byte) : Prop where
  str : o.str = buf + t.length
  text : ∀ i < t.length, buf + i ≤ last → o.mem (buf + i) = cstr t i
  frame : ∀ a, Outside buf last t.length a → o.mem a = mem a

theorem Outside.mono {k a : ℕ} (h : Outside buf last total a) (hk : k ≤ total) : Outside buf last k a := by
  rcases h with h | h | h
  · exact Or.inl h
  · exact Or.inr (Or.inl h)
  · exact Or.inr (Or.inr (by omega))

theorem holds_put (h : Holds mem buf last o t) (hroom : buf + t.length + 1 < 2 ^ 32) (c : Byte) :
    Holds mem buf last (put last o c) (t ++ [c]) := by
  have hmem : ∀ a, a ≠ buf + t.length ∨ last < a → (put last o c).mem a = o.mem a := by
    intro a ha
    rw [put]
    split_ifs with hle
    · exact Function.update_of_ne (by rw [h.str] at hle ⊢; omega) _ _
    · rfl
  refine ⟨?_, fun i hi hle => ?_, fun a ha => ?_⟩
  · rw [List.length_append, List.length_singleton, put, h.str, Nat.mod_eq_of_lt hroom]
    rfl
  · rw [List.length_append, List.length_singleton] at hi
    rw [cstr_append]
    split_ifs with hlt
    · rw [hmem _ (Or.inl (by omega)), h.text i hlt hle]
    · obtain rfl : i = t.length := by omega
      rw [put, if_pos (h.str ▸ hle), h.str, Nat.sub_self]
      exact Function.update_self ..
  · rw [List.length_append, List.length_singleton] at ha
    have hne : a ≠ buf + t.length ∨ last < a := by
      rcases ha with h | h | h
      · exact Or.inl (by omega)
      · exact Or.inr h
      · exact Or.inl (by omega)
    rw [hmem a hne, h.frame a (ha.mono (Nat.le_succ _))]

theorem holds_puts (h : Holds mem buf last o t) (hroom : buf + (t ++ l).length < 2 ^ 32) :
    Holds mem buf last (puts last o l) (t ++ l) := by
  induction l generalizing o t with
  | nil => rwa [List.append_nil]
  | cons c l ih =>
    simp only [List.length_append, List.length_cons] at hroom
    have := ih (holds_put h (by omega) c) (by simp only [List.length_append, List.length_cons, List.length_nil]; omega)
    rwa [List.append_assoc, List.singleton_append] at this

theorem holds_copy {len s : ℕ} (h : Holds mem buf last o t) (hroom : buf + t.length + len < 2 ^ 32)
    (hs : ∀ i < len, Outside buf last (t.length + len) (s + i)) :
    Holds mem buf last (copy last len s o) (t ++ (List.range' s len).map mem) := by
  induction len generalizing o t s with
  | zero => rwa [List.range'_zero, List.map_nil, List.append_nil]
  | succ len ih =>
    have hlen : (t ++ [mem s]).length = t.length + 1 := List.length_append
    have hread : o.mem s = mem s := h.frame s ((hs 0 len.succ_pos).mono (by omega))
    have hnext := ih (s := s + 1) (holds_put h (by omega) (o.mem s)) (by rw [hread, hlen]; omega) fun i hi => by
      have := hs (i + 1) (by omega)
      rwa [hread, hlen, show t.length + 1 + len = t.length + (len + 1) by omega, show s + 1 + i = s + (i + 1) by omega]
    rw [hread, List.append_assoc, List.singleton_append] at hnext
    rwa [copy, hread, List.range'_succ, List.map_cons]

theorem strn_agree {n : ℕ} {p q : Ptr} (h : ∀ i ≤ (strn n p).length, q i = p i) : strn n q = strn n p := by
  induction n generalizing p q with
  | zero => rfl
  | succ n ih =>
    have h0 : q 0 = p 0 := h 0 (Nat.zero_le _)
    rw [strn] at h
    rw [strn, strn, h0]
    split_ifs at h ⊢ with hend
    · rfl
    · rw [List.length_cons] at h
      rw [ih (p := p.add 1) (q := q.add 1) fun i hi => h (i + 1) (Nat.succ_le_succ hi)]

theorem strn_map {n s : ℕ} : strn n (mem.add s) = (List.range' s (strn n (mem.add s)).length).map mem := by
  induction n generalizing s with
  | zero => rfl
  | succ n ih =>
    have hadd : (mem.add s).add 1 = mem.add (s + 1) := by
      funext i
      exact congrArg mem (by omega)
    have hhead : mem.add s 0 = mem s := congrArg mem (Nat.zero_add s)
    rw [strn, hadd, hhead]
    split_ifs
    · rfl
    · rw [List.length_cons, List.range'_succ, List.map_cons, ← ih]

/-- the string is the same while the text is written -/
theorem string_kept {n s : ℕ} (h : Holds mem buf last o t) (htotal : t.length ≤ total)
    (hs : s = 0 ∨ ∀ i ≤ (strn n (stringAt mem s)).length, Outside buf last total (s + i)) :
    strn n (stringAt o.mem s) = strn n (stringAt mem s) := by
  rw [stringAt, stringAt] at *
  split_ifs at * with h0
  · rfl
  · refine strn_agree fun i hi => h.frame _ ?_
    rw [Nat.add_comm i s]
    exact (hs.resolve_left h0 i hi).mono htotal

theorem holds_string {n s : ℕ} (h : Holds mem buf last o t) (htotal : (t ++ strn n (stringAt mem s)).length ≤ total)
    (hroom : buf + total < 2 ^ 32) (hs : s = 0 ∨ ∀ i ≤ (strn n (stringAt mem s)).length, Outside buf last total (s + i)) :
    Holds mem buf last (putString last o s (strn n (stringAt mem s)).length) (t ++ strn n (stringAt mem s)) := by
  rw [putString, stringAt] at *
  split_ifs at * with h0
  · have hnull : strn n (cstr nullText) = nullText.take n := strn_cstr nullText (by decide) n
    have htake : nullText.take (nullText.take n).length = nullText.take n := by
      rw [List.length_take, ← List.take_take, List.take_length]
    rw [hnull] at htotal ⊢
    rw [htake]
    exact holds_puts h (by omega)
  · rw [List.length_append] at htotal
    have hcopy := @holds_copy _ _ _ _ _ (strn n (mem.add s)).length s h (by omega) fun i hi =>
      (hs.resolve_left h0 i hi.le).mono htotal
    rwa [← strn_map] at hcopy

/-- an effect puts its text -/
theorem holds_perform (h : Holds mem buf last o t) (he : e.Apart mem buf last total)
    (htotal : (t ++ e.text mem).length ≤ total) (hroom : buf + total < 2 ^ 32) :
    Holds mem buf last (perform last buf o e) (t ++ e.text mem) := by
  cases e with
  | put l => exact holds_puts h (lt_of_le_of_lt (Nat.add_le_add_left htotal _) hroom)
  | store ip => exact he.elim
  | string s width precision left =>
    have hle : t.length ≤ total := le_trans (by rw [List.length_append]; exact Nat.le_add_right _ _) htotal
    have hstring := fun {o t} (ho : Holds mem buf last o t) h => holds_string (n := u32 precision) (s := s) ho h hroom he
    rw [perform, strnlen_eq, string_kept h hle he]
    rw [Effect.text] at htotal ⊢
    generalize strn (u32 precision) (stringAt mem s) = str at htotal hstring ⊢
    generalize hpad : List.replicate (width - (str.length : ℤ)).toNat (ch ' ') = pad at htotal ⊢
    have hspend : (spend (ch ' ') (width - str.length)).1 = pad := hpad
    cases left with
    | true =>
      rw [if_pos rfl] at htotal ⊢
      rw [if_pos rfl, hspend, ← List.append_assoc]
      rw [← List.append_assoc] at htotal
      exact holds_puts (hstring h (le_trans (by rw [@List.length_append _ _ pad]; exact Nat.le_add_right _ _) htotal)) (by omega)
    | false =>
      have hnone : (spend (ch ' ') (spend (ch ' ') (width - str.length)).2).1 = [] := by
        have hneg : (min (width - (str.length : ℤ)) 0 - 1).toNat = 0 := by omega
        rw [spend, spend, hneg, List.replicate_zero]
      rw [if_neg Bool.false_ne_true] at htotal ⊢
      rw [if_neg Bool.false_ne_true, hspend, hnone, ← List.append_assoc]
      rw [← List.append_assoc] at htotal
      have hput := holds_puts (l := pad) h (by rw [List.length_append] at htotal; omega)
      exact hstring hput htotal

theorem holds_run (h : Holds mem buf last o t) (hes : ∀ e ∈ es, e.Apart mem buf last total)
    (htotal : (t ++ textOf mem es).length ≤ total) (hroom : buf + total < 2 ^ 32) :
    Holds mem buf last (es.foldl (perform last buf) o) (t ++ textOf mem es) := by
  induction es generalizing o t with
  | nil => rwa [textOf, List.flatMap_nil, List.append_nil]
  | cons e es ih =>
    rw [textOf, List.flatMap_cons, ← List.append_assoc] at htotal ⊢
    have hfirst : (t ++ e.text mem).length ≤ total :=
      le_trans (by rw [@List.length_append _ _ (List.flatMap _ es)]; exact Nat.le_add_right _ _) htotal
    exact ih (holds_perform h (hes e List.mem_cons_self) hfirst hroom) (fun e he => hes e (List.mem_cons_of_mem _ he)) htotal

/-- the bytes that vsnprintf may write: up to the end of the memory, where the size goes further -/
def roomOf (buf size : ℕ) : ℕ := if buf + size ≤ 2 ^ 32 then size else 2 ^ 32 - buf

/-- end and size as vsnprintf leaves them -/
theorem clamp {size : ℕ} (hbuf : 0 < buf) (hbuf' : buf < 2 ^ 32) (hsize : size < 2 ^ 32) :
    let last := (buf + size + (2 ^ 32 - 1)) % 2 ^ 32
    let wrapped := last < (buf + (2 ^ 32 - 1)) % 2 ^ 32
    let last' := if wrapped then 2 ^ 32 - 1 else last
    last' = buf + roomOf buf size - 1 ∧ (if wrapped then (last' + 2 ^ 32 - buf + 1) % 2 ^ 32 else size) = roomOf buf size := by
  dsimp only
  rw [roomOf]
  split_ifs <;> omega

/-- the NUL behind the text, or over its last byte -/
theorem terminated {room : ℕ} (h : Holds mem buf (buf + room - 1) o t) (hbuf : 0 < buf) :
    let mem' := if o.str ≤ buf + room - 1 then Function.update o.mem o.str 0
      else if 0 < room then Function.update o.mem (buf + room - 1) 0 else o.mem
    (0 < room → StrAt mem' buf (t.take (room - 1))) ∧ ∀ a, a < buf ∨ buf + min room (t.length + 1) ≤ a →
    mem' a = mem a := by
  dsimp only
  rw [h.str]
  split_ifs with hfits hroom
  · rw [List.take_of_length_le (by omega)]
    refine ⟨fun _ i hi => ?_, fun a ha => ?_⟩
    · rcases Nat.eq_or_lt_of_le hi with rfl | hlt
      · rw [Function.update_self, cstr_end]
      · rw [Function.update_of_ne (by omega), h.text i hlt (by omega)]
    · rw [Function.update_of_ne (by omega)]
      refine h.frame a ?_
      rw [Outside]
      omega
  · refine ⟨fun _ i hi => ?_, fun a ha => ?_⟩
    · rw [List.length_take] at hi
      rcases Nat.lt_or_ge i (room - 1) with hlt | hge
      · rw [Function.update_of_ne (by omega), h.text i (by omega) (by omega), cstr, cstr, List.getD_eq_getElem?_getD,
          List.getD_eq_getElem?_getD, List.getElem?_take_of_lt hlt]
      · obtain rfl : i = room - 1 := by omega
        rw [show buf + (room - 1) = buf + room - 1 by omega, Function.update_self, cstr, List.getD_eq_getElem?_getD,
          List.getElem?_eq_none (by rw [List.length_take]; omega)]
        rfl
    · rw [Function.update_of_ne (by omega)]
      refine h.frame a ?_
      rw [Outside]
      omega
  · refine ⟨fun h => absurd h hroom, fun a ha => h.frame a ?_⟩
    rw [Outside]
    omega

theorem vsnprintf_eq {size : ℕ} (hbuf : 0 < buf) (hbuf' : buf < 2 ^ 32) (hsize : size < 2 ^ 32)
    (hes : effects (fmt.length + 1) fmt args = some es) (hroom : buf + (textOf mem es).length < 2 ^ 32)
    (hapart : ∀ e ∈ es, e.Apart mem buf (buf + roomOf buf size - 1) (textOf mem es).length) :
    ∃ mem', vsnprintf mem buf size fmt args = some (mem', (textOf mem es).length) ∧
      (0 < roomOf buf size → StrAt mem' buf ((textOf mem es).take (roomOf buf size - 1))) ∧
      ∀ a, a < buf ∨ buf + min (roomOf buf size) ((textOf mem es).length + 1) ≤ a → mem' a = mem a := by
  obtain ⟨hlast, hcut⟩ := clamp hbuf hbuf' hsize
  have hstart : Holds mem buf (buf + roomOf buf size - 1) ⟨mem, buf⟩ [] :=
    ⟨rfl, fun i hi => absurd hi (Nat.not_lt_zero i), fun a _ => rfl⟩
  have hrun := holds_run hstart hapart le_rfl hroom
  rw [List.nil_append] at hrun
  obtain ⟨hstr, hframe⟩ := terminated hrun hbuf
  have hret : ((es.foldl (perform (buf + roomOf buf size - 1) buf) ⟨mem, buf⟩).str + 2 ^ 32 - buf) % 2 ^ 32 =
      (textOf mem es).length := by
    rw [hrun.str]
    omega
  refine ⟨_, ?_, hstr, hframe⟩
  rw [vsnprintf, hes]
  dsimp only at hlast hcut ⊢
  rw [hcut, hlast]
  simp only [Option.bind_eq_bind, Option.bind_some, hret]

/-- vsprintf writes the whole text and its NUL, whatever the buffer is -/
theorem vsprintf_eq (hbuf : 0 < buf) (hes : effects (fmt.length + 1) fmt args = some es)
    (hroom : buf + (textOf mem es).length < 2 ^ 32) (hapart : ∀ e ∈ es, e.Apart mem buf (2 ^ 32 - 1) (textOf mem es).length) :
    ∃ mem', vsprintf mem buf fmt args = some (mem', (textOf mem es).length) ∧ StrAt mem' buf (textOf mem es) ∧
      ∀ a, a < buf ∨ buf + (textOf mem es).length < a → mem' a = mem a := by
  have hall : roomOf buf 0xFFFFFFFF = 2 ^ 32 - buf := by
    rw [roomOf]
    split_ifs <;> omega
  have hlast : buf + (2 ^ 32 - buf) - 1 = 2 ^ 32 - 1 := by omega
  obtain ⟨mem', hrun, hstr, hframe⟩ := vsnprintf_eq hbuf (by omega) (show 0xFFFFFFFF < 2 ^ 32 by norm_num) hes hroom
    (by rwa [hall, hlast])
  rw [hall] at hstr hframe
  rw [List.take_of_length_le (by omega)] at hstr
  exact ⟨mem', hrun, hstr (by omega), fun a ha => hframe a (by omega)⟩

/-- **vsnprintf keeps to its buffer.** For every format and all arguments without %n, whose strings do not lie where the text
goes: the buffer holds the text, cut in front of its last byte, and a NUL; no other byte changes; and the length of the whole text
is returned. The size 0xFFFFFFFF of vsprintf is no bound: the whole text is written. -/
theorem vsnprintf_writes (mem : Ptr) {buf size : ℕ} (fmt : List Byte) (args : VaList) (hbuf : 0 < buf) (hbuf' : buf < 2 ^ 32)
    (hsize : size < 2 ^ 32) : ∃ es, effects (fmt.length + 1) fmt args = some es ∧
      (buf + (textOf mem es).length < 2 ^ 32 →
        (∀ e ∈ es, e.Apart mem buf (buf + roomOf buf size - 1) (textOf mem es).length) →
        ∃ mem', vsnprintf mem buf size fmt args = some (mem', (textOf mem es).length) ∧
          (0 < roomOf buf size → StrAt mem' buf ((textOf mem es).take (roomOf buf size - 1))) ∧
          ∀ a, a < buf ∨ buf + min (roomOf buf size) ((textOf mem es).length + 1) ≤ a → mem' a = mem a) := by
  obtain ⟨es, hes⟩ := @effects_some fmt args _ (Nat.lt_succ_self fmt.length)
  exact ⟨es, hes, vsnprintf_eq hbuf hbuf' hsize hes⟩

theorem vsnprintf_cut : ∃ mem', vsnprintf (fun _ => 0) 16 4 [ch 'n', ch '=', ch '%', ch 'd'] (fun _ => 42) = some (mem', 4) ∧
    StrAt mem' 16 [ch 'n', ch '=', ch '4'] ∧ ∀ a, 20 ≤ a → mem' a = 0 := by
  obtain ⟨es, hes, h⟩ := @vsnprintf_writes (fun _ => 0) 16 4 [ch 'n', ch '=', ch '%', ch 'd'] (fun _ => 42)
    (by norm_num) (by norm_num) (by norm_num)
  obtain rfl : [.put [ch 'n'], .put [ch '='], .put [ch '4', ch '2']] = es := Option.some.inj hes
  obtain ⟨mem', hrun, hstr, hframe⟩ := h (by decide) (by
    intro e he
    simp only [List.mem_cons, List.not_mem_nil, or_false] at he
    rcases he with rfl | rfl | rfl <;> trivial)
  exact ⟨mem', hrun, hstr (by decide), fun a ha => hframe a (Or.inr ha)⟩

end SinsOs.Vsprintf
