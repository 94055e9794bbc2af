/-
A command line taken apart (execute_command, tools/sh/main.c): the words of buf are cut in place and copied to the same
offsets of arg_buf, and arg_ptrs points to them.

`none` is a read or a write outside of buf, arg_ptrs or arg_buf, or a NULL pointer that is followed. `tokens` is what the line
says: its maximal runs of characters that are no spaces.
- `fetch_line`: fetch_command leaves a line with a NUL.
- `scan_spec`: the loop ends at the NUL of the line, with the words before its last space copied.
- `words_spec`: whatever the line, all its words are copied, side by side and inside of arg_buf.
- `execute_iff`: execute_command passes on the command and its arguments as it should, except for the line that holds an
  ampersand and nothing else.
-/
import SinsOs.Lib.Buffer
import SinsOs.Lib.Strtoul
import SinsOs.Tools.Fetch

namespace SinsOs.Shell

open SinsOs.Lib SinsOs.Strtoul

/-! ## Model -/

def argBufSize : ℕ := 4096
def nrArgPtrs : ℕ := 1024

def ampersand : List Byte := [0x26]

/-- the static variables of the shell -/
structure Args where
  buf : Ptr
  argBuf : Buf
  /-- offsets in arg_buf, `none` for NULL -/
  argPtrs : ℕ → Option ℕ
  argc : ℕ

def addToArgBuf (s : Args) (start stop : ℕ) : Option Args :=
  if start ≠ stop then do
    let argBuf ← s.argBuf.strcpy start (s.buf.add start) (bufSize - start)
    if s.argc < nrArgPtrs then
      some { s with argBuf := argBuf, argPtrs := Function.update s.argPtrs s.argc (some start), argc := s.argc + 1 }
    else none
  else some s

/-- the while loop, with the bytes of buf that it may still read: `begin` and `iter` at its end -/
def scan : ℕ → Args → ℕ → ℕ → Option (Args × ℕ × ℕ)
  | 0, _, _, _ => none
  | readable + 1, s, start, iter =>
    if s.buf iter = 0 then some (s, start, iter)
    else if isspace (s.buf iter) then do
      let s ← addToArgBuf { s with buf := Function.update s.buf iter 0 } start iter
      scan readable s (iter + 1) (iter + 1)
    else scan readable s start (iter + 1)

/-- the arguments of _execute_command, and arg_buf, which they point to -/
structure Call where
  mem : Ptr
  command : Option ℕ
  argc : ℤ
  argv : ℕ → Option ℕ
  noblock : Bool

/-- the words of the line; arg_ptrs is cleared before, arg_buf is what the last line left -/
def splitWords (buf stale : Ptr) : Option Args := do
  let (s, start, iter) ← scan bufSize ⟨buf, ⟨stale, []⟩, fun _ => none, 0⟩ 0 0
  addToArgBuf s start iter

/-- arg_buf, and the call if there is one -/
def executeCommand (buf stale : Ptr) : Option (Buf × Option Call) := do
  let s ← splitWords buf stale
  if s.argc ≠ 0 then do
    let last ← s.argPtrs (s.argc - 1)
    let res ← strcmp (s.argBuf.mem.add last) (cstr ampersand) (argBufSize - last)
    let argc := BitVec.ofNat 32 s.argc
    let argv := fun j => s.argPtrs (j + 1)
    if res = 0 then some (s.argBuf, some ⟨s.argBuf.mem, s.argPtrs 0, (argc - 2).toInt, argv, true⟩)
    else some (s.argBuf, some ⟨s.argBuf.mem, s.argPtrs 0, (argc - 1).toInt, argv, false⟩)
  else some (s.argBuf, none)

/-! ## What a line says -/

/-- a content of buf with a NUL -/
structure Line where
  bytes : Ptr
  terminated : ∃ n < bufSize, bytes n = 0

def Line.text (line : Line) : List Byte := strn bufSize line.bytes

/-- the maximal runs of characters that are no spaces -/
def tokens (l : List Byte) : List (List Byte) := (l.splitOnP isspace).filter (· ≠ [])

/-- _execute_command gets the command, the arguments with their number, and the flag -/
structure Call.Passes (c : Call) (command : List Byte) (args : List (List Byte)) (noblock : Bool) : Prop where
  command : ∃ p, c.command = some p ∧ StrAt c.mem p command
  argc : c.argc = args.length
  argv : ∀ j a, args[j]? = some a → ∃ p, c.argv j = some p ∧ StrAt c.mem p a
  noblock : c.noblock = noblock

/-- the call for a line: none for an empty one, and an ampersand at the end of the arguments is a flag -/
def CallOk (call : Option Call) : List (List Byte) → Prop
  | [] => call = none
  | command :: args => ∃ c, call = some c ∧
    if args.getLast? = some ampersand then c.Passes command args.dropLast true else c.Passes command args false

/-- what execute_command should do: it ends, makes the right call, and the copies are disjoint and inside -/
def ExecuteOk (line : Line) (stale : Ptr) : Prop :=
  ∃ argBuf call, executeCommand line.bytes stale = some (argBuf, call) ∧ CallOk call (tokens line.text) ∧
    argBuf.writes.Nodup ∧ ∀ k ∈ argBuf.writes, k < argBufSize

/-! ## Runs -/

variable {cur rest : List Byte}

/-- a run, if there is one -/
def word (cur : List Byte) : List (List Byte) := if cur = [] then [] else [cur]

theorem tokens_end (h : ∀ c ∈ cur, isspace c = false) : tokens cur = word cur := by
  have hsplit : cur.splitOnP isspace = [cur] := List.splitOnP_eq_singleton h
  rw [tokens, hsplit, word, List.filter_singleton]
  by_cases hn : cur = []
  · simp [hn]
  · simp [hn]

theorem tokens_cut (h : ∀ c ∈ cur, isspace c = false) {c : Byte} (hc : isspace c = true) :
    tokens (cur ++ c :: rest) = word cur ++ tokens rest := by
  have hsplit : (cur ++ c :: rest).splitOnP isspace = cur :: rest.splitOnP isspace :=
    List.splitOnP_append_cons_of_forall_mem h c hc rest
  rw [tokens, hsplit, word, List.filter_cons]
  by_cases hn : cur = []
  · simp [hn, tokens]
  · simp [hn, tokens]

/-! ## Copies -/

/-- the words `done` are copied, to below `stop` -/
structure Copied (s : Args) (done : List (List Byte)) (stop : ℕ) : Prop where
  argc : s.argc = done.length
  few : done.length ≤ stop
  ptr : ∀ j t, done[j]? = some t → ∃ p, s.argPtrs j = some p ∧ p + t.length < stop ∧ StrAt s.argBuf.mem p t
  below : ∀ k ∈ s.argBuf.writes, k < stop
  nodup : s.argBuf.writes.Nodup
  clean : ∀ t ∈ done, ∀ c ∈ t, c ≠ 0

variable {s : Args} {done : List (List Byte)} {start : ℕ}

theorem Copied.mono (h : Copied s done start) {stop : ℕ} (hle : start ≤ stop) : Copied s done stop :=
  ⟨h.argc, h.few.trans hle, fun j t hj => by
    obtain ⟨p, hp, hlt, hs⟩ := h.ptr j t hj
    exact ⟨p, hp, by omega, hs⟩, fun k hk => (h.below k hk).trans_le hle, h.nodup, h.clean⟩

/-- **One word**, if it is one. -/
theorem add_spec (h : Copied s done start) (hcur : StrAt s.buf start cur) (hne : ∀ c ∈ cur, c ≠ 0)
    (hroom : start + cur.length < bufSize) :
    ∃ s', addToArgBuf s start (start + cur.length) = some s' ∧ s'.buf = s.buf ∧
      Copied s' (done ++ word cur) (start + cur.length + 1) := by
  by_cases hn : cur = []
  · subst hn
    refine ⟨s, if_neg (not_not.2 rfl), rfl, ?_⟩
    rw [word, if_pos rfl, List.append_nil]
    exact h.mono (by omega)
  · have hpos : 0 < cur.length := List.length_pos_iff.2 hn
    obtain ⟨b, hb, hstr, hframe, hwrites⟩ := strcpy_str cur s.argBuf start (s.buf.add start) (bufSize - start) hne
      hcur.add (by omega)
    have hargc : s.argc < nrArgPtrs := by
      have := h.few
      have := h.argc
      unfold bufSize nrArgPtrs at *
      omega
    have hstart : start ≠ start + cur.length := by omega
    refine ⟨{ s with argBuf := b, argPtrs := Function.update s.argPtrs s.argc (some start), argc := s.argc + 1 }, ?_, rfl, ?_⟩
    · rw [addToArgBuf, if_pos hstart, hb]
      exact if_pos hargc
    rw [word, if_neg hn]
    refine ⟨?_, ?_, fun j t hj => ?_, fun k hk => ?_, ?_, fun t ht => ?_⟩
    · rw [List.length_append, List.length_singleton, ← h.argc]
    · have := h.few
      rw [List.length_append, List.length_singleton]
      omega
    · rcases Nat.lt_or_ge j done.length with hlt | hge
      · -- an earlier word, which the copy leaves
        rw [List.getElem?_append_left hlt] at hj
        obtain ⟨p, hp, hbelow, hs⟩ := h.ptr j t hj
        have hother : j ≠ s.argc := by rw [h.argc]; omega
        exact ⟨p, (Function.update_of_ne hother _ _).trans hp, by omega, hs.congr fun i hi => hframe _ (by omega)⟩
      · rw [List.getElem?_append_right hge, List.getElem?_singleton] at hj
        split_ifs at hj with h0
        cases hj
        obtain rfl : j = done.length := by omega
        rw [← h.argc]
        exact ⟨start, Function.update_self .., by omega, hstr⟩
    · have hk' : k ∈ b.writes := hk
      rw [hwrites, List.mem_append, List.mem_reverse, List.mem_range'_1] at hk'
      rcases hk' with hnew | hold
      · omega
      · have := h.below k hold
        omega
    · show b.writes.Nodup
      rw [hwrites, List.nodup_append]
      refine ⟨List.nodup_reverse.2 List.nodup_range', h.nodup, fun k hk k' hk' he => ?_⟩
      rw [List.mem_reverse, List.mem_range'_1] at hk
      have := h.below k' hk'
      omega
    · rcases List.mem_append.1 ht with ht | ht
      · exact h.clean t ht
      · rw [List.mem_singleton.1 ht]
        exact hne

/-! ## The loop -/

/-- **The loop**: it ends at the NUL behind the line, with a word `cur'` that is not copied yet. -/
theorem scan_spec (rest : List Byte) : ∀ (s : Args) (done : List (List Byte)) (start : ℕ) (cur : List Byte) (readable : ℕ),
    Copied s done start → StrAt s.buf start (cur ++ rest) → (∀ c ∈ cur ++ rest, c ≠ 0) →
    (∀ c ∈ cur, isspace c = false) → start + (cur ++ rest).length < bufSize → rest.length < readable →
    ∃ s' done' start' cur', scan readable s start (start + cur.length) = some (s', start', start' + cur'.length) ∧
      Copied s' done' start' ∧ StrAt s'.buf start' cur' ∧ (∀ c ∈ cur', c ≠ 0) ∧ start' + cur'.length < bufSize ∧
      done' ++ word cur' = done ++ tokens (cur ++ rest) := by
  induction rest with
  | nil =>
    intro s done start cur readable h hstr hne hsp hroom hr
    obtain ⟨r, rfl⟩ : ∃ r, readable = r + 1 := ⟨readable - 1, by simp only [List.length_nil] at hr; omega⟩
    rw [List.append_nil] at hstr hne hroom ⊢
    have hend : s.buf (start + cur.length) = 0 := (hstr _ le_rfl).trans (cstr_end cur)
    exact ⟨s, done, start, cur, if_pos hend, h, hstr, hne, hroom, by rw [tokens_end hsp]⟩
  | cons c rest ih =>
    intro s done start cur readable h hstr hne hsp hroom hr
    rw [List.length_cons] at hr
    rw [List.length_append, List.length_cons] at hroom
    obtain ⟨r, rfl⟩ : ∃ r, readable = r + 1 := ⟨readable - 1, by omega⟩
    have hhere : s.buf (start + cur.length) = c := hstr.left 0 (Nat.zero_le _)
    have hc : c ≠ 0 := hne c (List.mem_append_right _ List.mem_cons_self)
    rw [scan, hhere, if_neg hc]
    by_cases hspace : isspace c = true
    · -- the word ends here: it is cut and copied
      rw [if_pos hspace]
      have hcut : Copied { s with buf := Function.update s.buf (start + cur.length) 0 } done start :=
        ⟨h.argc, h.few, h.ptr, h.below, h.nodup, h.clean⟩
      obtain ⟨s1, hs1, hbuf, hcopied⟩ := add_spec hcut hstr.cut (fun d hd => hne d (List.mem_append_left _ hd)) (by omega)
      have hrest : StrAt s1.buf (start + cur.length + 1) ([] ++ rest) := by
        rw [hbuf]
        exact hstr.left.tail.congr fun i _ => Function.update_of_ne (by omega) _ _
      obtain ⟨s', done', start', cur', hscan, hspec⟩ := ih s1 (done ++ word cur) (start + cur.length + 1) [] r hcopied hrest
        (fun d hd => hne d (List.mem_append_right _ (List.mem_cons_of_mem _ hd))) (by simp) (by simp; omega) (by omega)
      refine ⟨s', done', start', cur', ?_, ?_⟩
      · rw [hs1]
        exact hscan
      · rwa [tokens_cut hsp hspace, ← List.append_assoc]
    · rw [if_neg hspace]
      have hassoc : cur ++ c :: rest = cur ++ [c] ++ rest := by simp
      have hlen : start + cur.length + 1 = start + (cur ++ [c]).length := by
        rw [List.length_append, List.length_singleton, Nat.add_assoc]
      have hsp' : ∀ d ∈ cur ++ [c], isspace d = false := by
        intro d hd
        rcases List.mem_append.1 hd with hd | hd
        · exact hsp d hd
        · rw [List.mem_singleton.1 hd]
          exact Bool.eq_false_of_not_eq_true hspace
      rw [hassoc] at hstr hne ⊢
      rw [hlen]
      exact ih s done start (cur ++ [c]) r h hstr hne hsp'
        (by rw [← hassoc, List.length_append, List.length_cons]; exact hroom) (by omega)

/-! ## A line -/

variable (line : Line) (stale : Ptr)

theorem Line.length_lt : line.text.length < bufSize := terminated_iff.1 line.terminated

/-- what fetch_command leaves in buf when it succeeds -/
theorem loop_line (rs : List Result) : ∀ (buf : Ptr) (start : Word) (turns : List Turn) (buf' : Ptr),
    loop buf start rs = (turns, buf', .success) → buf' 1023 = 0 := by
  induction rs with
  | nil => rintro buf start turns buf' ⟨⟩
  | cons r rs ih =>
    intro buf start turns buf' h
    rw [loop] at h
    dsimp only at h
    split_ifs at h
    · cases h
    · cases h
    · cases h
    · cases hrest : loop (store buf start.toNat r.stored) (start + BitVec.ofInt 32 r.ret - 1) rs with
      | mk turns' rest =>
        rw [hrest] at h
        cases h
        exact ih _ _ _ _ hrest
    · cases h
      exact Function.update_self ..

theorem fetch_line {cwd : ℤ} {buf buf' : Ptr} {rs : List Result} {turns : List Turn}
    (h : fetchCommand cwd buf rs = (turns, buf', .success)) : ∃ line : Line, line.bytes = buf' := by
  rw [fetchCommand] at h
  split_ifs at h
  · cases h
  · exact ⟨⟨buf', 1023, by decide, loop_line rs _ _ _ _ h⟩, rfl⟩

/-- **The words of a line.** -/
theorem words_spec : ∃ s, splitWords line.bytes stale = some s ∧ Copied s (tokens line.text) bufSize := by
  have hstart : Copied ⟨line.bytes, ⟨stale, []⟩, fun _ => none, 0⟩ [] 0 :=
    ⟨rfl, le_rfl, fun j t hj => by simp at hj, fun k hk => absurd hk List.not_mem_nil, List.nodup_nil,
      fun t ht => absurd ht List.not_mem_nil⟩
  obtain ⟨s, done, start, cur, hscan, hcopied, hstr, hne, hroom, hdone⟩ := scan_spec line.text _ [] 0 [] bufSize hstart
    (strAt_strn line.length_lt) (strn_ne_zero _ _) (by simp) (by simpa using line.length_lt) line.length_lt
  obtain ⟨s', hs', -, hall⟩ := add_spec hcopied hstr hne hroom
  rw [hdone] at hall
  refine ⟨s', ?_, hall.mono hroom⟩
  rw [splitWords]
  exact (congrArg (· >>= _) hscan).trans hs'

theorem argc_sub {n k : ℕ} (hn : n ≤ bufSize) (hk : k ≤ bufSize) :
    (BitVec.ofNat 32 n - BitVec.ofNat 32 k).toInt = (n : ℤ) - k := by
  unfold bufSize at hn hk
  rw [BitVec.toInt_eq_toNat_cond, BitVec.toNat_sub, BitVec.toNat_ofNat, BitVec.toNat_ofNat]
  split_ifs <;> omega

variable {line : Line} {stale : Ptr} {toks : List (List Byte)}

/-- the call, by the last word -/
theorem execute_call (hs : splitWords line.bytes stale = some s) (h : Copied s toks bufSize) {last : List Byte}
    (hlast : toks.getLast? = some last) : executeCommand line.bytes stale = some (s.argBuf, some
      (if last = ampersand then ⟨s.argBuf.mem, s.argPtrs 0, (toks.length : ℤ) - 2, fun j => s.argPtrs (j + 1), true⟩
        else ⟨s.argBuf.mem, s.argPtrs 0, (toks.length : ℤ) - 1, fun j => s.argPtrs (j + 1), false⟩)) := by
  have hpos : s.argc ≠ 0 := by
    rw [h.argc]
    rintro h0
    rw [List.length_eq_zero_iff.1 h0] at hlast
    cases hlast
  rw [List.getLast?_eq_getElem?, ← h.argc] at hlast
  obtain ⟨p, hp, hbelow, hstr⟩ := h.ptr _ _ hlast
  have hroom : last.length < argBufSize - p := by
    unfold argBufSize
    unfold bufSize at hbelow
    omega
  have hamp : ∀ c ∈ ampersand, c ≠ 0 := by decide
  obtain ⟨res, hres, hiff⟩ := strcmp_eq_zero last ampersand (s.argBuf.mem.add p) (cstr ampersand) (argBufSize - p)
    (h.clean last (List.mem_of_getElem? hlast)) hamp hstr.add (fun i _ => by rw [Nat.zero_add]) hroom
  have hcount : s.argc ≤ bufSize := h.argc.trans_le h.few
  rw [executeCommand, hs]
  simp only [Option.bind_eq_bind, Option.bind_some, if_pos hpos, hp, hres, ← h.argc, hiff]
  split_ifs
  · rw [show (2 : BitVec 32) = BitVec.ofNat 32 2 from rfl, argc_sub hcount (by decide)]
    rfl
  · rw [show (1 : BitVec 32) = BitVec.ofNat 32 1 from rfl, argc_sub hcount (by decide)]
    rfl

/-- the pointers behind that of the command are those of the arguments -/
theorem Copied.passes {command : List Byte} {args args' : List (List Byte)} (h : Copied s (command :: args) bufSize)
    (hargs : args' <+: args) (noblock : Bool) {argc : ℤ} (hargc : argc = args'.length) :
    Call.Passes ⟨s.argBuf.mem, s.argPtrs 0, argc, fun j => s.argPtrs (j + 1), noblock⟩ command args' noblock := by
  refine ⟨?_, hargc, fun j a hj => ?_, rfl⟩
  · obtain ⟨p, hp, -, hstr⟩ := h.ptr 0 command rfl
    exact ⟨p, hp, hstr⟩
  · obtain ⟨rest, rfl⟩ := hargs
    have hin : (command :: (args' ++ rest))[j + 1]? = some a := by
      rw [List.getElem?_cons_succ, List.getElem?_append_left (List.getElem?_eq_some_iff.1 hj).1, hj]
    obtain ⟨p, hp, -, hstr⟩ := h.ptr (j + 1) a hin
    exact ⟨p, hp, hstr⟩

/-- the last word of a line with arguments is the last argument -/
theorem getLast?_command (command : List Byte) {args : List (List Byte)} (h : args ≠ []) :
    (command :: args).getLast? = args.getLast? := by
  rw [List.getLast?_cons, List.getLast?_eq_some_getLast h]
  rfl

/-- **execute_command.** -/
theorem execute_iff (line : Line) (stale : Ptr) : ExecuteOk line stale ↔ tokens line.text ≠ [ampersand] := by
  obtain ⟨s, hs, h⟩ := words_spec line stale
  have hinside : ∀ k ∈ s.argBuf.writes, k < argBufSize := fun k hk => (h.below k hk).trans (by decide)
  unfold ExecuteOk
  generalize tokens line.text = toks at h
  cases toks with
  | nil =>
    have hzero : ¬ s.argc ≠ 0 := not_not.2 h.argc
    have hrun : executeCommand line.bytes stale = some (s.argBuf, none) := by
      rw [executeCommand, hs]
      exact if_neg hzero
    exact iff_of_true ⟨s.argBuf, none, hrun, rfl, h.nodup, hinside⟩ (List.cons_ne_nil _ _).symm
  | cons command args =>
    by_cases hargs : args = []
    · subst hargs
      have hlast : [command].getLast? = some command := rfl
      have hrun := execute_call hs h hlast
      by_cases hamp : command = ampersand
      · -- the command itself is taken for the flag
        subst hamp
        refine iff_of_false ?_ (not_not.2 rfl)
        rintro ⟨argBuf, call, hcall, hok, -⟩
        rw [hrun, if_pos rfl] at hcall
        obtain ⟨c, hc, hpasses⟩ := hok
        cases hcall
        cases hc
        have hargc : (1 : ℤ) - 2 = 0 := hpasses.argc
        omega
      · refine iff_of_true ⟨_, _, hrun, ⟨_, rfl, ?_⟩, h.nodup, hinside⟩ fun he => hamp (List.cons.inj he).1
        rw [if_neg hamp, if_neg (by simp)]
        exact h.passes (List.prefix_refl _) false (by simp)
    · have hne : command :: args ≠ [ampersand] := fun he => hargs (List.cons.inj he).2
      have hlast := (getLast?_command command hargs).trans (List.getLast?_eq_some_getLast hargs)
      have hrun := execute_call hs h hlast
      have hlen : 0 < args.length := List.length_pos_iff.2 hargs
      refine iff_of_true ⟨_, _, hrun, ⟨_, rfl, ?_⟩, h.nodup, hinside⟩ hne
      rw [List.getLast?_eq_some_getLast hargs]
      by_cases hamp : args.getLast hargs = ampersand
      · rw [if_pos hamp, if_pos (congrArg some hamp)]
        refine h.passes (List.dropLast_prefix _) true ?_
        rw [List.length_cons, List.length_dropLast]
        omega
      · rw [if_neg hamp, if_neg fun he => hamp (Option.some.inj he)]
        refine h.passes (List.prefix_refl _) false ?_
        rw [List.length_cons]
        omega

/-- a line with nothing but an ampersand -/
def ampersandLine : Line := ⟨cstr ampersand, 1, by decide, by decide⟩

theorem ampersand_line_fails : tokens ampersandLine.text = [ampersand] ∧ ¬ ExecuteOk ampersandLine fun _ => 0 := by
  have htokens : tokens ampersandLine.text = [ampersand] := by decide +kernel
  have hrun : (executeCommand ampersandLine.bytes fun _ => 0).map (fun r => r.2.map Call.argc) = some (some (-1)) := by
    decide +kernel
  refine ⟨htokens, ?_⟩
  rintro ⟨argBuf, call, hcall, hok, -⟩
  rw [htokens] at hok
  obtain ⟨c, rfl, hpasses⟩ := hok
  rw [hcall] at hrun
  have hargc : c.argc = -1 := Option.some.inj (Option.some.inj hrun)
  have hzero : c.argc = 0 := hpasses.argc
  omega

end SinsOs.Shell
