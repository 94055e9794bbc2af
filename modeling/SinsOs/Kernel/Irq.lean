/-
The masks of the interrupt lines: enable_irq, disable_irq (kernel/irq.c) over the two mask registers of the interrupt
controllers (arch_enable_irq, arch_disable_irq of include/asm/irq.h).

`disable` counts the disable_irq calls of a line. `outstanding` is the number of them that no later enable_irq call has matched.

- `irq_right_iff`: a run does what nesting calls should exactly if every disable_irq call on a line with a count of zero finds
  the bit of the line set, and no other, in the register of its controller, and the count never wraps.
-/
import Mathlib.Tactic

namespace SinsOs.Irq

/-! ## Model -/

def nrIrqs : ℕ := 16

/-- the mask registers, by port, and the counts of the lines -/
structure Irqs where
  port : ℕ → BitVec 8
  disable : ℕ → BitVec 32

def bit (nr : ℕ) : BitVec 8 := 1#8 <<< nr

/-- the port and the bit of a line -/
def portOf (irq : ℕ) : ℕ × ℕ := if irq ≥ 8 then (0xA1, irq - 8) else (0x21, irq)

def archEnableIrq (s : Irqs) (irq : ℕ) : Irqs :=
  let (port, irq) := portOf irq
  { s with port := Function.update s.port port (s.port port &&& ~~~ bit irq) }

def archDisableIrq (s : Irqs) (irq : ℕ) : Irqs :=
  let (port, irq) := portOf irq
  { s with port := Function.update s.port port (s.port port &&& bit irq) }

def enableIrq (s : Irqs) (irq : ℕ) : Irqs :=
  if s.disable irq ≠ 0 then { s with disable := Function.update s.disable irq (s.disable irq - 1) }
  else archEnableIrq s irq

def disableIrq (s : Irqs) (irq : ℕ) : Irqs :=
  let s := if s.disable irq = 0 then archDisableIrq s irq else s
  { s with disable := Function.update s.disable irq (s.disable irq + 1) }

inductive Op
  | enable (irq : ℕ)
  | disable (irq : ℕ)
deriving DecidableEq, Repr

def Op.irq : Op → ℕ
  | .enable irq | .disable irq => irq

def step (s : Irqs) : Op → Irqs
  | .enable irq => enableIrq s irq
  | .disable irq => disableIrq s irq

def run (s : Irqs) (ops : List Op) : Irqs := ops.foldl step s

/-- no count yet, and any masks -/
def boot (port : ℕ → BitVec 8) : Irqs := ⟨port, fun _ => 0⟩

/-! ## What the calls should do -/

/-- the controller does not pass the line on -/
def masked (s : Irqs) (irq : ℕ) : Bool := (s.port (portOf irq).1).getLsbD (portOf irq).2

/-- the disable_irq calls on the line that no later enable_irq call has matched -/
def outstanding (irq : ℕ) (ops : List Op) : ℕ :=
  ops.foldl (fun n op => match op with
    | .disable i => if i = irq then n + 1 else n
    | .enable i => if i = irq then n - 1 else n) 0

/-- **Nesting.** A call changes no other line; a line with a disable outstanding is masked; and a line that was not masked and
had none outstanding is not masked either when none is outstanding again. -/
structure Right (port : ℕ → BitVec 8) (ops : List Op) : Prop where
  others : ∀ pre op post, ops = pre ++ op :: post → ∀ irq < nrIrqs, irq ≠ op.irq →
    masked (run (boot port) (pre ++ [op])) irq = masked (run (boot port) pre) irq
  disabled : ∀ pre post, ops = pre ++ post → ∀ irq < nrIrqs, 0 < outstanding irq pre →
      masked (run (boot port) pre) irq = true
  enabled : ∀ pre mid post, ops = pre ++ mid ++ post → ∀ irq < nrIrqs, outstanding irq pre = 0 →
    masked (run (boot port) pre) irq = false → outstanding irq (pre ++ mid) = 0 →
    masked (run (boot port) (pre ++ mid)) irq = false

/-- the state before a call, when the call does right -/
def Fits (s : Irqs) (pending : ℕ → ℕ) : Op → Prop
  | .disable irq => s.disable irq = 0 → s.port (portOf irq).1 = bit (portOf irq).2
  | .enable irq => s.disable irq = 0 → pending irq = 0

variable {s : Irqs} {port : ℕ → BitVec 8} {ops pre : List Op} {op : Op} {irq line : ℕ}

theorem run_snoc (s : Irqs) (ops : List Op) (op : Op) : run s (ops ++ [op]) = step (run s ops) op := by
  rw [run, List.foldl_append]
  rfl

theorem outstanding_disable (irq : ℕ) (ops : List Op) : outstanding irq (ops ++ [.disable irq]) = outstanding irq ops + 1 := by
  rw [outstanding, List.foldl_append]
  exact if_pos rfl

theorem outstanding_enable (irq : ℕ) (ops : List Op) : outstanding irq (ops ++ [.enable irq]) = outstanding irq ops - 1 := by
  rw [outstanding, List.foldl_append]
  exact if_pos rfl

theorem outstanding_other (ops : List Op) (h : irq ≠ op.irq) : outstanding irq (ops ++ [op]) = outstanding irq ops := by
  rw [outstanding, List.foldl_append]
  cases op with
  | enable i => exact if_neg h.symm
  | disable i => exact if_neg h.symm

/-! ## The bits of a register -/

theorem portOf_bit (h : irq < nrIrqs) : (portOf irq).2 < 8 := by
  unfold nrIrqs at h
  rw [portOf]
  split_ifs
  · show irq - 8 < 8
    omega
  · show irq < 8
    omega

/-- two lines of one controller have two bits -/
theorem portOf_inj (h : (portOf line).1 = (portOf irq).1) (hne : line ≠ irq) : (portOf line).2 ≠ (portOf irq).2 := by
  unfold portOf at *
  split_ifs at * with h1 h2 h2
  · show line - 8 ≠ irq - 8
    omega
  · exact absurd (show 0xA1 = 0x21 from h) (by decide)
  · exact absurd (show 0x21 = 0xA1 from h) (by decide)
  · exact hne

theorem bit_getLsbD {i j : ℕ} (hi : i < 8) : (bit i).getLsbD j = decide (j = i) := by
  rw [bit, BitVec.getLsbD_shiftLeft]
  by_cases h : j = i
  · subst h
    simp [hi]
  · by_cases hj : j < i
    · simp [h, hj]
    · have hne : j - i ≠ 0 := by omega
      simp [h, BitVec.getLsbD_one, hne]

theorem masked_update (x : BitVec 8) (line : ℕ) : masked { s with port := Function.update s.port (portOf irq).1 x } line =
    if (portOf line).1 = (portOf irq).1 then x.getLsbD (portOf line).2 else masked s line := by
  unfold masked
  dsimp only
  split_ifs with hp
  · rw [hp, Function.update_self]
  · rw [Function.update_of_ne hp]

theorem masked_enable (h : irq < nrIrqs) (hl : line < nrIrqs) : masked (archEnableIrq s irq) line =
    if line = irq then false else masked s line := by
  have hbit := portOf_bit h
  have hlbit := portOf_bit hl
  rw [archEnableIrq, masked_update, BitVec.getLsbD_and, BitVec.getLsbD_not, bit_getLsbD hbit]
  by_cases hline : line = irq
  · simp [hline]
  · rw [if_neg hline]
    split_ifs with hp
    · simp [portOf_inj hp hline, hlbit, masked, hp]
    · rfl

theorem masked_disable (h : irq < nrIrqs) (line : ℕ) : masked (archDisableIrq s irq) line =
    if line = irq then masked s irq else if (portOf line).1 = (portOf irq).1 then false else masked s line := by
  rw [archDisableIrq, masked_update, BitVec.getLsbD_and, bit_getLsbD (portOf_bit h)]
  by_cases hline : line = irq
  · simp [hline, masked]
  · rw [if_neg hline]
    split_ifs with hp
    · simp [portOf_inj hp hline]
    · rfl

/-- the register holds the bit of the line and no other -/
theorem port_eq_bit (h : irq < nrIrqs) : s.port (portOf irq).1 = bit (portOf irq).2 ↔ masked s irq = true ∧
    ∀ line < nrIrqs, line ≠ irq → (portOf line).1 = (portOf irq).1 → masked s line = false := by
  have hbit := portOf_bit h
  constructor
  · intro he
    refine ⟨by rw [masked, he, bit_getLsbD hbit, decide_eq_true rfl], fun line _ hne hp => ?_⟩
    rw [masked, hp, he, bit_getLsbD hbit]
    exact decide_eq_false (portOf_inj hp hne)
  · intro ⟨hself, hother⟩
    refine BitVec.eq_of_getLsbD_eq fun j hj => ?_
    rw [bit_getLsbD hbit]
    by_cases he : j = (portOf irq).2
    · rw [he, decide_eq_true rfl]
      exact hself
    · rw [decide_eq_false he]
      -- the line of this controller with bit j
      obtain ⟨line, hl, hline⟩ : ∃ line < nrIrqs, portOf line = ((portOf irq).1, j) := by
        by_cases h8 : irq ≥ 8
        · refine ⟨j + 8, by unfold nrIrqs; omega, ?_⟩
          rw [portOf, portOf, if_pos h8, if_pos (by omega), Nat.add_sub_cancel]
        · refine ⟨j, by unfold nrIrqs; omega, ?_⟩
          rw [portOf, portOf, if_neg h8, if_neg (by omega)]
      have hne : line ≠ irq := fun hli => he (by rw [← hli, hline])
      have := hother line hl hne (by rw [hline])
      rw [masked, hline] at this
      exact this

/-! ## One call -/

theorem masked_enableIrq (h : irq < nrIrqs) (hl : line < nrIrqs) : masked (enableIrq s irq) line =
    if line = irq ∧ s.disable irq = 0 then false else masked s line := by
  rw [enableIrq]
  by_cases h0 : s.disable irq = 0
  · rw [if_neg (not_not.2 h0), masked_enable h hl]
    simp only [h0, and_true]
  · rw [if_pos h0, if_neg fun hand => h0 hand.2]
    rfl

theorem masked_disableIrq (h : irq < nrIrqs) (line : ℕ) : masked (disableIrq s irq) line =
    if s.disable irq = 0 ∧ line ≠ irq ∧ (portOf line).1 = (portOf irq).1 then false else masked s line := by
  rw [disableIrq]
  by_cases h0 : s.disable irq = 0
  · rw [if_pos h0]
    refine (masked_disable h line).trans ?_
    by_cases hline : line = irq
    · simp [hline]
    · simp [hline, h0]
  · rw [if_neg h0, if_neg fun hand => h0 hand.1]
    rfl

/-- no call sets a bit -/
theorem masked_step (h : op.irq < nrIrqs) (hl : line < nrIrqs) (hm : masked s line = false) :
    masked (step s op) line = false := by
  cases op with
  | enable irq =>
    change irq < nrIrqs at h
    rw [step, masked_enableIrq h hl, hm]
    exact ite_self false
  | disable irq =>
    change irq < nrIrqs at h
    rw [step, masked_disableIrq h, hm]
    exact ite_self false

/-- **A call that fits** changes no other line. -/
theorem others_step (h : op.irq < nrIrqs) (pending : ℕ → ℕ) (hfits : Fits s pending op) (hl : line < nrIrqs)
    (hne : line ≠ op.irq) :
    masked (step s op) line = masked s line := by
  cases op with
  | enable irq =>
    change irq < nrIrqs at h
    rw [step, masked_enableIrq h hl, if_neg fun hand => hne hand.1]
  | disable irq =>
    change irq < nrIrqs at h
    rw [step, masked_disableIrq h]
    split_ifs with hand
    · exact (((port_eq_bit h).1 (hfits hand.1)).2 line hl hand.2.1 hand.2.2).symm
    · rfl

/-- the counts are those outstanding -/
def Counts (s : Irqs) (ops : List Op) : Prop := ∀ irq, s.disable irq = BitVec.ofNat 32 (outstanding irq ops)

theorem disable_step (s : Irqs) (op : Op) (line : ℕ) : (step s op).disable line = match op with
    | .disable irq => if line = irq then s.disable irq + 1 else s.disable line
    | .enable irq => if line = irq ∧ s.disable irq ≠ 0 then s.disable irq - 1 else s.disable line := by
  cases op with
  | enable irq =>
    rw [step, enableIrq]
    dsimp only
    by_cases h0 : s.disable irq = 0
    · rw [if_neg (not_not.2 h0), if_neg fun hand => hand.2 h0]
      rfl
    · rw [if_pos h0]
      by_cases hline : line = irq
      · rw [if_pos ⟨hline, h0⟩, hline]
        exact Function.update_self ..
      · rw [if_neg fun hand => hline hand.1]
        exact Function.update_of_ne hline ..
  | disable irq =>
    rw [step, disableIrq]
    have hsame : (if s.disable irq = 0 then archDisableIrq s irq else s).disable = s.disable := by
      split_ifs
      · rfl
      · rfl
    dsimp only
    rw [hsame]
    by_cases hline : line = irq
    · rw [if_pos hline, hline, Function.update_self]
    · rw [if_neg hline, Function.update_of_ne hline]

theorem Counts.step (h : Counts s pre) (hfits : Fits s (fun irq => outstanding irq pre) op) :
    Counts (step s op) (pre ++ [op]) := by
  intro line
  rw [disable_step]
  cases op with
  | disable irq =>
    dsimp only
    by_cases hline : line = irq
    · rw [if_pos hline, hline, outstanding_disable, h irq, BitVec.ofNat_add]
      rfl
    · rw [if_neg hline, outstanding_other _ hline, h line]
  | enable irq =>
    dsimp only
    by_cases hline : line = irq
    · subst hline
      rw [outstanding_enable]
      by_cases h0 : s.disable line = 0
      · have hzero : outstanding line pre = 0 := hfits h0
        rw [if_neg fun hand => hand.2 h0, h0, hzero]
        rfl
      · have hpos : outstanding line pre ≠ 0 := fun he => h0 (by rw [h line, he]; rfl)
        obtain ⟨n, hn⟩ := Nat.exists_eq_succ_of_ne_zero hpos
        rw [if_pos ⟨rfl, h0⟩, h line, hn, Nat.succ_eq_add_one, Nat.add_sub_cancel, BitVec.ofNat_add]
        exact BitVec.add_sub_cancel ..
    · rw [if_neg fun hand => hline hand.1, outstanding_other _ hline, h line]

/-! ## Runs -/

/-- every call of the run fits -/
def AllFit (port : ℕ → BitVec 8) (ops : List Op) : Prop :=
  ∀ pre op post, ops = pre ++ op :: post → Fits (run (boot port) pre) (fun irq => outstanding irq pre) op

/-- a prefix of a run whose calls fit up to there -/
theorem counts_of_fits (hfits : ∀ p op q, pre = p ++ op :: q →
    Fits (run (boot port) p) (fun irq => outstanding irq p) op) : Counts (run (boot port) pre) pre := by
  induction pre using List.reverseRecOn with
  | nil => exact fun _ => rfl
  | append_singleton p op ih =>
    rw [run_snoc]
    refine (ih fun p' op' q hp => hfits p' op' (q ++ [op]) (by rw [hp, List.append_assoc]; rfl)).step ?_
    exact hfits p op [] rfl

/-- a call of a run that does right fits -/
theorem Right.fits_last (h : Right port ops) {post : List Op} (hops : ops = pre ++ op :: post) (hirq : op.irq < nrIrqs)
    (hcounts : Counts (run (boot port) pre) pre) : Fits (run (boot port) pre) (fun irq => outstanding irq pre) op := by
  have hpost : ops = pre ++ [op] ++ post := by rw [hops, List.append_assoc]; rfl
  have hdisabled := h.disabled (pre ++ [op]) post hpost op.irq hirq
  have hothers := h.others pre op post hops
  rw [run_snoc] at hdisabled hothers
  cases op with
  | disable irq =>
    intro h0
    change irq < nrIrqs at hirq
    refine (port_eq_bit hirq).2 ⟨?_, fun line hl hne hp => ?_⟩
    · have hmasked := hdisabled (by rw [Op.irq, outstanding_disable]; exact Nat.succ_pos _)
      change masked (disableIrq _ irq) irq = true at hmasked
      rw [masked_disableIrq hirq, if_neg fun hand => hand.2.1 rfl] at hmasked
      exact hmasked
    · have hsame := hothers line hl hne
      change masked (disableIrq _ irq) line = _ at hsame
      rw [masked_disableIrq hirq, if_pos ⟨h0, hne, hp⟩] at hsame
      exact hsame.symm
  | enable irq =>
    intro h0
    change irq < nrIrqs at hirq
    dsimp only
    by_contra hno
    -- the count has wrapped, and so many are outstanding that one is left
    have hwrap : 2 ^ 32 ≤ outstanding irq pre := by
      have hmod := congrArg BitVec.toNat ((hcounts irq).symm.trans h0)
      rw [BitVec.toNat_ofNat] at hmod
      exact Nat.le_of_dvd (Nat.pos_of_ne_zero hno) (Nat.dvd_of_mod_eq_zero hmod)
    have hmasked := hdisabled (by rw [Op.irq, outstanding_enable]; omega)
    change masked (enableIrq _ irq) irq = true at hmasked
    rw [masked_enableIrq hirq hirq, if_pos ⟨rfl, h0⟩] at hmasked
    cases hmasked

theorem Right.all_fit (h : Right port ops) (hirqs : ∀ op ∈ ops, op.irq < nrIrqs) : AllFit port ops := by
  intro pre
  -- the calls before fit, so that the counts are right
  induction hn : pre.length using Nat.strong_induction_on generalizing pre with
  | _ n ih =>
    intro op post hops
    refine h.fits_last hops (hirqs op (by rw [hops]; exact List.mem_append_right _ List.mem_cons_self)) ?_
    refine counts_of_fits fun p op' q hp => ih p.length ?_ p rfl op' (q ++ op :: post) ?_
    · rw [← hn, hp, List.length_append, List.length_cons]
      omega
    · rw [hops, hp, List.append_assoc]
      rfl

/-- **A run whose calls fit** keeps the lines masked that have a disable outstanding. -/
theorem AllFit.disabled (h : AllFit port ops) (hirqs : ∀ op ∈ ops, op.irq < nrIrqs) {pre post : List Op}
    (hops : ops = pre ++ post) (hl : line < nrIrqs) (hpos : 0 < outstanding line pre) :
    masked (run (boot port) pre) line = true := by
  induction pre using List.reverseRecOn generalizing post with
  | nil => exact absurd hpos (Nat.lt_irrefl 0)
  | append_singleton p op ih =>
    have hops' : ops = p ++ op :: post := by rw [hops, List.append_assoc]; rfl
    have hirq : op.irq < nrIrqs := hirqs op (by rw [hops']; exact List.mem_append_right _ List.mem_cons_self)
    have hfits := h p op post hops'
    rw [run_snoc]
    by_cases hline : line = op.irq
    · have hcounts : Counts (run (boot port) p) p := counts_of_fits fun p' op' q hp =>
        h p' op' (q ++ op :: post) (by rw [hops', hp, List.append_assoc]; rfl)
      cases op with
      | disable irq =>
        obtain rfl : line = irq := hline
        change masked (disableIrq _ line) line = true
        rw [masked_disableIrq hl, if_neg fun hand => hand.2.1 rfl]
        by_cases h0 : (run (boot port) p).disable line = 0
        · exact ((port_eq_bit hl).1 (hfits h0)).1
        · refine ih hops' (Nat.pos_of_ne_zero fun he => h0 ?_)
          rw [hcounts line, he]
          rfl
      | enable irq =>
        obtain rfl : line = irq := hline
        change masked (enableIrq _ line) line = true
        rw [outstanding_enable] at hpos
        have h0 : (run (boot port) p).disable line ≠ 0 := fun h0 => by
          have hzero : outstanding line p = 0 := hfits h0
          omega
        rw [masked_enableIrq hl hl, if_neg fun hand => h0 hand.2]
        exact ih hops' (by omega)
    · rw [others_step hirq _ hfits hl hline]
      exact ih hops' (outstanding_other p hline ▸ hpos)

theorem masked_run {mid : List Op} (hirqs : ∀ op ∈ mid, op.irq < nrIrqs) (hl : line < nrIrqs) (hm : masked s line = false) :
    masked (run s mid) line = false := by
  induction mid generalizing s with
  | nil => exact hm
  | cons op mid ih =>
    exact ih (fun op' hop => hirqs op' (List.mem_cons_of_mem _ hop)) (masked_step (hirqs op List.mem_cons_self) hl hm)

/-- **When the calls nest.** For all masks at the start and every sequence of enable_irq and disable_irq calls: it does right
exactly if each disable_irq call on a line with a count of zero finds the bit of this line set, and no other, in the register of
its controller, and no enable_irq call finds a count of zero with disables outstanding. -/
theorem irq_right_iff (port : ℕ → BitVec 8) (ops : List Op) (hirqs : ∀ op ∈ ops, op.irq < nrIrqs) :
    Right port ops ↔ AllFit port ops := by
  refine ⟨fun h => h.all_fit hirqs, fun h => ⟨fun pre op post hops irq hl hne => ?_, fun pre post hops irq hl hpos => ?_,
    fun pre mid post hops irq hl _ hm _ => ?_⟩⟩
  · rw [run_snoc]
    refine others_step (hirqs op ?_) _ (h pre op post hops) hl hne
    rw [hops]
    exact List.mem_append_right _ List.mem_cons_self
  · exact h.disabled hirqs hops hl hpos
  · have hrun : run (boot port) (pre ++ mid) = run (run (boot port) pre) mid := List.foldl_append
    rw [hrun]
    refine masked_run (fun op hop => hirqs op ?_) hl hm
    rw [hops]
    exact List.mem_append_left _ (List.mem_append_right _ hop)

theorem AllFit.snoc (h : AllFit port ops) (op : Op) (hop : Fits (run (boot port) ops) (fun irq => outstanding irq ops) op) :
    AllFit port (ops ++ [op]) := by
  intro pre op' post hops
  rcases List.eq_nil_or_concat post with rfl | ⟨post, last, rfl⟩
  · obtain ⟨rfl, hlast⟩ := List.append_inj' hops rfl
    cases hlast
    exact hop
  · rw [List.concat_eq_append, ← List.cons_append, ← List.append_assoc] at hops
    obtain ⟨rfl, -⟩ := List.append_inj' hops rfl
    exact h pre op' post rfl

/-- line 4 is the only one that is masked, and it is disabled twice, enabled twice, and enabled once more -/
theorem irq_right_nested : Right (fun _ => 0x10) [.disable 4, .disable 4, .enable 4, .enable 4, .enable 4] := by
  refine (irq_right_iff _ _ (by decide)).2 ?_
  have h0 : AllFit (fun _ => 0x10) [] := fun pre op post hops => by simp at hops
  have h1 := h0.snoc (.disable 4) fun _ => by decide
  have h2 := h1.snoc (.disable 4) fun _ => by decide
  have h3 := h2.snoc (.enable 4) fun hzero => absurd hzero (by decide)
  have h4 := h3.snoc (.enable 4) fun hzero => absurd hzero (by decide)
  exact h4.snoc (.enable 4) fun _ => by decide

/-- After disable_irq(0), with all lines masked before, the other lines of the controller are not masked any more. And with no
line masked before, line 0 is not masked. -/
theorem irq_unmasks : ¬ Right (fun _ => 0xff) [.disable 0] ∧ ¬ Right (fun _ => 0) [.disable 0] := by
  constructor
  · intro h
    have hother := h.others [] (.disable 0) [] rfl 1 (by decide) (by decide)
    revert hother
    decide
  · intro h
    have hdisabled := h.disabled [.disable 0] [] rfl 0 (by decide) (by decide)
    revert hdisabled
    decide

end SinsOs.Irq
