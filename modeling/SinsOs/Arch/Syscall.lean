/-
A system call from its stub in lib/syscalls.c to its function in the kernel and back.

A stub puts the number in eax and its arguments in ebx, ecx and edx. SAVE_ALL lays these three out where a C function looks for
its arguments, so that the function is called with them and the words of the pt_regs are its own to write.

- `syscallTable_nr`: the table has every function at the number of its stub.
- `stub_served`: the function gets the arguments of the stub, its result comes back in eax, and every register comes back
  but the argument registers, which hold what the function left in its arguments.
-/
import SinsOs.Arch.Entry

namespace SinsOs.Syscall

open SinsOs.Bits SinsOs.X86 SinsOs.Entry

/-! ## Model: include/sins/syscalls.h -/

/-- __NR_* -/
def nr : Sys → ℕ
  | .open_ => 0
  | .creat => 1
  | .close => 2
  | .read => 3
  | .write => 4
  | .ioctl => 5
  | .lseek => 6
  | .exec => 7
  | .exit => 8
  | .waitPid => 9
  | .waitChld => 10
  | .chdir => 11
  | .chroot => 12
  | .getcwd => 13
  | .dup => 14
  | .dup2 => 15
  | .readdir => 16
  | .sigreturn => 17
  | .sigaction => 18
  | .sigmask => 19
  | .kill => 20
  | .getpid => 21
  | .getppid => 22
  | .time => 23

/-- the n of the syscalln that makes the stub, and the parameters of the function in the kernel -/
def params : Sys → ℕ
  | .sigreturn | .getpid | .getppid => 0
  | .creat | .close | .exit | .waitPid | .waitChld | .chdir | .chroot | .dup | .time => 1
  | .open_ | .getcwd | .dup2 | .sigaction | .sigmask | .kill => 2
  | .read | .write | .ioctl | .lseek | .exec | .readdir => 3

def argRegs : List Reg := [.ebx, .ecx, .edx]

/-- the registers at the int 0x80 of a stub -/
def stub (s : Sys) (args : List Word) (reg : Reg → Word) : Reg → Word
  | .eax => BitVec.ofNat 32 (nr s)
  | .ebx => args.getD 0 (reg .ebx)
  | .ecx => args.getD 1 (reg .ecx)
  | .edx => args.getD 2 (reg .edx)
  | r => reg r

/-! ## Calls -/

/-- a C function keeps the stack above its arguments -/
structure Callee (esp0 words : ℕ) (m m' : Machine) : Prop where
  esp : m'.esp = m.esp
  mem : ∀ a, m.esp + 4 * words ≤ a → a < esp0 → m'.mem a = m.mem a

variable (K : World) (u : User) (s : Sys) (args : List Word)

/-- the machine that the function of s is called with -/
structure Called (m : Machine) : Prop where
  esp : m.esp = K.ptRegs
  args : ∀ i w, args[i]? = some w → m.mem (m.esp + 4 * i) = w
  seg : ∀ r, m.seg r = 0x10

/-- back in user mode, the function having returned with m -/
structure Served (m m' : Machine) : Prop where
  result : m'.reg .eax = m.reg .eax
  args : ∀ i r, (argRegs.take (params s))[i]? = some r → m'.reg r = m.mem (m.esp + 4 * i)
  kept : ∀ r, r ≠ .eax → r ∉ argRegs.take (params s) → m'.reg r = u.reg r
  seg : m'.seg = u.seg
  esp : m'.esp = K.esp0 - 20
  frame : ∀ i w, [u.eip, u.cs, u.eflags, u.esp, u.ss][i]? = some w → m'.mem (m'.esp + 4 * i) = w

variable {K u s args}

theorem syscallTable_nr : ∀ s, syscallTable[nr s]? = some s := by
  intro s
  cases s <;> rfl

theorem nr_lt : ∀ s, nr s < nrSystemCalls := by
  intro s
  cases s <;> decide

theorem params_le : ∀ s, params s ≤ 3 := by
  intro s
  cases s <;> decide

theorem slot_argRegs {i : ℕ} {r : Reg} (h : argRegs[i]? = some r) : slot r = 4 * i := by
  match i with
  | 0 | 1 | 2 => cases h; rfl
  | i + 3 => cases h

theorem slot_inj {r r' : Reg} (h : slot r = slot r') : r = r' := by
  cases r <;> cases r' <;> first | rfl | exact absurd h (by decide)

/-- a register that is no argument has its slot behind the arguments -/
theorem slot_behind {r : Reg} {n : ℕ} (hn : n ≤ 3) (h : r ∉ argRegs.take n) : 4 * n ≤ slot r := by
  by_contra hlt
  have hmem : ∃ i < n, argRegs[i]? = some r := by
    cases r
    case ebx => exact ⟨0, by simp only [slot] at hlt; omega, rfl⟩
    case ecx => exact ⟨1, by simp only [slot] at hlt; omega, rfl⟩
    case edx => exact ⟨2, by simp only [slot] at hlt; omega, rfl⟩
    all_goals simp only [slot] at hlt; omega
  obtain ⟨i, hi, hr⟩ := hmem
  exact h (List.mem_of_getElem? (i := i) (by rw [List.getElem?_take_of_lt hi, hr]))

theorem compared_frame (m : Machine) : (compared m).reg = m.reg ∧ (compared m).seg = m.seg ∧ (compared m).esp = m.esp ∧
    (compared m).mem = m.mem := ⟨rfl, rfl, rfl, rfl⟩

theorem toCall_seg (m : Machine) (r : Seg) : (toCall m).seg r = 0x10 := by cases r <;> rfl

/-- the frame of the CPU -/
theorem cpuEnter_mem {i : ℕ} {w : Word} (h : [u.eip, u.cs, u.eflags, u.esp, u.ss][i]? = some w) :
    (cpuEnter K u .int80).mem (K.esp0 - 20 + 4 * i) = w := by
  have hpage := K.page
  have hi : i < 5 := (List.getElem?_eq_some_iff.1 h).1
  have hpush : [u.ss, u.esp, u.eflags, u.cs, u.eip][4 - i]? = some w := by
    match i, hi with
    | 0, _ | 1, _ | 2, _ | 3, _ | 4, _ => exact h
  have hmem := Machine.pushes_mem ⟨u.reg, u.seg, K.esp0, u.stack, false⟩ [u.ss, u.esp, u.eflags, u.cs, u.eip]
    (by simp only [List.length_cons, List.length_nil]; omega) hpush
  rw [show K.esp0 - 20 + 4 * i = K.esp0 - 4 * (4 - i + 1) by omega]
  exact hmem

/-! ## The way back -/

/-- the end of the path, do_signal having nothing to deliver -/
theorem leave (hsignal : ∀ m, ∃ m', K.call (K.addr .doSignal) m = some m' ∧ Callee K.esp0 1 m m') {m : Machine}
    (hesp : m.esp = K.ptRegs) (goto : Label → Machine → Outcome) :
    ∃ m', runBlock K.call goto ([Instr.store .eax (slot .eax)] ++
        (pushRegs ++ [Instr.callI (K.addr .doSignal)] ++ [Instr.addEsp 4] ++ restoreAll ++ [Instr.iret])) m = .iret m' ∧
      m'.esp = K.esp0 - 20 ∧ (∀ r, m'.reg r = if r = .eax then m.reg .eax else m.mem (K.ptRegs + slot r)) ∧
      (∀ r, m'.seg r = (m.mem (K.ptRegs + segSlot r)).setWidth 16) ∧
      ∀ a, K.ptRegs + 0x1C ≤ a → a < K.esp0 → m'.mem a = m.mem a := by
  have hpage := K.page
  have hbase : K.ptRegs = K.esp0 - 72 := rfl
  set ms := m.store (m.esp + slot .eax) (m.reg .eax) with hms
  set mp := (ms.setReg .eax (BitVec.ofNat 32 (ms.esp + 0))).push (BitVec.ofNat 32 (ms.esp + 0)) with hmp
  obtain ⟨m3, hcall, hkeep⟩ := hsignal mp
  have hespp : mp.esp = K.ptRegs - 4 := by rw [← hesp]; rfl
  have hesp3 : m3.esp = K.ptRegs - 4 := hkeep.esp.trans hespp
  -- the words of the pt_regs are those after the store
  have hmem : ∀ a, K.ptRegs ≤ a → a < K.esp0 → m3.mem a = ms.mem a := by
    intro a hlo hhi
    rw [hkeep.mem a (by omega) hhi]
    exact (ms.setReg .eax (BitVec.ofNat 32 (ms.esp + 0))).push_above _ (by change 4 ≤ m.esp; omega)
      (by change m.esp ≤ a; omega)
  have hstore : ∀ a, a ≠ K.ptRegs + slot .eax → ms.mem a = m.mem a := fun a ha => if_neg (by rw [hesp]; exact ha)
  have hr := restoreAll_spec (m3.drop 4)
  have hdrop : (m3.drop 4).esp = K.ptRegs := by change m3.esp + 4 = _; omega
  refine ⟨execAll (m3.drop 4) restoreAll, ?_, ?_, fun r => ?_, fun r => ?_, fun a hlo hhi => ?_⟩
  · have hrun : runBlock K.call goto ([Instr.store .eax (slot .eax)] ++
        (pushRegs ++ [Instr.callI (K.addr .doSignal)] ++ [Instr.addEsp 4] ++ restoreAll ++ [Instr.iret])) m =
        (K.call (K.addr .doSignal) mp).elim .stopped (runBlock K.call goto ([Instr.addEsp 4] ++ restoreAll ++ [Instr.iret])) :=
          rfl
    rw [hrun, hcall]
    rfl
  · rw [hr.esp, hdrop]
    omega
  · have hslot := slot_le r
    rw [hr.reg, hdrop]
    change m3.mem _ = _
    rw [hmem _ (by omega) (by omega)]
    split_ifs with heax
    · rw [heax, hms, hesp]
      exact if_pos rfl
    · exact hstore _ fun h => heax (slot_inj (by omega))
  · obtain ⟨hlo, hhi⟩ := segSlot_bounds r
    rw [hr.seg, hdrop]
    change (m3.mem _).setWidth 16 = _
    rw [hmem _ (by omega) (by omega), hstore _ (by simp only [slot]; omega)]
  · rw [hr.mem]
    change m3.mem a = _
    rw [hmem a (by omega) hhi, hstore a (by simp only [slot]; omega)]

/-! ## A stub -/

theorem stub_reg {i : ℕ} {r : Reg} {w : Word} {reg : Reg → Word} (hr : argRegs[i]? = some r) (hw : args[i]? = some w) :
    stub s args reg r = w := by
  have hget : ∀ d, args.getD i d = w := fun d => by rw [List.getD_eq_getElem?_getD, hw]; rfl
  match i with
  | 0 | 1 | 2 => cases hr; exact hget _
  | i + 3 => cases hr

/-- **A stub calls its function.** The function is called with the arguments of the stub on its stack and the kernel's segments.
If it returns and keeps to its arguments, and no signal is to be delivered, the task goes on behind its int 0x80 with the result
in eax. All its other registers are as before but the argument registers: they come back as the function left its arguments. -/
theorem stub_served (u : User) {reg : Reg → Word} (hu : u.reg = stub s args reg) (hargs : args.length = params s)
    (hfun : ∀ m m', K.call (K.addr (.sys s)) m = some m' → Callee K.esp0 (params s) m m')
    (hsignal : ∀ m, ∃ m', K.call (K.addr .doSignal) m = some m' ∧ Callee K.esp0 1 m m') :
    ∃ m, Called K args m ∧
      (K.call (K.addr (.sys s)) m = none ∧ enter K u .int80 = .stopped ∨
        ∃ m1 m2, K.call (K.addr (.sys s)) m = some m1 ∧ enter K u .int80 = .iret m2 ∧ Served K u s m1 m2) := by
  have hpage := K.page
  have hbase : K.ptRegs = K.esp0 - 72 := rfl
  have hparams := params_le s
  set c := compared (cpuEnter K u .int80) with hc
  obtain ⟨hcreg, hcseg, hcesp, hcmem⟩ := compared_frame (cpuEnter K u .int80)
  obtain ⟨huseg, hureg, -⟩ := cpuEnter_frame (K := K) (u := u) .int80
  have hesp := cpuEnter_esp (K := K) (u := u) .int80
  have heax : (c.reg .eax).toNat = nr s := by
    rw [hc, hcreg, hureg, hu]
    have := nr_lt s
    exact BitVec.toNat_ofNat _ _ |>.trans (Nat.mod_eq_of_lt (by simp only [nrSystemCalls] at this; omega))
  -- the entry up to the call
  have hrun : enter K u .int80 = runBlock K.call (run K.call (prog K) 2) (dispatch K) c := by
    have hidt : idt Event.int80.vector = .systemCall := by decide
    rw [enter, hidt, systemCall_run, if_neg]
    rw [compared_above, not_not, ← hcreg, ← hc, heax]
    exact nr_lt s
  have hcesp' : ({ c with esp := c.esp - 8 } : Machine).esp = K.ptRegs + 0x2C := by
    change c.esp - 8 = _
    rw [hc, hcesp, hesp]
    change K.esp0 - 20 - 4 * 0 - 8 = _
    omega
  have hsave := saveAll_spec { c with esp := c.esp - 8 } (by omega)
  set m0 := execAll { c with esp := c.esp - 8 } saveAll with hm0
  have hesp0 : m0.esp = K.ptRegs := by rw [hsave.esp, hcesp']; rfl
  obtain ⟨hesp1, hmem1, heax1⟩ := toCall_spec m0
  have hregs : ∀ r, (toCall m0).mem (K.ptRegs + slot r) = u.reg r := by
    intro r
    have hslot := hsave.reg r
    rw [hesp0] at hslot
    rw [hmem1, hslot, ← hureg, ← hcreg]
  have habove : ∀ a, K.ptRegs + 0x2C ≤ a → (toCall m0).mem a = (cpuEnter K u .int80).mem a := by
    intro a ha
    rw [hmem1, hsave.above a (by rw [hcesp']; exact ha)]
    exact congrFun hcmem a
  refine ⟨toCall m0, ⟨hesp1.trans hesp0, fun i w hw => ?_, toCall_seg m0⟩, ?_⟩
  · have hi : i < 3 := (List.getElem?_eq_some_iff.1 hw).1.trans_le (hargs.trans_le hparams)
    obtain ⟨r, hr⟩ : ∃ r, argRegs[i]? = some r := ⟨_, List.getElem?_eq_getElem (l := argRegs) hi⟩
    rw [hesp1, hesp0, ← slot_argRegs hr, hregs, hu, stub_reg hr hw]
  have hcall : enter K u .int80 = (K.call (K.addr (.sys s)) (toCall m0)).elim .stopped
      (runBlock K.call (run K.call (prog K) 2) ([Instr.store .eax (slot .eax)] ++
        (pushRegs ++ [Instr.callI (K.addr .doSignal)] ++ [Instr.addEsp 4] ++ restoreAll ++ [Instr.iret]))) := by
    have htable : (syscallTable.map fun s => K.addr (.sys s))[((toCall m0).reg .eax).toNat]? = some (K.addr (.sys s)) := by
      have hnr : ((toCall m0).reg .eax).toNat = nr s := by rw [heax1, hsave.reg]; exact heax
      rw [hnr, List.getElem?_map, syscallTable_nr]
      rfl
    rw [hrun, dispatch_run _ c _ rfl, ← hm0, htable]
    rfl
  cases hres : K.call (K.addr (.sys s)) (toCall m0) with
  | none => exact Or.inl ⟨rfl, by rw [hcall, hres]; rfl⟩
  | some m1 =>
    have hkeep := hfun _ _ hres
    have hesp2 : m1.esp = K.ptRegs := hkeep.esp.trans (hesp1.trans hesp0)
    have hmem : ∀ a, K.ptRegs + 4 * params s ≤ a → a < K.esp0 → m1.mem a = (toCall m0).mem a := by
      intro a hlo hhi
      exact hkeep.mem a (by rw [hesp1, hesp0]; exact hlo) hhi
    obtain ⟨m2, hleave, hlesp, hlreg, hlseg, hlmem⟩ := leave hsignal hesp2 (run K.call (prog K) 2)
    refine Or.inr ⟨m1, m2, rfl, by rw [hcall, hres]; exact hleave, ?_⟩
    refine ⟨by rw [hlreg, if_pos rfl], fun i r hr => ?_, fun r heax hr => ?_, ?_, hlesp, fun i w hw => ?_⟩
    · have hi : i < params s := by
        have := (List.getElem?_eq_some_iff.1 hr).1
        rw [List.length_take] at this
        omega
      rw [List.getElem?_take_of_lt hi] at hr
      have heax : r ≠ .eax := by
        rintro rfl
        exact absurd (List.mem_of_getElem? hr) (by decide)
      rw [hlreg, if_neg heax, slot_argRegs hr, hesp2]
    · have hlo := slot_behind hparams hr
      have hhi := slot_le r
      rw [hlreg, if_neg heax, hmem _ (by omega) (by omega), hregs]
    · funext r
      obtain ⟨hlo, hhi⟩ := segSlot_bounds r
      have hsegs := hsave.seg r
      rw [hesp0, show ({ c with esp := c.esp - 8 } : Machine).seg r = c.seg r from rfl, hc, hcseg, huseg] at hsegs
      rw [hlseg, hmem _ (by omega) (by omega), hmem1, hsegs, BitVec.setWidth_setWidth_of_le _ (by norm_num), BitVec.setWidth_eq]
    · have hi : i < 5 := (List.getElem?_eq_some_iff.1 hw).1
      rw [hlesp, hlmem _ (by omega) (by omega), hmem _ (by omega) (by omega), habove _ (by omega)]
      exact cpuEnter_mem hw

/-- a sys_read that returns its count and writes it over its first argument -/
def wholeRead (m : Machine) : Machine :=
  { m.setReg .eax (m.mem (m.esp + 8)) with mem := Function.update m.mem m.esp (m.mem (m.esp + 8)) }

theorem wholeRead_keeps (esp0 : ℕ) (m : Machine) : Keeps esp0 (CFun.sys .read).args m (wholeRead m) := by
  refine ⟨rfl, fun a ha _ _ => Function.update_of_ne ?_ _ _⟩
  simp only [CFun.args] at ha
  omega

/-- the other functions return at once -/
def reading : World where
  esp0 := 0x3000
  page := by norm_num
  addr f := if f = .sys .read then 1 else 0
  call f m := some (if f = 1 then wholeRead m else m)
  keeps f m m' h := by
    obtain rfl := Option.some.inj h
    by_cases hf : f = .sys .read
    · subst hf
      exact wholeRead_keeps _ m
    · rw [if_neg hf]
      exact ⟨rfl, fun _ _ _ _ => rfl⟩
  bad_returns _ := rfl
  reserved_returns _ := rfl

/-- read(3, 0x5000, 7) -/
def readCall : User := { call24 with reg := stub .read [3, 0x5000, 7] call24.reg }

theorem read_served : ∃ m m2, Called reading [3, 0x5000, 7] m ∧ enter reading readCall .int80 = .iret m2 ∧
    Served reading readCall .read (wholeRead m) m2 ∧ m2.reg .eax = 7 ∧ m2.reg .ebx = 7 ∧ m2.reg .ecx = 0x5000 := by
  have hfun : ∀ m m', reading.call (reading.addr (.sys .read)) m = some m' → Callee reading.esp0 (params .read) m m' :=
    fun m m' h => by
      obtain rfl := Option.some.inj h
      exact ⟨rfl, fun a ha _ => Function.update_of_ne (by simp only [params] at ha; omega) _ _⟩
  obtain ⟨m, hcalled, ⟨hnone, -⟩ | ⟨m1, m2, hm1, hret, hserved⟩⟩ :=
    @stub_served reading .read [3, 0x5000, 7] readCall call24.reg rfl rfl hfun fun m => ⟨m, rfl, rfl, fun _ _ _ => rfl⟩
  · cases hnone
  · obtain rfl := Option.some.inj hm1
    have hcount : m.mem (m.esp + 8) = 7 := hcalled.args 2 7 rfl
    have hbuf : (wholeRead m).mem (m.esp + 4) = 0x5000 :=
      (Function.update_of_ne (by omega) _ _).trans (hcalled.args 1 0x5000 rfl)
    refine ⟨m, m2, hcalled, hret, hserved, hserved.result.trans hcount, ?_, ?_⟩
    · exact (hserved.args 0 .ebx rfl).trans ((Function.update_self _ _ _).trans hcount)
    · exact (hserved.args 1 .ecx rfl).trans hbuf

end SinsOs.Syscall
