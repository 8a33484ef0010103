import Cavatools.Lib.Loop
import Cavatools.Uspike.Batch
import Cavatools.Uspike.GdbAtomic
import Cavatools.Uspike.Keeps

/-!
# Stepping and continuing

`s` and `c` only return from `ProcessGdbCommand`. What the guest then does is
up to the loop in `main`, which leaves when `interpreter(1)` returns false;
but that is when the instruction has completed, and true is a break-point. So
both commands run one instruction, and at a break-point neither comes back.

The loop is a body in the sense of `Lib.Loop`: `turn` is one call of
`interpreter(1)`, which goes on with a hart or leaves with how the guest has
stopped. What a debugger asks for is a loop as well, of the same kind: `once`
lets the guest make one instruction and stops it, `guest` lets it run until it
stops by itself (`Asked`). A command is right if the two loops end alike from
every hart it may find, and where neither ends they agree, too.

At a break-point the body takes another turn from a hart that differs only in
its events, so it never leaves (`not_ends_of_breakpoint`); for that what
throws must not look at the events (`Blind`). Elsewhere it leaves after one
instruction (`turn_of_not_breakpoint`). So `s` is right exactly where there is
no break-point (`step_answers_iff`), and `c` where the instruction behind the
next one is a break-point, or the guest stops at the next one for another
reason (`continue_answers_iff`).

`resume_iff` adds the packets: the pc that is stored has to be the one that
was asked for, which an `int` keeps only near 0 (`resume_pc_iff`).
-/

namespace Cavatools.Uspike.Gdblink

/-! ## The loop in `main` -/

/-- The signals that `main` catches. -/
inductive Signal
  | SIGABRT
  | SIGFPE
  | SIGSEGV
  deriving DecidableEq

def Signal.number : Signal → Int
  | .SIGABRT => 6
  | .SIGFPE => 8
  | .SIGSEGV => 11

def SIGTRAP : Int := 5

/-- How a resumed guest comes back: with a stop reply, after which the next packet is read, or not at
all, when the process is over. -/
inductive Stopped (τ : Type)
  | replied (signal : Int) (h : Hart Unit τ)
  | ended (s : Stop Unit τ)

variable {τ : Type} (env : Env Unit τ) (caught : Machine Unit τ → Option Signal)

/-- A hart without the events that no code reads. -/
def seen (h : Hart Unit τ) : Hart Unit τ := { h with trace := [] }

/-- A fault jumps back to `setjmp` in `main`, if its signal is caught. -/
def stopped (h : Hart Unit τ) (s : Stop Unit τ) : Stopped τ :=
  match s with
  | .crash m =>
    match caught m with
    | some signal => .replied signal.number (seen (h.setMachine m))
    | none => .ended s
  | .exit _ => .ended s

/-- `if (!mycpu->interpreter(1)) break;`, and `ProcessGdbException` behind the loop. -/
def turn (h : Hart Unit τ) : Hart Unit τ ⊕ Stopped τ :=
  match interpreter env 1 h with
  | .returned true h => .inl h
  | .returned false h => .inr (.replied SIGTRAP (seen h))
  | .stopped s => .inr (stopped caught h s)

/-! ## What the commands are for -/

/-- One instruction of the guest: it completes, or the guest stops at it. -/
def guest (h : Hart Unit τ) : Hart Unit τ ⊕ Stopped τ :=
  match iteration env 0 h.pc h with
  | .next pc h => .inl ((h.write_pc pc).incr_count 1)
  | .trap_breakpoint h => .inr (.replied SIGTRAP (seen h))
  | .stop s => .inr (stopped caught h s)

/-- The stop after a single step. -/
def once (h : Hart Unit τ) : Stopped τ :=
  match guest env caught h with
  | .inl h => .replied SIGTRAP (seen h)
  | .inr r => r

/-- The stop that a packet asks for: `c` lets the guest run on, `s` does not. -/
def Asked (inp : Input) (h : Hart Unit τ) (r : Stopped τ) : Prop :=
  if peek inp = chr 'c' then Lib.Ends (guest env caught) h r else r = once env caught h

/-- The pc that a packet asks for: the one it gives, or the current one. -/
def askedPc (pc : Long) (inp : Input) : Long :=
  if peek inp.tail = 0 then pc else BitVec.ofNat 64 (hexValue (digitsOf inp.tail))

/-- The instruction at the pc throws `trap_breakpoint`. -/
def Breakpoint (h : Hart Unit τ) : Prop := Throws env h.pc h

/-- What throws, throws whatever events there have been. -/
def Blind : Prop :=
  ∀ op f pc (m : Machine Unit τ) trace, env.golden op = some f → f pc m = .trap_breakpoint →
    f pc { m with trace } = .trap_breakpoint

/-! ## One turn -/

variable {env caught} {h h' : Hart Unit τ} {pc : Long} {r : Stopped τ}

theorem turn_of_next (hstep : iteration env 0 h.pc h = .next pc h') :
    turn env caught h = .inr (.replied SIGTRAP (seen (h'.settle pc 1))) := by
  unfold turn
  rw [interpreter_one, hstep]

theorem turn_of_trap (hstep : iteration env 0 h.pc h = .trap_breakpoint h') :
    turn env caught h = .inl (h'.settle h.pc 0) := by
  unfold turn
  rw [interpreter_one, hstep]

theorem turn_of_stop {s : Stop Unit τ} (hstep : iteration env 0 h.pc h = .stop s) :
    turn env caught h = .inr (stopped caught h s) := by
  unfold turn
  rw [interpreter_one, hstep]

theorem pc_of_seen (hseen : seen h' = seen h) : h'.pc = h.pc := by
  have hpc : (seen h').pc = (seen h).pc := by rw [hseen]
  exact hpc

theorem insn_model_mmu_t (hmmu : env.mmu = mmu_t) (pc : Long) (m : Machine Unit τ) :
    insn_model env.mmu pc m = .ok ((), m.log (.insn_model pc)) := by
  rw [hmmu]
  rfl

/-- A throw changes nothing that can be seen. -/
theorem iteration_of_breakpoint (hmmu : env.mmu = mmu_t) (hb : Breakpoint env h) :
    ∃ h', iteration env 0 h.pc h = .trap_breakpoint h' ∧ seen h' = seen h := by
  obtain ⟨m, hm, hstep⟩ := iteration_of_throws hb
  refine ⟨h.setMachine m, hstep, ?_⟩
  rw [insn_model_mmu_t hmmu] at hm
  cases hm
  rfl

/-- A break-point is one for every hart that differs in its events only. -/
theorem breakpoint_seen (hmmu : env.mmu = mmu_t) (hblind : Blind env) (hseen : seen h' = seen h)
    (hb : Breakpoint env h) : Breakpoint env h' := by
  obtain ⟨m, i, f, hm, hi, hspike, hf, hthrow⟩ := hb
  rw [insn_model_mmu_t hmmu] at hm
  cases hm
  have hmachine : h'.toMachine.log (.insn_model h.pc) =
      { h.toMachine.log (.insn_model h.pc) with trace := .insn_model h.pc :: h'.trace } := by
    have h₀ : (seen h').toMachine = (seen h).toMachine := by rw [hseen]
    exact congrArg (fun m => { m with trace := .insn_model h.pc :: h'.trace }) h₀
  unfold Breakpoint
  rw [pc_of_seen hseen]
  refine ⟨_, i, f, insn_model_mmu_t hmmu _ _, hi, hspike, hf, ?_⟩
  rw [hmachine]
  exact hblind i.opcode f h.pc _ _ hf hthrow

/-- **At a break-point** neither command comes back. -/
theorem not_ends_of_breakpoint (hmmu : env.mmu = mmu_t) (hblind : Blind env) (hb : Breakpoint env h) :
    ¬Lib.Ends (turn env caught) h r := by
  refine Lib.not_ends (P := Breakpoint env) (fun g hg => ?_) hb
  obtain ⟨g', hstep, hseen⟩ := iteration_of_breakpoint hmmu hg
  refine ⟨g'.settle g.pc 0, turn_of_trap hstep, breakpoint_seen hmmu hblind ?_ hg⟩
  rw [Hart.settle, incr_count_zero, ← pc_of_seen hseen]
  exact hseen

/-- **Elsewhere** they stop after one instruction. -/
theorem turn_of_not_breakpoint (hb : ¬Breakpoint env h) : turn env caught h = .inr (once env caught h) := by
  unfold once guest
  cases hstep : iteration env 0 h.pc h with
  | next pc h' => exact turn_of_next hstep
  | trap_breakpoint h' => exact absurd (iteration_trap hstep).1 hb
  | stop s => exact turn_of_stop hstep

theorem not_breakpoint_of_guest (hguest : guest env caught h = .inl h') : ¬Breakpoint env h := by
  unfold guest at hguest
  cases hstep : iteration env 0 h.pc h with
  | next pc h₁ => exact not_throws_of_next hstep
  | trap_breakpoint h₁ =>
    rw [hstep] at hguest
    cases hguest
  | stop s =>
    rw [hstep] at hguest
    cases hguest

theorem guest_of_breakpoint (hmmu : env.mmu = mmu_t) (hb : Breakpoint env h) :
    guest env caught h = .inr (.replied SIGTRAP (seen h)) := by
  obtain ⟨h', hstep, hseen⟩ := iteration_of_breakpoint hmmu hb
  unfold guest
  rw [hstep]
  exact congrArg (fun g => Sum.inr (Stopped.replied SIGTRAP g)) hseen

/-- No fault comes back as `SIGTRAP`: the caught signals have other numbers. -/
theorem stopped_ne (s : Stop Unit τ) (g : Hart Unit τ) : stopped caught h s ≠ .replied SIGTRAP g := by
  intro heq
  unfold stopped at heq
  cases s with
  | exit e => cases heq
  | crash m =>
    dsimp only at heq
    cases hsignal : caught m with
    | none =>
      rw [hsignal] at heq
      cases heq
    | some signal =>
      rw [hsignal] at heq
      cases signal <;> exact absurd (Stopped.replied.inj heq).1 (by decide)

/-- Only a break-point stops the guest with `SIGTRAP`. -/
theorem breakpoint_of_sigtrap {g : Hart Unit τ} (hguest : guest env caught h = .inr (.replied SIGTRAP g)) :
    Breakpoint env h := by
  unfold guest at hguest
  cases hstep : iteration env 0 h.pc h with
  | next pc h' =>
    rw [hstep] at hguest
    cases hguest
  | trap_breakpoint h' => exact (iteration_trap hstep).1
  | stop s =>
    rw [hstep] at hguest
    exact absurd (Sum.inr.inj hguest) (stopped_ne s g)

/-! ## The two commands -/

theorem step_answers_iff (hmmu : env.mmu = mmu_t) (hblind : Blind env) :
    (∀ r, Lib.Ends (turn env caught) h r ↔ r = once env caught h) ↔ ¬Breakpoint env h := by
  constructor
  · intro hall hb
    exact not_ends_of_breakpoint hmmu hblind hb ((hall _).mpr rfl)
  · intro hb r
    exact Lib.ends_of_leave (turn_of_not_breakpoint hb)

/-- `c` answers as asked exactly if it is not at a break-point, and at one after the next
instruction, should that complete. -/
theorem continue_answers_iff (hmmu : env.mmu = mmu_t) (hblind : Blind env) :
    (∀ r, Lib.Ends (turn env caught) h r ↔ Lib.Ends (guest env caught) h r) ↔
      ¬Breakpoint env h ∧ ∀ h₁, guest env caught h = .inl h₁ → Breakpoint env h₁ := by
  constructor
  · intro hall
    have hnot : ¬Breakpoint env h := fun hb =>
      not_ends_of_breakpoint hmmu hblind hb ((hall _).mpr (.leave (guest_of_breakpoint hmmu hb)))
    refine ⟨hnot, fun h₁ hguest => ?_⟩
    -- the stop after one instruction is where the guest would stop at a break-point
    have honce : once env caught h = .replied SIGTRAP (seen h₁) := by
      unfold once
      rw [hguest]
    have hends := (hall _).mp (.leave (turn_of_not_breakpoint hnot))
    rw [honce] at hends
    obtain ⟨h₂, hlast⟩ := hends.last
    have hb := breakpoint_of_sigtrap hlast
    rw [guest_of_breakpoint hmmu hb] at hlast
    obtain ⟨-, hseen⟩ := Stopped.replied.inj (Sum.inr.inj hlast)
    exact breakpoint_seen hmmu hblind hseen.symm hb
  · intro hall r
    obtain ⟨hnot, hnext⟩ := hall
    rw [Lib.ends_of_leave (turn_of_not_breakpoint hnot), once]
    cases hguest : guest env caught h with
    | inl h₁ => rw [Lib.ends_of_turn hguest, Lib.ends_of_leave (guest_of_breakpoint hmmu (hnext h₁ hguest))]
    | inr r₁ => rw [Lib.ends_of_leave hguest]

/-! ## The packets -/

theorem not_returned_reply {s s' : Session} (w : Writing) : s.reply w ≠ .returned s' := by
  cases w <;> exact Handled.noConfusion

/-- A packet that resumes the guest is an `s` or a `c` that parses. -/
theorem commandResume_of_returned {chain : List Entry} {s s' : Session} {inp : Input}
    (h : handle chain s inp = .returned s') : commandResume s.regs inp.tail = (s'.regs, none) := by
  unfold handle at h
  -- the commands in their order; only the last two return
  split at h
  · exact absurd h (not_returned_reply _)
  split at h
  · exact absurd h (not_returned_reply _)
  split at h
  · exact absurd h (not_returned_reply _)
  split at h
  · exact absurd h (not_returned_reply _)
  split at h
  · exact absurd h (not_returned_reply _)
  split at h
  · split at h
    · exact absurd h (not_returned_reply _)
    · cases h
  split at h
  · split at h
    next hresume =>
      cases h
      exact hresume
    next => exact absurd h (not_returned_reply _)
  · cases h

/-- A number is what its digits write, as far as an `int` goes. -/
theorem RcvHexInt_digitsOf {inp rest : Input} {v : Long} (h : RcvHexInt inp = some (v, rest)) :
    v = (BitVec.ofNat 32 (hexValue (digitsOf inp))).signExtend 64 := by
  obtain ⟨more, heq, hmore⟩ := digitsOf_append inp
  have hne : digitsOf inp ≠ [] := by
    intro hnil
    rw [hnil, List.nil_append] at heq
    rw [heq] at h
    cases more with
    | nil => cases h
    | cons c more =>
      have hc : hexDigit c = none := hmore
      unfold RcvHexInt RcvHexDigit at h
      dsimp only at h
      rw [hc] at h
      cases h
  rw [heq, RcvHexInt_eq (isHex_digitsOf inp) hne hmore] at h
  exact (congrArg Prod.fst (Option.some.inj h)).symm

/-- The pc that is stored is the one that was asked for if the address is near 0. -/
theorem resume_pc_iff {r r' : Regs} {inp : Input} (h : commandResume r inp.tail = (r', none)) :
    r'.gdb_pc = askedPc r.gdb_pc inp ↔ peek inp.tail = 0 ∨ Near (hexValue (digitsOf inp.tail)) := by
  unfold commandResume at h
  unfold askedPc
  by_cases hend : peek inp.tail = 0
  · rw [if_pos hend] at h ⊢
    cases h
    exact iff_of_true rfl (Or.inl hend)
  · rw [if_neg hend] at h ⊢
    rw [or_iff_right hend]
    cases hint : RcvHexInt inp.tail with
    | none =>
      rw [hint] at h
      cases h
    | some p =>
      obtain ⟨addr, rest⟩ := p
      rw [hint] at h
      cases h
      rw [← widen_near, ← RcvHexInt_digitsOf hint]

/-- **Stepping and continuing**: a packet that resumes the guest does so where it asks for and with
the stop it asks for, exactly if its address is near 0, the instruction there is no break-point,
and, for `c`, that instruction stops the guest or stands before a break-point. -/
theorem resume_iff (hmmu : env.mmu = mmu_t) (hblind : Blind env) {chain : List Entry} {s s' : Session}
    {inp : Input} (hreturned : handle chain s inp = .returned s') (hregs : s'.regs = ⟨h.xpr, h.pc⟩) :
    (h.pc = askedPc s.regs.gdb_pc inp ∧ ∀ r, Lib.Ends (turn env caught) h r ↔ Asked env caught inp h r) ↔
      (peek inp.tail = 0 ∨ Near (hexValue (digitsOf inp.tail))) ∧ ¬Breakpoint env h ∧
        (peek inp = chr 'c' → ∀ h₁, guest env caught h = .inl h₁ → Breakpoint env h₁) := by
  have hpc := resume_pc_iff (commandResume_of_returned hreturned)
  rw [hregs] at hpc
  rw [hpc]
  refine and_congr_right fun _ => ?_
  unfold Asked
  by_cases hc : peek inp = chr 'c'
  · simp only [hc, if_true, true_imp_iff]
    exact continue_answers_iff hmmu hblind
  · simp only [hc, if_false, false_imp_iff, and_true]
    exact step_answers_iff hmmu hblind

/-! ### Two instructions and a break-point -/

/-- `addi a0,a0,1` twice, and `c.ebreak`, on which Spike's function throws. -/
def countEnv : Env Unit Unit where
  code :=
    { base := 0x1000, limit := 0x100a, entry := 0x1000
      predecoded :=
        [reg1imm (.fast .addi) 10 10 1, Insn.ofCode .ZERO, reg1imm (.fast .addi) 10 10 1, Insn.ofCode .ZERO,
          Insn.ofCode (.c .c_ebreak)] }
  mmu := mmu_t
  golden op := if op = .c .c_ebreak then some fun _ _ => .trap_breakpoint else none
  HIGHEST_ECALL_NUM := 0
  rv_to_host _ := none
  proxy_syscall _ h := .ok h

def countHart (pc : Long) : Hart Unit Unit where
  xpr := fun _ => 0
  mem := nopLiMem
  rest := ()
  mmu := ()
  trace := []
  pc := pc
  executed := 0
  total_insns := 0

theorem blind_count : Blind countEnv := by
  intro op f pc m trace hf hthrow
  unfold countEnv at hf
  dsimp only at hf
  split at hf
  · cases hf
    rfl
  · cases hf

theorem breakpoint_count {h : Hart Unit Unit} (hpc : h.pc = 0x1008) : Breakpoint countEnv h := by
  unfold Breakpoint
  rw [hpc]
  exact ⟨_, _, _, rfl, rfl, ⟨by decide, rfl⟩, rfl, rfl⟩

theorem guest_count : ∃ h₁ h₂,
    guest countEnv (fun _ => none) (countHart 0x1000) = .inl h₁ ∧ h₁.pc = 0x1004 ∧
    guest countEnv (fun _ => none) h₁ = .inl h₂ ∧ h₂.pc = 0x1008 :=
  ⟨_, _, rfl, rfl, rfl, rfl⟩

/-- `c` at the last instruction before a break-point. -/
theorem resume_iff_last : handle listedChain openSession (packet "c1004") =
      .returned { openSession with regs := ⟨fun _ => 0, 0x1004⟩ } ∧
    ∀ stop, Lib.Ends (turn countEnv fun _ => none) (countHart 0x1004) stop ↔
      Asked countEnv (fun _ => none) (packet "c1004") (countHart 0x1004) stop := by
  have hreturned : handle listedChain openSession (packet "c1004") =
      .returned { openSession with regs := ⟨fun _ => 0, 0x1004⟩ } := rfl
  obtain ⟨h₂, hguest, hpc⟩ : ∃ h₂,
      guest countEnv (fun _ => none) (countHart 0x1004) = .inl h₂ ∧ h₂.pc = 0x1008 := ⟨_, rfl, rfl⟩
  refine ⟨hreturned, ((resume_iff rfl blind_count hreturned rfl).mpr ⟨Or.inr (by decide), ?_, ?_⟩).2⟩
  · exact not_breakpoint_of_guest hguest
  · intro _ h₁ hguest₁
    obtain rfl := Sum.inl.inj (hguest₁.symm.trans hguest)
    exact breakpoint_count hpc

/-- `c` stops behind the first of two instructions, and `s` at a break-point never does. -/
theorem resume_wrong :
    (handle listedChain openSession (packet "c") = .returned openSession ∧
      ∃ stop, Lib.Ends (turn countEnv fun _ => none) (countHart 0x1000) stop ∧
        ¬Asked countEnv (fun _ => none) (packet "c") (countHart 0x1000) stop) ∧
    handle listedChain openSession (packet "s1008") =
        .returned { openSession with regs := ⟨fun _ => 0, 0x1008⟩ } ∧
      ∀ stop, ¬Lib.Ends (turn countEnv fun _ => none) (countHart 0x1008) stop := by
  refine ⟨⟨rfl, ?_⟩, rfl, fun stop => not_ends_of_breakpoint rfl blind_count (breakpoint_count rfl)⟩
  obtain ⟨h₁, h₂, hfirst, hpc₁, hsecond, hpc₂⟩ := guest_count
  have hnot := not_breakpoint_of_guest hfirst
  have honce : once countEnv (fun _ => none) (countHart 0x1000) = .replied SIGTRAP (seen h₁) := by
    unfold once
    rw [hfirst]
  refine ⟨.replied SIGTRAP (seen h₁), .leave ((turn_of_not_breakpoint hnot).trans (congrArg _ honce)), ?_⟩
  intro hasked
  have hends : Lib.Ends (guest countEnv fun _ => none) (countHart 0x1000) (.replied SIGTRAP (seen h₁)) := hasked
  rw [Lib.ends_of_turn hfirst, Lib.ends_of_turn hsecond,
    Lib.ends_of_leave (guest_of_breakpoint rfl (breakpoint_count hpc₂))] at hends
  have hpc := pc_of_seen (Stopped.replied.inj hends).2
  rw [hpc₁, hpc₂] at hpc
  exact absurd hpc (by decide)

end Cavatools.Uspike.Gdblink
