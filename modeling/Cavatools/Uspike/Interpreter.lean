import Cavatools.Uspike.Fast

/-!
# `hart_t::interpreter`

The loop keeps the pc and the number of instructions in locals (`pc`, `insns`)
and writes them back to the hart when the count is reached, when Spike throws
`trap_breakpoint`, and around every `ecall`. What the repository does not
contain is a parameter (`Env`): the memory model, the functions generated from
Spike's instruction files (`golden`), the table of system call numbers, and
the kernel behind `proxy_syscall`.

An iteration announces the instruction to the model, fetches its descriptor,
runs the branch of the switch for its opcode, and clears `xpr[0]`, unless the
branch has thrown. It ends in one of three ways (`Step`): it goes on at a pc,
it was stopped by a throw, or the process is over, for which `Stop` has the
hart as it was seen there. The branches are a line of RV.fast, `ecall`, which
goes through `proxy_ecall`, and the call of a function of Spike's
(`dispatch`).

The loop recurses on what is left of the count (`loop`), so a call always
returns or the process ends. `how_many` is an `int` or a `long` in C++; here
it is the number of iterations at most, and the loop is a `do` loop, so one is
made in any case.

`dispatch_cases` is the inversion of the switch: what each branch requires and
how it ends. What is kept by an iteration is proved from it, case by case,
without unfolding the switch again.
-/

namespace Cavatools.Uspike

/-! ## The hart -/

/-- A hart: the machine, Spike's `STATE.pc`, `_executed`, and the shared `total_insns`. -/
structure Hart (σ τ : Type) extends Machine σ τ where
  pc : Long
  executed : Int
  total_insns : Int

/-- How the process ends: inside a system call, with the hart as it was seen
there, or by `abort`, `die` or a fault. -/
inductive Stop (σ τ : Type)
  | exit (h : Hart σ τ)
  | crash (m : Machine σ τ)

/-- What a function of Spike's does: it returns the next pc, throws
`trap_breakpoint` before it has changed anything, or ends the process. -/
inductive Golden (σ τ : Type)
  | next (pc : Long) (m : Machine σ τ)
  | trap_breakpoint
  | die (m : Machine σ τ)

/-- The program around the interpreter. -/
structure Env (σ τ : Type) where
  code : InsnSpace
  mmu : Mmu σ
  golden : Opcode → Option (Long → Machine σ τ → Golden σ τ)
  HIGHEST_ECALL_NUM : Int
  rv_to_host : Nat → Option Int
  proxy_syscall : Int → Hart σ τ → Except (Stop σ τ) (Hart σ τ)

variable {σ τ : Type}

namespace Hart

variable (h : Hart σ τ)

def write_pc (value : Long) : Hart σ τ := { h with pc := value }

def incr_count (n : Int) : Hart σ τ :=
  { h with executed := h.executed + n, total_insns := h.total_insns + n }

def setMachine (m : Machine σ τ) : Hart σ τ := { h with toMachine := m }

/-- `xpr[0] = 0`. -/
def clear_x0 : Hart σ τ := { h with xpr := Function.update h.xpr 0 0 }

end Hart

variable (env : Env σ τ)

/-! ## proxy_ecall -/

/-- Register 17 holds the number; an unknown or unmapped one aborts. -/
def proxy_ecall (insns : Int) (h : Hart σ τ) : Except (Stop σ τ) (Hart σ τ) :=
  let h := h.incr_count insns
  let rvnum := (h.xpr 17).toInt
  if rvnum < 0 ∨ env.HIGHEST_ECALL_NUM < rvnum then .error (.crash h.toMachine)
  else match env.rv_to_host rvnum.toNat with
    | none => .error (.crash h.toMachine)
    | some sysnum =>
      if sysnum < 0 then .error (.crash h.toMachine)
      else match env.proxy_syscall sysnum (h.setMachine (h.log (.proxy_syscall sysnum h.executed))) with
        | .error s => .error s
        | .ok h => .ok (h.incr_count (-insns))

/-! ## The loop -/

/-- How an iteration of the loop ends. -/
inductive Step (σ τ : Type)
  | next (pc : Long) (h : Hart σ τ)
  | trap_breakpoint (h : Hart σ τ)
  | stop (s : Stop σ τ)

/-- `switch (i.opcode())`. -/
def dispatch (insns : Int) (i : Insn) (pc : Long) (h : Hart σ τ) : Step σ τ :=
  if i.opcode = .fast .ecall then
    match proxy_ecall env insns (h.write_pc pc) with
    | .ok h => .next (pc + 4) h
    | .error s => .stop s
  else match i.opcode.action i pc env.mmu env.code with
    | some act =>
      match act h.toMachine with
      | .ok (pc, m) => .next pc (h.setMachine m)
      | .error m => .stop (.crash m)
    | none =>
      match env.golden i.opcode with
      | none => .stop (.crash h.toMachine)
      | some f =>
        match f pc h.toMachine with
        | .next pc m => .next pc (h.setMachine m)
        | .trap_breakpoint => .trap_breakpoint h
        | .die m => .stop (.crash m)

/-- The `xpr[0] = 0` behind the switch, which a throw jumps over. -/
def Step.clear_x0 : Step σ τ → Step σ τ
  | .next pc h => .next pc h.clear_x0
  | .trap_breakpoint h => .trap_breakpoint h
  | .stop s => .stop s

/-- The body of the `do` loop. -/
def iteration (insns : Int) (pc : Long) (h : Hart σ τ) : Step σ τ :=
  match insn_model env.mmu pc h.toMachine with
  | .error m => .stop (.crash m)
  | .ok (_, m) =>
    match env.code.at pc with
    | none => .stop (.crash m)
    | some i => (dispatch env insns i pc (h.setMachine m)).clear_x0

/-! ### What a step does -/

theorem dispatch_fast {insns : Int} {i : Insn} {pc pc' : Long} {h : Hart σ τ} {m' : Machine σ τ}
    {act : Act σ τ Long} (hecall : i.opcode ≠ .fast .ecall)
    (hact : i.opcode.action i pc env.mmu env.code = some act) (hrun : act h.toMachine = .ok (pc', m')) :
    dispatch env insns i pc h = .next pc' (h.setMachine m') := by
  unfold dispatch
  rw [if_neg hecall, hact]
  dsimp only
  rw [hrun]

/-- The branches of the switch, and how each ends the iteration. -/
inductive Dispatched (insns : Int) (i : Insn) (pc : Long) (h : Hart σ τ) : Step σ τ → Prop
  | ecall (hecall : i.opcode = .fast .ecall) {h' : Hart σ τ}
    (hcall : proxy_ecall env insns (h.write_pc pc) = .ok h') : Dispatched insns i pc h (.next (pc + 4) h')
  | ecall_stop (hecall : i.opcode = .fast .ecall) {s : Stop σ τ}
    (hcall : proxy_ecall env insns (h.write_pc pc) = .error s) : Dispatched insns i pc h (.stop s)
  | fast (hecall : i.opcode ≠ .fast .ecall) {act : Act σ τ Long}
    (hact : i.opcode.action i pc env.mmu env.code = some act) {pc' : Long} {m : Machine σ τ}
    (hrun : act h.toMachine = .ok (pc', m)) : Dispatched insns i pc h (.next pc' (h.setMachine m))
  | fast_stop (hecall : i.opcode ≠ .fast .ecall) {act : Act σ τ Long}
    (hact : i.opcode.action i pc env.mmu env.code = some act) {m : Machine σ τ}
    (hrun : act h.toMachine = .error m) : Dispatched insns i pc h (.stop (.crash m))
  | null (hnone : env.golden i.opcode = none) : Dispatched insns i pc h (.stop (.crash h.toMachine))
  | golden (hecall : i.opcode ≠ .fast .ecall)
    (hact : (i.opcode.action i pc env.mmu env.code : Option (Act σ τ Long)) = none)
    {f : Long → Machine σ τ → Golden σ τ} (hf : env.golden i.opcode = some f) {pc' : Long}
    {m : Machine σ τ} (hrun : f pc h.toMachine = .next pc' m) :
    Dispatched insns i pc h (.next pc' (h.setMachine m))
  | trap_breakpoint (hecall : i.opcode ≠ .fast .ecall)
    (hact : (i.opcode.action i pc env.mmu env.code : Option (Act σ τ Long)) = none)
    {f : Long → Machine σ τ → Golden σ τ} (hf : env.golden i.opcode = some f)
    (hrun : f pc h.toMachine = .trap_breakpoint) : Dispatched insns i pc h (.trap_breakpoint h)
  | die {f : Long → Machine σ τ → Golden σ τ} (hf : env.golden i.opcode = some f) {m : Machine σ τ}
    (hrun : f pc h.toMachine = .die m) : Dispatched insns i pc h (.stop (.crash m))

/-- **The switch**: a line, an `ecall`, or a function of Spike's, and the ways in which each can
end. -/
theorem dispatch_cases {insns : Int} {i : Insn} {pc : Long} {h : Hart σ τ} {step : Step σ τ}
    (hstep : dispatch env insns i pc h = step) : Dispatched env insns i pc h step := by
  rw [← hstep]
  unfold dispatch
  split
  case isTrue hecall =>
    split
    case h_1 h' hcall => exact .ecall hecall hcall
    case h_2 s hcall => exact .ecall_stop hecall hcall
  case isFalse hecall =>
    split
    case h_1 act hact =>
      split
      case h_1 pc' m hrun => exact .fast hecall hact hrun
      case h_2 m hrun => exact .fast_stop hecall hact hrun
    case h_2 hact =>
      split
      case h_1 hnone => exact .null hnone
      case h_2 f hf =>
        split
        case h_1 pc' m hrun => exact .golden hecall hact hf hrun
        case h_2 hrun => exact .trap_breakpoint hecall hact hf hrun
        case h_3 m hrun => exact .die hf hrun

theorem iteration_eq {insns : Int} {pc : Long} {h : Hart σ τ} {m : Machine σ τ} {i : Insn}
    (hmodel : insn_model env.mmu pc h.toMachine = .ok ((), m)) (hcode : env.code.at pc = some i) :
    iteration env insns pc h = (dispatch env insns i pc (h.setMachine m)).clear_x0 := by
  unfold iteration
  rw [hmodel]
  dsimp only
  rw [hcode]

/-! ## The call -/

/-- How a call of the interpreter ends: it returns a bool, or the process is over. -/
inductive Outcome (σ τ : Type)
  | returned (b : Bool) (h : Hart σ τ)
  | stopped (s : Stop σ τ)

/-- The loop from the locals `insns` and `pc`. -/
def loop (how_many insns : Int) (pc : Long) (h : Hart σ τ) : Outcome σ τ :=
  match iteration env insns pc h with
  | .stop s => .stopped s
  | .trap_breakpoint h => .returned true ((h.write_pc pc).incr_count insns)
  | .next pc h =>
    if insns + 1 < how_many then loop how_many (insns + 1) pc h
    else .returned false ((h.write_pc pc).incr_count (insns + 1))
termination_by (how_many - insns).toNat
decreasing_by omega

def interpreter (how_many : Int) (h : Hart σ τ) : Outcome σ τ := loop env how_many 0 h.pc h

end Cavatools.Uspike
