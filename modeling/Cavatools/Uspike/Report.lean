import Cavatools.Lib.Ledger
import Cavatools.Lib.Run
import Cavatools.Uspike.Process

/-!
# `status_report`

It divides by `total_count()`, which all harts add to: when a call of the
interpreter returns, and around every `ecall`, where the count of the call is
added for the time of the system call and then taken back. It is called with
whatever the total is at that moment, by every thread after a call of the
interpreter and by the handler of `exit`. The question is in which runs it
divides by zero.

A thread is followed from one change of the counts to the next (`Place`).
`incr_count` is its own steps: the read and the write of `_executed += n`, the
read of the total and the compare-and-swap, which fails when another hart has
changed the total in between (`Count`). The steps of a thread, one after the
other, are the call of `Interpreter` (`interpreter_goes`), so nothing is left
out by taking it apart.

Between its write and its swap a hart has counted for itself what is not in
the total yet (`Place.pending`). What it has committed is its own count less
that (`Thread.committed`), and the total is the sum of what the harts have
committed: that is `Inv`, an instance of `Lib.Ledger`, together with what each
place of a thread says of its counts (`Place.Fine`). A hart never takes back
more than it has committed before. So the total is zero exactly if nobody has
committed an instruction.

`Safe` is the condition on a step, in the state before it. A thread that goes
into a report needs somebody who has committed something, unless its own call
has just done so; and a swap that takes a count back must leave something
while a report is under way. `step_follows` has, for each action, that the
invariant is kept and that the condition is exact: `swap_follows` and
`count_follows` for `incr_count`, `next_follows` for a thread that goes on, by
where it is. `divisor_iff` is the result over whole runs, of any number of
harts in any order.

The runs behind it come to a division by zero: at a breakpoint in the first
instruction, in a child that is at one while its parent is in `clone`, in an
exit from the first instruction, and with a hart that has counted for itself
what it has not swapped in.
-/

namespace Cavatools.Uspike.Report

open Process (Program Host SYS_clone)
open Gdblink (Input peek chr)

variable {σ τ : Type}

/-! ## The two tools -/

/-- Which `main`: of uspike, with `conf_gdb` and without, or of caveat. -/
inductive Main
  | uspike
  | gdb
  | caveat
  deriving DecidableEq

structure Conf where
  main : Main
  conf_quiet : Bool
  conf_stat : Int

/-- The percentages that are shown of up to 16 harts, and `none` where the division fails. -/
def status_report (conf_quiet : Bool) (total_count : Int) (executed : List Int) : Option (List Int) :=
  if conf_quiet then some []
  else if executed.length ≤ 16 then
    if total_count = 0 then none else some (executed.map fun n => (100 * n).tdiv total_count)
  else some []

/-- Who has called `incr_count`: `proxy_ecall`, before its system call and behind it, or the
interpreter, which returns `b` after it. -/
inductive Caller
  | ecall (l : Locals)
  | back (l : Locals)
  | leave (b : Bool) (insns : Int)

/-- What it is called with. -/
def Caller.n : Caller → Int
  | .ecall l => l.insns
  | .back l => -l.insns
  | .leave _ insns => insns

/-- What `incr_count` does next: the read and the write of `_executed += n`, the read of the loop, and
its compare-and-swap. -/
inductive Count
  | readExecuted
  | writeExecuted (v : Int)
  | readTotal
  | swapTotal (oldtotal : Int)
  deriving DecidableEq

/-- Where a thread is. -/
inductive Place
  | call
  /-- at the top of the loop -/
  | loop (l : Locals)
  | incr_count (c : Caller) (k : Count)
  /-- in `proxy_ecall`, between its two `incr_count` -/
  | syscall (l : Locals)
  | returned (b : Bool)
  /-- in `status_report`, on the way out of the process or not -/
  | report (exiting : Bool)
  /-- in `exit`, before the handler's `status_report` -/
  | exit
  /-- in `ProcessGdbCommand` -/
  | gdb

def Place.reporting : Place → Bool
  | .report _ => true
  | _ => false

/-- The argument of `interpreter` in `main` and in `thread_interpreter`. -/
def Conf.how_many (conf : Conf) (i : Nat) : Int :=
  if i = 0 then
    match conf.main with
    | .uspike => conf.conf_stat * 1000000
    | .gdb => 1
    | .caveat => 10000000
  else conf.conf_stat * 1000000

/-- What comes after the call has returned. -/
def Conf.after (conf : Conf) (i : Nat) (b : Bool) : Place :=
  if i = 0 then
    match conf.main with
    | .uspike => .report false
    | .gdb => if b then .call else .gdb
    | .caveat => .call
  else .report false

/-- A hart, and where its thread is. -/
structure Thread (σ τ : Type) where
  hart : Hart σ τ
  place : Place

/-! ## One thread -/

section
variable (env : Env σ τ)

/-- The number on the host of the system call in register 17. -/
def sysnum (h : Hart σ τ) : Option Int :=
  let rvnum := (h.xpr 17).toInt
  if rvnum < 0 ∨ env.HIGHEST_ECALL_NUM < rvnum then none
  else (env.rv_to_host rvnum.toNat).filter fun sysnum => 0 ≤ sysnum

/-- `proxy_ecall` between its two `incr_count`. Its `abort()`, also in `die`, is a macro that calls
`exit(-1)`. -/
def system (h : Hart σ τ) : Except (Stop σ τ) (Hart σ τ) :=
  match sysnum env h with
  | none => .error (.exit h)
  | some n => env.proxy_syscall n (h.setMachine (h.log (.proxy_syscall n h.executed)))

/-- `while (++insns < how_many)`, and behind it. -/
def ended (l : Locals) (pc : Long) (h : Hart σ τ) : Thread σ τ :=
  if l.insns + 1 < l.how_many then ⟨h, .loop ⟨l.how_many, l.insns + 1, pc⟩⟩
  else ⟨h.write_pc pc, .incr_count (.leave false (l.insns + 1)) .readExecuted⟩

/-- Behind the call of `incr_count`. -/
def Caller.finish (h : Hart σ τ) : Caller → Thread σ τ
  | .ecall l => ⟨h, .syscall l⟩
  | .back l => ended l (l.pc + 4) h.clear_x0
  | .leave b _ => ⟨h, .returned b⟩

/-- `s` and `c` leave `ProcessGdbCommand`, if they parse. -/
def resumes (r : Gdblink.Regs) (inp : Input) : Bool :=
  (peek inp == chr 's' || peek inp == chr 'c') && (Gdblink.commandResume r inp.tail).2 == none

/-- The body of the loop, an `ecall` as far as the call of `proxy_ecall`. -/
def turn (l : Locals) (h : Hart σ τ) : Except (Stop σ τ) (Thread σ τ) :=
  match insn_model env.mmu l.pc h.toMachine with
  | .error m => .error (.crash m)
  | .ok (_, m) =>
    match env.code.at l.pc with
    | none => .error (.crash m)
    | some i =>
      if i.opcode = .fast .ecall then
        .ok ⟨(h.setMachine m).write_pc l.pc, .incr_count (.ecall l) .readExecuted⟩
      else match (dispatch env l.insns i l.pc (h.setMachine m)).clear_x0 with
        | .next pc h => .ok (ended l pc h)
        | .trap_breakpoint h => .ok ⟨h.write_pc l.pc, .incr_count (.leave true l.insns) .readExecuted⟩
        | .stop s => .error s

namespace Thread

variable (conf : Conf) (i : Nat) (t : Thread σ τ)

/-- A step of `incr_count`. Only its own thread writes the `_executed` of a hart. -/
def count (c : Caller) : Count → Thread σ τ
  | .readExecuted => ⟨t.hart, .incr_count c (.writeExecuted t.hart.executed)⟩
  | .writeExecuted v => ⟨{ t.hart with executed := v + c.n }, .incr_count c .readTotal⟩
  | .readTotal => ⟨t.hart, .incr_count c (.swapTotal t.hart.total_insns)⟩
  | .swapTotal oldtotal =>
    if t.hart.total_insns = oldtotal then c.finish { t.hart with total_insns := oldtotal + c.n }
    else ⟨t.hart, .incr_count c .readTotal⟩

def next : Option (Thread σ τ) :=
  match t.place with
  | .call => some ⟨t.hart, .loop ⟨conf.how_many i, 0, t.hart.pc⟩⟩
  | .loop l => (turn env l t.hart).toOption
  | .incr_count c k => some (t.count c k)
  | .syscall l =>
    match system env t.hart with
    | .ok h => some ⟨h, .incr_count (.back l) .readExecuted⟩
    | .error (.exit h) => some ⟨h, .exit⟩
    | .error (.crash _) => none
  | .returned b => some ⟨t.hart, conf.after i b⟩
  | .exit => some ⟨t.hart, .report true⟩
  | .report _ => none
  | .gdb => none

/-- The report is out, and the next call comes. -/
def reported (shown : Option (List Int)) : Option (Thread σ τ) :=
  match t.place with
  | .report false => shown.map fun _ => ⟨t.hart, .call⟩
  | _ => none

/-- A packet in `ProcessGdbCommand`. -/
def serve (inp : Input) : Option (Thread σ τ) :=
  match t.place with
  | .gdb =>
    let regs := Gdblink.ProcessGdbCommand ⟨t.hart.xpr, t.hart.pc⟩ inp
    some ⟨{ t.hart with xpr := regs.gdb_reg, pc := regs.gdb_pc },
      if resumes ⟨t.hart.xpr, t.hart.pc⟩ inp then .call else .gdb⟩
  | _ => none

/-- `longjmp` out of the loop, to the debugger. -/
def fault : Option (Thread σ τ) :=
  match t.place with
  | .loop l =>
    match turn env l t.hart with
    | .error (.crash m) => if conf.main = .gdb then some ⟨t.hart.setMachine m, .gdb⟩ else none
    | _ => none
  | _ => none

/-- In `proxy_syscall` for a `clone`. -/
def atClone : Bool :=
  match t.place with
  | .syscall _ => decide (sysnum env t.hart = some SYS_clone)
  | _ => false

end Thread

/-- The hart of `newcore`, in `thread_interpreter`. -/
def child (h : Hart σ τ) (mmu : σ) : Thread σ τ :=
  ⟨(Process.child ⟨h, none⟩ h.pc mmu).hart, .call⟩

end

/-! ## The process -/

structure State (σ τ : Type) where
  code : InsnSpace
  threads : List (Thread σ τ)
  total_insns : Int

/-- A thread goes on, out of a `clone` with a child, or from its report; it sees what the others and
the host have done; the debugger sends a packet, of which an `M` gives another text; the main thread
comes back from a fault. -/
inductive Act (σ τ : Type)
  | go (i : Nat) (host : Host σ τ)
  | clone (i : Nat) (host : Host σ τ) (mmu : σ)
  | reported (i : Nat)
  | shared (i : Nat) (mem : Riscv.Mem) (rest : τ) (mmu : σ)
  | packet (inp : Input)
  | redecode (code : InsnSpace)
  | fault (host : Host σ τ)

namespace State

variable (s : State σ τ)

/-- `main`, up to its first call or packet. -/
def start (conf : Conf) (code : InsnSpace) (sp : Long) (mem : Riscv.Mem) (rest : τ) (mmu : σ) : State σ τ where
  code := code
  threads := [{
    hart := {
      xpr := Function.update (fun _ => 0) 2 sp, mem := mem, rest := rest, mmu := mmu, trace := []
      pc := code.entry, executed := 0, total_insns := 0 }
    place := if conf.main ≠ .gdb then .call else .gdb }]
  total_insns := 0

/-- What thread `i` has become, with the total as it leaves it. -/
def moved (i : Nat) (t : Thread σ τ) : State σ τ :=
  { s with threads := s.threads.set i t, total_insns := t.hart.total_insns }

/-- One thread takes a step, in which it sees the total as it is. -/
def onThread (i : Nat) (f : Thread σ τ → Option (Thread σ τ)) : Option (State σ τ) :=
  s.threads[i]?.bind fun t =>
    (f { t with hart := { t.hart with total_insns := s.total_insns } }).map (s.moved i)

def status_report (conf : Conf) : Option (List Int) :=
  Report.status_report conf.conf_quiet s.total_insns (s.threads.map (·.hart.executed))

end State

def step (conf : Conf) (p : Program σ τ) (s : State σ τ) : Act σ τ → Option (State σ τ)
  | .go i host => s.onThread i fun t =>
      if t.atClone (p.env s.code host) then none else t.next (p.env s.code host) conf i
  | .clone i host mmu => s.threads[i]?.bind fun parent =>
      if parent.atClone (p.env s.code host) then
        (s.onThread i fun t => t.next (p.env s.code host) conf i).map fun s' =>
          { s' with threads := s'.threads ++ [child parent.hart mmu] }
      else none
  | .reported i => s.onThread i fun t => t.reported (s.status_report conf)
  | .shared i mem rest mmu => s.onThread i fun t =>
      some { t with hart := { t.hart with mem := mem, rest := rest, mmu := mmu } }
  | .packet inp => s.onThread 0 fun t => t.serve inp
  | .redecode code => some { s with code }
  | .fault host => s.onThread 0 fun t => t.fault (p.env s.code host) conf

/-- Whoever is in `status_report` has something to divide by. -/
def Divisible (s : State σ τ) : Prop :=
  ∀ t ∈ s.threads, t.place.reporting = true → s.total_insns ≠ 0

instance (s : State σ τ) : Decidable (Divisible s) :=
  inferInstanceAs (Decidable (∀ t ∈ s.threads, t.place.reporting = true → s.total_insns ≠ 0))

/-- The report fails only at its division: it is not quiet, shows the harts, and the total is zero.
-/
theorem status_report_eq_none_iff {conf_quiet : Bool} {total_count : Int} {executed : List Int} :
    status_report conf_quiet total_count executed = none ↔
      conf_quiet = false ∧ executed.length ≤ 16 ∧ total_count = 0 := by
  unfold status_report
  cases conf_quiet with
  | true => simp
  | false =>
    rw [if_neg Bool.false_ne_true]
    split
    next hlen =>
      split
      next hzero => exact iff_of_true rfl ⟨rfl, hlen, hzero⟩
      next hzero => exact iff_of_false (Option.some_ne_none _) fun h => hzero h.2.2
    next hlen => exact iff_of_false (Option.some_ne_none _) fun h => hlen h.2.1

/-- Then no report fails. -/
theorem report_of_divisible {s : State σ τ} (hdiv : Divisible s) (conf : Conf) {t : Thread σ τ}
    (ht : t ∈ s.threads) (hrep : t.place.reporting = true) : s.status_report conf ≠ none := by
  intro hnone
  exact hdiv t ht hrep (status_report_eq_none_iff.mp hnone).2.2

/-! ## What a step does to the counts -/

/-- What a call of `incr_count` has added to the hart's own count, and not yet to the total. -/
def Place.pending : Place → Int
  | .incr_count c .readTotal => c.n
  | .incr_count c (.swapTotal _) => c.n
  | _ => 0

/-- What a hart has of the total: its swaps, and not its additions, make that. -/
def Thread.committed (t : Thread σ τ) : Int := t.hart.executed - t.place.pending

/-- A thread that has committed `n` more, or fewer, instructions. -/
structure Changed (t t' : Thread σ τ) (n : Int) : Prop where
  committed : t'.committed = t.committed + n
  total_insns : t'.hart.total_insns = t.hart.total_insns + n

/-- Of a hart that has committed so many instructions: what a call has counted it has committed before
it takes it back, and a call that returns false has counted something. -/
def Caller.Fine (committed : Int) : Caller → Prop
  | .ecall l => 0 ≤ l.insns
  | .back l => 0 ≤ l.insns ∧ l.insns ≤ committed
  | .leave b insns => 0 ≤ insns ∧ (b = false → 1 ≤ insns)

/-- What it has read is still there. -/
def Count.Fine (executed : Int) : Count → Prop
  | .writeExecuted v => v = executed
  | _ => True

def Place.Fine (executed committed : Int) : Place → Prop
  | .loop l => 0 ≤ l.insns
  | .incr_count c k => c.Fine committed ∧ k.Fine executed
  | .syscall l => 0 ≤ l.insns ∧ l.insns ≤ committed
  | .returned b => b = false → 1 ≤ committed
  | _ => True

def Thread.Fine (t : Thread σ τ) : Prop := t.place.Fine t.hart.executed t.committed

theorem committed_of_idle {t : Thread σ τ} {place : Place} (hplace : t.place = place)
    (hpending : place.pending = 0) : t.committed = t.hart.executed := by
  rw [Thread.committed, hplace, hpending, sub_zero]

theorem changed_zero {t t' : Thread σ τ} (hcommitted : t'.committed = t.committed)
    (htotal : t'.hart.total_insns = t.hart.total_insns) : Changed t t' 0 :=
  ⟨by rw [hcommitted, add_zero], by rw [htotal, add_zero]⟩

section
variable {env : Env σ τ} {l : Locals} {h h' : Hart σ τ} {t : Thread σ τ}

/-- A thread that has nothing under way, of those that a step of the interpreter leads to. -/
structure Settled (t : Thread σ τ) (executed total_insns : Int) : Prop where
  committed : t.committed = executed
  total_insns : t.hart.total_insns = total_insns
  quiet : t.place.reporting = false
  fine : t.Fine

/-- The end of an iteration leaves the counts to `incr_count`. -/
theorem ended_spec (pc : Long) (hl : 0 ≤ l.insns) : Settled (ended l pc h) h.executed h.total_insns := by
  unfold ended
  split
  · refine ⟨sub_zero _, rfl, rfl, ?_⟩
    show 0 ≤ l.insns + 1
    omega
  · refine ⟨sub_zero _, rfl, rfl, ⟨?_, fun _ => ?_⟩, trivial⟩ <;> omega

/-- An instruction that is no `ecall` changes the machine only. -/
theorem dispatch_setMachine {insns : Int} {i : Insn} {pc pc' : Long} (hecall : i.opcode ≠ .fast .ecall)
    (hd : dispatch env insns i pc h = .next pc' h') : ∃ m, h' = h.setMachine m := by
  cases dispatch_cases env hd with
  | ecall hecall' => exact absurd hecall' hecall
  | fast _ _ _ => exact ⟨_, rfl⟩
  | golden _ _ _ _ => exact ⟨_, rfl⟩

theorem dispatch_crash {insns : Int} {i : Insn} {pc : Long} {e : Stop σ τ} (hecall : i.opcode ≠ .fast .ecall)
    (hd : dispatch env insns i pc h = .stop e) : ∃ m, e = .crash m := by
  cases dispatch_cases env hd with
  | ecall_stop hecall' => exact absurd hecall' hecall
  | fast_stop _ _ _ => exact ⟨_, rfl⟩
  | null _ => exact ⟨_, rfl⟩
  | die _ _ => exact ⟨_, rfl⟩

/-- An iteration leaves the counts alone, up to an `ecall`. -/
theorem turn_spec (hl : 0 ≤ l.insns) (hturn : turn env l h = .ok t) :
    Settled t h.executed h.total_insns := by
  unfold turn at hturn
  split at hturn
  · cases hturn
  · split at hturn
    · cases hturn
    next i _ =>
      split at hturn
      · obtain rfl := Except.ok.inj hturn
        exact ⟨sub_zero _, rfl, rfl, hl, trivial⟩
      next hecall =>
        cases hd : dispatch env l.insns i l.pc _ with
        | next pc h₁ =>
          rw [hd] at hturn
          obtain rfl := Except.ok.inj hturn
          obtain ⟨m₁, rfl⟩ := dispatch_setMachine hecall hd
          exact ended_spec pc hl
        | trap_breakpoint h₁ =>
          rw [hd] at hturn
          obtain rfl := Except.ok.inj hturn
          obtain ⟨rfl, -⟩ := dispatch_trap.mp hd
          refine ⟨sub_zero _, rfl, rfl, ⟨hl, fun hb => ?_⟩, trivial⟩
          cases hb
        | stop e =>
          rw [hd] at hturn
          cases hturn

end

/-- What a system call does not do to its caller. -/
def SameCounts (h h' : Hart σ τ) : Prop :=
  h'.executed = h.executed ∧ h'.total_insns = h.total_insns

section
variable {p : Program σ τ} {code : InsnSpace} {host : Host σ τ} {h h' : Hart σ τ}

/-- The system call leaves the counts of its caller alone, whether it returns or exits. -/
theorem system_counts (hsys : system (p.env code host) h = .ok h' ∨
    system (p.env code host) h = .error (.exit h')) : SameCounts h h' := by
  unfold system at hsys
  cases hn : sysnum (p.env code host) h with
  | none =>
    rw [hn] at hsys
    rcases hsys with hsys | hsys
    · cases hsys
    · obtain rfl := Stop.exit.inj (Except.error.inj hsys)
      exact ⟨rfl, rfl⟩
  | some n =>
    rw [hn] at hsys
    dsimp only [Program.env] at hsys
    unfold Process.proxy_syscall at hsys
    split at hsys
    · rcases hsys with hsys | hsys
      · cases hsys
      · obtain rfl := Stop.exit.inj (Except.error.inj hsys)
        exact ⟨rfl, rfl⟩
    · rcases hsys with hsys | hsys
      · obtain rfl := Except.ok.inj hsys
        exact ⟨rfl, rfl⟩
      · cases hsys

end

section
variable {env : Env σ τ} {conf : Conf} {i : Nat} {l : Locals} {h h' : Hart σ τ}

theorem next_of_turn {t : Thread σ τ} (hturn : turn env l h = .ok t) :
    (Thread.mk h (.loop l)).next env conf i = some t := by
  unfold Thread.next
  dsimp only
  rw [hturn]
  rfl

theorem next_of_stop {e : Stop σ τ} (hturn : turn env l h = .error e) :
    (Thread.mk h (.loop l)).next env conf i = none := by
  unfold Thread.next
  dsimp only
  rw [hturn]
  rfl

theorem next_of_ok (hsys : system env h = .ok h') :
    (Thread.mk h (.syscall l)).next env conf i = some ⟨h', .incr_count (.back l) .readExecuted⟩ := by
  unfold Thread.next
  dsimp only
  rw [hsys]

theorem next_of_exit (hsys : system env h = .error (.exit h')) :
    (Thread.mk h (.syscall l)).next env conf i = some ⟨h', .exit⟩ := by
  unfold Thread.next
  dsimp only
  rw [hsys]

theorem next_of_crash {m : Machine σ τ} (hsys : system env h = .error (.crash m)) :
    (Thread.mk h (.syscall l)).next env conf i = none := by
  unfold Thread.next
  dsimp only
  rw [hsys]

end

/-! ## The call in one piece

The steps of a thread, one after the other, are the call of `Interpreter`. -/

section
variable {env : Env σ τ} {conf : Conf} {i : Nat}

variable (env conf i) in
def Goes (t t' : Thread σ τ) : Prop := t.next env conf i = some t'

open Relation (ReflTransGen)

/-- The number that `proxy_ecall` comes to, in `env.proxy_syscall`. -/
theorem proxy_ecall_cases {insns : Int} {h : Hart σ τ} (r : Except (Stop σ τ) (Hart σ τ))
    (hcall : proxy_ecall env insns h = r) :
    (∃ m, r = .error (.crash m)) ∨
      (∃ g, system env (h.incr_count insns) = .ok g ∧ r = .ok (g.incr_count (-insns))) ∨
      ∃ e, system env (h.incr_count insns) = .error e ∧ r = .error e := by
  unfold proxy_ecall at hcall
  dsimp only at hcall
  split at hcall
  · exact Or.inl ⟨_, hcall.symm⟩
  next hrange =>
    split at hcall
    · exact Or.inl ⟨_, hcall.symm⟩
    next n hn =>
      split at hcall
      · exact Or.inl ⟨_, hcall.symm⟩
      next hneg =>
        right
        have hnum : sysnum env (h.incr_count insns) = some n := by
          unfold sysnum
          dsimp only
          rw [if_neg hrange, hn, Option.filter_some, if_pos (by simpa using hneg)]
        unfold system
        rw [hnum]
        split at hcall
        · exact Or.inr ⟨_, ‹_›, hcall.symm⟩
        · exact Or.inl ⟨_, ‹_›, hcall.symm⟩

/-- A call of `incr_count` that no other thread comes between is the one of `Interpreter`. -/
theorem incr_goes (c : Caller) (h : Hart σ τ) :
    ReflTransGen (Goes env conf i) ⟨h, .incr_count c .readExecuted⟩ (c.finish (h.incr_count c.n)) := by
  let h' : Hart σ τ := { h with executed := h.executed + c.n }
  have hread : Goes env conf i ⟨h, .incr_count c .readExecuted⟩ ⟨h, .incr_count c (.writeExecuted h.executed)⟩ :=
    rfl
  have hadd : Goes env conf i ⟨h, .incr_count c (.writeExecuted h.executed)⟩ ⟨h', .incr_count c .readTotal⟩ := rfl
  have htotal : Goes env conf i ⟨h', .incr_count c .readTotal⟩ ⟨h', .incr_count c (.swapTotal h.total_insns)⟩ := rfl
  have hswap : Goes env conf i ⟨h', .incr_count c (.swapTotal h.total_insns)⟩ (c.finish (h.incr_count c.n)) :=
    congrArg some (if_pos rfl)
  exact (((ReflTransGen.single hread).tail hadd).tail htotal).tail hswap

/-- The steps of an `ecall` in its loop. -/
theorem ecall_goes {l : Locals} {h g : Hart σ τ} (hsys : system env (h.incr_count l.insns) = .ok g) :
    ReflTransGen (Goes env conf i) ⟨h, .incr_count (.ecall l) .readExecuted⟩
      (ended l (l.pc + 4) (g.incr_count (-l.insns)).clear_x0) := by
  have hin : ReflTransGen (Goes env conf i) ⟨h, .incr_count (.ecall l) .readExecuted⟩
      ⟨h.incr_count l.insns, .syscall l⟩ := incr_goes (.ecall l) h
  have hcall : Goes env conf i ⟨h.incr_count l.insns, .syscall l⟩ ⟨g, .incr_count (.back l) .readExecuted⟩ :=
    next_of_ok hsys
  exact (hin.tail hcall).trans (incr_goes (.back l) g)

/-- Where an iteration comes to in the loop, or out of it. -/
inductive Turned (l : Locals) : Step σ τ → Thread σ τ → Prop
  | next (pc : Long) (h : Hart σ τ) : Turned l (.next pc h) (ended l pc h)
  | trap_breakpoint (h : Hart σ τ) :
    Turned l (.trap_breakpoint h) ⟨h.write_pc l.pc, .incr_count (.leave true l.insns) .readExecuted⟩
  | exit (h : Hart σ τ) : Turned l (.stop (.exit h)) ⟨h, .exit⟩

/-- An `ecall` in the switch, from the call of `proxy_ecall` on. -/
theorem ecall_turned {l : Locals} {insn : Insn} {h : Hart σ τ} {t : Thread σ τ}
    (hecall : insn.opcode = .fast .ecall)
    (hturned : Turned l (dispatch env l.insns insn l.pc h).clear_x0 t) :
    ReflTransGen (Goes env conf i) ⟨h.write_pc l.pc, .incr_count (.ecall l) .readExecuted⟩ t := by
  unfold dispatch at hturned
  rw [if_pos hecall] at hturned
  rcases proxy_ecall_cases _ rfl with ⟨m', hcrash⟩ | ⟨g, hsys, hok⟩ | ⟨e, hsys, herr⟩
  · rw [hcrash] at hturned
    cases hturned
  · rw [hok] at hturned
    cases hturned
    exact ecall_goes hsys
  · -- the guest's `exit`, with the count of the call added
    rw [herr] at hturned
    cases hturned
    have hin : ReflTransGen (Goes env conf i) ⟨h.write_pc l.pc, .incr_count (.ecall l) .readExecuted⟩
        ⟨(h.write_pc l.pc).incr_count l.insns, .syscall l⟩ := incr_goes (.ecall l) _
    exact hin.tail (next_of_exit hsys)

/-- **An iteration** is steps of its thread: the body of the loop, and at an `ecall` the two calls
of `incr_count` around the system call. -/
theorem iteration_goes {l : Locals} {h : Hart σ τ} {t : Thread σ τ}
    (hturned : Turned l (iteration env l.insns l.pc h) t) :
    ReflTransGen (Goes env conf i) ⟨h, .loop l⟩ t := by
  cases hm : insn_model env.mmu l.pc h.toMachine with
  | error m =>
    unfold iteration at hturned
    rw [hm] at hturned
    cases hturned
  | ok r =>
    obtain ⟨⟨⟩, m⟩ := r
    cases hi : env.code.at l.pc with
    | none =>
      unfold iteration at hturned
      rw [hm] at hturned
      dsimp only at hturned
      rw [hi] at hturned
      cases hturned
    | some insn =>
      rw [iteration_eq env hm hi] at hturned
      by_cases hecall : insn.opcode = .fast .ecall
      · have hgo : Goes env conf i ⟨h, .loop l⟩
            ⟨(h.setMachine m).write_pc l.pc, .incr_count (.ecall l) .readExecuted⟩ := by
          refine next_of_turn ?_
          unfold turn
          rw [hm]
          dsimp only
          rw [hi]
          exact if_pos hecall
        exact ReflTransGen.head hgo (ecall_turned hecall hturned)
      · refine ReflTransGen.single (next_of_turn ?_)
        unfold turn
        rw [hm]
        dsimp only
        rw [hi]
        dsimp only
        rw [if_neg hecall]
        cases hd : dispatch env l.insns insn l.pc (h.setMachine m) with
        | next pc h₁ =>
          rw [hd] at hturned
          cases hturned
          rfl
        | trap_breakpoint h₁ =>
          rw [hd] at hturned
          cases hturned
          rfl
        | stop e =>
          obtain ⟨m', rfl⟩ := dispatch_crash hecall hd
          rw [hd] at hturned
          cases hturned

theorem iteration_next_goes {l : Locals} {h h₁ : Hart σ τ} {pc : Long}
    (hstep : iteration env l.insns l.pc h = .next pc h₁) :
    ReflTransGen (Goes env conf i) ⟨h, .loop l⟩ (ended l pc h₁) := by
  refine iteration_goes ?_
  rw [hstep]
  exact .next pc h₁

/-- Where a call comes to, if the process does not die in it. -/
inductive Arrived : Outcome σ τ → Thread σ τ → Prop
  | returned (b : Bool) (h : Hart σ τ) : Arrived (.returned b h) ⟨h, .returned b⟩
  | exit (h : Hart σ τ) : Arrived (.stopped (.exit h)) ⟨h, .exit⟩

/-- The loop, by induction on what is left of the count. -/
theorem loop_goes {how_many insns : Int} {pc : Long} {h : Hart σ τ} {t : Thread σ τ}
    (harrived : Arrived (loop env how_many insns pc h) t) :
    ReflTransGen (Goes env conf i) ⟨h, .loop ⟨how_many, insns, pc⟩⟩ t := by
  fun_induction loop env how_many insns pc h with
  | case1 insns pc h s hstep =>
    cases harrived
    refine iteration_goes ?_
    rw [hstep]
    exact .exit _
  | case2 insns pc h h₁ hstep =>
    cases harrived
    have hturned : Turned ⟨how_many, insns, pc⟩ (iteration env insns pc h)
        ⟨h₁.write_pc pc, .incr_count (.leave true insns) .readExecuted⟩ := by
      rw [hstep]
      exact .trap_breakpoint h₁
    exact (iteration_goes hturned).trans (incr_goes (.leave true insns) _)
  | case3 insns pc h pc₁ h₁ hstep hlt ih =>
    have hgo : ReflTransGen (Goes env conf i) ⟨h, .loop ⟨how_many, insns, pc⟩⟩
        (ended ⟨how_many, insns, pc⟩ pc₁ h₁) := iteration_next_goes hstep
    rw [ended, if_pos hlt] at hgo
    exact hgo.trans (ih harrived)
  | case4 insns pc h pc₁ h₁ hstep hge =>
    cases harrived
    have hgo : ReflTransGen (Goes env conf i) ⟨h, .loop ⟨how_many, insns, pc⟩⟩
        (ended ⟨how_many, insns, pc⟩ pc₁ h₁) := iteration_next_goes hstep
    rw [ended, if_neg hge] at hgo
    exact hgo.trans (incr_goes (.leave false (insns + 1)) _)

/-- **A call of the interpreter** that returns, or exits in a system call, is steps of its thread. -/
theorem interpreter_goes {h : Hart σ τ} {t : Thread σ τ}
    (harrived : Arrived (interpreter env (conf.how_many i) h) t) :
    ReflTransGen (Goes env conf i) ⟨h, .call⟩ t :=
  ReflTransGen.head rfl (loop_goes harrived)

end

/-! ## The total -/

/-- The total is what the harts have committed together, and each is where it can be with what it
has. -/
structure Inv (s : State σ τ) : Prop where
  balanced : Lib.Balanced (s.threads.map Thread.committed) s.total_insns
  fine : ∀ t ∈ s.threads, t.Fine

theorem account_eq {s : State σ τ} {i : Nat} {t : Thread σ τ} (ht : s.threads[i]? = some t) :
    (s.threads.map Thread.committed)[i]? = some t.committed := by
  rw [List.getElem?_map, ht, Option.map_some]

theorem Inv.committed_nonneg {s : State σ τ} (hinv : Inv s) {i : Nat} {t : Thread σ τ}
    (ht : s.threads[i]? = some t) : 0 ≤ t.committed :=
  hinv.balanced.nonneg _ (List.mem_of_getElem? (account_eq ht))

/-- A thread as it goes on, with the total of this moment. -/
def Thread.seeing (t : Thread σ τ) (total_insns : Int) : Thread σ τ :=
  { t with hart := { t.hart with total_insns } }

section
variable {s : State σ τ} {i : Nat} {t t' : Thread σ τ} {n : Int}
variable (hinv : Inv s) (ht : s.threads[i]? = some t) (hc : Changed (t.seeing s.total_insns) t' n)
include hinv ht hc

theorem moved_inv (hnonneg : 0 ≤ t'.committed) (hfine : t'.Fine) : Inv (s.moved i t') where
  balanced := by
    have hcommitted : t'.committed = t.committed + n := hc.committed
    show Lib.Balanced ((s.threads.set i t').map Thread.committed) t'.hart.total_insns
    rw [List.map_set, hc.total_insns, hcommitted]
    exact hinv.balanced.set (account_eq ht) (by rw [← hcommitted]; exact hnonneg)
  fine := by
    intro u hu
    rcases List.mem_or_eq_of_mem_set hu with hu | rfl
    · exact hinv.fine u hu
    · exact hfine

omit ht in
/-- More instructions are no harm to a report. -/
theorem moved_divisible (hdiv : Divisible s) (hn : 0 ≤ n) (hquiet : t'.place.reporting = false) :
    Divisible (s.moved i t') := by
  intro u hu hrep
  rcases List.mem_or_eq_of_mem_set hu with hu | rfl
  · have htotal : t'.hart.total_insns = s.total_insns + n := hc.total_insns
    have hne := hdiv u hu hrep
    have hpos := hinv.balanced.total_nonneg
    show t'.hart.total_insns ≠ 0
    omega
  · rw [hquiet] at hrep
    cases hrep

/-- A report begins. -/
theorem moved_reporting (hn : n = 0) (hrep : t'.place.reporting = true) :
    Divisible (s.moved i t') ↔ ∃ u ∈ s.threads, u.committed ≠ 0 := by
  have htotal : t'.hart.total_insns = s.total_insns := by rw [hc.total_insns, hn, add_zero]; rfl
  have hmem : t' ∈ (s.moved i t').threads := List.mem_set (List.getElem?_eq_some_iff.mp ht).1 _
  have hdivisor : Divisible (s.moved i t') ↔ s.total_insns ≠ 0 := by
    rw [← htotal]
    exact ⟨fun h => h t' hmem hrep, fun h _ _ _ => h⟩
  rw [hdivisor, hinv.balanced.total_ne_zero_iff]
  simp only [List.mem_map, exists_exists_and_eq_and]

/-- A hart takes back what it has added, in the middle of what reports there are. -/
theorem moved_back (k : Int) (hn : n = -k) (hk : k ≤ t.committed) (hout : t.place.reporting = false)
    (hquiet : t'.place.reporting = false) :
    Divisible (s.moved i t') ↔ ((∃ u ∈ s.threads, u.place.reporting = true) →
      t.committed ≠ k ∨ ∃ u ∈ s.threads.eraseIdx i, u.committed ≠ 0) := by
  have htotal : t'.hart.total_insns = s.total_insns - k := by rw [hc.total_insns, hn, ← sub_eq_add_neg]; rfl
  have hleft := hinv.balanced.total_sub_ne_zero_iff (account_eq ht) hk
  simp only [List.eraseIdx_map, List.mem_map, exists_exists_and_eq_and] at hleft
  rw [← hleft, ← htotal]
  constructor
  · intro hd hex
    obtain ⟨u, hu, hrep⟩ := hex
    obtain ⟨j, hj⟩ := List.getElem?_of_mem hu
    -- the one that reports is another one
    have hij : i ≠ j := by
      rintro rfl
      obtain rfl := Option.some.inj (ht.symm.trans hj)
      rw [hout] at hrep
      cases hrep
    have hstill : (s.moved i t').threads[j]? = some u := by
      show (s.threads.set i t')[j]? = some u
      rw [List.getElem?_set_ne hij, hj]
    exact hd u (List.mem_of_getElem? hstill) hrep
  · intro h u hu hrep
    rcases List.mem_or_eq_of_mem_set hu with hu | rfl
    · exact h ⟨u, hu, hrep⟩
    · rw [hquiet] at hrep
      cases hrep

end

/-! ## One step -/

/-- Where a thread goes into a report that its call has added nothing to, and where its swap takes
back what it has added: another hart has committed something, or it has itself. -/
def Committed (conf : Conf) (s : State σ τ) (i : Nat) (committed : Int) : Place → Prop
  | .returned true => (conf.after i true).reporting = true → ∃ u ∈ s.threads, u.committed ≠ 0
  | .exit => ∃ u ∈ s.threads, u.committed ≠ 0
  | .incr_count (.back l) (.swapTotal oldtotal) =>
      s.total_insns = oldtotal → (∃ u ∈ s.threads, u.place.reporting = true) →
        committed ≠ l.insns ∨ ∃ u ∈ s.threads.eraseIdx i, u.committed ≠ 0
  | _ => True

instance (conf : Conf) (s : State σ τ) (i : Nat) (committed : Int) (place : Place) :
    Decidable (Committed conf s i committed place) := by
  unfold Committed
  split <;> infer_instance

/-- The condition on a step, in the state before it. -/
def Safe (conf : Conf) (s : State σ τ) : Act σ τ → Prop
  | .go i _ => ∀ t ∈ s.threads[i]?, Committed conf s i t.committed t.place
  | _ => True

instance (conf : Conf) (s : State σ τ) : (a : Act σ τ) → Decidable (Safe conf s a)
  | .go i _ => inferInstanceAs (Decidable (∀ t ∈ s.threads[i]?, Committed conf s i t.committed t.place))
  | .clone _ _ _ => isTrue trivial
  | .reported _ => isTrue trivial
  | .shared _ _ _ _ => isTrue trivial
  | .packet _ => isTrue trivial
  | .redecode _ => isTrue trivial
  | .fault _ => isTrue trivial

section
variable {conf : Conf} {p : Program σ τ} {s s' : State σ τ} {i : Nat} {t t' : Thread σ τ}

/-- What the invariant says of a step that changes one thread. -/
def Follows (s : State σ τ) (i : Nat) (t' : Thread σ τ) (C : Prop) : Prop :=
  Inv (s.moved i t') ∧ (Divisible s → (Divisible (s.moved i t') ↔ C))

/-- A step that commits, and leads into no report. -/
theorem follows_of_adds (hinv : Inv s) (ht : s.threads[i]? = some t) {n : Int} (hn : 0 ≤ n)
    (hc : Changed (t.seeing s.total_insns) t' n) (hfine : t'.Fine)
    (hquiet : t'.place.reporting = false) : Follows s i t' True := by
  have hnonneg := hinv.committed_nonneg ht
  have hmore : t'.committed = t.committed + n := hc.committed
  refine ⟨moved_inv hinv ht hc (by omega) hfine, fun hdiv => ?_⟩
  exact iff_of_true (moved_divisible hinv hc hdiv hn hquiet) trivial

/-- A step of the interpreter, which leaves the counts alone. -/
theorem follows_of_settled (hinv : Inv s) (ht : s.threads[i]? = some t)
    (hsettled : Settled t' t.committed s.total_insns) : Follows s i t' True :=
  follows_of_adds hinv ht le_rfl (changed_zero hsettled.committed hsettled.total_insns) hsettled.fine
    hsettled.quiet

/-- A step into a report. -/
theorem follows_of_reporting (hinv : Inv s) (ht : s.threads[i]? = some t)
    (hc : Changed (t.seeing s.total_insns) t' 0) (hfine : t'.Fine)
    (hrep : t'.place.reporting = true) : Follows s i t' (∃ u ∈ s.threads, u.committed ≠ 0) := by
  have hnonneg := hinv.committed_nonneg ht
  have hsame : t'.committed = t.committed + 0 := hc.committed
  refine ⟨moved_inv hinv ht hc (by omega) hfine, fun _ => ?_⟩
  exact moved_reporting hinv ht hc rfl hrep

theorem follows_congr {C D : Prop} (h : Follows s i t' C) (hCD : C ↔ D) : Follows s i t' D :=
  ⟨h.1, fun hdiv => (h.2 hdiv).trans hCD⟩

/-- Where a thread goes from a return is a report or none, with nothing under way. -/
theorem after_fine (h : Hart σ τ) (b : Bool) :
    (Thread.mk h (conf.after i b)).Fine ∧ (Thread.mk h (conf.after i b)).committed = h.executed := by
  unfold Conf.after
  split
  · cases conf.main <;> cases b <;> exact ⟨trivial, sub_zero _⟩
  · exact ⟨trivial, sub_zero _⟩

/-- Between two calls the main thread of uspike is with the debugger, or is not. -/
theorem served_settled (c : Prop) [Decidable c] (h : Hart σ τ) :
    Settled ⟨h, if c then .call else .gdb⟩ h.executed h.total_insns := by
  split
  · exact ⟨sub_zero _, rfl, rfl, trivial⟩
  · exact ⟨sub_zero _, rfl, rfl, trivial⟩

/-- The swap that `incr_count` was called for: it commits what the call has added. The total can be
at zero after it only if the call takes something back. -/
theorem swap_follows (hinv : Inv s) {h : Hart σ τ} {c : Caller} {oldtotal : Int}
    (ht : s.threads[i]? = some ⟨h, .incr_count c (.swapTotal oldtotal)⟩) (heq : s.total_insns = oldtotal) :
    Follows s i (c.finish { h with total_insns := oldtotal + c.n })
      (Committed conf s i (h.executed - c.n) (.incr_count c (.swapTotal oldtotal))) := by
  have hnonneg : 0 ≤ h.executed - c.n := hinv.committed_nonneg ht
  obtain ⟨hfine, -⟩ : c.Fine (h.executed - c.n) ∧ True := hinv.fine _ (List.mem_of_getElem? ht)
  have hback : h.executed = h.executed - c.n + c.n := (sub_add_cancel _ _).symm
  cases c with
  | ecall l =>
    have hl : 0 ≤ l.insns := hfine
    have hn : 0 ≤ h.executed - l.insns := hnonneg
    have hc : Changed (Thread.seeing ⟨h, .incr_count (.ecall l) (.swapTotal oldtotal)⟩ s.total_insns)
        (Caller.finish { h with total_insns := oldtotal + l.insns } (.ecall l)) l.insns := by
      refine ⟨?_, congrArg (· + l.insns) heq.symm⟩
      exact (sub_zero _).trans hback
    refine follows_of_adds hinv ht hl hc ⟨hl, ?_⟩ rfl
    show l.insns ≤ h.executed - 0
    omega
  | back l =>
    obtain ⟨hl, hle⟩ : 0 ≤ l.insns ∧ l.insns ≤ h.executed - -l.insns := hfine
    have hsettled := ended_spec (l := l) (l.pc + 4)
      (h := ({ h with total_insns := oldtotal + -l.insns } : Hart σ τ).clear_x0) hl
    have hc : Changed (Thread.seeing ⟨h, .incr_count (.back l) (.swapTotal oldtotal)⟩ s.total_insns)
        (Caller.finish { h with total_insns := oldtotal + -l.insns } (.back l)) (-l.insns) := by
      refine ⟨hsettled.committed.trans hback, hsettled.total_insns.trans ?_⟩
      exact congrArg (· + -l.insns) heq.symm
    refine ⟨moved_inv hinv ht hc ?_ hsettled.fine, fun _ => ?_⟩
    · refine le_of_le_of_eq ?_ hsettled.committed.symm
      show 0 ≤ h.executed
      omega
    · refine (moved_back hinv ht hc l.insns rfl hle rfl hsettled.quiet).trans ?_
      exact ⟨fun hleft _ => hleft, fun hleft => hleft heq⟩
  | leave b insns =>
    obtain ⟨hi, hb⟩ : 0 ≤ insns ∧ (b = false → 1 ≤ insns) := hfine
    have hn : 0 ≤ h.executed - insns := hnonneg
    have hc : Changed (Thread.seeing ⟨h, .incr_count (.leave b insns) (.swapTotal oldtotal)⟩ s.total_insns)
        (Caller.finish { h with total_insns := oldtotal + insns } (.leave b insns)) insns := by
      refine ⟨?_, congrArg (· + insns) heq.symm⟩
      exact (sub_zero _).trans hback
    refine follows_of_adds hinv ht hi hc (fun hfalse => ?_) rfl
    show 1 ≤ h.executed - 0
    have hone := hb hfalse
    omega

/-- A step of `incr_count`. Up to the swap nothing is committed, and a swap that fails begins again. -/
theorem count_follows (hinv : Inv s) {h : Hart σ τ} {c : Caller} {k : Count}
    (ht : s.threads[i]? = some ⟨h, .incr_count c k⟩) :
    Follows s i ((Thread.seeing ⟨h, .incr_count c k⟩ s.total_insns).count c k)
      (Committed conf s i (Thread.committed ⟨h, .incr_count c k⟩) (.incr_count c k)) := by
  have hfine : c.Fine (Thread.committed ⟨h, .incr_count c k⟩) ∧ k.Fine h.executed :=
    hinv.fine _ (List.mem_of_getElem? ht)
  obtain ⟨hcaller, hcount⟩ := hfine
  have htrue (hk : ∀ oldtotal, k ≠ .swapTotal oldtotal) :
      Committed conf s i (Thread.committed ⟨h, .incr_count c k⟩) (.incr_count c k) := by
    cases k with
    | swapTotal oldtotal => exact absurd rfl (hk oldtotal)
    | _ => cases c <;> exact trivial
  -- the hart with the total as it sees it
  let seen : Hart σ τ := { h with total_insns := s.total_insns }
  cases k with
  | readExecuted =>
    have hfollows : Follows s i ⟨seen, .incr_count c (.writeExecuted h.executed)⟩ True :=
      follows_of_settled hinv ht ⟨rfl, rfl, rfl, hcaller, rfl⟩
    exact follows_congr hfollows (iff_of_true trivial (htrue nofun))
  | writeExecuted v =>
    obtain rfl : v = h.executed := hcount
    -- what is added is under way now
    have hcommitted : h.executed + c.n - c.n = h.executed - 0 := by rw [add_sub_cancel_right, sub_zero]
    have hfollows : Follows s i ⟨{ seen with executed := h.executed + c.n }, .incr_count c .readTotal⟩ True := by
      refine follows_of_settled hinv ht ⟨hcommitted, rfl, rfl, ?_, trivial⟩
      show c.Fine (h.executed + c.n - c.n)
      rw [hcommitted]
      exact hcaller
    exact follows_congr hfollows (iff_of_true trivial (htrue nofun))
  | readTotal =>
    have hfollows : Follows s i ⟨seen, .incr_count c (.swapTotal s.total_insns)⟩ True :=
      follows_of_settled hinv ht ⟨rfl, rfl, rfl, hcaller, trivial⟩
    exact follows_congr hfollows (iff_of_true trivial (htrue nofun))
  | swapTotal oldtotal =>
    have hswap : (Thread.seeing ⟨h, .incr_count c (.swapTotal oldtotal)⟩ s.total_insns).count c (.swapTotal oldtotal)
        = if s.total_insns = oldtotal then c.finish { h with total_insns := oldtotal + c.n }
          else ⟨seen, .incr_count c .readTotal⟩ := rfl
    rw [hswap]
    by_cases heq : s.total_insns = oldtotal
    · rw [if_pos heq]
      exact swap_follows hinv ht heq
    · rw [if_neg heq]
      have hfollows : Follows s i ⟨seen, .incr_count c .readTotal⟩ True :=
        follows_of_settled hinv ht ⟨rfl, rfl, rfl, hcaller, trivial⟩
      refine follows_congr hfollows (iff_of_true trivial ?_)
      cases c with
      | ecall l => exact trivial
      | back l => exact fun h => absurd h heq
      | leave b insns => exact trivial

/-- A thread goes on. -/
theorem next_follows (hinv : Inv s) (ht : s.threads[i]? = some t) {host : Host σ τ}
    (hnext : (t.seeing s.total_insns).next (p.env s.code host) conf i = some t') :
    Follows s i t' (Committed conf s i t.committed t.place) := by
  have hfine := hinv.fine t (List.mem_of_getElem? ht)
  obtain ⟨h, place⟩ := t
  cases place with
  | call =>
    obtain rfl := Option.some.inj hnext
    exact follows_of_adds hinv ht le_rfl (changed_zero rfl rfl) le_rfl rfl
  | loop l =>
    cases hturn : turn (p.env s.code host) l (Thread.seeing ⟨h, .loop l⟩ s.total_insns).hart with
    | error e => cases (next_of_stop hturn).symm.trans hnext
    | ok t₁ =>
      obtain rfl := Option.some.inj ((next_of_turn hturn).symm.trans hnext)
      have hsettled := turn_spec hfine hturn
      exact follows_of_settled hinv ht ⟨hsettled.committed.trans (sub_zero _).symm, hsettled.total_insns,
        hsettled.quiet, hsettled.fine⟩
  | incr_count c k =>
    obtain rfl := Option.some.inj hnext
    exact count_follows hinv ht
  | syscall l =>
    obtain ⟨hl, hle⟩ : 0 ≤ l.insns ∧ l.insns ≤ h.executed - 0 := hfine
    cases hsys : system (p.env s.code host) (Thread.seeing ⟨h, .syscall l⟩ s.total_insns).hart with
    | ok h' =>
      obtain rfl := Option.some.inj ((next_of_ok hsys).symm.trans hnext)
      obtain ⟨hex, htot⟩ := system_counts (Or.inl hsys)
      have hsame : h'.executed - 0 = h.executed - 0 := congrArg (· - 0) hex
      refine follows_of_adds hinv ht le_rfl (changed_zero hsame htot) ⟨⟨hl, ?_⟩, trivial⟩ rfl
      exact hle.trans_eq hsame.symm
    | error e =>
      cases e with
      | exit h' =>
        obtain rfl := Option.some.inj ((next_of_exit hsys).symm.trans hnext)
        obtain ⟨hex, htot⟩ := system_counts (Or.inr hsys)
        exact follows_of_adds hinv ht le_rfl (changed_zero (congrArg (· - 0) hex) htot) trivial rfl
      | crash m => cases (next_of_crash hsys).symm.trans hnext
  | returned b =>
    obtain rfl := Option.some.inj hnext
    obtain ⟨hafter, hsame⟩ : (Thread.mk _ (conf.after i b)).Fine ∧ _ :=
      after_fine (Thread.seeing ⟨h, .returned b⟩ s.total_insns).hart b
    have hc : Changed (Thread.seeing ⟨h, .returned b⟩ s.total_insns)
        ⟨(Thread.seeing ⟨h, .returned b⟩ s.total_insns).hart, conf.after i b⟩ 0 :=
      changed_zero (hsame.trans (sub_zero _).symm) rfl
    cases hrep : (conf.after i b).reporting with
    | false =>
      refine follows_congr (follows_of_adds hinv ht le_rfl hc hafter hrep) ?_
      cases b with
      | true => exact iff_of_true trivial fun h => absurd (hrep.symm.trans h) Bool.false_ne_true
      | false => exact Iff.rfl
    | true =>
      refine follows_congr (follows_of_reporting hinv ht hc hafter hrep) ?_
      cases b with
      | true => exact ⟨fun h _ => h, fun h => h hrep⟩
      | false =>
        -- a call that returns false has itself committed something
        have hone : 1 ≤ h.executed - 0 := hfine rfl
        exact iff_of_true ⟨_, List.mem_of_getElem? ht, by show h.executed - 0 ≠ 0; omega⟩ trivial
  | exit =>
    obtain rfl := Option.some.inj hnext
    exact follows_of_reporting hinv ht (changed_zero rfl rfl) trivial rfl
  | report exiting => cases hnext
  | gdb => cases hnext

/-- A thread that stays where it is, with the counts as they are. -/
theorem follows_of_stays (hinv : Inv s) (ht : s.threads[i]? = some t) {h : Hart σ τ}
    (hexecuted : h.executed = t.hart.executed) (htotal : h.total_insns = s.total_insns) :
    Follows s i ⟨h, t.place⟩ True := by
  have hmem := List.mem_of_getElem? ht
  have hsame : Thread.committed ⟨h, t.place⟩ = t.committed := congrArg (· - t.place.pending) hexecuted
  have hc : Changed (t.seeing s.total_insns) ⟨h, t.place⟩ 0 := changed_zero hsame htotal
  have hfine : Thread.Fine ⟨h, t.place⟩ := by
    unfold Thread.Fine
    rw [hsame]
    show t.place.Fine h.executed t.committed
    rw [hexecuted]
    exact hinv.fine t hmem
  have hnonneg := hinv.committed_nonneg ht
  refine ⟨moved_inv hinv ht hc (hsame ▸ hnonneg) hfine, fun hdiv => iff_of_true ?_ trivial⟩
  intro u hu hrep
  show h.total_insns ≠ 0
  rw [htotal]
  rcases List.mem_or_eq_of_mem_set hu with hu | rfl
  · exact hdiv u hu hrep
  · exact hdiv t hmem hrep

theorem onThread_cases {f : Thread σ τ → Option (Thread σ τ)} (hstep : s.onThread i f = some s') :
    ∃ t t', s.threads[i]? = some t ∧ f (t.seeing s.total_insns) = some t' ∧ s' = s.moved i t' := by
  obtain ⟨t, ht, hmap⟩ := Option.bind_eq_some_iff.mp hstep
  obtain ⟨t', hf, hs'⟩ := Option.map_eq_some_iff.mp hmap
  exact ⟨t, t', ht, hf, hs'.symm⟩

/-- A child has counted nothing, and is in no report. -/
theorem follows_child {C : Prop} {h : Hart σ τ} {mmu : σ} (hf : Follows s i t' C) :
    let s' := { s.moved i t' with threads := (s.moved i t').threads ++ [child h mmu] }
    Inv s' ∧ (Divisible s → (Divisible s' ↔ C)) := by
  refine ⟨⟨?_, ?_⟩, fun hdiv => ?_⟩
  · rw [List.map_append]
    exact hf.1.balanced.append_zero
  · intro u hu
    rcases List.mem_append.mp hu with hu | hu
    · exact hf.1.fine u hu
    · rw [List.mem_singleton.mp hu]
      exact trivial
  · refine Iff.trans ⟨fun hd u hu => hd u (List.mem_append_left _ hu), fun hd u hu hrep => ?_⟩ (hf.2 hdiv)
    rcases List.mem_append.mp hu with hu | hu
    · exact hd u hu hrep
    · rw [List.mem_singleton.mp hu] at hrep
      cases hrep

theorem place_of_atClone {env : Env σ τ} (hclone : t.atClone env = true) : ∃ l, t.place = .syscall l := by
  unfold Thread.atClone at hclone
  split at hclone
  · exact ⟨_, ‹_›⟩
  · cases hclone

/-- **One step** keeps the invariant, and whoever is in a report still has something to divide by
exactly if the step meets its condition. The cases are the actions; those of a single thread are the
lemmas above. -/
theorem step_follows (hinv : Inv s) {a : Act σ τ} (hstep : step conf p s a = some s') :
    Inv s' ∧ (Divisible s → (Divisible s' ↔ Safe conf s a)) := by
  cases a with
  | go i host =>
    rw [step] at hstep
    obtain ⟨t, t', ht, hf, rfl⟩ := onThread_cases hstep
    split at hf
    · cases hf
    · refine follows_congr (next_follows hinv ht hf) ?_
      show _ ↔ ∀ u ∈ s.threads[i]?, Committed conf s i u.committed u.place
      simp only [ht, Option.mem_def, Option.some.injEq, forall_eq']
  | clone i host mmu =>
    obtain ⟨parent, hparent, hif⟩ := Option.bind_eq_some_iff.mp hstep
    split at hif
    next hclone =>
      obtain ⟨u, hu, rfl⟩ := Option.map_eq_some_iff.mp hif
      obtain ⟨t, t', ht, hf, rfl⟩ := onThread_cases hu
      obtain rfl := Option.some.inj (hparent.symm.trans ht)
      obtain ⟨l, hplace⟩ := place_of_atClone hclone
      have hfollows := next_follows hinv ht hf
      rw [hplace] at hfollows
      exact follows_child hfollows
    next => cases hif
  | reported i =>
    rw [step] at hstep
    obtain ⟨t, t', ht, hf, rfl⟩ := onThread_cases hstep
    unfold Thread.reported at hf
    split at hf
    next hplace =>
      obtain ⟨-, -, rfl⟩ := Option.map_eq_some_iff.mp hf
      have hidle : t.committed = t.hart.executed := committed_of_idle hplace rfl
      exact follows_of_settled hinv ht ⟨(sub_zero _).trans hidle.symm, rfl, rfl, trivial⟩
    next => cases hf
  | shared i mem rest mmu =>
    rw [step] at hstep
    obtain ⟨t, t', ht, hf, rfl⟩ := onThread_cases hstep
    obtain rfl := Option.some.inj hf
    exact follows_of_stays hinv ht rfl rfl
  | packet inp =>
    rw [step] at hstep
    obtain ⟨t, t', ht, hf, rfl⟩ := onThread_cases hstep
    unfold Thread.serve at hf
    split at hf
    next hplace =>
      obtain rfl := Option.some.inj hf
      have hidle : t.committed = t.hart.executed := committed_of_idle hplace rfl
      have hsettled := served_settled (resumes ⟨t.hart.xpr, t.hart.pc⟩ inp = true)
        { t.hart with
          total_insns := s.total_insns
          xpr := (Gdblink.ProcessGdbCommand ⟨t.hart.xpr, t.hart.pc⟩ inp).gdb_reg
          pc := (Gdblink.ProcessGdbCommand ⟨t.hart.xpr, t.hart.pc⟩ inp).gdb_pc }
      exact follows_of_settled hinv ht
        ⟨hsettled.committed.trans hidle.symm, hsettled.total_insns, hsettled.quiet, hsettled.fine⟩
    next => cases hf
  | redecode code =>
    obtain rfl := Option.some.inj hstep
    exact ⟨⟨hinv.balanced, hinv.fine⟩, fun hdiv => iff_of_true hdiv trivial⟩
  | fault host =>
    rw [step] at hstep
    obtain ⟨t, t', ht, hf, rfl⟩ := onThread_cases hstep
    unfold Thread.fault at hf
    split at hf
    next l hplace =>
      split at hf
      · split at hf
        · obtain rfl := Option.some.inj hf
          have hidle : t.committed = t.hart.executed := committed_of_idle hplace rfl
          exact follows_of_settled hinv ht ⟨(sub_zero _).trans hidle.symm, rfl, rfl, trivial⟩
        · cases hf
      · cases hf
    next => cases hf

/-- Nothing has run. -/
theorem start_settled (conf : Conf) (code : InsnSpace) (sp : Long) (mem : Riscv.Mem) (rest : τ) (mmu : σ) :
    ∃ t, (State.start conf code sp mem rest mmu).threads = [t] ∧ Settled t 0 0 :=
  ⟨_, rfl, served_settled _ _⟩

/-- Nothing is counted at the start, and nobody reports. -/
theorem inv_start (conf : Conf) (code : InsnSpace) (sp : Long) (mem : Riscv.Mem) (rest : τ) (mmu : σ) :
    Inv (State.start conf code sp mem rest mmu) := by
  obtain ⟨t, hthreads, hsettled⟩ := start_settled conf code sp mem rest mmu
  refine ⟨⟨?_, ?_⟩, ?_⟩
  · rw [hthreads]
    intro a ha
    rw [List.mem_singleton.mp ha]
    exact hsettled.committed.ge
  · rw [hthreads]
    exact List.sum_singleton.trans hsettled.committed
  · rw [hthreads]
    intro u hu
    rw [List.mem_singleton.mp hu]
    exact hsettled.fine

theorem divisible_start (conf : Conf) (code : InsnSpace) (sp : Long) (mem : Riscv.Mem) (rest : τ) (mmu : σ) :
    Divisible (State.start conf code sp mem rest mmu) := by
  obtain ⟨t, hthreads, hsettled⟩ := start_settled conf code sp mem rest mmu
  intro u hu hrep
  rw [hthreads] at hu
  rw [List.mem_singleton.mp hu] at hrep
  exact absurd (hsettled.quiet.symm.trans hrep) Bool.false_ne_true

/-- **The divisor.** In every state of a run, whoever is in `status_report` has something to divide by,
exactly if in every step that goes from a breakpoint or an exit into a report some hart has committed
an instruction, and in every step that takes a count back during a report something is left. -/
theorem divisor_iff {code : InsnSpace} {sp : Long} {mem : Riscv.Mem} {rest : τ} {mmu : σ}
    {as : List (Act σ τ)} (hrun : Lib.run (step conf p) as (State.start conf code sp mem rest mmu) = some s) :
    (∀ bs cs t, as = bs ++ cs →
      Lib.run (step conf p) bs (State.start conf code sp mem rest mmu) = some t → Divisible t) ↔
      Lib.Along (step conf p) (Safe conf) as (State.start conf code sp mem rest mmu) :=
  Lib.run_states_iff_beside (fun _ _ _ hinv hstep => (step_follows hinv hstep).1)
    (fun _ _ _ hinv hdiv hstep => (step_follows hinv hstep).2 hdiv)
    (inv_start conf code sp mem rest mmu) (divisible_start conf code sp mem rest mmu) hrun

end

/-- `li a7, 220`, `ecall`, and `c.ebreak`, on which Spike's function throws. -/
def spawnText (entry : Long) : InsnSpace where
  base := 0x1000
  limit := 0x100a
  entry := entry
  predecoded :=
    [reg1imm (.fast .addi) 17 0 220, Insn.ofCode .ZERO, Insn.ofCode (.fast .ecall), Insn.ofCode .ZERO,
      Insn.ofCode (.c .c_ebreak)]

def spawnProgram : Program Unit Unit where
  mmu := mmu_t
  golden op := if op = .c .c_ebreak then some fun _ _ => .trap_breakpoint else none
  HIGHEST_ECALL_NUM := 300
  rv_to_host n := if n = 220 then some SYS_clone else if n = 93 then some Process.SYS_exit else none

def spawnStart (conf : Conf) (entry : Long) : State Unit Unit :=
  .start conf (spawnText entry) 0x5ffffff0 (fun _ => 0) () ()

def answer : Host Unit Unit := ⟨0, fun _ => 0, (), ()⟩

def main (n : Nat) : List (Act Unit Unit) := List.replicate n (.go 0 answer)

def second (n : Nat) : List (Act Unit Unit) := List.replicate n (.go 1 answer)

/-- One instruction a call. The second thread comes to its breakpoint with the first in `clone`. -/
def spawnRun : List (Act Unit Unit) :=
  main 7 ++ [.reported 0] ++ main 6 ++ [.clone 0 answer ()] ++ second 6 ++ main 4 ++ second 1 ++ main 1

theorem divisor_spawn : ∃ s,
    Lib.run (step ⟨.uspike, false, 0⟩ spawnProgram) spawnRun (spawnStart ⟨.uspike, false, 0⟩ 0x1000) = some s ∧
    s.threads.length = 2 ∧ Divisible s := by
  have hmap : (Lib.run (step ⟨.uspike, false, 0⟩ spawnProgram) spawnRun
      (spawnStart ⟨.uspike, false, 0⟩ 0x1000)).map (·.threads.length) = some 2 := by
    decide +kernel
  obtain ⟨s, hrun, hlen⟩ := Option.map_eq_some_iff.mp hmap
  refine ⟨s, hrun, hlen, ?_⟩
  exact (divisor_iff hrun).mpr (by decide +kernel) spawnRun [] s (List.append_nil _).symm hrun

/-- The parent has come to a breakpoint too, and has counted for itself what it has not swapped in. -/
def countedRun : List (Act Unit Unit) :=
  main 7 ++ [.clone 0 answer ()] ++ main 4 ++ main 3 ++ second 7

/-- Guests that have committed nothing: a breakpoint in the first instruction, one in the first
instruction of a child, also while the parent is in `incr_count`, and a first instruction that the
debugger makes an `exit`. -/
theorem divisor_zero :
    (∃ s, Lib.run (step ⟨.uspike, false, 100⟩ spawnProgram) (main 7)
      (spawnStart ⟨.uspike, false, 100⟩ 0x1008) = some s ∧ ¬Divisible s ∧
        s.status_report ⟨.uspike, false, 100⟩ = none) ∧
    (∃ s, Lib.run (step ⟨.caveat, false, 100⟩ spawnProgram)
      (main 7 ++ [.clone 0 answer ()] ++ main 4 ++ second 7)
      (spawnStart ⟨.caveat, false, 100⟩ 0x1000) = some s ∧ ¬Divisible s ∧
        s.status_report ⟨.caveat, false, 100⟩ = none) ∧
    (∃ s, Lib.run (step ⟨.gdb, false, 100⟩ spawnProgram)
      ([.packet (Process.input "P11=5d00000000000000"), .packet (Process.input "c")] ++ main 8)
      (spawnStart ⟨.gdb, false, 100⟩ 0x1004) = some s ∧ ¬Divisible s ∧
        s.status_report ⟨.gdb, false, 100⟩ = none) ∧
    ∃ s, Lib.run (step ⟨.caveat, false, 100⟩ spawnProgram) countedRun
      (spawnStart ⟨.caveat, false, 100⟩ 0x1000) = some s ∧ ¬Divisible s ∧
        s.threads.map (·.hart.executed) = [2, 0] := by
  have hends {α : Type} {o : Option (State Unit Unit)} {f : State Unit Unit → α} {x : α}
      (h : (o.map fun s => (decide (Divisible s), f s)) = some (false, x)) :
      ∃ s, o = some s ∧ ¬Divisible s ∧ f s = x := by
    obtain ⟨s, hs, hpair⟩ := Option.map_eq_some_iff.mp h
    obtain ⟨hdiv, hvalue⟩ := Prod.mk.inj hpair
    exact ⟨s, hs, of_decide_eq_false hdiv, hvalue⟩
  refine ⟨hends ?_, hends ?_, hends ?_, hends ?_⟩ <;> decide +kernel

end Cavatools.Uspike.Report
