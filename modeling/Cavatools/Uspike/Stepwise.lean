import Cavatools.Uspike.Interpreter

/-!
# A call of the interpreter, one iteration at a time

`interpreter` is a function: it takes a hart and returns one. For a process
with several threads that is too much at once, since what other threads do can
come between two iterations, when the call holds its pc and its count in
locals.

So a thread is a hart together with the locals of the call that it is in, if
it is in one (`Thread`), and `Thread.iterate` is one turn of the `do` loop on
these: an iteration, and the return with its write-back when the count is
reached or the instruction has thrown. There is no next turn where the process
is over. Any number of threads can be put side by side and take turns, with
the shared part of their harts exchanged in between.

Turning it until the call is over is `interpreter` (`iterations_interpreter`),
by induction on what is left of the count, so nothing is changed by taking a
call apart in this way.
-/

namespace Cavatools.Uspike

variable {σ τ : Type}

/-- The parameter and the locals of a call. -/
structure Locals where
  how_many : Int
  insns : Int
  pc : Long

/-- A hart, and the call of the interpreter that its thread is in. -/
structure Thread (σ τ : Type) where
  hart : Hart σ τ
  call : Option Locals

namespace Thread

variable (t : Thread σ τ)

def interpreter (how_many : Int) : Option (Thread σ τ) :=
  match t.call with
  | none => some { t with call := some ⟨how_many, 0, t.hart.pc⟩ }
  | some _ => none

/-- The next turn of the loop. The process is over where there is none. -/
def iterate (env : Env σ τ) : Option (Thread σ τ) :=
  match t.call with
  | none => none
  | some l =>
    match iteration env l.insns l.pc t.hart with
    | .stop _ => none
    | .trap_breakpoint h => some ⟨(h.write_pc l.pc).incr_count l.insns, none⟩
    | .next pc h =>
      if l.insns + 1 < l.how_many then some ⟨h, some ⟨l.how_many, l.insns + 1, pc⟩⟩
      else some ⟨(h.write_pc pc).incr_count (l.insns + 1), none⟩

/-- So many turns. -/
def iterations (env : Env σ τ) : Nat → Thread σ τ → Option (Thread σ τ)
  | 0, t => some t
  | n + 1, t => (t.iterate env).bind (iterations env n)

end Thread

variable {env : Env σ τ}

/-- From the middle of a call. -/
theorem iterations_loop {how_many insns : Int} {pc : Long} {h h' : Hart σ τ} {b : Bool}
    (hrun : loop env how_many insns pc h = .returned b h') :
    ∃ n, Thread.iterations env n ⟨h, some ⟨how_many, insns, pc⟩⟩ = some ⟨h', none⟩ := by
  fun_induction loop env how_many insns pc h with
  | case1 insns pc h s hstep => cases hrun
  | case2 insns pc h h₁ hstep =>
    -- a throw ends the call in this turn
    obtain ⟨-, rfl⟩ := Outcome.returned.inj hrun
    refine ⟨1, ?_⟩
    simp only [Thread.iterations, Thread.iterate, hstep, Option.bind_some]
  | case3 insns pc h pc₁ h₁ hstep hlt ih =>
    obtain ⟨n, hn⟩ := ih hrun
    refine ⟨n + 1, ?_⟩
    simp only [Thread.iterations, Thread.iterate, hstep, if_pos hlt, Option.bind_some]
    exact hn
  | case4 insns pc h pc₁ h₁ hstep hge =>
    -- and so does the last instruction
    obtain ⟨-, rfl⟩ := Outcome.returned.inj hrun
    refine ⟨1, ?_⟩
    simp only [Thread.iterations, Thread.iterate, hstep, if_neg hge, Option.bind_some]

/-- **A call that returns** is that many turns from where it enters. -/
theorem iterations_interpreter {how_many : Int} {h h' : Hart σ τ} {b : Bool}
    (hrun : interpreter env how_many h = .returned b h') :
    ∃ n t, (Thread.mk h none).interpreter how_many = some t ∧
      Thread.iterations env n t = some ⟨h', none⟩ := by
  obtain ⟨n, hn⟩ := iterations_loop hrun
  exact ⟨n, _, rfl, hn⟩

end Cavatools.Uspike
