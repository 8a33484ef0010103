import Cavatools.Riscv.Machine

/-!
# Several cores on one memory

A machine with several cores, as a thread library sees it: each core has its
registers and its pc, while the memory, and what is behind the environment
calls, is one for all of them (`Cores`). What one core sees of it is a state
of the machine with one core (`view`), and after its instruction the registers
go back to the core and the rest to all (`put`).

The cores take turns in any order, an instruction at a time: a `Move` names
the core that is next, `Turn` is one instruction of it, and `Turns` is a whole
interleaving. So the memory is sequentially consistent; a weaker one is not
modelled.

A core that calls `clone` makes another one, with the stack and the thread
pointer that it asks for (`Core.child`), and the new core can have its turn as
soon as its parent is past the call. Only the clone of a thread is a turn, one
whose flags ask for shared memory and for the thread pointer and that has a
stack; any other `clone` makes no such child and is no turn here.
-/

namespace Cavatools.Riscv

variable {ρ η : Type}

/-- The registers and the pc of a core, and what else is its own. -/
structure Core (ρ : Type) where
  x : BitVec 5 → BitVec 64
  pc : BitVec 64
  own : ρ

structure Cores (ρ η : Type) where
  cores : List (Core ρ)
  mem : Mem
  shared : η

namespace Cores

variable (s : Cores ρ η)

/-- What one of the cores sees. -/
def view (c : Core ρ) : ArchState × (ρ × η) := (⟨c.x, c.pc, s.mem⟩, (c.own, s.shared))

/-- The core at `i` has come to `q`. -/
def put (i : Nat) (q : ArchState × (ρ × η)) : Cores ρ η where
  cores := s.cores.set i ⟨q.1.x, q.1.pc, q.2.1⟩
  mem := q.1.mem
  shared := q.2.2

end Cores

/-- `clone` for RISC-V: a1 is the stack of the child, a3 its thread pointer, and it is told 0. The
flags of `Turn.clone` are `CLONE_VM` and `CLONE_SETTLS`. -/
def Core.child (c : Core ρ) : Core ρ where
  x := Function.update (Function.update (Function.update c.x 2 (c.x 11)) 4 (c.x 13)) 10 0
  pc := c.pc + 4
  own := c.own

/-- Which core is next, and whether its instruction is a `clone`. -/
inductive Move
  | step (i : Nat)
  | clone (i : Nat)
  deriving DecidableEq, Repr

def Move.core : Move → Nat
  | .step i => i
  | .clone i => i

/-- One instruction of one core. A child that shares the memory is there as soon as the parent is
past its `clone`; a `clone` that makes no such child is no turn. -/
inductive Turn (e : Elsewhere (ρ × η)) (C : ArchState → Prop) : Cores ρ η → Move → Cores ρ η → Prop
  | step {s : Cores ρ η} {i : Nat} {c : Core ρ} {q : ArchState × (ρ × η)} (hc : s.cores[i]? = some c)
      (hC : C (s.view c).1) (hno : ¬((s.view c).1.fetch = 0x73 ∧ c.x 17 = 220))
      (hstep : Step e (s.view c) q) : Turn e C s (.step i) (s.put i q)
  | clone {s : Cores ρ η} {i : Nat} {c : Core ρ} {q : ArchState × (ρ × η)} (hc : s.cores[i]? = some c)
      (hC : C (s.view c).1) (henc : (s.view c).1.fetch = 0x73) (hnumber : c.x 17 = 220)
      (hflags : c.x 10 &&& 0x80100 = 0x80100) (hstack : c.x 11 ≠ 0) (hcall : e.ecall (s.view c) = some q) :
      Turn e C s (.clone i) (Cores.put { s with cores := s.cores ++ [c.child] } i q)

/-- Turns of the cores, in some order. -/
inductive Turns (e : Elsewhere (ρ × η)) (C : ArchState → Prop) :
    List Move → Cores ρ η → Cores ρ η → Prop
  | nil (s : Cores ρ η) : Turns e C [] s s
  | cons {m : Move} {ms : List Move} {s s' s'' : Cores ρ η} (hturn : Turn e C s m s')
      (hrest : Turns e C ms s' s'') : Turns e C (m :: ms) s s''

end Cavatools.Riscv
