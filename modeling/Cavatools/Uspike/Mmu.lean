import Cavatools.Riscv.Memory
import Cavatools.Uspike.Insn

/-!
# The memory and timing model, and the part of a hart it sees

`mmu_t` is the interface between the interpreter and a simulator: every
instruction, taken jump and memory access is announced through one of its five
models, and the address it returns is the one that is used. The base class
returns every address unchanged; caveat overrides the models to count. A model
can also stop the process (an index check that fails), which is `none` here.
`Mmu` are the virtual functions over a state `σ` of the derived class.

An action of an instruction reads and writes a `Machine`: the integer
registers, the memory, the state of the model, the rest `τ` of Spike's state,
and the list of events. An event is what an observer of the interpreter sees,
a call of a model or a system call; the list is for statements and is read by
no code. An action (`Act`) gives a value and the next machine, or the machine
at the point where the process died, or where C++ gives the program no
meaning.

Registers are addressed by the signed bytes of a descriptor. `readX` and
`writeX` index the file of 32 as the macros do, and so can write register 0;
`write_reg` is Spike's own, which ignores that write. Loads and stores come as
one C++ member for each type; the type is the number of bytes and, for a load,
the extension.
-/

namespace Cavatools.Uspike

open Riscv (Mem)

/-- The virtual functions of `mmu_t` over a state `σ` of the derived class. -/
structure Mmu (σ : Type) where
  insn_model : (pc : Long) → σ → Option σ
  jump_model : (npc pc : Long) → σ → Option (Long × σ)
  load_model : (a pc : Long) → σ → Option (Long × σ)
  store_model : (a pc : Long) → σ → Option (Long × σ)
  amo_model : (a pc : Long) → σ → Option σ

/-- The base class. -/
def mmu_t : Mmu Unit where
  insn_model _ s := some s
  jump_model npc _ s := some (npc, s)
  load_model a _ s := some (a, s)
  store_model a _ s := some (a, s)
  amo_model _ _ s := some s

/-- What an observer of the interpreter sees: the calls of the five models, and
each system call with the value of `executed()` inside it. -/
inductive Event
  | insn_model (pc : Long)
  | jump_model (npc pc : Long)
  | load_model (a pc : Long)
  | store_model (a pc : Long)
  | amo_model (a pc : Long)
  | proxy_syscall (sysnum : Int) (executed : Int)
  deriving DecidableEq, Repr

/-- What an instruction's action reads and writes: the integer registers, the
memory, the rest `τ` of Spike's `state_t` and of the host, and the state of the
memory model. `trace` is the list of events so far, newest first; no code reads it. -/
structure Machine (σ τ : Type) where
  xpr : BitVec 5 → Long
  mem : Mem
  rest : τ
  mmu : σ
  trace : List Event

/-- An action on the machine. The error is the machine at the point where the
process died, or where C++ gives the program no meaning. -/
abbrev Act (σ τ : Type) := StateT (Machine σ τ) (Except (Machine σ τ))

variable {σ τ : Type}

/-- The process dies here. -/
def crash {α : Type} : Act σ τ α := fun m => .error m

def Machine.log (m : Machine σ τ) (e : Event) : Machine σ τ := { m with trace := e :: m.trace }

/-! ## Registers -/

/-- `xpr[r]` for a register byte of a descriptor; the file has 32 registers. -/
def readX (r : BitVec 8) : Act σ τ Long := fun m =>
  if r.toNat < 32 then .ok (m.xpr (r.setWidth 5), m) else .error m

/-- `xpr[r] = v`, which can write register 0. -/
def writeX (r : BitVec 8) (v : Long) : Act σ τ Unit := fun m =>
  if r.toNat < 32 then .ok ((), { m with xpr := Function.update m.xpr (r.setWidth 5) v })
  else .error m

/-- `write_reg(r, v)`: Spike's register file ignores a write to `x0`. -/
def write_reg (r : BitVec 8) (v : Long) : Act σ τ Unit := fun m =>
  if r = 0 then .ok ((), m) else writeX r v m

/-! ## The models -/

variable (mmu : Mmu σ)

def insn_model (pc : Long) : Act σ τ Unit := fun m =>
  let m := m.log (.insn_model pc)
  match mmu.insn_model pc m.mmu with
  | some s => .ok ((), { m with mmu := s })
  | none => .error m

def jump_model (npc pc : Long) : Act σ τ Long := fun m =>
  let m := m.log (.jump_model npc pc)
  match mmu.jump_model npc pc m.mmu with
  | some (a, s) => .ok (a, { m with mmu := s })
  | none => .error m

def load_model (a pc : Long) : Act σ τ Long := fun m =>
  let m := m.log (.load_model a pc)
  match mmu.load_model a pc m.mmu with
  | some (a, s) => .ok (a, { m with mmu := s })
  | none => .error m

def store_model (a pc : Long) : Act σ τ Long := fun m =>
  let m := m.log (.store_model a pc)
  match mmu.store_model a pc m.mmu with
  | some (a, s) => .ok (a, { m with mmu := s })
  | none => .error m

def amo_model (a pc : Long) : Act σ τ Unit := fun m =>
  let m := m.log (.amo_model a pc)
  match mmu.amo_model a pc m.mmu with
  | some s => .ok ((), { m with mmu := s })
  | none => .error m

/-! ## Loads and stores

One C++ member per type; the type is the number of bytes and, for a load, the
sign extension of its conversion to `long`. -/

def load_int (n : Nat) (a pc : Long) : Act σ τ Long := do
  let a ← load_model mmu a pc
  return ((← get).mem.load a n).signExtend 64

def load_uint (n : Nat) (a pc : Long) : Act σ τ Long := do
  let a ← load_model mmu a pc
  return ((← get).mem.load a n).setWidth 64

def store_int (n : Nat) (a pc : Long) (v : Long) : Act σ τ Unit := do
  let a ← store_model mmu a pc
  modify fun m => { m with mem := m.mem.store a n (v.setWidth (8 * n)) }

def load_int8 : Long → Long → Act σ τ Long := load_int mmu 1
def load_int16 : Long → Long → Act σ τ Long := load_int mmu 2
def load_int32 : Long → Long → Act σ τ Long := load_int mmu 4
def load_int64 : Long → Long → Act σ τ Long := load_int mmu 8
def load_uint8 : Long → Long → Act σ τ Long := load_uint mmu 1
def load_uint16 : Long → Long → Act σ τ Long := load_uint mmu 2
def load_uint32 : Long → Long → Act σ τ Long := load_uint mmu 4
def store_int8 : Long → Long → Long → Act σ τ Unit := store_int mmu 1
def store_int16 : Long → Long → Long → Act σ τ Unit := store_int mmu 2
def store_int32 : Long → Long → Long → Act σ τ Unit := store_int mmu 4
def store_int64 : Long → Long → Long → Act σ τ Unit := store_int mmu 8

end Cavatools.Uspike
