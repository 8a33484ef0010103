import Cavatools.Uspike.Clone
import Cavatools.Uspike.GdbCommand
import Cavatools.Uspike.RegZero
import Cavatools.Uspike.Stepwise

/-!
# The threads of a process

The main thread calls the interpreter, and between its calls serves the
debugger; every other thread comes out of a `clone` and calls the interpreter
for good. The threads go on in any order, one iteration at a time (`step`).
What they share, memory, the count of instructions and what the host keeps,
can be any other value whenever a thread looks again, so nothing is assumed
about how the threads interleave within an iteration.

The debugger can write the registers and the pc of the main thread between two
of its calls (`serve`). A fault inside an iteration is caught by a `longjmp`
back to `main`, with the machine as it was there (`fault`). A child of a
`clone` starts with the registers that the handshake gives it (`child`).

Register 0 is a word like any other, which every iteration clears at its end.
The debugger writes it too, and nobody clears it after that. `Zero` says that
every thread has 0 there. Each action keeps it (`zero_step`): an iteration
that goes on by its own clearing, one that throws because it has changed
nothing, one that fails because the functions of Spike's leave register 0
alone (`SpikeZero`), a child because its parent has 0, and a packet if it is
one that leaves 0 there (`keepsZero`). Conversely, after any packet that does
not, a single step starts with something else in register 0
(`starts_nonzero`).

`xpr_zero` is both halves: the runs whose packets leave 0 there, and what
follows from one that does not.
-/

namespace Cavatools.Uspike.Process

open Function (update)
open Gdblink (Input)

variable {σ τ : Type}

/-- What the code of all threads is made of. -/
structure Program (σ τ : Type) where
  mmu : Mmu σ
  golden : Opcode → Option (Long → Machine σ τ → Golden σ τ)
  HIGHEST_ECALL_NUM : Int
  rv_to_host : Nat → Option Int

/-! ## System calls -/

def SYS_clone : Int := 56
def SYS_exit : Int := 60
def SYS_exit_group : Int := 231

/-- What the host answers, and what it leaves of all that is not a register of the caller. -/
structure Host (σ τ : Type) where
  retval : Long
  mem : Riscv.Mem
  rest : τ
  mmu : σ

/-- The child of a `clone` is a thread of its own, and does not come back through here. -/
def proxy_syscall (host : Host σ τ) (sysnum : Int) (h : Hart σ τ) : Except (Stop σ τ) (Hart σ τ) :=
  if sysnum = SYS_exit ∨ sysnum = SYS_exit_group then .error (.exit h)
  else .ok { h with
    xpr := update h.xpr 10 host.retval, mem := host.mem, rest := host.rest, mmu := host.mmu }

/-- The surroundings of an iteration. -/
def Program.env (p : Program σ τ) (code : InsnSpace) (host : Host σ τ) : Env σ τ where
  code := code
  mmu := p.mmu
  golden := p.golden
  HIGHEST_ECALL_NUM := p.HIGHEST_ECALL_NUM
  rv_to_host := p.rv_to_host
  proxy_syscall := proxy_syscall host

/-! ## The process -/

structure State (σ τ : Type) where
  code : InsnSpace
  threads : List (Thread σ τ)

/-- A thread calls the interpreter, takes a turn of its loop, makes a child, or sees what
the others and the host have done; the debugger sends a packet, of which an `M` gives
another text; the main thread comes back from a fault. -/
inductive Act (σ τ : Type)
  | interpreter (i : Nat) (how_many : Int)
  | iterate (i : Nat) (host : Host σ τ)
  | clone (i : Nat) (mmu : σ)
  | shared (i : Nat) (mem : Riscv.Mem) (rest : τ) (mmu : σ) (total_insns : Int)
  | packet (inp : Input)
  | redecode (code : InsnSpace)
  | fault (host : Host σ τ)

/-- The registers of a hart that is inside a call at `pc`, by their names in `Clone`. -/
def regsAt (h : Hart σ τ) (pc : Long) : Clone.Regs Empty
  | .pc => pc
  | .xpr r => h.xpr r
  | .rest x => x.elim

/-- A thread at an `ecall` for `clone`. -/
def atClone (p : Program σ τ) (code : InsnSpace) (t : Thread σ τ) : Option Long :=
  match t.call with
  | none => none
  | some l =>
    match code.at l.pc with
    | none => none
    | some i =>
      if i.opcode = .fast .ecall ∧ p.rv_to_host (t.hart.xpr 17).toNat = some SYS_clone then some l.pc
      else none

/-- The child that starts in its loop. -/
def child (t : Thread σ τ) (pc : Long) (mmu : σ) : Thread σ τ where
  hart :=
    { xpr := fun r => Clone.started (regsAt t.hart pc) (.xpr r), mem := t.hart.mem, rest := t.hart.rest,
      mmu := mmu, trace := [], pc := Clone.started (regsAt t.hart pc) .pc, executed := 0,
      total_insns := t.hart.total_insns }
  call := none

/-- The main thread serves a packet between two calls. -/
def serve (inp : Input) (t : Thread σ τ) : Option (Thread σ τ) :=
  match t.call with
  | some _ => none
  | none =>
    let regs := Gdblink.ProcessGdbCommand ⟨t.hart.xpr, t.hart.pc⟩ inp
    some { t with hart := { t.hart with xpr := regs.gdb_reg, pc := regs.gdb_pc } }

/-- `longjmp` out of an iteration that fails, with the machine as it is there. -/
def fault (env : Env σ τ) (t : Thread σ τ) : Option (Thread σ τ) :=
  match t.call with
  | none => none
  | some l =>
    match iteration env l.insns l.pc t.hart with
    | .stop (.crash m) => some ⟨t.hart.setMachine m, none⟩
    | _ => none

namespace State

variable (s : State σ τ)

/-- `main`, with the hart that Spike's constructor has reset. -/
def start (code : InsnSpace) (sp : Long) (mem : Riscv.Mem) (rest : τ) (mmu : σ) : State σ τ where
  code := code
  threads :=
    [{ hart :=
        { xpr := update (fun _ => 0) 2 sp, mem := mem, rest := rest, mmu := mmu, trace := [],
          pc := code.entry, executed := 0, total_insns := 0 }
       call := none }]

def onThread (i : Nat) (f : Thread σ τ → Option (Thread σ τ)) : Option (State σ τ) :=
  s.threads[i]?.bind fun t => (f t).map fun t' => { s with threads := s.threads.set i t' }

end State

def step (p : Program σ τ) (s : State σ τ) : Act σ τ → Option (State σ τ)
  | .interpreter i how_many => s.onThread i (·.interpreter how_many)
  | .iterate i host => s.onThread i (·.iterate (p.env s.code host))
  | .clone i mmu => s.threads[i]?.bind fun t => (atClone p s.code t).map fun pc =>
      { s with threads := s.threads ++ [child t pc mmu] }
  | .shared i mem rest mmu total_insns => s.onThread i fun t =>
      some { t with hart := { t.hart with
        mem := mem, rest := rest, mmu := mmu, total_insns := total_insns } }
  | .packet inp => s.onThread 0 (serve inp)
  | .redecode code => some { s with code }
  | .fault host => s.onThread 0 (fault (p.env s.code host))

/-! ## Register 0 -/

/-- Every thread has 0 in register 0. -/
def Zero (s : State σ τ) : Prop := ∀ t ∈ s.threads, t.hart.xpr 0 = 0

/-- A packet that leaves 0 in register 0, or no packet. -/
def keepsZero : Act σ τ → Bool
  | .packet inp => Gdblink.keepsZero inp
  | _ => true

/-- One of Spike's functions that fails has left register 0 alone. -/
def SpikeZero (p : Program σ τ) : Prop :=
  ∀ op f pc m m', p.golden op = some f → f pc m = .die m' → m.xpr 0 = 0 → m'.xpr 0 = 0

variable {p : Program σ τ} {s s' : State σ τ}

theorem envZero (hspike : SpikeZero p) (code : InsnSpace) (host : Host σ τ) : EnvZero (p.env code host) where
  die := hspike
  proxy_syscall sysnum h m hsys _ := by
    change proxy_syscall host sysnum h = _ at hsys
    unfold proxy_syscall at hsys
    split at hsys <;> cases hsys

theorem zero_onThread (hzero : Zero s) {i : Nat} {f : Thread σ τ → Option (Thread σ τ)}
    (hf : ∀ t t', t.hart.xpr 0 = 0 → f t = some t' → t'.hart.xpr 0 = 0)
    (hstep : s.onThread i f = some s') : Zero s' := by
  obtain ⟨t, ht, hmap⟩ := Option.bind_eq_some_iff.mp hstep
  obtain ⟨t', hft, rfl⟩ := Option.map_eq_some_iff.mp hmap
  intro u hu
  -- another thread, or the one that has moved
  rcases List.mem_or_eq_of_mem_set hu with hu | rfl
  · exact hzero u hu
  · exact hf t u (hzero t (List.mem_of_getElem? ht)) hft

/-- A turn of the loop ends with 0 in register 0, whether it goes on, throws or returns. -/
theorem iterate_zero {env : Env σ τ} {t t' : Thread σ τ} (hzero : t.hart.xpr 0 = 0)
    (hstep : t.iterate env = some t') : t'.hart.xpr 0 = 0 := by
  unfold Thread.iterate at hstep
  split at hstep
  · cases hstep
  · split at hstep
    · cases hstep
    next htrap =>
      -- a throw: the clear is not reached, and nothing was written
      obtain rfl := Option.some.inj hstep
      have hh := iteration_trap_zero hzero htrap
      exact hh
    next hnext =>
      have hh := iteration_next_zero hnext
      split at hstep <;> cases hstep <;> exact hh

theorem fault_zero {env : Env σ τ} (hE : EnvZero env) {t t' : Thread σ τ} (hzero : t.hart.xpr 0 = 0)
    (hstep : fault env t = some t') : t'.hart.xpr 0 = 0 := by
  unfold fault at hstep
  split at hstep
  · cases hstep
  · split at hstep <;> cases hstep
    next hcrash => exact iteration_crash_zero hE hzero hcrash

theorem serve_zero {inp : Input} {t t' : Thread σ τ} (hzero : t.hart.xpr 0 = 0)
    (hstep : serve inp t = some t') : t'.hart.xpr 0 = 0 ↔ Gdblink.keepsZero inp = true := by
  unfold serve at hstep
  split at hstep
  · cases hstep
  · cases hstep
    exact Gdblink.command_zero hzero inp

/-- A child's register 0 is its parent's. -/
theorem child_zero (t : Thread σ τ) (pc : Long) (mmu : σ) : (child t pc mmu).hart.xpr 0 = t.hart.xpr 0 := by
  change Clone.started (regsAt t.hart pc) (.xpr 0) = _
  simp [Clone.started, regsAt]

/-- **One action** keeps 0 in register 0 of every thread, if its packet does. -/
theorem zero_step (hspike : SpikeZero p) (hzero : Zero s) {a : Act σ τ} (hkeeps : keepsZero a = true)
    (hstep : step p s a = some s') : Zero s' := by
  cases a with
  | interpreter i how_many =>
    refine zero_onThread hzero ?_ hstep
    intro t t' ht hcall
    unfold Thread.interpreter at hcall
    split at hcall <;> cases hcall
    exact ht
  | iterate i host => exact zero_onThread hzero (fun _ _ ht => iterate_zero ht) hstep
  | clone i mmu =>
    -- the child copies its parent, which clears nothing on its way to the `ecall`
    obtain ⟨t, ht, hmap⟩ := Option.bind_eq_some_iff.mp hstep
    obtain ⟨pc, -, rfl⟩ := Option.map_eq_some_iff.mp hmap
    intro u hu
    rcases List.mem_append.mp hu with hu | hu
    · exact hzero u hu
    · rw [List.mem_singleton.mp hu, child_zero]
      exact hzero t (List.mem_of_getElem? ht)
  | shared i mem rest mmu total_insns =>
    refine zero_onThread hzero ?_ hstep
    intro t t' ht hsee
    obtain rfl := Option.some.inj hsee
    exact ht
  -- the only step that can put something else there
  | packet inp => exact zero_onThread hzero (fun _ _ ht hserve => (serve_zero ht hserve).mpr hkeeps) hstep
  | redecode code =>
    obtain rfl := Option.some.inj hstep
    exact hzero
  | fault host => exact zero_onThread hzero (fun _ _ ht => fault_zero (envZero hspike _ _) ht) hstep

theorem zero_start (code : InsnSpace) (sp : Long) (mem : Riscv.Mem) (rest : τ) (mmu : σ) :
    Zero (State.start code sp mem rest mmu) := by
  intro t ht
  rw [List.mem_singleton.mp ht]
  rfl

theorem onThread_eq {i : Nat} {t t' : Thread σ τ} {f : Thread σ τ → Option (Thread σ τ)}
    (ht : s.threads[i]? = some t) (hf : f t = some t') :
    s.onThread i f = some { s with threads := s.threads.set i t' } := by
  rw [State.onThread, ht, Option.bind_some, hf, Option.map_some]

theorem serve_call {inp : Input} {t t' : Thread σ τ} (hserve : serve inp t = some t') : t'.call = none := by
  unfold serve at hserve
  split at hserve <;> cases hserve
  assumption

/-- `s` alone goes on where the hart is. -/
theorem serve_resume {t : Thread σ τ} (hcall : t.call = none) : serve [Gdblink.chr 's'] t = some t := by
  obtain ⟨h, call⟩ := t
  obtain rfl : call = none := hcall
  rfl

/-- After a packet that does not leave 0 in register 0 of the main thread, a single step starts
with something else there. -/
theorem starts_nonzero (hzero : Zero s) {inp : Input} (hnot : Gdblink.keepsZero inp = false)
    (hstep : step p s (.packet inp) = some s') : ∃ u t,
      Lib.run (step p) [.packet [Gdblink.chr 's'], .interpreter 0 1] s' = some u ∧ t ∈ u.threads ∧
        t.call.isSome = true ∧ t.hart.xpr 0 ≠ 0 := by
  obtain ⟨t, ht, hmap⟩ := Option.bind_eq_some_iff.mp hstep
  obtain ⟨t', hserve, rfl⟩ := Option.map_eq_some_iff.mp hmap
  have hnonzero : t'.hart.xpr 0 ≠ 0 := by
    intro h
    rw [(serve_zero (hzero t (List.mem_of_getElem? ht)) hserve).mp h] at hnot
    cases hnot
  have hcall := serve_call hserve
  have hlen : 0 < s.threads.length := (List.getElem?_eq_some_iff.mp ht).1
  have hthread : (s.threads.set 0 t')[0]? = some t' := List.getElem?_set_self hlen
  have henter : t'.interpreter 1 = some { t' with call := some ⟨1, 0, t'.hart.pc⟩ } := by
    unfold Thread.interpreter
    rw [hcall]
  -- `s` resumes where the hart is, so the call enters with the registers as they are
  have hfirst : step p { s with threads := s.threads.set 0 t' } (.packet [Gdblink.chr 's'])
      = some { s with threads := (s.threads.set 0 t').set 0 t' } :=
    onThread_eq hthread (serve_resume hcall)
  rw [List.set_set] at hfirst
  have hlast : step p { s with threads := s.threads.set 0 t' } (.interpreter 0 1)
      = some { s with threads := (s.threads.set 0 t').set 0 { t' with call := some ⟨1, 0, t'.hart.pc⟩ } } :=
    onThread_eq hthread henter
  refine ⟨{ s with threads := (s.threads.set 0 t').set 0 { t' with call := some ⟨1, 0, t'.hart.pc⟩ } },
    { t' with call := some ⟨1, 0, t'.hart.pc⟩ }, ?_, ?_, rfl, hnonzero⟩
  · rw [Lib.run, hfirst, Option.bind_some, Lib.run_singleton]
    exact hlast
  · exact List.mem_set (by rw [List.length_set]; exact hlen) _

/-- **Register 0.** In a run whose packets leave 0 in register 0, every instruction starts with
0 there. A packet that does not, in any state of such a run, leads to one that starts with
something else. -/
theorem xpr_zero (hspike : SpikeZero p) {code : InsnSpace} {sp : Long} {mem : Riscv.Mem} {rest : τ} {mmu : σ}
    {as : List (Act σ τ)} (hrun : Lib.run (step p) as (State.start code sp mem rest mmu) = some s)
    (hC : Lib.Along (step p) (fun _ a => keepsZero a = true) as (State.start code sp mem rest mmu)) :
    (∀ t ∈ s.threads, t.call.isSome = true → t.hart.xpr 0 = 0) ∧
      ∀ inp s', Gdblink.keepsZero inp = false → step p s (.packet inp) = some s' → ∃ u t,
        Lib.run (step p) [.packet [Gdblink.chr 's'], .interpreter 0 1] s' = some u ∧ t ∈ u.threads ∧
          t.call.isSome = true ∧ t.hart.xpr 0 ≠ 0 := by
  have hzero : Zero s :=
    Lib.run_invariant_along (fun _ _ _ hz hk hstep => zero_step hspike hz hk hstep)
      (zero_start code sp mem rest mmu) hC hrun
  exact ⟨fun t ht _ => hzero t ht, fun inp s' hnot hstep => starts_nonzero hzero hnot hstep⟩

/-- A guest that writes register 0 and then calls `clone`. -/
def clonerText : InsnSpace where
  base := 0x1000
  limit := 0x100c
  entry := 0x1000
  predecoded :=
    [reg1imm (.fast .addi) 0 0 5, Insn.ofCode .ZERO, reg1imm (.fast .addi) 17 0 220, Insn.ofCode .ZERO,
      Insn.ofCode (.fast .ecall), Insn.ofCode .ZERO]

def clonerProgram : Program Unit Unit where
  mmu := mmu_t
  golden _ := none
  HIGHEST_ECALL_NUM := 300
  rv_to_host n := if n = 220 then some SYS_clone else none

def clonerStart : State Unit Unit := .start clonerText 0x5ffffff0 (fun _ => 0) () ()

def answer (retval : Long) : Host Unit Unit := ⟨retval, fun _ => 0, (), ()⟩

def input (s : String) : Input := s.toList.map Gdblink.chr

/-- The debugger writes a zero and lets the guest run; the child calls the interpreter before
its parent is back from `clone`. -/
def clonerRun : List (Act Unit Unit) :=
  [.packet (input "P0=0000000000000000"), .packet (input "c"), .interpreter 0 3, .iterate 0 (answer 0),
    .iterate 0 (answer 0), .clone 0 (), .interpreter 1 1, .iterate 0 (answer 7)]

theorem spikeZero_cloner : SpikeZero clonerProgram := fun _ _ _ _ _ h => by cases h

theorem xpr_zero_cloner : ∃ s, Lib.run (step clonerProgram) clonerRun clonerStart = some s ∧
    s.threads.length = 2 ∧ ∀ t ∈ s.threads, t.call.isSome = true → t.hart.xpr 0 = 0 := by
  have hmap : (Lib.run (step clonerProgram) clonerRun clonerStart).map (·.threads.length) = some 2 := by
    decide +kernel
  obtain ⟨s, hrun, hlen⟩ := Option.map_eq_some_iff.mp hmap
  exact ⟨s, hrun, hlen, (xpr_zero spikeZero_cloner hrun (by decide +kernel)).1⟩

/-- `P0=` and eight bytes that are not all zero, then a single step. -/
theorem xpr_zero_packet : ∃ s, Lib.run (step clonerProgram)
      [.packet (input "P0=0100000000000000"), .packet (input "s"), .interpreter 0 1] clonerStart = some s ∧
    s.threads.map (fun t => (t.call.isSome, t.hart.xpr 0)) = [(true, 1)] := by
  have hmap : (Lib.run (step clonerProgram)
      [.packet (input "P0=0100000000000000"), .packet (input "s"), .interpreter 0 1] clonerStart).map
        (·.threads.map fun t => (t.call.isSome, t.hart.xpr 0)) = some [(true, 1)] := by decide +kernel
  exact Option.map_eq_some_iff.mp hmap

end Cavatools.Uspike.Process
