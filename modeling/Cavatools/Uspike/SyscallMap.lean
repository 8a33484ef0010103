import Cavatools.Lib.Dict
import Cavatools.Uspike.Simulate

/-!
# The table of system calls

`syscall_mapping` looks up each name that RISC-V lists among the host's and
prints a table by RISC-V number, which `proxy_ecall` indexes with register a7.
The names that the host lacks and the numbers that are not listed have a null
name there, and an `ecall` with one of these ends the process.

The first half is about the table. It is filled by assignments in the order of
RISC-V's list, so an entry is the one of the last name with its number
(`foldl_set`, `nameOf`), and no listed number is behind its end
(`highest_ge`). `rv_to_host_iff` says that the table gives a host number
exactly for the numbers of names that both lists have, and it is the one of
the host's dictionary.

The second half is about runs. System calls are events, so the host calls of a
thread can be read off its trace (`hostCalls`), and the `ecall`s it executes
off the text and the registers before each turn (`ecalls`). `Called` relates
the two between two traces: the calls that were added are those of the
`ecall`s, in order. An `ecall` that goes on makes one
(`proxy_ecall_forwards`), no other instruction makes any (`dispatch_called`),
and with an iteration, a turn of the loop and the induction over a run this is
`host_calls`, whatever the rest of the process does in between.
-/

namespace Cavatools.Uspike.SyscallMap

abbrev Name := List Char

/-! ## syscall_mapping -/

/-- A row of the table: the host's number and the name, null where it is `0`. -/
structure Row where
  sysnum : Int
  name : Option Name
  deriving DecidableEq

section
variable (dump : List (Nat × Name)) (listed : List (Name × Nat))

/-- From the lines of `ausyscall --dump` behind its first. -/
def x86 : List (Name × Nat) := Lib.assigns (dump.map Prod.swap)

/-- From the lines with two words. -/
def riscv : List (Name × Nat) := Lib.assigns listed

def riscv_highest : Int :=
  listed.foldl (fun highest p => if highest < p.2 then (p.2 : Int) else highest) (-1)

def row (name : Name) : Row :=
  match (x86 dump).lookup name with
  | some number => ⟨number, some ("SYS_".toList ++ name)⟩
  | none => ⟨-2, none⟩

def map : List Row :=
  (riscv listed).foldl (fun map p => map.set p.2 (row dump p.1))
    (List.replicate (riscv_highest listed + 1).toNat ⟨-1, none⟩)

/-- What `proxy_ecall` finds in a row whose name is not null. -/
def rv_to_host (n : Nat) : Option Int :=
  (map dump listed)[n]?.bind fun r => r.name.map fun _ => r.sysnum

end

/-! ## What the table holds -/

/-- The name of RISC-V's number `n`: the last of those whose number it is. -/
def nameOf (listed : List (Name × Nat)) (n : Nat) : Option Name :=
  ((riscv listed).reverse.find? fun p => p.2 == n).map Prod.fst

/-- Register a7 has the number of a name for which the host has `sysnum`. -/
def Forwards (dump : List (Nat × Name)) (listed : List (Name × Nat)) (a7 : Long) (sysnum : Int) : Prop :=
  ∃ name number, 0 ≤ a7.toInt ∧ nameOf listed a7.toInt.toNat = some name ∧
    (x86 dump).lookup name = some number ∧ sysnum = number

/-- The highest number is one that no listed number is above. -/
theorem highest_ge (items : List (Name × Nat)) (high : Int) :
    high ≤ items.foldl (fun highest p => if highest < p.2 then (p.2 : Int) else highest) high ∧
      ∀ p ∈ items, (p.2 : Int) ≤
        items.foldl (fun highest p => if highest < p.2 then (p.2 : Int) else highest) high := by
  induction items generalizing high with
  | nil => exact ⟨le_rfl, fun p hp => by cases hp⟩
  | cons q items ih =>
    obtain ⟨hhigh, hall⟩ := ih (if high < q.2 then (q.2 : Int) else high)
    have hq : high ≤ (if high < q.2 then (q.2 : Int) else high) ∧
        (q.2 : Int) ≤ (if high < q.2 then (q.2 : Int) else high) := by
      split <;> omega
    refine ⟨hq.1.trans hhigh, fun p hp => ?_⟩
    rcases List.mem_cons.mp hp with rfl | hp
    · exact hq.2.trans hhigh
    · exact hall p hp

/-- Assignments one after another: an entry has the last value that was assigned to it. -/
theorem foldl_set (f : Name → Row) (items : List (Name × Nat)) (rows : List Row) {n : Nat}
    (hn : n < rows.length) : (items.foldl (fun map p => map.set p.2 (f p.1)) rows)[n]? =
      some (((items.reverse.find? fun p => p.2 == n).map fun p => f p.1).getD rows[n]) := by
  induction items generalizing rows with
  | nil => exact List.getElem?_eq_getElem hn
  | cons q items ih =>
    have hlen : n < (rows.set q.2 (f q.1)).length := by rwa [List.length_set]
    rw [List.foldl_cons, ih (rows.set q.2 (f q.1)) hlen, List.reverse_cons, List.find?_append]
    cases items.reverse.find? fun p => p.2 == n with
    | some p => rfl
    | none =>
      rw [Option.none_or, List.find?_singleton]
      by_cases hq : q.2 = n
      · subst hq
        simp
      · rw [if_neg (by simpa using hq), List.getElem_set_ne hq]

section
variable {dump : List (Nat × Name)} {listed : List (Name × Nat)}

/-- **The table**: a number inside it is forwarded as the name that RISC-V lists for it last, if the
host has that name. -/
theorem rv_to_host_iff {n : Nat} (hn : (n : Int) ≤ riscv_highest listed) (sysnum : Int) :
    rv_to_host dump listed n = some sysnum ↔
      ∃ name number, nameOf listed n = some name ∧ (x86 dump).lookup name = some number ∧ sysnum = number := by
  have hlen : n < (List.replicate (riscv_highest listed + 1).toNat (⟨-1, none⟩ : Row)).length := by
    rw [List.length_replicate]
    omega
  unfold rv_to_host map nameOf
  rw [foldl_set _ _ _ hlen, List.getElem_replicate]
  cases (riscv listed).reverse.find? fun p => p.2 == n with
  | none => simp
  | some p =>
    unfold row
    cases hx : (x86 dump).lookup p.1 with
    | none => simp [hx]
    | some number => simp [hx, eq_comm]

theorem nameOf_le {n : Nat} {name : Name} (h : nameOf listed n = some name) :
    (n : Int) ≤ riscv_highest listed := by
  obtain ⟨p, hp, -⟩ := Option.map_eq_some_iff.mp h
  have hn : p.2 = n := by simpa using List.find?_some hp
  have hmem : p ∈ riscv listed := List.mem_reverse.mp (List.mem_of_find?_eq_some hp)
  have hlookup := Lib.lookup_of_mem (Lib.nodup_assigns listed) hmem
  rw [Lib.lookup_assigns] at hlookup
  have hlisted := List.mem_reverse.mp (Lib.mem_of_lookup hlookup)
  rw [← hn]
  exact (highest_ge listed (-1)).2 p hlisted

end

/-! ## The calls of a run -/

variable {σ τ ο : Type}

/-- The program with the table that the two lists make. -/
def linked (w : World τ) (dump : List (Nat × Name)) (listed : List (Name × Nat)) : World τ :=
  { w with HIGHEST_ECALL_NUM := riscv_highest listed, rv_to_host := rv_to_host dump listed }

section
variable {w : World τ} {dump : List (Nat × Name)} {listed : List (Name × Nat)} {mmu : Mmu σ}

/-- **An `ecall`** goes on if the number is forwarded and the kernel returns. -/
theorem proxy_ecall_forwards {insns : Int} {h h₁ : Hart σ τ} :
    proxy_ecall ((linked w dump listed).env mmu) insns h = .ok h₁ ↔
      ∃ sysnum g, Forwards dump listed (h.xpr 17) sysnum ∧
        w.proxy_syscall sysnum (h.calling insns sysnum).guest = .ok g ∧
        h₁ = ((h.calling insns sysnum).setGuest g).incr_count (-insns) := by
  rw [proxy_ecall_world]
  constructor
  · rintro ⟨sysnum, g, hrange, hmap, -, hg, heq⟩
    rw [not_or, not_lt, not_lt] at hrange
    obtain ⟨hpos, hhigh⟩ := hrange
    have hle : ((h.xpr 17).toInt.toNat : Int) ≤ riscv_highest listed := by
      rw [Int.toNat_of_nonneg hpos]
      exact hhigh
    obtain ⟨name, number, hname, hnumber, hsys⟩ := (rv_to_host_iff hle sysnum).mp hmap
    exact ⟨sysnum, g, ⟨name, number, hpos, hname, hnumber, hsys⟩, hg, heq⟩
  · rintro ⟨sysnum, g, ⟨name, number, hpos, hname, hnumber, hsys⟩, hg, heq⟩
    have hle := nameOf_le hname
    refine ⟨sysnum, g, ?_, (rv_to_host_iff hle sysnum).mpr ⟨name, number, hname, hnumber, hsys⟩, ?_, hg, heq⟩
    · rw [not_or, not_lt, not_lt]
      rw [Int.toNat_of_nonneg hpos] at hle
      exact ⟨hpos, hle⟩
    · omega

end

def Quiet (e : Event) : Prop := ∀ sysnum executed, e ≠ .proxy_syscall sysnum executed

/-- The number of a system call. -/
def sysnum? : Event → Option Int
  | .proxy_syscall sysnum _ => some sysnum
  | _ => none

/-- The system calls of a trace, latest first. -/
def hostCalls (trace : List Event) : List Int := trace.filterMap sysnum?

theorem hostCalls_grown {l l' : List Event} (h : Grown Quiet l l') : hostCalls l' = hostCalls l := by
  obtain ⟨d, rfl, hd⟩ := h
  have hnone : d.filterMap sysnum? = [] := by
    refine List.filterMap_eq_nil_iff.mpr fun e he => ?_
    cases e with
    | proxy_syscall sysnum executed => exact absurd rfl (hd _ he sysnum executed)
    | _ => rfl
  unfold hostCalls
  rw [List.filterMap_append, hnone, List.nil_append]

/-- No member of `mmu_t` is a system call. -/
theorem follows_quiet (mmu : Mmu σ) (pc : Long) : Follows (fun _ => True) Quiet Eq mmu mmu pc where
  insn_model _ s₁ h := ⟨fun _ _ => Event.noConfusion, fun _ ht _ => ⟨s₁, ht ▸ h, rfl⟩⟩
  jump_model _ _ _ s₁ h := ⟨fun _ _ => Event.noConfusion, fun _ ht _ => ⟨s₁, ht ▸ h, rfl⟩⟩
  load_model _ _ _ s₁ h := ⟨fun _ _ => Event.noConfusion, fun _ ht _ => ⟨s₁, ht ▸ h, rfl⟩⟩
  store_model _ _ _ s₁ h := ⟨fun _ _ => Event.noConfusion, fun _ ht _ => ⟨s₁, ht ▸ h, rfl⟩⟩
  amo_model _ _ s₁ h := ⟨fun _ _ => Event.noConfusion, fun _ ht _ => ⟨s₁, ht ▸ h, rfl⟩⟩

/-- Register a7, if the instruction at `pc` is an `ecall`. -/
def ecallAt (code : InsnSpace) (pc : Long) (h : Hart σ τ) : List Long :=
  match code.at pc with
  | none => []
  | some i => if i.opcode = .fast .ecall then [h.xpr 17] else []

def Thread.ecalls (code : InsnSpace) (t : Thread σ τ) : List Long :=
  match t.call with
  | none => []
  | some l => ecallAt code l.pc t.hart

theorem ecalls_of_call {code : InsnSpace} {t : Thread σ τ} {l : Locals} (hcall : t.call = some l) :
    Thread.ecalls code t = ecallAt code l.pc t.hart := by
  unfold Thread.ecalls
  rw [hcall]

/-- Register a7 at the `ecall`s that a run executes, latest first. -/
def ecalls (env : Env σ τ) (elsewhere : ο → σ → σ) : List (ThreadAct τ ο) → Thread σ τ → List Long
  | [], _ => []
  | a :: as, t =>
    match t.step env elsewhere a with
    | none => []
    | some t₁ =>
      match a with
      | .iterate => ecalls env elsewhere as t₁ ++ Thread.ecalls env.code t
      | _ => ecalls env elsewhere as t₁

section
variable {w : World τ} {dump : List (Nat × Name)} {listed : List (Name × Nat)} {mmu : Mmu σ}

/-- The calls that were added are those of the `ecall`s. -/
def Called (dump : List (Nat × Name)) (listed : List (Name × Nat)) (a7s : List Long) (l l' : List Event) : Prop :=
  ∃ calls, hostCalls l' = calls ++ hostCalls l ∧ List.Forall₂ (Forwards dump listed) a7s calls

theorem called_quiet {l l' : List Event} (h : Grown Quiet l l') : Called dump listed [] l l' :=
  ⟨[], hostCalls_grown h, .nil⟩

theorem called_trans {a7s a7s' : List Long} {l₁ l₂ l₃ : List Event} (h : Called dump listed a7s l₁ l₂)
    (h' : Called dump listed a7s' l₂ l₃) : Called dump listed (a7s' ++ a7s) l₁ l₃ := by
  obtain ⟨calls, heq, hall⟩ := h
  obtain ⟨calls', heq', hall'⟩ := h'
  refine ⟨calls' ++ calls, ?_, List.rel_append hall' hall⟩
  rw [heq', heq, List.append_assoc]

/-- The switch makes a system call for an `ecall`, and for nothing else. -/
theorem dispatch_called {insns : Int} {i : Insn} {pc pc' : Long} {h h₁ : Hart σ τ}
    (hstep : dispatch ((linked w dump listed).env mmu) insns i pc h = .next pc' h₁) :
    Called dump listed (if i.opcode = .fast .ecall then [h.xpr 17] else []) h.trace h₁.trace := by
  cases dispatch_cases ((linked w dump listed).env mmu) hstep with
  | ecall hecall hcall =>
    obtain ⟨sysnum, g, hforwards, -, rfl⟩ := proxy_ecall_forwards.mp hcall
    rw [if_pos hecall]
    exact ⟨[sysnum], rfl, .cons hforwards .nil⟩
  | fast hecall hact hrun =>
    obtain ⟨act', -, hsim⟩ := action_sim (follows_quiet mmu pc) hact
    rw [if_neg hecall]
    exact called_quiet (hsim _ _ _ hrun).1
  | golden hecall hact hf hrun =>
    obtain ⟨sp, hsp, rfl⟩ := Option.map_eq_some_iff.mp hf
    rw [if_neg hecall]
    cases sp with
    | trap_breakpoint => cases hrun
    | run r =>
      unfold Spike.golden at hrun
      dsimp only at hrun
      split at hrun
      case h_1 npc m₁ hr =>
        cases hrun
        exact called_quiet (sim_routine (follows_quiet mmu pc) (r pc) _ _ _ hr).1
      case h_2 => cases hrun

/-- What `insn_model` announces comes before the switch. -/
theorem iteration_called (insns : Int) (pc : Long) (h : Hart σ τ) :
    (∀ pc' h₁, iteration ((linked w dump listed).env mmu) insns pc h = .next pc' h₁ →
      Called dump listed (ecallAt w.code pc h) h.trace h₁.trace) ∧
    ∀ h₁, iteration ((linked w dump listed).env mmu) insns pc h = .trap_breakpoint h₁ →
      Called dump listed (ecallAt w.code pc h) h.trace h₁.trace := by
  have hbegin (hgo : ∀ s, iteration ((linked w dump listed).env mmu) insns pc h ≠ .stop s) :
      ∃ m i, Called dump listed [] h.trace m.trace ∧ m.xpr = h.xpr ∧
        ecallAt w.code pc h = (if i.opcode = .fast .ecall then [h.xpr 17] else []) ∧
        iteration ((linked w dump listed).env mmu) insns pc h
          = (dispatch ((linked w dump listed).env mmu) insns i pc (h.setMachine m)).clear_x0 := by
    obtain ⟨m, s, i, hm, -, hi, heq⟩ := iteration_world hgo
    have hcode : w.code.at pc = some i := hi
    refine ⟨m, i, called_quiet (sim_insn_model (follows_quiet mmu pc) _ _ _ hm).1, ?_, ?_, heq⟩
    · rw [insn_model] at hm
      split at hm
      · cases hm
        rfl
      · cases hm
    · unfold ecallAt
      rw [hcode]
  constructor
  · intro pc' h₁ hstep
    obtain ⟨m, i, hcalled, hxpr, hecall, heq⟩ := hbegin fun s => by rw [hstep]; simp
    rw [hstep] at heq
    cases hd : dispatch ((linked w dump listed).env mmu) insns i pc (h.setMachine m) with
    | next pc₂ h₂ =>
      rw [hd] at heq
      obtain ⟨-, rfl⟩ := Step.next.inj heq
      have hswitch := called_trans hcalled (dispatch_called hd)
      rw [List.append_nil] at hswitch
      rw [hecall, ← hxpr]
      exact hswitch
    | trap_breakpoint h₂ =>
      rw [hd] at heq
      cases heq
    | stop e =>
      rw [hd] at heq
      cases heq
  · intro h₁ hstep
    obtain ⟨m, i, hcalled, hxpr, hecall, heq⟩ := hbegin fun s => by rw [hstep]; simp
    rw [hstep] at heq
    cases hd : dispatch ((linked w dump listed).env mmu) insns i pc (h.setMachine m) with
    | next pc₂ h₂ =>
      rw [hd] at heq
      cases heq
    | trap_breakpoint h₂ =>
      rw [hd] at heq
      obtain rfl := Step.trap_breakpoint.inj heq
      -- only Spike's functions throw
      obtain ⟨rfl, ⟨hno, -⟩, -⟩ := dispatch_trap.mp hd
      rw [hecall, if_neg hno]
      exact hcalled
    | stop e =>
      rw [hd] at heq
      cases heq

/-- A turn of the loop. -/
theorem iterate_called {t t₁ : Thread σ τ} (hstep : t.iterate ((linked w dump listed).env mmu) = some t₁) :
    Called dump listed (Thread.ecalls w.code t) t.hart.trace t₁.hart.trace := by
  unfold Thread.iterate at hstep
  cases hl : t.call with
  | none =>
    rw [hl] at hstep
    cases hstep
  | some l =>
    rw [ecalls_of_call hl]
    rw [hl] at hstep
    dsimp only at hstep
    split at hstep
    case h_1 => cases hstep
    case h_2 h₁ hit =>
      cases hstep
      exact (iteration_called l.insns l.pc t.hart).2 h₁ hit
    case h_3 pc' h₁ hit =>
      have hcalled := (iteration_called l.insns l.pc t.hart).1 pc' h₁ hit
      split at hstep
      case isTrue =>
        cases hstep
        exact hcalled
      case isFalse =>
        cases hstep
        exact hcalled

/-- **The system calls of a run** are those of its `ecall`s, in order, each with the host's number
for the name that RISC-V lists under the guest's. -/
theorem host_calls (w : World τ) (dump : List (Nat × Name)) (listed : List (Name × Nat)) (mmu : Mmu σ)
    (elsewhere : ο → σ → σ) (as : List (ThreadAct τ ο)) {t t₁ : Thread σ τ}
    (hrun : Lib.run (Thread.step ((linked w dump listed).env mmu) elsewhere) as t = some t₁) :
    ∃ calls, hostCalls t₁.hart.trace = calls ++ hostCalls t.hart.trace ∧
      List.Forall₂ (Forwards dump listed) (ecalls ((linked w dump listed).env mmu) elsewhere as t) calls := by
  induction as generalizing t with
  | nil =>
    obtain rfl := Option.some.inj hrun
    exact ⟨[], rfl, .nil⟩
  | cons a as ih =>
    obtain ⟨t₂, hstep, hrest⟩ := Lib.run_cons hrun
    have htail : Called dump listed _ t₂.hart.trace t₁.hart.trace := ih hrest
    unfold ecalls
    rw [hstep]
    cases a with
    | iterate => exact called_trans (iterate_called hstep) htail
    | interpreter how_many =>
      unfold Thread.step Thread.interpreter at hstep
      dsimp only at hstep
      split at hstep
      · cases hstep
        exact htail
      · cases hstep
    | elsewhere g o =>
      cases hstep
      exact htail

end

/-- An `ecall` of `write`, which RISC-V numbers 64 and the host 1. -/
def writeWorld : World Unit where
  code := ⟨0x1000, 0x1004, 0x1000, [Insn.ofCode (.fast .ecall), Insn.ofCode .UNKNOWN]⟩
  golden _ := none
  HIGHEST_ECALL_NUM := 0
  rv_to_host _ := none
  proxy_syscall _ g := .ok g

def writeThread : Thread Unit Unit := ⟨⟨⟨fun _ => 64, fun _ => 0, (), (), []⟩, 0x1000, 0, 0⟩, none⟩

def hostNames : List (Nat × Name) := [(0, "read".toList), (1, "write".toList)]

def riscvNames : List (Name × Nat) := [("read".toList, 63), ("write".toList, 64)]

/-- One `ecall`, which makes one call of the host. -/
theorem host_calls_write : ∃ t₁ calls,
    Lib.run (Thread.step ((linked writeWorld hostNames riscvNames).env mmu_t) fun (_ : Unit) s => s)
      [.interpreter 1, .iterate] writeThread = some t₁ ∧
    hostCalls t₁.hart.trace = calls ∧ List.Forall₂ (Forwards hostNames riscvNames) [64] calls := by
  have hsome : (Lib.run (Thread.step ((linked writeWorld hostNames riscvNames).env mmu_t) fun (_ : Unit) s => s)
      [.interpreter 1, .iterate] writeThread).isSome = true := by decide +kernel
  obtain ⟨t₁, hrun⟩ := Option.isSome_iff_exists.mp hsome
  obtain ⟨calls, heq, hall⟩ :=
    host_calls writeWorld hostNames riscvNames mmu_t (fun (_ : Unit) s => s) [.interpreter 1, .iterate] hrun
  have hecalls : ecalls ((linked writeWorld hostNames riscvNames).env mmu_t) (fun (_ : Unit) s => s)
      [.interpreter 1, .iterate] writeThread = [64] := by decide +kernel
  rw [hecalls] at hall
  exact ⟨t₁, calls, hrun, heq.trans (List.append_nil calls), hall⟩

end Cavatools.Uspike.SyscallMap
