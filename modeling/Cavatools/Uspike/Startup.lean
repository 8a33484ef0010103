import Cavatools.Uspike.Refine
import Cavatools.Uspike.Stack

/-!
# `main`

The program is loaded and decoded, the stack is written, and a hart is made
that starts at the entry with the stack pointer in x2. From there `main` calls
the interpreter for good, `conf_stat` million instructions at a time, and
reports between the calls. This file puts together what the others say of the
parts, from the bytes of the file to the state of the machine.

The stack is written into the memory that the loader left, so the image of the
file has to survive it. It does: outside of the stack's segment nothing is
written (`initialize_stack_frame`), and the segments of the file lie clear of
it, since the kernel has mapped the stack where nothing was
(`image_after_stack`). The entry is the one of the header plus the load bias,
which the segment loop leaves alone (`load_elf_binary_entry`).

`main` here goes up to the loop and returns the text and the hart; what a new
`processor_t` of Spike's holds is a parameter, of which only its zero register
is used. `rounds` is so many turns of the loop without a debugger. A run of
the manual's machine for so many instructions is split into rounds
(`steps_split`), and each round is a call of the interpreter (`rounds_steps`).

`main_runs` is the whole: for a static file whose image is right and arguments
that fit the stack, where the hart starts, what memory holds, and that the
rounds execute the manual's instructions from there, one for one.
-/

namespace Cavatools.Uspike

open Riscv (ArchState Mem Elsewhere Steps)
open Elf (MEM_END STACK_SIZE)
open Stack (CString Aux Auxv)

/-! ## The stack and the rest of memory -/

namespace Stack

/-- **The frame of the stack.** Outside its segment nothing is written. -/
theorem initialize_stack_frame {current : Elf.pinfo_t} {argv envp : List CString} {auxv : List Aux}
    (htop : current.stack_top = MEM_END) (hend : ∃ a ∈ auxv, a.key = AT_NULL)
    (hfit : need current.phdr_size.toNat argv envp auxv ≤ STACK_SIZE.toNat) (m₀ : Mem) {a : Long}
    (ha : a.toNat < (MEM_END - STACK_SIZE).toNat ∨ MEM_END.toNat ≤ a.toNat) :
    (initialize_stack current m₀ argv envp auxv).2 a = m₀ a := by
  obtain ⟨l, bs, cs, bottom, -, -, hdesc, hlow, hroom, hrun⟩ := initialize_stack_layout htop m₀ hend hfit
  have hmem : MEM_END.toNat = 0x60000000 := rfl
  have hstack : (MEM_END - STACK_SIZE).toNat = 0x5f000000 := rfl
  have hbottom := hdesc.bottom_le
  have hwords : (l.words current auxv).length = (pushed l.argp l.envp
      (Stack.guestPairs (Stack.guestValue current l.phdr l.sp) auxv)).length + 2 := by
    rw [Layout.words, vector_eq, List.length_append]
    rfl
  rw [hrun]
  dsimp only
  rw [push_args_eq _ _ (by omega)]
  -- the vector is the lowest of the patches
  have hvector : (wordsPatch l.sp (pushed l.argp l.envp
      (guestPairs (guestValue current l.phdr l.sp) auxv))).covers a = false := by
    refine Lib.not_covers ?_ ?_
    · show l.sp.toNat + 8 * _ ≤ 2 ^ 64
      omega
    · show a.toNat < l.sp.toNat ∨ l.sp.toNat + 8 * _ ≤ a.toNat
      omega
  refine ((wordsPatch l.sp _).put_of_not_covers hvector).trans (hdesc.putAll_outside (by decide) ?_ m₀)
  intro b hb
  obtain ⟨hlo, hhi⟩ := hdesc.inside hb
  omega

end Stack

theorem frame_of_loaded {w : Elf.World} {file : Elf.File} {r : Elf.Loaded} {argv envp : List CString}
    (hload : Elf.load_elf_binary w file = some r) (auxv : Auxv)
    (hfit : Stack.need Elf.sizeof_phdrs argv envp auxv.val ≤ STACK_SIZE.toNat) {a : Long}
    (ha : a.toNat < (MEM_END - STACK_SIZE).toNat ∨ MEM_END.toNat ≤ a.toNat) :
    (Stack.initialize_stack r.current r.mem argv envp auxv.val).2 a = r.mem a := by
  obtain ⟨htop, hsize, -⟩ := Elf.load_elf_binary_stack hload
  have hphdrs : r.current.phdr_size.toNat = Elf.sizeof_phdrs := by
    rw [hsize]
    rfl
  exact Stack.initialize_stack_frame htop auxv.property (hphdrs ▸ hfit) r.mem ha

/-- The image of the file is still there once the stack is written. -/
theorem image_after_stack {w : Elf.World} {file : Elf.File} {r : Elf.Loaded} {argv envp : List CString}
    (hstatic : Elf.Static file) (hload : Elf.load_elf_binary w file = some r) (hintact : Elf.Intact w file)
    (auxv : Auxv) (hfit : Stack.need Elf.sizeof_phdrs argv envp auxv.val ≤ STACK_SIZE.toNat) :
    Elf.Image file (Stack.initialize_stack r.current r.mem argv envp auxv.val).2 := by
  obtain ⟨-, hclear⟩ := Elf.load_elf_binary_spec hstatic.filesz_le_segments hload
  rw [Elf.image_iff_wanted hstatic.filesz_le]
  intro p hp k hk
  rw [← Elf.wanted_of_intact hstatic hload hintact p hp k hk]
  -- the pages of a segment are clear of the stack
  have hbelow := (hclear p hp).below
  unfold Elf.TASK_SIZE at hbelow
  obtain ⟨-, hcovers⟩ := Elf.covers_addr (hclear p hp) hk file
  obtain ⟨hlo, hhi⟩ := Lib.toNat_of_covers
    (show (p.start (Elf.load_bias file)).toNat + p.size ≤ 2 ^ 64 by omega) hcovers
  exact frame_of_loaded hload auxv hfit ((hclear p hp).stack _ hlo hhi)

/-- The segment loop leaves the entry. -/
theorem load_segments_entry {file : Elf.File} {bias : Long} {ps : List Elf.Elf64_Phdr} {info info' : Elf.pinfo_t}
    {s s' : Elf.Space} (h : Elf.load_segments file bias ps (info, s) = some (info', s')) :
    info'.entry = info.entry := by
  induction ps generalizing info s with
  | nil => rw [(Prod.mk.inj (Option.some.inj h)).1]
  | cons p ps ih =>
    rw [Elf.load_segments] at h
    split at h
    case isTrue => cases h
    case isFalse =>
      split at h
      case isFalse => exact (ih h).trans rfl
      case isTrue =>
        simp only at h
        split at h
        case h_1 => cases h
        case h_2 => exact (ih h).trans rfl

/-- The entry that the loader returns. -/
theorem load_elf_binary_entry {w : Elf.World} {file : Elf.File} {r : Elf.Loaded}
    (h : Elf.load_elf_binary w file = some r) :
    r.current.entry = (Elf.header file).e_entry + Elf.load_bias file := by
  unfold Elf.load_elf_binary at h
  split at h
  case h_1 => cases h
  case h_2 eh ph hheaders =>
    obtain ⟨rfl, -⟩ := Elf.load_headers_spec hheaders
    simp only at h
    split at h
    case h_1 => cases h
    case h_2 info space hsegments =>
      split at h
      case h_1 => cases h
      case h_2 =>
        split at h
        case h_1 => cases h
        case h_2 =>
          obtain ⟨space', -, rfl⟩ := Option.map_eq_some_iff.mp h
          exact load_segments_entry hsegments

/-! ## main -/

section
variable {σ τ : Type}

/-- Up to the loop: the text and the hart. What a new `processor_t` holds is Spike's. -/
def main (chain : List Entry) (w : Elf.World) (file : Elf.File) (processor_t : Machine σ τ)
    (argv envp : List CString) (auxv : List Aux) : Option (InsnSpace × Hart σ τ) :=
  match Elf.load_elf_binary w file with
  | none => none
  | some r =>
    match loadelf chain r.mem r.sections.low_bound r.sections.high_bound r.current.entry with
    | .text code =>
      let (current, mem) := Stack.initialize_stack r.current r.mem argv envp auxv
      let sp := current.stack_top
      let mycpu : Hart σ τ :=
        { toMachine := { processor_t with mem }, pc := code.entry, executed := 0, total_insns := 0 }
      some (code, mycpu.setMachine { mycpu.toMachine with xpr := Function.update mycpu.xpr 2 sp })
    | _ => none

/-- So many rounds of the loop without a debugger. A round that does not come back is `none`. -/
def rounds (env : Env σ τ) (conf_stat : Int) : Nat → Hart σ τ → Option (Hart σ τ)
  | 0, h => some h
  | k + 1, h =>
    match interpreter env (conf_stat * 1000000) h with
    | .returned _ h => rounds env conf_stat k h
    | _ => none

/-- What `main` has made of a file. -/
theorem main_loaded {chain : List Entry} {w : Elf.World} {file : Elf.File} {processor_t : Machine σ τ}
    {argv envp : List CString} {auxv : List Aux} {code : InsnSpace} {h : Hart σ τ}
    (hmain : main chain w file processor_t argv envp auxv = some (code, h)) : ∃ r,
      Elf.load_elf_binary w file = some r ∧
      loadelf chain r.mem r.sections.low_bound r.sections.high_bound r.current.entry = .text code ∧
      h.pc = code.entry ∧ h.mem = (Stack.initialize_stack r.current r.mem argv envp auxv).2 ∧
      h.xpr = Function.update processor_t.xpr 2
        (Stack.initialize_stack r.current r.mem argv envp auxv).1.stack_top ∧
      h.rest = processor_t.rest ∧ h.executed = 0 ∧ h.total_insns = 0 := by
  unfold main at hmain
  split at hmain
  case h_1 => cases hmain
  case h_2 r hload =>
    split at hmain
    case h_1 code' htext =>
      cases hmain
      exact ⟨r, hload, htext, rfl, rfl, rfl, rfl, rfl, rfl⟩
    case h_2 => cases hmain

end

/-! ## A program from its file -/

section
variable {τ : Type} {order : List FastOp} {tail : List Entry} {image : Mem} {base limit entry : Long}
  {env : Env Unit τ} {e : Elsewhere τ} {h : Hart Unit τ} {q q' : ArchState × τ}

theorem steps_split {C : ArchState → Prop} {m n : Nat} (hsteps : Steps e C (m + n) q q') :
    ∃ p, Steps e C m q p ∧ Steps e C n p q' := by
  induction m generalizing q with
  | zero => exact ⟨q, .zero q, by rwa [Nat.zero_add] at hsteps⟩
  | succ m ih =>
    rw [Nat.add_right_comm] at hsteps
    cases hsteps with
    | succ hC hstep hrest =>
      obtain ⟨p, hm, hn⟩ := ih hrest
      exact ⟨p, .succ hC hstep hm, hn⟩

/-- The rounds, one after the other. -/
theorem rounds_steps (hlisted : ∀ op, (fastEntry op).isSome → op ∈ order)
    (ht : TextOf (rvcChain ++ fastChain order ++ tail) image base limit entry env.code)
    (hF : Faithful env (rvcChain ++ fastChain order ++ tail) e) {conf_stat : Nat} (hstat : 1 ≤ conf_stat) {k : Nat}
    (hq : Shows h h.pc q) (hsteps : Steps e (Executable (rvcChain ++ fastChain order ++ tail) image base limit)
      (k * (conf_stat * 1000000)) q q') :
    ∃ h', rounds env conf_stat k h = some h' ∧ Shows h' h'.pc q' ∧
      h'.executed = h.executed + (k * (conf_stat * 1000000) : Nat) := by
  induction k generalizing q h with
  | zero =>
    rw [Nat.zero_mul] at hsteps
    cases hsteps
    exact ⟨h, rfl, hq, by simp⟩
  | succ k ih =>
    rw [Nat.succ_mul, Nat.add_comm] at hsteps
    obtain ⟨p, hround, hrest⟩ := steps_split hsteps
    obtain ⟨h₁, hcall, hshows, hexec, -⟩ := call_steps hlisted ht hF hq (by omega) hround
    obtain ⟨h', hrounds, hshows', hexec'⟩ := ih hshows hrest
    refine ⟨h', ?_, hshows', ?_⟩
    · rw [rounds, show (conf_stat : Int) * 1000000 = (conf_stat * 1000000 : Nat) by push_cast; rfl, hcall]
      exact hrounds
    · rw [hexec', hexec, Nat.succ_mul]
      push_cast
      ring

/-- **From the file to the run.** A static file that the loader takes whole and arguments that fit:
the hart starts at the entry with the stack pointer in x2, in a memory that holds both the image of
the file and the stack, and nothing but the stack was written after the loading. If the manual's
machine goes on from there for `k` rounds' worth of instructions, `main` has come to the state it
ends with after `k` rounds, and has counted them. -/
theorem main_runs (hlisted : ∀ op, (fastEntry op).isSome → op ∈ order) {w : Elf.World} {file : Elf.File}
    (hstatic : Elf.Static file) (hintact : Elf.Intact w file) {processor_t : Machine Unit τ}
    (hzero : processor_t.xpr 0 = 0) {argv envp : List CString} (auxv : Auxv)
    (hfit : Stack.need Elf.sizeof_phdrs argv envp auxv.val ≤ STACK_SIZE.toNat)
    (hmain : main (rvcChain ++ fastChain order ++ tail) w file processor_t argv envp auxv.val = some (env.code, h))
    (hF : Faithful env (rvcChain ++ fastChain order ++ tail) e) {conf_stat : Nat} (hstat : 1 ≤ conf_stat) :
    ∃ r l, Elf.load_elf_binary w file = some r ∧ Elf.Image file h.mem ∧
      Stack.Image l r.current argv envp auxv.val r.mem h.mem ∧
      (∀ a : Long, a.toNat < (MEM_END - STACK_SIZE).toNat ∨ MEM_END.toNat ≤ a.toNat → h.mem a = r.mem a) ∧
      h.xpr = Function.update processor_t.xpr 2 l.sp ∧ h.pc = (Elf.header file).e_entry + Elf.load_bias file ∧
      ∀ k q', Steps e (Executable (rvcChain ++ fastChain order ++ tail) r.mem r.sections.low_bound
          r.sections.high_bound) (k * (conf_stat * 1000000)) (⟨h.xpr, h.pc, h.mem⟩, h.rest) q' →
        ∃ h', rounds env conf_stat k h = some h' ∧ h'.arch h'.pc = q'.1 ∧ h'.rest = q'.2 ∧
          h'.executed = (k * (conf_stat * 1000000) : Nat) := by
  obtain ⟨r, hload, htext, hpc, hmem, hxpr, hrest, hexec, htotal⟩ := main_loaded hmain
  obtain ⟨l, hsp, himage⟩ := Stack.image_of_loaded hload auxv hfit
  rw [hsp] at hxpr
  have hentry := (loadelf_textOf htext).entry_eq
  refine ⟨r, l, hload, ?_, ?_, ?_, hxpr, hpc.trans (hentry.trans (load_elf_binary_entry hload)), ?_⟩
  · rw [hmem]
    exact image_after_stack hstatic hload hintact auxv hfit
  · rw [hmem]
    exact himage
  · intro a ha
    rw [hmem]
    exact frame_of_loaded hload auxv hfit ha
  · intro k q' hsteps
    have hshows : Shows h h.pc (⟨h.xpr, h.pc, h.mem⟩, h.rest) := by
      refine ⟨rfl, rfl, ?_⟩
      show h.xpr 0 = 0
      rw [hxpr, Function.update_of_ne (by decide)]
      exact hzero
    obtain ⟨h', hrounds, hend, hexec'⟩ := rounds_steps hlisted (loadelf_textOf htext) hF hstat hshows hsteps
    exact ⟨h', hrounds, hend.arch, hend.rest, by omega⟩

end

/-! ### A program that goes round and round -/

namespace Elf

/-- An executable of one segment, whose last two bytes are `c.j .`, with the section for them. -/
def spinning : File :=
  magic ++ [2, 1, 1] ++ le 9 0 ++ le 2 2 ++ le 2 243 ++ le 4 1 ++ le 8 0x10078 ++ le 8 64 ++ le 8 122 ++ le 4 0 ++
    le 2 64 ++ le 2 56 ++ le 2 1 ++ le 2 64 ++ le 2 2 ++ le 2 0 ++
  (le 4 1 ++ le 4 5 ++ le 8 0 ++ le 8 0x10000 ++ le 8 0x10000 ++ le 8 122 ++ le 8 122 ++ le 8 0x1000) ++
  le 2 0xa001 ++
  (le 4 0 ++ le 4 3 ++ le 8 0 ++ le 8 0 ++ le 8 250 ++ le 8 7 ++ le 24 0) ++
  (le 4 1 ++ le 4 1 ++ le 8 6 ++ le 8 0x10078 ++ le 8 120 ++ le 8 2 ++ le 24 0) ++
  "\x00.text\x00".toList.map fun c => BitVec.ofNat 8 c.toNat

end Elf

/-- Nothing but the segment itself covers its bytes. -/
theorem intact_spinning : Elf.Intact Elf.emptyWorld Elf.spinning := by
  have hsegments : Elf.segments Elf.spinning = [⟨Elf.PT_LOAD, 0, 0x10000, 122, 122⟩] := by decide +kernel
  have hnone : Elf.cleared Elf.emptyWorld Elf.spinning = [] := by decide +kernel
  have hcl (a : Long) : Elf.isCleared Elf.emptyWorld Elf.spinning a = false := by
    rw [Elf.isCleared, hnone]
    rfl
  have hthe {p : Elf.Elf64_Phdr} (hp : p ∈ Elf.segments Elf.spinning) :
      p = ⟨Elf.PT_LOAD, 0, 0x10000, 122, 122⟩ := by
    rw [hsegments] at hp
    exact List.mem_singleton.mp hp
  constructor
  · intro p _ k _ h
    rw [hcl] at h
    cases h
  · intro p hp k hlo hhi
    obtain rfl := hthe hp
    exact absurd hhi (not_lt.mpr hlo)
  · intro p hp k _ _ q hq hne
    exact absurd ((hthe (List.mem_of_find?_eq_some hq)).trans (hthe hp).symm) hne

def spinningText : InsnSpace := ⟨0x10078, 0x1007a, 0x10078, [decoder listedChain 0xa001]⟩

/-- The text of this file is one jump. -/
theorem loadelf_spinning {mem : Mem} (hword : mem.load 0x10078 4 = 0xa001#32) :
    loadelf listedChain mem 0x10078 0x1007a 0x10078 = .text spinningText := by
  refine loadelf_plain (by decide) ?_ (by decide) (by decide)
  have hinsn : insnAt listedChain mem 0x10078 = decoder listedChain 0xa001 := by
    rw [insnAt, show BitVec.ofInt 64 0x10078 = (0x10078 : Long) by decide, hword]
    rfl
  have hlo : (emptyText 0x10078 0x1007a 0x10078).base.toInt ≤ 0x10078 := by decide
  have hlt : 0x10078 < (emptyText 0x10078 0x1007a 0x10078).limit.toInt := by decide
  have hstep : predecode listedChain mem _ _ _ = _ := predecode_step hlo hlt
  rw [if_pos (by decide), strideAt, hinsn] at hstep
  refine hstep.trans ?_
  show predecode listedChain mem 0x1007a 0x1007a _ = _
  rw [predecode, if_neg (by decide)]
  rfl

def spinningEnv : Env Unit Unit := { nopLiEnv with code := spinningText }

theorem steps_self {τ : Type} {e : Elsewhere τ} {C : ArchState → Prop} {q : ArchState × τ} (hC : C q.1)
    (hstep : Riscv.Step e q q) (n : Nat) : Steps e C n q q := by
  induction n with
  | zero => exact .zero q
  | succ n ih => exact .succ hC hstep ih

/-- It starts, and however often `main` calls the interpreter it comes back. -/
theorem main_runs_spinning : ∃ h,
    main listedChain Elf.emptyWorld Elf.spinning ⟨fun _ => 0, fun _ => 0, (), (), []⟩ [⟨[0x61], by decide⟩] []
      Stack.shortAuxv.val = some (spinningText, h) ∧ Elf.Image Elf.spinning h.mem ∧ h.pc = 0x10078 ∧
      ∀ k : Nat, ∃ h', rounds spinningEnv 1 k h = some h' ∧ h'.pc = 0x10078 ∧
        h'.executed = (k * 1000000 : Nat) := by
  have hfields : (Elf.load_elf_binary Elf.emptyWorld Elf.spinning).map (fun r =>
      (r.mem.load 0x10078 4, r.sections.low_bound, r.sections.high_bound, r.current.entry))
      = some (0xa001, 0x10078, 0x1007a, 0x10078) := by decide +kernel
  obtain ⟨r, hload, hr⟩ := Option.map_eq_some_iff.mp hfields
  simp only [Prod.mk.injEq] at hr
  obtain ⟨hword, hlow, hhigh, hentry⟩ := hr
  obtain ⟨h, hmain⟩ : ∃ h, main listedChain Elf.emptyWorld Elf.spinning ⟨fun _ => 0, fun _ => 0, (), (), []⟩
      [⟨[0x61], by decide⟩] [] Stack.shortAuxv.val = some (spinningText, h) := by
    unfold main
    rw [hload]
    dsimp only
    rw [hlow, hhigh, hentry, loadelf_spinning hword]
    exact ⟨_, rfl⟩
  have hF : Faithful spinningEnv listedChain nopLiElsewhere := faithful_nothing rfl _
  have hchain : listedChain = rvcChain ++ fastChain listedFast ++ lrscRest := (List.append_assoc _ _ _).symm
  have hmain' := hmain
  rw [hchain] at hmain' hF
  obtain ⟨r', l, hload', himage, -, hframe, hxpr, hpc, hruns⟩ := main_runs (fun _ => mem_listedFast)
    ⟨by decide +kernel, by decide +kernel, by decide +kernel⟩ intact_spinning rfl Stack.shortAuxv (by decide) hmain' hF
    (le_refl 1)
  obtain rfl := Option.some.inj (hload.symm.trans hload')
  have hentry' : h.pc = 0x10078 := hpc.trans (by decide +kernel)
  refine ⟨h, hmain, himage, hentry', ?_⟩
  rw [← hchain, hlow, hhigh, hentry'] at hruns
  -- the instruction is not where the stack is
  have hfetch : (ArchState.mk h.xpr 0x10078 h.mem).fetch = 0xa001 := by
    rw [← hword]
    refine Riscv.Mem.load_congr ?_
    intro i hi
    refine hframe _ (Or.inl ?_)
    rw [BitVec.toNat_add, BitVec.toNat_ofNat]
    show (0x10078 + i % 2 ^ 64) % 2 ^ 64 < 0x5f000000
    omega
  have hC : Executable listedChain r.mem 0x10078 0x1007a ⟨h.xpr, 0x10078, h.mem⟩ := by
    refine executable_of_plainWord (Lib.Sweep.visits_self (by decide)) (hfetch.trans hword.symm) ?_
    rw [hfetch]
    exact plainWord_of (by decide) (by decide) (by decide)
  have hlegal : Riscv.Legal (Riscv.half (ArchState.mk h.xpr 0x10078 h.mem).fetch) .c_j := by
    rw [hfetch]
    exact ⟨by decide, by decide⟩
  have hexec : Riscv.execC (Riscv.half (ArchState.mk h.xpr 0x10078 h.mem).fetch) ⟨h.xpr, 0x10078, h.mem⟩ .c_j
      = some ⟨h.xpr, 0x10078, h.mem⟩ := by
    rw [hfetch]
    rfl
  intro k
  obtain ⟨h', hrounds, harch, -, hcount⟩ := hruns k _ (steps_self hC (.compressed hlegal hexec) _)
  exact ⟨h', hrounds, congrArg ArchState.pc harch, hcount⟩

end Cavatools.Uspike
