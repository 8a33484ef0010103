import Cavatools.Lib.Patch
import Cavatools.Uspike.GdbCommand
import Cavatools.Uspike.Text

/-!
# M packets and the predecoded text

An `M` packet of the debugger writes memory and then redecodes the place it
was addressed to. The interpreter runs from the predecoded text, so whatever
else the packet changes there stays as it was decoded before.

`Coherent` says that every start of the text, both as it was loaded and as
memory has it now, holds what stands in memory, decoded, or the
compare-and-swap of the sequence there (`Current`). A text is coherent when it
has been loaded (`coherent_loaded`). A packet writes bytes at its address and
refreshes one slot, and no other (`stepM_spec`, `redecode_spec`), so what it
does can be followed place by place. `Harmless` is the condition on a packet
that keeps all of them current: in the slot that it redecodes, its address
decodes like the start; elsewhere the new bytes mean the same as the old ones,
or as what the slot still holds. It speaks of the state before the packet and
of the bytes that the packet writes. `coherent_step_iff` shows that it is
exact, since what a place is decoded to determines what it was decoded from as
far as this goes (`current_iff_same`), and by the rule for runs
`coherent_run_iff` has it over all sequences of packets.

The last section is about a break-point that is put over an instruction and
taken out again. The second packet restores the bytes, and with them the
descriptor, unless a compare-and-swap had stood there: `redecode` does not do
again what `substitute_cas` has done. `breakpoint_restores_iff` is exact over
all texts and places.
-/

namespace Cavatools.Uspike

open Riscv Gdblink Lib.Sweep

/-! ## The code -/

/-- `redecode`; `none` where the slot does not exist. -/
def redecode (chain : List Entry) (mem : Mem) (code : InsnSpace) (pc : Long) : Option InsnSpace :=
  if code.valid pc then
    match code.image mem pc with
    | none => none
    | some b => code.put pc (decoder chain b)
  else some code

/-- Bytes from an address up. -/
def fill (mem : Mem) (address : Long) (bytes : List (BitVec 8)) : Mem :=
  (Lib.Patch.mk address bytes.length fun o => bytes.getD o 0).put mem

/-- `RcvHexToMemory` on the memory of the guest: it writes zeros first, and returns where that
faults. -/
def rcvHexToGuest (writable : Long → Bool) (mem : Mem) (address : Long) (bytes : Int) (inp : Input) :
    Mem × Bool :=
  let zeros := ((List.range bytes.toNat).takeWhile fun k => writable (address + BitVec.ofNat 64 k)).length
  if zeros < bytes.toNat then (fill mem address (List.replicate zeros 0), false)
  else
    let (value, done, _) := RcvHexToMemory bytes.toNat inp
    (fill mem address value, done)

/-- What the debugger writes to: the memory of the guest and its predecoded text. -/
structure Debuggee where
  mem : Mem
  code : InsnSpace

/-- `addr,length:` and what follows; the length is passed on as an `int`. -/
def parseM (inp : Input) : Option (Long × Int × Input) :=
  match RcvHexInt inp with
  | none => none
  | some (addr, inp) =>
    if peek inp ≠ chr ',' then none
    else
      match RcvHexInt inp.tail with
      | none => none
      | some (length, inp) =>
        if peek inp ≠ chr ':' then none else some (addr, (length.setWidth 32).toInt, inp.tail)

/-- `M`, and the reply. -/
def commandM (chain : List Entry) (writable : Long → Bool) (s : Debuggee) (inp : Input) :
    Option (Debuggee × String) :=
  match parseM inp with
  | none => some (s, "E01")
  | some (addr, length, inp) =>
    let (mem, done) := rcvHexToGuest writable s.mem addr length inp
    if done then (redecode chain mem s.code addr).map fun code => (⟨mem, code⟩, "OK")
    else some (⟨mem, s.code⟩, "E02")

/-- A packet that is answered OK. -/
def stepM (chain : List Entry) (writable : Long → Bool) (s : Debuggee) (inp : Input) : Option Debuggee :=
  (commandM chain writable s inp).bind fun r => if r.2 = "OK" then some r.1 else none

/-! ## What a packet does -/

/-- The address of a packet and the bytes it writes there. -/
def written (inp : Input) : Option (Long × List (BitVec 8)) :=
  match parseM inp with
  | none => none
  | some (addr, length, inp) =>
    let (value, done, _) := RcvHexToMemory length.toNat inp
    if done then some (addr, value) else none

variable {chain : List Entry} {writable : Long → Bool}

/-- A packet that is answered has written its bytes, and has redecoded its address. -/
theorem stepM_spec {s s' : Debuggee} {inp : Input} (h : stepM chain writable s inp = some s') :
    ∃ addr bytes, written inp = some (addr, bytes) ∧ s'.mem = fill s.mem addr bytes ∧
      redecode chain s'.mem s.code addr = some s'.code := by
  unfold stepM commandM at h
  unfold written
  cases hparse : parseM inp with
  | none =>
    rw [hparse] at h
    cases h
  | some p =>
    obtain ⟨addr, length, rest⟩ := p
    rw [hparse] at h
    dsimp only at h ⊢
    unfold rcvHexToGuest at h
    dsimp only at h
    split at h
    · cases h
    rcases hrcv : RcvHexToMemory length.toNat rest with ⟨value, done, rest'⟩
    rw [hrcv] at h
    cases done with
    | false => cases h
    | true =>
      simp only [if_true] at h ⊢
      cases hcode : redecode chain (fill s.mem addr value) s.code addr with
      | none =>
        rw [hcode] at h
        cases h
      | some code =>
        rw [hcode] at h
        cases h
        exact ⟨addr, value, rfl, rfl, hcode⟩

/-- A packet to memory that can be written is answered OK where its slot exists. -/
theorem stepM_of_written {s : Debuggee} {inp : Input} {addr : Long} {bytes : List (BitVec 8)}
    {code : InsnSpace} (h : written inp = some (addr, bytes)) (hwritable : ∀ a, writable a = true)
    (hcode : redecode chain (fill s.mem addr bytes) s.code addr = some code) :
    stepM chain writable s inp = some ⟨fill s.mem addr bytes, code⟩ := by
  unfold written at h
  unfold stepM commandM rcvHexToGuest
  cases hparse : parseM inp with
  | none =>
    rw [hparse] at h
    cases h
  | some p =>
    obtain ⟨addr', length, rest⟩ := p
    rw [hparse] at h
    dsimp only at h ⊢
    rcases hrcv : RcvHexToMemory length.toNat rest with ⟨value, done, rest'⟩
    rw [hrcv] at h
    cases done with
    | false => cases h
    | true =>
      cases h
      have hall : ¬((List.range length.toNat).takeWhile fun k => writable (addr + BitVec.ofNat 64 k)).length
          < length.toNat := by
        rw [List.takeWhile_eq_self_iff.mpr fun _ _ => hwritable _, List.length_range]
        exact lt_irrefl _
      rw [if_neg hall]
      dsimp only
      rw [if_pos rfl, hcode]
      rfl

theorem redecode_eq {mem : Mem} {code code' : InsnSpace} {pc : Long} (hvalid : code.valid pc = true)
    (h : redecode chain mem code pc = some code') :
    code.slot pc < code.predecoded.length ∧ code' = code.set pc (decoder chain (mem.load pc 4)) := by
  unfold redecode InsnSpace.image InsnSpace.put at h
  rw [if_pos hvalid, if_pos hvalid] at h
  dsimp only at h
  split at h
  · rename_i hslot
    exact ⟨hslot.2, (Option.some.inj h).symm⟩
  · cases h

/-- The places whose slot `redecode` refreshes. -/
def Redecodes (code : InsnSpace) (addr : Long) (q : Int) : Prop :=
  code.valid addr = true ∧ code.slot addr = code.slotOf q

/-- **One slot** is refreshed, and no other. -/
theorem redecode_spec {mem : Mem} {code code' : InsnSpace} {addr : Long}
    (h : redecode chain mem code addr = some code') :
    code'.base = code.base ∧ code'.limit = code.limit ∧
    ∀ q, code.base.toInt ≤ q → q < code.limit.toInt →
      (Redecodes code addr q → code'.at (BitVec.ofInt 64 q) = some (decoder chain (mem.load addr 4))) ∧
      (¬Redecodes code addr q → code'.at (BitVec.ofInt 64 q) = code.at (BitVec.ofInt 64 q)) := by
  by_cases hvalid : code.valid addr = true
  swap
  · unfold redecode at h
    rw [if_neg hvalid] at h
    cases h
    exact ⟨rfl, rfl, fun q _ _ => ⟨fun hr => absurd hr.1 hvalid, fun _ => rfl⟩⟩
  obtain ⟨hslot, rfl⟩ := redecode_eq hvalid h
  refine ⟨rfl, rfl, fun q hlo hhi => ?_⟩
  have hat (c : InsnSpace) (hbase : c.base = code.base) (hlimit : c.limit = code.limit) :
      c.at (BitVec.ofInt 64 q) = c.predecoded[code.slotOf q]? := by
    rw [InsnSpace.at_ofInt (by rw [hbase]; exact hlo) (InsnSpace.lt_of_lt_limit (by rw [hlimit]; exact hhi)),
      if_pos (by rw [hlimit]; exact hhi), slotOf_congr hbase]
  rw [hat code rfl rfl, hat (code.set addr _) rfl rfl]
  show (_ → (code.predecoded.set (code.slot addr) _)[code.slotOf q]? = _) ∧
    (_ → (code.predecoded.set (code.slot addr) _)[code.slotOf q]? = _)
  constructor
  · intro hr
    rw [hr.2, List.getElem?_set_self (by rw [← hr.2]; exact hslot)]
  · intro hr
    rw [List.getElem?_set_ne fun heq => hr ⟨hvalid, heq⟩]

/-! ## Coherence -/

/-- The opcodes that only `substitute_cas` makes. -/
def casOpcodes : List Opcode := [.fast .cas12_w, .fast .cas12_d, .fast .cas10_w, .fast .cas10_d]

/-- No template has one of them. -/
def NoCas (chain : List Entry) : Prop := ∀ e ∈ chain, e.op ∉ casOpcodes

/-- No template is one of a compare-and-swap. -/
theorem decoder_not_isCas (h : NoCas chain) (w : BitVec 32) : ¬(decoder chain w).isCas := by
  intro hcas
  have hlist : (decoder chain w).opcode ∈ casOpcodes := by
    unfold Insn.isCas at hcas
    simpa [casOpcodes] using hcas
  have hknown : (decoder chain w).opcode ≠ .UNKNOWN := by
    intro heq
    rw [heq] at hlist
    simp [casOpcodes] at hlist
  obtain ⟨e, he, hop, -⟩ := decoder_mem hknown
  rw [hop] at hlist
  exact h e he hlist

theorem matchAt_isCas {mem : Mem} {hi q : Int} {c : Insn} (h : matchAt chain mem hi q = some (some c)) :
    c.isCas := by
  obtain ⟨-, i2, i3, hcas⟩ := matchAt_spec h
  exact casInsn_isCas hcas

/-- What stands in memory at a place, decoded, or the compare-and-swap of the sequence there. -/
def Current (chain : List Entry) (mem : Mem) (hi q : Int) (i : Insn) : Prop :=
  i = insnAt chain mem q ∨ matchAt chain mem hi q = some (some i)

/-- The starts of the text, with some bytes. -/
abbrev Debuggee.Start (s : Debuggee) (chain : List Entry) (mem : Mem) (q : Int) : Prop :=
  Uspike.Start chain mem s.code.base s.code.limit q

/-- Every start of the text, both as it was loaded from `mem₀` and as it is, is current. -/
def Coherent (chain : List Entry) (mem₀ : Mem) (s : Debuggee) : Prop :=
  ∀ q, s.Start chain mem₀ q → s.Start chain s.mem q →
    ∃ i, s.code.at (BitVec.ofInt 64 q) = some i ∧ Current chain s.mem s.code.limit.toInt q i

/-- A text that was loaded is coherent. -/
theorem coherent_loaded {mem : Mem} {base limit entry : Long} {code : InsnSpace}
    (h : loadelf chain mem base limit entry = .text code) : Coherent chain mem ⟨mem, code⟩ := by
  have ht := loadelf_textOf h
  intro q hq _
  unfold Debuggee.Start at hq
  simp only [ht.base_eq, ht.limit_eq] at hq ⊢
  refine ⟨_, ht.at_start hq, ?_⟩
  unfold finalAt Current
  cases hm : matchAt chain mem limit.toInt q with
  | none => exact Or.inl rfl
  | some m =>
    cases m with
    | none => exact Or.inl rfl
    | some c => exact Or.inr rfl

instance (i : Insn) : Decidable i.isCas := inferInstanceAs (Decidable (_ ∨ _ ∨ _ ∨ _))

/-- Other bytes mean the same at a place: the same compare-and-swap where one stands, else the
same instruction. -/
def Same (chain : List Entry) (mem mem' : Mem) (hi q : Int) (i : Insn) : Prop :=
  if i.isCas then matchAt chain mem' hi q = matchAt chain mem hi q
  else insnAt chain mem' q = insnAt chain mem q

/-- A place that is current stays so under other bytes exactly if they mean the same there. -/
theorem current_iff_same (hcas : NoCas chain) {mem mem' : Mem} {hi q : Int} {i : Insn}
    (h : Current chain mem hi q i) : Current chain mem' hi q i ↔ Same chain mem mem' hi q i := by
  unfold Same
  rcases h with rfl | hmatch
  · have hnot : ¬(insnAt chain mem q).isCas := decoder_not_isCas hcas _
    rw [if_neg hnot]
    constructor
    · rintro (heq | hmatch)
      · exact heq.symm
      · exact absurd (matchAt_isCas hmatch) hnot
    · exact fun heq => Or.inl heq.symm
  · have his := matchAt_isCas hmatch
    rw [if_pos his, hmatch]
    constructor
    · rintro (rfl | heq)
      · exact absurd his (decoder_not_isCas hcas _)
      · exact heq
    · exact Or.inr

/-- What a packet with address `addr` that makes the memory `mem'` must be at a start:
- in the slot it redecodes, its own address decodes like the start;
- elsewhere, its bytes mean there what the old ones did, or, at a place that the old ones hid, what
  the slot still holds. -/
def HarmlessAt (chain : List Entry) (s : Debuggee) (addr : Long) (mem' : Mem) (q : Int) : Prop :=
  (Redecodes s.code addr q → insnAt chain mem' addr.toInt = insnAt chain mem' q) ∧
  (¬Redecodes s.code addr q → ∃ i, s.code.at (BitVec.ofInt 64 q) = some i ∧
    (s.Start chain s.mem q → Same chain s.mem mem' s.code.limit.toInt q i) ∧
    (¬s.Start chain s.mem q → Current chain mem' s.code.limit.toInt q i))

/-- That, at every start of the text as loaded and of the text with the bytes of the packet. -/
def Harmless (chain : List Entry) (mem₀ : Mem) (s : Debuggee) (inp : Input) : Prop :=
  ∀ addr bytes, written inp = some (addr, bytes) → ∀ q, s.Start chain mem₀ q →
    s.Start chain (fill s.mem addr bytes) q → HarmlessAt chain s addr (fill s.mem addr bytes) q

/-- One place. -/
theorem current_step_iff (hcas : NoCas chain) {mem₀ : Mem} {s s' : Debuggee} (hs : Coherent chain mem₀ s)
    {addr : Long} (hcode : redecode chain s'.mem s.code addr = some s'.code) {q : Int}
    (hq₀ : s.Start chain mem₀ q) (hq : s.Start chain s'.mem q) :
    (∃ i, s'.code.at (BitVec.ofInt 64 q) = some i ∧ Current chain s'.mem s.code.limit.toInt q i) ↔
      HarmlessAt chain s addr s'.mem q := by
  have hofInt : decoder chain (s'.mem.load addr 4) = insnAt chain s'.mem addr.toInt := by
    unfold insnAt
    rw [BitVec.ofInt_toInt]
  obtain ⟨hin, hout⟩ := (redecode_spec hcode).2.2 q (hq.1.le (strideAt_pos chain _)) hq.2
  unfold HarmlessAt
  by_cases hr : Redecodes s.code addr q
  · rw [hin hr, hofInt]
    simp only [Option.some.injEq, exists_eq_left', hr, true_imp_iff, not_true_eq_false, false_imp_iff,
      and_true]
    constructor
    · rintro (heq | hmatch)
      · exact heq
      · exact absurd (matchAt_isCas hmatch) (decoder_not_isCas hcas _)
    · exact Or.inl
  · rw [hout hr]
    simp only [hr, not_false_eq_true, true_imp_iff, false_imp_iff, true_and]
    refine exists_congr fun i => and_congr_right fun hi => ?_
    by_cases hstart : s.Start chain s.mem q
    · obtain ⟨i', hi', hcur⟩ := hs q hq₀ hstart
      obtain rfl : i = i' := Option.some.inj (hi.symm.trans hi')
      simp only [hstart, true_imp_iff, not_true_eq_false, false_imp_iff, and_true]
      exact current_iff_same hcas hcur
    · simp only [hstart, not_false_eq_true, true_imp_iff, false_imp_iff, true_and]

/-- **One packet.** -/
theorem coherent_step_iff (hcas : NoCas chain) {mem₀ : Mem} {s s' : Debuggee} {inp : Input}
    (hs : Coherent chain mem₀ s) (hstep : stepM chain writable s inp = some s') :
    Coherent chain mem₀ s' ↔ Harmless chain mem₀ s inp := by
  obtain ⟨addr, bytes, hwritten, hmem, hcode⟩ := stepM_spec hstep
  obtain ⟨hbase, hlimit, -⟩ := redecode_spec hcode
  unfold Coherent Harmless Debuggee.Start
  rw [hbase, hlimit]
  constructor
  · intro h addr' bytes' hwritten' q hq₀ hq
    obtain ⟨rfl, rfl⟩ : addr = addr' ∧ bytes = bytes' := by
      simpa using hwritten.symm.trans hwritten'
    rw [← hmem] at hq ⊢
    exact (current_step_iff hcas hs hcode hq₀ hq).mp (h q hq₀ hq)
  · intro h q hq₀ hq
    have hsite := h addr bytes hwritten q hq₀
    rw [← hmem] at hsite
    exact (current_step_iff hcas hs hcode hq₀ hq).mpr (hsite hq)

/-- **A run of packets** leaves the text coherent all along exactly if every packet is harmless. -/
theorem coherent_run_iff (hcas : NoCas chain) {mem : Mem} {base limit entry : Long} {code : InsnSpace}
    (hload : loadelf chain mem base limit entry = .text code) {packets : List Input} {s' : Debuggee}
    (hrun : Lib.run (stepM chain writable) packets ⟨mem, code⟩ = some s') :
    (∀ done rest s, packets = done ++ rest →
        Lib.run (stepM chain writable) done ⟨mem, code⟩ = some s → Coherent chain mem s) ↔
      Lib.Along (stepM chain writable) (Harmless chain mem) packets ⟨mem, code⟩ :=
  Lib.run_states_iff (fun _ _ _ hs hstep => coherent_step_iff hcas hs hstep) (coherent_loaded hload) hrun

/-! ### A text of two instructions -/

/-- `c.nop`, `c.li a0,1` at 0x1000. -/
def nopLiMem : Mem := Mem.store (fun _ => 0) 0x1000 4 0x45050001#32

def nopLi : InsnSpace :=
  ⟨0x1000, 0x1004, 0x1000, [decoder listedChain 0x45050001, decoder listedChain 0x00004505]⟩

theorem loadelf_nopLi : loadelf listedChain nopLiMem 0x1000 0x1004 0x1000 = .text nopLi := by
  refine loadelf_plain (by decide) ?_ (by decide) (by decide)
  show predecode listedChain nopLiMem 0x1004 0x1000 _ = _
  rw [predecode, if_pos (by decide)]
  show predecode listedChain nopLiMem 0x1004 0x1002 _ = _
  rw [predecode, if_pos (by decide)]
  show predecode listedChain nopLiMem 0x1004 0x1004 _ = _
  rw [predecode, if_neg (by decide)]
  rfl

theorem noCas_listed : NoCas listedChain := by
  unfold NoCas
  decide

/-- The bytes of a string. -/
def packet (s : String) : Input := s.toList.map chr

theorem written_both : written (packet "1000,4:01000945") = some (0x1000, [0x01, 0x00, 0x09, 0x45]) := by
  decide

theorem written_one : written (packet "1002,2:0945") = some (0x1002, [0x09, 0x45]) := by
  decide

/-- The starts of such a text, whatever the second half of its word is. -/
theorem start_nopLi {mem : Mem} (h2 : strideAt listedChain mem 0x1000 = 2) {q : Int}
    (h : Start listedChain mem 0x1000 0x1004 q) : q = 0x1000 ∨ q = 0x1002 := by
  have hlo : (0x1000 : Long).toInt = 0x1000 := by decide
  have hhi : (0x1004 : Long).toInt = 0x1004 := by decide
  unfold Start at h
  rw [hlo, hhi] at h
  rcases (visits_iff (by decide)).mp h with rfl | h
  · exact Or.inl rfl
  · rw [h2] at h
    have hle := h.1.le (strideAt_pos _ _)
    have heven := h.1.dvd (strideAt_even _ _)
    have hlt := h.2
    omega

/-- `c.li a0,2` over the second instruction alone. -/
theorem coherent_run_iff_one : ∃ s,
    Lib.run (stepM listedChain fun _ => true) [packet "1002,2:0945"] ⟨nopLiMem, nopLi⟩ = some s ∧
      Coherent listedChain nopLiMem s := by
  have hstep : stepM listedChain (fun _ => true) ⟨nopLiMem, nopLi⟩ (packet "1002,2:0945") = some
      ⟨fill nopLiMem 0x1002 [0x09, 0x45], nopLi.set 0x1002 (decoder listedChain 0x00004509)⟩ :=
    stepM_of_written written_one (fun _ => rfl) rfl
  have hrun := Lib.run_singleton.trans hstep
  refine ⟨_, hrun, (coherent_run_iff noCas_listed loadelf_nopLi hrun).mpr ?_ _ [] _ rfl hrun⟩
  refine ⟨?_, fun _ _ => trivial⟩
  intro addr bytes hw q hq _
  obtain ⟨rfl, rfl⟩ : _ = addr ∧ _ = bytes := by simpa using written_one.symm.trans hw
  rcases start_nopLi (by decide) hq with rfl | rfl
  · have hother : ¬Redecodes nopLi 0x1002 0x1000 := by
      unfold Redecodes
      decide
    refine ⟨fun h => absurd h hother, fun _ => ⟨decoder listedChain 0x45050001, rfl, ?_, ?_⟩⟩
    · intro _
      unfold Same
      rw [if_neg (by decide)]
      decide
    · exact fun h => absurd hq h
  · have hself : Redecodes nopLi 0x1002 0x1002 := by
      unfold Redecodes
      decide
    exact ⟨fun _ => rfl, fun h => absurd hself h⟩

/-- One packet over both instructions: the entry of the second is still `c.li a0,1`. -/
theorem overwrite_incoherent : ∃ s,
    Lib.run (stepM listedChain fun _ => true) [packet "1000,4:01000945"] ⟨nopLiMem, nopLi⟩ = some s ∧
      Start listedChain nopLiMem 0x1000 0x1004 0x1002 ∧ Start listedChain s.mem 0x1000 0x1004 0x1002 ∧
      ¬Coherent listedChain nopLiMem s := by
  have hstep : stepM listedChain (fun _ => true) ⟨nopLiMem, nopLi⟩ (packet "1000,4:01000945") = some
      ⟨fill nopLiMem 0x1000 [0x01, 0x00, 0x09, 0x45], nopLi.set 0x1000 (decoder listedChain 0x45090001)⟩ :=
    stepM_of_written written_both (fun _ => rfl) rfl
  have hstart (mem : Mem) (h : strideAt listedChain mem 0x1000 = 2) :
      Start listedChain mem 0x1000 0x1004 0x1002 := by
    have hfirst : Start listedChain mem 0x1000 0x1004 0x1000 := visits_self (by decide)
    have hnext := hfirst.next
    rw [h] at hnext
    exact ⟨hnext, by decide⟩
  have hbefore := hstart nopLiMem (by decide)
  have hafter := hstart (fill nopLiMem 0x1000 [0x01, 0x00, 0x09, 0x45]) (by decide)
  refine ⟨_, Lib.run_singleton.trans hstep, hbefore, hafter, ?_⟩
  intro h
  obtain ⟨i, hi, hcurrent⟩ := h 0x1002 hbefore hafter
  obtain rfl : decoder listedChain 0x00004505 = i := Option.some.inj hi
  rcases hcurrent with heq | hmatch
  · exact absurd heq (by decide)
  · exact absurd (matchAt_isCas hmatch) (decoder_not_isCas noCas_listed _)

/-! ## Break-points -/

section
variable {mem : Mem} {a : Long} {bytes : List (BitVec 8)} {k : Nat}

theorem fill_of_lt (hk : k < bytes.length) (hlen : k < 2 ^ 64) :
    fill mem a bytes (a + BitVec.ofNat 64 k) = bytes[k] := by
  have hoff : (a + BitVec.ofNat 64 k - a).toNat = k := by
    rw [BitVec.add_comm, BitVec.add_sub_cancel, BitVec.toNat_ofNat, Nat.mod_eq_of_lt hlen]
  unfold fill Lib.Patch.put
  dsimp only
  rw [hoff, if_pos hk, List.getD_eq_getElem _ _ hk]

theorem fill_of_ge (hk : bytes.length ≤ k) (hlen : k < 2 ^ 64) :
    fill mem a bytes (a + BitVec.ofNat 64 k) = mem (a + BitVec.ofNat 64 k) := by
  have hoff : (a + BitVec.ofNat 64 k - a).toNat = k := by
    rw [BitVec.add_comm, BitVec.add_sub_cancel, BitVec.toNat_ofNat, Nat.mod_eq_of_lt hlen]
  unfold fill Lib.Patch.put
  dsimp only
  rw [hoff, if_neg (by omega)]

end

/-- The bytes from an address up. -/
def bytesAt (mem : Mem) (a : Long) (n : Nat) : List (BitVec 8) :=
  (List.range n).map fun k => mem (a + BitVec.ofNat 64 k)

/-- Memory that agrees on the word at an address. -/
def SameWord (mem mem' : Mem) (a : Long) : Prop :=
  ∀ k < 4, mem (a + BitVec.ofNat 64 k) = mem' (a + BitVec.ofNat 64 k)

/-- Bytes that are written over and later written back. -/
theorem sameWord_restored {mem₀ mem₂ : Mem} {a : Long} {bytes : List (BitVec 8)}
    (h : SameWord mem₂ (fill mem₀ a bytes) a) :
    SameWord (fill mem₂ a (bytesAt mem₀ a bytes.length)) mem₀ a := by
  intro k hk
  have hlen : (bytesAt mem₀ a bytes.length).length = bytes.length := by simp [bytesAt]
  rcases Nat.lt_or_ge k bytes.length with hlt | hge
  · rw [fill_of_lt (by omega) (by omega)]
    simp [bytesAt]
  · rw [fill_of_ge (by omega) (by omega), h k hk, fill_of_ge hge (by omega)]

/-- **A break-point** that is put over an instruction and taken out again leaves the predecoded text
as it was exactly if it did not stand on a load-reserved. In between, the text and the word it
stands on stay. -/
theorem breakpoint_restores_iff {mem : Mem} {base limit entry : Long} {code : InsnSpace}
    (hload : loadelf chain mem base limit entry = .text code) {pc : Int} (hpc : Start chain mem base limit pc)
    {bytes : List (BitVec 8)} {s₀ s₁ s₂ s₃ : Debuggee} {ins back : Input}
    (hcode₀ : s₀.code = code) (hmem₀ : SameWord s₀.mem mem (BitVec.ofInt 64 pc))
    (hins : written ins = some (BitVec.ofInt 64 pc, bytes)) (h₁ : stepM chain writable s₀ ins = some s₁)
    (hcode₂ : s₂.code = s₁.code) (hmem₂ : SameWord s₂.mem s₁.mem (BitVec.ofInt 64 pc))
    (hback : written back = some (BitVec.ofInt 64 pc, bytesAt s₀.mem (BitVec.ofInt 64 pc) bytes.length))
    (h₃ : stepM chain writable s₂ back = some s₃) :
    s₃.code.predecoded = code.predecoded ↔ ¬(insnAt chain mem pc).isLr := by
  have ht := loadelf_textOf hload
  obtain ⟨addr₁, bytes₁, hw₁, hm₁, hr₁⟩ := stepM_spec h₁
  obtain ⟨rfl, rfl⟩ : _ = addr₁ ∧ _ = bytes₁ := by simpa using hins.symm.trans hw₁
  obtain ⟨addr₃, bytes₃, hw₃, hm₃, hr₃⟩ := stepM_spec h₃
  obtain ⟨rfl, rfl⟩ : _ = addr₃ ∧ _ = bytes₃ := by simpa using hback.symm.trans hw₃
  have hvalid : code.valid (BitVec.ofInt 64 pc) = true := by
    rw [InsnSpace.valid_ofInt (ht.lo hpc) (InsnSpace.lt_of_lt_limit (ht.lt_limit hpc))]
    exact decide_eq_true (ht.lt_limit hpc)
  -- both times the slot of the break-point is decoded again, the second time from the old word
  rw [hcode₀] at hr₁
  obtain ⟨-, hc₁⟩ := redecode_eq hvalid hr₁
  have hvalid₃ : (code.set (BitVec.ofInt 64 pc) (decoder chain (s₁.mem.load (BitVec.ofInt 64 pc) 4))).valid
      (BitVec.ofInt 64 pc) = true := hvalid
  rw [hcode₂, hc₁] at hr₃
  obtain ⟨-, hc₃⟩ := redecode_eq hvalid₃ hr₃
  have hword : s₃.mem.load (BitVec.ofInt 64 pc) 4 = mem.load (BitVec.ofInt 64 pc) 4 := by
    rw [hm₁] at hmem₂
    rw [hm₃]
    refine Mem.load_congr fun k hk => ?_
    rw [sameWord_restored hmem₂ k hk, hmem₀ k hk]
  have hdecoded : s₃.code.predecoded = code.predecoded.set (code.slotOf pc) (insnAt chain mem pc) := by
    rw [hc₃, hword]
    show (code.predecoded.set (code.slot _) _).set (code.slot _) _ = _
    rw [List.set_set, InsnSpace.slot_ofInt (ht.lo hpc) (InsnSpace.lt_of_lt_limit (ht.lt_limit hpc))]
    rfl
  have hentry : code.predecoded[code.slotOf pc]? = some (finalAt chain mem limit.toInt pc) := ht.start pc hpc
  obtain ⟨hslot, hget⟩ := List.getElem?_eq_some_iff.mp hentry
  rw [hdecoded]
  constructor
  · intro h hlr
    have hself : (code.predecoded.set (code.slotOf pc) (insnAt chain mem pc))[code.slotOf pc]?
        = code.predecoded[code.slotOf pc]? := by rw [h]
    rw [List.getElem?_set_self hslot, hentry, Option.some.injEq] at hself
    rw [hself] at hlr
    exact ht.not_isLr hpc hlr
  · intro hlr
    have hfinal : finalAt chain mem limit.toInt pc = insnAt chain mem pc := finalAt_of_not_isLr hlr
    rw [← hfinal, ← hget, List.set_getElem_self]

/-- The sequence as it is loaded. -/
def lrscLoaded : Debuggee := ⟨lrscMem, lrscText.set 0x1000 lrscCas⟩

/-- `ebreak` over the branch, and the branch back. -/
theorem breakpoint_restores_bne : ∃ s₁ s₃,
    stepM listedChain (fun _ => true) lrscLoaded (packet "1004,4:73001000") = some s₁ ∧
    stepM listedChain (fun _ => true) s₁ (packet "1004,4:6398e700") = some s₃ ∧
    s₃.code.predecoded = lrscLoaded.code.predecoded := by
  have hins : written (packet "1004,4:73001000") = some (0x1004, [0x73, 0x00, 0x10, 0x00]) := by decide
  have hback : written (packet "1004,4:6398e700") = some (0x1004, bytesAt lrscMem 0x1004 4) := by decide
  have h₁ : stepM listedChain (fun _ => true) lrscLoaded (packet "1004,4:73001000") = some
      ⟨fill lrscMem 0x1004 [0x73, 0x00, 0x10, 0x00],
        lrscLoaded.code.set 0x1004 (decoder listedChain 0x00100073)⟩ :=
    stepM_of_written hins (fun _ => rfl) rfl
  have h₃ : stepM listedChain (fun _ => true)
      ⟨fill lrscMem 0x1004 [0x73, 0x00, 0x10, 0x00],
        lrscLoaded.code.set 0x1004 (decoder listedChain 0x00100073)⟩ (packet "1004,4:6398e700") = some
      ⟨fill (fill lrscMem 0x1004 [0x73, 0x00, 0x10, 0x00]) 0x1004 (bytesAt lrscMem 0x1004 4),
        (lrscLoaded.code.set 0x1004 (decoder listedChain 0x00100073)).set 0x1004
          (decoder listedChain 0x00e79863)⟩ :=
    stepM_of_written hback (fun _ => rfl) rfl
  have hfirst : Start listedChain lrscMem 0x1000 0x100c 0x1000 := visits_self (by decide)
  have hsecond : Start listedChain lrscMem 0x1000 0x100c 0x1004 := ⟨hfirst.next, by decide⟩
  refine ⟨_, _, h₁, h₃, (breakpoint_restores_iff loadelf_lrscMem hsecond rfl (fun _ _ => rfl) hins h₁ rfl
    (fun _ _ => rfl) hback h₃).mpr ?_⟩
  decide

/-- `ebreak` over the load-reserved, and the load-reserved back: the compare-and-swap is gone. -/
theorem breakpoint_loses_cas : ∃ s₁ s₃,
    stepM listedChain (fun _ => true) lrscLoaded (packet "1000,4:73001000") = some s₁ ∧
    stepM listedChain (fun _ => true) s₁ (packet "1000,4:af270510") = some s₃ ∧
    lrscLoaded.code.at 0x1000 = some lrscCas ∧
    s₃.code.at 0x1000 = some (decoder listedChain 0x100527af) ∧
    s₃.code.predecoded ≠ lrscLoaded.code.predecoded := by
  have hins : written (packet "1000,4:73001000") = some (0x1000, [0x73, 0x00, 0x10, 0x00]) := by decide
  have hback : written (packet "1000,4:af270510") = some (0x1000, [0xaf, 0x27, 0x05, 0x10]) := by decide
  have h₁ : stepM listedChain (fun _ => true) lrscLoaded (packet "1000,4:73001000") = some
      ⟨fill lrscMem 0x1000 [0x73, 0x00, 0x10, 0x00],
        lrscLoaded.code.set 0x1000 (decoder listedChain 0x00100073)⟩ :=
    stepM_of_written hins (fun _ => rfl) rfl
  have h₃ : stepM listedChain (fun _ => true)
      ⟨fill lrscMem 0x1000 [0x73, 0x00, 0x10, 0x00],
        lrscLoaded.code.set 0x1000 (decoder listedChain 0x00100073)⟩ (packet "1000,4:af270510") = some
      ⟨fill (fill lrscMem 0x1000 [0x73, 0x00, 0x10, 0x00]) 0x1000 [0xaf, 0x27, 0x05, 0x10],
        (lrscLoaded.code.set 0x1000 (decoder listedChain 0x00100073)).set 0x1000
          (decoder listedChain 0x100527af)⟩ :=
    stepM_of_written hback (fun _ => rfl) rfl
  refine ⟨_, _, h₁, h₃, rfl, rfl, ?_⟩
  decide

end Cavatools.Uspike
