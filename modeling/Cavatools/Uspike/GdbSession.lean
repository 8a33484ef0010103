import Cavatools.Uspike.Redecode

/-!
# The replies of a debugger session

The writers put characters at `outPtr` and a NUL behind them, and only some of
them look at the end of `outBuf` first. `ReplyInHex` compares the end with the
number of bytes, of which each becomes two characters; so an `m` packet of a
length in between overruns the buffer.

A writer takes what is in the buffer and gives what is in it then, or one of
three other ends (`Halt`): an `abort()`, which its own check makes, a store
outside of the buffer, or a text that is lost. `put_eq` says of any characters
with their NUL when they fit. With `Writes` a whole command is a writer that
puts a known number of characters, if they fit. That settles every command but
`m` (`handle_of_ne`), as `OUTBUFSIZE` has room for all registers, and for `m`
there are three cases (`commandm_cases`).

A session is a sequence of packets (`Session.step`): `SendPacket` empties the
buffer, a resumed guest comes back through `ProcessGdbException`, and so does
an `abort()`, whose handler jumps back to the loop. So the buffer is empty
when a packet is read, and whether a packet overruns it depends on that packet
and on the memory that can be read. `RepliesFit` is that condition,
`step_outside_iff` the equivalence for one packet, and by the rule for runs
`replies_inside_iff` for whole sessions.

This is about packets that are handled. A fault inside a command is answered
by `E09`; that the process does not survive a second one is left out.
-/

namespace Cavatools.Uspike.Gdblink

open Riscv

/-- `outBuf` up to `outPtr`. -/
abbrev Out := List (BitVec 8)

/-- How a command can end that neither replies nor resumes the guest: by `abort()`, with what is
in `outBuf`; by a store outside `outBuf`; by a store of `redecode` outside the predecoded text. -/
inductive Halt
  | abort (out : Out)
  | outside
  | lost
  deriving DecidableEq

abbrev Writing := Except Halt Out

/-! ## The writers -/

/-- `*outPtr++ = …`, for one character after the other. -/
def putChars : List (BitVec 8) → Out → Writing
  | [], out => .ok out
  | c :: cs, out => if out.length < OUTBUFSIZE then putChars cs (out ++ [c]) else .error .outside

/-- `*outPtr = '\\0'`. -/
def putNul (out : Out) : Writing := if out.length < OUTBUFSIZE then .ok out else .error .outside

def Reply (msg : String) (out : Out) : Writing := do
  let out ← putChars (msg.toList.map chr) out
  putNul out

/-- `val2hexch(*p >> 4)` and `val2hexch(*p++ & 0xF)`, where a `char` has a sign. -/
def hexChars (b : BitVec 8) : List (BitVec 8) :=
  [BitVec.ofInt 8 (val2hexch (b.toInt >>> 4)), BitVec.ofInt 8 (val2hexch (b.toInt % 16))]

/-- The byte at each offset from `address`, and whether it can be read. -/
def ReplyInHex (readable : Nat → Bool) (byte : Nat → BitVec 8) (bytes : Int) (out : Out) : Writing :=
  if (OUTBUFSIZE : Int) - 1 < out.length + bytes then .error (.abort out)
  else if (List.range bytes.toNat).all readable then do
    let out ← putChars ((List.range bytes.toNat).flatMap fun k => hexChars (byte k)) out
    putNul out
  else Reply "E09" out

def ReplyInt (v : BitVec 64) (bytes : Nat) (out : Out) : Writing :=
  if OUTBUFSIZE - 1 < out.length + 2 * bytes then .error (.abort out)
  else do
    let out ← putChars ((List.range (2 * bytes)).reverse.map fun hexdigits =>
      BitVec.ofInt 8 (val2hexch ((v >>> (4 * hexdigits)) &&& 0xF).toInt)) out
    putNul out

/-! ## The commands -/

/-- What the commands see of the guest. -/
structure Target extends Debuggee where
  regs : Regs
  readable : Long → Bool
  writable : Long → Bool

structure Session extends Target where
  lastGdbSignal : Int
  out : Out

/-- One turn of the loop in `ProcessGdbCommand`: it ends at `SendPacket`, or returns. -/
inductive Handled
  | sent (s : Session)
  | returned (s : Session)
  | stopped (why : Halt)

/-- The bytes of a word, least first. -/
def byteOf (v : Long) (k : Nat) : BitVec 8 := (v >>> (8 * k)).setWidth 8

/-- The bytes at `gdb_reg`. -/
def regByte (r : Regs) (k : Nat) : BitVec 8 := byteOf (r.gdb_reg (BitVec.ofNat 5 (k / 8))) (k % 8)

def Session.reply (s : Session) (w : Writing) : Handled :=
  match w with
  | .ok out => .sent { s with out }
  | .error why => .stopped why

/-- `addr,length`, as `m` and `M` begin, and what follows; the length is passed on as an `int`. -/
def parseAddrLength (inp : Input) : Option (Long × Int × Input) :=
  match RcvHexInt inp with
  | none => none
  | some (addr, inp) =>
    if peek inp ≠ chr ',' then none
    else (RcvHexInt inp.tail).map fun (length, inp) => (addr, (length.setWidth 32).toInt, inp)

/-- `g`: all registers and the pc. -/
def commandg (r : Regs) (out : Out) : Writing := do
  let out ← ReplyInHex (fun _ => true) (regByte r) (NUMREGS * 8) out
  ReplyInHex (fun _ => true) (byteOf r.gdb_pc) 8 out

/-- `m`: memory. -/
def commandm (t : Target) (inp : Input) (out : Out) : Writing :=
  match parseAddrLength inp with
  | some (addr, length, _) =>
    ReplyInHex (fun k => t.readable (addr + BitVec.ofNat 64 k)) (fun k => t.mem (addr + BitVec.ofNat 64 k))
      length out
  | none => Reply "E01" out

/-- `?`: the last signal. -/
def commandSignal (lastGdbSignal : Int) (out : Out) : Writing := do
  let out ← Reply "S" out
  ReplyInt (BitVec.ofInt 64 lastGdbSignal) 1 out

/-- The switch of `ProcessGdbCommand`. -/
def handle (chain : List Entry) (s : Session) (inp : Input) : Handled :=
  if peek inp = chr 'g' then s.reply (commandg s.regs s.out)
  else if peek inp = chr 'G' then
    { s with regs := (commandG inp.tail).1 }.reply (Reply (commandG inp.tail).2 s.out)
  else if peek inp = chr '?' then s.reply (commandSignal s.lastGdbSignal s.out)
  else if peek inp = chr 'P' then
    { s with regs := (commandP s.regs inp.tail).1 }.reply (Reply (commandP s.regs inp.tail).2 s.out)
  else if peek inp = chr 'm' then s.reply (commandm s.toTarget inp.tail s.out)
  else if peek inp = chr 'M' then
    match commandM chain s.writable s.toDebuggee inp.tail with
    | some (d, msg) => { s with toDebuggee := d }.reply (Reply msg s.out)
    | none => .stopped .lost
  else if peek inp = chr 's' ∨ peek inp = chr 'c' then
    match commandResume s.regs inp.tail with
    | (regs, none) => .returned { s with regs }
    | (regs, some msg) => { s with regs }.reply (Reply msg s.out)
  else .sent s

def ProcessGdbException (s : Session) : Writing := do
  let out ← Reply "T" s.out
  let out ← ReplyInt (BitVec.ofInt 64 s.lastGdbSignal) 1 out
  let out ← Reply "20:" out
  let out ← ReplyInHex (fun _ => true) (byteOf s.regs.gdb_pc) 8 out
  Reply ";" out

/-! ## A session -/

def SIGABRT : Int := 6

/-- A packet, and the guest and the signal with which it stops if the packet resumes it. -/
structure Event where
  packet : Input
  stopped : Target
  signal : Int

/-- A stop reply is sent. -/
def Session.stopReply (s : Session) : Except Halt Session := do
  let _ ← ProcessGdbException s
  return { s with out := [] }

/-- A packet and all that is written until the next one is read. The handler of `SIGABRT` jumps
back to the loop in `main`. -/
def Session.step (chain : List Entry) (s : Session) (e : Event) : Except Halt Session :=
  match handle chain s e.packet with
  | .sent s' => .ok { s' with out := [] }
  | .returned s' => { s' with toTarget := e.stopped, lastGdbSignal := e.signal }.stopReply
  | .stopped (.abort out) => { s with lastGdbSignal := SIGABRT, out }.stopReply
  | .stopped why => .error why

/-! ## What fits -/

/-- Characters are put one by one, so the first that does not fit is a store outside. -/
theorem putChars_eq (cs : List (BitVec 8)) (out : Out) :
    putChars cs out =
      if cs = [] ∨ out.length + cs.length ≤ OUTBUFSIZE then .ok (out ++ cs) else .error .outside := by
  induction cs generalizing out with
  | nil => rw [putChars, if_pos (Or.inl rfl), List.append_nil]
  | cons c cs ih =>
    rw [putChars]
    by_cases hroom : out.length < OUTBUFSIZE
    · have hlen : (out ++ [c]).length = out.length + 1 := List.length_append
      rw [if_pos hroom, ih, hlen, List.append_assoc, List.length_cons]
      have hiff : (cs = [] ∨ out.length + 1 + cs.length ≤ OUTBUFSIZE) ↔
          (c :: cs = [] ∨ out.length + (cs.length + 1) ≤ OUTBUFSIZE) := by
        constructor
        · intro hall
          rcases hall with rfl | h
          · exact Or.inr (by simpa using hroom)
          · exact Or.inr (by omega)
        · intro hall
          rcases hall with h | h
          · cases h
          · exact Or.inr (by omega)
      simp only [hiff]
      rfl
    · rw [if_neg hroom, if_neg]
      intro hall
      rcases hall with h | h
      · cases h
      · rw [List.length_cons] at h
        omega

/-- Characters and their NUL fit, or there is a store outside the buffer. -/
theorem put_eq (cs : List (BitVec 8)) (out : Out) :
    (putChars cs out >>= putNul) =
      if out.length + cs.length < OUTBUFSIZE then .ok (out ++ cs) else .error .outside := by
  rw [putChars_eq]
  by_cases hroom : out.length + cs.length < OUTBUFSIZE
  · rw [if_pos (Or.inr hroom.le), if_pos hroom]
    show putNul (out ++ cs) = _
    rw [putNul, List.length_append, if_pos hroom]
  · rw [if_neg hroom]
    split
    · show putNul (out ++ cs) = _
      rw [putNul, List.length_append, if_neg hroom]
    · rfl

theorem Reply_ok {msg : String} {out : Out} (h : out.length + msg.length < OUTBUFSIZE) :
    Reply msg out = .ok (out ++ msg.toList.map chr) := by
  have hlen : (msg.toList.map chr).length = msg.length := by rw [List.length_map, String.length_toList]
  unfold Reply
  rw [put_eq, hlen, if_pos h]

theorem length_flatMap_hexChars (bytes : Nat) (byte : Nat → BitVec 8) :
    ((List.range bytes).flatMap fun k => hexChars (byte k)).length = 2 * bytes := by
  rw [List.length_flatMap]
  simp [hexChars, Nat.mul_comm]

/-- `ReplyInHex` aborts, or finds a byte that it cannot read, or writes two characters a byte. -/
theorem ReplyInHex_cases (readable : Nat → Bool) (byte : Nat → BitVec 8) (bytes : Int) (out : Out) :
    ((OUTBUFSIZE : Int) ≤ out.length + bytes ∧ ReplyInHex readable byte bytes out = .error (.abort out)) ∨
    (out.length + bytes < OUTBUFSIZE ∧ (∃ k < bytes.toNat, readable k = false) ∧
      ReplyInHex readable byte bytes out = Reply "E09" out) ∨
    (out.length + bytes < OUTBUFSIZE ∧ (∀ k < bytes.toNat, readable k = true) ∧
      ReplyInHex readable byte bytes out =
        if out.length + 2 * bytes.toNat < OUTBUFSIZE then
          .ok (out ++ (List.range bytes.toNat).flatMap fun k => hexChars (byte k))
        else .error .outside) := by
  unfold ReplyInHex
  by_cases habort : (OUTBUFSIZE : Int) - 1 < out.length + bytes
  · rw [if_pos habort]
    exact Or.inl ⟨by omega, rfl⟩
  · rw [if_neg habort]
    by_cases hall : (List.range bytes.toNat).all readable = true
    · rw [if_pos hall, put_eq, length_flatMap_hexChars]
      refine Or.inr (Or.inr ⟨by omega, fun k hk => ?_, rfl⟩)
      exact List.all_eq_true.mp hall k (List.mem_range.mpr hk)
    · rw [if_neg hall]
      refine Or.inr (Or.inl ⟨by omega, ?_, rfl⟩)
      simpa using hall

theorem ReplyInHex_ok {readable : Nat → Bool} {byte : Nat → BitVec 8} {bytes : Int} {out : Out}
    (hread : ∀ k < bytes.toNat, readable k = true) (h : out.length + 2 * bytes.toNat < OUTBUFSIZE) :
    ReplyInHex readable byte bytes out =
      .ok (out ++ (List.range bytes.toNat).flatMap fun k => hexChars (byte k)) := by
  rcases ReplyInHex_cases readable byte bytes out with ⟨hlong, -⟩ | ⟨-, ⟨k, hk, hbad⟩, -⟩ | ⟨-, -, heq⟩
  · omega
  · rw [hread k hk] at hbad
    cases hbad
  · rw [heq, if_pos h]

/-- The writer puts `n` characters into the buffer, if they fit there with the NUL. -/
def Writes (w : Out → Writing) (n : Nat) : Prop :=
  ∀ out, out.length + n < OUTBUFSIZE → ∃ cs, cs.length = n ∧ w out = .ok (out ++ cs)

theorem Writes.bind {w w' : Out → Writing} {n m : Nat} (h : Writes w n) (h' : Writes w' m) :
    Writes (fun out => w out >>= w') (n + m) := by
  intro out hout
  obtain ⟨cs, hcs, hw⟩ := h out (by omega)
  obtain ⟨cs', hcs', hw'⟩ := h' (out ++ cs) (by rw [List.length_append]; omega)
  refine ⟨cs ++ cs', by rw [List.length_append, hcs, hcs'], ?_⟩
  dsimp only
  rw [hw, ← List.append_assoc]
  exact hw'

theorem Reply_writes (msg : String) : Writes (Reply msg) msg.length := by
  intro out hout
  exact ⟨_, by rw [List.length_map, String.length_toList], Reply_ok hout⟩

theorem ReplyInt_writes (v : BitVec 64) (bytes : Nat) : Writes (ReplyInt v bytes) (2 * bytes) := by
  intro out hout
  have hlen : ((List.range (2 * bytes)).reverse.map fun hexdigits =>
      BitVec.ofInt 8 (val2hexch ((v >>> (4 * hexdigits)) &&& 0xF).toInt)).length = 2 * bytes := by simp
  refine ⟨_, hlen, ?_⟩
  unfold ReplyInt
  rw [if_neg (by omega), put_eq, hlen, if_pos hout]

theorem ReplyInHex_writes (readable : Nat → Bool) (byte : Nat → BitVec 8) (bytes : Nat)
    (hread : ∀ k < bytes, readable k = true) : Writes (ReplyInHex readable byte bytes) (2 * bytes) :=
  fun _ hout => ⟨_, length_flatMap_hexChars bytes byte, ReplyInHex_ok hread hout⟩

theorem Writes.ok {w : Out → Writing} {n : Nat} (h : Writes w n) (hn : n < OUTBUFSIZE) :
    ∃ out, w [] = .ok out := by
  obtain ⟨cs, -, hw⟩ := h [] (by rwa [List.length_nil, Nat.zero_add])
  exact ⟨_, hw⟩

theorem commandg_writes (r : Regs) : Writes (commandg r) 528 :=
  (ReplyInHex_writes (fun _ => true) (regByte r) 256 fun _ _ => rfl).bind
    (ReplyInHex_writes (fun _ => true) (byteOf r.gdb_pc) 8 fun _ _ => rfl)

theorem commandSignal_writes (sig : Int) : Writes (commandSignal sig) 3 :=
  (Reply_writes "S").bind (ReplyInt_writes (BitVec.ofInt 64 sig) 1)

/-- A stop reply has 23 characters. -/
theorem stopReply_ok {s : Session} (hs : s.out = []) : s.stopReply = .ok { s with out := [] } := by
  have hwrites := (Reply_writes "T").bind ((ReplyInt_writes (BitVec.ofInt 64 s.lastGdbSignal) 1).bind
    ((Reply_writes "20:").bind ((ReplyInHex_writes (fun _ => true) (byteOf s.regs.gdb_pc) 8
      fun _ _ => rfl).bind (Reply_writes ";"))))
  obtain ⟨out, hout⟩ := hwrites.ok (by decide)
  have hexception : ProcessGdbException s = .ok out := by
    unfold ProcessGdbException
    rw [hs]
    exact hout
  unfold Session.stopReply
  rw [hexception]
  rfl

/-! ## One packet -/

section
variable (chain : List Entry) (s : Session) (inp : Input)

theorem handle_g : handle chain s (chr 'g' :: inp) = s.reply (commandg s.regs s.out) := rfl

theorem handle_G : handle chain s (chr 'G' :: inp) =
    { s with regs := (commandG inp).1 }.reply (Reply (commandG inp).2 s.out) := rfl

theorem handle_P : handle chain s (chr 'P' :: inp) =
    { s with regs := (commandP s.regs inp).1 }.reply (Reply (commandP s.regs inp).2 s.out) := rfl

theorem handle_m : handle chain s (chr 'm' :: inp) = s.reply (commandm s.toTarget inp s.out) := rfl

variable {chain s inp}

theorem handle_M {d : Debuggee} {msg : String}
    (h : commandM chain s.writable s.toDebuggee inp = some (d, msg)) :
    handle chain s (chr 'M' :: inp) = { s with toDebuggee := d }.reply (Reply msg s.out) := by
  have hcommand : commandM chain s.writable s.toDebuggee (chr 'M' :: inp).tail = some (d, msg) := h
  unfold handle
  rw [hcommand]
  rfl

theorem handle_M_none (h : commandM chain s.writable s.toDebuggee inp = none) :
    handle chain s (chr 'M' :: inp) = .stopped .lost := by
  have hcommand : commandM chain s.writable s.toDebuggee (chr 'M' :: inp).tail = none := h
  unfold handle
  rw [hcommand]
  rfl

end

theorem reply_msg {s : Session} (hs : s.out = []) {msg : String} (h : msg.length < OUTBUFSIZE) (s' : Session) :
    s'.reply (Reply msg s.out) = .sent { s' with out := packet msg } := by
  rw [hs, Reply_ok (by simpa using h)]
  rfl

section
variable (chain : List Entry) {s : Session} (hs : s.out = []) (inp : Input)
include hs

theorem sent_G {r : Regs} {msg : String} (h : commandG inp = (r, msg)) (hmsg : msg.length < OUTBUFSIZE) :
    handle chain s (chr 'G' :: inp) = .sent { s with regs := r, out := packet msg } := by
  rw [handle_G, h, reply_msg hs hmsg]

theorem sent_P {r : Regs} {msg : String} (h : commandP s.regs inp = (r, msg)) (hmsg : msg.length < OUTBUFSIZE) :
    handle chain s (chr 'P' :: inp) = .sent { s with regs := r, out := packet msg } := by
  rw [handle_P, h, reply_msg hs hmsg]

theorem sent_M {d : Debuggee} {msg : String} (h : commandM chain s.writable s.toDebuggee inp = some (d, msg))
    (hmsg : msg.length < OUTBUFSIZE) :
    handle chain s (chr 'M' :: inp) = .sent { s with toDebuggee := d, out := packet msg } := by
  rw [handle_M h, reply_msg hs hmsg]

end

/-- The answers of the commands that write. -/
theorem commandG_reply (inp : Input) : (commandG inp).2.length < OUTBUFSIZE := by
  unfold commandG
  dsimp only
  split <;> decide

theorem commandP_reply (r : Regs) (inp : Input) : (commandP r inp).2.length < OUTBUFSIZE := by
  have hsyntax : "E01".length < OUTBUFSIZE := by decide
  unfold commandP
  split
  · exact hsyntax
  · split
    · dsimp only
      split <;> decide
    · exact hsyntax

/-- `M` answers with one of its three texts. -/
theorem commandM_reply {chain : List Entry} {writable : Long → Bool} {d d' : Debuggee} {inp : Input}
    {msg : String} (h : commandM chain writable d inp = some (d', msg)) : msg.length < OUTBUFSIZE := by
  unfold commandM at h
  split at h
  · cases h
    decide
  · dsimp only at h
    split at h
    · obtain ⟨code, -, heq⟩ := Option.map_eq_some_iff.mp h
      cases heq
      decide
    · cases h
      decide

theorem commandResume_reply {r r' : Regs} {inp : Input} {msg : String}
    (h : commandResume r inp = (r', some msg)) : msg.length < OUTBUFSIZE := by
  unfold commandResume at h
  split at h
  · cases h
  · split at h
    · cases h
    · cases h
      decide

/-- A packet is harmless to the buffer: it asks for no bytes, or for so few that they fit, or so
many that it is refused, or for one that cannot be read. -/
def RepliesFit (s : Session) (inp : Input) : Prop :=
  ∀ addr length rest, peek inp = chr 'm' → parseAddrLength inp.tail = some (addr, length, rest) →
    OUTBUFSIZE ≤ 2 * length → length < OUTBUFSIZE →
    ∃ k < length.toNat, s.readable (addr + BitVec.ofNat 64 k) = false

/-- `m` stores outside the buffer, aborts with it empty, or replies. -/
theorem commandm_cases (t : Target) (inp : Input) :
    (commandm t inp [] = .error .outside ∧ ∃ addr length rest,
      parseAddrLength inp = some (addr, length, rest) ∧ OUTBUFSIZE ≤ 2 * length ∧ length < OUTBUFSIZE ∧
      ∀ k < length.toNat, t.readable (addr + BitVec.ofNat 64 k) = true) ∨
    ((commandm t inp [] = .error (.abort []) ∨ ∃ out, commandm t inp [] = .ok out) ∧
      ∀ addr length rest, parseAddrLength inp = some (addr, length, rest) →
        OUTBUFSIZE ≤ 2 * length → length < OUTBUFSIZE →
        ∃ k < length.toNat, t.readable (addr + BitVec.ofNat 64 k) = false) := by
  have hsize : OUTBUFSIZE = 628 := rfl
  unfold commandm
  cases hparse : parseAddrLength inp with
  | none =>
    refine Or.inr ⟨Or.inr ⟨_, Reply_ok (by decide)⟩, ?_⟩
    intro addr length rest h
    cases h
  | some p =>
    obtain ⟨addr, length, rest⟩ := p
    dsimp only
    rcases ReplyInHex_cases (fun k => t.readable (addr + BitVec.ofNat 64 k))
        (fun k => t.mem (addr + BitVec.ofNat 64 k)) length [] with
      ⟨hlong, heq⟩ | ⟨-, hbad, heq⟩ | ⟨hshort, hread, heq⟩
    · refine Or.inr ⟨Or.inl heq, ?_⟩
      intro addr' length' rest' h _ hlt
      cases h
      rw [List.length_nil] at hlong
      omega
    · refine Or.inr ⟨Or.inr ⟨_, heq.trans (Reply_ok (by decide))⟩, ?_⟩
      intro addr' length' rest' h _ _
      cases h
      exact hbad
    · rw [List.length_nil, Int.natCast_zero, Int.zero_add] at hshort
      by_cases hroom : 2 * length.toNat < OUTBUFSIZE
      · refine Or.inr ⟨Or.inr ⟨_, heq.trans (if_pos (by simpa using hroom))⟩, ?_⟩
        intro addr' length' rest' h hge _
        cases h
        omega
      · exact Or.inl ⟨heq.trans (if_neg (by simpa using hroom)), addr, length, rest, rfl, by omega, hshort,
          hread⟩

theorem reply_sent {s : Session} {w : Writing} (h : ∃ out, w = .ok out) : ∃ s', s.reply w = .sent s' := by
  obtain ⟨out, rfl⟩ := h
  exact ⟨_, rfl⟩

/-- Every command but `m` replies, resumes the guest or loses the text. -/
theorem handle_of_ne (chain : List Entry) {s : Session} (hs : s.out = []) {inp : Input}
    (hm : peek inp ≠ chr 'm') :
    (∃ s', handle chain s inp = .sent s') ∨ (∃ s', handle chain s inp = .returned s' ∧ s'.out = []) ∨
      handle chain s inp = .stopped .lost := by
  have hreply (s' : Session) {msg : String} (hmsg : msg.length < OUTBUFSIZE) :
      ∃ s'', s'.reply (Reply msg s.out) = .sent s'' := by
    rw [hs]
    exact reply_sent ((Reply_writes msg).ok hmsg)
  unfold handle
  by_cases hg : peek inp = chr 'g'
  · rw [if_pos hg, hs]
    exact Or.inl (reply_sent ((commandg_writes s.regs).ok (by decide)))
  rw [if_neg hg]
  by_cases hG : peek inp = chr 'G'
  · rw [if_pos hG]
    exact Or.inl (hreply _ (commandG_reply inp.tail))
  rw [if_neg hG]
  by_cases hq : peek inp = chr '?'
  · rw [if_pos hq, hs]
    exact Or.inl (reply_sent ((commandSignal_writes s.lastGdbSignal).ok (by decide)))
  rw [if_neg hq]
  by_cases hP : peek inp = chr 'P'
  · rw [if_pos hP]
    exact Or.inl (hreply _ (commandP_reply s.regs inp.tail))
  rw [if_neg hP, if_neg hm]
  by_cases hM : peek inp = chr 'M'
  · rw [if_pos hM]
    cases hcommand : commandM chain s.writable s.toDebuggee inp.tail with
    | none => exact Or.inr (Or.inr rfl)
    | some p => exact Or.inl (hreply _ (commandM_reply hcommand))
  rw [if_neg hM]
  by_cases hsc : peek inp = chr 's' ∨ peek inp = chr 'c'
  · rw [if_pos hsc]
    rcases hresume : commandResume s.regs inp.tail with ⟨regs, _ | msg⟩
    · exact Or.inr (Or.inl ⟨_, rfl, hs⟩)
    · exact Or.inl (hreply _ (commandResume_reply hresume))
  · rw [if_neg hsc]
    exact Or.inl ⟨s, rfl⟩

/-- A packet after which the session goes on. -/
theorem step_ok {chain : List Entry} {s s' : Session} {e : Event} (hstep : Session.step chain s e = .ok s')
    (hs' : s'.out = []) (hfit : RepliesFit s e.packet) :
    (Session.step chain s e = .error .outside ↔ ¬RepliesFit s e.packet) ∧
      ∀ s'', Session.step chain s e = .ok s'' → s''.out = [] := by
  rw [hstep]
  refine ⟨iff_of_false (by simp) (not_not.mpr hfit), fun s'' h => ?_⟩
  cases h
  exact hs'

theorem step_sent {chain : List Entry} {s s' : Session} {e : Event} (h : handle chain s e.packet = .sent s') :
    Session.step chain s e = .ok { s' with out := [] } := by
  unfold Session.step
  rw [h]

/-- **One packet**: a store outside the buffer, or the buffer is empty when the next one is read. -/
theorem step_outside_iff (chain : List Entry) {s : Session} (hs : s.out = []) (e : Event) :
    (Session.step chain s e = .error .outside ↔ ¬RepliesFit s e.packet) ∧
      ∀ s', Session.step chain s e = .ok s' → s'.out = [] := by
  by_cases hm : peek e.packet = chr 'm'
  · have hhandle : handle chain s e.packet = s.reply (commandm s.toTarget e.packet.tail []) := by
      unfold handle
      rw [hm, hs]
      rfl
    rcases commandm_cases s.toTarget e.packet.tail with ⟨hout, addr, length, rest, hparse, hge, hlt, hread⟩ |
      ⟨habort | ⟨out, hok⟩, hfit⟩
    · rw [hout] at hhandle
      have hstep : Session.step chain s e = .error .outside := by
        unfold Session.step
        rw [hhandle]
        rfl
      refine ⟨iff_of_true hstep fun hfit => ?_, fun s' h => ?_⟩
      · obtain ⟨k, hk, hbad⟩ := hfit addr length rest hm hparse hge hlt
        rw [hread k hk] at hbad
        cases hbad
      · rw [hstep] at h
        cases h
    · rw [habort] at hhandle
      have hstep : Session.step chain s e = .ok { s with lastGdbSignal := SIGABRT, out := [] } := by
        unfold Session.step
        rw [hhandle]
        exact stopReply_ok rfl
      exact step_ok hstep rfl fun addr length rest _ => hfit addr length rest
    · rw [hok] at hhandle
      exact step_ok (step_sent hhandle) rfl fun addr length rest _ => hfit addr length rest
  · have hfit : RepliesFit s e.packet := fun _ _ _ h => absurd h hm
    rcases handle_of_ne chain hs hm with ⟨s', hhandle⟩ | ⟨s', hhandle, hs'⟩ | hhandle
    · exact step_ok (step_sent hhandle) rfl hfit
    · have hstep : Session.step chain s e =
          .ok { s' with toTarget := e.stopped, lastGdbSignal := e.signal, out := [] } := by
        unfold Session.step
        rw [hhandle]
        exact stopReply_ok hs'
      exact step_ok hstep rfl hfit
    · have hstep : Session.step chain s e = .error .lost := by
        unfold Session.step
        rw [hhandle]
      rw [hstep]
      refine ⟨iff_of_false (by simp) (not_not.mpr hfit), fun s'' h => ?_⟩
      cases h

/-! ## Sessions -/

/-- A session that goes on. -/
def Session.next (chain : List Entry) (s : Session) (e : Event) : Option Session :=
  (Session.step chain s e).toOption

/-- **Replies stay inside the buffer** in a session exactly if none of its `m` packets asks for so
many bytes, all of them readable, that the bytes are fewer than the buffer has but their digits
and the NUL are not. -/
theorem replies_inside_iff (chain : List Entry) {s : Session} (hs : s.out = []) (es : List Event) :
    es.foldlM (Session.step chain) s ≠ .error .outside ↔
      Lib.Along (Session.next chain) (fun s e => RepliesFit s e.packet) es s := by
  induction es generalizing s with
  | nil => exact iff_of_true (by simp [pure, Except.pure]) trivial
  | cons e es ih =>
    obtain ⟨houtside, hempty⟩ := step_outside_iff chain hs e
    rw [List.foldlM_cons]
    cases hstep : Session.step chain s e with
    | ok s' =>
      have hnext : Session.next chain s e = some s' := by
        unfold Session.next
        rw [hstep]
        rfl
      have hfit : RepliesFit s e.packet := by
        by_contra hnot
        rw [houtside.mpr hnot] at hstep
        cases hstep
      rw [Lib.along_cons hnext, and_iff_right hfit]
      exact ih (hempty s' hstep)
    | error why =>
      have hnone : Session.next chain s e = none := by
        unfold Session.next
        rw [hstep]
        rfl
      show (Except.error why : Except Halt Session) ≠ _ ↔ _
      unfold Lib.Along
      rw [hnone]
      simp only [Option.mem_def, reduceCtorEq, false_imp_iff, implies_true, and_true, ne_eq]
      rw [← not_iff_not, not_not, ← houtside, hstep]

/-! ### Two lengths -/

/-- A guest of which everything can be read and written. -/
def openTarget : Target where
  mem := nopLiMem
  code := nopLi
  regs := ⟨fun _ => 0, 0x1000⟩
  readable := fun _ => true
  writable := fun _ => true

def openSession : Session := { openTarget with lastGdbSignal := 5, out := [] }

/-- 313 bytes, and all registers after them. -/
theorem replies_inside_313 :
    [⟨packet "m1000,139", openTarget, 5⟩, ⟨packet "g", openTarget, 5⟩].foldlM (Session.step listedChain)
      openSession ≠ .error .outside := by
  refine (replies_inside_iff listedChain rfl _).mpr ⟨?_, fun s _ => ⟨?_, fun _ _ => trivial⟩⟩
  · intro addr length rest _ hparse hge _
    obtain ⟨-, rfl, -⟩ : (0x1000 : Long) = addr ∧ (313 : Int) = length ∧ [] = rest := by
      simpa using (show some ((0x1000 : Long), (313 : Int), ([] : Input)) = some (addr, length, rest)
        from (show parseAddrLength (packet "m1000,139").tail = _ by decide).symm.trans hparse)
    exact absurd hge (by decide)
  · intro addr length rest hm
    exact absurd hm (by decide)

/-- One byte more: the NUL goes behind the buffer. -/
theorem replies_outside_314 : [⟨packet "m1000,13a", openTarget, 5⟩].foldlM (Session.step listedChain)
    openSession = .error .outside := by
  have hparse : parseAddrLength (packet "m1000,13a").tail = some (0x1000, 314, []) := by decide
  have hstep : Session.step listedChain openSession ⟨packet "m1000,13a", openTarget, 5⟩
      = .error .outside := by
    refine (step_outside_iff listedChain rfl _).1.mpr fun hfit => ?_
    obtain ⟨k, -, hbad⟩ := hfit 0x1000 314 [] (by decide) hparse (by decide) (by decide)
    cases hbad
  rw [List.foldlM_cons, hstep]
  rfl

end Cavatools.Uspike.Gdblink
