import Cavatools.Uspike.GdbSession

/-!
# A debugger session on the link

`ProcessGdbCommand` reads and writes single bytes: a packet is read until one
checks, and its reply is sent until a `+` is read. On a link that damages what
the debugger sends, and whose other end refuses replies, the bytes carry the
session that the packets alone would make: each packet is executed once, in
the order they were sent, and each reply is on the link as a frame from which
it can be read back.

`Stub` is the receiver's link with the session behind it, and a turn of it
reads a packet, handles it and sends the reply (`Stub.turn`). The session
without a link is `Session.answers`, the packets with their replies. What is
on the link for one packet is an `Exchange`: noise, damaged frames, the frame
of the packet, and the answers of the other end to the reply. `Exchange.Fits`
says what the theorem is about: the packet has none of the characters that
frame packets and fits the buffer, the damage is of the two kinds that a
debugger recovers from, and every byte before the `+` refuses the reply.

The receiving half is that of `Gdblink` (`receive_packet`), the sending half
`sendPacket_refused`. Between them lies a fact about replies: none has a
character that frames packets (`Tidy`). It is proved of each writer (`Tidies`)
and then of all commands (`handle_tidy`, `answered_tidy`), since a reply with
a `#` in it could not be read back. `turn_answered` is one exchange, and
`served_session` the induction over them, which also covers the packet at
which the process ends.
-/

namespace Cavatools.Uspike.Gdblink

/-! ## The stub -/

/-- The packet that the commands read, from `inPtr` up to the NUL. -/
def Link.packet (l : Link) : Input :=
  ((List.range INBUFSIZE).map fun k => l.inBuf (l.inPtr + k)).takeWhile (· ≠ 0)

structure Stub where
  link : Link
  session : Session

/-- One turn of the loop on a stream: the stub reads the next packet, waits for more bytes, or stops. -/
inductive Turn
  | next (w : Stub) (input : List (BitVec 8))
  | waiting
  | fault
  | stopped (why : Halt)

namespace Stub

variable (w : Stub)

/-- `SendPacket()` at the end of a turn. -/
def send (input : List (BitVec 8)) : Turn :=
  match SendPacket (w.session.out ++ [0]) input with
  | none => .waiting
  | some (sent, input) =>
    .next ⟨{ w.link with out := w.link.out ++ sent }, { w.session with out := [] }⟩ input

/-- `ProcessGdbException()`. -/
def exception (input : List (BitVec 8)) : Turn :=
  match ProcessGdbException w.session with
  | .ok out => Stub.send ⟨w.link, { w.session with out }⟩ input
  | .error why => .stopped why

/-- From `ReceivePacket` up to the next, and the guest in between if it is resumed: it stops as
`stopped`, by `signal`. -/
def turn (chain : List Entry) (stopped : Target) (signal : Int) (input : List (BitVec 8)) : Turn :=
  match ReceivePacket w.link input with
  | .waiting _ => .waiting
  | .fault => .fault
  | .returned l input =>
    match handle chain w.session l.packet with
    | .sent s => Stub.send ⟨l, s⟩ input
    | .returned s => Stub.exception ⟨l, { s with toTarget := stopped, lastGdbSignal := signal }⟩ input
    | .stopped (.abort out) => Stub.exception ⟨l, { w.session with lastGdbSignal := SIGABRT, out }⟩ input
    | .stopped why => .stopped why

/-- One turn after the other. -/
def turns (chain : List Entry) : List (Target × Int) → Stub → List (BitVec 8) → Turn
  | [], w, input => .next w input
  | (stopped, signal) :: stops, w, input =>
    match w.turn chain stopped signal input with
    | .next w input => turns chain stops w input
    | t => t

end Stub

/-! ## The packets and their replies -/

def Session.exceptionReply (s : Session) : Except Halt (Session × Out) := do
  let out ← ProcessGdbException s
  return ({ s with out := [] }, out)

/-- A packet, and the reply to it. -/
def Session.answered (chain : List Entry) (s : Session) (e : Event) : Except Halt (Session × Out) :=
  match handle chain s e.packet with
  | .sent s' => .ok ({ s' with out := [] }, s'.out)
  | .returned s' => { s' with toTarget := e.stopped, lastGdbSignal := e.signal }.exceptionReply
  | .stopped (.abort out) => { s with lastGdbSignal := SIGABRT, out }.exceptionReply
  | .stopped why => .error why

/-- One packet after the other, and their replies. -/
def Session.answers (chain : List Entry) : Session → List Event → Except Halt (Session × List Out)
  | s, [] => .ok (s, [])
  | s, e :: es => do
    let (s, out) ← s.answered chain e
    let (s, outs) ← answers chain s es
    return (s, out :: outs)

/-- Without its reply, a packet with its reply is a step of the session. -/
theorem answered_step (chain : List Entry) (s : Session) (e : Event) :
    (s.answered chain e).map Prod.fst = Session.step chain s e := by
  have hexception (s' : Session) : s'.exceptionReply.map Prod.fst = s'.stopReply := by
    unfold Session.exceptionReply Session.stopReply
    cases ProcessGdbException s' <;> rfl
  unfold Session.answered Session.step
  cases handle chain s e.packet with
  | sent s' => rfl
  | returned s' => exact hexception _
  | stopped why =>
    cases why with
    | abort out => exact hexception _
    | outside => rfl
    | lost => rfl

/-! ## What the replies are made of -/

/-- No character that frames a packet. -/
def Tidy (out : Out) : Prop := ∀ c ∈ out, c ≠ chr '$' ∧ c ≠ chr '#' ∧ c ≠ 0

instance (out : Out) : Decidable (Tidy out) := inferInstanceAs (Decidable (∀ c ∈ out, _))

/-- Neither a reply nor what an `abort()` leaves has one. -/
structure Tidies (w : Writing) : Prop where
  ok : ∀ out, w = .ok out → Tidy out
  abort : ∀ out, w = .error (.abort out) → Tidy out

theorem tidy_append {out cs : Out} (h : Tidy out) (hcs : Tidy cs) : Tidy (out ++ cs) := by
  intro c hc
  rcases List.mem_append.mp hc with hmem | hmem
  · exact h c hmem
  · exact hcs c hmem

theorem tidies_ok {out : Out} (h : Tidy out) : Tidies (.ok out) where
  ok _ heq := Except.ok.inj heq ▸ h
  abort _ heq := by cases heq

theorem tidies_abort {out : Out} (h : Tidy out) : Tidies (.error (.abort out)) where
  ok _ heq := by cases heq
  abort _ heq := Halt.abort.inj (Except.error.inj heq) ▸ h

theorem tidies_outside : Tidies (.error .outside) where
  ok _ heq := by cases heq
  abort _ heq := by cases heq

theorem tidies_lost : Tidies (.error .lost) where
  ok _ heq := by cases heq
  abort _ heq := by cases heq

theorem tidies_bind {w : Writing} {f : Out → Writing} (hw : Tidies w) (hf : ∀ out, Tidy out → Tidies (f out)) :
    Tidies (w >>= f) := by
  cases w with
  | ok out => exact hf out (hw.ok out rfl)
  | error why =>
    cases why with
    | abort out => exact tidies_abort (hw.abort out rfl)
    | outside => exact tidies_outside
    | lost => exact tidies_lost

theorem tidies_put {cs out : Out} (hcs : Tidy cs) (h : Tidy out) : Tidies (putChars cs out >>= putNul) := by
  rw [put_eq]
  split
  · exact tidies_ok (tidy_append h hcs)
  · exact tidies_outside

theorem tidies_reply {msg : String} (hmsg : Tidy (msg.toList.map chr)) {out : Out} (h : Tidy out) :
    Tidies (Reply msg out) := tidies_put hmsg h

theorem tidy_val2hexch (val : Int) : Tidy [BitVec.ofInt 8 (val2hexch val)] := by
  have hall : ∀ n < 16, Tidy [BitVec.ofInt 8 (val2hexch ((n : Nat) : Int))] := by decide
  have hval : val2hexch val = val2hexch ((val % 16).toNat : Int) := by
    unfold val2hexch
    rw [Int.toNat_of_nonneg (Int.emod_nonneg val (by decide)), Int.emod_emod]
  rw [hval]
  exact hall _ (by omega)

theorem tidy_hexChars (b : BitVec 8) : Tidy (hexChars b) :=
  tidy_append (tidy_val2hexch (b.toInt >>> 4)) (tidy_val2hexch (b.toInt % 16))

/-- `ReplyInHex` writes digits, or the text of an error. -/
theorem tidies_replyInHex (readable : Nat → Bool) (byte : Nat → BitVec 8) (bytes : Int) {out : Out}
    (h : Tidy out) : Tidies (ReplyInHex readable byte bytes out) := by
  rcases ReplyInHex_cases readable byte bytes out with ⟨-, heq⟩ | ⟨-, -, heq⟩ | ⟨-, -, heq⟩
  · rw [heq]
    exact tidies_abort h
  · rw [heq]
    exact tidies_reply (by decide) h
  · rw [heq]
    split
    · refine tidies_ok (tidy_append h fun c hc => ?_)
      obtain ⟨k, -, hk⟩ := List.mem_flatMap.mp hc
      exact tidy_hexChars _ c hk
    · exact tidies_outside

theorem tidies_replyInt (v : BitVec 64) (bytes : Nat) {out : Out} (h : Tidy out) :
    Tidies (ReplyInt v bytes out) := by
  unfold ReplyInt
  split
  · exact tidies_abort h
  · refine tidies_put (fun c hc => ?_) h
    obtain ⟨k, -, rfl⟩ := List.mem_map.mp hc
    exact tidy_val2hexch _ _ (List.mem_singleton_self _)

theorem tidies_exception {s : Session} (h : Tidy s.out) : Tidies (ProcessGdbException s) := by
  unfold ProcessGdbException
  refine tidies_bind (tidies_reply (by decide) h) fun out h => ?_
  refine tidies_bind (tidies_replyInt _ _ h) fun out h => ?_
  refine tidies_bind (tidies_reply (by decide) h) fun out h => ?_
  refine tidies_bind (tidies_replyInHex _ _ _ h) fun out h => ?_
  exact tidies_reply (by decide) h

/-! ### The answers of the commands -/

def answersOf : List String := ["OK", "E01", "E02"]

theorem tidies_answer {msg : String} (hmsg : msg ∈ answersOf) {out : Out} (h : Tidy out) :
    Tidies (Reply msg out) := by
  refine tidies_reply ?_ h
  revert msg
  decide

theorem commandG_answer (inp : Input) : (commandG inp).2 ∈ answersOf := by
  unfold commandG
  dsimp only
  split <;> decide

theorem commandP_answer (r : Regs) (inp : Input) : (commandP r inp).2 ∈ answersOf := by
  have hsyntax : "E01" ∈ answersOf := by decide
  unfold commandP
  split
  · exact hsyntax
  · split
    · dsimp only
      split <;> decide
    · exact hsyntax

/-- `M` answers with one of the texts of all commands. -/
theorem commandM_answer {chain : List Entry} {writable : Long → Bool} {d d' : Debuggee} {inp : Input}
    {msg : String} (h : commandM chain writable d inp = some (d', msg)) : msg ∈ answersOf := by
  unfold commandM at h
  split at h
  · cases h
    decide
  · dsimp only at h
    split at h
    · obtain ⟨code, -, heq⟩ := Option.map_eq_some_iff.mp h
      cases heq
      decide
    · cases h
      decide

theorem commandResume_answer {r r' : Regs} {inp : Input} {msg : String}
    (h : commandResume r inp = (r', some msg)) : msg ∈ answersOf := by
  unfold commandResume at h
  split at h
  · cases h
  · split at h
    · cases h
    · cases h
      decide

/-- The buffer at the end of a command is tidy. -/
structure Handled.Tidy (h : Handled) : Prop where
  sent : ∀ s, h = .sent s → Gdblink.Tidy s.out
  returned : ∀ s, h = .returned s → Gdblink.Tidy s.out
  abort : ∀ out, h = .stopped (.abort out) → Gdblink.Tidy out

theorem tidy_sent {s : Session} (h : Tidy s.out) : (Handled.sent s).Tidy where
  sent _ heq := Handled.sent.inj heq ▸ h
  returned _ heq := by cases heq
  abort _ heq := by cases heq

theorem tidy_returned {s : Session} (h : Tidy s.out) : (Handled.returned s).Tidy where
  sent _ heq := by cases heq
  returned _ heq := Handled.returned.inj heq ▸ h
  abort _ heq := by cases heq

theorem tidy_stopped {why : Halt} (h : ∀ out, why = .abort out → Tidy out) : (Handled.stopped why).Tidy where
  sent _ heq := by cases heq
  returned _ heq := by cases heq
  abort out heq := h out (Handled.stopped.inj heq)

theorem tidy_reply {s : Session} {w : Writing} (h : Tidies w) : (s.reply w).Tidy := by
  cases w with
  | ok out => exact tidy_sent (h.ok out rfl)
  | error why => exact tidy_stopped fun out heq => h.abort out (congrArg Except.error heq)

/-- **Every command** leaves a tidy buffer; the cases are those of the switch. -/
theorem handle_tidy (chain : List Entry) {s : Session} (hs : Tidy s.out) (inp : Input) :
    (handle chain s inp).Tidy := by
  unfold handle
  by_cases hg : peek inp = chr 'g'
  · rw [if_pos hg]
    refine tidy_reply ?_
    unfold commandg
    exact tidies_bind (tidies_replyInHex _ _ _ hs) fun out h => tidies_replyInHex _ _ _ h
  rw [if_neg hg]
  by_cases hG : peek inp = chr 'G'
  · rw [if_pos hG]
    exact tidy_reply (tidies_answer (commandG_answer _) hs)
  rw [if_neg hG]
  by_cases hq : peek inp = chr '?'
  · rw [if_pos hq]
    refine tidy_reply ?_
    unfold commandSignal
    exact tidies_bind (tidies_reply (by decide) hs) fun out h => tidies_replyInt _ _ h
  rw [if_neg hq]
  by_cases hP : peek inp = chr 'P'
  · rw [if_pos hP]
    exact tidy_reply (tidies_answer (commandP_answer _ _) hs)
  rw [if_neg hP]
  by_cases hm : peek inp = chr 'm'
  · rw [if_pos hm]
    refine tidy_reply ?_
    unfold commandm
    split
    · exact tidies_replyInHex _ _ _ hs
    · exact tidies_reply (by decide) hs
  rw [if_neg hm]
  by_cases hM : peek inp = chr 'M'
  · rw [if_pos hM]
    cases hcommand : commandM chain s.writable s.toDebuggee inp.tail with
    | none => exact tidy_stopped fun _ heq => Halt.noConfusion heq
    | some p => exact tidy_reply (tidies_answer (commandM_answer hcommand) hs)
  rw [if_neg hM]
  by_cases hsc : peek inp = chr 's' ∨ peek inp = chr 'c'
  · rw [if_pos hsc]
    rcases hresume : commandResume s.regs inp.tail with ⟨regs, _ | msg⟩
    · exact tidy_returned hs
    · exact tidy_reply (tidies_answer (commandResume_answer hresume) hs)
  · rw [if_neg hsc]
    exact tidy_sent hs

/-- A stop reply is tidy, and empties the buffer. -/
theorem exceptionReply_tidy {s s' : Session} {out : Out} (hs : Tidy s.out)
    (h : s.exceptionReply = .ok (s', out)) : s'.out = [] ∧ Tidy out := by
  have htidy := tidies_exception hs
  unfold Session.exceptionReply at h
  cases hexc : ProcessGdbException s with
  | error why =>
    rw [hexc] at h
    cases h
  | ok text =>
    rw [hexc] at h htidy
    cases h
    exact ⟨rfl, htidy.ok _ rfl⟩

/-- The reply to a packet is tidy, whether the packet was answered, resumed the guest or aborted. -/
theorem answered_tidy {chain : List Entry} {s s' : Session} {e : Event} {out : Out} (hs : s.out = [])
    (h : s.answered chain e = .ok (s', out)) : s'.out = [] ∧ Tidy out := by
  have hempty : Tidy s.out := by
    rw [hs]
    exact fun c hc => absurd hc List.not_mem_nil
  have htidy := handle_tidy chain hempty e.packet
  unfold Session.answered at h
  cases hhandle : handle chain s e.packet with
  | sent s₁ =>
    rw [hhandle] at h
    cases h
    exact ⟨rfl, htidy.sent s₁ hhandle⟩
  | returned s₁ =>
    rw [hhandle] at h
    exact exceptionReply_tidy (s := { s₁ with toTarget := e.stopped, lastGdbSignal := e.signal })
      (htidy.returned s₁ hhandle) h
  | stopped why =>
    rw [hhandle] at h
    cases why with
    | abort text =>
      exact exceptionReply_tidy (s := { s with lastGdbSignal := SIGABRT, out := text })
        (htidy.abort text hhandle) h
    | outside => cases h
    | lost => cases h

/-! ## The link -/

/-- What comes over the link for one packet: bytes without a `$`, frames that are abandoned or
rejected, the packet itself, and then what is read before the `+` for the reply. -/
structure Exchange where
  noise : List (BitVec 8)
  damages : List Damage
  event : Event
  refused : List (BitVec 8)

namespace Exchange

variable (x : Exchange)

def bytes : List (BitVec 8) :=
  x.noise ++ x.damages.flatMap Damage.bytes ++ sendFrame (x.event.packet ++ [0]) ++
    (x.refused ++ [chr '+'])

structure Fits : Prop where
  noise : chr '$' ∉ x.noise
  damages : ∀ d ∈ x.damages, d.Fits
  packet : Tidy x.event.packet
  length : x.event.packet.length ≤ INBUFSIZE - 1
  refused : chr '+' ∉ x.refused

/-- What the stub writes for it: a `-` for each rejected frame, the `+`, and the frame of the reply
as often as it is refused and once more. -/
def written (reply : Out) : List (BitVec 8) :=
  x.damages.flatMap Damage.answer ++ [chr '+'] ++
    (List.replicate (x.refused.length + 1) (sendFrame (reply ++ [0]))).flatten

end Exchange

/-- The bytes up to the NUL are the packet. -/
theorem packet_eq {l : Link} {payload : Input} (h0 : ∀ c ∈ payload, c ≠ 0)
    (hlen : payload.length ≤ INBUFSIZE - 1) (hptr : l.inPtr = 0) (hholds : Holds l.inBuf payload)
    (hnul : l.inBuf payload.length = 0) : l.packet = payload := by
  have hsize : INBUFSIZE = 628 := rfl
  obtain ⟨k, hk⟩ : ∃ k, INBUFSIZE = payload.length + (k + 1) := ⟨INBUFSIZE - 1 - payload.length, by omega⟩
  have hfront : (List.range payload.length).map (fun i => l.inBuf (l.inPtr + i)) = payload := by
    refine List.ext_getElem (by simp) fun i hi _ => ?_
    rw [List.getElem_map, List.getElem_range, hptr, Nat.zero_add]
    exact hholds i _ (List.getElem?_eq_getElem _)
  unfold Link.packet
  rw [hk, List.range_add, List.map_append, hfront, List.takeWhile_append_of_pos (by simpa using h0),
    List.range_succ_eq_map, List.map_cons, List.map_cons, List.takeWhile_cons_of_neg, List.append_nil]
  rw [hptr, Nat.zero_add, Nat.add_zero, hnul]
  decide

/-- **A packet behind damage** is in the buffer when the call returns. -/
theorem receive_packet {payload : Input} (hpay : Tidy payload) (hlen : payload.length ≤ INBUFSIZE - 1)
    {noise : List (BitVec 8)} (hnoise : chr '$' ∉ noise) {ds : List Damage} (hds : ∀ d ∈ ds, d.Fits)
    (l : Link) (rest : List (BitVec 8)) :
    ∃ l', ReceivePacket l (noise ++ ds.flatMap Damage.bytes ++ sendFrame (payload ++ [0]) ++ rest)
        = .returned l' rest ∧ l'.packet = payload ∧
      l'.out = l.out ++ (ds.flatMap Damage.answer ++ [chr '+']) := by
  have hdollar : chr '$' ∉ payload := fun h => (hpay _ h).1 rfl
  have hhash : chr '#' ∉ payload := fun h => (hpay _ h).2.1 rfl
  have h0 : 0 ∉ payload := fun h => (hpay _ h).2.2 rfl
  have hstart := run_noise hnoise (s := Recv.start l) rfl
  obtain ⟨s₁, hrun₁, hopen₁, hout₁⟩ := run_damages hds (s := Recv.start l) (Or.inl rfl)
  obtain ⟨s₂, hrun₂, hlabel₂, hholds₂, hout₂⟩ := run_started hdollar hhash hlen hopen₁
  obtain ⟨s₃, hrun₃, hend⟩ := run_digits hlen hlabel₂ hholds₂
    (sendDigit (checksumOf payload >>> 4)) (sendDigit (checksumOf payload &&& 0xF))
  rw [if_pos (xmitcsumOf_sendDigit _).symm] at hend
  obtain ⟨hfin, hplus, hptr, hholds, hnul⟩ := hend
  have hframe : Lib.run Recv.step (sendFrame (payload ++ [0])) s₁ = some s₃ := by
    rw [sendFrame_eq h0]
    exact Lib.run_append.mpr ⟨s₂, hrun₂, hrun₃⟩
  have hrun := Lib.run_append.mpr ⟨s₁, Lib.run_append.mpr ⟨_, hstart, hrun₁⟩, hframe⟩
  refine ⟨s₃.toLink, ?_, packet_eq (fun c hc => (hpay c hc).2.2) hlen hptr hholds hnul, ?_⟩
  · rw [ReceivePacket, receive_append hrun, receive_finished hfin]
  · rw [hplus, hout₂, hout₁, List.append_assoc]
    rfl

/-- **A reply** goes out until it is acknowledged. -/
theorem sendPacket_refused (outBuf : List (BitVec 8)) {refused : List (BitVec 8)} (h : chr '+' ∉ refused)
    (rest : List (BitVec 8)) : SendPacket outBuf (refused ++ [chr '+'] ++ rest)
      = some ((List.replicate (refused.length + 1) (sendFrame outBuf)).flatten, rest) := by
  induction refused with
  | nil =>
    rw [List.nil_append, List.singleton_append, SendPacket, if_pos rfl]
    simp
  | cons c refused ih =>
    have hc : c ≠ chr '+' := fun heq => h (heq ▸ List.mem_cons_self)
    rw [List.cons_append, List.cons_append, SendPacket, if_neg hc, ih fun hm => h (List.mem_cons_of_mem c hm),
      Option.map_some, List.length_cons, List.replicate_succ (n := refused.length + 1), List.flatten_cons]

section
variable (chain : List Entry) {x : Exchange} (hx : x.Fits) (rest : List (BitVec 8))
include hx

theorem send_next (w : Stub) :
    w.send (x.refused ++ [chr '+'] ++ rest) = .next ⟨{ w.link with out := w.link.out ++
      (List.replicate (x.refused.length + 1) (sendFrame (w.session.out ++ [0]))).flatten },
      { w.session with out := [] }⟩ rest := by
  unfold Stub.send
  rw [sendPacket_refused _ hx.refused rest]

/-- A stop reply. -/
theorem exception_next (l : Link) (s : Session) :
    (∀ s' out, s.exceptionReply = .ok (s', out) →
      Stub.exception ⟨l, s⟩ (x.refused ++ [chr '+'] ++ rest) = .next ⟨{ l with out := l.out ++
        (List.replicate (x.refused.length + 1) (sendFrame (out ++ [0]))).flatten }, s'⟩ rest) ∧
    ∀ why, s.exceptionReply = .error why →
      Stub.exception ⟨l, s⟩ (x.refused ++ [chr '+'] ++ rest) = .stopped why := by
  unfold Session.exceptionReply Stub.exception
  dsimp only
  cases hexc : ProcessGdbException s with
  | ok text =>
    refine ⟨fun s' out heq => ?_, fun why heq => (by cases heq)⟩
    cases heq
    exact send_next hx rest ⟨l, { s with out := text }⟩
  | error e =>
    refine ⟨fun s' out heq => (by cases heq), fun why heq => ?_⟩
    cases heq
    rfl

/-- **One exchange** is one packet of the session. -/
theorem turn_answered (w : Stub) :
    (∀ s' out, w.session.answered chain x.event = .ok (s', out) →
      ∃ l', w.turn chain x.event.stopped x.event.signal (x.bytes ++ rest) = .next ⟨l', s'⟩ rest ∧
        l'.out = w.link.out ++ x.written out) ∧
    ∀ why, w.session.answered chain x.event = .error why →
      w.turn chain x.event.stopped x.event.signal (x.bytes ++ rest) = .stopped why := by
  obtain ⟨l, hreceive, hpacket, hout⟩ := receive_packet hx.packet hx.length hx.noise hx.damages w.link
    (x.refused ++ [chr '+'] ++ rest)
  have hreceive' : ReceivePacket w.link (x.bytes ++ rest) = .returned l (x.refused ++ [chr '+'] ++ rest) := by
    rw [← hreceive, Exchange.bytes]
    simp only [List.append_assoc]
  have hwritten (out : Out) : l.out ++ (List.replicate (x.refused.length + 1) (sendFrame (out ++ [0]))).flatten
      = w.link.out ++ x.written out := by
    rw [hout, Exchange.written, List.append_assoc]
  unfold Stub.turn Session.answered
  rw [hreceive']
  dsimp only
  rw [hpacket]
  cases handle chain w.session x.event.packet with
  | sent s =>
    refine ⟨fun s' out heq => ?_, fun why heq => (by cases heq)⟩
    cases heq
    exact ⟨_, send_next hx rest ⟨l, s⟩, hwritten s.out⟩
  | returned s =>
    obtain ⟨hok, herror⟩ := exception_next hx rest l
      { s with toTarget := x.event.stopped, lastGdbSignal := x.event.signal }
    exact ⟨fun s' out heq => ⟨_, hok s' out heq, hwritten out⟩, herror⟩
  | stopped why =>
    cases why with
    | abort text =>
      obtain ⟨hok, herror⟩ := exception_next hx rest l { w.session with lastGdbSignal := SIGABRT, out := text }
      exact ⟨fun s' out heq => ⟨_, hok s' out heq, hwritten out⟩, herror⟩
    | outside =>
      refine ⟨fun s' out heq => (by cases heq), fun why heq => ?_⟩
      cases heq
      rfl
    | lost =>
      refine ⟨fun s' out heq => (by cases heq), fun why heq => ?_⟩
      cases heq
      rfl

end

theorem answers_cons_error {chain : List Entry} {s : Session} {e : Event} {why : Halt}
    (h : s.answered chain e = .error why) (es : List Event) : s.answers chain (e :: es) = .error why := by
  rw [Session.answers, h]
  rfl

theorem answers_cons_ok {chain : List Entry} {s s₁ : Session} {e : Event} {reply : Out}
    (h : s.answered chain e = .ok (s₁, reply)) (es : List Event) :
    s.answers chain (e :: es) = (s₁.answers chain es).map fun r => (r.1, reply :: r.2) := by
  rw [Session.answers, h]
  show (s₁.answers chain es >>= fun r => .ok (r.1, reply :: r.2)) = _
  cases s₁.answers chain es <;> rfl

/-- The packets with their replies are the session without. -/
theorem answers_session (chain : List Entry) (s : Session) (es : List Event) :
    (Session.answers chain s es).map Prod.fst = es.foldlM (Session.step chain) s := by
  induction es generalizing s with
  | nil => rfl
  | cons e es ih =>
    have hstep := answered_step chain s e
    rw [List.foldlM_cons, ← hstep]
    cases hanswer : s.answered chain e with
    | error why =>
      rw [answers_cons_error hanswer]
      rfl
    | ok r =>
      rw [answers_cons_ok hanswer]
      show _ = es.foldlM (Session.step chain) r.1
      rw [← ih r.1]
      cases r.1.answers chain es <;> rfl

/-- **A session on the link.** However often packets are damaged and replies refused, the stub on
the bytes makes the session that the packets alone make, and stops where that stops. It reads
what was sent for these packets and no more, and answers each by its reply, in a frame. -/
theorem served_session (chain : List Entry) {s : Session} (hs : s.out = []) {xs : List Exchange}
    (hxs : ∀ x ∈ xs, x.Fits) (l : Link) (rest : List (BitVec 8)) :
    (∀ s' replies, s.answers chain (xs.map (·.event)) = .ok (s', replies) →
      (∀ reply ∈ replies, Tidy reply) ∧ replies.length = xs.length ∧
      ∃ l', Stub.turns chain (xs.map fun x => (x.event.stopped, x.event.signal)) ⟨l, s⟩
          (xs.flatMap Exchange.bytes ++ rest) = .next ⟨l', s'⟩ rest ∧
        l'.out = l.out ++ (List.zipWith Exchange.written xs replies).flatten) ∧
    ∀ why, s.answers chain (xs.map (·.event)) = .error why →
      Stub.turns chain (xs.map fun x => (x.event.stopped, x.event.signal)) ⟨l, s⟩
        (xs.flatMap Exchange.bytes ++ rest) = .stopped why := by
  induction xs generalizing s l with
  | nil =>
    refine ⟨fun s' replies heq => ?_, fun why heq => (by cases heq)⟩
    cases heq
    exact ⟨fun _ h => absurd h List.not_mem_nil, rfl, l, rfl, (List.append_nil _).symm⟩
  | cons x xs ih =>
    obtain ⟨hok, herror⟩ := turn_answered chain (hxs x List.mem_cons_self) (xs.flatMap Exchange.bytes ++ rest)
      ⟨l, s⟩
    rw [List.map_cons, List.map_cons, List.flatMap_cons, List.append_assoc, Stub.turns]
    cases hanswer : s.answered chain x.event with
    | error why =>
      rw [herror why hanswer, answers_cons_error hanswer]
      refine ⟨fun s' replies heq => (by cases heq), fun why' heq => ?_⟩
      cases heq
      rfl
    | ok r =>
      obtain ⟨s₁, reply⟩ := r
      obtain ⟨hempty, htidy⟩ := answered_tidy hs hanswer
      obtain ⟨l₁, hturn, hwritten⟩ := hok s₁ reply hanswer
      obtain ⟨hrest, hstop⟩ := ih hempty (fun y hy => hxs y (List.mem_cons_of_mem x hy)) l₁
      rw [hturn, answers_cons_ok hanswer]
      refine ⟨fun s' replies heq => ?_, fun why heq => ?_⟩
      · cases hanswers : s₁.answers chain (xs.map (·.event)) with
        | error why =>
          rw [hanswers] at heq
          cases heq
        | ok q =>
          rw [hanswers] at heq
          cases heq
          obtain ⟨htidies, hlen, l', hturns, hout⟩ := hrest q.1 q.2 hanswers
          refine ⟨List.forall_mem_cons.mpr ⟨htidy, htidies⟩, congrArg (· + 1) hlen, l', hturns, ?_⟩
          rw [hout, hwritten, List.append_assoc]
          rfl
      · cases hanswers : s₁.answers chain (xs.map (·.event)) with
        | error why' =>
          rw [hanswers] at heq
          cases heq
          exact hstop why hanswers
        | ok q =>
          rw [hanswers] at heq
          cases heq

/-- `?` behind a frame with the digits of another sum; its reply is refused once. -/
def refusedQuery : Exchange where
  noise := [chr '+']
  damages := [.rejected [chr 'g'] (chr '0') (chr '0') []]
  event := ⟨packet "?", openTarget, 5⟩
  refused := [chr '-']

/-- The session of this one exchange: a `-`, a `+`, and the reply twice. -/
theorem served_session_query : ∃ l', Stub.turns listedChain [(openTarget, 5)] ⟨freshLink, openSession⟩
    refusedQuery.bytes = .next ⟨l', openSession⟩ [] ∧
    l'.out = packet "-+$S05#b8$S05#b8" := by
  have hfits : ∀ x ∈ [refusedQuery], x.Fits := by
    intro x hx
    obtain rfl := List.mem_singleton.mp hx
    refine ⟨by decide, fun d hd => ?_, by decide, by decide, by decide⟩
    obtain rfl := List.mem_singleton.mp hd
    exact ⟨by decide, by decide, by decide, ⟨0, by decide, 0, by decide, by decide⟩, by decide⟩
  have hanswers : openSession.answers listedChain ([refusedQuery].map (·.event))
      = .ok (openSession, [packet "S05"]) := rfl
  obtain ⟨-, -, l', hturns, hout⟩ := (served_session listedChain rfl hfits freshLink []).1 _ _ hanswers
  rw [List.flatMap_singleton, List.append_nil] at hturns
  exact ⟨l', hturns, hout.trans (by decide)⟩

end Cavatools.Uspike.Gdblink
