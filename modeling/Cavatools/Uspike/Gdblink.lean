import Cavatools.Lib.Run

/-!
# The packets of the gdb link

`ReceivePacket` is a loop over single bytes with two restart points and three
ways out. Every call of `getDebugChar` is a step here, and what the C keeps in
locals and in the label it is at is the `Label` of the receiver between two
reads. A store outside `inBuf` is a step without a value.

The invariant says what the receiver holds between two bytes (`Label.Inv`):
the frame it is in began at a `$`, what is in the buffer is what came behind
it (`Holds`), the pointer is behind that and inside the buffer, and the
checksum is that of these bytes (`Stored`). `step_spec` is the one lemma about
the code. On every byte the receiver goes on inside its buffer, or it returns
from a full buffer, or it returns from a frame whose digits make the checksum.

From it follow, for every stream, that no byte is stored outside the buffer
(`receive_inside`), and what a call that returns has read (`returned_cases`).
A call can return without having checked anything in two ways: by filling the
buffer up, which skips the checksum, and by digits that are none, which are
folded into a sum as -1 and may make the right one. `Sound` is the condition
on a byte that it is neither. `receive_verified_iff` shows that the packet
handed on was framed, checked and answered exactly if all bytes of the call
were sound.

The other half is the round trip. `SendPacket` puts a payload between `$` and
`#` with the digits of its sum (`sendFrame_eq`), and the receiver gets it back
behind any noise and any damaged frames (`Damage`), having answered each of
these as it should (`receive_sent`).
-/

namespace Cavatools.Uspike.Gdblink

/-- A `char` of the source. -/
def chr (c : Char) : BitVec 8 := BitVec.ofNat 8 c.toNat

def NUMREGS : Nat := 32
def INBUFSIZE : Nat := (NUMREGS + 1) * 16 + 100
def OUTBUFSIZE : Nat := (NUMREGS + 1) * 16 + 100

def val2hexch (val : Int) : Int :=
  let val := val % 16
  if 0 ≤ val ∧ val ≤ 9 then val + 48 else val - 10 + 97

def hexch2val (ch : Int) : Int :=
  if 48 ≤ ch ∧ ch ≤ 57 then ch - 48
  else if 65 ≤ ch ∧ ch ≤ 70 then ch - 65 + 10
  else if 97 ≤ ch ∧ ch ≤ 102 then ch - 97 + 10
  else -1

/-- The receiver's static buffer and pointer, and the bytes written to the link. -/
structure Link where
  inBuf : Nat → BitVec 8
  inPtr : Nat
  out : List (BitVec 8)

def Link.put (l : Link) (p : Nat) (c : BitVec 8) : Option Link :=
  if p < INBUFSIZE then some { l with inBuf := Function.update l.inBuf p c } else none

/-! ## ReceivePacket -/

/-- Which `getDebugChar` comes next: in the loop at `again`, in the loop behind `retry`,
or for one of the two checksum digits. -/
inductive Label
  | again
  | reading (p : Nat) (checksum : BitVec 8)
  | first (p : Nat) (checksum : BitVec 8)
  | second (p : Nat) (checksum xmitcsum ch : BitVec 8)
  | finished
  deriving DecidableEq

structure Recv extends Link where
  label : Label

/-- From the label `finish` on. -/
def Recv.finish (s : Recv) (p : Nat) : Option Recv :=
  (s.put p 0).map fun l => { l with inPtr := 0, label := .finished }

/-- One byte, and what the code does until it reads the next. -/
def Recv.step (s : Recv) (ch : BitVec 8) : Option Recv :=
  match s.label with
  | .again => some { s with label := if ch = chr '$' then .reading 0 0 else .again }
  | .reading p checksum =>
    if ch = chr '#' then (s.put p 0).map fun l => { l with label := .first p checksum }
    else if INBUFSIZE - 1 ≤ p then s.finish p
    else if ch = chr '$' then some { s with label := .reading 0 0 }
    else (s.put p ch).map fun l => { l with label := .reading (p + 1) (checksum + ch) }
  | .first p checksum =>
    some { s with label := .second p checksum (BitVec.ofInt 8 (hexch2val ch.toInt * 16)) ch }
  | .second p checksum xmitcsum _ =>
    let xmitcsum := xmitcsum ||| BitVec.ofInt 8 (hexch2val ch.toInt)
    if checksum ≠ xmitcsum then some { s with out := s.out ++ [chr '-'], label := .again }
    else { s with out := s.out ++ [chr '+'] }.finish p
  | .finished => none

/-- A call on a stream: it returns with some bytes unread, waits for more, or stores
outside the buffer. -/
inductive Received
  | returned (l : Link) (rest : List (BitVec 8))
  | waiting (s : Recv)
  | fault

def receive : List (BitVec 8) → Recv → Received
  | [], s => if s.label = .finished then .returned s.toLink [] else .waiting s
  | ch :: input, s =>
    if s.label = .finished then .returned s.toLink (ch :: input)
    else match s.step ch with
      | none => .fault
      | some s => receive input s

def Recv.start (l : Link) : Recv := { l with label := .again }

def ReceivePacket (l : Link) (input : List (BitVec 8)) : Received := receive input (Recv.start l)

/-! ## SendPacket -/

/-- `while (ch = *p++)`: the bytes it sends and the checksum. -/
def sendString : List (BitVec 8) → BitVec 8 → List (BitVec 8) × BitVec 8
  | [], checksum => ([], checksum)
  | ch :: p, checksum =>
    if ch = 0 then ([], checksum)
    else ((ch :: (sendString p (checksum + ch)).1), (sendString p (checksum + ch)).2)

def sendDigit (val : BitVec 8) : BitVec 8 := BitVec.ofInt 8 (val2hexch val.toNat)

/-- The body of the `do` loop, up to the reply. -/
def sendFrame (outBuf : List (BitVec 8)) : List (BitVec 8) :=
  chr '$' :: (sendString outBuf 0).1 ++
    [chr '#', sendDigit ((sendString outBuf 0).2 >>> 4), sendDigit ((sendString outBuf 0).2 &&& 0xF)]

/-- What it writes on a list of replies, and the replies it has not read; it waits when
they end before a `+`. -/
def SendPacket (outBuf : List (BitVec 8)) :
    List (BitVec 8) → Option (List (BitVec 8) × List (BitVec 8))
  | [] => none
  | reply :: replies =>
    if reply = chr '+' then some (sendFrame outBuf, replies)
    else (SendPacket outBuf replies).map fun r => (sendFrame outBuf ++ r.1, r.2)

/-! ## Digits and sums -/

/-- The value of a hexadecimal digit. -/
def hexDigit (c : BitVec 8) : Option Nat :=
  if chr '0' ≤ c ∧ c ≤ chr '9' then some (c.toNat - 48)
  else if chr 'A' ≤ c ∧ c ≤ chr 'F' then some (c.toNat - 55)
  else if chr 'a' ≤ c ∧ c ≤ chr 'f' then some (c.toNat - 87)
  else none

/-- The sum of the bytes of a payload. -/
def byteSum (payload : List (BitVec 8)) : Nat := (payload.map BitVec.toNat).sum

def checksumOf (payload : List (BitVec 8)) : BitVec 8 := BitVec.ofNat 8 (byteSum payload)

/-- The byte that the receiver makes of two digits. -/
def xmitcsumOf (d₁ d₂ : BitVec 8) : BitVec 8 :=
  BitVec.ofInt 8 (hexch2val d₁.toInt * 16) ||| BitVec.ofInt 8 (hexch2val d₂.toInt)

theorem hexDigit_spec (c : BitVec 8) :
    ∀ v ∈ hexDigit c, v < 16 ∧ BitVec.ofInt 8 (hexch2val c.toInt * 16) = BitVec.ofNat 8 (16 * v) ∧
      BitVec.ofInt 8 (hexch2val c.toInt) = BitVec.ofNat 8 v := by
  revert c
  decide +kernel

/-- Two digits that are digits. -/
theorem xmitcsumOf_eq {d₁ d₂ : BitVec 8} {v₁ v₂ : Nat} (h₁ : hexDigit d₁ = some v₁)
    (h₂ : hexDigit d₂ = some v₂) : xmitcsumOf d₁ d₂ = BitVec.ofNat 8 (16 * v₁ + v₂) ∧
      16 * v₁ + v₂ < 256 := by
  obtain ⟨hv₁, hhigh, -⟩ := hexDigit_spec d₁ v₁ h₁
  obtain ⟨hv₂, -, hlow⟩ := hexDigit_spec d₂ v₂ h₂
  have hor : ∀ a < 16, ∀ b < 16, BitVec.ofNat 8 (16 * a) ||| BitVec.ofNat 8 b
      = BitVec.ofNat 8 (16 * a + b) := by decide
  refine ⟨?_, by omega⟩
  rw [xmitcsumOf, hhigh, hlow, hor v₁ hv₁ v₂ hv₂]

/-- The checksum agrees with two digits exactly when the sum does modulo 256. -/
theorem checksumOf_eq_iff {payload : List (BitVec 8)} {d₁ d₂ : BitVec 8} {v₁ v₂ : Nat}
    (h₁ : hexDigit d₁ = some v₁) (h₂ : hexDigit d₂ = some v₂) :
    checksumOf payload = xmitcsumOf d₁ d₂ ↔ 16 * v₁ + v₂ = byteSum payload % 256 := by
  obtain ⟨heq, hlt⟩ := xmitcsumOf_eq h₁ h₂
  rw [heq, checksumOf, ← BitVec.toNat_inj, BitVec.toNat_ofNat, BitVec.toNat_ofNat]
  omega

@[simp] theorem checksumOf_nil : checksumOf [] = 0 := rfl

theorem checksumOf_concat (payload : List (BitVec 8)) (ch : BitVec 8) :
    checksumOf (payload ++ [ch]) = checksumOf payload + ch := by
  apply BitVec.eq_of_toNat_eq
  simp [checksumOf, byteSum]

/-- What SendPacket sends for a checksum is what ReceivePacket reads. -/
theorem xmitcsumOf_sendDigit (c : BitVec 8) :
    xmitcsumOf (sendDigit (c >>> 4)) (sendDigit (c &&& 0xF)) = c := by
  revert c
  decide +kernel

/-! ## What the receiver holds between two bytes -/

/-- The bytes from the start of a buffer. -/
def Holds (buf : Nat → BitVec 8) (payload : List (BitVec 8)) : Prop :=
  ∀ k c, payload[k]? = some c → buf k = c

/-- One more byte, stored behind the payload. -/
theorem holds_concat {buf : Nat → BitVec 8} {payload : List (BitVec 8)} (h : Holds buf payload)
    (ch : BitVec 8) : Holds (Function.update buf payload.length ch) (payload ++ [ch]) := by
  intro k c hk
  rcases Nat.lt_trichotomy k payload.length with hlt | heq | hgt
  · rw [List.getElem?_append_left hlt] at hk
    rw [Function.update_of_ne (by omega)]
    exact h k c hk
  · rw [heq, List.getElem?_concat_length] at hk
    rw [heq, Function.update_self]
    exact Option.some.inj hk
  · rw [List.getElem?_eq_none (by simp; omega)] at hk
    cases hk

/-- Storing behind the payload leaves it. -/
theorem holds_update {buf : Nat → BitVec 8} {payload : List (BitVec 8)} (h : Holds buf payload)
    {p : Nat} (hp : payload.length ≤ p) (c : BitVec 8) : Holds (Function.update buf p c) payload := by
  intro k d hk
  have hlt := (List.getElem?_eq_some_iff.mp hk).1
  rw [Function.update_of_ne (by omega)]
  exact h k d hk

/-- A payload that fits, with its pointer and its checksum. -/
structure Stored (buf : Nat → BitVec 8) (payload : List (BitVec 8)) (p : Nat) (checksum : BitVec 8) :
    Prop where
  dollar : chr '$' ∉ payload
  hash : chr '#' ∉ payload
  length : payload.length = p
  fits : p < INBUFSIZE
  checksum : checksum = checksumOf payload
  holds : Holds buf payload

/-- The receiver, after some bytes of its call: the frame it is in began at a `$`. -/
def Label.Inv (buf : Nat → BitVec 8) (consumed : List (BitVec 8)) : Label → Prop
  | .again => True
  | .reading p checksum => ∃ pre payload, consumed = pre ++ chr '$' :: payload ∧
      Stored buf payload p checksum
  | .first p checksum => ∃ pre payload, consumed = pre ++ chr '$' :: (payload ++ [chr '#']) ∧
      Stored buf payload p checksum
  | .second p checksum xmitcsum ch => ∃ pre payload,
      consumed = pre ++ chr '$' :: (payload ++ [chr '#', ch]) ∧ Stored buf payload p checksum ∧
      xmitcsum = BitVec.ofInt 8 (hexch2val ch.toInt * 16)
  | .finished => False

/-- A call that returns with `payload` in the buffer, behind a frame whose digits make
`xmitcsum`. -/
structure Accepts (consumed : List (BitVec 8)) (s s' : Recv) (payload : List (BitVec 8))
    (d₁ d₂ : BitVec 8) : Prop where
  consumed : ∃ pre, consumed = pre ++ chr '$' :: (payload ++ [chr '#', d₁, d₂])
  dollar : chr '$' ∉ payload
  hash : chr '#' ∉ payload
  holds : Holds s'.inBuf payload
  terminated : s'.inBuf payload.length = 0
  inPtr : s'.inPtr = 0
  checksum : checksumOf payload = xmitcsumOf d₁ d₂
  out : s'.out = s.out ++ [chr '+']

theorem put_some {l : Link} {p : Nat} (hp : p < INBUFSIZE) (c : BitVec 8) :
    l.put p c = some { l with inBuf := Function.update l.inBuf p c } := if_pos hp

theorem finish_some {s : Recv} {p : Nat} (hp : p < INBUFSIZE) :
    s.finish p = some { inBuf := Function.update s.inBuf p 0, inPtr := 0, out := s.out,
                        label := .finished } := by
  rw [Recv.finish, put_some hp]
  rfl

/-- A byte that does not end a call without a checked frame: nothing but `#` on a full
buffer, and no bad digit whose garbled value is the checksum. -/
def Sound (s : Recv) (ch : BitVec 8) : Prop :=
  match s.label with
  | .reading p _ => p = INBUFSIZE - 1 → ch = chr '#'
  | .second _ checksum _ d => ((hexDigit d).isSome ∧ (hexDigit ch).isSome) ∨ xmitcsumOf d ch ≠ checksum
  | _ => True

instance (s : Recv) (ch : BitVec 8) : Decidable (Sound s ch) :=
  match h : s.label with
  | .reading p _ => decidable_of_iff (p = INBUFSIZE - 1 → ch = chr '#') (by simp only [Sound, h])
  | .second _ checksum _ d =>
    decidable_of_iff (((hexDigit d).isSome ∧ (hexDigit ch).isSome) ∨ xmitcsumOf d ch ≠ checksum)
      (by simp only [Sound, h])
  | .again | .first _ _ | .finished => isTrue (by simp only [Sound, h])

/-- **One byte.** The receiver goes on inside its buffer, or it returns from a full buffer,
or it returns from a frame whose digits match. -/
theorem step_spec {consumed : List (BitVec 8)} {s : Recv} (hs : s.label.Inv s.inBuf consumed)
    (ch : BitVec 8) :
    (∃ s', s.step ch = some s' ∧ s'.label ≠ .finished ∧ s'.label.Inv s'.inBuf (consumed ++ [ch]) ∧
      Sound s ch ∧ (s'.out = s.out ∨ s'.out = s.out ++ [chr '-'])) ∨
    (∃ s' checksum, s.step ch = some s' ∧ s'.label = .finished ∧
      s.label = .reading (INBUFSIZE - 1) checksum ∧ ch ≠ chr '#' ∧ s'.out = s.out) ∨
    ∃ s' payload d p checksum, s.step ch = some s' ∧ s'.label = .finished ∧
      s.label = .second p checksum (BitVec.ofInt 8 (hexch2val d.toInt * 16)) d ∧
      checksum = checksumOf payload ∧ Accepts (consumed ++ [ch]) s s' payload d ch := by
  obtain ⟨⟨inBuf, inPtr, out⟩, label⟩ := s
  cases label with
  | again =>
    by_cases hd : ch = chr '$'
    · refine Or.inl ⟨_, rfl, ?_, ?_, trivial, Or.inl rfl⟩
      · rw [if_pos hd]
        intro h
        cases h
      · rw [if_pos hd]
        exact ⟨consumed, [], by rw [hd], by simp, by simp, rfl, by decide, rfl, fun k c hk => by cases hk⟩
    · refine Or.inl ⟨_, rfl, ?_, ?_, trivial, Or.inl rfl⟩
      · rw [if_neg hd]
        intro h
        cases h
      · rw [if_neg hd]
        trivial
  | reading p checksum =>
    obtain ⟨pre, payload, hcons, hst⟩ := hs
    have hfits := hst.fits
    unfold Recv.step
    dsimp only
    by_cases hhash : ch = chr '#'
    · -- the payload is complete; its end is marked behind it
      rw [if_pos hhash, put_some hst.fits]
      refine Or.inl ⟨_, rfl, fun h => (by cases h), ⟨pre, payload, by simp [hcons, hhash], ?_⟩,
        fun _ => hhash, Or.inl rfl⟩
      exact { hst with holds := holds_update hst.holds hst.length.le 0 }
    · rw [if_neg hhash]
      by_cases hfull : INBUFSIZE - 1 ≤ p
      · -- the buffer is full: the call returns without a checksum
        rw [if_pos hfull, finish_some hst.fits]
        obtain rfl : p = INBUFSIZE - 1 := by omega
        exact Or.inr (Or.inl ⟨_, checksum, rfl, rfl, rfl, hhash, rfl⟩)
      · rw [if_neg hfull]
        by_cases hd : ch = chr '$'
        · -- A new frame begins inside this one.
          rw [if_pos hd]
          refine Or.inl ⟨_, rfl, fun h => (by cases h), ⟨consumed, [], by rw [hd], ?_⟩,
            fun h => absurd h.ge hfull, Or.inl rfl⟩
          exact ⟨by simp, by simp, rfl, by decide, rfl, fun k c hk => by cases hk⟩
        · rw [if_neg hd, put_some hst.fits]
          refine Or.inl ⟨_, rfl, fun h => (by cases h), ⟨pre, payload ++ [ch], by simp [hcons], ?_⟩,
            fun h => absurd h.ge hfull, Or.inl rfl⟩
          obtain rfl := hst.length
          exact
            { dollar := by simp [hst.dollar, Ne.symm hd]
              hash := by simp [hst.hash, Ne.symm hhash]
              length := by simp
              fits := by omega
              checksum := by rw [hst.checksum, checksumOf_concat]
              holds := holds_concat hst.holds ch }
  | first p checksum =>
    obtain ⟨pre, payload, hcons, hst⟩ := hs
    exact Or.inl ⟨_, rfl, fun h => (by cases h), ⟨pre, payload, by simp [hcons], hst, rfl⟩, trivial,
      Or.inl rfl⟩
  | second p checksum xmitcsum d =>
    obtain ⟨pre, payload, hcons, hst, rfl⟩ := hs
    unfold Recv.step
    dsimp only
    by_cases hbad : checksum ≠ xmitcsumOf d ch
    · -- the digits disagree: `-`, and back to `again`
      refine Or.inl ⟨_, if_pos hbad, fun h => (by cases h), trivial, Or.inr (Ne.symm hbad), Or.inr rfl⟩
    · -- they agree: `+`, and the call returns
      have hgood := not_not.mp hbad
      have hstep := finish_some (s := ⟨⟨inBuf, inPtr, out ++ [chr '+']⟩, .second p checksum
        (BitVec.ofInt 8 (hexch2val d.toInt * 16)) d⟩) hst.fits
      refine Or.inr (Or.inr ⟨_, payload, d, p, checksum, (if_neg hbad).trans hstep, rfl, rfl,
        hst.checksum, ?_⟩)
      exact
        { consumed := ⟨pre, by simp [hcons]⟩
          dollar := hst.dollar
          hash := hst.hash
          holds := holds_update hst.holds hst.length.le 0
          terminated := by rw [hst.length]; exact Function.update_self ..
          inPtr := rfl
          checksum := hst.checksum.symm.trans hgood
          out := rfl }
  | finished => exact absurd hs id

/-! ## A call -/

/-- A call reads the bytes of a run and returns where that is finished. -/
theorem receive_returned {input rest : List (BitVec 8)} {s : Recv} {l : Link}
    (h : receive input s = .returned l rest) :
    ∃ consumed s', input = consumed ++ rest ∧ Lib.run Recv.step consumed s = some s' ∧
      s'.label = .finished ∧ s'.toLink = l := by
  induction input generalizing s with
  | nil =>
    unfold receive at h
    split at h
    case isTrue hfin =>
      obtain ⟨rfl, rfl⟩ := Received.returned.inj h
      exact ⟨[], s, rfl, rfl, hfin, rfl⟩
    case isFalse => cases h
  | cons ch input ih =>
    unfold receive at h
    split at h
    case isTrue hfin =>
      obtain ⟨rfl, rfl⟩ := Received.returned.inj h
      exact ⟨[], s, rfl, rfl, hfin, rfl⟩
    case isFalse =>
      split at h
      case h_1 => cases h
      case h_2 s₁ hstep =>
        obtain ⟨consumed, s', rfl, hrun, hfin, hl⟩ := ih h
        exact ⟨ch :: consumed, s', rfl, Option.bind_eq_some_iff.mpr ⟨s₁, hstep, hrun⟩, hfin, hl⟩

theorem not_finished_of_step {s s' : Recv} {ch : BitVec 8} (h : s.step ch = some s') :
    s.label ≠ .finished := by
  intro hfin
  unfold Recv.step at h
  rw [hfin] at h
  cases h

/-- A call goes through a run. -/
theorem receive_append {bytes : List (BitVec 8)} {s s' : Recv}
    (hrun : Lib.run Recv.step bytes s = some s') (rest : List (BitVec 8)) :
    receive (bytes ++ rest) s = receive rest s' := by
  induction bytes generalizing s with
  | nil =>
    obtain rfl := Option.some.inj hrun
    rfl
  | cons ch bytes ih =>
    obtain ⟨t, ht, hrest⟩ := Lib.run_cons hrun
    rw [List.cons_append, receive, if_neg (not_finished_of_step ht), ht]
    exact ih hrest

theorem receive_finished {s : Recv} (h : s.label = .finished) (rest : List (BitVec 8)) :
    receive rest s = .returned s.toLink rest := by
  cases rest <;> exact if_pos h

/-- **No byte is stored outside the buffer.** -/
theorem receive_inside {consumed : List (BitVec 8)} {s : Recv} (hs : s.label.Inv s.inBuf consumed)
    (input : List (BitVec 8)) : receive input s ≠ .fault := by
  induction input generalizing consumed s with
  | nil =>
    unfold receive
    split <;> exact fun h => by cases h
  | cons ch input ih =>
    unfold receive
    split
    case isTrue => exact fun h => by cases h
    case isFalse =>
      rcases step_spec hs ch with ⟨s', hstep, -, hs', -⟩ | ⟨s', _, hstep, hfin, -⟩ |
        ⟨s', _, _, _, _, hstep, hfin, -⟩
      · rw [hstep]
        exact ih hs'
      · rw [hstep]
        dsimp only
        rw [receive_finished hfin]
        intro h
        cases h
      · rw [hstep]
        dsimp only
        rw [receive_finished hfin]
        intro h
        cases h

/-- A run that has not returned: the invariant, one `-` for each frame it rejected, and
no unsound byte. -/
theorem run_open {l : Link} {bytes : List (BitVec 8)} {s : Recv}
    (hrun : Lib.run Recv.step bytes (Recv.start l) = some s) (hopen : s.label ≠ .finished) :
    s.label.Inv s.inBuf bytes ∧ (∃ n, s.out = l.out ++ List.replicate n (chr '-')) ∧
      Lib.Along Recv.step Sound bytes (Recv.start l) := by
  induction bytes using List.reverseRecOn generalizing s with
  | nil =>
    obtain rfl := Option.some.inj hrun
    exact ⟨trivial, ⟨0, (List.append_nil _).symm⟩, trivial⟩
  | append_singleton bytes ch ih =>
    obtain ⟨t, ht, hlast⟩ := Lib.run_append.mp hrun
    rw [Lib.run_singleton] at hlast
    obtain ⟨hinv, ⟨n, hn⟩, hsound⟩ := ih ht (not_finished_of_step hlast)
    rcases step_spec hinv ch with ⟨s', hstep, -, hs', hgood, hout⟩ | ⟨s', _, hstep, hfin, -⟩ |
      ⟨s', _, _, _, _, hstep, hfin, -⟩
    · obtain rfl := Option.some.inj (hstep.symm.trans hlast)
      refine ⟨hs', ?_, (Lib.along_concat ht).mpr ⟨hsound, hgood⟩⟩
      rcases hout with hout | hout
      · exact ⟨n, hout.trans hn⟩
      · refine ⟨n + 1, ?_⟩
        rw [hout, hn, List.replicate_succ', List.append_assoc]
    · obtain rfl := Option.some.inj (hstep.symm.trans hlast)
      exact absurd hfin hopen
    · obtain rfl := Option.some.inj (hstep.symm.trans hlast)
      exact absurd hfin hopen

/-- The end of a call: its last byte fell on a full buffer, or it accepted a frame. -/
theorem returned_cases {l l' : Link} {input rest : List (BitVec 8)}
    (h : ReceivePacket l input = .returned l' rest) :
    ∃ bytes ch s s' n, input = (bytes ++ [ch]) ++ rest ∧
      Lib.run Recv.step bytes (Recv.start l) = some s ∧
      Lib.Along Recv.step Sound bytes (Recv.start l) ∧ s.step ch = some s' ∧ s'.toLink = l' ∧
      s.out = l.out ++ List.replicate n (chr '-') ∧
      ((∃ checksum, s.label = .reading (INBUFSIZE - 1) checksum ∧ ch ≠ chr '#' ∧ s'.out = s.out) ∨
        ∃ payload d p x, s.label = .second p (checksumOf payload) x d ∧
          Accepts (bytes ++ [ch]) s s' payload d ch) := by
  obtain ⟨consumed, s', rfl, hrun, hfin, rfl⟩ := receive_returned h
  rcases List.eq_nil_or_concat' consumed with rfl | ⟨bytes, ch, rfl⟩
  · obtain rfl := Option.some.inj hrun
    cases hfin
  obtain ⟨s, hs, hlast⟩ := Lib.run_append.mp hrun
  rw [Lib.run_singleton] at hlast
  obtain ⟨hinv, ⟨n, hn⟩, hsound⟩ := run_open hs (not_finished_of_step hlast)
  refine ⟨bytes, ch, s, s', n, rfl, hs, hsound, hlast, rfl, hn, ?_⟩
  rcases step_spec hinv ch with ⟨t, hstep, hopen, -⟩ | ⟨t, checksum, hstep, -, hlabel, hch, hout⟩ |
    ⟨t, payload, d, p, checksum, hstep, -, hlabel, rfl, hacc⟩
  · obtain rfl := Option.some.inj (hstep.symm.trans hlast)
    exact absurd hfin hopen
  · obtain rfl := Option.some.inj (hstep.symm.trans hlast)
    exact Or.inl ⟨checksum, hlabel, hch, hout⟩
  · obtain rfl := Option.some.inj (hstep.symm.trans hlast)
    exact Or.inr ⟨payload, d, p, _, hlabel, hacc⟩

/-! ## What a returned packet was -/

/-- The payload in the buffer stood in the stream before `#` and the two digits of its sum
modulo 256, the bytes behind them are unread, and one `+` was written for it. -/
def Verified (l l' : Link) (input rest : List (BitVec 8)) : Prop :=
  ∃ pre payload d₁ d₂ v₁ v₂ n,
    input = pre ++ chr '$' :: (payload ++ chr '#' :: d₁ :: d₂ :: rest) ∧
    chr '$' ∉ payload ∧ chr '#' ∉ payload ∧ Holds l'.inBuf payload ∧ l'.inBuf payload.length = 0 ∧
    l'.inPtr = 0 ∧ hexDigit d₁ = some v₁ ∧ hexDigit d₂ = some v₂ ∧
    16 * v₁ + v₂ = byteSum payload % 256 ∧ l'.out = l.out ++ List.replicate n (chr '-') ++ [chr '+']

/-- **Which returns are verified.** Whenever ReceivePacket returns, the packet it hands on
was framed, checked and answered exactly when every byte of the call was sound. -/
theorem receive_verified_iff {l l' : Link} {input rest : List (BitVec 8)}
    (h : ReceivePacket l input = .returned l' rest) :
    Verified l l' input rest ↔
      ∀ consumed, input = consumed ++ rest → Lib.Along Recv.step Sound consumed (Recv.start l) := by
  obtain ⟨bytes, ch, s, s', n, rfl, hrun, hsound, hstep, rfl, hn, hend⟩ := returned_cases h
  have hlast : (∀ consumed, (bytes ++ [ch]) ++ rest = consumed ++ rest →
      Lib.Along Recv.step Sound consumed (Recv.start l)) ↔ Sound s ch := by
    constructor
    · intro hall
      exact ((Lib.along_concat hrun).mp (hall _ rfl)).2
    · intro hch consumed hconsumed
      rw [← List.append_cancel_right hconsumed]
      exact (Lib.along_concat hrun).mpr ⟨hsound, hch⟩
  rw [hlast]
  rcases hend with ⟨checksum, hlabel, hch, hout⟩ | ⟨payload, d, p, x, hlabel, hacc⟩
  · -- The buffer was full: nothing was written for the packet.
    have hbad : ¬Sound s ch := by
      unfold Sound
      rw [hlabel]
      intro hs
      exact hch (hs rfl)
    refine ⟨?_, fun hs => absurd hs hbad⟩
    intro hver
    obtain ⟨_, _, _, _, _, _, m, -, -, -, -, -, -, -, -, -, hplus⟩ := hver
    have hsame := hout.symm.trans hplus
    rw [hn, List.append_assoc, List.append_cancel_left_eq] at hsame
    have hmem : chr '+' ∈ List.replicate n (chr '-') := by
      rw [hsame]
      exact List.mem_append_right _ List.mem_cons_self
    exact absurd (List.eq_of_mem_replicate hmem) (by decide)
  · obtain ⟨pre, hpre⟩ := hacc.consumed
    have hiff : Sound s ch ↔ (hexDigit d).isSome ∧ (hexDigit ch).isSome := by
      unfold Sound
      rw [hlabel]
      exact ⟨fun hs => hs.resolve_right fun hne => hne hacc.checksum.symm, Or.inl⟩
    rw [hiff]
    constructor
    · intro hver
      obtain ⟨pre', payload', d₁, d₂, v₁, v₂, m, hinput, -, -, -, -, -, hv₁, hv₂, -⟩ := hver
      -- The two digits are the last two bytes that were read.
      have hsplit : (pre ++ chr '$' :: (payload ++ [chr '#'])) ++ [d, ch]
          = (pre' ++ chr '$' :: (payload' ++ [chr '#'])) ++ [d₁, d₂] := by
        refine List.append_cancel_right (show _ ++ rest = _ ++ rest from ?_)
        rw [hpre] at hinput
        simpa using hinput
      have hdigits := (List.append_inj' hsplit rfl).2
      rw [List.cons.injEq, List.cons.injEq] at hdigits
      rw [hdigits.1, hdigits.2.1, hv₁, hv₂]
      exact ⟨rfl, rfl⟩
    · intro hdigits
      obtain ⟨v₁, hv₁⟩ := Option.isSome_iff_exists.mp hdigits.1
      obtain ⟨v₂, hv₂⟩ := Option.isSome_iff_exists.mp hdigits.2
      refine ⟨pre, payload, d, ch, v₁, v₂, n, by simp [hpre], hacc.dollar, hacc.hash, hacc.holds,
        hacc.terminated, hacc.inPtr, hv₁, hv₂, (checksumOf_eq_iff hv₁ hv₂).mp hacc.checksum, ?_⟩
      rw [hacc.out, hn]

/-- The link before the first packet. -/
def freshLink : Link := { inBuf := fun _ => 0, inPtr := 0, out := [] }

/-- The packet `?`. -/
def queryFrame : List (BitVec 8) := [chr '$', chr '?', chr '#', chr '3', chr 'f']

theorem receive_verified_iff_query : ∃ l', ReceivePacket freshLink queryFrame = .returned l' [] ∧
    Verified freshLink l' queryFrame [] := by
  refine ⟨_, rfl, (receive_verified_iff rfl).mpr ?_⟩
  intro consumed hc
  rw [List.append_nil] at hc
  subst hc
  decide

/-- A frame that ends in `zz`, with a payload whose sum is 255. -/
def garbledFrame : List (BitVec 8) := [chr '$', 0xff, chr '#', chr 'z', chr 'z']

/-- It is answered by `+` and handed on. -/
theorem receive_garbled : ∃ l', ReceivePacket freshLink garbledFrame = .returned l' [] ∧
    ¬Verified freshLink l' garbledFrame [] := by
  refine ⟨_, rfl, ?_⟩
  intro hver
  obtain ⟨pre, payload, d₁, d₂, v₁, v₂, n, hinput, -, -, -, -, -, hv₁, -⟩ := hver
  have hsplit : [chr '$', 0xff, chr '#'] ++ [chr 'z', chr 'z']
      = (pre ++ chr '$' :: (payload ++ [chr '#'])) ++ [d₁, d₂] := by
    simpa [garbledFrame] using hinput
  have hdigits := (List.append_inj' hsplit rfl).2
  rw [List.cons.injEq] at hdigits
  rw [← hdigits.1] at hv₁
  exact absurd hv₁ (by rw [show hexDigit (chr 'z') = none by decide]; simp)

/-! ## A frame behind damage -/

/-- Bytes without a `$` change nothing while the receiver waits for one. -/
theorem run_noise {noise : List (BitVec 8)} (h : chr '$' ∉ noise) {s : Recv} (hs : s.label = .again) :
    Lib.run Recv.step noise s = some s := by
  -- on the bytes, none of which begins a frame
  induction noise with
  | nil => rfl
  | cons ch noise ih =>
    have hne : ch ≠ chr '$' := fun heq => h (by rw [heq]; exact List.mem_cons_self)
    have hstep : s.step ch = some s := by
      obtain ⟨l, label⟩ := s
      obtain rfl : label = .again := hs
      exact congrArg some (congrArg (Recv.mk l) (if_neg hne))
    rw [Lib.run, hstep]
    exact ih fun hm => h (List.mem_cons_of_mem ch hm)

/-- Where a `$` begins a frame. -/
def Open (s : Recv) : Prop :=
  s.label = .again ∨ ∃ p checksum, s.label = .reading p checksum ∧ p < INBUFSIZE - 1

theorem step_dollar {s : Recv} (h : Open s) :
    s.step (chr '$') = some { s with label := .reading 0 0 } := by
  unfold Recv.step
  rcases h with hs | ⟨p, checksum, hs, hp⟩
  · rw [hs]
    rfl
  · rw [hs]
    dsimp only
    rw [if_neg (by decide), if_neg (by omega), if_pos rfl]

/-- The bytes of a payload, from where a payload `front` has been stored. -/
theorem run_payload {front payload : List (BitVec 8)} (hd : chr '$' ∉ payload) (hh : chr '#' ∉ payload)
    (hlen : front.length + payload.length ≤ INBUFSIZE - 1) {s : Recv}
    (hs : s.label = .reading front.length (checksumOf front)) (hfront : Holds s.inBuf front) :
    ∃ s', Lib.run Recv.step payload s = some s' ∧
      s'.label = .reading (front ++ payload).length (checksumOf (front ++ payload)) ∧
      Holds s'.inBuf (front ++ payload) ∧ s'.out = s.out := by
  -- on the bytes to come; `front` grows by each that is stored
  induction payload generalizing front s with
  | nil => exact ⟨s, rfl, by rw [List.append_nil]; exact hs, by rw [List.append_nil]; exact hfront, rfl⟩
  | cons ch payload ih =>
    rw [List.length_cons] at hlen
    have hnd : ch ≠ chr '$' := fun heq => hd (by rw [heq]; exact List.mem_cons_self)
    have hnh : ch ≠ chr '#' := fun heq => hh (by rw [heq]; exact List.mem_cons_self)
    have hroom : front.length < INBUFSIZE := by
      have hsize : INBUFSIZE = 628 := rfl
      omega
    have hstep : s.step ch = some
        { inBuf := Function.update s.inBuf front.length ch, inPtr := s.inPtr, out := s.out,
          label := .reading (front.length + 1) (checksumOf front + ch) } := by
      unfold Recv.step
      rw [hs]
      dsimp only
      rw [if_neg hnh, if_neg (by omega), if_neg hnd, put_some hroom]
      rfl
    have hlen' : (front ++ [ch]).length + payload.length ≤ INBUFSIZE - 1 := by
      rw [List.length_append]
      simp
      omega
    have hreading : Label.reading (front.length + 1) (checksumOf front + ch)
        = .reading (front ++ [ch]).length (checksumOf (front ++ [ch])) := by
      rw [checksumOf_concat, List.length_append]
      rfl
    obtain ⟨s', hrun, hlabel, hholds, hout⟩ :=
      ih (fun hm => hd (List.mem_cons_of_mem ch hm)) (fun hm => hh (List.mem_cons_of_mem ch hm)) hlen'
        (s := { inBuf := Function.update s.inBuf front.length ch, inPtr := s.inPtr, out := s.out,
                label := .reading (front.length + 1) (checksumOf front + ch) })
        hreading (holds_concat hfront ch)
    rw [List.append_assoc] at hlabel hholds
    exact ⟨s', Option.bind_eq_some_iff.mpr ⟨_, hstep, hrun⟩, hlabel, hholds, hout⟩

/-- A frame up to its payload, from anywhere a frame can begin. -/
theorem run_started {payload : List (BitVec 8)} (hd : chr '$' ∉ payload) (hh : chr '#' ∉ payload)
    (hlen : payload.length ≤ INBUFSIZE - 1) {s : Recv} (hs : Open s) :
    ∃ s', Lib.run Recv.step (chr '$' :: payload) s = some s' ∧
      s'.label = .reading payload.length (checksumOf payload) ∧ Holds s'.inBuf payload ∧
      s'.out = s.out := by
  have hlen' : ([] : List (BitVec 8)).length + payload.length ≤ INBUFSIZE - 1 := by simpa using hlen
  obtain ⟨s', hrun, hlabel, hholds, hout⟩ :=
    run_payload hd hh hlen' (s := { s with label := .reading 0 0 }) rfl (fun k c hk => by cases hk)
  exact ⟨s', Option.bind_eq_some_iff.mpr ⟨_, step_dollar hs, hrun⟩, hlabel, hholds, hout⟩

/-- The rest of the frame. -/
theorem run_digits {payload : List (BitVec 8)} (hlen : payload.length ≤ INBUFSIZE - 1) {s : Recv}
    (hs : s.label = .reading payload.length (checksumOf payload)) (hholds : Holds s.inBuf payload)
    (d₁ d₂ : BitVec 8) :
    ∃ s', Lib.run Recv.step [chr '#', d₁, d₂] s = some s' ∧
      if checksumOf payload = xmitcsumOf d₁ d₂ then
        s'.label = .finished ∧ s'.out = s.out ++ [chr '+'] ∧ s'.inPtr = 0 ∧ Holds s'.inBuf payload ∧
          s'.inBuf payload.length = 0
      else s'.label = .again ∧ s'.out = s.out ++ [chr '-'] := by
  have hroom : payload.length < INBUFSIZE := by
    have hsize : INBUFSIZE = 628 := rfl
    omega
  have hhash : s.step (chr '#') = some
      { inBuf := Function.update s.inBuf payload.length 0, inPtr := s.inPtr, out := s.out,
        label := .first payload.length (checksumOf payload) } := by
    unfold Recv.step
    rw [hs]
    dsimp only
    rw [if_pos rfl, put_some hroom]
    rfl
  have hrun : Lib.run Recv.step [chr '#', d₁, d₂] s = Recv.step
      { inBuf := Function.update s.inBuf payload.length 0, inPtr := s.inPtr, out := s.out,
        label := .second payload.length (checksumOf payload)
          (BitVec.ofInt 8 (hexch2val d₁.toInt * 16)) d₁ } d₂ := by
    rw [Lib.run, hhash]
    exact Lib.run_singleton
  rw [hrun]
  by_cases hgood : checksumOf payload = xmitcsumOf d₁ d₂
  · refine ⟨_, (if_neg (not_not.mpr hgood)).trans (finish_some hroom), ?_⟩
    rw [if_pos hgood]
    exact ⟨rfl, rfl, rfl, holds_update (holds_update hholds le_rfl 0) le_rfl 0, Function.update_self ..⟩
  · refine ⟨_, if_pos hgood, ?_⟩
    rw [if_neg hgood]
    exact ⟨rfl, rfl⟩

/-- What can come before a frame: a frame that a new `$` abandons, or a complete frame and
bytes between it and the next `$`. -/
inductive Damage
  | unfinished (payload : List (BitVec 8))
  | rejected (payload : List (BitVec 8)) (d₁ d₂ : BitVec 8) (noise : List (BitVec 8))

def Damage.bytes : Damage → List (BitVec 8)
  | .unfinished payload => chr '$' :: payload
  | .rejected payload d₁ d₂ noise => chr '$' :: payload ++ [chr '#', d₁, d₂] ++ noise

/-- The bytes written for it. -/
def Damage.answer : Damage → List (BitVec 8)
  | .unfinished _ => []
  | .rejected _ _ _ _ => [chr '-']

/-- An unfinished frame leaves room in the buffer; a rejected one has two hexadecimal
digits and not those of its sum. -/
def Damage.Fits : Damage → Prop
  | .unfinished payload => chr '$' ∉ payload ∧ chr '#' ∉ payload ∧ payload.length < INBUFSIZE - 1
  | .rejected payload d₁ d₂ noise =>
    chr '$' ∉ payload ∧ chr '#' ∉ payload ∧ payload.length ≤ INBUFSIZE - 1 ∧
      (∃ v₁ ∈ hexDigit d₁, ∃ v₂ ∈ hexDigit d₂, 16 * v₁ + v₂ ≠ byteSum payload % 256) ∧ chr '$' ∉ noise

/-- A damaged frame is answered, and the next one can begin. -/
theorem run_damage {d : Damage} (hd : d.Fits) {s : Recv} (hs : Open s) :
    ∃ s', Lib.run Recv.step d.bytes s = some s' ∧ Open s' ∧ s'.out = s.out ++ d.answer := by
  cases d with
  | unfinished payload =>
    obtain ⟨hdollar, hhash, hlen⟩ := hd
    obtain ⟨s', hrun, hlabel, -, hout⟩ := run_started hdollar hhash hlen.le hs
    exact ⟨s', hrun, Or.inr ⟨_, _, hlabel, hlen⟩, hout.trans (List.append_nil _).symm⟩
  | rejected payload d₁ d₂ noise =>
    obtain ⟨hdollar, hhash, hlen, ⟨v₁, hv₁, v₂, hv₂, hwrong⟩, hnoise⟩ := hd
    -- the frame is read to its digits, which are wrong, and then the noise
    obtain ⟨s₁, hrun₁, hlabel₁, hholds₁, hout₁⟩ := run_started hdollar hhash hlen hs
    obtain ⟨s₂, hrun₂, hend⟩ := run_digits hlen hlabel₁ hholds₁ d₁ d₂
    rw [if_neg fun heq => hwrong ((checksumOf_eq_iff hv₁ hv₂).mp heq)] at hend
    refine ⟨s₂, ?_, Or.inl hend.1, hend.2.trans (by rw [hout₁]; rfl)⟩
    exact Lib.run_append.mpr ⟨s₂, Lib.run_append.mpr ⟨s₁, hrun₁, hrun₂⟩, run_noise hnoise hend.1⟩

theorem run_damages {ds : List Damage} (hds : ∀ d ∈ ds, d.Fits) {s : Recv} (hs : Open s) :
    ∃ s', Lib.run Recv.step (ds.flatMap Damage.bytes) s = some s' ∧ Open s' ∧
      s'.out = s.out ++ ds.flatMap Damage.answer := by
  induction ds generalizing s with
  | nil => exact ⟨s, rfl, hs, (List.append_nil _).symm⟩
  | cons d ds ih =>
    obtain ⟨s₁, hrun₁, hopen₁, hout₁⟩ := run_damage (hds d List.mem_cons_self) hs
    obtain ⟨s', hrun, hopen, hout⟩ := ih (fun e he => hds e (List.mem_cons_of_mem d he)) hopen₁
    refine ⟨s', Lib.run_append.mpr ⟨s₁, hrun₁, hrun⟩, hopen, ?_⟩
    rw [hout, hout₁, List.append_assoc]
    rfl

/-- The payload of `outBuf` goes out between `$` and `#`, with the digits of its sum. -/
theorem sendString_eq {payload pad : List (BitVec 8)} (h0 : 0 ∉ payload) (front : List (BitVec 8)) :
    sendString (payload ++ 0 :: pad) (checksumOf front) = (payload, checksumOf (front ++ payload)) := by
  -- `front` is what has been summed so far
  induction payload generalizing front with
  | nil => rw [List.append_nil, List.nil_append, sendString, if_pos rfl]
  | cons ch payload ih =>
    have hne : ch ≠ 0 := fun heq => h0 (by rw [heq]; exact List.mem_cons_self)
    have hrest := ih (fun hm => h0 (List.mem_cons_of_mem ch hm)) (front ++ [ch])
    rw [checksumOf_concat, List.append_assoc] at hrest
    rw [List.cons_append, sendString, if_neg hne, hrest]
    rfl

theorem sendFrame_eq {payload pad : List (BitVec 8)} (h0 : 0 ∉ payload) :
    sendFrame (payload ++ 0 :: pad) = chr '$' :: payload ++
      [chr '#', sendDigit (checksumOf payload >>> 4), sendDigit (checksumOf payload &&& 0xF)] := by
  have hstring : sendString (payload ++ 0 :: pad) (checksumOf []) = (payload, checksumOf ([] ++ payload)) :=
    sendString_eq h0 []
  rw [checksumOf_nil, List.nil_append] at hstring
  rw [sendFrame, hstring]

/-- **What SendPacket sends, ReceivePacket receives**, behind any bytes without a `$` and
any frames that were abandoned or rejected: the payload is in the buffer with the pointer
at its start, each rejected frame was answered by one `-` and this one by one `+`, and
nothing behind it was read. And on no stream at all is a byte stored outside the buffer. -/
theorem receive_sent {payload pad : List (BitVec 8)}
    (hpay : chr '$' ∉ payload ∧ chr '#' ∉ payload ∧ 0 ∉ payload ∧ payload.length ≤ INBUFSIZE - 1)
    {noise : List (BitVec 8)} (hnoise : chr '$' ∉ noise) {ds : List Damage} (hds : ∀ d ∈ ds, d.Fits) :
    ∃ wire, (∀ replies, SendPacket (payload ++ 0 :: pad) (chr '+' :: replies) = some (wire, replies)) ∧
      ∀ l : Link,
        (∀ rest, ∃ l', ReceivePacket l (noise ++ ds.flatMap Damage.bytes ++ wire ++ rest)
            = .returned l' rest ∧
          Holds l'.inBuf payload ∧ l'.inBuf payload.length = 0 ∧ l'.inPtr = 0 ∧
          l'.out = l.out ++ ds.flatMap Damage.answer ++ [chr '+']) ∧
        ∀ input, ReceivePacket l input ≠ .fault := by
  obtain ⟨hdollar, hhash, h0, hlen⟩ := hpay
  refine ⟨sendFrame (payload ++ 0 :: pad), fun replies => if_pos rfl, fun l =>
    ⟨fun rest => ?_, receive_inside (show (Recv.start l).label.Inv (Recv.start l).inBuf [] from trivial)⟩⟩
  have hstart := run_noise hnoise (s := Recv.start l) rfl
  obtain ⟨s₁, hrun₁, hopen₁, hout₁⟩ := run_damages hds (s := Recv.start l) (Or.inl rfl)
  obtain ⟨s₂, hrun₂, hlabel₂, hholds₂, hout₂⟩ := run_started hdollar hhash hlen hopen₁
  obtain ⟨s₃, hrun₃, hend⟩ := run_digits hlen hlabel₂ hholds₂
    (sendDigit (checksumOf payload >>> 4)) (sendDigit (checksumOf payload &&& 0xF))
  rw [if_pos (xmitcsumOf_sendDigit _).symm] at hend
  obtain ⟨hfin, hplus, hptr, hholds, hterm⟩ := hend
  have hrun : Lib.run Recv.step (noise ++ ds.flatMap Damage.bytes ++ sendFrame (payload ++ 0 :: pad))
      (Recv.start l) = some s₃ := by
    rw [sendFrame_eq h0]
    exact Lib.run_append.mpr ⟨s₁, Lib.run_append.mpr ⟨_, hstart, hrun₁⟩,
      Lib.run_append.mpr ⟨s₂, hrun₂, hrun₃⟩⟩
  refine ⟨s₃.toLink, ?_, hholds, hterm, hptr, ?_⟩
  · rw [ReceivePacket, receive_append hrun, receive_finished hfin]
  · rw [hplus, hout₂, hout₁]
    rfl

/-- `OK` behind an unfinished frame and a frame with the digits of another sum. -/
theorem receive_sent_ok : ∃ wire,
    (∀ replies, SendPacket ([chr 'O', chr 'K'] ++ 0 :: []) (chr '+' :: replies) = some (wire, replies)) ∧
      ∀ l : Link,
        (∀ rest, ∃ l', ReceivePacket l ([chr '+'] ++ [Damage.unfinished [chr 'm'],
              .rejected [chr 'g'] (chr '0') (chr '0') [chr '!']].flatMap Damage.bytes ++ wire ++ rest)
            = .returned l' rest ∧
          Holds l'.inBuf [chr 'O', chr 'K'] ∧ l'.inBuf 2 = 0 ∧ l'.inPtr = 0 ∧
          l'.out = l.out ++ [chr '-'] ++ [chr '+']) ∧
        ∀ input, ReceivePacket l input ≠ .fault := by
  refine @receive_sent [chr 'O', chr 'K'] [] ⟨by decide, by decide, by decide, by decide⟩
    [chr '+'] (by decide) _ fun d hd => ?_
  rcases List.mem_cons.mp hd with rfl | hd
  · exact ⟨by decide, by decide, by decide⟩
  · obtain rfl := List.mem_singleton.mp hd
    exact ⟨by decide, by decide, by decide, ⟨0, by decide, 0, by decide, by decide⟩, by decide⟩

end Cavatools.Uspike.Gdblink
