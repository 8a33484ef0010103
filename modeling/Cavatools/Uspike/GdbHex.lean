import Cavatools.Uspike.GdbAddress

/-!
# Bytes in the packets

A byte is sent as two hexadecimal digits, and two digits are received as a
byte; so `G` with the reply to `g`, and `M` with the reply to `m`, put back
what was read. The writer takes a byte for a `char` with a sign and the reader
for one without, which makes the round trip of a single byte a computation
over all 256 of them (`hexChars_spec`).

From one byte it goes up by induction: a list of bytes comes back from its
digits, whatever follows (`RcvHexToMemory_hexOf`). A register is eight bytes
in memory order (`bytesOf`), and the registers lie one behind the other
(`regBytes_slice`), so the reply to `g` has the digits of the registers and
the pc (`commandg_eq`), and `G` with these digits gives them back
(`commandG_hexOf`).

For memory the packet also has an address and a length. A number ends where it
did, with or without more text behind it (`RcvHexInt_append`,
`parseAddrLength_append`), so `M` parses the text of the `m` packet the same
way. Writing memory goes on to the text: a byte that lands there has its
descriptor decoded again, for which the text needs a slot at every address
(`Tabled`), and a text of whole halfwords that was loaded has one
(`tabled_loadelf`).

`replies_restore` has both round trips, with the replies and what is restored
given explicitly.
-/

namespace Cavatools.Uspike.Gdblink

open Riscv

/-- The digits of bytes. -/
def hexOf (bytes : List (BitVec 8)) : Input := bytes.flatMap hexChars

/-! ## One byte -/

theorem hexChars_spec (b : BitVec 8) : ∃ c d high low, hexChars b = [c, d] ∧
    hexDigit c = some high ∧ hexDigit d = some low ∧ BitVec.ofNat 8 (16 * high + low) = b := by
  have hall : ∀ b : BitVec 8, (hexChars b).map hexDigit = [some (b.toNat / 16), some (b.toNat % 16)] := by
    decide +kernel
  obtain ⟨hhigh, hlow⟩ := List.cons_eq_cons.mp (hall b)
  refine ⟨_, _, _, _, rfl, hhigh, (List.cons_eq_cons.mp hlow).1, ?_⟩
  rw [Nat.div_add_mod, BitVec.ofNat_toNat, BitVec.setWidth_eq]

/-- Two digits are a byte. -/
theorem RcvHexToMemory_pair {c d : BitVec 8} {high low : Nat} (hc : hexDigit c = some high)
    (hd : hexDigit d = some low) (n : Nat) (inp : Input) :
    RcvHexToMemory (n + 1) (c :: d :: inp) =
      (BitVec.ofNat 8 (16 * high + low) :: (RcvHexToMemory n inp).1, (RcvHexToMemory n inp).2) := by
  simp only [RcvHexToMemory, RcvHexDigit, hc, hd, Option.map_some]

/-- **Bytes come back** from their digits, whatever follows. -/
theorem RcvHexToMemory_hexOf (bytes : List (BitVec 8)) (rest : Input) :
    RcvHexToMemory bytes.length (hexOf bytes ++ rest) = (bytes, decide (peek rest = 0), rest) := by
  induction bytes with
  | nil => rfl
  | cons b bytes ih =>
    obtain ⟨c, d, high, low, hb, hc, hd, hval⟩ := hexChars_spec b
    have hhex : hexOf (b :: bytes) ++ rest = c :: d :: (hexOf bytes ++ rest) := by
      unfold hexOf
      rw [List.flatMap_cons, hb]
      rfl
    rw [List.length_cons, hhex, RcvHexToMemory_pair hc hd, ih, hval]

theorem hexOf_append (bytes bytes' : List (BitVec 8)) : hexOf (bytes ++ bytes') = hexOf bytes ++ hexOf bytes' :=
  List.flatMap_append

theorem length_hexOf (bytes : List (BitVec 8)) : (hexOf bytes).length = 2 * bytes.length := by
  induction bytes with
  | nil => rfl
  | cons b bytes ih =>
    unfold hexOf at ih ⊢
    rw [List.flatMap_cons, List.length_append, ih, List.length_cons]
    show 2 + _ = _
    omega

/-- The digits of some bytes are not the end of a packet. -/
theorem peek_hexOf {bytes : List (BitVec 8)} (h : bytes ≠ []) : peek (hexOf bytes) ≠ 0 := by
  cases bytes with
  | nil => exact absurd rfl h
  | cons b bytes =>
    obtain ⟨c, d, high, low, hb, hc, -, -⟩ := hexChars_spec b
    have hpeek : peek (hexOf (b :: bytes)) = c := by
      unfold hexOf
      rw [List.flatMap_cons, hb]
      rfl
    rw [hpeek]
    rintro rfl
    cases hc

/-! ## Words -/

/-- The eight bytes of a word. -/
def bytesOf (v : Long) : List (BitVec 8) := (List.range 8).map (byteOf v)

theorem longOf_bytesOf (v : Long) : longOf (bytesOf v) = v := by
  have hv : v.toNat < 2 ^ 64 := v.isLt
  apply BitVec.eq_of_toNat_eq
  simp only [longOf, bytesOf, List.range, List.range.loop, List.map_cons, List.map_nil, natOf, byteOf,
    BitVec.toNat_setWidth, BitVec.toNat_ushiftRight, Nat.shiftRight_eq_div_pow, BitVec.toNat_ofNat]
  omega

/-- All registers in memory order. -/
def regBytes (r : Regs) : List (BitVec 8) := (List.range (NUMREGS * 8)).map (regByte r)

/-- A register has eight of the bytes, at its own place. -/
theorem regBytes_slice (r : Regs) (x : BitVec 5) :
    ((regBytes r).drop (8 * x.toNat)).take 8 = bytesOf (r.gdb_reg x) := by
  have hx : x.toNat < 32 := x.isLt
  have hlen : (regBytes r).length = 256 := by simp [regBytes, NUMREGS]
  apply List.ext_getElem
  · rw [List.length_take, List.length_drop, hlen, bytesOf, List.length_map, List.length_range]
    omega
  · intro k hk hk'
    have hk8 : k < 8 := by simpa [bytesOf] using hk'
    rw [List.getElem_take, List.getElem_drop]
    simp only [regBytes, bytesOf, regByte, List.getElem_map, List.getElem_range]
    have hdiv : (8 * x.toNat + k) / 8 = x.toNat := by omega
    have hmod : (8 * x.toNat + k) % 8 = k := by omega
    rw [hdiv, hmod, BitVec.ofNat_toNat, BitVec.setWidth_eq]

/-! ## What the commands read -/

theorem ReplyInHex_hexOf (readable : Nat → Bool) (byte : Nat → BitVec 8) (bytes : Int) (out : Out)
    (hread : ∀ k < bytes.toNat, readable k = true) (hfit : out.length + 2 * bytes.toNat < OUTBUFSIZE) :
    ReplyInHex readable byte bytes out = .ok (out ++ hexOf ((List.range bytes.toNat).map byte)) := by
  rw [ReplyInHex_ok hread hfit, hexOf, List.flatMap_map]

/-- A writer goes on where the last one stopped. -/
theorem ok_bind (out : Out) (w : Out → Writing) : (Except.ok out >>= w) = w out := rfl

/-- The reply to `g`. -/
theorem commandg_eq (r : Regs) : commandg r [] = .ok (hexOf (regBytes r) ++ hexOf (bytesOf r.gdb_pc)) := by
  have hlen : (hexOf (regBytes r)).length = 512 := by
    rw [length_hexOf, regBytes, List.length_map, List.length_range]
    rfl
  have hcount : ((NUMREGS : Int) * 8).toNat = NUMREGS * 8 := rfl
  have hregs := ReplyInHex_hexOf (fun _ => true) (regByte r) (NUMREGS * 8) [] (fun _ _ => rfl) (by decide)
  have hpc := ReplyInHex_hexOf (fun _ => true) (byteOf r.gdb_pc) 8 (hexOf (regBytes r)) (fun _ _ => rfl)
    (by rw [hlen]; decide)
  rw [hcount, List.nil_append] at hregs
  unfold commandg
  rw [hregs, ← regBytes, ok_bind, hpc]
  rfl

/-- `G` with the digits of registers and pc. -/
theorem commandG_hexOf (r : Regs) :
    commandG (hexOf (regBytes r) ++ hexOf (bytesOf r.gdb_pc)) = (r, "OK") := by
  have hregs := RcvHexToMemory_hexOf (regBytes r) (hexOf (bytesOf r.gdb_pc))
  have hpc := RcvHexToMemory_hexOf (bytesOf r.gdb_pc) []
  have hlen : (regBytes r).length = NUMREGS * 8 := by rw [regBytes, List.length_map, List.length_range]
  have hlen' : (bytesOf r.gdb_pc).length = 8 := rfl
  -- the first decode leaves the digits of the pc over, the second nothing
  have hmore : peek (hexOf (bytesOf r.gdb_pc)) ≠ 0 := peek_hexOf (List.cons_ne_nil _ _)
  rw [hlen] at hregs
  rw [hlen', List.append_nil] at hpc
  unfold commandG
  rw [hregs]
  dsimp only
  rw [hpc, longOf_bytesOf]
  simp only [regBytes_slice, longOf_bytesOf]
  rw [decide_eq_false hmore]
  rfl

/-! ## The text of an address -/

theorem rcvDigits_append {more : Input} (hmore : EndsHex more) (value : BitVec 32) (inp : Input) :
    rcvDigits value (inp ++ more) = ((rcvDigits value inp).1, (rcvDigits value inp).2 ++ more) := by
  induction inp generalizing value with
  | nil => exact rcvDigits_ends hmore value
  | cons c inp ih =>
    rw [List.cons_append, rcvDigits, rcvDigits]
    cases hexDigit c with
    | none => rfl
    | some digit => exact ih _

/-- A number ends where it did, with or without more behind it. -/
theorem RcvHexInt_append {inp rest more : Input} {v : Long} (hmore : EndsHex more)
    (h : RcvHexInt inp = some (v, rest)) : RcvHexInt (inp ++ more) = some (v, rest ++ more) := by
  cases inp with
  | nil => cases h
  | cons c inp =>
    unfold RcvHexInt RcvHexDigit at h ⊢
    rw [List.cons_append]
    dsimp only at h ⊢
    cases hc : hexDigit c with
    | none =>
      rw [hc] at h
      cases h
    | some digit =>
      rw [hc] at h
      rw [Option.map_some] at h ⊢
      dsimp only at h ⊢
      rw [rcvDigits_append hmore]
      cases h
      rfl

/-- An address and a length are read from the front of the text, whatever comes behind them. -/
theorem parseAddrLength_append {inp rest more : Input} {addr : Long} {length : Int} (hmore : EndsHex more)
    (h : parseAddrLength inp = some (addr, length, rest)) :
    parseAddrLength (inp ++ more) = some (addr, length, rest ++ more) := by
  unfold parseAddrLength at h ⊢
  cases haddr : RcvHexInt inp with
  | none =>
    rw [haddr] at h
    cases h
  | some p =>
    obtain ⟨addr', inp'⟩ := p
    rw [haddr] at h
    rw [RcvHexInt_append hmore haddr]
    dsimp only at h ⊢
    cases inp' with
    | nil => cases h
    | cons c inp' =>
      by_cases hcomma : c ≠ chr ','
      · rw [if_pos (show peek (c :: inp') ≠ chr ',' from hcomma)] at h
        cases h
      · rw [if_neg (show ¬peek (c :: inp') ≠ chr ',' from hcomma)] at h
        obtain ⟨⟨length', rest'⟩, hlength, heq⟩ := Option.map_eq_some_iff.mp h
        cases heq
        rw [List.tail_cons] at hlength
        rw [List.cons_append, if_neg (show ¬peek (c :: (inp' ++ more)) ≠ chr ',' from hcomma), List.tail_cons,
          RcvHexInt_append hmore hlength]
        rfl

/-! ## Memory -/

/-- Every address of the text has a slot. -/
def Tabled (code : InsnSpace) : Prop := ∀ pc, code.valid pc = true → code.slot pc < code.predecoded.length

/-- `redecode` stays inside the table where there is a slot, and where it does nothing. -/
theorem redecode_isSome_iff {chain : List Entry} {mem : Mem} {code : InsnSpace} {pc : Long} :
    (redecode chain mem code pc).isSome ↔ (code.valid pc = true → code.slot pc < code.predecoded.length) := by
  unfold redecode InsnSpace.image InsnSpace.put
  by_cases hvalid : code.valid pc = true
  · simp only [hvalid, if_true, true_and, true_imp_iff]
    split <;> simp_all
  · rw [if_neg hvalid]
    exact iff_of_true rfl fun h => absurd h hvalid

/-- A text of whole halfwords, fewer than an `int` counts, has one slot for each. -/
theorem tabled_loadelf {chain : List Entry} {mem : Mem} {base limit entry : Long} {code : InsnSpace}
    (h : loadelf chain mem base limit entry = .text code)
    (hcount : 2 * slotCount base limit = limit.toInt - base.toInt) : Tabled code := by
  intro pc hpc
  obtain ⟨rfl, rfl, -, hlength, -, -, -⟩ := loadelf_textOf h
  obtain ⟨hlo, hhi⟩ := Bool.and_eq_true_iff.mp hpc
  rw [BitVec.sle_iff_toInt_le] at hlo
  rw [BitVec.slt_iff_toInt_lt] at hhi
  have hslot := InsnSpace.slot_ofInt hlo (InsnSpace.lt_of_lt_limit hhi)
  rw [BitVec.ofInt_toInt] at hslot
  rw [hslot, InsnSpace.slotOf]
  omega

/-- Bytes that were read are written where there is room. -/
theorem rcvHexToGuest_hexOf {writable : Long → Bool} (mem : Mem) {addr : Long} {length : Int}
    (bytes : List (BitVec 8)) (hbytes : bytes.length = length.toNat)
    (hwrite : ∀ k < length.toNat, writable (addr + BitVec.ofNat 64 k) = true) :
    rcvHexToGuest writable mem addr length (hexOf bytes) = (fill mem addr bytes, true) := by
  have hzeros : (List.range length.toNat).takeWhile (fun k => writable (addr + BitVec.ofNat 64 k)) =
      List.range length.toNat :=
    List.takeWhile_eq_self_iff.mpr fun k hk => hwrite k (List.mem_range.mp hk)
  have hrcv := RcvHexToMemory_hexOf bytes []
  rw [List.append_nil, hbytes] at hrcv
  unfold rcvHexToGuest
  rw [hzeros, List.length_range]
  dsimp only
  rw [if_neg (lt_irrefl _), hrcv]
  rfl

theorem commandm_eq {t : Target} {inp : Input} {addr : Long} {length : Int} {rest : Input}
    (hparse : parseAddrLength inp = some (addr, length, rest)) (hfit : 2 * length.toNat < OUTBUFSIZE)
    (hread : ∀ k < length.toNat, t.readable (addr + BitVec.ofNat 64 k) = true) :
    commandm t inp [] = .ok (hexOf (bytesAt t.mem addr length.toNat)) := by
  unfold commandm
  rw [hparse]
  dsimp only
  rw [ReplyInHex_hexOf _ _ _ _ hread (by rwa [List.length_nil, Nat.zero_add])]
  rfl

/-- `M` with the digits of bytes, behind the text of an address and a length. -/
theorem commandM_eq {writable : Long → Bool} {d : Debuggee} {text : Input} {addr : Long} {length : Int}
    {bytes : List (BitVec 8)} (hparse : parseAddrLength text = some (addr, length, []))
    (hbytes : bytes.length = length.toNat)
    (hwrite : ∀ k < length.toNat, writable (addr + BitVec.ofNat 64 k) = true) (chain : List Entry) :
    commandM chain writable d (text ++ chr ':' :: hexOf bytes) =
      (redecode chain (fill d.mem addr bytes) d.code addr).map fun code =>
        (⟨fill d.mem addr bytes, code⟩, "OK") := by
  have hends : EndsHex (chr ':' :: hexOf bytes) := endsHex_cons (by decide) _
  have hcolon : ¬peek ([] ++ chr ':' :: hexOf bytes) ≠ chr ':' := not_not.mpr rfl
  unfold commandM
  rw [parseM_eq, parseAddrLength_append hends hparse, Option.bind_some]
  dsimp only
  rw [if_neg hcolon, List.nil_append, List.tail_cons]
  dsimp only
  rw [rcvHexToGuest_hexOf d.mem bytes hbytes hwrite, if_pos rfl]

/-- **What was read is put back.** `G` with the reply to `g` restores the registers and the pc. `M`
with the reply to `m`, behind the same text of address and length, writes the bytes that were read
and no others. -/
theorem replies_restore (chain : List Entry) :
    (∀ s₀ : Session, s₀.out = [] → ∃ reply,
      handle chain s₀ (packet "g") = .sent { s₀ with out := reply } ∧
      (chr 'G' :: reply).length < INBUFSIZE ∧
      ∀ s : Session, s.out = [] →
        handle chain s (chr 'G' :: reply) = .sent { s with regs := s₀.regs, out := packet "OK" }) ∧
    ∀ (s₀ : Session) (text : Input) (addr : Long) (length : Int), s₀.out = [] →
      parseAddrLength text = some (addr, length, []) → 2 * length.toNat < OUTBUFSIZE →
      (∀ k < length.toNat, s₀.readable (addr + BitVec.ofNat 64 k) = true) → ∃ reply,
        handle chain s₀ (chr 'm' :: text) = .sent { s₀ with out := reply } ∧
        ∀ s : Session, s.out = [] → Tabled s.code →
          (∀ k < length.toNat, s.writable (addr + BitVec.ofNat 64 k) = true) → ∃ code,
            handle chain s (chr 'M' :: (text ++ chr ':' :: reply)) =
              .sent { s with
                mem := fill s.mem addr (bytesAt s₀.mem addr length.toNat), code, out := packet "OK" } := by
  constructor
  · intro s₀ hs₀
    refine ⟨hexOf (regBytes s₀.regs) ++ hexOf (bytesOf s₀.regs.gdb_pc), ?_, ?_, fun s hs => ?_⟩
    · have hhandle : handle chain s₀ (packet "g") = s₀.reply (commandg s₀.regs s₀.out) :=
        handle_g chain s₀ []
      rw [hhandle, hs₀, commandg_eq]
      rfl
    · have hlen : (regBytes s₀.regs ++ bytesOf s₀.regs.gdb_pc).length = 264 := by
        simp [regBytes, bytesOf, NUMREGS]
      rw [← hexOf_append, List.length_cons, length_hexOf, hlen]
      decide
    · exact sent_G chain hs _ (commandG_hexOf s₀.regs) (by decide)
  · intro s₀ text addr length hs₀ hparse hfit hread
    refine ⟨hexOf (bytesAt s₀.mem addr length.toNat), ?_, fun s hs hcode hwrite => ?_⟩
    · rw [handle_m, hs₀, commandm_eq hparse hfit hread]
      rfl
    · have hsome : (redecode chain (fill s.mem addr (bytesAt s₀.mem addr length.toNat)) s.code addr).isSome :=
        redecode_isSome_iff.mpr (hcode addr)
      obtain ⟨code, hredecode⟩ := Option.isSome_iff_exists.mp hsome
      have hbytes : (bytesAt s₀.mem addr length.toNat).length = length.toNat := by simp [bytesAt]
      have hcommand := commandM_eq (d := s.toDebuggee) hparse hbytes hwrite chain
      rw [hredecode, Option.map_some] at hcommand
      exact ⟨code, sent_M chain hs _ hcommand (by decide)⟩

/-- The text of `nopLi` is read and put back, and so are its registers. -/
theorem replies_restore_nopLi :
    (∃ reply, handle listedChain openSession (packet "g") = .sent { openSession with out := reply } ∧
      handle listedChain openSession (chr 'G' :: reply) =
        .sent { openSession with out := packet "OK" }) ∧
    ∃ reply code,
      handle listedChain openSession (packet "m1000,4") = .sent { openSession with out := reply } ∧
      handle listedChain openSession (chr 'M' :: (packet "1000,4" ++ chr ':' :: reply)) =
        .sent { openSession with
          mem := fill nopLiMem 0x1000 (bytesAt nopLiMem 0x1000 4), code, out := packet "OK" } := by
  obtain ⟨hregs, hmem⟩ := replies_restore listedChain
  constructor
  · obtain ⟨reply, hg, -, hG⟩ := hregs openSession rfl
    exact ⟨reply, hg, hG openSession rfl⟩
  · obtain ⟨reply, hm, hM⟩ := hmem openSession (packet "1000,4") 0x1000 4 rfl (by decide) (by decide)
      fun _ _ => rfl
    obtain ⟨code, hM⟩ := hM openSession rfl (tabled_loadelf loadelf_nopLi (by decide)) fun _ _ => rfl
    exact ⟨reply, code, hm, hM⟩

end Cavatools.Uspike.Gdblink
