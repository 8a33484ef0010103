import Cavatools.Uspike.Malloc

/-!
# `malloc` and `calloc` with any size

The allocator of uspike takes blocks from a pool by moving a pointer up. One
thread alone is looked at here: the swap succeeds the first time, so a call is
one step (`malloc_alone` shows that the concurrent one does the same then).
Sizes are all of `size_t`, so the sum that is tested against the end of the
pool can wrap around, and `calloc` multiplies modulo `2^64`.

A list of requests is `Sound` if the blocks that were returned have the bytes
asked for inside the pool, and no two of them share one. A request that passes
the test either ends at an address that the machine has (`NoWrap`), and then
the block lies behind all the others (`Arena.Packed`, which such a step
keeps), or it wraps, and then its block is not in the pool
(`outside_of_wrap`). Blocks are never taken back, so a run cannot become sound
again (`blocks_suffix`, `along_of_sound`).

`requests_sound_iff` is therefore exact over sequences: the blocks are as they
should be just if each request, in the state that it comes in, does not wrap
or is refused by the test anyway.
-/

namespace Cavatools.Uspike

variable (p : Pool)

/-- `malloc(size)` by a thread alone: the result, 0 for null, and the new `pooltop`. -/
def malloc (pooltop size : Nat) : Nat × Nat :=
  let after := afterOf pooltop size
  if p.simpool + poolsize < after then (0, pooltop) else (pooltop, newtopOf after)

/-- `calloc(nmemb, size)`. -/
def calloc (pooltop nmemb size : Nat) : Nat × Nat := malloc p pooltop (nmemb * size % 2 ^ 64)

/-- A call, with its `size_t` arguments. -/
inductive Request
  | malloc (size : BitVec 64)
  | calloc (nmemb size : BitVec 64)
  deriving DecidableEq, Repr

namespace Request

/-- The bytes that are asked for. -/
def bytes : Request → Nat
  | .malloc size => size.toNat
  | .calloc nmemb size => nmemb.toNat * size.toNat

/-- The result of the call and the new `pooltop`. -/
def serve (pooltop : Nat) : Request → Nat × Nat
  | .malloc size => Uspike.malloc p pooltop size.toNat
  | .calloc nmemb size => Uspike.calloc p pooltop nmemb.toNat size.toNat

end Request

/-- The top, and the blocks of the calls that returned one, newest first. -/
structure Arena where
  pooltop : Nat
  blocks : List Block

namespace Arena

def start : Arena := ⟨p.simpool, []⟩

def step (s : Arena) (r : Request) : Option Arena :=
  let (rv, newtop) := r.serve p s.pooltop
  some ⟨newtop, if rv = 0 then s.blocks else ⟨rv, r.bytes⟩ :: s.blocks⟩

end Arena

/-- The blocks are in the pool, and no two of them share a byte. -/
def Sound (s : Arena) : Prop := (∀ b ∈ s.blocks, b.Inside p) ∧ s.blocks.Pairwise Block.Disjoint

/-- A request that passes the limit test ends at an address that the machine has. -/
def NoWrap (s : Arena) (r : Request) : Prop :=
  afterOf s.pooltop (r.bytes % 2 ^ 64) ≤ p.simpool + poolsize → s.pooltop + r.bytes + 16 < 2 ^ 64

instance (s : Arena) (r : Request) : Decidable (NoWrap p s r) := inferInstanceAs (Decidable (_ → _))

/-! ## One call -/

variable {p}

theorem serve_eq (pooltop : Nat) (r : Request) :
    r.serve p pooltop = malloc p pooltop (r.bytes % 2 ^ 64) := by
  cases r with
  | malloc size =>
    show malloc p pooltop size.toNat = malloc p pooltop (size.toNat % 2 ^ 64)
    rw [Nat.mod_eq_of_lt size.isLt]
  | calloc nmemb size => rfl

/-- A call is refused, or it returns the old top. -/
theorem step_cases {s s' : Arena} {r : Request} (h : s.step p r = some s') :
    (p.simpool + poolsize < afterOf s.pooltop (r.bytes % 2 ^ 64) ∧ s' = s) ∨
    (afterOf s.pooltop (r.bytes % 2 ^ 64) ≤ p.simpool + poolsize ∧
      s'.pooltop = newtopOf (afterOf s.pooltop (r.bytes % 2 ^ 64)) ∧
      s'.blocks = if s.pooltop = 0 then s.blocks else ⟨s.pooltop, r.bytes⟩ :: s.blocks) := by
  unfold Arena.step at h
  rw [serve_eq, malloc] at h
  by_cases hlimit : p.simpool + poolsize < afterOf s.pooltop (r.bytes % 2 ^ 64)
  · rw [if_pos hlimit] at h
    exact Or.inl ⟨hlimit, (Option.some.inj h).symm⟩
  · rw [if_neg hlimit] at h
    obtain rfl := Option.some.inj h
    exact Or.inr ⟨Nat.le_of_not_lt hlimit, rfl, rfl⟩

/-- Every block ends below the top, which is in the pool. -/
structure Arena.Packed (p : Pool) (s : Arena) : Prop where
  bottom : p.simpool ≤ s.pooltop
  top : s.pooltop ≤ p.simpool + poolsize
  blocks : ∀ b ∈ s.blocks, p.simpool ≤ b.rv ∧ b.rv + b.size ≤ s.pooltop
  disjoint : s.blocks.Pairwise Block.Disjoint

theorem Arena.packed_start : (Arena.start p).Packed p :=
  ⟨le_rfl, Nat.le_add_right .., fun _ hb => (by cases hb), List.Pairwise.nil⟩

theorem Arena.Packed.sound {s : Arena} (h : s.Packed p) : Sound p s := by
  refine ⟨fun b hb => ?_, h.disjoint⟩
  have hblock := h.blocks b hb
  have htop := h.top
  exact ⟨hblock.1, by omega⟩

/-- A request that does not wrap is refused, or its block is put on top of the others. -/
theorem Arena.Packed.step {s s' : Arena} {r : Request} (h : s.Packed p) (hwrap : NoWrap p s r)
    (hstep : s.step p r = some s') : s'.Packed p := by
  rcases step_cases hstep with ⟨-, rfl⟩ | ⟨hpass, htop, hblocks⟩
  · exact h
  have hfit := hwrap hpass
  have hafter : afterOf s.pooltop (r.bytes % 2 ^ 64) = s.pooltop + r.bytes + 16 := by
    unfold afterOf
    rw [Nat.mod_eq_of_lt (show r.bytes < 2 ^ 64 by omega), Nat.mod_eq_of_lt hfit]
  rw [hafter] at hpass htop
  -- the slack is more than what rounding down takes away
  have hcover : s.pooltop + r.bytes ≤ s'.pooltop := by
    rw [htop]
    unfold newtopOf
    omega
  have hle : s'.pooltop ≤ p.simpool + poolsize := htop ▸ (newtopOf_le _).trans hpass
  have hold : ∀ b ∈ s.blocks, p.simpool ≤ b.rv ∧ b.rv + b.size ≤ s'.pooltop := by
    intro b hb
    have := h.blocks b hb
    omega
  have hbottom := h.bottom
  refine ⟨by omega, hle, ?_, ?_⟩
  · rw [hblocks]
    split
    case isTrue => exact hold
    case isFalse => exact List.forall_mem_cons.mpr ⟨⟨h.bottom, hcover⟩, hold⟩
  · rw [hblocks]
    split
    case isTrue => exact h.disjoint
    case isFalse =>
      refine List.pairwise_cons.mpr ⟨?_, h.disjoint⟩
      intro b hb x hx
      have := (h.blocks b hb).2
      dsimp only at hx
      omega

/-- A wrapped request that passes the test gets a block that is not in the pool. -/
theorem outside_of_wrap {s s' : Arena} {r : Request} (h : s.Packed p) (hnull : 0 < p.simpool)
    (hwrap : ¬NoWrap p s r) (hstep : s.step p r = some s') : ∃ b ∈ s'.blocks, ¬b.Inside p := by
  obtain ⟨hpass, hge⟩ := Classical.not_imp.mp hwrap
  rcases step_cases hstep with ⟨hlimit, -⟩ | ⟨-, -, hblocks⟩
  · omega
  have hbottom := h.bottom
  have htop := h.top
  have huser := p.user
  have hpool : poolsize = 2 ^ 30 := rfl
  rw [if_neg (by omega)] at hblocks
  refine ⟨⟨s.pooltop, r.bytes⟩, hblocks ▸ List.mem_cons_self, ?_⟩
  intro hall
  obtain ⟨-, hend⟩ := hall
  dsimp only at hend
  omega

/-! ## Runs -/

/-- The blocks of before are among those of after. -/
theorem blocks_suffix {rs : List Request} {s s' : Arena}
    (hrun : Lib.run (Arena.step p) rs s = some s') : s.blocks <:+ s'.blocks := by
  induction rs generalizing s with
  | nil =>
    cases hrun
    exact List.suffix_rfl
  | cons r rs ih =>
    obtain ⟨t, hstep, hrest⟩ := Lib.run_cons hrun
    refine List.IsSuffix.trans ?_ (ih hrest)
    rcases step_cases hstep with ⟨-, rfl⟩ | ⟨-, -, hblocks⟩
    · exact List.suffix_rfl
    · rw [hblocks]
      split
      case isTrue => exact List.suffix_rfl
      case isFalse => exact List.suffix_cons ..

/-- The blocks of a run are sound only if none of its requests has wrapped. -/
theorem along_of_sound (hnull : 0 < p.simpool) {rs : List Request} {s s' : Arena} (h : s.Packed p)
    (hrun : Lib.run (Arena.step p) rs s = some s') (hsound : Sound p s') :
    Lib.Along (Arena.step p) (NoWrap p) rs s := by
  induction rs generalizing s with
  | nil => trivial
  | cons r rs ih =>
    obtain ⟨t, hstep, hrest⟩ := Lib.run_cons hrun
    have hwrap : NoWrap p s r := by
      by_contra hwrap
      obtain ⟨b, hb, hout⟩ := outside_of_wrap h hnull hwrap hstep
      exact hout (hsound.1 b ((blocks_suffix hrest).subset hb))
    exact (Lib.along_cons hstep).mpr ⟨hwrap, ih (h.step hwrap hstep) hrest⟩

/-- **Blocks of any size.** After any calls of `malloc` and `calloc` by one thread, the blocks that
were returned have the bytes asked for, are in the pool and disjoint, exactly when every call
on the way that passes the limit test ends, with its slack, below `2^64`. -/
theorem requests_sound_iff (hnull : 0 < p.simpool) (rs : List Request) :
    ∃ s, Lib.run (Arena.step p) rs (Arena.start p) = some s ∧
      (Sound p s ↔ Lib.Along (Arena.step p) (NoWrap p) rs (Arena.start p)) := by
  have htotal (s : Arena) : ∃ s', Lib.run (Arena.step p) rs s = some s' := by
    induction rs generalizing s with
    | nil => exact ⟨s, rfl⟩
    | cons r rs ih => exact ih _
  obtain ⟨s, hrun⟩ := htotal (Arena.start p)
  refine ⟨s, hrun, along_of_sound hnull Arena.packed_start hrun, fun halong => ?_⟩
  have hpacked : s.Packed p :=
    Lib.run_invariant_along (fun _ _ _ h hwrap hstep => h.step hwrap hstep) Arena.packed_start halong hrun
  exact hpacked.sound

/-- Requests of ordinary sizes. -/
theorem requests_sound_small : ∃ s,
    Lib.run (Arena.step lowPool) [.malloc 100, .calloc 10 20] (Arena.start lowPool) = some s ∧
      Sound lowPool s := by
  obtain ⟨s, hrun, hiff⟩ := requests_sound_iff (p := lowPool) (by decide) [.malloc 100, .calloc 10 20]
  exact ⟨s, hrun, hiff.mpr (by decide)⟩

/-- A product that is 0 modulo `2^64`, and a size that sets the top back: the block of the
`calloc` has no byte, and the last block overlaps the one before the large one. -/
theorem requests_wrap :
    (∃ s, Lib.run (Arena.step lowPool) [.calloc 0x100000000 0x100000000] (Arena.start lowPool) = some s ∧
      ¬Sound lowPool s) ∧
    ∃ s, Lib.run (Arena.step lowPool) [.malloc 64, .malloc (-80), .malloc 64] (Arena.start lowPool)
      = some s ∧ ¬s.blocks.Pairwise Block.Disjoint := by
  constructor
  · have hrun : (Lib.run (Arena.step lowPool) [.calloc 0x100000000 0x100000000]
        (Arena.start lowPool)).map (·.blocks) = some [⟨0x10000000, 2 ^ 64⟩] := by decide +kernel
    obtain ⟨s, hs, hblocks⟩ := Option.map_eq_some_iff.mp hrun
    refine ⟨s, hs, ?_⟩
    intro hsound
    have hinside := hsound.1 ⟨0x10000000, 2 ^ 64⟩ (hblocks ▸ List.mem_cons_self)
    exact absurd hinside.2 (by decide)
  · have hrun : (Lib.run (Arena.step lowPool) [.malloc 64, .malloc (-80), .malloc 64]
        (Arena.start lowPool)).map (·.blocks) =
        some [⟨0x10000010, 64⟩, ⟨0x10000050, 2 ^ 64 - 80⟩, ⟨0x10000000, 64⟩] := by decide +kernel
    obtain ⟨s, hs, hblocks⟩ := Option.map_eq_some_iff.mp hrun
    refine ⟨s, hs, ?_⟩
    intro hdisjoint
    rw [hblocks, List.pairwise_cons] at hdisjoint
    exact hdisjoint.1 ⟨0x10000000, 64⟩ (by decide) 0x10000010 (by decide)

/-! ## A thread alone -/

/-- A thread that is not interrupted goes through its steps as one call. -/
theorem malloc_alone {s : Heap} {t size : Nat} (hidle : s.threads t = .idle) (hsize : size ≤ poolsize)
    (htop : s.pooltop ≠ 0) :
    ∃ as s', Lib.run (Heap.step p) (.malloc t size :: as) s = some s' ∧ (∀ a ∈ as, a = .step t) ∧
      s'.threads t = .idle ∧ s'.pooltop = (malloc p s.pooltop size).2 ∧
      s'.blocks = if (malloc p s.pooltop size).1 = 0 then s.blocks
        else ⟨(malloc p s.pooltop size).1, size⟩ :: s.blocks := by
  by_cases hlimit : p.simpool + poolsize < afterOf s.pooltop size
  · refine ⟨[.step t, .step t], s.setThread t .idle, ?_, by simp, Function.update_self .., ?_, ?_⟩
    · simp [Lib.run, Heap.step, Heap.setThread, hidle, hsize, hlimit]
    · rw [malloc, if_pos hlimit]
      rfl
    · rw [malloc, if_pos hlimit, if_pos rfl]
      rfl
  · refine ⟨[.step t, .step t, .step t, .step t],
      { s.setThread t .idle with pooltop := newtopOf (afterOf s.pooltop size),
                                 blocks := ⟨s.pooltop, size⟩ :: s.blocks },
      ?_, by simp, Function.update_self .., ?_, ?_⟩
    · simp [Lib.run, Heap.step, Heap.setThread, hidle, hsize, hlimit]
    · rw [malloc, if_neg hlimit]
    · rw [malloc, if_neg hlimit, if_neg htop]

end Cavatools.Uspike
