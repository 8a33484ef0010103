import Cavatools.Lib.Run

/-!
# `malloc`

Both programs bring their own allocator: a pool that is only ever taken from
the top, with a compare-and-swap loop around the shared `pooltop`. The loop
reads `pooltop` twice, once for `after` and once for `rv`, and each read, the
limit test and the swap is a step of its own here, so that any number of
threads can interleave between them. Addresses are numbers below `2^64`.

The two reads can see different tops. The new top is made from the first one
and the swap compares with the second one, so a thread between whose reads
another one has taken a block can set the top back into that block. `Covers`
is the condition on a step that rules this out: a swap that is about to
succeed moves the top to the end of its block or beyond. It speaks of the
state before the swap; two equal reads are enough for it
(`covers_of_same_reads`).

`Packed` is the invariant: every block starts in the pool and ends below the
top, no two share a byte, and a thread behind the limit test has passed it.
Steps that only move a thread keep it, and a successful swap that covers its
block does (`step_packed`). So `malloc_disjoint` holds in every state of every
run whose successful swaps cover their blocks. The run `between` shows a block
that overlaps another one otherwise.
-/

namespace Cavatools.Uspike

def poolsize : Nat := 2 ^ 30

/-- Where the static array is; a program's data is below the canonical hole. -/
structure Pool where
  simpool : Nat
  user : simpool + poolsize ≤ 2 ^ 47

/-- `pooltop + size + 16`. -/
def afterOf (pooltop size : Nat) : Nat := (pooltop + size + 16) % 2 ^ 64

/-- `after & ~0xf`. -/
def newtopOf (after : Nat) : Nat := after - after % 16

/-- Where a thread is in `malloc(size)`, with the locals it holds there. -/
inductive Local
  | idle
  | readAfter (size : Nat)
  | testLimit (size after : Nat)
  | readRv (size after : Nat)
  | swap (size after rv : Nat)
  deriving DecidableEq

/-- A block that was returned. -/
structure Block where
  rv : Nat
  size : Nat
  deriving DecidableEq, Repr

/-- The shared top, the threads, and the non-null blocks returned so far, newest first. -/
structure Heap where
  pooltop : Nat
  threads : Nat → Local
  blocks : List Block

inductive MallocAct
  | malloc (thread size : Nat)
  | step (thread : Nat)
  deriving DecidableEq, Repr

variable (p : Pool)

def Heap.start : Heap := { pooltop := p.simpool, threads := fun _ => .idle, blocks := [] }

def Heap.setThread (s : Heap) (t : Nat) (l : Local) : Heap :=
  { s with threads := Function.update s.threads t l }

/-- One atomic step. A size of more than the pool is never asked for. -/
def Heap.step (s : Heap) : MallocAct → Option Heap
  | .malloc t size =>
    if s.threads t = .idle ∧ size ≤ poolsize then some (s.setThread t (.readAfter size)) else none
  | .step t =>
    match s.threads t with
    | .idle => none
    | .readAfter size => some (s.setThread t (.testLimit size (afterOf s.pooltop size)))
    | .testLimit size after =>
      if p.simpool + poolsize < after then some (s.setThread t .idle)
      else some (s.setThread t (.readRv size after))
    | .readRv size after => some (s.setThread t (.swap size after s.pooltop))
    | .swap size after rv =>
      if s.pooltop = rv then
        some { s.setThread t .idle with pooltop := newtopOf after, blocks := ⟨rv, size⟩ :: s.blocks }
      else some (s.setThread t (.readAfter size))

/-! ## Blocks -/

def Block.Disjoint (a b : Block) : Prop :=
  ∀ x, ¬((a.rv ≤ x ∧ x < a.rv + a.size) ∧ (b.rv ≤ x ∧ x < b.rv + b.size))

/-- The block lies in the pool. -/
def Block.Inside (b : Block) : Prop := p.simpool ≤ b.rv ∧ b.rv + b.size ≤ p.simpool + poolsize

/-- A swap that is about to succeed moves the top to the end of its block or beyond. -/
def Covers (s : Heap) : MallocAct → Prop
  | .malloc _ _ => True
  | .step t =>
    match s.threads t with
    | .swap size after rv => s.pooltop = rv → rv + size ≤ newtopOf after
    | _ => True

instance (s : Heap) : (a : MallocAct) → Decidable (Covers s a)
  | .malloc _ _ => isTrue trivial
  | .step t =>
    match h : s.threads t with
    | .swap size after rv =>
      decidable_of_iff (s.pooltop = rv → rv + size ≤ newtopOf after) (by simp only [Covers, h])
    | .idle | .readAfter _ | .testLimit _ _ | .readRv _ _ => isTrue (by simp only [Covers, h])

/-- Two equal reads are enough. -/
theorem covers_of_same_reads {size rv : Nat} (hsize : size ≤ poolsize)
    (hrv : rv ≤ p.simpool + poolsize) : rv + size ≤ newtopOf (afterOf rv size) := by
  have huser := p.user
  have hpool : poolsize = 2 ^ 30 := rfl
  have hmod : (rv + size + 16) % 2 ^ 64 = rv + size + 16 := Nat.mod_eq_of_lt (by omega)
  unfold newtopOf afterOf
  rw [hmod]
  omega

/-- A thread behind the limit test has passed it. -/
def Tested : Local → Prop
  | .readRv _ after => after ≤ p.simpool + poolsize
  | .swap _ after _ => after ≤ p.simpool + poolsize
  | _ => True

/-- Every block starts in the pool and ends below the top. -/
structure Packed (s : Heap) : Prop where
  bottom : p.simpool ≤ s.pooltop
  top : s.pooltop ≤ p.simpool + poolsize
  blocks : ∀ b ∈ s.blocks, p.simpool ≤ b.rv ∧ b.rv + b.size ≤ s.pooltop
  disjoint : s.blocks.Pairwise Block.Disjoint
  tested : ∀ t, Tested p (s.threads t)

variable {p}

theorem newtopOf_le (after : Nat) : newtopOf after ≤ after := Nat.sub_le ..

theorem packed_start : Packed p (Heap.start p) :=
  ⟨le_rfl, Nat.le_add_right .., fun _ hb => (by cases hb), List.Pairwise.nil, fun _ => trivial⟩

/-- A step that only moves a thread. -/
theorem packed_setThread {s : Heap} (hs : Packed p s) {t : Nat} {l : Local}
    (hl : Tested p l) : Packed p (s.setThread t l) := by
  refine ⟨hs.bottom, hs.top, hs.blocks, hs.disjoint, ?_⟩
  intro u
  show Tested p (Function.update s.threads t l u)
  by_cases hu : u = t
  · rw [hu, Function.update_self]
    exact hl
  · rw [Function.update_of_ne hu]
    exact hs.tested u

/-- **One step**: a call, a read, the test, or the swap, which returns the block under the new top.
-/
theorem step_packed {s s' : Heap} {a : MallocAct} (hs : Packed p s) (hc : Covers s a)
    (hstep : s.step p a = some s') : Packed p s' := by
  cases a with
  | malloc t size =>
    rw [Heap.step] at hstep
    split at hstep
    case isTrue =>
      obtain rfl := Option.some.inj hstep
      exact packed_setThread hs trivial
    case isFalse => cases hstep
  | step t =>
    have htested := hs.tested t
    rw [Heap.step] at hstep
    split at hstep
    case h_1 => cases hstep
    case h_2 size hl =>
      obtain rfl := Option.some.inj hstep
      exact packed_setThread hs trivial
    case h_3 size after hl =>
      split at hstep
      case isTrue =>
        obtain rfl := Option.some.inj hstep
        exact packed_setThread hs trivial
      case isFalse hlimit =>
        obtain rfl := Option.some.inj hstep
        exact packed_setThread hs (Nat.le_of_not_lt hlimit)
    case h_4 size after hl =>
      rw [hl] at htested
      obtain rfl := Option.some.inj hstep
      exact packed_setThread hs htested
    case h_5 size after rv hl =>
      rw [hl] at htested
      split at hstep
      case isTrue htop =>
        obtain rfl := Option.some.inj hstep
        have hcover : rv + size ≤ newtopOf after := by
          rw [Covers, hl] at hc
          exact hc htop
        have hbottom := hs.bottom
        refine ⟨?_, (newtopOf_le after).trans htested, ?_, ?_, ?_⟩
        · show p.simpool ≤ newtopOf after
          omega
        · intro b hb
          show p.simpool ≤ b.rv ∧ b.rv + b.size ≤ newtopOf after
          rcases List.mem_cons.mp hb with rfl | hold
          · dsimp only
            exact ⟨by omega, hcover⟩
          · have := hs.blocks b hold
            omega
        · refine List.pairwise_cons.mpr ⟨?_, hs.disjoint⟩
          intro b hb x hx
          -- The new block starts where every older one has ended.
          have := (hs.blocks b hb).2
          dsimp only at hx
          omega
        · exact (packed_setThread (t := t) (l := .idle) hs trivial).tested
      case isFalse =>
        obtain rfl := Option.some.inj hstep
        exact packed_setThread hs trivial

/-- **Blocks are disjoint and inside the pool** in every state of every run whose
successful swaps cover their blocks. -/
theorem malloc_disjoint {as : List MallocAct} {s : Heap}
    (hrun : Lib.run (Heap.step p) as (Heap.start p) = some s)
    (hcovers : Lib.Along (Heap.step p) Covers as (Heap.start p)) :
    s.blocks.Pairwise Block.Disjoint ∧ ∀ b ∈ s.blocks, b.Inside p := by
  have hpacked : Packed p s :=
    Lib.run_invariant_along (fun _ _ _ hs hc hstep => step_packed hs hc hstep) packed_start hcovers hrun
  refine ⟨hpacked.disjoint, ?_⟩
  intro b hb
  have hblock := hpacked.blocks b hb
  have htop := hpacked.top
  exact ⟨hblock.1, by omega⟩

/-- A pool at a round address. -/
def lowPool : Pool := ⟨0x10000000, by decide⟩

/-- Two threads, one after the other. -/
def inTurn : List MallocAct :=
  [.malloc 0 16, .step 0, .step 0, .step 0, .step 0, .malloc 1 1000, .step 1, .step 1, .step 1, .step 1]

theorem malloc_disjoint_inTurn : ∃ s, Lib.run (Heap.step lowPool) inTurn (Heap.start lowPool) = some s ∧
    s.blocks.Pairwise Block.Disjoint ∧ ∀ b ∈ s.blocks, b.Inside lowPool := by
  obtain ⟨s, hs⟩ := Option.isSome_iff_exists.mp
    (show (Lib.run (Heap.step lowPool) inTurn (Heap.start lowPool)).isSome = true by decide +kernel)
  exact ⟨s, hs, malloc_disjoint hs (by decide +kernel)⟩

/-- Thread 1 takes a block between the two reads of thread 0, which then sets the top
back below that block. -/
def between : List MallocAct :=
  [.malloc 0 16, .step 0, .step 0, .malloc 1 1000, .step 1, .step 1, .step 1, .step 1,
    .step 0, .step 0, .malloc 1 1000, .step 1, .step 1, .step 1, .step 1]

/-- The third block overlaps the first. -/
theorem between_overlap : ∃ s, Lib.run (Heap.step lowPool) between (Heap.start lowPool) = some s ∧
    ¬s.blocks.Pairwise Block.Disjoint := by
  have hrun : (Lib.run (Heap.step lowPool) between (Heap.start lowPool)).map (·.blocks)
      = some [⟨0x10000020, 1000⟩, ⟨0x100003f0, 16⟩, ⟨0x10000000, 1000⟩] := by decide +kernel
  obtain ⟨s, hs, hblocks⟩ := Option.map_eq_some_iff.mp hrun
  refine ⟨s, hs, ?_⟩
  intro hdisjoint
  rw [hblocks, List.pairwise_cons] at hdisjoint
  exact hdisjoint.1 ⟨0x10000000, 1000⟩ (by decide) 0x10000020 (by decide)

end Cavatools.Uspike
