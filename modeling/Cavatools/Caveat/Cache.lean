import Cavatools.Caveat.MakeCache
import Cavatools.Uspike.Insn

/-!
# `cache_t`

A set-associative cache model with counters, as cache.h and cache.cc have it.
The line of an address is a row and a tag in one: the row is its low bits, and
the tag keeps the whole number in 63 bits beside the dirty bit (`tag_t`).

The replacement state of a row is one number, `ways` times the number of an
order of the ways. `fsm` is a table that make_cache generates: the entries of
one order stand in a row, each names a way and the state that moves this way
to the front. The pointer of the code points one entry before the first, so
the walk of `lookup` increments before it reads (`walk`); it stops at the
first way that holds the line, or at the last of the order, which is then the
victim. `refill` and `touchTag` are the two branches behind it, and `access`
puts them together.

Nothing is assumed of the table or of the states here. A lookup has no value
where the C++ would index an array out of range or store through the null
`evicted` of a cache that is not writable; that the first never happens in a
run from `flush` is a theorem of a later file, and when the second happens is
one too. The geometry comes from the constructor, which exits for any number
of ways but one to four.

The lemmas take a lookup that returns apart once: where its walk ends and what
it does there (`lookup_walks`), and what it does to the counters
(`lookup_counts`).
-/

namespace Cavatools.Caveat

open Uspike (Long)

/-- `struct tag_t`: a dirty bit and 63 bits of line number. -/
structure tag_t where
  dirty : Bool
  addr : BitVec 63
  deriving DecidableEq, Repr

/-- What the constructor fixes. -/
structure Geometry where
  fsm : List lru_fsm_t
  ways : Nat
  lg_line : Nat
  lg_rows : Nat
  deriving DecidableEq, Repr

/-- The constructor's part of a cache: `cache_fsm_Nway` for one to four ways, and
the process exits for any other number. -/
def geometry (w lin row : Nat) : Option Geometry :=
  if 1 ≤ w ∧ w ≤ 4 then (cache_fsm w (w.factorial + 1)).map fun fsm => ⟨fsm, w, lin, row⟩ else none

structure cache_t extends Geometry where
  _penalty : Int
  tags : Nat → Nat → tag_t
  states : Nat → BitVec 16
  /-- What `evicted` points to; `none` is the null pointer of a cache that is not writable. -/
  evicted : Option Long
  _refs : Int
  _misses : Int
  _updates : Int
  _evictions : Int

namespace cache_t

variable (c : cache_t)

def rows : Nat := 2 ^ c.lg_rows
def row_mask : Long := BitVec.ofNat 64 (c.rows - 1)

def flush : cache_t := { c with tags := fun _ _ => ⟨false, 0⟩, states := fun _ => 0 }

/-- The constructor. -/
def make (miss : Int) (g : Geometry) (writeable : Bool) : cache_t :=
  flush { g with
    _penalty := miss, tags := fun _ _ => ⟨false, 0⟩, states := fun _ => 0,
    evicted := if writeable then some 0 else none,
    _refs := 0, _misses := 0, _updates := 0, _evictions := 0 }

/-! ## lookup -/

/-- The line of an address, a row and a tag in one. -/
def lineOf (addr : Long) : Long := addr.sshiftRight c.lg_line

def index (line : Long) : Nat := (line &&& c.row_mask).toNat

/-- The way that entry `p` of the table names, if the table and the tags have it. -/
def wayAt (p : Nat) (index : Nat) : Option Nat :=
  match c.fsm[p]? with
  | none => none
  | some e => if e.way.toNat < c.ways ∧ index < c.rows then some e.way.toNat else none

/-- The `do` loop from `p`: whether it hit, and the entry and the way it ended at. -/
def walk (line : Long) (index fin p : Nat) : Option (Bool × Nat × Nat) :=
  match c.wayAt (p + 1) index with
  | none => none
  | some way =>
    if line = (c.tags way index).addr.signExtend 64 then some (true, p + 1, way)
    else if p + 1 < fin then walk line index fin (p + 1)
    else some (false, p + 1, way)
termination_by fin - p

def setTag (way row : Nat) (t : tag_t) : cache_t :=
  { c with tags := fun w r => if w = way ∧ r = row then t else c.tags w r }

def setState (row : Nat) (s : BitVec 16) : cache_t :=
  { c with states := Function.update c.states row s }

/-- The miss: the tag is overwritten before it is looked at for `*evicted`. -/
def refill (line : Long) (index way : Nat) : Option cache_t :=
  let tag : tag_t := { c.tags way index with addr := line.setWidth 63 }
  let c := { c with _misses := c._misses + 1 }
  if tag.dirty then
    match c.evicted with
    | none => none
    | some _ =>
      some ({ c with evicted := some (tag.addr.signExtend 64), _evictions := c._evictions + 1 }.setTag
        way index { tag with dirty := false })
  else some ({ c with evicted := c.evicted.map fun _ => 0 }.setTag way index tag)

/-- `if (write) { tag->dirty = 1; _updates++; }`. -/
def touchTag (way index : Nat) (write : Bool) : cache_t :=
  if write then
    { c with _updates := c._updates + 1 }.setTag way index { c.tags way index with dirty := true }
  else c

/-- `lookup` from the walk on, for a line and its row. -/
def access (line : Long) (index : Nat) (write : Bool) : Option (Bool × cache_t) :=
  let start := (c.states index).toNat
  match c.walk line index (start + c.ways) start with
  | none => none
  | some (hit, p, way) =>
    match (if hit then some c else c.refill line index way), c.fsm[p]? with
    | some c, some e => some (hit, (c.setState index e.next_state).touchTag way index write)
    | _, _ => none

def lookup (addr : Long) (write : Bool) : Option (Bool × cache_t) :=
  access { c with _refs := c._refs + 1 } (c.lineOf addr) (c.index (c.lineOf addr)) write

/-! ### One lookup -/

/-- The walk does not look at the counter of references. -/
theorem walk_refs (n : Int) (line : Long) (row fin p : Nat) :
    { c with _refs := n }.walk line row fin p = c.walk line row fin p := by
  fun_induction walk c line row fin p with
  | case1 p hway =>
    have hway' : ({ c with _refs := n } : cache_t).wayAt (p + 1) row = none := hway
    rw [walk, hway']
  | case2 p way hway heq =>
    have hway' : ({ c with _refs := n } : cache_t).wayAt (p + 1) row = some way := hway
    rw [walk, hway']
    exact if_pos heq
  | case3 p way hway hne hlt ih =>
    have hway' : ({ c with _refs := n } : cache_t).wayAt (p + 1) row = some way := hway
    rw [walk, hway']
    exact (if_neg hne).trans ((if_pos hlt).trans ih)
  | case4 p way hway hne hend =>
    have hway' : ({ c with _refs := n } : cache_t).wayAt (p + 1) row = some way := hway
    rw [walk, hway']
    exact (if_neg hne).trans (if_neg hend)

/-- A lookup that returns: where its walk ends, and what it does there. -/
theorem lookup_walks {c c' : cache_t} {addr : Long} {write hit : Bool}
    (h : c.lookup addr write = some (hit, c')) : ∃ p way c₁ s,
      c.walk (c.lineOf addr) (c.index (c.lineOf addr))
        ((c.states (c.index (c.lineOf addr))).toNat + c.ways)
        (c.states (c.index (c.lineOf addr))).toNat = some (hit, p, way) ∧
      (if hit then some { c with _refs := c._refs + 1 }
        else { c with _refs := c._refs + 1 }.refill (c.lineOf addr) (c.index (c.lineOf addr)) way)
          = some c₁ ∧
      c' = (c₁.setState (c.index (c.lineOf addr)) s).touchTag way (c.index (c.lineOf addr)) write := by
  rw [lookup, access] at h
  split at h
  case h_1 => cases h
  case h_2 b p way hwalk =>
    rw [walk_refs] at hwalk
    split at h
    case h_2 => cases h
    case h_1 c₁ e hc₁ he =>
      obtain ⟨rfl, rfl⟩ := Prod.mk.inj (Option.some.inj h)
      exact ⟨p, way, c₁, e.next_state, hwalk, hc₁, rfl⟩

/-! ### Its counters -/

/-- A miss is counted as one, and is no further reference. -/
theorem refill_counts {c c' : cache_t} {line : Long} {index way : Nat}
    (h : c.refill line index way = some c') :
    c'._refs = c._refs ∧ c'._misses = c._misses + 1 ∧ c'._penalty = c._penalty := by
  unfold refill at h
  dsimp only at h
  split at h
  case isTrue =>
    cases he : c.evicted with
    | none =>
      rw [he] at h
      cases h
    | some v =>
      rw [he] at h
      obtain rfl := Option.some.inj h
      exact ⟨rfl, rfl, rfl⟩
  case isFalse =>
    obtain rfl := Option.some.inj h
    exact ⟨rfl, rfl, rfl⟩

theorem touchTag_counts (c : cache_t) (way index : Nat) (write : Bool) :
    (c.touchTag way index write)._refs = c._refs ∧
      (c.touchTag way index write)._misses = c._misses ∧
      (c.touchTag way index write)._penalty = c._penalty := by
  cases write <;> exact ⟨rfl, rfl, rfl⟩

/-- A lookup is one reference, and one miss if it returns false. -/
theorem lookup_counts {c c' : cache_t} {addr : Long} {write hit : Bool}
    (h : c.lookup addr write = some (hit, c')) :
    c'._refs = c._refs + 1 ∧ c'._misses = c._misses + (if hit then 0 else 1) ∧
      c'._penalty = c._penalty := by
  obtain ⟨p, way, c₁, s, -, hc₁, rfl⟩ := lookup_walks h
  have htouch := touchTag_counts
    (c₁.setState (c.index (c.lineOf addr)) s) way (c.index (c.lineOf addr)) write
  cases hit with
  | true =>
    obtain rfl := Option.some.inj hc₁
    exact ⟨htouch.1, htouch.2.1.trans (Int.add_zero _).symm, htouch.2.2⟩
  | false =>
    obtain ⟨hrefs, hmisses, hpenalty⟩ := refill_counts hc₁
    exact ⟨htouch.1.trans hrefs, htouch.2.1.trans hmisses, htouch.2.2.trans hpenalty⟩

end cache_t

end Cavatools.Caveat
