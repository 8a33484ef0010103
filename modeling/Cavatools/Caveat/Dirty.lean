import Cavatools.Caveat.Evicted

/-!
# Dirty lines

A write sets the dirty bit of the way that serves it, and a miss clears the
bit of the way it fills, at different exits of `lookup`. What the bits and the
counters mean is only visible over a run.

A run of lookups leaves a history of what served each of them (`Served`: the
way, whether it hit, whether it was a write, and the bit that was there
before). One lookup changes the bits and the counters as its entry in the
history says (`Serves`, `lookup_serves`), and a run is a chain of such entries
(`Serving`, `lookups_serve`). Off the history one reads

- when a way is dirty: a write was served by it and it has not been filled
  since (`WrittenSinceFill`, `Serving.dirty_iff`);
- what the counters hold: `updates` the writes, `evictions` the misses that
  replaced a dirty line (`Serving.updates`, `Serving.evictions`);
- that every dirty way and every eviction is paid for by a write
  (`Serving.conserves`).

`dirty_accounting` is all of it for runs from `flush`. A lookup without a
value is one that stores through a null `evicted`, and that takes a dirty
line: runs of reads return, find no dirty line and leave none (`reads_clean`,
`Serving.clean`). For that part alone the walk has to be followed, and the
invariant `Tracks` is borrowed from the same cache with longer lines
(`twoByte`), since the replacement order does not look at the size of a line.
-/

namespace Cavatools.Caveat

open Uspike (Long)

/-- What served one lookup: the way that the walk ended at, whether it hit, whether it was to
be written, and the dirty bit that the lookup found there. -/
structure Served where
  row : Nat
  way : Nat
  hit : Bool
  write : Bool
  dirty : Bool
  deriving DecidableEq, Repr

namespace cache_t

variable (c : cache_t)

def served (addr : Long) (write : Bool) : Option Served :=
  let start := (c.states (c.rowAt addr)).toNat
  (c.walk (c.lineOf addr) (c.rowAt addr) (start + c.ways) start).map fun (hit, _, way) =>
    ⟨c.rowAt addr, way, hit, write, (c.tags way (c.rowAt addr)).dirty⟩

/-- What served each of a sequence of lookups. -/
def history (c : cache_t) : List (Long × Bool) → Option (List Served)
  | [] => some []
  | (addr, write) :: calls => do
    let s ← c.served addr write
    let (_, c) ← c.lookup addr write
    let history ← history c calls
    return s :: history

/-- The number of dirty ways, over all rows. -/
def dirtyWays : Nat :=
  ∑ p ∈ Finset.range c.ways ×ˢ Finset.range c.rows, (c.tags p.1 p.2).dirty.toNat

end cache_t

/-- The way of this row served the lookup. -/
def Served.At (s : Served) (way row : Nat) : Prop := s.way = way ∧ s.row = row

/-- A write was served by the way, and the way has not been filled since. -/
def WrittenSinceFill (history : List Served) (way row : Nat) : Prop :=
  ∃ before s after, history = before ++ s :: after ∧ s.At way row ∧ s.write = true ∧
    ∀ t ∈ after, t.At way row → t.hit = true

/-- The misses that replaced a dirty line. -/
def dirtyMisses (history : List Served) : Nat := history.countP fun s => !s.hit && s.dirty

/-! ## One lookup -/

/-- What a lookup does to the dirty bits and to the counters. -/
structure Serves (c : cache_t) (s : Served) (c' : cache_t) : Prop where
  found : s.dirty = (c.tags s.way s.row).dirty
  way : s.way < c.ways
  row : s.row < c.rows
  geometry : c'.toGeometry = c.toGeometry
  self : (c'.tags s.way s.row).dirty = (s.write || (s.hit && s.dirty))
  other : ∀ way row, ¬s.At way row → (c'.tags way row).dirty = (c.tags way row).dirty
  updates : c'._updates = c._updates + s.write.toNat
  evictions : c'._evictions = c._evictions + (!s.hit && s.dirty).toNat

theorem wayAt_lt {c : cache_t} {p row way : Nat} (h : c.wayAt p row = some way) :
    way < c.ways ∧ row < c.rows := by
  unfold cache_t.wayAt at h
  split at h
  case h_1 => cases h
  case h_2 e _ =>
    split at h
    case isTrue hin =>
      cases h
      exact hin
    case isFalse => cases h

/-- A walk that ends has ended at a way and a row of the cache. -/
theorem walk_lt {c : cache_t} {line : Long} {row fin p q way : Nat} {hit : Bool}
    (h : c.walk line row fin p = some (hit, q, way)) : way < c.ways ∧ row < c.rows := by
  fun_induction cache_t.walk c line row fin p with
  | case1 => cases h
  | case2 p way' hway _ =>
    cases h
    exact wayAt_lt hway
  -- the rest of the walk
  | case3 p way' hway hne hlt ih => exact ih h
  | case4 p way' hway hne hend =>
    cases h
    exact wayAt_lt hway

/-- A miss leaves the way clean, and counts an eviction if it was dirty. -/
theorem refill_dirty {c c' : cache_t} {line : Long} {row way : Nat}
    (h : c.refill line row way = some c') :
    c'.toGeometry = c.toGeometry ∧ (c'.tags way row).dirty = false ∧
      (∀ w r, ¬(w = way ∧ r = row) → c'.tags w r = c.tags w r) ∧
      c'._updates = c._updates ∧ c'._evictions = c._evictions + (c.tags way row).dirty.toNat := by
  unfold cache_t.refill at h
  dsimp only at h
  cases hd : (c.tags way row).dirty with
  | true =>
    rw [hd, if_pos rfl] at h
    cases he : c.evicted with
    -- the store through the null `evicted`
    | none =>
      rw [he] at h
      cases h
    | some v =>
      rw [he] at h
      cases h
      exact ⟨rfl, congrArg tag_t.dirty (if_pos ⟨rfl, rfl⟩), fun w r hne => if_neg hne, rfl, rfl⟩
  | false =>
    rw [hd, if_neg Bool.false_ne_true] at h
    cases h
    exact ⟨rfl, congrArg tag_t.dirty (if_pos ⟨rfl, rfl⟩), fun w r hne => if_neg hne, rfl,
      (Int.add_zero _).symm⟩

theorem touchTag_self (c : cache_t) (way row : Nat) (write : Bool) :
    ((c.touchTag way row write).tags way row).dirty = (write || (c.tags way row).dirty) := by
  cases write with
  | false => rfl
  | true => exact congrArg tag_t.dirty (if_pos ⟨rfl, rfl⟩)

theorem touchTag_other (c : cache_t) {way row w r : Nat} (write : Bool) (h : ¬(w = way ∧ r = row)) :
    (c.touchTag way row write).tags w r = c.tags w r := by
  cases write with
  | false => rfl
  | true => exact if_neg h

theorem touchTag_counters (c : cache_t) (way row : Nat) (write : Bool) :
    (c.touchTag way row write)._updates = c._updates + write.toNat ∧
      (c.touchTag way row write)._evictions = c._evictions := by
  cases write with
  | false => exact ⟨(Int.add_zero _).symm, rfl⟩
  | true => exact ⟨rfl, rfl⟩

/-- A lookup that returns was served by some way. -/
theorem lookup_serves {c c' : cache_t} {addr : Long} {write hit : Bool}
    (h : c.lookup addr write = some (hit, c')) :
    ∃ s, c.served addr write = some s ∧ s.hit = hit ∧ s.write = write ∧ Serves c s c' := by
  obtain ⟨p, way, c₁, s, hwalk, hc₁, rfl⟩ := cache_t.lookup_walks h
  change c.walk (c.lineOf addr) (c.rowAt addr) ((c.states (c.rowAt addr)).toNat + c.ways)
    (c.states (c.rowAt addr)).toNat = some (hit, p, way) at hwalk
  obtain ⟨hway, hrow⟩ := walk_lt hwalk
  have hgeo (c₁ : cache_t) (s : BitVec 16) :
      ((c₁.setState (c.rowAt addr) s).touchTag way (c.rowAt addr) write).toGeometry =
        c₁.toGeometry := (touchTag_same _ way (c.rowAt addr) write).geometry
  have hself := touchTag_self (c₁.setState (c.rowAt addr) s) way (c.rowAt addr) write
  have hother (w r : Nat) (hne : ¬(w = way ∧ r = c.rowAt addr)) :=
    touchTag_other (c₁.setState (c.rowAt addr) s) write hne
  obtain ⟨hupdates, hevictions⟩ :=
    touchTag_counters (c₁.setState (c.rowAt addr) s) way (c.rowAt addr) write
  refine ⟨⟨c.rowAt addr, way, hit, write, (c.tags way (c.rowAt addr)).dirty⟩, ?_, rfl, rfl, ?_⟩
  · unfold cache_t.served
    dsimp only
    rw [hwalk]
    rfl
  cases hit with
  | true =>
    obtain rfl := Option.some.inj hc₁
    exact ⟨rfl, hway, hrow, hgeo _ _, hself,
      fun w r hne => congrArg tag_t.dirty (hother w r fun h => hne ⟨h.1.symm, h.2.symm⟩),
      hupdates, hevictions.trans (Int.add_zero _).symm⟩
  | false =>
    rw [if_neg Bool.false_ne_true] at hc₁
    obtain ⟨hgeo₁, hclean, hkeep, hup₁, hev₁⟩ := refill_dirty hc₁
    refine ⟨rfl, hway, hrow, (hgeo _ _).trans hgeo₁, ?_, fun w r hne => ?_, ?_, hevictions.trans hev₁⟩
    · exact hself.trans (congrArg (write || ·) hclean)
    · have hne' : ¬(w = way ∧ r = c.rowAt addr) := fun h => hne ⟨h.1.symm, h.2.symm⟩
      exact congrArg tag_t.dirty ((hother w r hne').trans (hkeep w r hne'))
    · exact hupdates.trans (congrArg (· + _) hup₁)

/-! ## Runs -/

/-- A run of lookups, by what served them. -/
inductive Serving : cache_t → List Served → cache_t → Prop
  | nil (c : cache_t) : Serving c [] c
  | cons {c c₁ c' : cache_t} {s : Served} {history : List Served} :
    Serves c s c₁ → Serving c₁ history c' → Serving c (s :: history) c'

/-- A run that returns has a history, which agrees with what was asked and what was returned. -/
theorem lookups_serve {c c' : cache_t} {calls : List (Long × Bool)} {hits : List Bool}
    (h : c.lookups calls = some (hits, c')) :
    ∃ history, c.history calls = some history ∧ history.map Served.hit = hits ∧
      history.map Served.write = calls.map Prod.snd ∧ Serving c history c' := by
  induction calls generalizing c hits with
  | nil =>
    cases h
    exact ⟨[], rfl, rfl, rfl, Serving.nil _⟩
  | cons a calls ih =>
    obtain ⟨hit, c₁, hits', hlookup, hrest, rfl⟩ := lookups_cons.mp h
    obtain ⟨s, hserved, hhit, hwrite, hs⟩ := lookup_serves hlookup
    obtain ⟨history, hhistory, hhits, hwrites, hrun⟩ := ih hrest
    refine ⟨s :: history, ?_, ?_, ?_, Serving.cons hs hrun⟩
    · unfold cache_t.history
      simp only [hserved, hlookup, hhistory, Option.bind_eq_bind, Option.bind_some]
      rfl
    · rw [List.map_cons, hhit, hhits]
    · rw [List.map_cons, List.map_cons, hwrite, hwrites]

theorem Serving.geometry {c c' : cache_t} {history : List Served} (h : Serving c history c') :
    c'.toGeometry = c.toGeometry := by
  induction h with
  | nil c => rfl
  | cons hs _ ih => exact ih.trans hs.geometry

/-- In front of a history: a way has been written since its fill if the rest has a write that no
fill follows, or if this lookup wrote it and the rest never fills it. -/
theorem writtenSinceFill_cons {s : Served} {history : List Served} {way row : Nat} :
    WrittenSinceFill (s :: history) way row ↔ WrittenSinceFill history way row ∨
      s.At way row ∧ s.write = true ∧ ∀ t ∈ history, t.At way row → t.hit = true := by
  constructor
  · intro hall
    obtain ⟨before, t, after, heq, hat, hwrite, hafter⟩ := hall
    cases before with
    | nil =>
      obtain ⟨rfl, rfl⟩ := List.cons.inj heq
      exact Or.inr ⟨hat, hwrite, hafter⟩
    | cons b before =>
      obtain ⟨-, rfl⟩ := List.cons.inj heq
      exact Or.inl ⟨before, t, after, rfl, hat, hwrite, hafter⟩
  · intro hall
    rcases hall with ⟨before, t, after, rfl, hat, hwrite, hafter⟩ | ⟨hat, hwrite, hafter⟩
    · exact ⟨s :: before, t, after, rfl, hat, hwrite, hafter⟩
    · exact ⟨[], s, history, rfl, hat, hwrite, hafter⟩

/-- A way is dirty after a run if it was written since it was filled, or was dirty before
and has not been filled. -/
theorem Serving.dirty_iff {c c' : cache_t} {history : List Served} (h : Serving c history c')
    (way row : Nat) :
    (c'.tags way row).dirty = true ↔ WrittenSinceFill history way row ∨
      (c.tags way row).dirty = true ∧ ∀ t ∈ history, t.At way row → t.hit = true := by
  induction h with
  | nil c =>
    constructor
    · intro hd
      exact Or.inr ⟨hd, fun t ht => absurd ht List.not_mem_nil⟩
    · intro hall
      rcases hall with ⟨before, s, after, heq, -⟩ | ⟨hd, -⟩
      · exact absurd heq.symm (by simp)
      · exact hd
  | @cons c c₁ c' s history hs _ ih =>
    rw [ih, writtenSinceFill_cons, or_assoc]
    refine or_congr_right ?_
    rw [List.forall_mem_cons]
    by_cases hat : s.At way row
    · obtain ⟨rfl, rfl⟩ := id hat
      rw [hs.self, Bool.or_eq_true, Bool.and_eq_true, hs.found]
      tauto
    · rw [hs.other way row hat]
      tauto

theorem countP_bit (b : Bool) : (if b = true then 1 else 0) = b.toNat := by
  cases b <;> rfl

theorem Serving.updates {c c' : cache_t} {history : List Served} (h : Serving c history c') :
    c'._updates = c._updates + history.countP Served.write := by
  induction h with
  | nil c => exact (Int.add_zero _).symm
  | @cons c c₁ c' s history hs _ ih =>
    rw [ih, hs.updates, List.countP_cons, countP_bit, Nat.cast_add]
    omega

theorem Serving.evictions {c c' : cache_t} {history : List Served} (h : Serving c history c') :
    c'._evictions = c._evictions + dirtyMisses history := by
  induction h with
  | nil c => exact (Int.add_zero _).symm
  | @cons c c₁ c' s history hs _ ih =>
    unfold dirtyMisses at ih ⊢
    rw [ih, hs.evictions, List.countP_cons, countP_bit, Nat.cast_add]
    omega

/-- The dirty ways change by what becomes of the way that served. -/
theorem Serves.dirtyWays {c c' : cache_t} {s : Served} (h : Serves c s c') :
    c'.dirtyWays + s.dirty.toNat = c.dirtyWays + (s.write || (s.hit && s.dirty)).toNat := by
  have hmem : (s.way, s.row) ∈ Finset.range c.ways ×ˢ Finset.range c.rows :=
    Finset.mem_product.mpr ⟨Finset.mem_range.mpr h.way, Finset.mem_range.mpr h.row⟩
  have hways : c'.ways = c.ways := congrArg Geometry.ways h.geometry
  have hrows : c'.rows = c.rows := congrArg (2 ^ ·) (congrArg Geometry.lg_rows h.geometry)
  unfold cache_t.dirtyWays
  rw [hways, hrows, ← Finset.add_sum_erase _ _ hmem, ← Finset.add_sum_erase _ _ hmem]
  have hrest : ∑ p ∈ (Finset.range c.ways ×ˢ Finset.range c.rows).erase (s.way, s.row),
        (c'.tags p.1 p.2).dirty.toNat =
      ∑ p ∈ (Finset.range c.ways ×ˢ Finset.range c.rows).erase (s.way, s.row),
        (c.tags p.1 p.2).dirty.toNat := by
    refine Finset.sum_congr rfl fun p hp => ?_
    have hne : ¬s.At p.1 p.2 := fun hat => (Finset.mem_erase.mp hp).1 (Prod.ext hat.1.symm hat.2.symm)
    rw [h.other p.1 p.2 hne]
  rw [hrest, h.self, h.found]
  dsimp only
  omega

/-- What an eviction and a dirty way cost is there before, or is the write. -/
theorem evicted_le (hit write dirty : Bool) :
    (!hit && dirty).toNat + (write || (hit && dirty)).toNat ≤ write.toNat + dirty.toNat := by
  revert hit write dirty
  decide

/-- Every dirty way and every eviction is paid for by a write. -/
theorem Serving.conserves {c c' : cache_t} {history : List Served} (h : Serving c history c') :
    c'._evictions + c'.dirtyWays - c'._updates ≤ c._evictions + c.dirtyWays - c._updates := by
  induction h with
  | nil c => exact le_rfl
  | @cons c c₁ c' s history hs _ ih =>
    have hways := hs.dirtyWays
    have hpaid := evicted_le s.hit s.write s.dirty
    have hevictions := hs.evictions
    have hupdates := hs.updates
    omega

/-! ## Clean rows

The replacement order does not look at the size of a line, so what `Tracks` says of a cache
with lines of two bytes holds of one with lines of any size. -/

/-- The same cache with lines of two bytes. -/
def twoByte (c : cache_t) : cache_t := { c with lg_line := 1 }

/-- The walk does not look at the size of a line. -/
theorem walk_twoByte (c : cache_t) (line : Long) (row fin p : Nat) :
    (twoByte c).walk line row fin p = c.walk line row fin p := by
  fun_induction cache_t.walk c line row fin p with
  | case1 p hway =>
    have hway' : (twoByte c).wayAt (p + 1) row = none := hway
    rw [cache_t.walk, hway']
  | case2 p way hway heq =>
    have hway' : (twoByte c).wayAt (p + 1) row = some way := hway
    rw [cache_t.walk, hway']
    exact if_pos heq
  | case3 p way hway hne hlt ih =>
    have hway' : (twoByte c).wayAt (p + 1) row = some way := hway
    rw [cache_t.walk, hway']
    exact (if_neg hne).trans ((if_pos hlt).trans ih)
  | case4 p way hway hne hend =>
    have hway' : (twoByte c).wayAt (p + 1) row = some way := hway
    rw [cache_t.walk, hway']
    exact (if_neg hne).trans (if_neg hend)

theorem twoByte_touchTag (c : cache_t) (r way : Nat) (s : BitVec 16) (write : Bool) :
    twoByte ((c.setState r s).touchTag way r write) =
      ((twoByte c).setState r s).touchTag way r write := by
  cases write <;> rfl

/-- A lookup in a row without a dirty line returns. -/
theorem access_clean {states : List State} {c : cache_t} (h : Tracks states (twoByte c)) {r : Nat}
    (hr : r < c.rows) (hclean : ∀ w, (c.tags w r).dirty = false) (line : Long) (write : Bool) :
    ∃ hit c', c.access line r write = some (hit, c') ∧ Tracks states (twoByte c') := by
  obtain ⟨k, hk, hstart, hget⟩ := exists_number h hr
  obtain ⟨hit, m, w, -, hw, hwalk, -, -, -⟩ := walk_spec h hr line hk hget h.ways
  obtain ⟨-, e, k', he, hk', hns, hnext⟩ := entry_at h hr hk hget hw
  rw [Nat.add_zero, walk_twoByte] at hwalk
  have hstart' : (c.states r).toNat = c.ways * k := hstart
  have hwalk' : c.walk line r (c.ways * k + c.ways) (c.ways * k) =
    some (hit, c.ways * k + m + 1, w) := hwalk
  have he' : c.fsm[c.ways * k + m + 1]? = some e := he
  have hadvance (c₁ : cache_t) (hgeo : (twoByte c₁).toGeometry = (twoByte c).toGeometry)
      (hst : c₁.states = c.states) :
      Tracks states (twoByte ((c₁.setState r e.next_state).touchTag w r write)) := by
    rw [twoByte_touchTag, hns]
    exact (advance_spec h r w hgeo hst hk' hnext write).1
  rw [cache_t.access, hstart', hwalk']
  dsimp only
  rw [he']
  cases hit with
  | true =>
    rw [if_pos rfl]
    exact ⟨true, _, rfl, hadvance c rfl rfl⟩
  | false =>
    rw [if_neg Bool.false_ne_true]
    rcases refill_spec c line r w with ⟨c₁, hc₁, hgeo₁, hst₁, -⟩ | ⟨-, -, hdirty⟩
    · rw [hc₁]
      refine ⟨false, _, rfl, hadvance c₁ ?_ hst₁⟩
      show { c₁.toGeometry with lg_line := 1 } = _
      rw [hgeo₁]
      rfl
    · rw [hclean w] at hdirty
      cases hdirty

/-- A read of a cache without a dirty line leaves none. -/
theorem Serves.clean {c c' : cache_t} {s : Served} (h : Serves c s c')
    (hclean : ∀ w r, (c.tags w r).dirty = false) (hread : s.write = false) (w r : Nat) :
    (c'.tags w r).dirty = false := by
  by_cases hat : s.At w r
  · obtain ⟨rfl, rfl⟩ := id hat
    rw [h.self, h.found, hclean, hread, Bool.and_false]
    rfl
  · exact (h.other w r hat).trans (hclean w r)

/-- Reads of a cache without a dirty line return. -/
theorem reads_clean {states : List State} {c : cache_t} (h : Tracks states (twoByte c))
    (hclean : ∀ w r, (c.tags w r).dirty = false) {calls : List (Long × Bool)}
    (hreads : ∀ a ∈ calls, a.2 = false) :
    ∃ hits c', c.lookups calls = some (hits, c') := by
  induction calls generalizing c with
  | nil => exact ⟨[], c, rfl⟩
  | cons a calls ih =>
    obtain ⟨addr, write⟩ := a
    obtain ⟨rfl, hreads'⟩ := List.forall_mem_cons.mp hreads
    have hindex : c.index (c.lineOf addr) < c.rows := index_lt h (c.lineOf addr)
    have hrefs : Tracks states (twoByte { c with _refs := c._refs + 1 }) :=
      ⟨h.fsm, h.ways, h.line, h.rows, h.state⟩
    obtain ⟨hit, c₁, hlookup, htracks⟩ :=
      access_clean hrefs hindex (fun w => hclean w _) (c.lineOf addr) false
    have hlookup' : c.lookup addr false = some (hit, c₁) := hlookup
    obtain ⟨s, -, -, hwrite, hs⟩ := lookup_serves hlookup'
    obtain ⟨hits, c', hrest⟩ := ih htracks (hs.clean hclean hwrite) hreads'
    exact ⟨hit :: hits, c', lookups_cons.mpr ⟨hit, c₁, hits, hlookup', hrest, rfl⟩⟩

/-- Reads of a cache without a dirty line find and leave none. -/
theorem Serving.clean {c c' : cache_t} {history : List Served} (h : Serving c history c')
    (hclean : ∀ w r, (c.tags w r).dirty = false) (hreads : ∀ s ∈ history, s.write = false) :
    (∀ s ∈ history, s.dirty = false) ∧ ∀ w r, (c'.tags w r).dirty = false := by
  induction h with
  | nil c => exact ⟨fun s hs => absurd hs List.not_mem_nil, hclean⟩
  | @cons c c₁ c' s history hs _ ih =>
    obtain ⟨hwrite, hreads⟩ := List.forall_mem_cons.mp hreads
    obtain ⟨hhistory, hlast⟩ := ih (hs.clean hclean hwrite) hreads
    exact ⟨List.forall_mem_cons.mpr ⟨hs.found.trans (hclean _ _), hhistory⟩, hlast⟩

/-! ## From `flush` -/

theorem dirtyWays_flush (c : cache_t) : c.flush.dirtyWays = 0 :=
  Finset.sum_eq_zero fun _ _ => rfl

theorem tracks_twoByte {c : cache_t} {w lin row : Nat} (hgeo : geometry w lin row = some c.toGeometry)
    (hrow : row ≤ 30) : ∃ states, Tracks states (twoByte c.flush) := by
  obtain ⟨states, hw, -, hok, rfl, rfl, rfl⟩ := geometry_some hgeo
  exact ⟨states, tracks_flush (c := twoByte c) hok hw le_rfl hrow⟩

/-- **The accounting of writes.** In a run of lookups from `flush`, a way is dirty just when a
write was served by it since it was last filled; `_updates` counts the writes, `_evictions` the
misses that replaced a dirty line, and together with the dirty ways these are never more than
the writes. `flush` leaves the counters as they were; the constructor has set them to 0.
A run of reads returns, whether or not there is an `evicted` to store through, and none of its
lookups finds a dirty line. -/
theorem dirty_accounting (c : cache_t) (calls : List (Long × Bool)) :
    (∀ hits c', c.flush.lookups calls = some (hits, c') →
      ∃ history, c.flush.history calls = some history ∧ history.map Served.hit = hits ∧
        history.map Served.write = calls.map Prod.snd ∧
        (∀ way row, (c'.tags way row).dirty = true ↔ WrittenSinceFill history way row) ∧
        c'._updates = c._updates + calls.countP Prod.snd ∧
        c'._evictions = c._evictions + dirtyMisses history ∧
        (c'._evictions - c._evictions) + c'.dirtyWays ≤ c'._updates - c._updates) ∧
    (∀ w lin row, geometry w lin row = some c.toGeometry → row ≤ 30 → (∀ a ∈ calls, a.2 = false) →
      ∃ hits c' history, c.flush.lookups calls = some (hits, c') ∧
        c.flush.history calls = some history ∧ (∀ s ∈ history, s.dirty = false) ∧
        ∀ way row, (c'.tags way row).dirty = false) := by
  constructor
  · intro hits c' h
    obtain ⟨history, hhistory, hhits, hwrites, hrun⟩ := lookups_serve h
    have hcount : history.countP Served.write = calls.countP Prod.snd := by
      have hmap := congrArg (List.countP id) hwrites
      rw [List.countP_map, List.countP_map] at hmap
      exact hmap
    have hupdates := hrun.updates
    rw [hcount] at hupdates
    refine ⟨history, hhistory, hhits, hwrites, fun way row => ?_, hupdates, hrun.evictions, ?_⟩
    · rw [hrun.dirty_iff way row]
      refine or_iff_left ?_
      intro hall
      obtain ⟨hdirty, -⟩ := hall
      cases hdirty
    · have hle := hrun.conserves
      rw [dirtyWays_flush] at hle
      have hup : c.flush._updates = c._updates := rfl
      have hev : c.flush._evictions = c._evictions := rfl
      omega
  · intro w lin row hgeo hrow hreads
    obtain ⟨states, htracks⟩ := tracks_twoByte hgeo hrow
    obtain ⟨hits, c', hrun⟩ := reads_clean htracks (fun _ _ => rfl) hreads
    obtain ⟨history, hhistory, -, hwrites, hserving⟩ := lookups_serve hrun
    have hwrite : ∀ s ∈ history, s.write = false := by
      intro s hs
      obtain ⟨a, ha, hsa⟩ := List.mem_map.mp (hwrites ▸ List.mem_map_of_mem hs)
      exact hsa ▸ hreads a ha
    obtain ⟨hfound, hleft⟩ := hserving.clean (fun _ _ => rfl) hwrite
    exact ⟨hits, c', history, hrun, hhistory, hfound, hleft⟩

/-- One way: the second line evicts the first, which has been written, and is written
itself. Reads alone do without `evicted`. -/
theorem dirty_accounting_oneWay : ∃ g, geometry 1 6 0 = some g ∧
    (∃ hits c' history,
      (cache_t.make 15 g true).flush.lookups [(0x40, true), (0x80, true)] = some (hits, c') ∧
      ((c'.tags 0 0).dirty = true ↔ WrittenSinceFill history 0 0) ∧ c'._updates = 2 ∧
      c'._evictions = dirtyMisses history ∧ c'._evictions + c'.dirtyWays ≤ 2) ∧
    ∃ hits c', (cache_t.make 15 g false).flush.lookups [(0x40, false), (0x80, false)] = some (hits, c') ∧
      (c'.tags 0 0).dirty = false := by
  have hrun : (geometry 1 6 0).map (fun g => ((cache_t.make 15 g true).flush.lookups
      [(0x40, true), (0x80, true)]).isSome) = some true := by
    decide +kernel
  obtain ⟨g, hg, hsome⟩ := Option.map_eq_some_iff.mp hrun
  obtain ⟨⟨hits, c'⟩, hlookups⟩ := Option.isSome_iff_exists.mp hsome
  obtain ⟨history, -, -, -, hdirty, hupdates, hevictions, hle⟩ :=
    (dirty_accounting (cache_t.make 15 g true) [(0x40, true), (0x80, true)]).1 hits c' hlookups
  obtain ⟨hits', c'', -, hlookups', -, -, hclean⟩ :=
    (dirty_accounting (cache_t.make 15 g false) [(0x40, false), (0x80, false)]).2 1 6 0 hg (by decide)
      (by simp)
  have hup : (cache_t.make 15 g true)._updates = 0 := rfl
  have hev : (cache_t.make 15 g true)._evictions = 0 := rfl
  rw [hup] at hupdates hle
  rw [hev] at hevictions hle
  have hwrites : [((0x40 : Long), true), (0x80, true)].countP Prod.snd = 2 := by decide
  rw [hwrites] at hupdates
  refine ⟨g, hg, ⟨hits, c', history, hlookups, hdirty 0 0, hupdates, ?_, ?_⟩, hits', c'', hlookups',
    hclean 0 0⟩
  · exact hevictions.trans (Int.zero_add _)
  · omega

end Cavatools.Caveat
