import Cavatools.Lib.Digits
import Cavatools.Caveat.CacheLru

/-!
# What a miss reports in `*evicted`

cache.h describes `evicted` as the tag of the evicted line, 0 if clean. A miss
overwrites the tag of the way it replaces before it reads that tag for the
report, so of a dirty line it is the new line number that is reported.

`victim` is the way that a lookup replaces, if it misses: the last of its
row's order, where the walk ends. `writeBack` is what the caller would have to
write back of it, the line number if the bit is set and 0 otherwise. Both are
functions of the cache before the lookup, so the theorem can speak of the
right report without running the code that makes it.

`lookup_evicted` has the two cases of a lookup. It hits and leaves `evicted`
alone, or it replaces the victim and reports the number of its own line if the
victim was dirty, else 0. Hence the report is right when the victim is clean,
and of a dirty one only if the two lines are kept as the same tag. A miss
excludes that, unless lines are of one byte, where a tag is a bit too short
for a line number. `evicted_iff` states this for the miss behind any run of
lookups on a writable cache, where a pointer to report through is there.
-/

namespace Cavatools.Caveat

open Uspike (Long)

namespace cache_t

variable (c : cache_t)

/-- The row of an address. -/
def rowAt (addr : Long) : Nat := c.index (c.lineOf addr)

/-- The way that a lookup replaces, if it misses: where the walk ends. -/
def victim (addr : Long) : Option Nat :=
  let start := (c.states (c.rowAt addr)).toNat
  match c.walk (c.lineOf addr) (c.rowAt addr) (start + c.ways) start with
  | some (false, _, way) => some way
  | _ => none

end cache_t

/-- What is to be written back of a way: the line number if it is dirty, else 0. -/
def writeBack (t : tag_t) : Long := if t.dirty then t.addr.signExtend 64 else 0

/-! ## One lookup -/

/-- A walk that ends without a hit ends at a way that holds another line. -/
theorem walk_miss {c : cache_t} {line : Long} {row fin p q way : Nat}
    (h : c.walk line row fin p = some (false, q, way)) : line ≠ (c.tags way row).addr.signExtend 64 := by
  fun_induction cache_t.walk c line row fin p with
  | case1 => cases h
  | case2 => cases h
  -- the rest of the walk
  | case3 p way' hway hne hlt ih => exact ih h
  | case4 p way' hway hne hend =>
    cases h
    exact hne

/-- The report of a miss: the line that comes, if the one that goes is dirty. -/
theorem refill_evicted {c c' : cache_t} {line : Long} {row way : Nat} (hwritable : c.evicted.isSome)
    (h : c.refill line row way = some c') :
    c'.evicted = some (if (c.tags way row).dirty then (line.setWidth 63).signExtend 64 else 0) := by
  obtain ⟨v, hv⟩ := Option.isSome_iff_exists.mp hwritable
  unfold cache_t.refill at h
  dsimp only at h
  rw [hv] at h
  split at h
  case isTrue hd =>
    cases h
    rw [if_pos hd]
    rfl
  case isFalse hd =>
    cases h
    rw [if_neg hd]
    rfl

theorem touchTag_evicted (c : cache_t) (way row : Nat) (write : Bool) :
    (c.touchTag way row write).evicted = c.evicted := by
  cases write <;> rfl

theorem setState_evicted (c : cache_t) (row : Nat) (s : BitVec 16) :
    (c.setState row s).evicted = c.evicted := rfl

/-- A lookup hits and leaves `evicted` alone, or it replaces the victim and reports. -/
theorem lookup_evicted {c c' : cache_t} (hwritable : c.evicted.isSome) {addr : Long} {write hit : Bool}
    (h : c.lookup addr write = some (hit, c')) :
    (hit = true ∧ c'.evicted = c.evicted) ∨
    (hit = false ∧ ∃ way, c.victim addr = some way ∧
      c.lineOf addr ≠ (c.tags way (c.rowAt addr)).addr.signExtend 64 ∧
      c'.evicted = some (if (c.tags way (c.rowAt addr)).dirty then
        ((c.lineOf addr).setWidth 63).signExtend 64 else 0)) := by
  obtain ⟨p, way, c₁, s, hwalk, hc₁, rfl⟩ := cache_t.lookup_walks h
  change c.walk (c.lineOf addr) (c.rowAt addr) ((c.states (c.rowAt addr)).toNat + c.ways)
    (c.states (c.rowAt addr)).toNat = some (hit, p, way) at hwalk
  rw [touchTag_evicted, setState_evicted]
  cases hit with
  | true =>
    obtain rfl := Option.some.inj hc₁
    exact Or.inl ⟨rfl, rfl⟩
  | false =>
    rw [if_neg (by simp)] at hc₁
    refine Or.inr ⟨rfl, way, ?_, walk_miss hwalk,
      refill_evicted (c := { c with _refs := c._refs + 1 }) hwritable hc₁⟩
    unfold cache_t.victim
    dsimp only
    rw [hwalk]

/-! ## Runs -/

theorem lookup_writable {c c' : cache_t} {addr : Long} {write hit : Bool}
    (hwritable : c.evicted.isSome) (h : c.lookup addr write = some (hit, c')) : c'.evicted.isSome := by
  rcases lookup_evicted hwritable h with ⟨-, heq⟩ | ⟨-, way, -, -, heq⟩
  · rw [heq]
    exact hwritable
  · rw [heq]
    rfl

theorem lookups_writable {c c' : cache_t} {calls : List (Long × Bool)} {hits : List Bool}
    (hwritable : c.evicted.isSome) (h : c.lookups calls = some (hits, c')) : c'.evicted.isSome := by
  induction calls generalizing c hits with
  | nil =>
    cases h
    exact hwritable
  | cons a calls ih =>
    obtain ⟨hit, c₁, hits', hlookup, hrest, rfl⟩ := lookups_cons.mp h
    exact ih (lookup_writable hwritable hlookup) hrest

/-- **What a miss reports.** In a run of lookups on a writable cache, the report of a miss is
the line to write back exactly when the replaced line is clean. One case apart: with lines of
one byte a line number has a bit more than a tag keeps, and a line that differs from the dirty
one in that bit only is reported by the same number. -/
theorem evicted_iff {c c₁ c₂ : cache_t} (hwritable : c.evicted.isSome)
    {calls : List (Long × Bool)} {hits : List Bool} (hrun : c.lookups calls = some (hits, c₁))
    {addr : Long} {write : Bool} (hmiss : c₁.lookup addr write = some (false, c₂)) :
    ∃ way, c₁.victim addr = some way ∧
      (c₂.evicted = some (writeBack (c₁.tags way (c₁.rowAt addr))) ↔
        (c₁.tags way (c₁.rowAt addr)).dirty = false ∨
          c₁.lg_line = 0 ∧ (c₁.tags way (c₁.rowAt addr)).addr = (c₁.lineOf addr).setWidth 63) := by
  rcases lookup_evicted (lookups_writable hwritable hrun) hmiss with
    ⟨hhit, -⟩ | ⟨-, way, hvictim, hother, hreport⟩
  · cases hhit
  refine ⟨way, hvictim, ?_⟩
  rw [hreport, writeBack, Option.some_inj]
  cases hd : (c₁.tags way (c₁.rowAt addr)).dirty with
  | false =>
    rw [if_neg (by simp), if_neg (by simp)]
    exact iff_of_true rfl (Or.inl rfl)
  | true =>
    rw [if_pos rfl, if_pos rfl, Lib.signExtend_inj (by omega), eq_comm]
    constructor
    · intro h
      refine Or.inr ⟨?_, h⟩
      -- a line of two bytes or more fits its tag, and the walk has found another one there
      by_contra hline
      apply hother
      rw [h, signExtend_line (by omega)]
    · rintro (h | ⟨-, h⟩)
      · cases h
      · exact h

/-- One way: the second line replaces the first, which has only been read. -/
theorem evicted_iff_clean : ∃ g, geometry 1 6 0 = some g ∧ ∃ hits c₁ c₂ way,
    (cache_t.make 15 g true).lookups [(0x40, false)] = some (hits, c₁) ∧
    c₁.lookup 0x80 false = some (false, c₂) ∧
    c₂.evicted = some (writeBack (c₁.tags way (c₁.rowAt 0x80))) := by
  have hrun : (geometry 1 6 0).map (fun g =>
      ((cache_t.make 15 g true).lookups [(0x40, false)]).map fun r =>
        ((r.2.lookup 0x80 false).map Prod.fst, (r.2.victim 0x80).map fun way =>
          (r.2.tags way (r.2.rowAt 0x80)).dirty)) = some (some (some false, some false)) := by
    decide +kernel
  obtain ⟨g, hg, hrun⟩ := Option.map_eq_some_iff.mp hrun
  obtain ⟨⟨hits, c₁⟩, hlookups, hrun⟩ := Option.map_eq_some_iff.mp hrun
  obtain ⟨hlookup, hclean⟩ := Prod.mk.inj hrun
  obtain ⟨⟨hit, c₂⟩, hlookup, hhit⟩ := Option.map_eq_some_iff.mp hlookup
  obtain rfl : hit = false := hhit
  obtain ⟨way', hvictim', hdirty⟩ := Option.map_eq_some_iff.mp hclean
  obtain ⟨way, hvictim, hiff⟩ := evicted_iff (c := cache_t.make 15 g true) rfl hlookups hlookup
  obtain rfl : way' = way := Option.some.inj (hvictim'.symm.trans hvictim)
  exact ⟨g, hg, hits, c₁, c₂, way', hlookups, hlookup, hiff.mpr (Or.inl hdirty)⟩

/-- The same after a write: the line to write back is 1, and 2 is reported. -/
theorem evicted_overwritten : ∃ g, geometry 1 6 0 = some g ∧ ∃ hits c₁ c₂ way,
    (cache_t.make 15 g true).lookups [(0x40, true)] = some (hits, c₁) ∧
    c₁.lookup 0x80 false = some (false, c₂) ∧ c₁.victim 0x80 = some way ∧
    c₂.evicted ≠ some (writeBack (c₁.tags way (c₁.rowAt 0x80))) := by
  have hrun : (geometry 1 6 0).map (fun g =>
      ((cache_t.make 15 g true).lookups [(0x40, true)]).map fun r =>
        ((r.2.lookup 0x80 false).map fun r' => (r'.1, r'.2.evicted), (r.2.victim 0x80).map fun way =>
          writeBack (r.2.tags way (r.2.rowAt 0x80))))
      = some (some (some (false, some 2), some 1)) := by
    decide +kernel
  obtain ⟨g, hg, hrun⟩ := Option.map_eq_some_iff.mp hrun
  obtain ⟨⟨hits, c₁⟩, hlookups, hrun⟩ := Option.map_eq_some_iff.mp hrun
  obtain ⟨hlookup, hheld⟩ := Prod.mk.inj hrun
  obtain ⟨⟨hit, c₂⟩, hlookup, hreport⟩ := Option.map_eq_some_iff.mp hlookup
  obtain ⟨hhit, hreport⟩ := Prod.mk.inj hreport
  obtain rfl : hit = false := hhit
  obtain ⟨way, hvictim, hheld⟩ := Option.map_eq_some_iff.mp hheld
  refine ⟨g, hg, hits, c₁, c₂, way, hlookups, hlookup, hvictim, ?_⟩
  rw [hheld, show c₂.evicted = some 2 from hreport]
  decide

end Cavatools.Caveat
