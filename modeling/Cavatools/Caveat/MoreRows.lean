import Cavatools.Caveat.Inclusion
import Cavatools.Lib.StackDistance

/-!
# Stack distances of lookups

Whether a lookup hits is decided by the lookups before it alone: how many
different lines of its row came since the last lookup of its line. This is
Mattson's law for the cache of cache.h, and it does not mention its tags, its
states or its tables.

`linesBefore` are the lines of the lookups up to one of them, and `reuse` is
the stack distance of a line in its row. A run that ends returns the hits of
rows of recency lists that start out with line 0 (`lookups_rowsAfter`), since
an empty way counts as that line. So `hits_iff_distance` is the law of
`Lib.StackDistance` with the lines of the run: the lookup hits exactly if its
line was looked up before, or is line 0, and fewer than `ways` others of its
row were since.

Distances get smaller when the rows are split up, and a cache of more ways
tolerates larger ones. So a cache with as many rows and ways or more hits
wherever the smaller one does (`more_rows_antitone`), and it misses no more
often. Twice the rows split each row in two, because the row of a line is its
low bits.

All this is for lines of two bytes or more, where a tag keeps the whole line
number, and for up to 2^30 rows.
-/

namespace Cavatools.Caveat

open Uspike (Long)

/-- The lines of the first `k` lookups, the last one first. -/
def linesBefore (c : cache_t) (calls : List (Long × Bool)) (k : Nat) : List Long :=
  ((calls.map fun a => c.lineOf a.1).take k).reverse

/-- The number of other lines of the row that were looked up since the line was; all that were
looked up, if it was not. -/
def reuse (c : cache_t) (calls : List (Long × Bool)) (k : Nat) (line : Long) : Nat :=
  Lib.distance ((linesBefore c calls k).filter (rowOf c.lg_rows · = rowOf c.lg_rows line)) line

/-- A run that ends returns the hits of rows of `w` places that start out with line 0. -/
theorem lookups_rowsAfter {w lin row : Nat} {c c' : cache_t} (hgeo : geometry w lin row = some c.toGeometry)
    (hlin : 1 ≤ lin) (hrow : row ≤ 30) {calls : List (Long × Bool)} {hits : List Bool}
    (hrun : c.flush.lookups calls = some (hits, c')) : ∃ n, w = n + 1 ∧
      hits = (Lib.uses (rowOf row) (Lib.rowsAfter (rowOf row) (n + 1) 0 [])
        (calls.map fun a => a.1.sshiftRight lin)).1 := by
  obtain ⟨_, hw, hw4, -, -, -, -⟩ := geometry_some hgeo
  obtain ⟨n, rfl⟩ : ∃ n, w = n + 1 := ⟨w - 1, by omega⟩
  refine ⟨n, rfl, ?_⟩
  rw [Lib.rowsAfter_nil]
  exact lookups_hits ⟨hw, hw4⟩ hlin hrow hgeo.symm hrun

/-- **What hits.** In a run of lookups from `flush`, on a cache of any geometry whose lines are of
two bytes or more, a lookup hits exactly if its line was looked up before, or is line 0, and
fewer other lines of its row than there are ways were looked up since. -/
theorem hits_iff_distance {w lin row : Nat} {c c' : cache_t}
    (hgeo : geometry w lin row = some c.toGeometry) (hlin : 1 ≤ lin) (hrow : row ≤ 30)
    {calls : List (Long × Bool)} {hits : List Bool} (hrun : c.flush.lookups calls = some (hits, c'))
    {k : Nat} {addr : Long} {write hit : Bool} (hcall : calls[k]? = some (addr, write))
    (hhit : hits[k]? = some hit) :
    hit = true ↔ (c.lineOf addr = 0 ∨ c.lineOf addr ∈ linesBefore c calls k) ∧
      reuse c calls k (c.lineOf addr) < w := by
  obtain ⟨n, rfl, rfl⟩ := lookups_rowsAfter hgeo hlin hrow hrun
  obtain ⟨_, -, -, -, -, hline, hrows⟩ := geometry_some hgeo
  have hlines : (calls.map fun a => a.1.sshiftRight lin) = calls.map fun a => c.lineOf a.1 := by
    rw [← hline]
    rfl
  have hk : (calls.map fun a => c.lineOf a.1)[k]? = some (c.lineOf addr) := by
    rw [List.getElem?_map, hcall]
    rfl
  rw [hlines] at hhit
  have hiff := Lib.uses_hit_iff (rowOf row) hk hhit
  rw [List.append_nil] at hiff
  unfold reuse linesBefore
  rw [hrows]
  exact hiff

/-- Line 1, two others in its row of two ways, and line 1 again. -/
theorem hits_iff_distance_again : ∃ g, geometry 2 6 0 = some g ∧ ∃ hits c' hit,
    (cache_t.make 15 g true).flush.lookups [(0x40, false), (0x80, false), (0xc0, true), (0x40, false)]
      = some (hits, c') ∧ hits[3]? = some hit ∧ hit = false := by
  have hrun : (geometry 2 6 0).map (fun g => ((cache_t.make 15 g true).flush.lookups
      [(0x40, false), (0x80, false), (0xc0, true), (0x40, false)]).map fun r => r.1[3]?.isSome)
        = some (some true) := by decide +kernel
  obtain ⟨g, hg, hrun⟩ := Option.map_eq_some_iff.mp hrun
  obtain ⟨⟨hits, c'⟩, hlookups, hsome⟩ := Option.map_eq_some_iff.mp hrun
  obtain ⟨hit, hhit⟩ := Option.isSome_iff_exists.mp hsome
  refine ⟨g, hg, hits, c', hit, hlookups, hhit, Bool.eq_false_iff.mpr fun hyes => ?_⟩
  obtain ⟨-, -, -, -, -, hline, hrows⟩ := geometry_some hg
  have hreuse := ((hits_iff_distance (c := cache_t.make 15 g true) hg (by decide) (by decide) hlookups rfl
    hhit).mp hyes).2
  -- lines 3 and 2 since
  revert hreuse
  unfold reuse linesBefore cache_t.lineOf
  rw [show (cache_t.make 15 g true).lg_line = 6 from hline, show (cache_t.make 15 g true).lg_rows = 0 from hrows]
  decide

/-- **More rows and ways never miss more.** For caches of the same lines, the second with at least
as many rows and ways, and any lookups from `flush` that both caches serve: what hits in the
first hits in the second, and the second has added no more misses to its count. -/
theorem more_rows_antitone {w v lin row row' : Nat} (hw : w ≤ v) (hrows : row ≤ row') (hrow : row' ≤ 30)
    (hlin : 1 ≤ lin) {c d : cache_t} (hc : geometry w lin row = some c.toGeometry)
    (hd : geometry v lin row' = some d.toGeometry) {calls : List (Long × Bool)} {hits hits' : List Bool}
    {c' d' : cache_t} (hcrun : c.flush.lookups calls = some (hits, c'))
    (hdrun : d.flush.lookups calls = some (hits', d')) :
    List.Forall₂ (fun hit hit' => hit = true → hit' = true) hits hits' ∧
      d'._misses - d._misses ≤ c'._misses - c._misses := by
  obtain ⟨n, rfl, rfl⟩ := lookups_rowsAfter hc hlin (hrows.trans hrow) hcrun
  obtain ⟨n', rfl, rfl⟩ := lookups_rowsAfter hd hlin hrow hdrun
  -- lines of one row of the second are of one row of the first
  have hfiner (a b : Long) (h : rowOf row' a = rowOf row' b) : rowOf row a = rowOf row b := by
    have hdvd : 2 ^ row ∣ 2 ^ row' := Nat.pow_dvd_pow 2 hrows
    have hmod := congrArg (· % 2 ^ row) h
    simp only [rowOf, Nat.mod_mod_of_dvd _ hdvd] at hmod
    exact hmod
  have himp := Lib.uses_refine hfiner (Nat.le_of_succ_le_succ hw) (0 : Long) []
    (calls.map fun a => a.1.sshiftRight lin)
  refine ⟨himp, ?_⟩
  have hless := missed_antitone himp
  have hcmiss := lookups_misses hcrun
  have hdmiss := lookups_misses hdrun
  have hcflush : c.flush._misses = c._misses := rfl
  have hdflush : d.flush._misses = d._misses := rfl
  omega

/-- Two lines in turn, in one row and in two. -/
theorem more_rows_antitone_inTurn : ∃ g ∈ geometry 1 6 0, ∃ g' ∈ geometry 1 6 1, ∃ hits c' hits' d',
    (cache_t.make 15 g true).flush.lookups [(0x40, true), (0x80, false), (0x40, false)] = some (hits, c') ∧
      (cache_t.make 15 g' true).flush.lookups [(0x40, true), (0x80, false), (0x40, false)]
        = some (hits', d') ∧ d'._misses - 0 ≤ c'._misses - 0 := by
  have hone : ((geometry 1 6 0).bind fun g => (cache_t.make 15 g true).flush.lookups
      [(0x40, true), (0x80, false), (0x40, false)]).isSome = true := by decide +kernel
  have htwo : ((geometry 1 6 1).bind fun g => (cache_t.make 15 g true).flush.lookups
      [(0x40, true), (0x80, false), (0x40, false)]).isSome = true := by decide +kernel
  obtain ⟨⟨hits, c'⟩, hone⟩ := Option.isSome_iff_exists.mp hone
  obtain ⟨⟨hits', d'⟩, htwo⟩ := Option.isSome_iff_exists.mp htwo
  obtain ⟨g, hg, hcrun⟩ := Option.bind_eq_some_iff.mp hone
  obtain ⟨g', hg', hdrun⟩ := Option.bind_eq_some_iff.mp htwo
  have hless := (more_rows_antitone (c := cache_t.make 15 g true) (d := cache_t.make 15 g' true) le_rfl
    (by decide) (by decide) (by decide) hg hg' hcrun hdrun).2
  exact ⟨g, hg, g', hg', hits, c', hits', d', hcrun, hdrun, hless⟩

end Cavatools.Caveat
