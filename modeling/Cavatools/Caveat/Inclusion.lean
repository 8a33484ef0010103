import Cavatools.Caveat.CacheLru

/-!
# More ways never miss more

Two caches with the same lines and rows, the second with at least as many
ways, under the same lookups from `flush`. Under least-recently-used
replacement the second never misses where the first hits.

Nothing in the code makes that plain: the two caches walk different generated
tables, which number the orders of their ways in different ways, and empty
ways count as line 0. The argument is therefore made on the recency lists that
both are proved to be. A run that ends returns what the uses of these lists do
(`lookups_hits`), each row of the first cache holds the front of the list of
the same row of the second (`Lib.uses_prefix`), and so a hit in the first is a
hit in the second, lookup by lookup.

The counter follows from the returned values: `missed` counts the misses among
them, a run adds that number to `misses()` (`lookups_misses`), and fewer hits
are more misses (`missed_antitone`). The main result `misses_antitone` has
both, the hits and the counters.
-/

namespace Cavatools.Caveat

open Uspike (Long)

/-- The misses that a list of returned values stands for. -/
def missed : List Bool → Int
  | [] => 0
  | hit :: hits => (if hit then 0 else 1) + missed hits

/-- A run of lookups counts the misses it returns. -/
theorem lookups_misses {c c' : cache_t} {calls : List (Long × Bool)} {hits : List Bool}
    (hrun : c.lookups calls = some (hits, c')) : c'._misses = c._misses + missed hits := by
  induction calls generalizing c hits with
  | nil =>
    obtain ⟨rfl, rfl⟩ := Prod.mk.inj (Option.some.inj hrun)
    exact (Int.add_zero _).symm
  | cons a calls ih =>
    obtain ⟨hit, c₁, rest, hlookup, hrest, rfl⟩ := lookups_cons.mp hrun
    rw [ih hrest, (cache_t.lookup_counts hlookup).2.1, missed]
    ring

/-- Where every hit of the first list is a hit of the second, the second has no more misses. -/
theorem missed_antitone {hits hits' : List Bool}
    (h : List.Forall₂ (fun hit hit' => hit = true → hit' = true) hits hits') :
    missed hits' ≤ missed hits := by
  induction h with
  | nil => exact le_rfl
  | @cons hit hit' hits hits' himp _ ih =>
    unfold missed
    cases hit with
    | true =>
      -- a hit in the first is one in the second
      rw [himp rfl]
      omega
    -- a miss counts whatever the second does
    | false => cases hit' <;> simp <;> omega

/-- A run that ends returns what the uses of its rows' recency lists do. -/
theorem lookups_hits {w lin row : Nat} (hw : 1 ≤ w ∧ w ≤ 4) (hlin : 1 ≤ lin) (hrow : row ≤ 30)
    {c c' : cache_t} (hc : some c.toGeometry = geometry w lin row) {calls : List (Long × Bool)}
    {hits : List Bool} (hrun : c.flush.lookups calls = some (hits, c')) :
    hits = (Lib.uses (rowOf row) (fun _ => List.replicate w 0)
      (calls.map fun a => a.1.sshiftRight lin)).1 := by
  obtain ⟨fsm, states, hgeo, -, hok⟩ := geometry_ok hw.1 hw.2 lin row
  rw [hgeo] at hc
  obtain ⟨⟨fsm', w', lin', row'⟩, p, tags, sts, ev, refs, misses, updates, evictions⟩ := c
  obtain ⟨rfl, rfl, rfl, rfl⟩ := Geometry.mk.inj (Option.some.inj hc)
  have htracks := tracks_flush (c := ⟨⟨fsm', w', lin', row'⟩, p, tags, sts, ev, refs, misses, updates,
    evictions⟩) hok hw.1 hlin hrow
  -- the run ended, so it is not the one that asserts
  rcases lookups_spec htracks (holds_flush htracks) calls with ⟨c₁, hlru, -⟩ | ⟨hnone, -⟩
  · rw [hlru] at hrun
    exact (congrArg Prod.fst (Option.some.inj hrun)).symm
  · rw [hnone] at hrun
    cases hrun

/-- **More ways never miss more.** For caches of the same lines and rows and `w ≤ v`
ways, and any lookups from `flush` that both caches serve: what hits in the first hits in
the second, and the second has added no more misses to its count. -/
theorem misses_antitone {w v lin row : Nat} (hw : 1 ≤ w ∧ w ≤ v ∧ v ≤ 4) (hlin : 1 ≤ lin ∧ lin ≤ 30)
    (hrow : row ≤ 30) {c d : cache_t} (hc : some c.toGeometry = geometry w lin row)
    (hd : some d.toGeometry = geometry v lin row) {calls : List (Long × Bool)}
    {hits hits' : List Bool} {c' d' : cache_t} (hcrun : c.flush.lookups calls = some (hits, c'))
    (hdrun : d.flush.lookups calls = some (hits', d')) :
    List.Forall₂ (fun hit hit' => hit = true → hit' = true) hits hits' ∧
      d'._misses - d._misses ≤ c'._misses - c._misses := by
  -- `flush` fills every row with line 0, so the first is a front of the second
  have hfront : List.replicate w (0 : Long) <+: List.replicate v 0 := by
    rw [← Nat.add_sub_cancel' hw.2.1, List.replicate_add]
    exact List.prefix_append _ _
  have himp : List.Forall₂ (fun hit hit' => hit = true → hit' = true) hits hits' := by
    rw [lookups_hits ⟨hw.1, by omega⟩ hlin.1 hrow hc hcrun,
      lookups_hits ⟨by omega, hw.2.2⟩ hlin.1 hrow hd hdrun]
    exact Lib.uses_prefix _ (fun _ => hfront) _
  refine ⟨himp, ?_⟩
  have hless := missed_antitone himp
  have hcmiss : c'._misses = c._misses + missed hits := lookups_misses (c := c.flush) hcrun
  have hdmiss : d'._misses = d._misses + missed hits' := lookups_misses (c := d.flush) hdrun
  omega

/-- Two lines in turn, in one row of one way and of two. -/
theorem misses_antitone_inTurn : ∃ g ∈ geometry 1 6 0, ∃ g' ∈ geometry 2 6 0, ∃ hits c' hits' d',
    (cache_t.make 15 g true).flush.lookups [(0x40, true), (0x80, false), (0x40, false)]
        = some (hits, c') ∧
      (cache_t.make 15 g' true).flush.lookups [(0x40, true), (0x80, false), (0x40, false)]
        = some (hits', d') ∧
      List.Forall₂ (fun hit hit' => hit = true → hit' = true) hits hits' ∧
      d'._misses - 0 ≤ c'._misses - 0 := by
  have hone : ((geometry 1 6 0).bind fun g => (cache_t.make 15 g true).flush.lookups
      [(0x40, true), (0x80, false), (0x40, false)]).isSome = true := by decide +kernel
  have htwo : ((geometry 2 6 0).bind fun g => (cache_t.make 15 g true).flush.lookups
      [(0x40, true), (0x80, false), (0x40, false)]).isSome = true := by decide +kernel
  obtain ⟨⟨hits, c'⟩, hone⟩ := Option.isSome_iff_exists.mp hone
  obtain ⟨⟨hits', d'⟩, htwo⟩ := Option.isSome_iff_exists.mp htwo
  obtain ⟨g, hg, hcrun⟩ := Option.bind_eq_some_iff.mp hone
  obtain ⟨g', hg', hdrun⟩ := Option.bind_eq_some_iff.mp htwo
  obtain ⟨himp, hless⟩ := misses_antitone (c := cache_t.make 15 g true) (d := cache_t.make 15 g' true)
    ⟨by decide, by decide, by decide⟩ ⟨by decide, by decide⟩ (by decide) hg.symm hg'.symm hcrun hdrun
  exact ⟨g, hg, g', hg', hits, c', hits', d', hcrun, hdrun, himp, hless⟩

end Cavatools.Caveat
