import Cavatools.Caveat.Dirty

/-!
# The first lookup of a line

An empty way is a way with tag 0, and 0 is also the number of the line at
address 0; there is no valid bit. So the first lookup of that line hits as
long as its row has an empty way, and every other line misses.

The second part is about where tags come from. A lookup writes its own line to
a tag or writes none (`lookup_tags`), so after a run from `flush` every tag is
0 or keeps a line of the run (`lookups_tags`), and what a lookup hits is one
of these (`hit_source`). A line that is neither 0 nor was looked up before
therefore misses, for every geometry. With lines of one byte that needs care:
a tag is a bit too short for a line number then, and keeps its low 63 bits
(`kept`).

The first part needs to know how many ways are still empty, which is the
invariant `Filled` of the recency lists: the lists that the cache is proved to
be start out as rows of zeros, and a row of `n` places has an empty one while
fewer than `n` different lines of it have been used (`first_lookup_zero`).
This is stated for lines of two bytes or more, where line numbers are kept
whole.

`first_lookup` puts the two together.
-/

namespace Cavatools.Caveat

open Uspike (Long)

/-- The line as a tag keeps it. -/
def kept (line : Long) : BitVec 63 := line.setWidth 63

/-! ## Where the tags come from -/

/-- A walk that hits ends at the way that holds the line. -/
theorem walk_hit {c : cache_t} {line : Long} {row fin p q way : Nat}
    (h : c.walk line row fin p = some (true, q, way)) : line = (c.tags way row).addr.signExtend 64 := by
  fun_induction cache_t.walk c line row fin p with
  | case1 => cases h
  | case2 p way' hway heq =>
    cases h
    exact heq
  -- the rest of the walk
  | case3 p way' hway hne hlt ih => exact ih h
  | case4 p way' hway hne hend => cases h

/-- A lookup writes its own line to a tag, or none; and it hits what a tag holds. -/
theorem lookup_tags {c c' : cache_t} {addr : Long} {write hit : Bool}
    (h : c.lookup addr write = some (hit, c')) :
    (∀ w r, (c'.tags w r).addr = (c.tags w r).addr ∨ (c'.tags w r).addr = kept (c.lineOf addr)) ∧
      (hit = true → ∃ w r, c.lineOf addr = (c.tags w r).addr.signExtend 64) := by
  obtain ⟨p, way, c₁, s, hwalk, hc₁, rfl⟩ := cache_t.lookup_walks h
  have htouch (w r : Nat) := (touchTag_same (c₁.setState (c.index (c.lineOf addr)) s) way
    (c.index (c.lineOf addr)) write).addr w r
  cases hit with
  | true =>
    obtain rfl := Option.some.inj hc₁
    exact ⟨fun w r => Or.inl (htouch w r), fun _ => ⟨way, _, walk_hit hwalk⟩⟩
  | false =>
    rw [if_neg Bool.false_ne_true] at hc₁
    refine ⟨fun w r => ?_, fun hf => absurd hf Bool.false_ne_true⟩
    rcases refill_spec _ (c.lineOf addr) (c.index (c.lineOf addr)) way with
      ⟨c₂, hc₂, -, -, -, hself, hother, -⟩ | ⟨hnone, -⟩
    · obtain rfl : c₂ = c₁ := Option.some.inj (hc₂.symm.trans hc₁)
      by_cases hw : w = way ∧ r = c.index (c.lineOf addr)
      · obtain ⟨rfl, rfl⟩ := hw
        exact Or.inr ((htouch _ _).trans hself)
      · exact Or.inl ((htouch w r).trans (congrArg tag_t.addr (hother w r hw)))
    · rw [hnone] at hc₁
      cases hc₁

theorem lookup_geometry {c c' : cache_t} {addr : Long} {write hit : Bool}
    (h : c.lookup addr write = some (hit, c')) : c'.toGeometry = c.toGeometry := by
  obtain ⟨s, -, -, -, hs⟩ := lookup_serves h
  exact hs.geometry

/-- After a run every tag is one from before, or a line of the run. -/
theorem lookups_tags {c c' : cache_t} {calls : List (Long × Bool)} {hits : List Bool}
    (h : c.lookups calls = some (hits, c')) (w r : Nat) :
    (c'.tags w r).addr = (c.tags w r).addr ∨
      ∃ a ∈ calls, (c'.tags w r).addr = kept (c.lineOf a.1) := by
  induction calls generalizing c hits with
  | nil =>
    cases h
    exact Or.inl rfl
  | cons a calls ih =>
    obtain ⟨hit, c₁, hits', hlookup, hrest, rfl⟩ := lookups_cons.mp h
    rcases ih hrest with hold | ⟨b, hb, htag⟩
    · rcases (lookup_tags hlookup).1 w r with hkeep | hline
      · exact Or.inl (hold.trans hkeep)
      · exact Or.inr ⟨a, List.mem_cons_self, hold.trans hline⟩
    · rw [lineOf_congr (lookup_geometry hlookup)] at htag
      exact Or.inr ⟨b, List.mem_cons_of_mem a hb, htag⟩

/-! ## The first lookup -/

/-- The lines of a row that a run of lookups uses. -/
def linesOfRow (c : cache_t) (calls : List (Long × Bool)) (row : Nat) : Finset Long :=
  ((calls.map fun a => c.lineOf a.1).filter (rowOf c.lg_rows · = row)).toFinset

section
variable {c c₁ c₂ : cache_t} {calls : List (Long × Bool)} {hits : List Bool} {addr : Long}
  {write hit : Bool}

/-- What hits is line 0, or is kept as a line before it is. -/
theorem hit_source (hrun : c.flush.lookups calls = some (hits, c₁))
    (hlookup : c₁.lookup addr write = some (hit, c₂)) (hhit : hit = true) :
    c.lineOf addr = 0 ∨ ∃ a ∈ calls, kept (c.lineOf addr) = kept (c.lineOf a.1) := by
  have hsame : c₁.lineOf = c.lineOf := by
    obtain ⟨history, -, -, -, hserving⟩ := lookups_serve hrun
    exact lineOf_congr hserving.geometry
  obtain ⟨v, r, htag⟩ := (lookup_tags hlookup).2 hhit
  rw [hsame] at htag
  rcases lookups_tags hrun v r with hzero | ⟨a, ha, hline⟩
  · rw [hzero] at htag
    exact Or.inl htag
  · refine Or.inr ⟨a, ha, ?_⟩
    rw [htag, kept, Lib.setWidth_signExtend (by omega), hline]
    rfl

/-- While its row has an empty way, the first lookup of line 0 hits. -/
theorem first_lookup_zero {w lin row : Nat} (hgeo : geometry w lin row = some c.toGeometry)
    (hlin : 1 ≤ lin) (hrow : row ≤ 30) (hrun : c.flush.lookups calls = some (hits, c₁))
    (hlookup : c₁.lookup addr write = some (hit, c₂)) (hfirst : ∀ a ∈ calls, c.lineOf a.1 ≠ 0)
    (hzero : c.lineOf addr = 0) : hit = true ↔ (linesOfRow c calls 0).card < w := by
  obtain ⟨states, hw, -, hok, rfl, rfl, rfl⟩ := geometry_some hgeo
  have htracks : Tracks states c.flush := tracks_flush hok hw hlin hrow
  -- the run is a run of uses, and so is the lookup
  rcases lookups_spec htracks (holds_flush htracks) calls with
    ⟨c', hrun', htracks₁, hgeo₁, hholds⟩ | ⟨hnone, -⟩
  case inr =>
    rw [hrun] at hnone
    cases hnone
  obtain rfl : c' = c₁ := congrArg Prod.snd (Option.some.inj (hrun'.symm.trans hrun))
  rcases lookup_spec htracks₁ addr write with ⟨hit', c₂', hlookup', haccess⟩ | ⟨hnone, -⟩
  case inr =>
    rw [hlookup] at hnone
    cases hnone
  obtain ⟨rfl, -⟩ : hit' = hit ∧ c₂' = c₂ := Prod.mk.inj (Option.some.inj (hlookup'.symm.trans hlookup))
  have hline : c'.lineOf addr = 0 := by rw [lineOf_congr hgeo₁, ← hzero]; rfl
  have hhit := (lookup_holds hholds haccess).1
  rw [hline] at hhit
  have hrow0 : rowOf c'.lg_rows 0 = 0 := Nat.zero_mod _
  -- line 0 is in its row as long as an empty way is
  have hnot : (0 : Long) ∉ calls.map fun a => c.lineOf a.1 := by
    intro hmem
    obtain ⟨a, ha, heq⟩ := List.mem_map.mp hmem
    exact hfirst a ha heq
  have hempty (r : Nat) : Lib.Filled c.ways (0 : Long) ((fun _ => ∅ : Nat → Finset Long) r)
      (List.replicate c.ways 0) := Lib.filled_replicate c.ways 0
  have hfilled := Lib.uses_filled (rowOf c.lg_rows) hw hempty hnot 0
  rw [Finset.empty_union] at hfilled
  have hnot' : (0 : Long) ∉ linesOfRow c calls 0 :=
    fun hmem => hnot (List.mem_filter.mp (List.mem_toFinset.mp hmem)).1
  rw [hhit, Lib.use, decide_eq_true_iff, hrow0]
  exact Lib.mem_filled hfilled hnot'

end

/-- **The first lookup of a line.** In a run of lookups from `flush` on a cache of any geometry
the first lookup of a line misses, except of line 0: that one hits just when fewer lines of its
row came before than there are ways. With lines of one byte another line may be kept
in the tags as this one. -/
theorem first_lookup {w lin row : Nat} {c : cache_t} (hgeo : geometry w lin row = some c.toGeometry)
    (hrow : row ≤ 30) {calls : List (Long × Bool)} {hits : List Bool} {c₁ : cache_t}
    (hrun : c.flush.lookups calls = some (hits, c₁)) {addr : Long} {write hit : Bool} {c₂ : cache_t}
    (hlookup : c₁.lookup addr write = some (hit, c₂))
    (hfirst : ∀ a ∈ calls, c.lineOf a.1 ≠ c.lineOf addr) :
    (1 ≤ lin → (hit = true ↔ c.lineOf addr = 0 ∧ (linesOfRow c calls 0).card < w)) ∧
    (lin = 0 → c.lineOf addr ≠ 0 → (∀ a ∈ calls, kept (c.lineOf a.1) ≠ kept (c.lineOf addr)) →
      hit = false) := by
  constructor
  · intro hlin
    by_cases hzero : c.lineOf addr = 0
    · rw [hzero] at hfirst
      rw [first_lookup_zero hgeo hlin hrow hrun hlookup hfirst hzero, and_iff_right hzero]
    · refine iff_of_false (fun hhit => ?_) fun h => hzero h.1
      obtain ⟨_, -, -, -, -, hline, -⟩ := geometry_some hgeo
      have hlin' : 1 ≤ c.lg_line := hline ▸ hlin
      rcases hit_source hrun hlookup hhit with h0 | ⟨a, ha, hkept⟩
      · exact hzero h0
      -- with lines of two bytes or more a tag keeps all of the line
      · apply hfirst a ha
        rw [← signExtend_line hlin' a.1, ← signExtend_line hlin' addr]
        exact congrArg (BitVec.signExtend 64) hkept.symm
  · intro _ hzero hkept
    refine Bool.eq_false_iff.mpr fun hhit => ?_
    rcases hit_source hrun hlookup hhit with h0 | ⟨a, ha, heq⟩
    · exact hzero h0
    · exact hkept a ha heq.symm

/-- Two ways: line 1 leaves one of them empty, and line 0 hits that one. -/
theorem first_lookup_twoWays : ∃ g, geometry 2 6 0 = some g ∧ ∃ hits c₁ hit c₂,
    (cache_t.make 15 g true).flush.lookups [(0x40, false)] = some (hits, c₁) ∧
    c₁.lookup 0 false = some (hit, c₂) ∧ hit = true := by
  have hrun : (geometry 2 6 0).map (fun g =>
      ((cache_t.make 15 g true).flush.lookups [(0x40, false)]).map fun r =>
        (r.2.lookup 0 false).isSome) = some (some true) := by
    decide +kernel
  obtain ⟨g, hg, hrun⟩ := Option.map_eq_some_iff.mp hrun
  obtain ⟨⟨hits, c₁⟩, hlookups, hsome⟩ := Option.map_eq_some_iff.mp hrun
  obtain ⟨⟨hit, c₂⟩, hlookup⟩ := Option.isSome_iff_exists.mp hsome
  obtain ⟨-, -, -, -, hways, hline, hrows⟩ := geometry_some hg
  have hother : ∀ a ∈ [((0x40 : Long), false)],
      (cache_t.make 15 g true).lineOf a.1 ≠ (cache_t.make 15 g true).lineOf 0 := by
    intro a ha
    obtain rfl := List.mem_singleton.mp ha
    show (0x40 : Long).sshiftRight g.lg_line ≠ (0 : Long).sshiftRight g.lg_line
    rw [hline]
    decide
  have hfirst := (first_lookup (c := cache_t.make 15 g true) hg (by decide) hlookups hlookup hother).1
    (by decide)
  refine ⟨g, hg, hits, c₁, hit, c₂, hlookups, hlookup, hfirst.mpr ⟨?_, ?_⟩⟩
  · show (0 : Long).sshiftRight g.lg_line = 0
    exact BitVec.zero_sshiftRight
  · exact Nat.lt_of_le_of_lt (List.toFinset_card_le _) (Nat.lt_succ_of_le (List.length_filter_le _ _))

/-- The very first lookup of a run, and a hit. -/
theorem first_lookup_hits : ∃ g, geometry 1 6 0 = some g ∧ ∃ c',
    (cache_t.make 15 g true).flush.lookup 0 false = some (true, c') := by
  have hrun : (geometry 1 6 0).map (fun g =>
      ((cache_t.make 15 g true).flush.lookup 0 false).map Prod.fst) = some (some true) := by
    decide +kernel
  obtain ⟨g, hg, hrun⟩ := Option.map_eq_some_iff.mp hrun
  obtain ⟨⟨hit, c'⟩, hlookup, hhit⟩ := Option.map_eq_some_iff.mp hrun
  obtain rfl : hit = true := hhit
  exact ⟨g, hg, c', hlookup⟩

end Cavatools.Caveat
