import Cavatools.Caveat.MoreRows
import Cavatools.Caveat.Transparent
import Cavatools.Uspike.Effects

/-!
# The profile of a run

What caveat measures is a function of what the program did. Each event of a
run is charged to a pc, and an access is a miss if as many other lines of its
row as the cache has ways were looked up since its line was; `profile` counts
this from the list of events alone, without caches, counters or a clock. Line
0 counts as used from the start, since an empty way is not told from it.

The link has three parts. The updates that one call of a model makes are those
that its event stands for, given the events before it (`charges`): for that
the caches have to hold the lines that were used last, which `Remembers` says
of one cache and `Cached` of both, and which one lookup keeps
(`remembers_lookup`). A counter of the core grows by what the updates add to
its parcel (`incs_cell`). And the profile of one more event is the profile
before it and what the event adds (`profile_cons`).

`Profiled` is the invariant that has all three: the counters are the profile
of the trace, the clock is the profile of the whole text, and the caches are
those of the trace. A call keeps it (`perform_profiled`), hence an instruction
and a run do, whatever the guest, the functions of Spike's, the kernel and the
other cores do, as long as these leave the region of this core alone
(`otherRegions`). The main result is `caveat_profile`.
-/

namespace Cavatools.Caveat

open Uspike (Long Event World Thread ThreadAct)

/-! ## Events -/

/-- The address that an event looks up in the instruction cache. -/
def fetch? : Event → Option Long
  | .insn_model pc => some pc
  | _ => none

/-- The address that an event looks up in the data cache. -/
def access? : Event → Option Long
  | .load_model a _ | .store_model a _ | .amo_model a _ => some a
  | _ => none

/-- The line of `a` is not among the last `ways` that were used of its row. -/
def Missed (ways line rows : Nat) (used : List Long) (a : Long) : Prop :=
  ¬((a.sshiftRight line = 0 ∨ a.sshiftRight line ∈ used.map (·.sshiftRight line)) ∧
    Lib.distance ((used.map (·.sshiftRight line)).filter (rowOf rows · = rowOf rows (a.sshiftRight line)))
      (a.sshiftRight line) < ways)

instance (ways line rows : Nat) (used : List Long) (a : Long) : Decidable (Missed ways line rows used a) :=
  inferInstanceAs (Decidable (¬_))

section
variable (conf : Conf) (here : Int → Bool)

/-! What is counted of an event at the pcs that `here` picks, the events before it given. -/

def fetched (_before : List Event) : Event → Bool
  | .insn_model pc => here pc.toInt
  | _ => false

def fetchMissed (before : List Event) : Event → Bool
  | .insn_model pc =>
    here pc.toInt && decide (Missed conf.Iways conf.Iline conf.Irows (before.filterMap fetch?) pc)
  | _ => false

def accessMissed (before : List Event) : Event → Bool
  | .load_model a pc | .store_model a pc | .amo_model a pc =>
    here pc.toInt && decide (Missed conf.Dways conf.Dline conf.Drows (before.filterMap access?) a)
  | _ => false

/-- A jump counts where it goes to. -/
def jumped (_before : List Event) : Event → Bool
  | .jump_model npc _ => here npc.toInt
  | _ => false

/-- The number of events that `p` holds of, given those before; the latest event comes first. -/
def tally (p : List Event → Event → Bool) : List Event → Int
  | [] => 0
  | e :: before => tally p before + if p before e then 1 else 0

/-- The counters of the pcs that `here` picks, after the events of a trace. -/
def profile (trace : List Event) : Field → Int
  | .executed => tally (fetched here) trace
  | .imiss => tally (fetchMissed conf here) trace
  | .dmiss => tally (accessMissed conf here) trace
  | .cycles => tally (fetched here) trace + conf.Imiss * tally (fetchMissed conf here) trace
      + conf.Dmiss * tally (accessMissed conf here) trace + conf.Jump * tally (jumped here) trace

/-! ### One event -/

/-- The updates that an event stands for. -/
def charges (before : List Event) : Event → List Inc
  | .insn_model pc =>
    if Missed conf.Iways conf.Iline conf.Irows (before.filterMap fetch?) pc then
      [inc_imiss pc.toInt, inc_cycle pc.toInt conf.Imiss, inc_count pc.toInt, inc_cycle pc.toInt]
    else [inc_count pc.toInt, inc_cycle pc.toInt]
  | .jump_model npc _ => [inc_cycle npc.toInt conf.Jump]
  | .load_model a pc | .store_model a pc | .amo_model a pc =>
    if Missed conf.Dways conf.Dline conf.Drows (before.filterMap access?) a then
      [inc_dmiss pc.toInt, inc_cycle pc.toInt conf.Dmiss]
    else []
  | .proxy_syscall _ _ => []

/-- What a list of updates adds to a counter of the pcs that `here` picks. -/
def addedAt (f : Field) (us : List Inc) : Int :=
  (us.map fun u => if here u.pc = true ∧ u.field = f then u.k else 0).sum

/-- The profile of one more event, by the cases of the event: what is tallied is what is charged. -/
theorem profile_cons (e : Event) (before : List Event) (f : Field) :
    profile conf here (e :: before) f = profile conf here before f + addedAt here f (charges conf before e) := by
  have hdata (a pc : Long) : profile conf here (.load_model a pc :: before) f
      = profile conf here before f + addedAt here f (charges conf before (.load_model a pc)) := by
    unfold charges
    by_cases hmiss : Missed conf.Dways conf.Dline conf.Drows (before.filterMap access?) a <;>
      cases f <;> by_cases hhere : here pc.toInt = true <;>
      simp [profile, tally, fetched, fetchMissed, accessMissed, jumped, addedAt, inc_dmiss, inc_cycle, hmiss,
        hhere]
    ring
  cases e with
  | insn_model pc =>
    unfold charges
    by_cases hmiss : Missed conf.Iways conf.Iline conf.Irows (before.filterMap fetch?) pc <;>
      cases f <;> by_cases hhere : here pc.toInt = true <;>
      simp [profile, tally, fetched, fetchMissed, accessMissed, jumped, addedAt, inc_imiss, inc_count,
        inc_cycle, hmiss, hhere] <;> ring
  | jump_model npc pc =>
    cases f <;> by_cases hhere : here npc.toInt = true <;>
      simp [profile, tally, fetched, fetchMissed, accessMissed, jumped, addedAt, charges, inc_cycle, hhere]
    ring
  | load_model a pc | store_model a pc | amo_model a pc => exact hdata a pc
  | proxy_syscall sysnum executed =>
    cases f <;> simp [profile, tally, fetched, fetchMissed, accessMissed, jumped, addedAt, charges]

end

/-! ## The caches -/

/-- The cache holds the lines that were used last. -/
structure Remembers (states : List State) (ways line rows : Nat) (used : List Long) (c : cache_t) : Prop where
  tracks : Tracks states c
  pos : 1 ≤ ways
  lg_line : c.lg_line = line
  lg_rows : c.lg_rows = rows
  holds : Holds states c (Lib.rowsAfter (rowOf rows) ways 0 (used.map (·.sshiftRight line)))

theorem remembers_make {ways line rows : Nat} {g : Geometry} (hg : geometry ways line rows = some g)
    (hline : 1 ≤ line) (hrows : rows ≤ 30) (miss : Int) (writeable : Bool) :
    ∃ states, Remembers states ways line rows [] (cache_t.make miss g writeable) := by
  obtain ⟨states, hw, -, hok, hways, hgline, hgrows⟩ := geometry_some hg
  have htracks : Tracks states (cache_t.make miss g writeable) :=
    made_tracks hok hways hw (by omega) (by omega)
  refine ⟨states, htracks, hw, hgline, hgrows, ?_⟩
  obtain ⟨n, rfl⟩ : ∃ n, ways = n + 1 := ⟨ways - 1, by omega⟩
  rw [List.map_nil, Lib.rowsAfter_nil, ← hways]
  exact holds_flush htracks

/-- **One lookup.** -/
theorem remembers_lookup {states : List State} {ways line rows : Nat} {used : List Long} {c c' : cache_t}
    (hc : Remembers states ways line rows used c) {addr : Long} {write hit : Bool}
    (hlookup : c.lookup addr write = some (hit, c')) :
    hit = !decide (Missed ways line rows used addr) ∧ Remembers states ways line rows (addr :: used) c' := by
  obtain ⟨n, rfl⟩ : ∃ n, ways = n + 1 := ⟨ways - 1, by have := hc.pos; omega⟩
  rcases lookup_spec hc.tracks addr write with ⟨hit₁, c₁, hget, ha⟩ | ⟨hnone, -⟩
  · obtain ⟨rfl, rfl⟩ := Prod.mk.inj (Option.some.inj (hget.symm.trans hlookup))
    obtain ⟨hhit, hholds⟩ := lookup_holds hc.holds ha
    have hlineOf : c.lineOf addr = addr.sshiftRight line := by rw [cache_t.lineOf, hc.lg_line]
    rw [hc.lg_rows, hlineOf] at hhit hholds
    refine ⟨?_, ha.tracks, hc.pos, ?_, ?_, ?_⟩
    · rw [hhit, Bool.eq_iff_iff, Lib.use_hit_iff (rowOf rows), Bool.not_eq_true', decide_eq_false_iff_not]
      exact not_not.symm
    · rw [ha.geometry, hc.lg_line]
    · rw [ha.geometry, hc.lg_rows]
    · rw [Lib.use_rowsAfter] at hholds
      exact hholds
  · rw [hnone] at hlookup
    cases hlookup

/-! ## The counters -/

variable {h : perf_header_t} {conf : Conf} {n : Int}

/-- The pcs of parcel `i`. -/
def inParcel (h : perf_header_t) (i pc : Int) : Bool := index h pc = some i

/-- One update, at any counter of the core. -/
theorem inc_cell (hn : n < h._cores) {u : Inc} {s s' : Segment}
    (hinc : (perf_t.make h n).inc h u s = some s') {i a : Int} (hi : 0 ≤ i ∧ i < h.parcels) {f : Field}
    (ha : (perf_t.make h n).cell i f = some a) :
    s' a = s a + if inParcel h i u.pc = true ∧ u.field = f then u.k else 0 := by
  obtain ⟨j, hj⟩ := Option.isSome_iff_exists.mp (index_of_inc hinc)
  obtain ⟨hj0, hjlt, -⟩ := index_eq hj
  obtain ⟨b, haddr, hcell⟩ := address_make hn hj u.field
  unfold perf_t.inc at hinc
  rw [haddr, Option.map_some] at hinc
  obtain rfl := Option.some.inj hinc
  simp only [inParcel, hj, decide_eq_true_eq]
  by_cases hab : a = b
  · subst hab
    obtain ⟨hij, hf⟩ := cell_injective hn ⟨hj0, hjlt⟩ hi hcell ha
    rw [Function.update_self, if_pos ⟨by rw [hij], hf⟩]
  · rw [Function.update_of_ne hab, if_neg, Int.add_zero]
    rintro ⟨hij, rfl⟩
    obtain rfl := Option.some.inj hij
    exact hab (Option.some.inj (ha.symm.trans hcell))

theorem incs_cell (hn : n < h._cores) {us : List Inc} {s s' : Segment}
    (hincs : (perf_t.make h n).incs h us s = some s') {i a : Int} (hi : 0 ≤ i ∧ i < h.parcels) {f : Field}
    (ha : (perf_t.make h n).cell i f = some a) : s' a = s a + addedAt (inParcel h i) f us := by
  induction us generalizing s with
  | nil =>
    cases hincs
    exact (Int.add_zero _).symm
  | cons u us ih =>
    obtain ⟨t, ht, hrest⟩ := Option.bind_eq_some_iff.mp hincs
    rw [ih hrest, inc_cell hn ht hi ha, addedAt, addedAt, List.map_cons, List.sum_cons, Int.add_assoc]

/-! ## One call -/

/-- The event that announces a call. -/
def Call.event : Call → Event
  | .insn_model pc => .insn_model pc
  | .jump_model npc pc => .jump_model npc pc
  | .load_model a pc => .load_model a pc
  | .store_model a pc => .store_model a pc
  | .amo_model a pc => .amo_model a pc

/-- The caches of a core after the events of a trace. -/
structure Cached (conf : Conf) (is ds : List State) (trace : List Event) (m : mem_t) : Prop where
  fetches : Remembers is conf.Iways conf.Iline conf.Irows (trace.filterMap fetch?) m.ic
  accesses : Remembers ds conf.Dways conf.Dline conf.Drows (trace.filterMap access?) m.dc
  ipenalty : m.ic._penalty = conf.Imiss
  dpenalty : m.dc._penalty = conf.Dmiss

/-- `insn_model` charges what its event stands for, and the instruction cache remembers its line. -/
theorem insn_model_charges {is ds : List State} {trace : List Event} {m m' : mem_t}
    (hm : Cached conf is ds trace m) {pc : Long} {us : List Inc} (hcall : m.insn_model pc = some (m', us)) :
    us = charges conf trace (.insn_model pc) ∧ Cached conf is ds (.insn_model pc :: trace) m' := by
  unfold mem_t.insn_model at hcall
  split at hcall
  case h_1 => cases hcall
  case h_2 hit ic hlookup =>
    obtain ⟨rfl, hic⟩ := remembers_lookup hm.fetches hlookup
    obtain ⟨-, -, hpenalty⟩ := cache_t.lookup_counts hlookup
    have hipenalty := hpenalty.trans hm.ipenalty
    unfold charges
    by_cases hmiss : Missed conf.Iways conf.Iline conf.Irows (trace.filterMap fetch?) pc
    · rw [decide_eq_true hmiss, hipenalty] at hcall
      obtain ⟨rfl, rfl⟩ := Prod.mk.inj (Option.some.inj hcall)
      exact ⟨(if_pos hmiss).symm, hic, hm.accesses, hipenalty, hm.dpenalty⟩
    · rw [decide_eq_false hmiss] at hcall
      obtain ⟨rfl, rfl⟩ := Prod.mk.inj (Option.some.inj hcall)
      exact ⟨(if_neg hmiss).symm, hic, hm.accesses, hipenalty, hm.dpenalty⟩

/-- The three data models charge what their events stand for, and the data cache remembers the line.
-/
theorem data_model_charges {is ds : List State} {trace : List Event} {m m' : mem_t}
    (hm : Cached conf is ds trace m) {write : Bool} {a pc : Long} {us : List Inc} {e : Event}
    (he : e = .load_model a pc ∨ e = .store_model a pc ∨ e = .amo_model a pc)
    (hcall : m.data_model write a pc = some (m', us)) :
    us = charges conf trace e ∧ Cached conf is ds (e :: trace) m' := by
  unfold mem_t.data_model at hcall
  split at hcall
  case h_1 => cases hcall
  case h_2 hit dc hlookup =>
    obtain ⟨rfl, hdc⟩ := remembers_lookup hm.accesses hlookup
    obtain ⟨-, -, hpenalty⟩ := cache_t.lookup_counts hlookup
    have hdpenalty := hpenalty.trans hm.dpenalty
    have hcharges : charges conf trace e = charges conf trace (.load_model a pc) := by
      rcases he with rfl | rfl | rfl <;> rfl
    have haccess : (e :: trace).filterMap access? = a :: trace.filterMap access? := by
      rcases he with rfl | rfl | rfl <;> rfl
    have hfetch : (e :: trace).filterMap fetch? = trace.filterMap fetch? := by
      rcases he with rfl | rfl | rfl <;> rfl
    rw [hcharges, charges]
    by_cases hmiss : Missed conf.Dways conf.Dline conf.Drows (trace.filterMap access?) a
    · rw [decide_eq_true hmiss, hdpenalty] at hcall
      obtain ⟨rfl, rfl⟩ := Prod.mk.inj (Option.some.inj hcall)
      exact ⟨(if_pos hmiss).symm, hfetch ▸ hm.fetches, haccess ▸ hdc, hm.ipenalty, hdpenalty⟩
    · rw [decide_eq_false hmiss] at hcall
      obtain ⟨rfl, rfl⟩ := Prod.mk.inj (Option.some.inj hcall)
      exact ⟨(if_neg hmiss).symm, hfetch ▸ hm.fetches, haccess ▸ hdc, hm.ipenalty, hdpenalty⟩

/-- **One call** makes the updates that its event stands for. -/
theorem call_charges {is ds : List State} {trace : List Event} {m m' : mem_t} (hm : Cached conf is ds trace m)
    {c : Call} {us : List Inc} (hcall : m.call conf c = some (m', us)) :
    us = charges conf trace c.event ∧ Cached conf is ds (c.event :: trace) m' := by
  cases c with
  | insn_model pc => exact insn_model_charges hm hcall
  | jump_model npc pc =>
    obtain ⟨rfl, rfl⟩ := Prod.mk.inj (Option.some.inj hcall)
    exact ⟨rfl, hm.fetches, hm.accesses, hm.ipenalty, hm.dpenalty⟩
  | load_model a pc => exact data_model_charges hm (Or.inl rfl) hcall
  | store_model a pc => exact data_model_charges hm (Or.inr (Or.inl rfl)) hcall
  | amo_model a pc => exact data_model_charges hm (Or.inr (Or.inr rfl)) hcall

/-! ## Runs -/

/-- The core has counted what its events stand for. -/
structure Profiled (h : perf_header_t) (conf : Conf) (n t0 : Int) (is ds : List State) (trace : List Event)
    (ms : mem_t × Segment) : Prop where
  perf : ms.1.toperf_t = perf_t.make h n
  cached : Cached conf is ds trace ms.1
  cells : ∀ i, 0 ≤ i ∧ i < h.parcels → ∀ f, ∀ a ∈ (perf_t.make h n).cell i f,
    ms.2 a = profile conf (inParcel h i) trace f
  time : ms.1.local_time = t0 + profile conf (fun _ => true) trace .cycles

variable {t0 : Int} {is ds : List State}

theorem addedAt_all (f : Field) (us : List Inc) : addedAt (fun _ => true) f us = added f us := by
  unfold addedAt added
  simp

/-- A call that is made keeps the profile. -/
theorem perform_profiled (hn : n < h._cores) {c : Call} {trace : List Event} {ms ms' : mem_t × Segment}
    (hrun : perform h conf c ms = some ms') (hms : Profiled h conf n t0 is ds trace ms) :
    Profiled h conf n t0 is ds (c.event :: trace) ms' := by
  unfold perform at hrun
  split at hrun
  case h_1 => cases hrun
  case h_2 m us hcall =>
    obtain ⟨s, hs, rfl⟩ := Option.map_eq_some_iff.mp hrun
    obtain ⟨rfl, hcached⟩ := call_charges hms.cached hcall
    have hcharged := call_charged hcall
    rw [hms.perf] at hs
    refine ⟨hcharged.perf.trans hms.perf, hcached, fun i hi f a ha => ?_, ?_⟩
    · show s a = _
      rw [incs_cell hn hs hi ha, hms.cells i hi f a ha, profile_cons]
    · rw [hcharged.time, hms.time, profile_cons, addedAt_all, Int.add_assoc]

/-- The models of caveat tell of each call by its event, and keep the profile. -/
theorem caveat_tells (hn : n < h._cores) :
    Uspike.Tells (caveat_mmu h conf) (Profiled h conf n t0 is ds) := by
  have hmapped {c : Call} {a b : Long} {l : List Event} {ms ms' : mem_t × Segment}
      (hrun : (perform h conf c ms).map (fun ms => (a, ms)) = some (b, ms'))
      (hms : Profiled h conf n t0 is ds l ms) : Profiled h conf n t0 is ds (c.event :: l) ms' := by
    obtain ⟨ms₁, hms₁, heq⟩ := Option.map_eq_some_iff.mp hrun
    obtain ⟨-, rfl⟩ := Prod.mk.inj heq
    exact perform_profiled hn hms₁ hms
  exact
    { insn_model := fun pc _ _ _ => perform_profiled (c := .insn_model pc) hn
      jump_model := fun npc pc _ _ _ _ => hmapped (c := .jump_model npc pc)
      load_model := fun a pc _ _ _ _ => hmapped (c := .load_model a pc)
      store_model := fun a pc _ _ _ _ => hmapped (c := .store_model a pc)
      amo_model := fun a pc _ _ _ => perform_profiled (c := .amo_model a pc) hn
      proxy_syscall := fun sysnum executed l ms hms =>
        ⟨hms.perf, ⟨hms.cached.fetches, hms.cached.accesses, hms.cached.ipenalty, hms.cached.dpenalty⟩,
          fun i hi f a ha => by
            rw [hms.cells i hi f a ha, profile_cons]
            exact (Int.add_zero _).symm,
          by rw [hms.time, profile_cons]; exact congrArg (t0 + ·) (Int.add_zero _).symm⟩ }

/-- The rest of a process of caveat changes the counters of the other cores. -/
def otherRegions (h : perf_header_t) (n : Int) (seg : Segment) (ms : mem_t × Segment) : mem_t × Segment :=
  (ms.1, fun a => if InRegion h n a then ms.2 a else seg a)

theorem otherRegions_profiled (hn : n < h._cores) (seg : Segment) {trace : List Event}
    {ms : mem_t × Segment} (hms : Profiled h conf n t0 is ds trace ms) :
    Profiled h conf n t0 is ds trace (otherRegions h n seg ms) := by
  refine ⟨hms.perf, hms.cached, fun i hi f a ha => ?_, hms.time⟩
  rw [← hms.cells i hi f a ha]
  exact if_pos (inRegion_cell hn hi.1 hi.2 ha)

/-- A new core with zeroed counters has the profile of no events. -/
theorem profiled_make (hn : n < h._cores) (hconf : conf.Admitted) {m : mem_t}
    (hm : mem_t.make h conf n = some m) (t0 : Int) {s : Segment} (hs : ∀ a, InRegion h n a → s a = 0) :
    ∃ is ds, Profiled h conf n t0 is ds [] ({ m with local_time := t0 }, s) := by
  obtain ⟨ig, hig, dg, hdg, hperf, hic, hdc⟩ := make_spec hm
  obtain ⟨is, his⟩ := remembers_make hig hconf.iline.1 hconf.irows conf.Imiss false
  obtain ⟨ds, hds⟩ := remembers_make hdg hconf.dline.1 hconf.drows conf.Dmiss true
  rw [← hic] at his
  rw [← hdc] at hds
  refine ⟨is, ds, hperf, ⟨his, hds, by rw [hic]; rfl, by rw [hdc]; rfl⟩, fun i hi f a ha => ?_, ?_⟩
  · show s a = _
    rw [hs a (inRegion_cell hn hi.1 hi.2 ha)]
    cases f <;> simp [profile, tally]
  · simp [profile, tally]

section
variable {τ : Type}

theorem run_profiled (hn : n < h._cores) {w : World τ} {c c' : Thread (mem_t × Segment) τ}
    {as : List (ThreadAct τ Segment)}
    (hrun : Lib.run (Thread.step (w.env (caveat_mmu h conf)) (otherRegions h n)) as c = some c')
    (hc : Profiled h conf n t0 is ds c.hart.trace c.hart.mmu) :
    Profiled h conf n t0 is ds c'.hart.trace c'.hart.mmu :=
  Uspike.run_tells (caveat_tells hn) (fun seg _ _ => otherRegions_profiled hn seg) hrun hc

/-- **The profile.** From a core that was just made, with zeroed counters of its own: after any
run of it, whatever the guest, Spike's functions, the kernel and the other cores did, each of its
counters at a pc of the text is what the profile makes of the events, and so is its clock. -/
theorem caveat_profile (w : World τ) (hconf : conf.Admitted) (hn : n < h._cores) {m : mem_t}
    (hm : mem_t.make h conf n = some m) {c c' : Thread (mem_t × Segment) τ}
    (hc : c.hart.mmu.1 = { m with local_time := t0 }) (hzero : ∀ a, InRegion h n a → c.hart.mmu.2 a = 0)
    (htrace : c.hart.trace = []) {as : List (ThreadAct τ Segment)}
    (hrun : Lib.run (Thread.step (w.env (caveat_mmu h conf)) (otherRegions h n)) as c = some c') :
    (∀ pc i, index h pc = some i → ∀ f, c'.hart.mmu.1.get h f pc c'.hart.mmu.2
      = some (profile conf (inParcel h i) c'.hart.trace f)) ∧
    c'.hart.mmu.1.local_time = t0 + profile conf (fun _ => true) c'.hart.trace .cycles := by
  obtain ⟨is, ds, hstart⟩ := profiled_make hn hconf hm t0 hzero
  rw [← hc] at hstart
  rw [← htrace] at hstart
  have hend := run_profiled hn hrun hstart
  refine ⟨fun pc i hi f => ?_, hend.time⟩
  obtain ⟨h0, hlt, -⟩ := index_eq hi
  obtain ⟨a, haddr, hcell⟩ := address_make hn hi f
  rw [perf_t.get, hend.perf, haddr, Option.map_some, hend.cells i ⟨h0, hlt⟩ f a hcell]

end

/-- Two instructions of one line: the first one misses. -/
theorem caveat_profile_nopLi : ∃ m, mem_t.make (create 0x1000 0x1004 1) tinyConf 0 = some m ∧
    ∃ c', Lib.run (Thread.step (nopLiWorld.env (caveat_mmu (create 0x1000 0x1004 1) tinyConf))
        (otherRegions (create 0x1000 0x1004 1) 0)) [.interpreter 2, .iterate, .iterate]
        (nopLiThread ({ m with local_time := 7 }, fun _ => 0)) = some c' ∧
      c'.hart.mmu.1.cycle (create 0x1000 0x1004 1) 0x1000 c'.hart.mmu.2 = some 16 ∧
      c'.hart.mmu.1.local_time = 24 := by
  obtain ⟨m, hm⟩ := Option.isSome_iff_exists.mp
    (show (mem_t.make (create 0x1000 0x1004 1) tinyConf 0).isSome = true by decide +kernel)
  have hrun : (((mem_t.make (create 0x1000 0x1004 1) tinyConf 0).bind fun m =>
      Lib.run (Thread.step (nopLiWorld.env (caveat_mmu (create 0x1000 0x1004 1) tinyConf))
        (otherRegions (create 0x1000 0x1004 1) 0)) [.interpreter 2, .iterate, .iterate]
        (nopLiThread ({ m with local_time := 7 }, fun _ => 0))).map fun c => c.hart.trace)
      = some [.insn_model 0x1002, .insn_model 0x1000] := by decide +kernel
  obtain ⟨c', hbind, htrace⟩ := Option.map_eq_some_iff.mp hrun
  rw [hm, Option.bind_some] at hbind
  have hfresh : (nopLiThread ({ m with local_time := 7 }, fun _ : Long => (0 : Int))).hart.mmu.1
      = { m with local_time := 7 } := rfl
  obtain ⟨hcells, htime⟩ := caveat_profile nopLiWorld ⟨by decide, by decide, by decide, by decide⟩ (by decide) hm
    hfresh (fun _ _ => rfl) rfl hbind
  refine ⟨m, hm, c', hbind, ?_, ?_⟩
  · rw [perf_t.cycle, hcells 0x1000 0 (by decide) .cycles, htrace]
    decide +kernel
  · rw [htime, htrace]
    decide +kernel

end Cavatools.Caveat
