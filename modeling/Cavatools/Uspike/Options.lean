import Mathlib

/-!
# The command line

Every tool registers its options while its globals are constructed, and
`parse_options` tries them on an argument in the reverse order. An option
takes an argument as its own as soon as the argument starts with its name, and
leaves through `help_exit` where the rest does not fit; so the result depends
on that order only where two registered names are prefixes of one argument.

`Lawful` is what the tools count on, for every order of registration.
`parse_options` returns exactly if each leading argument is taken by an option
and is not `--help`; it consumes exactly the leading arguments; each `--n=v`
that the loop gets to is one call of `setval(v)` on the option `n`; and
nothing depends on the order.

Two things are taken apart to prove it. What an option does to an argument
depends on what its constructor has fixed and not on its value
(`Declared.act`), so the parsing is a `scan` of the arguments that makes calls
(`parse_scan`), and the values at the end are what the calls leave
(`parse_list`). And where no argument is claimed by two options (`Clear`, and
`Unshadowed` along the arguments that the loop gets to), the first option that
takes an argument is the only one (`first_of_mem`, `first_perm`); from that
come each part of the law, by induction on the arguments (`scan_returns_iff`,
`scan_rest`, `scan_valued`, `scan_perm`).

Where an argument is not clear, two orders give two different first calls
(`shadowing`), since two options that an argument starts with make different
calls if the rest fits for one (`call_ne`). So `lawful_iff` is exact. The
tools' own options are prefix-free, and for them the law holds of every
command line (`lawful_tools`).
-/

namespace Cavatools.Uspike.Options

abbrev Text := List Char

/-- The types that `option` is used at. -/
inductive T
  | text
  | int
  | long
  | bool
  deriving DecidableEq

/-- The values of a type; `none` is the null pointer. -/
def T.Value : T → Type
  | .text => Option Text
  | .int => BitVec 32
  | .long => BitVec 64
  | .bool => Bool

/-- What a global starts from. -/
def T.zero : (t : T) → t.Value
  | .text => none
  | .int => (0 : BitVec 32)
  | .long => (0 : BitVec 64)
  | .bool => false

def isspace (c : Char) : Bool := c = ' ' || (9 ≤ c.toNat && c.toNat ≤ 13)

/-- `(int)strtol(s, 0, 10)`: behind the blanks and a sign, the digits, kept inside a `long`. -/
def atoi (s : Text) : BitVec 32 :=
  let t := s.dropWhile isspace
  let u := if t.head? = some '-' ∨ t.head? = some '+' then t.tail else t
  let n : Int := (u.takeWhile Char.isDigit).foldl (fun n c => 10 * n + (c.toNat - 48)) 0
  if t.head? = some '-' then BitVec.ofInt 32 (max (-n) (-2 ^ 63))
  else BitVec.ofInt 32 (min n (2 ^ 63 - 1))

structure options_t where
  name : Text
  explain : Text
  no_equal : Bool

/-- What the constructor of an `option<T>` fixes for good. -/
structure Declared extends options_t where
  type : T

structure option extends Declared where
  value : type.Value
  none : type.Value

/-- `option(n, ini, e)` -/
def option.valued (n : String) (t : T) (ini : t.Value) (e : String) : option :=
  ⟨⟨⟨n.toList, e.toList, false⟩, t⟩, ini, t.zero⟩

/-- `option(n, ini, def, e)` -/
def option.optional (n : String) (t : T) (ini deflt : t.Value) (e : String) : option :=
  ⟨⟨⟨n.toList, e.toList, true⟩, t⟩, ini, deflt⟩

/-- The value that `setval` reads; an `option<bool>` takes none. -/
def T.read : (t : T) → Text → Option t.Value
  | .text, v => some (some v)
  | .int, v => some (atoi v)
  | .long, v => some ((atoi v).signExtend 64)
  | .bool, _ => none

/-- `setval`, of `none` for the null pointer. No result means that it left through `help_exit`. -/
def option.setval (p : option) : Option Text → Option option
  | .none => some { p with value := p.none }
  | some v => (p.type.read v).map fun x => { p with value := x }

def T.print : (t : T) → t.Value → Text
  | .text, v => Option.getD v "0".toList
  | .int, v => (toString (BitVec.toInt v)).toList
  | .long, v => (toString (BitVec.toInt v)).toList
  | .bool, v => (cond v "true" "false").toList

def option.printval (p : option) : Text := p.type.print p.value

/-! ## Help -/

/-- `%-10s` -/
def padded (s : Text) : Text := s ++ List.replicate (10 - s.length) ' '

/-- `help`, which prints the options that were registered before this one first. -/
def help : List option → Text
  | [] => []
  | p :: next =>
    help next ++ "  --".toList ++ padded p.name ++ " ".toList ++ p.explain ++ " [".toList ++
      p.printval ++ "]\n".toList

def help_exit (title : Text) (list : List option) : Text := title ++ "\n".toList ++ help list

/-! ## One argument -/

/-- What `matches` does: nothing, a call of `setval`, or `help_exit`. -/
inductive Matched
  | no
  | setval (v : Option Text)
  | help_exit
  deriving DecidableEq

/-- `strncmp(a, b, n) == 0` -/
def sameStart (a b : Text) (n : Nat) : Bool := a.take n == b.take n

def options_t.matches (p : options_t) (opt : Text) : Matched :=
  let len := p.name.length
  if !sameStart opt p.name len then .no
  else if opt.length ≤ len then
    if p.no_equal = false then .help_exit else .setval none
  else if opt[len]? = some '=' then .setval (some (opt.drop (len + 1)))
  else .help_exit

/-- A call of `setval`, with the option that it was made on. -/
structure Call where
  name : Text
  v : Option Text
  deriving DecidableEq

/-- How the loop over the options ends: none matches, one leaves through `help_exit` (maybe from its
`setval`), or one has taken its value. -/
inductive Tried
  | unknown
  | help_exit (call : Option Call)
  | next (call : Call) (list : List option)

/-- `for (options_t* p=options_t::list; p; p=p->next)` -/
def tried (opt : Text) : List option → Tried
  | [] => .unknown
  | p :: next =>
    match p.matches opt with
    | .no =>
      match tried opt next with
      | .next call list => .next call (p :: list)
      | r => r
    | .help_exit => .help_exit none
    | .setval v =>
      match p.setval v with
      | some q => .next ⟨p.name, v⟩ (q :: next)
      | none => .help_exit (some ⟨p.name, v⟩)

/-! ## The command line -/

/-- `parse_options` returns with the arguments that are left, or the process is over. -/
inductive Outcome
  | returned (argv : List Text)
  | exited (stderr : Text)

/-- The options after `parse_options`, with the calls of `setval` that it made. -/
structure Parsed where
  calls : List Call
  list : List option
  outcome : Outcome

/-- `strncmp(argv[i], "--", 2)==0` -/
def leading (arg : Text) : Bool := sameStart arg "--".toList 2

/-- The loop of `parse_options`, from `argv[i]` on. -/
def parse (title : Text) : List option → List Text → Parsed
  | list, [] => ⟨[], list, .returned []⟩
  | list, arg :: rest =>
    if leading arg = false then ⟨[], list, .returned (arg :: rest)⟩
    else if arg = "--help".toList then ⟨[], list, .exited (help_exit title list)⟩
    else
      match tried (arg.drop 2) list with
      | .unknown => ⟨[], list, .exited ("Unknown option ".toList ++ arg ++ "\n".toList)⟩
      | .help_exit call => ⟨call.toList, list, .exited (help_exit title list)⟩
      | .next call list =>
        ⟨call :: (parse title list rest).calls, (parse title list rest).list,
          (parse title list rest).outcome⟩

def parse_options (title : Text) (list : List option) (argv : List Text) : Parsed :=
  parse title list (argv.drop 1)

/-- `next=list; list=this;` in each constructor. -/
def registered (regs : List option) : List option := regs.foldl (fun list p => p :: list) []

/-! ## What an argument does, whatever the values are -/

/-- What an option does to an argument that starts with its name: the call it makes, and whether the
parsing goes on. -/
structure Act where
  call : Option Call
  on : Bool
  deriving DecidableEq

/-- Whether `setval` comes back. -/
def T.takes : T → Option Text → Bool
  | .bool, some _ => false
  | _, _ => true

def Declared.act (d : Declared) (opt : Text) : Option Act :=
  match d.matches opt with
  | .no => none
  | .help_exit => some ⟨none, false⟩
  | .setval v => some ⟨some ⟨d.name, v⟩, d.type.takes v⟩

/-- The parsing as the calls it makes and the arguments it leaves, `none` when it does not return. -/
def scan (ds : List Declared) : List Text → List Call × Option (List Text)
  | [] => ([], some [])
  | arg :: rest =>
    if leading arg = false then ([], some (arg :: rest))
    else if arg = "--help".toList then ([], none)
    else
      match ds.findSome? (fun d => d.act (arg.drop 2)) with
      | none => ([], none)
      | some a =>
        if a.on then (a.call.toList ++ (scan ds rest).1, (scan ds rest).2)
        else (a.call.toList, none)

def Outcome.rest : Outcome → Option (List Text)
  | .returned argv => some argv
  | .exited _ => none

theorem takes_iff (p : option) (v : Option Text) : p.type.takes v = (p.setval v).isSome := by
  obtain ⟨⟨o, t⟩, value, unset⟩ := p
  cases v <;> cases t <;> rfl

theorem setval_declared {p q : option} {v : Option Text} (h : p.setval v = some q) :
    q.toDeclared = p.toDeclared := by
  cases v with
  | none =>
    rw [option.setval, Option.some_inj] at h
    rw [← h]
  | some v =>
    rw [option.setval, Option.map_eq_some_iff] at h
    obtain ⟨x, -, hq⟩ := h
    rw [← hq]

/-- What the first option does that takes the argument. -/
def firstAct (list : List option) (opt : Text) : Option Act :=
  (list.map option.toDeclared).findSome? (fun d => d.act opt)

/-- The loop over the options ends as the act of the first option says that takes the argument, and
no other option changes. -/
theorem tried_cases (opt : Text) (list : List option) :
    (tried opt list = .unknown ∧ firstAct list opt = none) ∨
    (∃ call, tried opt list = .help_exit call ∧ firstAct list opt = some ⟨call, false⟩) ∨
    (∃ before p q after v, list = before ++ p :: after ∧ p.setval v = some q ∧
      tried opt list = .next ⟨p.name, v⟩ (before ++ q :: after) ∧
      firstAct list opt = some ⟨some ⟨p.name, v⟩, true⟩) := by
  induction list with
  | nil => exact Or.inl ⟨rfl, rfl⟩
  | cons p next ih =>
    have hfirst : firstAct (p :: next) opt = (p.act opt).or (firstAct next opt) := by
      rw [firstAct, List.map_cons, List.findSome?_cons, firstAct]
      cases p.act opt <;> rfl
    cases hm : p.matches opt with
    | no =>
      have hact : p.act opt = none := by rw [Declared.act, hm]
      rw [hfirst, hact, Option.none_or]
      obtain ⟨ht, hf⟩ | ⟨call, ht, hf⟩ | ⟨before, r, q, after, v, hl, hq, ht, hf⟩ := ih
      · exact Or.inl ⟨by simp only [tried, hm, ht], hf⟩
      · exact Or.inr (Or.inl ⟨call, by simp only [tried, hm, ht], hf⟩)
      · exact Or.inr (Or.inr ⟨p :: before, r, q, after, v, by rw [hl, List.cons_append], hq,
          by simp only [tried, hm, ht, List.cons_append], hf⟩)
    | help_exit =>
      have hact : p.act opt = some ⟨none, false⟩ := by rw [Declared.act, hm]
      rw [hfirst, hact, Option.some_or]
      exact Or.inr (Or.inl ⟨none, by simp only [tried, hm], rfl⟩)
    | setval v =>
      have hact : p.act opt = some ⟨some ⟨p.name, v⟩, (p.setval v).isSome⟩ := by
        rw [Declared.act, hm, ← takes_iff]
      rw [hfirst, hact, Option.some_or]
      cases hq : p.setval v with
      | none => exact Or.inr (Or.inl ⟨some ⟨p.name, v⟩, by simp only [tried, hm, hq], rfl⟩)
      | some q =>
        exact Or.inr (Or.inr ⟨[], p, q, next, v, rfl, hq,
          by simp only [tried, hm, hq, List.nil_append], rfl⟩)

/-- What the parsing does depends on what the constructors fixed, and not on the values. -/
theorem parse_scan (title : Text) (list : List option) (args : List Text) :
    ((parse title list args).calls, (parse title list args).outcome.rest) =
      scan (list.map option.toDeclared) args := by
  induction args generalizing list with
  | nil => rfl
  | cons arg rest ih =>
    by_cases hl : leading arg = false
    · rw [parse, if_pos hl, scan, if_pos hl]
      rfl
    · by_cases hh : arg = "--help".toList
      · rw [parse, if_neg hl, if_pos hh, scan, if_neg hl, if_pos hh]
        rfl
      · rw [parse, if_neg hl, if_neg hh, scan, if_neg hl, if_neg hh]
        obtain ⟨ht, hf⟩ | ⟨call, ht, hf⟩ | ⟨before, p, q, after, v, hb, hq, ht, hf⟩ :=
          tried_cases (arg.drop 2) list
        · rw [firstAct] at hf
          rw [ht, hf]
          rfl
        · rw [firstAct] at hf
          rw [ht, hf]
          rfl
        · have hsame : (before ++ q :: after).map option.toDeclared = list.map option.toDeclared := by
            rw [hb, List.map_append, List.map_append, List.map_cons, List.map_cons,
              setval_declared hq]
          rw [firstAct] at hf
          rw [ht, hf, ← hsame, ← ih]
          rfl

/-! ## What `matches` looks for -/

theorem sameStart_iff {opt name : Text} : sameStart opt name name.length = true ↔ name <+: opt := by
  rw [sameStart, beq_iff_eq, List.take_length, eq_comm, List.prefix_iff_eq_take]

theorem matches_no {p : options_t} {opt : Text} (h : ¬p.name <+: opt) : p.matches opt = .no := by
  have hs : sameStart opt p.name p.name.length = false := Bool.eq_false_iff.2 (mt sameStart_iff.1 h)
  rw [options_t.matches, hs]
  rfl

theorem matches_self (p : options_t) :
    p.matches p.name = if p.no_equal = false then .help_exit else .setval none := by
  have hs : sameStart p.name p.name p.name.length = true := sameStart_iff.2 (List.prefix_refl _)
  rw [options_t.matches, hs, Bool.not_true, if_neg Bool.false_ne_true, if_pos (Nat.le_refl _)]

/-- An argument that goes on behind the name of an option has to go on with `=`. -/
theorem matches_more (p : options_t) (c : Char) (v : Text) :
    p.matches (p.name ++ c :: v) = if c = '=' then .setval (some v) else .help_exit := by
  have hs : sameStart (p.name ++ c :: v) p.name p.name.length = true :=
    sameStart_iff.2 (List.prefix_append _ _)
  have hlen : ¬(p.name ++ c :: v).length ≤ p.name.length := by
    rw [List.length_append, List.length_cons]
    omega
  have hget : (p.name ++ c :: v)[p.name.length]? = some c := by
    rw [List.getElem?_append_right (Nat.le_refl _), Nat.sub_self, List.getElem?_cons_zero]
  have hdrop : (p.name ++ c :: v).drop (p.name.length + 1) = v := by
    rw [List.drop_append, List.drop_eq_nil_of_le (by omega), Nat.add_sub_cancel_left]
    rfl
  rw [options_t.matches, hs, Bool.not_true, if_neg Bool.false_ne_true, if_neg hlen, hget, hdrop]
  simp only [Option.some_inj]

/-- The rest fits: the name is followed by `=`, or by nothing where that is allowed. -/
def Declared.Fits (d : Declared) (opt : Text) : Prop :=
  opt = d.name ∧ d.no_equal = true ∨ d.name ++ ['='] <+: opt

/-- The option takes its value and the parsing goes on: an `option<bool>` takes none. -/
def Declared.Takes (d : Declared) (opt : Text) : Prop :=
  opt = d.name ∧ d.no_equal = true ∨ d.name ++ ['='] <+: opt ∧ d.type ≠ .bool

instance (d : Declared) (opt : Text) : Decidable (d.Fits opt) := inferInstanceAs (Decidable (_ ∨ _))

instance (d : Declared) (opt : Text) : Decidable (d.Takes opt) := inferInstanceAs (Decidable (_ ∨ _))

theorem act_no {d : Declared} {opt : Text} (h : ¬d.name <+: opt) : d.act opt = none := by
  rw [Declared.act, matches_no h]

theorem act_equal (d : Declared) (v : Text) :
    d.act (d.name ++ '=' :: v) = some ⟨some ⟨d.name, some v⟩, d.type.takes (some v)⟩ := by
  rw [Declared.act, matches_more, if_pos rfl]

/-- An option whose name the argument starts with makes its call exactly where the rest fits. -/
theorem act_prefix {d : Declared} {opt : Text} (h : d.name <+: opt) :
    (¬d.Fits opt ∧ d.act opt = some ⟨none, false⟩) ∨
    (d.Fits opt ∧ ∃ v, d.act opt = some ⟨some ⟨d.name, v⟩, decide (d.Takes opt)⟩) := by
  obtain ⟨rest, rfl⟩ := h
  cases rest with
  | nil =>
    rw [List.append_nil]
    have hlong : ¬d.name ++ ['='] <+: d.name := by
      intro hp
      have := hp.length_le
      rw [List.length_append] at this
      exact Nat.not_succ_le_self _ this
    cases he : d.no_equal with
    | false =>
      refine Or.inl ⟨?_, by rw [Declared.act, matches_self, he, if_pos rfl]⟩
      rw [Declared.Fits, he]
      simp [hlong]
    | true =>
      refine Or.inr ⟨Or.inl ⟨rfl, he⟩, none, ?_⟩
      have ht : d.Takes d.name := Or.inl ⟨rfl, he⟩
      rw [Declared.act, matches_self, he, if_neg (by decide), decide_eq_true ht]
      cases d.type <;> rfl
  | cons c v =>
    have hself : d.name ++ c :: v ≠ d.name := by
      intro hc
      have := congrArg List.length hc
      rw [List.length_append, List.length_cons] at this
      omega
    have hequal : d.name ++ ['='] <+: d.name ++ c :: v ↔ c = '=' := by
      rw [List.prefix_append_right_inj, List.cons_prefix_cons, eq_comm]
      simp
    by_cases hc : c = '='
    · have hp := hequal.2 hc
      refine Or.inr ⟨Or.inr hp, some v, ?_⟩
      have ht : d.Takes (d.name ++ c :: v) ↔ d.type ≠ .bool := by
        rw [Declared.Takes]
        simp [hself, hp]
      rw [hc] at ht ⊢
      rw [act_equal]
      cases hty : d.type <;> simp [ht, hty, T.takes]
    · refine Or.inl ⟨?_, by rw [Declared.act, matches_more, if_neg hc]⟩
      rw [Declared.Fits, hequal]
      simp [hself, hc]

/-! ## Options that do not shadow one another -/

def Distinct (ds : List Declared) : Prop := (ds.map (fun d => d.name)).Nodup

/-- No two names start the argument, unless neither is followed by what the option looks for. -/
def Clear (ds : List Declared) (opt : Text) : Prop :=
  ∀ d ∈ ds, ∀ e ∈ ds, d.name <+: opt → e.name <+: opt → d.name = e.name ∨ ¬d.Fits opt ∧ ¬e.Fits opt

/-- Every argument is clear that the loop gets to: those behind `--help`, behind an argument that no
option takes and behind the guest program are not read. -/
def Unshadowed (ds : List Declared) : List Text → Prop
  | [] => True
  | arg :: rest =>
    leading arg = true → arg ≠ "--help".toList →
      Clear ds (arg.drop 2) ∧ ((∃ d ∈ ds, d.Takes (arg.drop 2)) → Unshadowed ds rest)

instance (ds : List Declared) (opt : Text) : Decidable (Clear ds opt) :=
  inferInstanceAs (Decidable (∀ d ∈ ds, ∀ e ∈ ds, _ → _ → _))

instance unshadowedDecidable (ds : List Declared) : (args : List Text) → Decidable (Unshadowed ds args)
  | [] => isTrue trivial
  | arg :: rest =>
    have := unshadowedDecidable ds rest
    inferInstanceAs (Decidable (leading arg = true → arg ≠ "--help".toList →
      Clear ds (arg.drop 2) ∧ ((∃ d ∈ ds, d.Takes (arg.drop 2)) → Unshadowed ds rest)))

theorem eq_of_name {ds : List Declared} (hd : Distinct ds) {d e : Declared} (hdm : d ∈ ds)
    (hem : e ∈ ds) (h : d.name = e.name) : d = e :=
  List.inj_on_of_nodup_map hd hdm hem h

theorem prefix_of_act {d : Declared} {opt : Text} {a : Act} (h : d.act opt = some a) :
    d.name <+: opt := by
  by_contra hn
  rw [act_no hn] at h
  exact Option.some_ne_none a h.symm

/-- Where the options are clear, any that the argument starts with does the same. -/
theorem act_unique {ds : List Declared} (hd : Distinct ds) {opt : Text} (hc : Clear ds opt)
    {d e : Declared} (hdm : d ∈ ds) (hem : e ∈ ds) {a b : Act} (ha : d.act opt = some a)
    (hb : e.act opt = some b) : a = b := by
  have hdp := prefix_of_act ha
  have hep := prefix_of_act hb
  rcases hc d hdm e hem hdp hep with hn | ⟨hdf, hef⟩
  · rw [eq_of_name hd hdm hem hn, hb] at ha
    exact (Option.some_inj.1 ha).symm
  · rcases act_prefix hdp with ⟨-, hda⟩ | ⟨hf, -⟩
    · rcases act_prefix hep with ⟨-, hea⟩ | ⟨hf, -⟩
      · rw [hda] at ha
        rw [hea] at hb
        exact Option.some_inj.1 (ha.symm.trans hb)
      · exact absurd hf hef
    · exact absurd hf hdf

/-- What the first option does, any option does. -/
theorem first_of_mem {ds : List Declared} (hd : Distinct ds) {opt : Text} (hc : Clear ds opt)
    {d : Declared} (hdm : d ∈ ds) {a : Act} (ha : d.act opt = some a) :
    ds.findSome? (fun d => d.act opt) = some a := by
  cases hf : ds.findSome? (fun d => d.act opt) with
  | none =>
    rw [List.findSome?_eq_none_iff.1 hf d hdm] at ha
    exact absurd ha.symm (Option.some_ne_none a)
  | some b =>
    obtain ⟨e, hem, hb⟩ := List.exists_of_findSome?_eq_some hf
    rw [act_unique hd hc hdm hem ha hb]

theorem first_perm {ds es : List Declared} (hd : Distinct ds) {opt : Text} (hc : Clear ds opt)
    (hp : es.Perm ds) :
    es.findSome? (fun d => d.act opt) = ds.findSome? (fun d => d.act opt) := by
  cases hf : es.findSome? (fun d => d.act opt) with
  | none =>
    refine (List.findSome?_eq_none_iff.2 ?_).symm
    intro d hdm
    exact List.findSome?_eq_none_iff.1 hf d (hp.mem_iff.2 hdm)
  | some a =>
    obtain ⟨e, hem, ha⟩ := List.exists_of_findSome?_eq_some hf
    exact (first_of_mem hd hc (hp.mem_iff.1 hem) ha).symm

/-- The parsing goes on behind an option that takes its value. -/
theorem takes_of_first {ds : List Declared} {opt : Text} {a : Act}
    (hf : ds.findSome? (fun d => d.act opt) = some a) (ha : a.on = true) :
    ∃ d ∈ ds, d.Takes opt := by
  obtain ⟨d, hdm, hact⟩ := List.exists_of_findSome?_eq_some hf
  refine ⟨d, hdm, ?_⟩
  rcases act_prefix (prefix_of_act hact) with ⟨-, hda⟩ | ⟨-, v, hda⟩
  · rw [hda] at hact
    rw [← Option.some_inj.1 hact] at ha
    exact absurd ha Bool.false_ne_true
  · rw [hda] at hact
    rw [← Option.some_inj.1 hact] at ha
    exact of_decide_eq_true ha

/-! ## The parsing as a scan -/

theorem scan_other {ds : List Declared} {arg : Text} (rest : List Text) (hl : leading arg = false) :
    scan ds (arg :: rest) = ([], some (arg :: rest)) := by
  rw [scan, if_pos hl]

theorem scan_help {ds : List Declared} {arg : Text} (rest : List Text) (hl : ¬leading arg = false)
    (hh : arg = "--help".toList) : scan ds (arg :: rest) = ([], none) := by
  rw [scan, if_neg hl, if_pos hh]

theorem scan_unknown {ds : List Declared} {arg : Text} (rest : List Text) (hl : ¬leading arg = false)
    (hh : ¬arg = "--help".toList) (hf : ds.findSome? (fun d => d.act (arg.drop 2)) = none) :
    scan ds (arg :: rest) = ([], none) := by
  rw [scan, if_neg hl, if_neg hh, hf]

theorem scan_act {ds : List Declared} {arg : Text} (rest : List Text) (hl : ¬leading arg = false)
    (hh : ¬arg = "--help".toList) {a : Act}
    (hf : ds.findSome? (fun d => d.act (arg.drop 2)) = some a) :
    scan ds (arg :: rest) =
      if a.on = true then (a.call.toList ++ (scan ds rest).1, (scan ds rest).2)
      else (a.call.toList, none) := by
  rw [scan, if_neg hl, if_neg hh, hf]

/-- Where the parsing returns, the first argument was not for it, or an option took its value. -/
theorem scan_returns {ds : List Declared} {arg : Text} {more rest : List Text}
    (h : (scan ds (arg :: more)).2 = some rest) :
    (leading arg = false ∧ rest = arg :: more) ∨
    (¬leading arg = false ∧ arg ≠ "--help".toList ∧ ∃ a : Act,
      ds.findSome? (fun d => d.act (arg.drop 2)) = some a ∧ a.on = true ∧
      (scan ds more).2 = some rest) := by
  by_cases hl : leading arg = false
  · rw [scan_other more hl] at h
    exact Or.inl ⟨hl, (Option.some_inj.1 h).symm⟩
  · by_cases hh : arg = "--help".toList
    · rw [scan_help more hl hh] at h
      exact absurd h.symm (Option.some_ne_none rest)
    · cases hf : ds.findSome? (fun d => d.act (arg.drop 2)) with
      | none =>
        rw [scan_unknown more hl hh hf] at h
        exact absurd h.symm (Option.some_ne_none rest)
      | some a =>
        rw [scan_act more hl hh hf] at h
        by_cases hon : a.on = true
        · rw [if_pos hon] at h
          exact Or.inr ⟨hl, hh, a, rfl, hon, h⟩
        · rw [if_neg hon] at h
          exact absurd h.symm (Option.some_ne_none rest)

/-- What is left is what stands behind the leading arguments. -/
theorem scan_rest (ds : List Declared) (args : List Text) {rest : List Text}
    (h : (scan ds args).2 = some rest) : rest = args.dropWhile leading := by
  induction args with
  | nil => exact (Option.some_inj.1 h).symm
  | cons arg more ih =>
    rcases scan_returns h with ⟨hl, hrest⟩ | ⟨hl, -, a, -, -, hmore⟩
    · rw [List.dropWhile_cons, hl, if_neg Bool.false_ne_true]
      exact hrest
    · rw [List.dropWhile_cons, if_pos (Bool.not_eq_false _ ▸ hl)]
      exact ih hmore

/-- An option that takes an argument is the first that does, where the options are clear. -/
theorem first_of_takes {ds : List Declared} (hd : Distinct ds) {opt : Text} (hc : Clear ds opt)
    {d : Declared} (hdm : d ∈ ds) (ht : d.Takes opt) :
    ∃ a : Act, ds.findSome? (fun d => d.act opt) = some a ∧ a.on = true := by
  have hp : d.name <+: opt := by
    rcases ht with ⟨hself, -⟩ | ⟨hequal, -⟩
    · exact hself ▸ List.prefix_refl _
    · exact (List.prefix_append _ _).trans hequal
  rcases act_prefix hp with ⟨hnf, -⟩ | ⟨-, v, hact⟩
  · exact absurd (ht.imp id And.left) hnf
  · exact ⟨_, first_of_mem hd hc hdm hact, decide_eq_true ht⟩

/-- The parsing returns exactly where every leading argument finds an option that takes it. `--help`
finds none. -/
theorem scan_returns_iff {ds : List Declared} (hd : Distinct ds) (args : List Text)
    (hu : Unshadowed ds args) : (scan ds args).2.isSome = true ↔
      ∀ arg ∈ args.takeWhile leading, arg ≠ "--help".toList ∧ ∃ d ∈ ds, d.Takes (arg.drop 2) := by
  induction args with
  | nil => simp [scan]
  | cons arg more ih =>
    by_cases hl : leading arg = false
    · rw [scan_other more hl, List.takeWhile_cons, hl]
      simp
    · have hlead : leading arg = true := Bool.not_eq_false _ ▸ hl
      rw [List.takeWhile_cons, if_pos hlead, List.forall_mem_cons]
      by_cases hh : arg = "--help".toList
      · rw [scan_help more hl hh]
        exact iff_of_false Bool.false_ne_true fun h => h.1.1 hh
      obtain ⟨hc, hmore⟩ := hu hlead hh
      by_cases ht : ∃ d ∈ ds, d.Takes (arg.drop 2)
      · obtain ⟨d, hdm, hdt⟩ := ht
        obtain ⟨a, hf, hon⟩ := first_of_takes hd hc hdm hdt
        rw [scan_act more hl hh hf, if_pos hon, ih (hmore ⟨d, hdm, hdt⟩)]
        exact (and_iff_right ⟨hh, d, hdm, hdt⟩).symm
      · -- no option takes it: none does anything, or the first leaves
        refine iff_of_false ?_ fun h => ht h.1.2
        cases hf : ds.findSome? (fun d => d.act (arg.drop 2)) with
        | none =>
          rw [scan_unknown more hl hh hf]
          exact Bool.false_ne_true
        | some a =>
          have hoff : ¬a.on = true := fun hon => ht (takes_of_first hf hon)
          rw [scan_act more hl hh hf, if_neg hoff]
          exact Bool.false_ne_true

/-- Arguments that are all consumed come first, and then the others as if they stood alone. -/
theorem scan_append {ds : List Declared} {before : List Text} (args : List Text)
    (h : (scan ds before).2 = some []) :
    scan ds (before ++ args) = ((scan ds before).1 ++ (scan ds args).1, (scan ds args).2) := by
  induction before with
  | nil => rfl
  | cons arg more ih =>
    rcases scan_returns h with ⟨-, hrest⟩ | ⟨hl, hh, a, hf, hon, hmore⟩
    · exact absurd hrest.symm (List.cons_ne_nil arg more)
    · rw [List.cons_append, scan_act (more ++ args) hl hh hf, scan_act more hl hh hf, if_pos hon,
        if_pos hon, ih hmore, List.append_assoc]

/-- The arguments behind those that are consumed are clear too. -/
theorem unshadowed_append {ds : List Declared} {before args : List Text}
    (h : (scan ds before).2 = some []) (hu : Unshadowed ds (before ++ args)) :
    Unshadowed ds args := by
  induction before with
  | nil => exact hu
  | cons arg more ih =>
    rcases scan_returns h with ⟨-, hrest⟩ | ⟨hl, hh, a, hf, hon, hmore⟩
    · exact absurd hrest.symm (List.cons_ne_nil arg more)
    · exact ih hmore ((hu (Bool.not_eq_false _ ▸ hl) hh).2 (takes_of_first hf hon))

/-- `--n=v` -/
def valued (n v : Text) : Text := "--".toList ++ n ++ '=' :: v

theorem valued_leading (n v : Text) : ¬leading (valued n v) = false := by
  intro h
  exact Bool.false_ne_true h.symm

theorem valued_ne_help (n v : Text) : valued n v ≠ "--help".toList := by
  intro h
  have hmem : '=' ∈ valued n v := List.mem_append_right _ List.mem_cons_self
  rw [h] at hmem
  exact absurd hmem (by decide)

/-- A clear argument `--n=v` calls `setval(v)` on `n`, whatever comes of that. -/
theorem scan_valued {ds : List Declared} (hd : Distinct ds) {d : Declared} (hdm : d ∈ ds) (v : Text)
    (hc : Clear ds (d.name ++ '=' :: v)) : (scan ds [valued d.name v]).1 = [⟨d.name, some v⟩] := by
  have hf : ds.findSome? (fun e => e.act ((valued d.name v).drop 2)) =
      some ⟨some ⟨d.name, some v⟩, d.type.takes (some v)⟩ :=
    first_of_mem hd hc hdm (act_equal d v)
  rw [scan_act [] (valued_leading _ v) (valued_ne_help _ v) hf]
  cases d.type.takes (some v) <;> rfl

/-- The order of registration makes no difference. -/
theorem scan_perm {ds es : List Declared} (hd : Distinct ds) (hp : es.Perm ds) (args : List Text)
    (hu : Unshadowed ds args) : scan es args = scan ds args := by
  induction args with
  | nil => rfl
  | cons arg more ih =>
    by_cases hl : leading arg = false
    · rw [scan_other more hl, scan_other more hl]
    · by_cases hh : arg = "--help".toList
      · rw [scan_help more hl hh, scan_help more hl hh]
      · obtain ⟨hc, hmore⟩ := hu (Bool.not_eq_false _ ▸ hl) hh
        have hsame := first_perm hd hc hp
        cases hf : ds.findSome? (fun d => d.act (arg.drop 2)) with
        | none => rw [scan_unknown more hl hh hf, scan_unknown more hl hh (hsame.trans hf)]
        | some a =>
          rw [scan_act more hl hh hf, scan_act more hl hh (hsame.trans hf)]
          by_cases hon : a.on = true
          · rw [ih (hmore (takes_of_first hf hon))]
          · rw [if_neg hon, if_neg hon]

/-! ## Options that shadow one another -/

/-- The first call is that of the first option that takes the argument. -/
theorem scan_head {ds : List Declared} {arg : Text} (rest : List Text) (hl : ¬leading arg = false)
    (hh : ¬arg = "--help".toList) {a : Act}
    (hf : ds.findSome? (fun d => d.act (arg.drop 2)) = some a) :
    (scan ds (arg :: rest)).1.head? = a.call := by
  obtain ⟨d, -, hact⟩ := List.exists_of_findSome?_eq_some hf
  rw [scan_act rest hl hh hf]
  rcases act_prefix (prefix_of_act hact) with ⟨-, hda⟩ | ⟨-, v, hda⟩
  · rw [hda, Option.some_inj] at hact
    rw [← hact]
    rfl
  · rw [hda, Option.some_inj] at hact
    rw [← hact]
    cases decide (d.Takes (arg.drop 2)) <;> rfl

/-- Two options that an argument starts with make different calls, if the rest fits for one. -/
theorem call_ne {d e : Declared} {opt : Text} (hn : d.name ≠ e.name) (hfit : d.Fits opt ∨ e.Fits opt)
    {a b : Act} (ha : d.act opt = some a) (hb : e.act opt = some b) : a.call ≠ b.call := by
  rcases act_prefix (prefix_of_act ha) with ⟨hdf, hda⟩ | ⟨-, v, hda⟩
  · rcases act_prefix (prefix_of_act hb) with ⟨hef, -⟩ | ⟨-, w, heb⟩
    · exact absurd hfit (not_or.2 ⟨hdf, hef⟩)
    · rw [hda, Option.some_inj] at ha
      rw [heb, Option.some_inj] at hb
      rw [← ha, ← hb]
      exact (Option.some_ne_none _).symm
  · rw [hda, Option.some_inj] at ha
    rcases act_prefix (prefix_of_act hb) with ⟨-, heb⟩ | ⟨-, w, heb⟩
    · rw [heb, Option.some_inj] at hb
      rw [← ha, ← hb]
      exact Option.some_ne_none _
    · rw [heb, Option.some_inj] at hb
      rw [← ha, ← hb]
      intro hc
      exact hn (congrArg Call.name (Option.some_inj.1 hc))

theorem act_of_prefix {d : Declared} {opt : Text} (h : d.name <+: opt) :
    ∃ a, d.act opt = some a := by
  rcases act_prefix h with ⟨-, ha⟩ | ⟨-, v, ha⟩
  · exact ⟨_, ha⟩
  · exact ⟨_, ha⟩

/-- Where an argument is not clear that the loop gets to, two options are in each other's way: which of
them stands first decides what is called. -/
theorem shadowing {ds : List Declared} (hd : Distinct ds) (args : List Text)
    (hu : ¬Unshadowed ds args) :
    ∃ d ∈ ds, ∃ e ∈ ds, ∀ ds' es' : List Declared, (d :: ds').Perm ds → (e :: es').Perm ds →
      (scan (d :: ds') args).1 ≠ (scan (e :: es') args).1 := by
  induction args with
  | nil => exact absurd trivial hu
  | cons arg more ih =>
    simp only [Unshadowed, not_forall] at hu
    obtain ⟨hlead, hh, hu⟩ := hu
    have hl : ¬leading arg = false := by rw [hlead]; decide
    by_cases hc : Clear ds (arg.drop 2)
    · -- this argument does the same in every order, so it is a later one
      simp only [not_and, not_forall] at hu
      obtain ⟨⟨t, htm, ht⟩, hmore⟩ := hu hc
      obtain ⟨d, hdm, e, hem, hne⟩ := ih hmore
      refine ⟨d, hdm, e, hem, ?_⟩
      intro ds' es' hdp hep
      obtain ⟨a, hf, hon⟩ := first_of_takes hd hc htm ht
      rw [scan_act more hl hh ((first_perm hd hc hdp).trans hf),
        scan_act more hl hh ((first_perm hd hc hep).trans hf), if_pos hon, if_pos hon]
      intro heq
      exact hne ds' es' hdp hep (List.append_cancel_left heq)
    · simp only [Clear, not_forall, not_or] at hc
      obtain ⟨d, hdm, e, hem, hdp, hep, hn, hfit⟩ := hc
      refine ⟨d, hdm, e, hem, ?_⟩
      intro ds' es' _ _ heq
      obtain ⟨a, ha⟩ := act_of_prefix hdp
      obtain ⟨b, hb⟩ := act_of_prefix hep
      have hda : (d :: ds').findSome? (fun d => d.act (arg.drop 2)) = some a := by
        rw [List.findSome?_cons, ha]
      have heb : (e :: es').findSome? (fun d => d.act (arg.drop 2)) = some b := by
        rw [List.findSome?_cons, hb]
      have hhead := congrArg List.head? heq
      rw [scan_head more hl hh hda, scan_head more hl hh heb] at hhead
      refine call_ne hn ?_ ha hb hhead
      by_contra hnone
      exact hfit (not_or.1 hnone)

/-! ## The values -/

/-- What a call leaves of an option. -/
def Call.apply (c : Call) (p : option) : option :=
  if p.name = c.name then (p.setval c.v).getD p else p

theorem apply_declared (c : Call) (p : option) : (c.apply p).toDeclared = p.toDeclared := by
  rw [Call.apply]
  split
  next =>
    cases hq : p.setval c.v with
    | none => rfl
    | some q => exact setval_declared hq
  next => rfl

def DistinctNames (list : List option) : Prop := (list.map (fun p => p.name)).Nodup

instance (list : List option) : Decidable (DistinctNames list) :=
  inferInstanceAs (Decidable (List.Nodup _))

theorem distinct_declared {list : List option} (hd : DistinctNames list) :
    Distinct (list.map option.toDeclared) := by
  rw [Distinct, List.map_map]
  exact hd

/-- A call that has not come back has changed nothing. -/
theorem map_apply_of_none {list : List option} {c : Call} {b : Bool} {opt : Text}
    (hf : firstAct list opt = some ⟨some c, b⟩) (hd : DistinctNames list) (hb : b = false) :
    list.map c.apply = list := by
  obtain ⟨d, hdm, hact⟩ := List.exists_of_findSome?_eq_some hf
  have hcall : c.name = d.name ∧ d.type.takes c.v = b := by
    rw [Declared.act] at hact
    cases hm : d.matches opt with
    | no =>
      rw [hm] at hact
      exact absurd hact.symm (Option.some_ne_none _)
    | help_exit =>
      rw [hm, Option.some_inj, Act.mk.injEq] at hact
      exact absurd hact.1.symm (Option.some_ne_none _)
    | setval v =>
      rw [hm, Option.some_inj, Act.mk.injEq, Option.some_inj] at hact
      rw [← hact.1]
      exact ⟨rfl, hact.2⟩
  refine (List.map_congr_left ?_).trans (List.map_id list)
  intro p hp
  rw [Call.apply, id]
  split
  next hn =>
    have hpd : p.toDeclared = d :=
      eq_of_name (distinct_declared hd) (List.mem_map_of_mem hp) hdm (hn.trans hcall.1)
    have hnone : p.setval c.v = none := by
      rw [← Option.not_isSome_iff_eq_none, ← takes_iff, hpd, hcall.2, hb]
      exact Bool.false_ne_true
    rw [hnone, Option.getD_none]
  next => rfl

/-- A call that has come back has changed the option it was made on, and no other. -/
theorem map_apply_of_some {before after : List option} {p q : option} {v : Option Text}
    (hd : DistinctNames (before ++ p :: after)) (hq : p.setval v = some q) :
    (before ++ p :: after).map (Call.mk p.name v).apply = before ++ q :: after := by
  rw [DistinctNames, List.map_append, List.map_cons, List.nodup_middle, List.nodup_cons] at hd
  have hother : ∀ r ∈ before ++ after, (Call.mk p.name v).apply r = r := by
    intro r hr
    rw [Call.apply, if_neg]
    intro hn
    apply hd.1
    rw [← List.map_append]
    exact List.mem_map.2 ⟨r, hr, hn⟩
  have hp : (Call.mk p.name v).apply p = q := by
    rw [Call.apply, if_pos rfl, hq, Option.getD_some]
  rw [List.map_append, List.map_cons, hp,
    List.map_congr_left fun r hr => hother r (List.mem_append_left _ hr),
    List.map_congr_left fun r hr => hother r (List.mem_append_right _ hr), List.map_id', List.map_id']

/-- The options hold at the end what the calls have left of them. -/
theorem parse_list (title : Text) (list : List option) (args : List Text)
    (hd : DistinctNames list) :
    (parse title list args).list =
      (parse title list args).calls.foldl (fun list c => list.map c.apply) list := by
  induction args generalizing list with
  | nil => rfl
  | cons arg rest ih =>
    by_cases hl : leading arg = false
    · rw [parse, if_pos hl]
      rfl
    · by_cases hh : arg = "--help".toList
      · rw [parse, if_neg hl, if_pos hh]
        rfl
      · rw [parse, if_neg hl, if_neg hh]
        obtain ⟨ht, -⟩ | ⟨call, ht, hf⟩ | ⟨before, p, q, after, v, hb, hq, ht, -⟩ :=
          tried_cases (arg.drop 2) list
        · rw [ht]
          rfl
        · rw [ht]
          cases call with
          | none => rfl
          | some c => exact (map_apply_of_none hf hd rfl).symm
        · have hmap : list.map (Call.mk p.name v).apply = before ++ q :: after := by
            rw [hb] at hd ⊢
            exact map_apply_of_some hd hq
          have hnext : DistinctNames (before ++ q :: after) := by
            rw [DistinctNames, ← hmap, List.map_map]
            refine (List.map_congr_left ?_).symm ▸ hd
            intro r _
            exact congrArg (fun d => d.name) (apply_declared _ r)
          rw [ht]
          show (parse title (before ++ q :: after) rest).list = _
          rw [ih _ hnext, List.foldl_cons, hmap]

theorem foldl_apply_perm (calls : List Call) {list list' : List option} (hp : list'.Perm list) :
    (calls.foldl (fun list c => list.map c.apply) list').Perm
      (calls.foldl (fun list c => list.map c.apply) list) := by
  induction calls generalizing list list' with
  | nil => exact hp
  | cons c calls ih => exact ih (hp.map c.apply)

/-! ## The law -/

theorem registered_perm (regs : List option) : (registered regs).Perm regs := by
  have hfold : ∀ list : List option, regs.foldl (fun list p => p :: list) list = regs.reverse ++ list := by
    induction regs with
    | nil => exact fun list => rfl
    | cons p regs ih =>
      intro list
      rw [List.foldl_cons, ih, List.reverse_cons, List.append_assoc, List.singleton_append]
  rw [registered, hfold, List.append_nil]
  exact List.reverse_perm regs

/-- What the tools count on, for options that are registered in any order: `parse_options` returns
exactly if each leading argument is taken by an option, and is not `--help`; when it returns, it has
consumed exactly the leading arguments; each `--n=v` of a registered name that the
loop gets to calls `setval(v)` on that option and does nothing else; and the calls, the values and
what is left do not depend on the order. -/
structure Lawful (title : Text) (regs : List option) (argv : List Text) : Prop where
  returns : ∀ order, order.Perm regs →
    ((∃ rest, (parse_options title (registered order) argv).outcome = .returned rest) ↔
      ∀ arg ∈ (argv.drop 1).takeWhile leading,
        arg ≠ "--help".toList ∧ ∃ p ∈ regs, p.Takes (arg.drop 2))
  consumes : ∀ order, order.Perm regs → ∀ rest,
    (parse_options title (registered order) argv).outcome = .returned rest →
      rest = (argv.drop 1).dropWhile leading
  sets : ∀ order, order.Perm regs → ∀ before n v after,
    argv.drop 1 = before ++ valued n v :: after → (∃ p ∈ regs, p.name = n) →
    (parse title (registered order) before).outcome = .returned [] →
      (parse title (registered order) (before ++ [valued n v])).calls =
        (parse title (registered order) before).calls ++ [⟨n, some v⟩]
  order : ∀ order, order.Perm regs →
    (parse_options title (registered order) argv).calls =
        (parse_options title (registered regs) argv).calls ∧
      (parse_options title (registered order) argv).list.Perm
        (parse_options title (registered regs) argv).list ∧
      (parse_options title (registered order) argv).outcome.rest =
        (parse_options title (registered regs) argv).outcome.rest

theorem parse_calls (title : Text) (list : List option) (args : List Text) :
    (parse title list args).calls = (scan (list.map option.toDeclared) args).1 :=
  congrArg Prod.fst (parse_scan title list args)

theorem parse_rest (title : Text) (list : List option) (args : List Text) :
    (parse title list args).outcome.rest = (scan (list.map option.toDeclared) args).2 :=
  congrArg Prod.snd (parse_scan title list args)

theorem rest_isSome_iff {o : Outcome} : o.rest.isSome = true ↔ ∃ rest, o = .returned rest := by
  cases o with
  | returned argv => exact iff_of_true rfl ⟨argv, rfl⟩
  | exited stderr =>
    refine iff_of_false Bool.false_ne_true ?_
    rintro ⟨rest, h⟩
    cases h

theorem rest_of_returned {o : Outcome} {rest : List Text} (h : o = .returned rest) :
    o.rest = some rest := by
  rw [h]
  rfl

/-- The order of registration as an order of what the constructors fixed. -/
theorem registered_declared {order regs : List option} (hp : order.Perm regs) :
    ((registered order).map option.toDeclared).Perm (regs.map option.toDeclared) :=
  ((registered_perm order).trans hp).map option.toDeclared

theorem distinct_perm {ds es : List Declared} (hp : es.Perm ds) (hd : Distinct ds) : Distinct es :=
  (hp.map (fun d : Declared => d.name)).nodup_iff.2 hd

theorem distinctNames_perm {regs order : List option} (hp : order.Perm regs)
    (hd : DistinctNames regs) : DistinctNames order :=
  (hp.map (fun p : option => p.name)).nodup_iff.2 hd

/-- Whether options shadow one another does not depend on their order. -/
theorem unshadowed_perm {ds es : List Declared} (hp : es.Perm ds) {args : List Text}
    (hu : Unshadowed ds args) : Unshadowed es args := by
  induction args with
  | nil => exact trivial
  | cons arg rest ih =>
    intro hl hh
    obtain ⟨hc, hmore⟩ := hu hl hh
    refine ⟨?_, ?_⟩
    · intro d hd e he
      exact hc d (hp.mem_iff.1 hd) e (hp.mem_iff.1 he)
    · intro ht
      obtain ⟨d, hd, ht⟩ := ht
      exact ih (hmore ⟨d, hp.mem_iff.1 hd, ht⟩)

/-- An order in which a given option is tried first. -/
theorem exists_first {regs : List option} {p : option} (hp : p ∈ regs) :
    ∃ rest, (p :: rest).Perm regs ∧ registered (rest.reverse ++ [p]) = p :: rest := by
  obtain ⟨before, after, hl⟩ := List.append_of_mem hp
  refine ⟨before ++ after, ?_, ?_⟩
  · rw [hl]
    exact List.perm_middle.symm
  · rw [registered, List.foldl_append, List.foldl_reverse, List.foldl_cons, List.foldl_nil]
    congr 1
    induction before ++ after with
    | nil => rfl
    | cons r rest ih => rw [List.foldr_cons, ih]

/-- **The law**, where no option shadows another: each part is that of the scan. -/
theorem lawful_of_unshadowed (title : Text) (regs : List option) (argv : List Text)
    (hd : DistinctNames regs) (hu : Unshadowed (regs.map option.toDeclared) (argv.drop 1)) :
    Lawful title regs argv := by
  have hds := distinct_declared hd
  refine ⟨?_, ?_, ?_, ?_⟩
  · intro order hp
    have hperm := registered_declared hp
    rw [← rest_isSome_iff, parse_options, parse_rest,
      scan_returns_iff (distinct_perm hperm hds) _ (unshadowed_perm hperm hu)]
    simp only [hperm.mem_iff, List.mem_map, exists_exists_and_eq_and]
  · intro order _ rest hr
    have hrest := rest_of_returned hr
    rw [parse_options, parse_rest] at hrest
    exact scan_rest _ _ hrest
  · intro order hp before n v after hargv hreg hbefore
    obtain ⟨p, hpm, rfl⟩ := hreg
    have hperm := registered_declared hp
    have hrest := rest_of_returned hbefore
    rw [parse_rest] at hrest
    rw [hargv] at hu
    have hthis := unshadowed_append hrest (unshadowed_perm hperm hu)
    have hc : Clear ((registered order).map option.toDeclared) (p.name ++ '=' :: v) :=
      (hthis (Bool.not_eq_false _ ▸ valued_leading p.name v) (valued_ne_help p.name v)).1
    rw [parse_calls, parse_calls, scan_append _ hrest,
      scan_valued (distinct_perm hperm hds) (hperm.mem_iff.2 (List.mem_map_of_mem hpm)) v hc]
  · intro order hp
    have hscan : ∀ order, order.Perm regs →
        scan ((registered order).map option.toDeclared) (argv.drop 1) =
          scan (regs.map option.toDeclared) (argv.drop 1) :=
      fun order hp => scan_perm hds (registered_declared hp) _ hu
    have hcalls : (parse_options title (registered order) argv).calls =
        (parse_options title (registered regs) argv).calls := by
      rw [parse_options, parse_calls, parse_options, parse_calls, hscan order hp,
        hscan regs (List.Perm.refl regs)]
    refine ⟨hcalls, ?_, ?_⟩
    · have hlist : ∀ order, order.Perm regs → (parse_options title (registered order) argv).list =
          (parse_options title (registered order) argv).calls.foldl
            (fun list c => list.map c.apply) (registered order) :=
        fun order hp => parse_list title _ _
          (distinctNames_perm ((registered_perm order).trans hp) hd)
      rw [hlist order hp, hlist regs (List.Perm.refl regs), hcalls]
      exact foldl_apply_perm _
        (((registered_perm order).trans hp).trans (registered_perm regs).symm)
    · rw [parse_options, parse_rest, parse_options, parse_rest, hscan order hp,
        hscan regs (List.Perm.refl regs)]

/-- An option in front of the others, as an order of registration. -/
theorem calls_of_order {title : Text} {regs : List option} {argv : List Text}
    (h : Lawful title regs argv) {d : Declared} (hd : d ∈ regs.map option.toDeclared) :
    ∃ ds, (d :: ds).Perm (regs.map option.toDeclared) ∧
      (scan (d :: ds) (argv.drop 1)).1 = (parse_options title (registered regs) argv).calls := by
  obtain ⟨p, hp, rfl⟩ := List.mem_map.1 hd
  obtain ⟨rest, hperm, hreg⟩ := exists_first hp
  refine ⟨rest.map option.toDeclared, hperm.map option.toDeclared, ?_⟩
  have horder : (rest.reverse ++ [p]).Perm regs := (registered_perm _).symm.trans (hreg ▸ hperm)
  rw [← (h.order _ horder).1, parse_options, parse_calls, hreg]
  rfl

/-- The law holds exactly of the command lines on which no option shadows another. -/
theorem lawful_iff (title : Text) (regs : List option) (argv : List Text)
    (hd : DistinctNames regs) :
    Lawful title regs argv ↔ Unshadowed (regs.map option.toDeclared) (argv.drop 1) := by
  refine ⟨?_, lawful_of_unshadowed title regs argv hd⟩
  intro h
  by_contra hu
  obtain ⟨d, hdm, e, hem, hne⟩ := shadowing (distinct_declared hd) (argv.drop 1) hu
  obtain ⟨ds, hdp, hdc⟩ := calls_of_order h hdm
  obtain ⟨es, hep, hec⟩ := calls_of_order h hem
  exact hne ds es hdp hep (hdc.trans hec.symm)

/-- A second option, whose name goes on where that of `stat` ends. -/
def statusOptions : List option :=
  [.valued "status" .int (0 : BitVec 32) "Port of the status page",
    .valued "stat" .long (100 : BitVec 64) "Status every M instructions"]

/-- `--stat=5 prog --x`, with both registered. -/
theorem lawful_stat :
    DistinctNames statusOptions ∧
    Lawful [] statusOptions ["uspike".toList, "--stat=5".toList, "prog".toList, "--x".toList] :=
  ⟨by decide, (lawful_iff [] statusOptions _ (by decide)).2 (by decide)⟩

/-- `--status=1` calls `setval` on no option when `stat` was registered last. -/
theorem status_shadowed :
    DistinctNames statusOptions ∧
    ¬Lawful [] statusOptions ["uspike".toList, "--status=1".toList, "prog".toList] := by
  refine ⟨by decide, ?_⟩
  intro h
  have hset := h.sets statusOptions (List.Perm.refl _) [] "status".toList "1".toList ["prog".toList] rfl
    ⟨_, List.mem_cons_self, rfl⟩ rfl
  exact absurd hset (by decide)

/-! ## The tools -/

/-- No name is the start of another. -/
def PrefixFree (ds : List Declared) : Prop :=
  ∀ d ∈ ds, ∀ e ∈ ds, d.name <+: e.name → d.name = e.name

instance (ds : List Declared) : Decidable (PrefixFree ds) :=
  inferInstanceAs (Decidable (∀ d ∈ ds, ∀ e ∈ ds, _ → _))

theorem clear_of_prefixFree {ds : List Declared} (h : PrefixFree ds) (opt : Text) : Clear ds opt := by
  intro d hd e he hdp hep
  left
  rcases List.prefix_or_prefix_of_prefix hdp hep with hde | hed
  · exact h d hd e he hde
  · exact (h e he d hd hed).symm

/-- Where no name is the start of another, the law holds of every command line. -/
theorem lawful_of_prefixFree (title : Text) (regs : List option) (argv : List Text)
    (hd : DistinctNames regs) (h : PrefixFree (regs.map option.toDeclared)) :
    Lawful title regs argv := by
  refine lawful_of_unshadowed title regs argv hd ?_
  induction argv.drop 1 with
  | nil => exact trivial
  | cons arg rest ih => exact fun _ _ => ⟨clear_of_prefixFree h _, fun _ => ih⟩

/-- The options in `interpreter.cc`. -/
def interpreter_options : List option :=
  [.valued "isa" .text (some "rv64imafdcv".toList) "RISC-V ISA string",
    .valued "vec" .text (some "vlen:128,elen:64,slen:128".toList) "Vector unit parameters",
    .valued "stat" .long (100 : BitVec 64) "Status every M instructions",
    .optional "ecall" .bool false true "Show system calls",
    .optional "quiet" .bool false true "No status report"]

/-- Those in `main.cc`. -/
def uspike_options : List option :=
  interpreter_options ++
    [.valued "show" .long (0 : BitVec 64) "Trace execution after N gdb continue",
      .optional "gdb" .text none (some "localhost:1234".toList) "Remote GDB on socket"]

/-- Those in `simulator.cc`. -/
def caveat_options : List option :=
  interpreter_options ++
    [.valued "jump" .long (2 : BitVec 64) "Taken branch pipeline flush cycles",
      .valued "imiss" .int (15 : BitVec 32) "Instruction cache miss penalty",
      .valued "iways" .int (4 : BitVec 32) "Instruction cache number of ways associativity",
      .valued "iline" .int (6 : BitVec 32) "Instruction cache log-base-2 line size",
      .valued "irows" .int (6 : BitVec 32) "Instruction cache log-base-2 number of rows",
      .valued "dmiss" .int (15 : BitVec 32) "Data cache miss penalty",
      .valued "dways" .int (4 : BitVec 32) "Data cache number of ways associativity",
      .valued "dline" .int (6 : BitVec 32) "Data cache log-base-2 line size",
      .valued "drows" .int (6 : BitVec 32) "Data cache log-base-2 number of rows",
      .valued "cores" .int (8 : BitVec 32) "Maximum number of cores",
      .valued "perf" .text (some "caveat".toList) "Name of shared memory segment"]

/-- The tools' own options shadow one another on no command line. -/
theorem lawful_tools (title : Text) (argv : List Text) :
    Lawful title uspike_options argv ∧ Lawful title caveat_options argv :=
  ⟨lawful_of_prefixFree title _ argv (by decide) (by decide),
    lawful_of_prefixFree title _ argv (by decide) (by decide)⟩

end Cavatools.Uspike.Options
