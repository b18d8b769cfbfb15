import ResumableParsing.Proofs.Choice.Associativity
import ResumableParsing.Proofs.Repetition.Greedy

/-!
# Parsers that take turns

Parsers run one after the other, each in the state of the success before. Several combinators do
that; they differ in what is written into the log, in when serial numbers are drawn, and in what
they make of the results.

* `Store.Upholds`: definitions stay, and what other definitions capture of them
* `arrives_ignore`: a parser whose result is to be left out
* `Leg`, `Relay`: parsers that take turns, with some bookkeeping before each of them
* `relay_append`, `relay_entering`: one relay after another, and bookkeeping before a relay
* `Tally.Told`, `ParserId.RunsInTurn`: a parser is a relay of others, and makes one of their results
* `ParserId.RunsInTurn.alongside`: two relays of the same parsers go alike
-/

namespace ResumableParsing

variable {W : Type}

/-! ## Captured definitions -/

/-- Parsers that have a definition keep it, and other definitions still capture the same of it. -/
structure Store.Upholds (σ τ : Store W) : Prop extends σ.Maintains τ where
  /-- What can be captured stays. -/
  captured : ∀ p code code', ParserId.Runs σ p code' → code' ≠ .body .undeclared →
    ParserId.Captured σ p code → ParserId.Captured τ p code

section

variable {σ τ υ : Store W} {p q r : ParserId} {code code' : Code W} {b : Body W}

theorem Store.Upholds.refl (σ : Store W) : σ.Upholds σ := ⟨.refl σ, fun _ _ _ _ _ h => h⟩

theorem Store.Upholds.trans (h : σ.Upholds τ) (h' : τ.Upholds υ) : σ.Upholds υ where
  toMaintains := h.toMaintains.trans h'.toMaintains
  captured p code code' runs hc captured :=
    h'.captured p code code' (h.runs p code' runs hc) hc (h.captured p code code' runs hc captured)

theorem Store.Grows.upholds (g : σ.Grows τ) : σ.Upholds τ where
  toMaintains := g.maintains
  captured _ _ _ _ _ h := h.later g

/-- Defining a declaration that has no definition yet changes nothing that has been captured of
other parsers. -/
theorem ParserId.Waits.upholds (h : r.Waits σ) (source : ParserId) :
    σ.Upholds (r.define source σ).2 where
  toMaintains := h.maintains source
  captured p code code' runs hc captured := by
    refine captured.define_other ?_ source
    -- A declaration that waits has no definition that could have been captured.
    rintro rfl
    exact hc (runs.unique h.performs)

theorem ParserId.Performs.upheld (h : p.Performs σ b) (k : σ.Upholds τ) (hb : b ≠ .undeclared) :
    p.Performs τ b := h.maintained k.toMaintains hb

end

section

variable {chunks : Int → Stream Value} {σ : Store W} {p q : ParserId} {s : State Value}
  {y : EStateM.Result Stop (Store W) (Finish W)} {code : Code W}

/-- A job whose reply is the reply of the program. -/
theorem lands_reply {j : Job W} :
    (Direct.reply j).Lands chunks σ y ↔ j.direct.Lands chunks σ y := by
  have patient : ∀ r, (Direct.done r : Direct W (Reply Value)).Patient := fun _ => trivial
  rw [Direct.reply, lands_call patient]
  constructor
  · rintro (⟨r, σ₁, first, rest⟩ | ⟨e, τ, first, rfl⟩)
    · cases lands_done.mp rest
      exact first
    · exact first
  · intro h
    obtain ⟨r, τ, rfl, -⟩ | ⟨e, τ, rfl, -⟩ := h.cases
    · exact .inl ⟨r, τ, h, lands_done.mpr rfl⟩
    · exact .inr ⟨e, τ, h, rfl⟩

/-- What is captured of a parser arrives where the parser does. -/
theorem ParserId.Captured.lands_iff (h : p.Captured σ code) :
    (Job.code code s).direct.Lands chunks σ y ↔ p.Arrives chunks s σ y := by
  obtain ⟨c, hc, rfl⟩ := h
  have patient := (Direct.Patient.job (.parser p s : Job W)).2
  rw [← lands_iff_arrives]
  change _ ↔ (Direct.act p.found _).Lands chunks σ y
  rw [lands_act_ok (composed_found p) patient (comes_found hc), Direct.done_bind, Cell.code]
  cases c.direct with
  | some code => exact lands_reply.symm
  | none => exact .rfl

/-- What a parser arrives at whose result is to be left out. -/
inductive IgnoreArrives (chunks : Int → Stream Value) (a : ParserId) (s : State Value)
    (σ : Store W) : EStateM.Result Stop (Store W) (Finish W) → Prop where
  /-- The parser fails. -/
  | failed {d : Bool} {e : ParseError Value} {t : State Value} {τ : Store W} :
      a.Arrives chunks s σ (.ok (.reply (.err d e t)) τ) →
      IgnoreArrives chunks a s σ (.ok (.reply (.err d e t)) τ)
  /-- The parser breaks off. -/
  | stop {e : Stop} {τ : Store W} :
      a.Arrives chunks s σ (.error e τ) → IgnoreArrives chunks a s σ (.error e τ)
  /-- The result is marked. -/
  | marked {d : Bool} {v : Value} {t : State Value} {τ : Store W} :
      a.Arrives chunks s σ (.ok (.reply (.ok d v t)) τ) →
      IgnoreArrives chunks a s σ (.ok (.reply (.ok d v.ignore t)) τ)

theorem arrives_ignore (h : q.Performs σ (.ignore code)) (hc : p.Captured (q.tried σ) code) :
    q.Arrives chunks s σ y ↔ IgnoreArrives chunks p s (q.tried σ) y := by
  rw [h.arrives_iff]
  change (Direct.call (.code code s) _).Lands chunks _ y ↔ _
  rw [lands_call (Direct.Patient.body (.ignore code : Body W) s)]
  -- The captured run function is the one of the parser, after it has been looked up.
  simp only [hc.lands_iff]
  constructor
  · rintro (⟨r, σ₁, first, rest⟩ | ⟨e, τ, first, rfl⟩)
    · cases r with
      | err d e t =>
        cases lands_done.mp rest
        exact .failed first
      | ok d v t =>
        cases lands_done.mp rest
        exact .marked first
    · exact .stop first
  · intro h
    cases h with
    | failed h => exact .inl ⟨_, _, h, lands_done.mpr rfl⟩
    | stop h => exact .inr ⟨_, _, h, rfl⟩
    | marked h => exact .inl ⟨_, _, h, lands_done.mpr rfl⟩

end

/-! ## Relays -/

/-- A parser that has its turn, with the bookkeeping that is done before it. -/
structure Leg (W : Type) where
  /-- What is done to the store. -/
  before : Store W → Store W
  /-- The parser. -/
  parser : ParserId

/-- `Relay chunks legs s σ r τ`: the parsers run one after the other, the first one in the state `s`
and the store `σ`, and each of the others in the state of the success before. They come to `r`, and
leave the store `τ`. -/
inductive Relay (chunks : Int → Stream Value) :
    List (Leg W) → State Value → Store W → Tally → Store W → Prop where
  /-- All have had their turns. -/
  | ended {s : State Value} {σ : Store W} : Relay chunks [] s σ (.ok false [] s) σ
  /-- A parser fails. -/
  | fails {leg : Leg W} {legs : List (Leg W)} {s t : State Value} {d : Bool}
      {e : ParseError Value} {σ τ : Store W} :
      leg.parser.Arrives chunks s (leg.before σ) (.ok (.reply (.err d e t)) τ) →
      Relay chunks (leg :: legs) s σ (.err d e t) τ
  /-- A parser breaks off. -/
  | breaks {leg : Leg W} {legs : List (Leg W)} {s : State Value} {e : Stop} {σ τ : Store W} :
      leg.parser.Arrives chunks s (leg.before σ) (.error e τ) →
      Relay chunks (leg :: legs) s σ (.broken e) τ
  /-- A parser succeeds, and the next one has its turn. -/
  | next {leg : Leg W} {legs : List (Leg W)} {s t : State Value} {d : Bool} {v : Value}
      {σ σ₁ τ : Store W} {r : Tally} :
      leg.parser.Arrives chunks s (leg.before σ) (.ok (.reply (.ok d v t)) σ₁) →
      Relay chunks legs t σ₁ r τ → Relay chunks (leg :: legs) s σ (r.onto d [v]) τ

/-- More bookkeeping before the first turn. -/
def Leg.entering (f : Store W → Store W) : List (Leg W) → List (Leg W)
  | [] => []
  | leg :: legs => ⟨fun σ => leg.before (f σ), leg.parser⟩ :: legs

section

variable {chunks : Int → Stream Value} {leg : Leg W} {legs more : List (Leg W)}
  {s t : State Value} {σ τ : Store W} {r : Tally} {c : Bool} {vs : List Value}

theorem Leg.parsers_entering (f : Store W → Store W) (legs : List (Leg W)) :
    (entering f legs).map Leg.parser = legs.map Leg.parser := by
  cases legs <;> rfl

theorem Leg.clerical_entering {f : Store W → Store W} (hf : ∀ σ : Store W, σ.Clerical (f σ))
    (h : ∀ leg ∈ legs, ∀ σ : Store W, σ.Clerical (leg.before σ)) :
    ∀ leg ∈ entering f legs, ∀ σ : Store W, σ.Clerical (leg.before σ) := by
  cases legs with
  | nil => exact h
  | cons first legs =>
    intro leg member σ
    cases member with
    | head => exact (hf σ).trans (h first (.head _) (f σ))
    | tail _ member => exact h leg (.tail _ member) σ

/-- The bookkeeping is done before the first parser. -/
theorem relay_entering (f : Store W → Store W) (hne : legs ≠ []) :
    Relay chunks (Leg.entering f legs) s σ r τ ↔ Relay chunks legs s (f σ) r τ := by
  cases legs with
  | nil => exact absurd rfl hne
  | cons leg legs =>
    constructor
    · intro h
      cases h with
      | fails h => exact .fails h
      | breaks h => exact .breaks h
      | next h rest => exact .next h rest
    · intro h
      cases h with
      | fails h => exact .fails h
      | breaks h => exact .breaks h
      | next h rest => exact .next h rest

theorem Relay.length (h : Relay chunks legs s σ (.ok c vs t) τ) : vs.length = legs.length := by
  generalize hr : Tally.ok c vs t = r at h
  induction h generalizing c vs with
  | ended =>
    cases hr
    rfl
  | @next _ _ _ _ _ _ _ _ _ r _ _ ih =>
    cases r with
    | ok c' ws t' =>
      cases hr
      exact congrArg Nat.succ (ih rfl)
    | _ => cases hr
  | _ => cases hr

theorem Tally.isOk_onto : (r.onto c vs).IsOk ↔ r.IsOk := by cases r <;> rfl

/-- One relay after another: the second one begins where the first one has succeeded. -/
theorem relay_append : Relay chunks (legs ++ more) s σ r τ ↔
    (∃ c vs t σ₁ r', Relay chunks legs s σ (.ok c vs t) σ₁ ∧ Relay chunks more t σ₁ r' τ ∧
      r = r'.onto c vs) ∨
    (Relay chunks legs s σ r τ ∧ ¬r.IsOk) := by
  -- The induction is on the first list of legs. Where one of them does not succeed, none of the
  -- second list has a turn.
  induction legs generalizing s σ r with
  | nil =>
    constructor
    · exact fun h => .inl ⟨false, [], s, σ, r, .ended, h, r.onto_start.symm⟩
    · rintro (⟨c, vs, t, σ₁, r', h, h', rfl⟩ | ⟨h, notOk⟩)
      · cases h
        rwa [Tally.onto_start]
      · cases h
        exact absurd trivial notOk
  | cons leg legs ih =>
    constructor
    · intro h
      cases h with
      | fails h => exact .inr ⟨.fails h, id⟩
      | breaks h => exact .inr ⟨.breaks h, id⟩
      | @next _ _ _ _ d v _ _ _ r first rest =>
        rcases ih.mp rest with ⟨c, vs, t, σ₁, r', h, h', rfl⟩ | ⟨h, notOk⟩
        · exact .inl ⟨d || c, v :: vs, t, σ₁, r', .next first h, h', Tally.onto_onto r'⟩
        · exact .inr ⟨.next first h, fun ok => notOk (Tally.isOk_onto.mp ok)⟩
    · rintro (⟨c, vs, t, σ₁, r', h, h', rfl⟩ | ⟨h, notOk⟩)
      · generalize hr : Tally.ok c vs t = r at h
        cases h with
        | @next _ _ _ _ d v _ _ _ r first rest =>
          cases r with
          | ok c' ws t' =>
            cases hr
            have onward := ih.mpr (.inl ⟨c', ws, t, σ₁, r', rest, h', rfl⟩)
            have both := Relay.next first onward
            rwa [Tally.onto_onto] at both
          | _ => cases hr
        | _ => cases hr
      · cases h with
        | fails h => exact .fails h
        | breaks h => exact .breaks h
        | next first rest =>
          exact .next first (ih.mpr (.inr ⟨rest, fun ok => notOk (Tally.isOk_onto.mpr ok)⟩))

end

/-! ## Parsers that are relays -/

/-- `r.Told present settle τ y`: where a relay has come to `r` and left the store `τ`, the run of a
parser has the outcome `y`. The results are presented by one value, which takes some bookkeeping. -/
inductive Tally.Told (present : Value → List Value → Prop) (settle : Nat → Store W → Store W)
    (τ : Store W) : Tally → EStateM.Result Stop (Store W) (Finish W) → Prop where
  /-- The value for the results. -/
  | ok {c : Bool} {vs : List Value} {s : State Value} {v : Value} : present v vs →
      Told present settle τ (.ok c vs s) (.ok (.reply (.ok c v s)) (settle vs.length τ))
  /-- The error. -/
  | err {c : Bool} {e : ParseError Value} {s : State Value} :
      Told present settle τ (.err c e s) (.ok (.reply (.err c e s)) τ)
  /-- A parser has broken off. -/
  | broken {e : Stop} : Told present settle τ (.broken e) (.error e τ)

/-- In all stores that uphold `base`, in every state, and whatever chunks the input comes in, the
parser arrives where the relay does. -/
structure ParserId.Relays (base : Store W) (a : ParserId) (legs : List (Leg W))
    (settle : Nat → Store W → Store W) (present : Value → List Value → Prop) : Prop where
  /-- What the parser arrives at, the relay comes to. -/
  sound : ∀ chunks σ s y, base.Upholds σ → a.Arrives chunks s σ y →
    ∃ r τ, Relay chunks legs s σ r τ ∧ r.Told present settle τ y
  /-- What the relay comes to, the parser arrives at. -/
  complete : ∀ chunks σ s r τ, base.Upholds σ → Relay chunks legs s σ r τ →
    ∃ y, a.Arrives chunks s σ y ∧ r.Told present settle τ y

/-- The parser runs the parsers `qs` one after the other, and presents their results by one value.
It has consumed if any of them has, fails as the first of them does that fails, and ends in the
state of the last one; between the runs nothing happens but bookkeeping. -/
def ParserId.RunsInTurn (base : Store W) (a : ParserId) (qs : List ParserId)
    (present : Value → List Value → Prop) : Prop :=
  ∃ (legs : List (Leg W)) (settle : Nat → Store W → Store W), legs.map Leg.parser = qs ∧
    (∀ leg ∈ legs, ∀ σ : Store W, σ.Clerical (leg.before σ)) ∧
      (∀ n (σ : Store W), σ.Clerical (settle n σ)) ∧
    a.Relays base legs settle present

section

variable {base base' σ : Store W} {a b : ParserId} {legs : List (Leg W)} {qs : List ParserId}
  {settle : Nat → Store W → Store W} {present present' : Value → List Value → Prop}

theorem ParserId.RunsInTurn.later (h : a.RunsInTurn base qs present) (k : base.Upholds base') :
    a.RunsInTurn base' qs present := by
  obtain ⟨legs, settle, parsers, clerical, settled, relays⟩ := h
  exact ⟨legs, settle, parsers, clerical, settled,
    fun chunks σ s y g => relays.sound chunks σ s y (k.trans g),
    fun chunks σ s r τ g => relays.complete chunks σ s r τ (k.trans g)⟩

/-! ## Two relays of the same parsers -/

/-- Both relays come to the same, and each of them has its own presentation of the results. -/
inductive Finish.Alongside (present present' : Value → List Value → Prop) :
    EStateM.Result Stop (Store W) (Finish W) → EStateM.Result Stop (Store W) (Finish W) →
      Prop where
  | ok {d : Bool} {v v' : Value} {vs vs' : List Value} {s t : State Value} {σ τ : Store W} :
      List.Forall₂ (Value.Corresponds σ τ) vs vs' → present v vs → present' v' vs' →
      s.Corresponds σ τ t → Alongside present present' (.ok (.reply (.ok d v s)) σ)
        (.ok (.reply (.ok d v' t)) τ)
  | err {d : Bool} {e f : ParseError Value} {s t : State Value} {σ τ : Store W} :
      e.Corresponds σ τ f → s.Corresponds σ τ t →
      Alongside present present' (.ok (.reply (.err d e s)) σ) (.ok (.reply (.err d f t)) τ)
  | stop (e : Stop) (σ τ : Store W) : Alongside present present' (.error e σ) (.error e τ)

/-- What two relays come to corresponds. -/
inductive Correspondence.Tallies (C : Correspondence W) (w : C.World) : Tally → Tally → Prop where
  | ok (c : Bool) {vs vs' : List Value} {s t : State Value} :
      List.Forall₂ (C.Values w) vs vs' → C.States w s t → Tallies C w (.ok c vs s) (.ok c vs' t)
  | err (c : Bool) {e f : ParseError Value} {s t : State Value} :
      C.Errors w e f → C.States w s t → Tallies C w (.err c e s) (.err c f t)
  | broken (e : Stop) : Tallies C w (.broken e) (.broken e)

variable {C : Correspondence W} {w : C.World} {chunks : Int → Stream Value}

/-- A relay of the same parsers, from a corresponding state and store, goes alike, whatever
bookkeeping is done. The induction is on the relay; the world grows with every turn. -/
theorem Relay.transfer (hC : C.Lawful) (h : C.KeepsArrivals chunks) {more : List (Leg W)}
    (parsers : legs.map Leg.parser = more.map Leg.parser)
    (hb : ∀ leg ∈ legs, ∀ σ : Store W, σ.Clerical (leg.before σ))
    (hb' : ∀ leg ∈ more, ∀ σ : Store W, σ.Clerical (leg.before σ))
    {s t : State Value} {σ σ' τ : Store W}
    (hs : C.Stores w σ τ) (ht : C.States w s t)
    (hp : ∀ leg ∈ legs, C.Parsers w leg.parser leg.parser) {r : Tally}
    (relay : Relay chunks legs s σ r σ') :
    ∃ w' r' τ', Relay chunks more t τ r' τ' ∧ C.During w w' ∧ C.Stores w' σ' τ' ∧
      C.Tallies w' r r' := by
  induction relay generalizing more w t τ with
  | ended =>
    obtain rfl : more = [] := List.map_eq_nil_iff.mp parsers.symm
    exact ⟨w, _, τ, .ended, hC.refl w, hs, .ok false .nil ht⟩
  | @fails leg legs s s' d e σ σ' run =>
    obtain ⟨leg', more, rfl, same, -⟩ := List.map_eq_cons_iff.mp parsers.symm
    -- Bookkeeping changes nothing that corresponds, so both parsers start alike.
    have begins := h.clerical hs (hb _ (.head _) σ) (hb' _ (.head _) τ)
    obtain ⟨y', run', ends⟩ := h.arrives begins ht (hp _ (.head _)) run
    rw [← same] at run'
    obtain ⟨f, τ', w', rfl, le, hs', finishes⟩ := ends.of_ok
    cases finishes with
    | reply hr =>
      cases hr with
      | err _ he ht' => exact ⟨w', _, τ', .fails run', le, hs', .err d he ht'⟩
  | @breaks leg legs s e σ σ' run =>
    obtain ⟨leg', more, rfl, same, -⟩ := List.map_eq_cons_iff.mp parsers.symm
    have begins := h.clerical hs (hb _ (.head _) σ) (hb' _ (.head _) τ)
    obtain ⟨y', run', ends⟩ := h.arrives begins ht (hp _ (.head _)) run
    rw [← same] at run'
    obtain ⟨τ', w', rfl, le, hs'⟩ := ends.of_error
    exact ⟨w', _, τ', .breaks run', le, hs', .broken e⟩
  | @next leg legs s s₁ d v σ σ₁ σ' r run _ ih =>
    obtain ⟨leg', more, rfl, same, rest⟩ := List.map_eq_cons_iff.mp parsers.symm
    have begins := h.clerical hs (hb _ (.head _) σ) (hb' _ (.head _) τ)
    obtain ⟨y', run', ends⟩ := h.arrives begins ht (hp _ (.head _)) run
    rw [← same] at run'
    obtain ⟨f, τ₁, w₁, rfl, le, hs₁, finishes⟩ := ends.of_ok
    cases finishes with
    | reply hr =>
      cases hr with
      | @ok _ u _ t₁ _ hv ht₁ =>
        have parsers' (leg : Leg W) (member : leg ∈ legs) :=
          hC.parsers_mono (hC.le le) (hp leg (.tail _ member))
        obtain ⟨w', r', τ', onward, le', hs', tallies⟩ := ih rest.symm
          (fun leg member => hb leg (.tail _ member)) (fun leg member => hb' leg (.tail _ member))
          hs₁ ht₁ parsers'
        refine ⟨w', _, τ', .next run' onward, hC.during_trans le le', hs', ?_⟩
        cases tallies with
        | ok c hvs ht' => exact .ok (d || c) (.cons (hC.values_mono (hC.le le') hv) hvs) ht'
        | err c he ht' => exact .err (d || c) he ht'
        | broken e => exact .broken e

/-- With pure functions of the caller, whatever the one relay arrives at over a stream of data, the
other one arrives at the same, but for the presentation of the results. -/
theorem ParserId.RunsInTurn.alongside (ha : a.RunsInTurn base qs present)
    (hb : b.RunsInTurn base qs present') {P : ParserId → Prop} (g : base.Upholds σ)
    (pure : σ.Pure P) (hP : ∀ q ∈ qs, P q) {i : Stream Value} {x : Elements}
    (hi : i.Supplies σ x) (data : ∀ v ∈ x, v.Settled) (watched : Bool) (position : Int)
    (user : Value) {y : EStateM.Result Stop (Store W) (Finish W)}
    (hy : a.Arrives chunks (.plain watched i position user) σ y) :
    ∃ y', b.Arrives chunks (.plain watched i position user) σ y' ∧
      Finish.Alongside present present' y y' := by
  -- The first parser comes down to its relay, the relay is transferred to the other legs, and from
  -- there the way leads up to the second parser.
  obtain ⟨legs, settle, rfl, clerical, settled, relays⟩ := ha
  obtain ⟨more, settle', parsers, clerical', settled', relays'⟩ := hb
  obtain ⟨w, hs, ht, known⟩ := Storage.begins pure.agree hi hi data watched position user
  obtain ⟨r, σ', relay, told⟩ := relays.sound chunks σ _ y g hy
  have members (leg : Leg W) (member : leg ∈ legs) :=
    known leg.parser (hP _ (List.mem_map_of_mem member))
  have arrivals := Storage.keepsArrivals W chunks
  obtain ⟨w', r', τ', relay', -, hs', tallies⟩ := relay.transfer (Storage.lawful W).lawful arrivals
    parsers.symm clerical clerical' hs ⟨x, ht⟩ members
  obtain ⟨y', hy', told'⟩ := relays'.complete chunks σ _ r' τ' g relay'
  refine ⟨y', hy', ?_⟩
  cases tallies with
  | ok c hvs ht' =>
    cases told with
    | ok hv =>
      cases told' with
      | ok hv' =>
        obtain ⟨agree, stores⟩ := arrivals.clerical hs' (settled _ σ') (settled' _ τ')
        exact .ok (hvs.imp fun _ _ like => ⟨w'.1, agree, like⟩) hv hv'
          (Storage.corresponds_state stores ht')
  | err c he ht' =>
    cases told with
    | err =>
      cases told' with
      | err =>
        obtain ⟨agree, stores⟩ := hs'
        exact .err (Storage.corresponds_error agree stores he)
          (Storage.corresponds_state stores ht')
  | broken e =>
    cases told with
    | broken =>
      cases told' with
      | broken => exact .stop e σ' τ'

end

end ResumableParsing
