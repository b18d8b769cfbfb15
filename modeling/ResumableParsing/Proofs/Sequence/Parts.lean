import ResumableParsing.Proofs.Sequence.Relays
import ResumableParsing.Proofs.Stream.Tokens

/-!
# Parts that are left out

A parser may be marked so that sequential combination leaves out its result. With each part that a
chain of parsers gets, it is decided what becomes of the result: nothing as long as nothing is kept,
the bare result if it is the first one, and otherwise a group, in which all results stand side by
side.

* `ParserId.Skips`: a parser whose result is left out
* `Value.Gathers`, `Value.Chained`: the value of a chain, and how one more result changes it
* `ParserId.Relays.seq`, `ParserId.Relays.ignore`: a relay with one more parser
* `ParserId.TakesTurns`: parsers that do nothing to the store once their parts have run
-/

namespace ResumableParsing

variable {W : Type}

/-! ## Parts that are left out -/

/-- Sequential combination leaves out the result of the parser, which marks all its results. -/
def ParserId.Skips (σ : Store W) (q : ParserId) : Prop :=
  q.Marked σ true ∧ ∃ code, q.Performs σ (.ignore code)

section

variable {σ τ base : Store W} {p q : ParserId} {flags : ParserId → Bool} {a : Core W}

theorem ParserId.Skips.later (h : q.Skips σ) (k : σ.Extends τ) : q.Skips τ := by
  obtain ⟨marked, code, performs⟩ := h
  exact ⟨marked.later k, code, performs.later k.grows⟩

theorem Value.exists_ignore (v : Value) : ∃ w, v.ignore = .ignored w := by
  cases v <;> exact ⟨_, rfl⟩

/-- Such a parser marks its results. -/
theorem ParserId.Performs.marks {code : Code W} (h : q.Performs σ (.ignore code))
    {chunks : Int → Stream Value} {s t : State Value} {d : Bool} {v : Value}
    (run : q.Arrives chunks s σ (.ok (.reply (.ok d v t)) τ)) : ∃ w, v = .ignored w := by
  have lands := h.arrives_iff.mp run
  change (Direct.call (.code code s) _).Lands chunks _ _ at lands
  rw [lands_call (Direct.Patient.body (.ignore code : Body W) s)] at lands
  obtain ⟨r, σ₁, -, rest⟩ | ⟨e, τ, -, ⟨⟩⟩ := lands
  cases r with
  | err d e t => cases lands_done.mp rest
  | ok d v t =>
    cases lands_done.mp rest
    exact v.exists_ignore

end

/-! ## The value of a chain -/

/-- The results of the parts that are not left out. -/
def Value.kept (marks : ParserId → Bool) (qs : List ParserId) (vs : List Value) : List Value :=
  ((qs.zip vs).filter fun part => !marks part.1).map Prod.snd

/-- `Gathers vs us v`: where the parts of a chain have the results `vs`, of which `us` are kept, the
value of the chain is `v`. -/
inductive Value.Gathers (vs : List Value) : List Value → Value → Prop where
  /-- All are left out, and the value is the last one of them, which is marked. -/
  | none {v : Value} : vs.getLast? = .some (.ignored v) → Gathers vs [] (.ignored v)
  /-- The only one that is kept. -/
  | one (v : Value) : Gathers vs [v] v
  /-- Two or more of them, in one group. -/
  | several (v w : Value) (us : List Value) : Gathers vs (v :: w :: us) (.group (v :: w :: us))

/-- The value gathers the results that are kept, unless one of them is such a group itself. -/
def Value.Chained (marks : ParserId → Bool) (qs : List ParserId) (v : Value) (vs : List Value) :
    Prop :=
  (∀ u ∈ kept marks qs vs, ∀ ws, u ≠ .group ws) → v.Gathers vs (kept marks qs vs)

/-- The value is the stream of the results. -/
def Value.Streams (v : Value) (vs : List Value) : Prop :=
  ∃ x : Stream Value, v = .stream x ∧ x.Spells vs

/-- A group with one more value, or a new one. -/
def Value.together : Value → Value → Value
  | .group vs, w => .group (vs ++ [w])
  | v, w => .group [v, w]

section

variable {marks : ParserId → Bool} {q : ParserId} {qs : List ParserId} {v w : Value}
  {vs us : List Value}

theorem Value.kept_concat (h : vs.length = qs.length) (q : ParserId) (w : Value) :
    kept marks (qs ++ [q]) (vs ++ [w]) = kept marks qs vs ++ if marks q then [] else [w] := by
  unfold kept
  rw [List.zip_append h.symm, List.filter_append, List.map_append]
  cases hq : marks q <;> simp [hq]

/-- Nothing is kept just where all parts are left out. -/
theorem Value.kept_eq_nil (h : vs.length = qs.length) :
    kept marks qs vs = [] ↔ qs.all marks = true := by
  induction qs generalizing vs with
  | nil => simp [kept]
  | cons q qs ih =>
    cases vs with
    | nil => simp at h
    | cons v vs =>
      have length : vs.length = qs.length := by simpa using h
      have rest := ih length
      unfold kept at rest ⊢
      cases hq : marks q <;> simp_all

/-- A part that is left out changes no value of results that are kept. -/
theorem Value.Gathers.leave (h : v.Gathers vs us) (some : us ≠ []) (ws : List Value) :
    v.Gathers ws us := by
  cases h with
  | none => exact absurd rfl some
  | one => exact .one v
  | several u w us => exact .several u w us

/-- One more result that is kept goes into the group. -/
theorem Value.Gathers.together (h : v.Gathers vs us) (some : us ≠ [])
    (plain : ∀ u ∈ us, ∀ ws, u ≠ .group ws) (w : Value) :
    (v.together w).Gathers (vs ++ [w]) (us ++ [w]) := by
  cases h with
  | none => exact absurd rfl some
  | several u u' us => exact .several u u' (us ++ [w])
  | one =>
    -- A group would be taken for the value of a chain.
    have single : v.together w = .group [v, w] := by
      cases v with
      | group ws => exact absurd rfl (plain _ (.head _) ws)
      | _ => rfl
    rw [single]
    exact .several v w []

/-! ### One more result -/

/-- The first result that is kept is the value. -/
theorem Value.Chained.take (all : qs.all marks = true) (hq : marks q = false)
    (length : vs.length = qs.length) : w.Chained marks (qs ++ [q]) (vs ++ [w]) := by
  intro _
  rw [kept_concat length, (kept_eq_nil length).mpr all, hq]
  exact .one w

/-- As long as nothing is kept, the value is the last result, with its mark. -/
theorem Value.Chained.mark (all : qs.all marks = true) (hq : marks q = true)
    (length : vs.length = qs.length) :
    (Value.ignored w).Chained marks (qs ++ [q]) (vs ++ [.ignored w]) := by
  intro _
  rw [kept_concat length, (kept_eq_nil length).mpr all, hq]
  apply Gathers.none
  rw [List.getLast?_append, List.getLast?_singleton, Option.some_or]

/-- Once something is kept, a part that is left out does not change the value. -/
theorem Value.Chained.drop (some : qs.all marks = false) (hq : marks q = true)
    (length : vs.length = qs.length) (h : v.Chained marks qs vs) :
    v.Chained marks (qs ++ [q]) (vs ++ [w]) := by
  have more : kept marks qs vs ≠ [] := by simp [kept_eq_nil length, some]
  intro plain
  simp only [kept_concat length, hq, if_true, List.append_nil] at plain ⊢
  exact (h plain).leave more _

/-- Once something is kept, another result goes into the group. -/
theorem Value.Chained.join (some : qs.all marks = false) (hq : marks q = false)
    (length : vs.length = qs.length) (h : v.Chained marks qs vs) :
    (v.together w).Chained marks (qs ++ [q]) (vs ++ [w]) := by
  have more : kept marks qs vs ≠ [] := by simp [kept_eq_nil length, some]
  intro plain
  rw [kept_concat length, hq, if_neg Bool.false_ne_true] at plain ⊢
  have before (u : Value) (hu : u ∈ kept marks qs vs) := plain u (List.mem_append_left _ hu)
  exact (h before).together more before w

end

/-! ## One more part -/

section

variable {base : Store W} {a a' b q : ParserId} {legs : List (Leg W)} {c : Combine}
  {join : Value → Value → Value} {present present' : Value → List Value → Prop}
  {Q : Value → Prop} {chunks : Int → Stream Value}

theorem Relay.single {leg : Leg W} {s t : State Value} {σ τ : Store W} {d : Bool} {v : Value}
    (h : leg.parser.Arrives chunks s (leg.before σ) (.ok (.reply (.ok d v t)) τ)) :
    Relay chunks [leg] s σ (.ok d [v] t) τ := by
  have relay := Relay.next h .ended
  simpa only [Tally.onto, Bool.or_false, List.append_nil] using relay

/-- A parser by itself. -/
theorem relays_single
    (hq : ∀ chunks s (σ : Store W) d v t τ, base.Upholds σ →
      q.Arrives chunks s σ (.ok (.reply (.ok d v t)) τ) → Q v)
    (hpresent : ∀ v, Q v → present v [v]) :
    q.Relays base [⟨id, q⟩] (fun _ => id) present where
  sound chunks σ s y g h := by
    cases y with
    | error e τ => exact ⟨_, τ, .breaks h, .broken⟩
    | ok f τ =>
      cases f with
      | request r => exact absurd rfl (h.1 r τ)
      | reply r =>
        cases r with
        | ok d v t => exact ⟨_, τ, .single h, .ok (hpresent v (hq _ _ _ _ _ _ _ g h))⟩
        | err d e t => exact ⟨_, τ, .fails h, .err⟩
  complete chunks σ s r τ g h := by
    cases h with
    | fails h => exact ⟨_, h, .err⟩
    | breaks h => exact ⟨_, h, .broken⟩
    | @next _ _ _ _ d v _ _ _ _ h rest =>
      cases rest
      refine ⟨_, h, ?_⟩
      simp only [Tally.onto, Bool.or_false, List.append_nil]
      exact .ok (hpresent v (hq _ _ _ _ _ _ _ g h))

/-- A sequence of a relay and one more parser is a longer relay. -/
theorem ParserId.Relays.seq (ha : a.Relays base legs (fun _ => id) present) (hne : legs ≠ [])
    (h : a'.Performs base (.seq a q c))
    (joins : ∀ v w (σ : Store W), (c.join v w).Comes σ (.ok (join v w) σ))
    (hq : ∀ chunks s (σ : Store W) d v t τ, base.Upholds σ →
      q.Arrives chunks s σ (.ok (.reply (.ok d v t)) τ) → Q v)
    (hpresent : ∀ v vs w, vs.length = legs.length → present v vs → Q w →
      present' (join v w) (vs ++ [w])) :
    a'.Relays base (Leg.entering a'.tried legs ++ [⟨id, q⟩]) (fun _ => id) present' where
  sound chunks σ s y g arrived := by
    have g' := g.trans (a'.clerical_tried σ).grows.upholds
    have before {r : Tally} {τ : Store W} (relay : Relay chunks legs s (a'.tried σ) r τ) :=
      (relay_entering a'.tried hne).mpr relay
    -- The first parser ends as the relay so far.
    have first {y} (hy : a.Arrives chunks s (a'.tried σ) y) := ha.sound chunks _ s y g' hy
    cases (arrives_seq (h.upheld g (by simp))).mp arrived with
    | first hy =>
      obtain ⟨r, τ, relay, told⟩ := first hy
      cases told with
      | err => exact ⟨_, _, relay_append.mpr (.inr ⟨before relay, id⟩), .err⟩
    | firstStop hy =>
      obtain ⟨r, τ, relay, told⟩ := first hy
      cases told with
      | broken => exact ⟨_, _, relay_append.mpr (.inr ⟨before relay, id⟩), .broken⟩
    | second hy hq' =>
      obtain ⟨r, τ, relay, told⟩ := first hy
      cases told with
      | ok hv =>
        have last : Relay chunks [⟨id, q⟩] _ _ _ _ := .fails hq'
        exact ⟨_, _, relay_append.mpr (.inl ⟨_, _, _, _, _, before relay, last, rfl⟩), .err⟩
    | secondStop hy hq' =>
      obtain ⟨r, τ, relay, told⟩ := first hy
      cases told with
      | ok hv =>
        have last : Relay chunks [⟨id, q⟩] _ _ _ _ := .breaks hq'
        exact ⟨_, _, relay_append.mpr (.inl ⟨_, _, _, _, _, before relay, last, rfl⟩), .broken⟩
    | both hy hq' joined =>
      obtain ⟨r, τ, relay, told⟩ := first hy
      cases told with
      | ok hv =>
        -- Joining is known to succeed, and what it gives.
        cases joined.unique (joins _ _ _)
        have last : Relay chunks [⟨id, q⟩] _ _ _ _ := .single hq'
        have value := hpresent _ _ _ relay.length hv
          (hq _ _ _ _ _ _ _ (g'.trans hy.grows.upholds) hq')
        exact ⟨_, _, relay_append.mpr (.inl ⟨_, _, _, _, _, before relay, last, rfl⟩), .ok value⟩
    -- Joining does not break off.
    | bothStop hy hq' joined => cases joined.unique (joins _ _ _)
  complete chunks σ s r τ g relay := by
    have g' := g.trans (a'.clerical_tried σ).grows.upholds
    suffices H : ∃ y, SeqArrives chunks a q c s (a'.tried σ) y ∧
        r.Told present' (fun _ => id) τ y by
      obtain ⟨y, hy, told⟩ := H
      exact ⟨y, (arrives_seq (h.upheld g (by simp))).mpr hy, told⟩
    -- The last leg has had its turn, or the relay has ended before.
    rcases relay_append.mp relay with ⟨d, vs, t, σ₁, r', before, last, rfl⟩ | ⟨before, notOk⟩
    · have before := (relay_entering a'.tried hne).mp before
      obtain ⟨y, hy, told⟩ := ha.complete chunks _ s _ _ g' before
      cases told with
      | ok hv =>
        cases last with
        | fails hq' => exact ⟨_, .second hy hq', .err⟩
        | breaks hq' => exact ⟨_, .secondStop hy hq', .broken⟩
        | next hq' rest =>
          cases rest
          refine ⟨_, .both hy hq' (joins _ _ _), ?_⟩
          simp only [Tally.onto, Bool.or_false, List.append_nil]
          exact .ok (hpresent _ _ _ before.length hv
            (hq _ _ _ _ _ _ _ (g'.trans hy.grows.upholds) hq'))
    · have before := (relay_entering a'.tried hne).mp before
      obtain ⟨y, hy, told⟩ := ha.complete chunks _ s _ _ g' before
      cases told with
      | ok => exact absurd trivial notOk
      | err => exact ⟨_, .first hy, .err⟩
      | broken => exact ⟨_, .firstStop hy, .broken⟩

/-- A parser that leaves out the result of a relay is a relay as well. -/
theorem ParserId.Relays.ignore {code : Code W} {body : Body W}
    (hb : b.Relays base legs (fun _ => id) present) (hne : legs ≠ [])
    (h : a.Performs base (.ignore code)) (captured : b.Captured base code)
    (performs : b.Performs base body) (hbody : body ≠ .undeclared)
    (hpresent : ∀ v vs, present v vs → present' v.ignore vs) :
    a.Relays base (Leg.entering a.tried legs) (fun _ => id) present' := by
  have ignores {chunks : Int → Stream Value} {σ : Store W} {s : State Value}
      {y : EStateM.Result Stop (Store W) (Finish W)} (g : base.Upholds σ) :
      a.Arrives chunks s σ y ↔ IgnoreArrives chunks b s (a.tried σ) y := by
    have g' := g.trans (a.clerical_tried σ).grows.upholds
    refine arrives_ignore (h.upheld g (by simp)) (g'.captured b code _ performs ?_ captured)
    simpa using hbody
  constructor
  -- What the captured run function arrives at is a relay; only the result is marked.
  · intro chunks σ s y g arrived
    have g' := g.trans (a.clerical_tried σ).grows.upholds
    have inner {y} (hy : b.Arrives chunks s (a.tried σ) y) :
        ∃ r τ, Relay chunks (Leg.entering a.tried legs) s σ r τ ∧
          r.Told present (fun _ => id) τ y := by
      obtain ⟨r, τ, relay, told⟩ := hb.sound chunks _ s y g' hy
      exact ⟨r, τ, (relay_entering a.tried hne).mpr relay, told⟩
    cases (ignores g).mp arrived with
    | failed hy =>
      obtain ⟨r, τ, relay, told⟩ := inner hy
      cases told with
      | err => exact ⟨_, _, relay, .err⟩
    | stop hy =>
      obtain ⟨r, τ, relay, told⟩ := inner hy
      cases told with
      | broken => exact ⟨_, _, relay, .broken⟩
    | marked hy =>
      obtain ⟨r, τ, relay, told⟩ := inner hy
      cases told with
      | ok hv => exact ⟨_, _, relay, .ok (hpresent _ _ hv)⟩
  · intro chunks σ s r τ g relay
    have g' := g.trans (a.clerical_tried σ).grows.upholds
    obtain ⟨y, hy, told⟩ :=
      hb.complete chunks _ s r τ g' ((relay_entering a.tried hne).mp relay)
    cases told with
    | ok hv => exact ⟨_, (ignores g).mpr (.marked hy), .ok (hpresent _ _ hv)⟩
    | err => exact ⟨_, (ignores g).mpr (.failed hy), .err⟩
    | broken => exact ⟨_, (ignores g).mpr (.stop hy), .broken⟩

/-! ### Relays without bookkeeping at the end -/

/-- The parser runs the parsers `qs` in turn, and does nothing to the store once they have run. -/
def ParserId.TakesTurns (base : Store W) (a : ParserId) (qs : List ParserId)
    (present : Value → List Value → Prop) : Prop :=
  ∃ legs : List (Leg W), legs ≠ [] ∧ legs.map Leg.parser = qs ∧
    (∀ leg ∈ legs, ∀ σ : Store W, σ.Clerical (leg.before σ)) ∧
    a.Relays base legs (fun _ => id) present

variable {qs : List ParserId}

theorem ParserId.TakesTurns.runsInTurn (h : a.TakesTurns base qs present) :
    a.RunsInTurn base qs present := by
  obtain ⟨legs, -, parsers, clerical, relays⟩ := h
  exact ⟨legs, fun _ => id, parsers, clerical, fun _ σ => .refl σ, relays⟩

theorem takesTurns_single
    (hq : ∀ chunks s (σ : Store W) d v t τ, base.Upholds σ →
      q.Arrives chunks s σ (.ok (.reply (.ok d v t)) τ) → Q v)
    (hpresent : ∀ v, Q v → present v [v]) : q.TakesTurns base [q] present := by
  refine ⟨[⟨id, q⟩], by simp, rfl, fun leg member σ => ?_, relays_single hq hpresent⟩
  cases List.mem_singleton.mp member
  exact .refl σ

theorem ParserId.TakesTurns.seq (ha : a.TakesTurns base qs present)
    (h : a'.Performs base (.seq a q c))
    (joins : ∀ v w (σ : Store W), (c.join v w).Comes σ (.ok (join v w) σ))
    (hq : ∀ chunks s (σ : Store W) d v t τ, base.Upholds σ →
      q.Arrives chunks s σ (.ok (.reply (.ok d v t)) τ) → Q v)
    (hpresent : ∀ v vs w, vs.length = qs.length → present v vs → Q w →
      present' (join v w) (vs ++ [w])) :
    a'.TakesTurns base (qs ++ [q]) present' := by
  obtain ⟨legs, hne, rfl, clerical, relays⟩ := ha
  rw [List.length_map] at hpresent
  refine ⟨Leg.entering a'.tried legs ++ [⟨id, q⟩], by simp, ?_, fun leg member σ => ?_,
    relays.seq hne h joins hq hpresent⟩
  · rw [List.map_append, Leg.parsers_entering]
    rfl
  · rcases List.mem_append.mp member with member | member
    · exact Leg.clerical_entering a'.clerical_tried clerical leg member σ
    · cases List.mem_singleton.mp member
      exact .refl σ

theorem ParserId.TakesTurns.ignore {code : Code W} {body : Body W}
    (hb : b.TakesTurns base qs present) (h : a.Performs base (.ignore code))
    (captured : b.Captured base code) (performs : b.Performs base body)
    (hbody : body ≠ .undeclared) (hpresent : ∀ v vs, present v vs → present' v.ignore vs) :
    a.TakesTurns base qs present' := by
  obtain ⟨legs, hne, rfl, clerical, relays⟩ := hb
  refine ⟨Leg.entering a.tried legs, ?_, Leg.parsers_entering _ _,
    Leg.clerical_entering a.clerical_tried clerical,
    relays.ignore hne h captured performs hbody hpresent⟩
  cases legs with
  | nil => exact absurd rfl hne
  | cons leg legs => exact List.cons_ne_nil _ _

end

end ResumableParsing
