import ResumableParsing.Proofs.Backtracking.Building
import ResumableParsing.Proofs.Direct.Combinators
import ResumableParsing.Proofs.Repetition.Greedy
import ResumableParsing.Proofs.Termination.Lists

/-!
# Counted repetition as a loop

A counted repetition is put together from sequences, choices and self-reference. Seen from behind,
each of its parsers is the greedy loop after some number of successes: the parser of no items where
the limit is reached, a sequence where there are too few, a choice where there may be more, and the
unlimited repetition once there are enough.

* `Tally.Shown`: how a parser shows what the loop comes to
* `ParserId.Counts`: the parser is the loop after `n` successes
* `counts_full`, `counts_seq`, `counts_optional`, `counts_many`: the parsers that are
-/

namespace ResumableParsing

variable {W : Type}

/-- `r.Shown settle n τ y`: where the loop, after `n` successes, has come to `r` and left the store
`τ`, the run of a parser has the outcome `y`, and leaves the same store but for bookkeeping. The
results of a success stand in a stream, and each of them has drawn a serial number. -/
inductive Tally.Shown (settle : Nat → Store W → Store W) (n : Nat) (τ : Store W) :
    Tally → EStateM.Result Stop (Store W) (Finish W) → Prop where
  /-- The results. -/
  | ok {c : Bool} {vs : List Value} {s : State Value} {x : Stream Value} : x.Spells vs →
      Shown settle n τ (.ok c vs s)
        (.ok (.reply (.ok c (.stream x) s)) ((settle (n + vs.length) τ).drawn vs.length))
  /-- The error. -/
  | err {c : Bool} {e : ParseError Value} {s : State Value} :
      Shown settle n τ (.err c e s) (.ok (.reply (.err c e s)) τ)
  /-- The fault of a repetition without end. -/
  | endless {name : String} :
      Shown settle n τ .endless (.error (.raised (.endlessRepetition name)) τ)
  /-- The parser that is repeated has broken off. -/
  | broken {e : Stop} : Shown settle n τ (.broken e) (.error e τ)

/-- In all stores in which definitions are as in `base`, the parser does what the loop does after
`n` successes. -/
structure ParserId.Counts (chunks : Int → Stream Value) (base : Store W) (R : Application W)
    (low : Nat) (high : Option Nat) (settle : Nat → Store W → Store W) (n : Nat) (q : ParserId) :
    Prop where
  /-- What the parser arrives at, the loop comes to. -/
  sound : ∀ σ, base.Maintains σ → ∀ s y, q.Arrives chunks s σ y →
    ∃ r τ, Greedy R low high n false [] s σ r τ ∧ r.Shown settle n τ y
  /-- What the loop comes to, the parser arrives at. -/
  complete : ∀ σ, base.Maintains σ → ∀ s r τ, Greedy R low high n false [] s σ r τ →
    ∃ y, q.Arrives chunks s σ y ∧ r.Shown settle n τ y

section

variable {chunks : Int → Stream Value} {base σ σ₁ τ υ : Store W} {R R' : Application W}
  {low n : Nat} {high : Option Nat} {settle settle' : Nat → Store W → Store W}
  {p q q₁ q₂ next : ParserId} {s t : State Value} {d : Bool} {v : Value} {r : Tally}
  {y : EStateM.Result Stop (Store W) (Finish W)}

/-- Only what comes after the first `n` successes matters. -/
theorem ParserId.Counts.congr (h : q.Counts chunks base R low high settle n)
    (hR : ∀ k ≥ n, ∀ s σ y, R k s σ y ↔ R' k s σ y) (hs : ∀ k ≥ n, settle k = settle' k) :
    q.Counts chunks base R' low high settle' n := by
  have shown {r : Tally} {τ : Store W} {y : EStateM.Result Stop (Store W) (Finish W)}
      (h : r.Shown settle n τ y) : r.Shown settle' n τ y := by
    cases h with
    | ok spells =>
      rw [hs _ (Nat.le_add_right _ _)]
      exact .ok spells
    | err => exact .err
    | endless => exact .endless
    | broken => exact .broken
  constructor
  · intro σ g s y hy
    obtain ⟨r, τ, loop, hr⟩ := h.sound σ g s y hy
    exact ⟨r, τ, loop.congr fun k hk s σ y => (hR k hk s σ y).mp, shown hr⟩
  · intro σ g s r τ loop
    obtain ⟨y, hy, hr⟩ := h.complete σ g s r τ (loop.congr fun k hk s σ y => (hR k hk s σ y).mpr)
    exact ⟨y, hy, shown hr⟩

/-! ## The limit -/

/-- Where the limit is reached, the parser of no items is the loop. -/
theorem counts_full (h : q.Performs base (.pure (.stream .nil))) (hn : high = some n)
    (hs : settle n = q.tried) : q.Counts chunks base R low high settle n := by
  have shows (s : State Value) (σ : Store W) : (Tally.ok false [] s).Shown settle n σ
      (.ok (.reply (.ok false (.stream .nil) s)) (q.tried σ) : EStateM.Result _ _ (Finish W)) := by
    rw [← hs]
    exact .ok .nil
  constructor
  · intro σ g s y hy
    cases (arrives_pure (h.maintained g (by simp))).mp hy
    exact ⟨_, σ, .full hn, shows s σ⟩
  · intro σ g s r τ loop
    cases loop with
    | full _ => exact ⟨_, (arrives_pure (h.maintained g (by simp))).mpr rfl, shows s σ⟩
    | endless none _ _ => simp [hn] at none
    | few ne _ _ | enough ne _ _ | failed ne _ | broken ne _ | more ne _ _ _ => exact absurd hn ne

/-! ## Sequences -/

/-- A result in front of others. -/
theorem comes_cons_join (v : Value) (x : Stream Value) (σ : Store W) :
    (Combine.cons.join v (.stream x)).Comes σ
      (.ok (.stream (.cons σ.nextSerial v x)) (σ.drawn 1)) :=
  comes_of_forall (fun _ => rfl) not_exhausted_ok

theorem Store.drawn_drawn (m n : Nat) (σ : Store W) : (σ.drawn m).drawn n = σ.drawn (m + n) := by
  simp only [drawn, Nat.add_assoc]

/-- One more success in front of those of the rest. -/
theorem Tally.Shown.cons {c : Bool} {vs : List Value} {x : Stream Value} (hx : x.Spells vs)
    (k : Nat) : (Tally.ok (d || c) (v :: vs) t).Shown settle n τ
      (.ok (.reply (.ok (d || c) (.stream (.cons k v x)) t))
        (((settle (n + 1 + vs.length) τ).drawn vs.length).drawn 1)) := by
  rw [Store.drawn_drawn, Nat.add_right_comm, Nat.add_assoc]
  exact .ok hx.cons

/-- The rest has failed, behind one more success. -/
theorem Tally.Shown.onto_err {d' : Bool} {e : ParseError Value}
    (h : r.Shown settle (n + 1) τ (.ok (.reply (.err d' e t)) υ)) :
    (r.onto d [v]).Shown settle n τ (.ok (.reply (.err (d || d') e t)) υ) := by
  cases h with
  | err => exact .err

/-- The rest has broken off, behind one more success. -/
theorem Tally.Shown.onto_stop {e : Stop} (h : r.Shown settle (n + 1) τ (.error e υ)) :
    (r.onto d [v]).Shown settle n τ (.error e υ) := by
  cases h with
  | endless => exact .endless
  | broken => exact .broken

/-- The rest has succeeded, so one more result can be put in front. -/
theorem Tally.Shown.joins {d' : Bool} {w : Value}
    (h : r.Shown settle (n + 1) τ (.ok (.reply (.ok d' w t)) υ)) (d : Bool) (v : Value) :
    ∃ x υ', (Combine.cons.join v w).Comes υ (.ok x υ') ∧
      (r.onto d [v]).Shown settle n τ (.ok (.reply (.ok (d || d') x t)) υ') := by
  cases h with
  | ok spells => exact ⟨_, _, comes_cons_join v _ _, .cons spells _⟩

/-- A sequence fails or breaks off with the first parser, or puts its result in front. -/
theorem SeqArrives.onto (h : SeqArrives chunks p next .cons s σ y) (n : Nat)
    (settle : Nat → Store W → Store W) :
    (∃ d e t τ, p.Arrives chunks s σ (.ok (.reply (.err d e t)) τ) ∧
      y = .ok (.reply (.err d e t)) τ) ∨
    (∃ e τ, p.Arrives chunks s σ (.error e τ) ∧ y = .error e τ) ∨
    ∃ d v t σ₁ y', p.Arrives chunks s σ (.ok (.reply (.ok d v t)) σ₁) ∧
      next.Arrives chunks t σ₁ y' ∧ ∀ (r : Tally) (τ : Store W),
        r.Shown settle (n + 1) τ y' → (r.onto d [v]).Shown settle n τ y := by
  cases h with
  | first h => exact .inl ⟨_, _, _, _, h, rfl⟩
  | firstStop h => exact .inr (.inl ⟨_, _, h, rfl⟩)
  | second first h =>
    exact .inr (.inr ⟨_, _, _, _, _, first, h, fun r τ shown => shown.onto_err⟩)
  | secondStop first h =>
    exact .inr (.inr ⟨_, _, _, _, _, first, h, fun r τ shown => shown.onto_stop⟩)
  | @both d _ v _ _ _ _ _ _ _ first h joined =>
    refine .inr (.inr ⟨_, _, _, _, _, first, h, fun r τ' shown => ?_⟩)
    obtain ⟨x, υ, joins, shows⟩ := shown.joins d v
    cases joined.unique joins
    exact shows
  | @bothStop d _ v _ _ _ _ _ _ _ first h joined =>
    refine .inr (.inr ⟨_, _, _, _, _, first, h, fun r τ' shown => ?_⟩)
    obtain ⟨x, υ, joins, -⟩ := shown.joins d v
    cases joined.unique joins

/-- After a success of the first parser, a sequence puts its result in front of what the rest
shows. -/
theorem Tally.Shown.seq (first : p.Arrives chunks s σ (.ok (.reply (.ok d v t)) σ₁))
    (h : next.Arrives chunks t σ₁ y) (shown : r.Shown settle (n + 1) τ y) :
    ∃ z, SeqArrives chunks p next .cons s σ z ∧ (r.onto d [v]).Shown settle n τ z := by
  cases shown with
  | ok spells => exact ⟨_, .both first h (comes_cons_join v _ _), .cons spells _⟩
  | err => exact ⟨_, .second first h, .err⟩
  | endless => exact ⟨_, .secondStop first h, .endless⟩
  | broken => exact ⟨_, .secondStop first h, .broken⟩

/-- Where there are too few successes, a sequence is the loop if what follows in it is the loop from
there. -/
theorem counts_seq (h : q.Performs base (.seq p next .cons)) (hlow : n < low)
    (hhigh : high ≠ some n) (hR : ∀ s σ y, R n s σ y ↔ p.Arrives chunks s (q.tried σ) y)
    (hn : next.Counts chunks base R low high settle (n + 1)) :
    q.Counts chunks base R low high settle n := by
  have grown {σ : Store W} (g : base.Maintains σ) {s : State Value}
      {y : EStateM.Result Stop (Store W) (Finish W)} (h : R n s σ y) : base.Maintains (left y) :=
    (g.trans (q.noted_tried σ).grows.maintains).trans ((hR s σ y).mp h).grows.maintains
  constructor
  · intro σ g s y hy
    rcases ((arrives_seq (h.maintained g (by simp))).mp hy).onto n settle with
      ⟨d, e, t, τ, first, rfl⟩ | ⟨e, τ, first, rfl⟩ | ⟨d, v, t, σ₁, y', first, rest, shows⟩
    · cases d with
      | false => exact ⟨_, τ, .few hhigh hlow ((hR s σ _).mpr first), .err⟩
      | true => exact ⟨_, τ, .failed hhigh ((hR s σ _).mpr first), .err⟩
    · exact ⟨_, τ, .broken hhigh ((hR s σ _).mpr first), .broken⟩
    · have first := (hR s σ _).mpr first
      obtain ⟨r, τ, loop, shown⟩ := hn.sound σ₁ (grown g first) t y' rest
      exact ⟨_, τ, loop.step hhigh (by omega) first, shows r τ shown⟩
  · intro σ g s r τ loop
    suffices H : ∃ y, SeqArrives chunks p next .cons s (q.tried σ) y ∧ r.Shown settle n τ y by
      obtain ⟨y, hy, shown⟩ := H
      exact ⟨y, (arrives_seq (h.maintained g (by simp))).mpr hy, shown⟩
    cases loop with
    | full full => exact absurd full hhigh
    | few _ _ h => exact ⟨_, .first ((hR _ _ _).mp h), .err⟩
    | enough _ le _ => omega
    | failed _ h => exact ⟨_, .first ((hR _ _ _).mp h), .err⟩
    | endless _ le _ => omega
    | broken _ h => exact ⟨_, .firstStop ((hR _ _ _).mp h), .broken⟩
    | @more _ _ d _ _ t v _ σ₁ _ _ _ _ h loop =>
      obtain ⟨r', onward, rfl⟩ := loop.from_start
      obtain ⟨y', rest, shown⟩ := hn.complete σ₁ (grown g h) t r' τ onward
      rw [Bool.false_or, List.nil_append]
      exact shown.seq ((hR _ _ _).mp h) rest

/-! ## Choices -/

/-- Once there are enough successes, what is shown is no failure without consuming. -/
theorem Greedy.consumed_of_shown {e : ParseError Value} {c : Bool} {τ' : Store W}
    (loop : Greedy R low high n false [] s σ r τ) (hlow : low ≤ n)
    (h : r.Shown settle n τ (.ok (.reply (.err c e t)) τ')) : c = true := by
  cases h with
  | err => exact loop.consumed_of_err hlow

section

variable {k : Nat} (h₁ : q₁.Performs base (.seq p next .cons)) (hlow : low ≤ n)
  (hhigh : high = some k) (hk : k ≠ n)
  (hR : ∀ s σ y, R n s σ y ↔ p.Arrives chunks s (q₁.tried (q.tried σ)) y)
  (hn : next.Counts chunks base R low high settle (n + 1)) (g : base.Maintains σ)

include hR g

theorem maintains_of_item (h : R n s σ y) : base.Maintains (left y) :=
  ((g.trans (q.noted_tried σ).grows.maintains).trans
    (q₁.noted_tried _).grows.maintains).trans ((hR s σ y).mp h).grows.maintains

include h₁ hlow hhigh hk hn

/-- The sequence fails without consuming where its first parser does. Once that has succeeded, there
are enough successes, and the loop does not fail without consuming. -/
theorem loop_of_item (hy : q₁.Arrives chunks s (q.tried σ) y) :
    (∃ e t τ, R n s σ (.ok (.reply (.err false e t)) τ) ∧ y = .ok (.reply (.err false e t)) τ) ∨
    (∀ e t τ, y ≠ .ok (.reply (.err false e t)) τ) ∧
      ∃ r τ, Greedy R low high n false [] s σ r τ ∧ r.Shown settle n τ y := by
  have ne : high ≠ some n := by simpa [hhigh] using hk
  have performs : q₁.Performs (q.tried σ) (.seq p next .cons) :=
    h₁.maintained (g.trans (q.noted_tried σ).grows.maintains) (by simp)
  rcases ((arrives_seq performs).mp hy).onto n settle with
    ⟨d, e, t, τ, first, rfl⟩ | ⟨e, τ, first, rfl⟩ | ⟨d, v, t, σ₁, y', first, rest, shows⟩
  · have first := (hR s σ _).mpr first
    cases d with
    | false => exact .inl ⟨e, t, τ, first, rfl⟩
    | true => exact .inr ⟨by simp, _, τ, .failed ne first, .err⟩
  · exact .inr ⟨by simp, _, τ, .broken ne ((hR s σ _).mpr first), .broken⟩
  · have first := (hR s σ _).mpr first
    obtain ⟨r, τ, loop, shown⟩ := hn.sound σ₁ (maintains_of_item hR g first) t y' rest
    have loop := loop.step ne (by simp [hhigh]) first
    refine .inr ⟨?_, _, τ, loop, shows r τ shown⟩
    rintro e u τ' rfl
    exact absurd (loop.consumed_of_shown hlow (shows r τ shown)) (by simp)

end

/-- Where there may be more successes, up to a limit, the choice between a sequence and no items is
the loop if what follows in the sequence is the loop from there. -/
theorem counts_optional {k : Nat} (h : q.Performs base (.alt q₁ q₂))
    (h₁ : q₁.Performs base (.seq p next .cons)) (h₂ : q₂.Performs base (.pure (.stream .nil)))
    (hlow : low ≤ n) (hhigh : high = some k) (hk : k ≠ n) (hs : settle n = q₂.tried)
    (hR : ∀ s σ y, R n s σ y ↔ p.Arrives chunks s (q₁.tried (q.tried σ)) y)
    (hn : next.Counts chunks base R low high settle (n + 1)) :
    q.Counts chunks base R low high settle n := by
  have ne : high ≠ some n := by simpa [hhigh] using hk
  have nothing (s : State Value) (τ : Store W) : (Tally.ok false [] s).Shown settle n τ
      (.ok (.reply (.ok false (.stream .nil) s)) (q₂.tried τ) : EStateM.Result _ _ (Finish W)) := by
    rw [← hs]
    exact .ok .nil
  constructor
  · intro σ g s y hy
    have first {y} := loop_of_item (s := s) (y := y) h₁ hlow hhigh hk hR hn g
    cases (arrives_alt (h.maintained g (by simp))).mp hy with
    | first hy keeps =>
      rcases first hy with ⟨e, t, τ, -, rfl⟩ | ⟨-, loop⟩
      · exact absurd rfl (keeps e t τ)
      · exact loop
    -- The sequence has failed without consuming, which ends the loop: there are enough successes.
    | second hy hy₂ _ =>
      rcases first hy with ⟨e, t, τ, failed, eq⟩ | ⟨keeps, -⟩
      · cases eq
        have g' := maintains_of_item hR g failed
        cases (arrives_pure (h₂.maintained g' (by simp))).mp hy₂
        exact ⟨_, _, .enough ne hlow failed, nothing s _⟩
      · exact absurd rfl (keeps _ _ _)
    | neither first_fails hy₂ =>
      rcases first first_fails with ⟨e, t, τ, failed, eq⟩ | ⟨keeps, -⟩
      · cases eq
        have g' := maintains_of_item hR g failed
        cases (arrives_pure (h₂.maintained g' (by simp))).mp hy₂
      · exact absurd rfl (keeps _ _ _)
  · intro σ g s r τ loop
    suffices H : ∃ y, AltArrives chunks q₁ q₂ s (q.tried σ) y ∧ r.Shown settle n τ y by
      obtain ⟨y, hy, shown⟩ := H
      exact ⟨y, (arrives_alt (h.maintained g (by simp))).mpr hy, shown⟩
    have performs : q₁.Performs (q.tried σ) (.seq p next .cons) :=
      h₁.maintained (g.trans (q.noted_tried σ).grows.maintains) (by simp)
    have seq {y} : SeqArrives chunks p next .cons s (q₁.tried (q.tried σ)) y →
        q₁.Arrives chunks s (q.tried σ) y := (arrives_seq performs).mpr
    cases loop with
    | full full => exact absurd full ne
    | few _ less _ => omega
    | enough _ _ h =>
      have second : q₂.Arrives chunks s _ _ :=
        (arrives_pure (h₂.maintained (maintains_of_item hR g h) (by simp))).mpr rfl
      exact ⟨_, .second (seq (.first ((hR _ _ _).mp h))) second (by simp), nothing s _⟩
    | failed _ h => exact ⟨_, .first (seq (.first ((hR _ _ _).mp h))) (by simp), .err⟩
    | endless none _ _ => simp [hhigh] at none
    | broken _ h => exact ⟨_, .first (seq (.firstStop ((hR _ _ _).mp h))) (by simp), .broken⟩
    | @more _ _ d _ _ t v _ σ₁ _ _ _ _ h loop =>
      obtain ⟨r', onward, rfl⟩ := loop.from_start
      obtain ⟨y', rest, shown⟩ := hn.complete σ₁ (maintains_of_item hR g h) t r' τ onward
      rw [Bool.false_or, List.nil_append]
      obtain ⟨y, hy, shows⟩ := shown.seq ((hR _ _ _).mp h) rest
      refine ⟨y, .first (seq hy) ?_, shows⟩
      rintro e u τ' rfl
      have loop := onward.step ne (by simp [hhigh]) h
      exact absurd (loop.consumed_of_shown hlow shows) (by simp)

/-! ## Unlimited repetition -/

/-- The unlimited repetition fails, breaks off or ends with the first run of the parser, or puts its
result in front of what the repetition arrives at from there. -/
theorem ManyArrives.onto {Again : State Value → Store W → EStateM.Result Stop (Store W)
    (Finish W) → Prop}
    (h : ManyArrives chunks q p Again s σ y) (n : Nat) (settle : Nat → Store W → Store W) :
    (∃ e t τ, p.Arrives chunks s σ (.ok (.reply (.err false e t)) τ) ∧
      y = .ok (.reply (.ok false (.stream .nil) s)) τ) ∨
    (∃ e t τ, p.Arrives chunks s σ (.ok (.reply (.err true e t)) τ) ∧
      y = .ok (.reply (.err true e t)) τ) ∨
    (∃ e τ, p.Arrives chunks s σ (.error e τ) ∧ y = .error e τ) ∨
    (∃ v t τ name, p.Arrives chunks s σ (.ok (.reply (.ok false v t)) τ) ∧
      y = .error (.raised (.endlessRepetition name)) τ) ∨
    ∃ v t σ₁ y', p.Arrives chunks s σ (.ok (.reply (.ok true v t)) σ₁) ∧ Again t σ₁ y' ∧
      ∀ (r : Tally) (τ : Store W), r.Shown settle (n + 1) τ y' →
        (r.onto true [v]).Shown settle n τ y := by
  cases h with
  | ended h => exact .inl ⟨_, _, _, h, rfl⟩
  | failed h => exact .inr (.inl ⟨_, _, _, h, rfl⟩)
  | stop h => exact .inr (.inr (.inl ⟨_, _, h, rfl⟩))
  | endless h => exact .inr (.inr (.inr (.inl ⟨_, _, _, _, h, rfl⟩)))
  | @more _ v _ _ _ _ _ _ _ first h joined =>
    refine .inr (.inr (.inr (.inr ⟨_, _, _, _, first, h, fun r τ' shown => ?_⟩)))
    obtain ⟨x, υ, joins, shows⟩ := shown.joins true v
    cases joined.unique joins
    exact shows
  | @joinStop _ v _ _ _ _ _ _ _ first h joined =>
    refine .inr (.inr (.inr (.inr ⟨_, _, _, _, first, h, fun r τ' shown => ?_⟩)))
    obtain ⟨x, υ, joins, -⟩ := shown.joins true v
    cases joined.unique joins
  | moreFails first h =>
    exact .inr (.inr (.inr (.inr ⟨_, _, _, _, first, h, fun r τ shown => shown.onto_err⟩)))
  | moreStop first h =>
    exact .inr (.inr (.inr (.inr ⟨_, _, _, _, first, h, fun r τ shown => shown.onto_stop⟩)))

/-- After a success of the parser, the repetition puts its result in front of what it shows from
there. -/
theorem Tally.Shown.many (first : p.Arrives chunks s σ (.ok (.reply (.ok true v t)) σ₁))
    (h : q.Arrives chunks t σ₁ y) (shown : r.Shown settle (n + 1) τ y) :
    ∃ z, ManyArrives chunks q p (q.Arrives chunks) s σ z ∧
      (r.onto true [v]).Shown settle n τ z := by
  cases shown with
  | ok spells => exact ⟨_, .more first h (comes_cons_join v _ _), .cons spells _⟩
  | err => exact ⟨_, .moreFails first h, .err⟩
  | endless => exact ⟨_, .moreStop first h, .endless⟩
  | broken => exact ⟨_, .moreStop first h, .broken⟩

/-- Once there are enough successes, the unlimited repetition is the loop without a limit. -/
theorem counts_many (h : q.Performs base (.many q p)) (hhigh : high = none) (hlow : low ≤ n)
    (hs : ∀ k ≥ low, settle k = id)
    (hR : ∀ k ≥ low, ∀ s σ y, base.Maintains σ →
      (R k s σ y ↔ p.Arrives chunks s (q.tried σ) y)) :
    q.Counts chunks base R low high settle n := by
  have ne (k : Nat) : high ≠ some k := by simp [hhigh]
  have grown {k : Nat} (hk : low ≤ k) {σ : Store W} (g : base.Maintains σ) {s : State Value}
      {y : EStateM.Result Stop (Store W) (Finish W)} (h : R k s σ y) : base.Maintains (left y) :=
    (g.trans (q.noted_tried σ).grows.maintains).trans ((hR k hk s σ y g).mp h).grows.maintains
  have nothing {k : Nat} (hk : low ≤ k) (s : State Value) (τ : Store W) :
      (Tally.ok false [] s).Shown settle k τ (.ok (.reply (.ok false (.stream .nil) s)) τ) := by
    have shown : (Tally.ok false [] s).Shown settle k τ
        (.ok (.reply (.ok false (.stream .nil) s)) ((settle k τ).drawn 0)) := .ok .nil
    rw [hs k hk] at shown
    exact shown
  constructor
  · intro σ g s y hy
    obtain ⟨m, h'⟩ := (lands_iff_arrives.mpr hy).2.depth
    replace hy := hy.1
    -- Each run of the repetition is started by the one before, so their depth gets less.
    induction m using Nat.strongRecOn generalizing n s σ y with
    | _ m ih =>
    obtain ⟨m', hm, body⟩ := (h.maintained g (by simp)).of_arrivesIn h'
    rcases (manyArrives_of_arrivesIn hy body).onto n settle with
      ⟨e, t, τ, first, rfl⟩ | ⟨e, t, τ, first, rfl⟩ | ⟨e, τ, first, rfl⟩ |
      ⟨v, t, τ, name, first, rfl⟩ | ⟨v, t, σ₁, y', first, ⟨hy', k, hk, rest⟩, shows⟩
    · exact ⟨_, τ, .enough (ne n) hlow ((hR n hlow _ _ _ g).mpr first), nothing hlow s τ⟩
    · exact ⟨_, τ, .failed (ne n) ((hR n hlow _ _ _ g).mpr first), .err⟩
    · exact ⟨_, τ, .broken (ne n) ((hR n hlow _ _ _ g).mpr first), .broken⟩
    · exact ⟨_, τ, .endless hhigh hlow ((hR n hlow _ _ _ g).mpr first), .endless⟩
    · have first := (hR n hlow _ _ _ g).mpr first
      obtain ⟨r, τ, loop, shown⟩ :=
        ih k (by omega) (Nat.le_succ_of_le hlow) σ₁ (grown hlow g first) t y' rest hy'
      exact ⟨_, τ, loop.step (ne n) (fun _ _ => rfl) first, shows r τ shown⟩
  · intro σ g s r τ
    -- What has been before is put in front in the end.
    have H {c : Bool} {vs : List Value} (loop : Greedy R low high n c vs s σ r τ) :
        ∃ y, q.Arrives chunks s σ y ∧ ∃ r' : Tally, r = r'.onto c vs ∧ r'.Shown settle n τ y := by
      suffices H : ∃ y, ManyArrives chunks q p (q.Arrives chunks) s (q.tried σ) y ∧
          ∃ r' : Tally, r = r'.onto c vs ∧ r'.Shown settle n τ y by
        obtain ⟨y, hy, shown⟩ := H
        exact ⟨y, (h.maintained g (by simp)).arrives_iff.mpr hy.lands, shown⟩
      induction loop with
      | full full => exact absurd full (ne _)
      | few _ less _ => omega
      | enough _ _ h =>
        exact ⟨_, .ended ((hR _ hlow _ _ _ g).mp h), .ok false [] _, by simp [Tally.onto],
          nothing hlow _ _⟩
      | failed _ h =>
        exact ⟨_, .failed ((hR _ hlow _ _ _ g).mp h), .err true _ _, by simp [Tally.onto], .err⟩
      | endless _ _ h => exact ⟨_, .endless ((hR _ hlow _ _ _ g).mp h), .endless, rfl, .endless⟩
      | broken _ h => exact ⟨_, .stop ((hR _ hlow _ _ _ g).mp h), .broken _, rfl, .broken⟩
      | @more n c d vs s t v σ σ₁ τ r _ hd first _ ih =>
        cases hd hhigh hlow
        have g₁ := grown hlow g first
        obtain ⟨y', again, r', rfl, shown⟩ := ih (Nat.le_succ_of_le hlow) g₁
        have again := (h.maintained g₁ (by simp)).arrives_iff.mpr again.lands
        obtain ⟨y, hy, shows⟩ := shown.many ((hR n hlow _ _ _ g).mp first) again
        exact ⟨y, hy, _, (Tally.onto_onto r').symm, shows⟩
    intro loop
    obtain ⟨y, hy, r', rfl, shown⟩ := H loop
    rw [Tally.onto_start]
    exact ⟨y, hy, shown⟩

end

end ResumableParsing
