import ResumableParsing.Proofs.Backtracking.Bridges
import ResumableParsing.Proofs.Direct.Answers
import ResumableParsing.Proofs.Direct.Comes
import ResumableParsing.Proofs.Direct.Spec
import ResumableParsing.Proofs.Errors.Reports

/-!
# Replies are derived

Whatever a parser replies, its grammar derives. An attempt fails without consuming, so a choice or
a repetition goes on wherever the attempt in front of it fails, as the meaning of grammars says.

* `Reply.Proves`: what a reply says of the grammar
* `derivingSpec`: the specification of all jobs
* `derivingSpec_sound`: the program of every job is as specified
* `Grammar.Made.proves`: replies of parsers are derived by their grammars
-/

namespace ResumableParsing

variable {W : Type}

/-! ## The specification -/

/-- Where the derivation stands when a job is started. -/
structure Outset (W : Type) where
  /-- The grammar of the job. -/
  grammar : Grammar W
  /-- The tokens that its state holds. -/
  tokens : List Value
  /-- What is known of the run and the derivation. -/
  bridge : Bridge
  /-- The store from which the grammar derives something. -/
  store : Store W

/-- From the outset the grammar derives what a reply to a parser that is started in `s` says. -/
def Reply.Proves (known : Declarations W) (i : Outset W) (s : State Value) (τ : Store W)
    (r : Reply Value) : Prop :=
  ∃ result b υ, i.bridge.Le b ∧ b.Joins τ υ ∧
    i.grammar.Derives known i.tokens i.store result υ ∧
    r.Reflects b i.grammar i.tokens s result

/-- The job belongs to the grammar, and its state holds the tokens. -/
def Job.Suits (known : Declarations W) (i : Outset W) (σ : Store W) : Job W → Prop
  | .parser p s => i.grammar.Part known ∧ i.grammar.Made σ p ∧ i.bridge.Reads i.tokens s
  | .code c s => i.grammar.Part known ∧ ¬i.grammar.IsRef ∧ i.grammar.Codes σ c ∧
      i.bridge.Reads i.tokens s
  | .past s _ => i.tokens ≠ [] ∧ i.bridge.Reads i.tokens s

/-- The reply of the job is as the grammar derives. -/
def Job.Proves (known : Declarations W) (i : Outset W) (τ : Store W) :
    Job W → Reply Value → Prop
  | .parser _ s, r => r.Proves known i s τ
  | .code _ s, r => r.Proves known i s τ
  | .past s _, r => ∃ t b, r = .arrival t ∧ i.bridge.Le b ∧ b.Joins τ i.store ∧ s.Moved 1 t ∧
      b.Reads (i.tokens.drop 1) t

/-- The specification of all jobs. -/
def derivingSpec (known : Declarations W) : Spec W (Outset W) where
  Pre i j σ := Declared known σ ∧ i.bridge.Joins σ i.store ∧ j.Suits known i σ
  Post i j σ r τ := σ.Grows τ ∧ j.Proves known i τ r
  Wait _ _ _ _ := True

section

variable {σ τ υ : Store W} {known : Declarations W} {g h : Grammar W} {xs ys : List Value}
  {s t : State Value} {n : Nat} {p : ParserId} {Q Q' : Reply Value → Store W → Prop} {b c : Bridge}

/-- A program meets a postcondition, given the specification. -/
abbrev Derivable (known : Declarations W) (n : Nat) (Q : Reply Value → Store W → Prop) :
    Direct W (Reply Value) → Store W → Prop :=
  (derivingSpec known).Meets (.within n) noChunks Q fun _ => True

/-! ### Pieces of programs -/

theorem derivable_act {β : Type} {x : Eval W β} {k : β → Direct W (Reply Value)}
    (hx : Composed x)
    (hk : ∀ a σ', τ.Grows σ' → x.Comes τ (.ok a σ') → Derivable known n Q (k a) σ') :
    Derivable known n Q (.act x k) τ := by
  refine .act fun a σ' e => ?_
  have comes : x.Comes τ (.ok a σ') := hx.comes e not_exhausted_ok
  exact hk a σ' (hx.grows_of_comes comes) comes

/-- What the run does alone. -/
theorem derivable_passes {β : Type} {x : Eval W β} {k : β → Direct W (Reply Value)}
    {R : Bridge → β → Prop} (hx : Composed x) (h : b.Passes x τ υ R)
    (hk : ∀ a c σ', τ.Grows σ' → b.Le c → c.Joins σ' υ → R c a → Derivable known n Q (k a) σ') :
    Derivable known n Q (.act x k) τ := by
  obtain ⟨a, σ₁, c, run, hle, joins, ha⟩ := h
  refine derivable_act hx fun a' σ' grows comes => ?_
  cases comes.unique run
  exact hk a c σ₁ grows hle joins ha

theorem derivable_fault {β : Type} {f : Fault} {k : β → Direct W (Reply Value)} :
    Derivable known n Q (.act (Eval.fault f) k) τ := .act fun _ _ h => by cases h

/-- A parser of a grammar is run. -/
theorem derivable_run {k : Reply Value → Direct W (Reply Value)} (hd : Declared known τ)
    (joins : b.Joins τ υ) (hg : g.Part known) (hp : g.Made τ p) (hs : b.Reads xs s)
    (hk : ∀ r σ', τ.Grows σ' → r.Proves known ⟨g, xs, b, υ⟩ s σ' →
      Derivable known n Q (k r) σ') :
    Derivable known n Q (.call (.parser p s) k) τ := by
  refine .call ⟨g, xs, b, υ⟩ ⟨hd, joins, hg, hp, hs⟩ ?_ fun _ _ => trivial
  rintro r σ' ⟨grows, hr⟩
  exact hk r σ' grows hr

/-! ### Values and parts -/

theorem Grammar.Derives.stream_of_sequence {ps : List (Grammar W)} {v : Value} {k : Nat}
    (h : (Grammar.sequence ps).Derives known xs σ (.some (v, k)) τ) : ∃ i, v = .stream i := by
  cases h with
  | nothing => exact ⟨_, rfl⟩
  | sequence _ _ => exact ⟨_, rfl⟩

theorem Grammar.Derives.stream_of_many {p : Grammar W} {v : Value} {k : Nat}
    (h : (Grammar.many p).Derives known xs σ (.some (v, k)) τ) : ∃ i, v = .stream i := by
  cases h with
  | stop _ => exact ⟨_, rfl⟩
  | more _ _ => exact ⟨_, rfl⟩

/-- What corresponds to a stream is a stream. -/
theorem Bridge.Like.to_stream {v : Value} {i : Stream Value} (h : b.Like v (.stream i)) :
    ∃ j, v = .stream j := Value.Like.stream h.turned

/-- What is said of a part of a grammar that is no declaration. -/
theorem Grammar.Part.here (hg : g.Part known) (hf : g ≠ .forward) : g.Backtracking known :=
  (hg.resolve_left hf).here

theorem Grammar.Part.rest {p : Grammar W} {ps : List (Grammar W)}
    (hg : (Grammar.sequence (p :: ps)).Part known) : (Grammar.sequence ps).Part known :=
  .inr ((hg.resolve_left (by simp)).rest trivial)

/-! ### Programs -/

/-- The postcondition of a parser of the grammar. -/
abbrev Proven (known : Declarations W) (i : Outset W) (s : State Value) (σ : Store W) :
    Reply Value → Store W → Prop :=
  fun r τ => σ.Grows τ ∧ r.Proves known i s τ

theorem derivable_refuse {reason : Reason} {expected : List ParserId} {i : Outset W}
    (grows : σ.Grows τ) (hle : i.bridge.Le b) (joins : b.Joins τ υ)
    (derives : i.grammar.Derives known i.tokens i.store none υ) :
    Derivable known n (Proven known i s σ) (Direct.refuse reason expected s) τ :=
  derivable_passes .serial joins.serial fun _ c _ grows' hle' joins' _ =>
    .done ⟨grows.trans grows', none, c, υ, hle.trans hle', joins', derives, .err fun _ => rfl⟩

/-- The parser of a single token replies as its predicate answers. -/
theorem derivable_some {f : Value → Action W Bool} {self : ParserId} (hd : Declared known σ)
    (joins : b.Joins σ υ) (hs : b.Reads xs s) (pure : ∀ k : Pairing, k.Predicates f f)
    (none : xs = [] → g.Derives known xs υ none υ)
    (one : ∀ x ys a υ', xs = x :: ys → (f x).run.Comes υ (.ok a υ') →
      g.Derives known xs υ (if a then some (x, 1) else .none) υ') :
    Derivable known n (Proven known ⟨g, xs, b, υ⟩ s σ) ((Body.some self f).direct s) σ := by
  refine derivable_passes (composed_isEmpty _) (joins.isEmpty hs) fun _ b₁ σ₁ k₁ hle₁ joins e => ?_
  subst e
  cases xs with
  | nil => exact derivable_refuse k₁ hle₁ joins (none rfl)
  | cons x ys =>
    refine derivable_passes (composed_first _) (joins.first (hs.mono hle₁))
      fun x b₂ σ₂ k₂ hle₂ joins e => ?_
    subst e
    refine derivable_act (composed_action _) fun a σ₃ k₃ test => ?_
    obtain ⟨υ', b₃, test', hle₃, joins⟩ := joins.tests pure (hs.settled x List.mem_cons_self) test
    have derives := one x ys a υ' rfl test'
    have k₃ := (k₁.trans k₂).trans k₃
    have hle₃ := (hle₁.trans hle₂).trans hle₃
    cases a with
    | true =>
      refine .call ⟨g, x :: ys, b₃, υ'⟩ ⟨hd.later k₃, joins, by simp, hs.mono hle₃⟩ ?_
        fun _ _ => trivial
      rintro r σ₄ ⟨k₄, t, b₄, rfl, hle₄, joins, moved, reads⟩
      refine derivable_passes (.debug _) (joins.debug _) fun _ b₅ σ₅ k₅ hle₅ joins _ => .done ?_
      have settled : x.Settled := hs.settled x List.mem_cons_self
      exact ⟨(k₃.trans k₄).trans k₅, _, b₅, υ', (hle₃.trans hle₄).trans hle₅, joins, derives,
        .ok (.same settled) (by simp) moved (reads.mono hle₅)⟩
    | false =>
      refine derivable_passes (.debug _) (joins.debug _) fun _ b₄ σ₄ k₄ hle₄ joins _ => ?_
      refine derivable_passes .get joins.get fun _ b₅ σ₅ k₅ hle₅ joins _ => ?_
      exact derivable_refuse ((k₃.trans k₄).trans k₅) ((hle₃.trans hle₄).trans hle₅) joins derives

/-- A parser that transforms the result of another one. -/
theorem derivable_map {q : ParserId} {f : Value → Action W Value} (hd : Declared known σ)
    (joins : b.Joins σ υ) (hs : b.Reads xs s) (hh : h.Part known) (hq : h.Builds σ q)
    (pure : ∀ k : Pairing, k.Functions Pairing.Like f f) (hg : ¬g.IsAttempt)
    (fails : ∀ υ₁, h.Derives known xs υ none υ₁ → g.Derives known xs υ none υ₁)
    (succeeds : ∀ v w m υ₁ υ₂, h.Derives known xs υ (some (v, m)) υ₁ →
      (f v).run.Comes υ₁ (.ok w υ₂) → g.Derives known xs υ (some (w, m)) υ₂) :
    Derivable known n (Proven known ⟨g, xs, b, υ⟩ s σ) ((Body.map q f).direct s) σ := by
  refine derivable_run hd joins hh (.built hq) hs fun r σ₁ k₁ hr => ?_
  obtain ⟨result, b₁, υ₁, hle₁, joins, derives, reflects⟩ := hr
  cases reflects with
  | err _ => exact .done ⟨k₁, _, b₁, υ₁, hle₁, joins, fails υ₁ derives, .err fun h => absurd h hg⟩
  | ok hv consumed moved reads =>
    refine derivable_act (composed_action _) fun w σ₂ k₂ given => .done ?_
    obtain ⟨w', υ₂, b₂, given', hle₂, joins, hw⟩ := joins.maps pure hv given
    exact ⟨k₁.trans k₂, _, b₂, υ₂, hle₁.trans hle₂, joins, succeeds _ _ _ _ _ derives given',
      .ok hw consumed moved (reads.mono hle₂)⟩

/-- Whatever a parser replies, its grammar derives. -/
theorem node_derivable {body : Body W} (hd : Declared known σ) (joins : b.Joins σ υ)
    (hg : g.Part known) (node : g.Node σ p body) (hs : b.Reads xs s) :
    Derivable known n (Proven known ⟨g, xs, b, υ⟩ s σ) (body.direct s) σ := by
  have operand {q : Grammar W} (hq : q ∈ g.operands) : q.Part known := by
    rcases hg with rfl | hg
    · cases hq
    · exact .inr (hg.operand hq)
  have here {r : Reply Value} {result : Option (Value × Nat)}
      (derives : g.Derives known xs υ result υ) (reflects : r.Reflects b g xs s result) :
      Proven known ⟨g, xs, b, υ⟩ s σ r σ :=
    ⟨.refl σ, result, b, υ, .refl b, joins, derives, reflects⟩
  cases node with
  | some =>
    refine derivable_some hd joins hs (hg.here (by simp)) ?_ ?_
    · rintro rfl
      exact .lacking
    · rintro x ys (_ | _) υ' rfl test
      · exact .reject test
      · exact .accept test
  | @token _ v =>
    refine derivable_some hd joins hs (fun _ _ _ _ _ => .done rfl) ?_ ?_
    · rintro rfl
      exact .missing
    · rintro x ys a υ' rfl test
      have answer : (Action.done (x.beq v) : Action W Bool).run.Comes υ (.ok (x.beq v) υ) :=
        comes_pure _ υ
      cases test.unique answer
      cases e : x.beq v with
      | true => exact .equal e
      | false => exact .unequal e
  | pure => exact .done (here .pure (.stay (.same (hg.here (by simp))) hs))
  | fail => exact derivable_refuse (.refl σ) (.refl b) joins .fail
  | finished =>
    refine derivable_passes (composed_isEmpty _) (joins.isEmpty hs)
      fun _ b₁ σ₁ k₁ hle₁ joins e => ?_
    subst e
    cases xs with
    | nil =>
      exact .done ⟨k₁, _, b₁, υ, hle₁, joins, .finished, .stay (.same .none) (hs.mono hle₁)⟩
    | cons x ys =>
      refine derivable_passes (composed_first _) (joins.first (hs.mono hle₁))
        fun _ b₂ σ₂ k₂ hle₂ joins _ => ?_
      refine derivable_passes .get joins.get fun _ b₃ σ₃ k₃ hle₃ joins _ => ?_
      exact derivable_refuse ((k₁.trans k₂).trans k₃) ((hle₁.trans hle₂).trans hle₃) joins
        .unfinished
  | nothing => exact .done (here .nothing (.stay .nil hs))
  | forward => exact derivable_fault
  | @plus p q _ _ r hp hq =>
    refine derivable_run hd joins (operand (by simp [Grammar.operands])) (.built hp) hs
      fun r σ₁ k₁ hr => ?_
    obtain ⟨result, b₁, υ₁, hle₁, joins, first, reflects⟩ := hr
    cases reflects with
    | err _ =>
      exact .done ⟨k₁, _, b₁, υ₁, hle₁, joins, .plusFirst first, .err False.elim⟩
    | ok hv consumed moved reads =>
      refine derivable_run (hd.later k₁) joins (operand (by simp [Grammar.operands]))
        (.built (hq.later k₁)) reads fun r σ₂ k₂ hr => ?_
      obtain ⟨result, b₂, υ₂, hle₂, joins, second, reflects⟩ := hr
      have hle := hle₁.trans hle₂
      cases reflects with
      | err _ =>
        exact .done ⟨k₁.trans k₂, _, b₂, υ₂, hle, joins, .plusSecond first second, .err False.elim⟩
      | ok hw consumed' moved' reads' =>
        refine derivable_passes (composed_join .group _ _)
          (joins.known (comes_join_group _ _ σ₂)) fun _ b₃ σ₃ k₃ hle₃ joins e => .done ?_
        subst e
        have joined := Bridge.Like.mono hle₃ ((hv.mono hle₂).beside hw)
        exact ⟨(k₁.trans k₂).trans k₃, _, b₃, υ₂, hle.trans hle₃, joins, .plus first second,
          .next joined consumed consumed' moved moved' (reads'.mono hle₃)⟩
  | @sequence p ps _ _ r hp hq =>
    refine derivable_run hd joins (operand (by simp [Grammar.operands])) (.built hp) hs
      fun r σ₁ k₁ hr => ?_
    obtain ⟨result, b₁, υ₁, hle₁, joins, first, reflects⟩ := hr
    cases reflects with
    | err _ =>
      exact .done ⟨k₁, _, b₁, υ₁, hle₁, joins, .sequenceFirst first, .err False.elim⟩
    | ok hv consumed moved reads =>
      refine derivable_run (hd.later k₁) joins hg.rest (.built (hq.later k₁)) reads
        fun r σ₂ k₂ hr => ?_
      obtain ⟨result, b₂, υ₂, hle₂, joins, rest, reflects⟩ := hr
      have hle := hle₁.trans hle₂
      cases reflects with
      | err _ =>
        exact .done ⟨k₁.trans k₂, _, b₂, υ₂, hle, joins, .sequenceRest first rest, .err False.elim⟩
      | ok hw consumed' moved' reads' =>
        obtain ⟨i, rfl⟩ := rest.stream_of_sequence
        obtain ⟨j, rfl⟩ := hw.to_stream
        refine derivable_passes (composed_join .cons _ _) (joins.cons (hv.mono hle₂) hw 0)
          fun _ b₃ σ₃ k₃ hle₃ joins joined => .done ?_
        exact ⟨(k₁.trans k₂).trans k₃, _, b₃, υ₂, hle.trans hle₃, joins, .sequence first rest,
          .next joined consumed consumed' moved moved' (reads'.mono hle₃)⟩
  | map hp =>
    exact derivable_map hd joins hs (operand (by simp [Grammar.operands])) hp
      (hg.here (by simp)) id (fun _ => .mapFails) fun _ _ _ _ _ => .map
  | listed hp =>
    exact derivable_map hd joins hs (operand (by simp [Grammar.operands])) hp
      (fun _ => functions_listOf) id (fun _ => .listedFails) fun _ _ _ _ _ => .listed
  | @or p q _ _ r hp hq =>
    refine derivable_run hd joins (operand (by simp [Grammar.operands])) (.built hp) hs
      fun r σ₁ k₁ hr => ?_
    obtain ⟨result, b₁, υ₁, hle₁, joins, first, reflects⟩ := hr
    cases reflects with
    | ok hv consumed moved reads =>
      exact .done ⟨k₁, _, b₁, υ₁, hle₁, joins, .left first, .ok hv consumed moved reads⟩
    | err quiet =>
      -- The first part is an attempt, so it has not consumed.
      obtain rfl := quiet (hg.here (by simp))
      refine derivable_run (hd.later k₁) joins (operand (by simp [Grammar.operands]))
        (.built (hq.later k₁)) (hs.mono hle₁) fun r σ₂ k₂ hr => ?_
      obtain ⟨result, b₂, υ₂, hle₂, joins, second, reflects⟩ := hr
      have k₂ := k₁.trans k₂
      have hle₂ := hle₁.trans hle₂
      rcases r with ⟨d, v, t⟩ | ⟨_ | _, e, t⟩
      · exact .done ⟨k₂, _, b₂, υ₂, hle₂, joins, .right first second, reflects.of_not_attempt id⟩
      · cases reflects
        refine derivable_passes .serial joins.serial fun _ b₃ σ₃ k₃ hle₃ joins _ => .done ?_
        exact ⟨k₂.trans k₃, _, b₃, υ₂, hle₂.trans hle₃, joins, .right first second,
          .err fun _ => rfl⟩
      · exact .done ⟨k₂, _, b₂, υ₂, hle₂, joins, .right first second, reflects.of_not_attempt id⟩
  | @optional p v _ _ r hp hq =>
    refine derivable_run hd joins (operand (by simp [Grammar.operands])) (.built hp) hs
      fun r σ₁ k₁ hr => ?_
    obtain ⟨result, b₁, υ₁, hle₁, joins, first, reflects⟩ := hr
    cases reflects with
    | ok hv consumed moved reads =>
      exact .done ⟨k₁, _, b₁, υ₁, hle₁, joins, .present first, .ok hv consumed moved reads⟩
    | err quiet =>
      obtain ⟨attempt, settled⟩ := hg.here (by simp)
      obtain rfl := quiet attempt
      have part : (Grammar.pure v).Part known :=
        .inr (.node settled (by simp [Grammar.operands]) (by simp [Grammar.binder?]))
      refine derivable_run (hd.later k₁) joins part (.built (hq.later k₁)) (hs.mono hle₁)
        fun r σ₂ k₂ hr => ?_
      obtain ⟨result, b₂, υ₂, hle₂, joins, second, reflects⟩ := hr
      cases second
      cases reflects with
      | ok hv consumed moved reads =>
        exact .done ⟨k₁.trans k₂, _, b₂, υ₁, hle₁.trans hle₂, joins, .absent first,
          .ok hv consumed moved reads⟩
  | @many q _ _ hp performs =>
    refine derivable_run hd joins (operand (by simp [Grammar.operands])) (.built hp) hs
      fun r σ₁ k₁ hr => ?_
    obtain ⟨result, b₁, υ₁, hle₁, joins, first, reflects⟩ := hr
    rcases r with ⟨_ | _, v, t⟩ | ⟨d, e, t⟩
    -- An item that has not consumed would repeat for ever, so it breaks off.
    · exact derivable_act .get fun _ _ _ _ => derivable_fault
    · cases reflects with
      | ok hv consumed moved reads =>
        have again : (Grammar.many q).Builds σ₁ p := .many (hp.later k₁) (performs.later k₁)
        refine derivable_run (hd.later k₁) joins hg (.built again) reads fun r σ₂ k₂ hr => ?_
        obtain ⟨result, b₂, υ₂, hle₂, joins, rest, reflects⟩ := hr
        have hle := hle₁.trans hle₂
        cases reflects with
        -- A repetition derives no failure.
        | err _ => cases rest
        | ok hw consumed' moved' reads' =>
          obtain ⟨i, rfl⟩ := rest.stream_of_many
          obtain ⟨j, rfl⟩ := hw.to_stream
          refine derivable_passes (composed_join .cons _ _) (joins.cons (hv.mono hle₂) hw 0)
            fun _ b₃ σ₃ k₃ hle₃ joins joined => .done ?_
          exact ⟨(k₁.trans k₂).trans k₃, _, b₃, υ₂, hle.trans hle₃, joins, .more first rest,
            .next joined consumed consumed' moved moved' (reads'.mono hle₃)⟩
    · cases reflects with
      | err quiet =>
        obtain rfl := quiet (hg.here (by simp))
        exact .done ⟨k₁, _, b₁, υ₁, hle₁, joins, .stop first, .stay .nil (hs.mono hle₁)⟩
  | @attempt p _ r hp =>
    refine derivable_run hd joins (operand (by simp [Grammar.operands])) (.built hp) hs
      fun r σ₁ k₁ hr => ?_
    obtain ⟨result, b₁, υ₁, hle₁, joins, derives, reflects⟩ := hr
    rcases r with ⟨d, v, t⟩ | ⟨_ | _, e, t⟩
    · cases reflects with
      | ok hv consumed moved reads =>
        exact .done ⟨k₁, _, b₁, υ₁, hle₁, joins, .attempt derives, .ok hv consumed moved reads⟩
    · cases reflects
      exact .done ⟨k₁, _, b₁, υ₁, hle₁, joins, .attempt derives, .err fun _ => rfl⟩
    · cases reflects
      exact .done ⟨k₁, _, b₁, υ₁, hle₁, joins, .attempt derives, .err fun _ => rfl⟩

/-- Moving past a token leads to a state that holds the other tokens. -/
theorem past_derivable {i : Outset W} (joins : i.bridge.Joins σ i.store)
    (hs : i.bridge.Reads i.tokens s) (hxs : i.tokens ≠ []) (token : Value) :
    Derivable known n (fun r τ => σ.Grows τ ∧ (Job.past s token).Proves known i τ r)
      (s.directNext token) σ := by
  obtain ⟨x, ys, hx⟩ := List.exists_cons_of_ne_nil hxs
  cases s with
  | chunked a c s => exact hs.elim
  | plain w j position u =>
    -- A watched state tells the caller first, and then moves on like any other.
    have onward {τ : Store W} {b : Bridge} (k : σ.Grows τ) (hle : i.bridge.Le b)
        (joins : b.Joins τ i.store) : Derivable known n
        (fun r υ => σ.Grows υ ∧ (Job.past (.plain w j position u) token).Proves known i υ r) (do
        let t ← Direct.eval (State.plain w j position u).advance
        Direct.eval (Eval.debug fun _ => "trying " ++ Task.settleName)
        return .arrival t) τ := by
      refine derivable_passes (composed_advance _) (joins.advance (hx ▸ hs.mono hle))
        fun t b₁ σ₁ k₁ hle₁ joins moved => ?_
      refine derivable_passes (.debug _) (joins.debug _) fun _ b₂ σ₂ k₂ hle₂ joins _ => .done ?_
      refine ⟨(k.trans k₁).trans k₂, t, b₂, rfl, (hle.trans hle₁).trans hle₂, joins, moved.1, ?_⟩
      rw [hx]
      exact moved.2.mono hle₂
    cases w with
    | true =>
      refine derivable_passes (.modify fun σ => { Store.Adds.refl σ with })
        (joins.changes (f := fun σ => ((), { σ with world := σ.watch token σ.world }))
          (fun _ _ => rfl) fun _ => rfl) fun _ b₁ σ₁ k₁ hle₁ joins _ => ?_
      exact onward k₁ hle₁ joins
    | false => exact onward (.refl σ) (.refl _) joins

/-- A run function of a grammar is run. -/
theorem derivable_code {c : Code W} {i : Outset W} (k : σ.Grows τ) (hle : i.bridge.Le b)
    (hd : Declared known τ) (joins : b.Joins τ i.store) (hg : i.grammar.Part known)
    (hr : ¬i.grammar.IsRef) (hc : i.grammar.Codes τ c) (hs : b.Reads i.tokens s) :
    Derivable known n (Proven known i s σ) (Direct.reply (.code c s)) τ := by
  refine .call ⟨i.grammar, i.tokens, b, i.store⟩ ⟨hd, joins, hg, hr, hc, hs⟩ ?_ fun _ _ => trivial
  rintro r υ ⟨k', result, b', υ', hle', joins, derives, reflects⟩
  exact .done ⟨k.trans k', result, b', υ', hle.trans hle', joins, derives, reflects⟩

/-- A parser and its logging method do what the run function does. -/
theorem logged_derivable {i : Outset W} (hd : Declared known σ) (joins : i.bridge.Joins σ i.store)
    (hg : i.grammar.Part known) (hr : ¬i.grammar.IsRef) (hp : i.grammar.Made σ p)
    (hs : i.bridge.Reads i.tokens s) :
    Derivable known n (Proven known i s σ) (p.directLogged s) σ := by
  refine derivable_passes (.debug _) (joins.debug _) fun _ b σ₁ k₁ hle joins _ => ?_
  have hd₁ := hd.later k₁
  have hp₁ := hp.later k₁
  obtain ⟨code, runs⟩ := hp₁.runs hd₁ hg hr
  obtain ⟨c, hc, h⟩ := id runs
  refine derivable_act (composed_found p) fun d σ₂ k₂ comes => ?_
  cases comes.unique (comes_found hc)
  rw [Direct.done_bind]
  rcases h with ⟨-, logged⟩ | ⟨-, logged⟩
  · rw [logged]
    exact derivable_fault
  · rw [logged]
    exact derivable_code k₁ hle hd₁ joins hg hr (hp₁.codes hd₁ hg hr runs) (hs.mono hle)

theorem parser_derivable {i : Outset W} (hd : Declared known σ) (joins : i.bridge.Joins σ i.store)
    (hg : i.grammar.Part known) (hr : ¬i.grammar.IsRef) (hp : i.grammar.Made σ p)
    (hs : i.bridge.Reads i.tokens s) :
    Derivable known n (Proven known i s σ) (Job.parser p s).direct σ := by
  obtain ⟨code, runs⟩ := hp.runs hd hg hr
  obtain ⟨c, hc, h⟩ := id runs
  refine derivable_act (composed_found p) fun d σ₁ k₁ comes => ?_
  cases comes.unique (comes_found hc)
  rw [Direct.done_bind]
  rcases h with ⟨direct, -⟩ | ⟨direct, -⟩
  · rw [direct]
    exact derivable_code (.refl σ) (.refl _) hd joins hg hr (hp.codes hd hg hr runs) hs
  · rw [direct]
    exact logged_derivable hd joins hg hr hp hs

/-- The program of every job is as specified. -/
theorem derivingSpec_sound : (derivingSpec known).Sound (W := W) (.within n) noChunks := by
  rintro i j σ ⟨hd, joins, suits⟩
  cases j with
  | past s token => exact past_derivable joins suits.2 suits.1 token
  | code c s =>
    obtain ⟨hg, hr, codes, hs⟩ := suits
    cases codes with
    | body _ node => exact node_derivable hd joins hg node hs
    | method _ made => exact logged_derivable hd joins hg hr made hs
  | parser p s =>
    obtain ⟨hg, made, hs⟩ := suits
    by_cases hr : i.grammar.IsRef
    · obtain ⟨g, xs, b, υ⟩ := i
      cases g with
      | ref q =>
        -- The parser that the grammar refers to does what its own grammar says.
        obtain ⟨g, hq⟩ := Option.isSome_iff_exists.mp (hg.here (by simp))
        obtain ⟨part, ref⟩ := hd.part q g hq
        have same : p = q := by
          cases made with
          | built h =>
            cases h
            rfl
          | defined h => exact absurd hr h
        subst same
        refine (parser_derivable (i := ⟨g, xs, b, υ⟩) hd joins part ref (hd.made p g hq) hs).imp ?_
        rintro r τ ⟨k, result, b', υ', hle, joins, derives, reflects⟩
        exact ⟨k, result, b', υ', hle, joins, .ref hq derives, reflects.of_not_attempt id⟩
      | _ => exact hr.elim
    · exact parser_derivable hd joins hg hr made hs

/-- Whatever a declared parser replies, its grammar derives. -/
theorem Grammar.Made.proves {r : Reply Value} (hd : Declared known σ) (joins : b.Joins σ υ)
    (hg : g.Part known) (hp : g.Made σ p) (hs : b.Reads xs s)
    (run : (p.run s).Comes σ (.ok (.reply r) τ)) : r.Proves known ⟨g, xs, b, υ⟩ s τ := by
  obtain ⟨n, evaluates⟩ := evaluates_of_comes run
  have sound : (derivingSpec known).Sound (.within n) noChunks := derivingSpec_sound
  exact (sound.evaluates (evaluates n (Nat.le_refl n)) (by simp) ⟨g, xs, b, υ⟩
    ⟨hd, joins, hg, hp, hs⟩).2

end

end ResumableParsing
