import ResumableParsing.Proofs.Backtracking.Derivations
import ResumableParsing.Proofs.Backtracking.Determinacy
import ResumableParsing.Proofs.Storage.Agreement

/-!
# Attempts give ordered choice

Wherever a grammar means something, its parser comes to the reply that it means. So in grammars in
which everything that may be given up is an attempt, the four outcomes come down to success and
failure: a run succeeds with a value after a number of tokens just where the grammar derives that,
and it fails just where the grammar derives a failure.

* `Grammar.Derives.answers`: parsers reply as their grammars derive
* `attempts_backtrack`: runs and the meaning of grammars agree
-/

namespace ResumableParsing

variable {W : Type}

/-! ## Replies that are derived -/

/-- The reply is what has been derived, and the stores that both have come to are joined. -/
def Bridge.Follows (b : Bridge) (υ : Store W) (result : Option (Value × Nat)) (g : Grammar W)
    (xs : List Value) (s : State Value) (r : Reply Value) (τ : Store W) : Prop :=
  ∃ c, b.Le c ∧ c.Joins τ υ ∧ r.Reflects c g xs s result

section

open Direct.Answers (done act call)

variable {σ τ υ υ₁ υ₂ : Store W} {known : Declarations W} {g g₁ g₂ : Grammar W} {xs : List Value}
  {s t : State Value} {p q : ParserId} {result : Option (Value × Nat)} {v w x : Value} {n k : Nat}
  {Q : Reply Value → Store W → Prop} {b c : Bridge}

/-! ### Pieces of programs -/

/-- What the run does alone. -/
theorem answers_passes {β : Type} {x : Eval W β} {f : β → Direct W (Reply Value)}
    {R : Bridge → β → Prop} (hx : Composed x) (h : b.Passes x σ υ R)
    (hf : ∀ a c τ, σ.Evolves τ → b.Le c → c.Joins τ υ → R c a → (f a).Answers Q τ) :
    (Direct.act x f).Answers Q σ := by
  obtain ⟨a, τ, c, run, hle, joins, ha⟩ := h
  exact act hx run fun k => hf a c τ k hle joins ha

theorem answers_refuse {reason : Reason} {expected : List ParserId} (joins : b.Joins σ υ)
    (hle : c.Le b) :
    (Direct.refuse reason expected s).Answers (c.Follows υ none g xs s) σ :=
  answers_passes .serial joins.serial fun _ d _ _ hle' joins _ =>
    done ⟨d, hle.trans hle', joins, .err fun _ => rfl⟩

theorem Store.Noted.joins (h : σ.Noted τ) (joins : b.Joins σ υ) : b.Joins τ υ := by
  obtain ⟨log, rfl⟩ := h
  exact ⟨{ joins.agree with }, joins.fits.congr rfl rfl rfl, joins.apart⟩

/-- The parser of a grammar replies as the grammar says. -/
theorem Grammar.Builds.answers (hd : Declared known σ) (hg : g.Part known) (hr : ¬g.IsRef)
    (h : g.Builds σ p)
    (hb : ∀ b τ, σ.Noted τ → g.Node τ p b → (b.direct s).Answers Q τ) :
    (Job.parser p s).direct.Answers Q σ := by
  obtain ⟨b, performs, node⟩ := h.node hd hg hr
  exact Direct.Answers.runs_noted performs fun τ k => hb b τ k (node.later k.grows)

/-- A parser that is defined as another one replies as it does. -/
theorem Grammar.Made.answers (h : g.Made σ p)
    (hb : ∀ q τ, σ.Noted τ → g.Builds τ q → (Job.parser q s).direct.Answers Q τ)
    (k : σ.Noted τ) : (Job.parser p s).direct.Answers Q τ := by
  induction h generalizing τ with
  | built h => exact hb _ τ k (h.later k.grows)
  | defined _ _ captured runs ih =>
    refine Direct.Answers.runs_noted (runs.later k.grows) fun υ k' => ?_
    exact .captured (captured.later (k.trans k').grows) (ih (k.trans k'))

/-! ### Single tokens -/

/-- Moving past a token leads to a state that holds the other tokens. -/
theorem answers_past (joins : b.Joins σ υ) (hs : b.Reads (x :: xs) s) (token : Value) :
    (Job.past s token).direct.Answers (fun r τ => ∃ t c, r = .arrival t ∧ b.Le c ∧ c.Joins τ υ ∧
      s.Moved 1 t ∧ c.Reads xs t) σ := by
  cases s with
  | chunked a c s => exact hs.elim
  | plain w i position u =>
    -- A watched state tells the caller first, and then moves on like any other.
    have onward {τ : Store W} {c : Bridge} (hle : b.Le c) (joins : c.Joins τ υ) : (do
        let t ← Direct.eval (State.plain w i position u).advance
        Direct.eval (Eval.debug fun _ => "trying " ++ Task.settleName)
        return Reply.arrival t : Direct W (Reply Value)).Answers (fun r τ => ∃ t c,
          r = .arrival t ∧ b.Le c ∧ c.Joins τ υ ∧ (State.plain w i position u).Moved 1 t ∧
            c.Reads xs t) τ := by
      refine answers_passes (composed_advance _) (joins.advance (hs.mono hle))
        fun t c₁ τ₁ k₁ hle₁ joins moved => ?_
      refine answers_passes (.debug _) (joins.debug _) fun _ c₂ τ₂ k₂ hle₂ joins _ => done ?_
      exact ⟨t, c₂, rfl, (hle.trans hle₁).trans hle₂, joins, moved.1, moved.2.mono hle₂⟩
    cases w with
    | true =>
      refine answers_passes (.modify fun σ => { Store.Adds.refl σ with })
        (joins.changes (f := fun σ => ((), { σ with world := σ.watch token σ.world }))
          (fun _ _ => rfl) fun _ => rfl) fun _ c τ k hle joins _ => ?_
      exact onward hle joins
    | false => exact onward (.refl b) joins

/-- The parser of a single token replies as its predicate answers. -/
theorem answers_some {f : Value → Action W Bool} {self : ParserId} {a : Bool}
    (joins : b.Joins σ υ) (hs : b.Reads (x :: xs) s) (pure : ∀ k : Pairing, k.Predicates f f)
    (test : (f x).run.Comes υ (.ok a υ₁)) :
    ((Body.some self f).direct s).Answers
      (b.Follows υ₁ (if a then some (x, 1) else none) g (x :: xs) s) σ := by
  have settled := hs.settled x List.mem_cons_self
  refine answers_passes (composed_isEmpty _) (joins.isEmpty hs) fun _ b₁ σ₁ _ hle₁ joins e => ?_
  subst e
  refine answers_passes (composed_first _) (joins.first (hs.mono hle₁))
    fun _ b₂ σ₂ _ hle₂ joins e => ?_
  cases e
  obtain ⟨σ₃, b₃, test', hle₃, joins⟩ := joins.tests_back pure settled test
  have hle₃ := (hle₁.trans hle₂).trans hle₃
  refine act (composed_action _) test' fun _ => ?_
  cases a with
  | false =>
    refine answers_passes (.debug _) (joins.debug _) fun _ b₄ σ₄ _ hle₄ joins _ => ?_
    refine answers_passes .get joins.get fun _ b₅ σ₅ _ hle₅ joins _ => ?_
    exact answers_refuse joins ((hle₃.trans hle₄).trans hle₅)
  | true =>
    refine call (answers_past joins (hs.mono hle₃) x) fun r σ₄ _ hr => ?_
    obtain ⟨t, b₄, rfl, hle₄, joins, moved, reads⟩ := hr
    refine answers_passes (.debug _) (joins.debug _) fun _ b₅ σ₅ _ hle₅ joins _ => done ?_
    exact ⟨b₅, (hle₃.trans hle₄).trans hle₅, joins,
      .ok (.same settled) (by simp) moved (reads.mono hle₅)⟩

theorem answers_some_nil {f : Value → Action W Bool} {self : ParserId} (joins : b.Joins σ υ)
    (hs : b.Reads [] s) : ((Body.some self f).direct s).Answers (b.Follows υ none g [] s) σ :=
  answers_passes (composed_isEmpty _) (joins.isEmpty hs) fun _ _ _ _ hle joins e =>
    e ▸ answers_refuse joins hle

/-! ### Parsers in sequence -/

theorem answers_seq {c : Combine}
    (first : (Job.parser p s).direct.Answers (b.Follows υ₁ (some (v, n)) g₁ xs s) σ)
    (second : ∀ t τ b₁, σ.Evolves τ → b.Le b₁ → b₁.Joins τ υ₁ → b₁.Reads (xs.drop n) t →
      (Job.parser q t).direct.Answers (b₁.Follows υ₂ (some (w, k)) g₂ (xs.drop n) t) τ)
    (join : ∀ v' w' (τ : Store W) (b₂ : Bridge), b₂.Joins τ υ₂ → b₂.Like v' v → b₂.Like w' w →
      b₂.Passes (c.join v' w') τ υ₂ fun b₃ y => b₃.Like y x) :
    ((Body.seq p q c).direct s).Answers (b.Follows υ₂ (some (x, n + k)) g xs s) σ := by
  refine call first fun r σ₁ k₁ hr => ?_
  obtain ⟨b₁, hle₁, joins, reflects⟩ := hr
  cases reflects with
  | ok hv consumed moved reads =>
    refine call (second _ σ₁ b₁ k₁ hle₁ joins reads) fun r σ₂ k₂ hr => ?_
    obtain ⟨b₂, hle₂, joins, reflects⟩ := hr
    cases reflects with
    | ok hw consumed' moved' reads' =>
      refine answers_passes (composed_join c _ _) (join _ _ σ₂ b₂ joins (hv.mono hle₂) hw)
        fun y b₃ σ₃ _ hle₃ joins hy => done ?_
      exact ⟨b₃, (hle₁.trans hle₂).trans hle₃, joins,
        .next hy consumed consumed' moved moved' (reads'.mono hle₃)⟩

theorem answers_seq_first {c : Combine} (hg : ¬g.IsAttempt)
    (first : (Job.parser p s).direct.Answers (b.Follows υ none g₁ xs s) σ) :
    ((Body.seq p q c).direct s).Answers (b.Follows υ none g xs s) σ := by
  refine call first fun r σ₁ k₁ hr => ?_
  obtain ⟨b₁, hle₁, joins, reflects⟩ := hr
  cases reflects with
  | err _ => exact done ⟨b₁, hle₁, joins, .err fun h => absurd h hg⟩

theorem answers_seq_second {c : Combine} (hg : ¬g.IsAttempt)
    (first : (Job.parser p s).direct.Answers (b.Follows υ₁ (some (v, n)) g₁ xs s) σ)
    (second : ∀ t τ b₁, σ.Evolves τ → b.Le b₁ → b₁.Joins τ υ₁ → b₁.Reads (xs.drop n) t →
      (Job.parser q t).direct.Answers (b₁.Follows υ₂ none g₂ (xs.drop n) t) τ) :
    ((Body.seq p q c).direct s).Answers (b.Follows υ₂ none g xs s) σ := by
  refine call first fun r σ₁ k₁ hr => ?_
  obtain ⟨b₁, hle₁, joins, reflects⟩ := hr
  cases reflects with
  | ok hv consumed moved reads =>
    refine call (second _ σ₁ b₁ k₁ hle₁ joins reads) fun r σ₂ k₂ hr => ?_
    obtain ⟨b₂, hle₂, joins, reflects⟩ := hr
    cases reflects with
    | err _ => exact done ⟨b₂, hle₁.trans hle₂, joins, .err fun h => absurd h hg⟩

/-- Results in sequence are grouped. -/
theorem passes_group (v' w' : Value) (τ : Store W) (b : Bridge) (joins : b.Joins τ υ)
    (hv : b.Like v' v) (hw : b.Like w' w) :
    b.Passes (Combine.group.join v' w') τ υ fun c y => c.Like y (v.beside w) :=
  ⟨_, τ, b, comes_join_group v' w' τ, .refl b, joins, hv.beside hw⟩

/-- A value is put in front of a stream. -/
theorem passes_cons {i : Stream Value} (m : Nat) (v' w' : Value) (τ : Store W) (b : Bridge)
    (joins : b.Joins τ υ) (hv : b.Like v' v) (hw : b.Like w' (.stream i)) :
    b.Passes (Combine.cons.join v' w') τ υ fun c y => c.Like y (.stream (.cons m v i)) := by
  obtain ⟨j, rfl⟩ := hw.to_stream
  exact joins.cons hv hw m

/-! ### Functions of the caller -/

/-- A parser that transforms the result of another one. -/
theorem answers_map {f : Value → Action W Value}
    (pure : ∀ k : Pairing, k.Functions Pairing.Like f f)
    (first : (Job.parser p s).direct.Answers (b.Follows υ₁ (some (v, n)) g₁ xs s) σ)
    (given : (f v).run.Comes υ₁ (.ok w υ₂)) :
    ((Body.map p f).direct s).Answers (b.Follows υ₂ (some (w, n)) g xs s) σ := by
  refine call first fun r σ₁ k₁ hr => ?_
  obtain ⟨b₁, hle₁, joins, reflects⟩ := hr
  cases reflects with
  | ok hv consumed moved reads =>
    obtain ⟨w', σ₂, b₂, run, hle₂, joins, hw⟩ := joins.maps_back pure hv given
    refine act (composed_action _) run fun _ => done ?_
    exact ⟨b₂, hle₁.trans hle₂, joins, .ok hw consumed moved (reads.mono hle₂)⟩

theorem answers_map_fails {f : Value → Action W Value} (hg : ¬g.IsAttempt)
    (first : (Job.parser p s).direct.Answers (b.Follows υ none g₁ xs s) σ) :
    ((Body.map p f).direct s).Answers (b.Follows υ none g xs s) σ := by
  refine call first fun r σ₁ k₁ hr => ?_
  obtain ⟨b₁, hle₁, joins, reflects⟩ := hr
  cases reflects with
  | err _ => exact done ⟨b₁, hle₁, joins, .err fun h => absurd h hg⟩

/-! ### Choices -/

/-- A parser that runs `pure` replies with its value where it is started. -/
theorem answers_pure (performs : p.Performs σ (.pure v)) (settled : v.Settled)
    (joins : b.Joins σ υ) (hs : b.Reads xs s) :
    (Job.parser p s).direct.Answers (b.Follows υ (some (v, 0)) (.pure v) xs s) σ :=
  Direct.Answers.runs_noted performs fun _ k =>
    done ⟨b, .refl b, k.joins joins, .stay (.same settled) hs⟩

theorem answers_left {r : Value × Nat}
    (first : (Job.parser p s).direct.Answers (b.Follows υ (some r) g₁ xs s) σ) :
    ((Body.alt p q : Body W).direct s).Answers (b.Follows υ (some r) g xs s) σ := by
  refine call first fun r σ₁ k₁ hr => ?_
  obtain ⟨b₁, hle₁, joins, reflects⟩ := hr
  cases reflects with
  | ok hv consumed moved reads => exact done ⟨b₁, hle₁, joins, .ok hv consumed moved reads⟩

/-- The first part is an attempt, so it fails without consuming. -/
theorem answers_right (hg : ¬g.IsAttempt) (attempt : g₁.IsAttempt)
    (first : (Job.parser p s).direct.Answers (b.Follows υ₁ none g₁ xs s) σ)
    (second : ∀ τ b₁, σ.Evolves τ → b.Le b₁ → b₁.Joins τ υ₁ →
      (Job.parser q s).direct.Answers (b₁.Follows υ₂ result g₂ xs s) τ) :
    ((Body.alt p q : Body W).direct s).Answers (b.Follows υ₂ result g xs s) σ := by
  refine call first fun r σ₁ k₁ hr => ?_
  obtain ⟨b₁, hle₁, joins, reflects⟩ := hr
  cases reflects with
  | err quiet =>
    obtain rfl := quiet attempt
    refine call (second σ₁ b₁ k₁ hle₁ joins) fun r σ₂ k₂ hr => ?_
    obtain ⟨b₂, hle₂, joins, reflects⟩ := hr
    have hle₂ := hle₁.trans hle₂
    rcases r with ⟨d, v, t⟩ | ⟨_ | _, e', t⟩
    · exact done ⟨b₂, hle₂, joins, reflects.of_not_attempt hg⟩
    · cases reflects
      refine answers_passes .serial joins.serial fun _ b₃ σ₃ _ hle₃ joins _ => done ?_
      exact ⟨b₃, hle₂.trans hle₃, joins, .err fun _ => rfl⟩
    · exact done ⟨b₂, hle₂, joins, reflects.of_not_attempt hg⟩

/-! ### Grammars -/

/-- Parsers reply as their grammars derive. -/
theorem Grammar.Derives.answers (h : g.Derives known xs υ result υ₁) (hd : Declared known σ)
    (hg : g.Each (Grammar.Backtracking known)) (joins : b.Joins σ υ) (hp : g.Builds σ p)
    (hs : b.Reads xs s) :
    (Job.parser p s).direct.Answers (b.Follows υ₁ result g xs s) σ := by
  have parts (q : ParserId) (g : Grammar W) (hq : known q = .some g) : g.Part known :=
    (hd.part q g hq).1
  induction h generalizing b σ p s
  case ref q g xs r _ _ hq derives ih =>
    cases hp with
    | ref =>
      -- The parser that the grammar refers to is made from its own grammar.
      have each : g.Each (Grammar.Backtracking known) := by
        refine (parts q g hq).resolve_left ?_
        rintro rfl
        cases derives
      refine (hd.made q g hq).answers (fun p' τ k built => ?_) (.refl σ)
      obtain ⟨r, τ', comes, k', c, hle, joins, hr⟩ :=
        ih (hd.later k.grows) each (k.joins joins) built hs
      exact ⟨r, τ', comes, k', c, hle, joins, hr.of_not_attempt id⟩
  -- Every other grammar has a parser of its own, and what it performs is known.
  all_goals
    refine hp.answers hd (.inr hg) id fun body τ k node => ?_
    replace hd := hd.later k.grows
    replace joins := k.joins joins
    clear hp k
    cases node
  case accept test => exact answers_some joins hs hg.here test
  case reject test => exact answers_some joins hs hg.here test
  case lacking => exact answers_some_nil joins hs
  case equal e =>
    exact answers_some (a := true) joins hs (fun _ _ _ _ _ => .done rfl) (e ▸ comes_pure _ _)
  case unequal e =>
    exact answers_some (a := false) joins hs (fun _ _ _ _ _ => .done rfl) (e ▸ comes_pure _ _)
  case missing => exact answers_some_nil joins hs
  case pure v xs _ => exact done ⟨b, .refl b, joins, .stay (.same hg.here) hs⟩
  case fail => exact answers_refuse joins (.refl b)
  case finished =>
    refine answers_passes (composed_isEmpty _) (joins.isEmpty hs) fun _ c _ _ hle joins e => ?_
    subst e
    exact done ⟨c, hle, joins, .stay (.same .none) (hs.mono hle)⟩
  case unfinished =>
    refine answers_passes (composed_isEmpty _) (joins.isEmpty hs) fun _ b₁ _ _ hle₁ joins e => ?_
    subst e
    refine answers_passes (composed_first _) (joins.first (hs.mono hle₁))
      fun _ b₂ _ _ hle₂ joins _ => ?_
    refine answers_passes .get joins.get fun _ b₃ _ _ hle₃ joins _ => ?_
    exact answers_refuse joins ((hle₁.trans hle₂).trans hle₃)
  case plus ihp ihq _ _ hp hq =>
    have first := ihp hd (hg.operand (by simp [operands])) joins hp hs
    exact answers_seq first (fun t τ b₁ k hle joins ht => ihq (hd.later k.grows)
      (hg.operand (by simp [operands])) joins (hq.later k.grows) ht) passes_group
  case plusFirst ih _ _ hp hq =>
    exact answers_seq_first id (ih hd (hg.operand (by simp [operands])) joins hp hs)
  case plusSecond ihp ihq _ _ hp hq =>
    have first := ihp hd (hg.operand (by simp [operands])) joins hp hs
    exact answers_seq_second id first fun t τ b₁ k hle joins ht => ihq (hd.later k.grows)
      (hg.operand (by simp [operands])) joins (hq.later k.grows) ht
  case nothing => exact done ⟨b, .refl b, joins, .stay .nil hs⟩
  case sequence m _ _ _ _ _ _ _ ihp ihq _ _ hp hq =>
    have first := ihp hd (hg.operand List.mem_cons_self) joins hp hs
    exact answers_seq first (fun t τ b₁ k hle joins ht => ihq (hd.later k.grows) (hg.rest trivial)
      joins (hq.later k.grows) ht) (passes_cons m)
  case sequenceFirst ih _ _ hp hq =>
    exact answers_seq_first id (ih hd (hg.operand List.mem_cons_self) joins hp hs)
  case sequenceRest ihp ihq _ _ hp hq =>
    have first := ihp hd (hg.operand List.mem_cons_self) joins hp hs
    exact answers_seq_second id first fun t τ b₁ k hle joins ht => ihq (hd.later k.grows)
      (hg.rest trivial) joins (hq.later k.grows) ht
  case map given ih _ hp =>
    exact answers_map hg.here (ih hd (hg.operand List.mem_cons_self) joins hp hs) given
  case mapFails ih _ hp =>
    exact answers_map_fails id (ih hd (hg.operand List.mem_cons_self) joins hp hs)
  case listed given ih _ hp =>
    exact answers_map (fun _ => functions_listOf)
      (ih hd (hg.operand List.mem_cons_self) joins hp hs) given
  case listedFails ih _ hp =>
    exact answers_map_fails id (ih hd (hg.operand List.mem_cons_self) joins hp hs)
  case left ih _ _ hp hq =>
    exact answers_left (ih hd (hg.operand List.mem_cons_self) joins hp hs)
  case right ihp ihq _ _ hp hq =>
    have first := ihp hd (hg.operand List.mem_cons_self) joins hp hs
    exact answers_right id hg.here first fun τ b₁ k hle joins => ihq (hd.later k.grows)
      (hg.operand (by simp [operands])) joins (hq.later k.grows) (hs.mono hle)
  case present ih _ _ hp hq =>
    exact answers_left (ih hd (hg.operand List.mem_cons_self) joins hp hs)
  case absent ih _ _ hp hq =>
    have first := ih hd (hg.operand List.mem_cons_self) joins hp hs
    cases hq with
    | pure performs =>
      exact answers_right id hg.here.1 first fun τ b₁ k hle joins =>
        answers_pure (performs.later k.grows) hg.here.2 joins (hs.mono hle)
  case stop ih _ hp performs =>
    refine call (ih hd (hg.operand List.mem_cons_self) joins hp hs) fun r τ k hr => ?_
    obtain ⟨c, hle, joins, reflects⟩ := hr
    cases reflects with
    | err quiet =>
      obtain rfl := quiet hg.here
      exact done ⟨c, hle, joins, .stay .nil (hs.mono hle)⟩
  case more q xs v i m n l _ _ _ one rest ihp ihq _ hp performs =>
    have pos := (Derives.more (m := m) one rest).pos_of_many parts (hg.operand List.mem_cons_self)
      hs.settled rfl one
    refine call (ihp hd (hg.operand List.mem_cons_self) joins hp hs) fun r τ k hr => ?_
    obtain ⟨b₁, hle₁, joins, reflects⟩ := hr
    cases reflects with
    | @ok d _ _ _ _ hv consumed moved reads =>
      -- The item has taken a token, so it counts as consuming and the repetition goes on.
      obtain rfl : d = true := by
        by_contra h
        have := consumed (Bool.eq_false_iff.mpr h)
        omega
      have again : (Grammar.many q).Builds τ p :=
        .many (hp.later k.grows) (performs.later k.grows)
      refine call (ihq (hd.later k.grows) hg joins again reads) fun r τ' k' hr => ?_
      obtain ⟨b₂, hle₂, joins, reflects⟩ := hr
      cases reflects with
      | ok hw consumed' moved' reads' =>
        refine answers_passes (composed_join .cons _ _)
          (passes_cons m _ _ τ' b₂ joins (hv.mono hle₂) hw) fun y b₃ _ _ hle₃ joins hy => done ?_
        exact ⟨b₃, (hle₁.trans hle₂).trans hle₃, joins,
          .next hy consumed consumed' moved moved' (reads'.mono hle₃)⟩
  case attempt ih _ hp =>
    refine call (ih hd (hg.operand List.mem_cons_self) joins hp hs) fun r τ k hr => ?_
    obtain ⟨c, hle, joins, reflects⟩ := hr
    rcases r with ⟨d, v, t⟩ | ⟨_ | _, e, t⟩
    · cases reflects with
      | ok hv consumed moved reads => exact done ⟨c, hle, joins, .ok hv consumed moved reads⟩
    · cases reflects
      exact done ⟨c, hle, joins, .err fun _ => rfl⟩
    · cases reflects
      exact done ⟨c, hle, joins, .err fun _ => rfl⟩

/-! ### Runs -/

/-- The state is the state `s`, whose input holds the tokens, moved past `n` of them. -/
def State.Beyond (s : State Value) (xs : List Value) (n : Nat) (τ : Store W) (t : State Value) :
    Prop :=
  s.Moved n t ∧ t.input.Supplies τ (.ofList (xs.drop n))

theorem Bridge.Joins.beyond (joins : b.Joins τ υ) (moved : s.Moved n t)
    (reads : b.Reads (xs.drop n) t) : s.Beyond xs n τ t := by
  refine ⟨moved, ?_⟩
  cases t with
  | chunked a c t => exact reads.elim
  | plain w i p u =>
    obtain ⟨⟨r, holds⟩, -⟩ := reads
    exact ⟨b.contents, r, joins.fits, holds⟩

/-- Runs of declared parsers agree with the meaning of their grammars as parsing expressions, if in
all grammars what may be given up is an attempt, functions of the caller are pure and values are
data. The input may be any stream that supplies the tokens `xs`, which are data, a one-shot iterator
included. A run succeeds only as its grammar derives: with a corresponding value, after as many
tokens. Where the grammar derives a success, the run ends with it, and it fails just where the
grammar derives a failure. -/
theorem attempts_backtrack {σ₀ : Store W} {i : Stream Value} (bench : Bench known σ₀)
    (later : σ₀.Evolves σ) (hp : known p = some g) (hi : i.Supplies σ (.ofList xs))
    (data : ∀ x ∈ xs, x.Settled) (watched : Bool) (position : Int) (u : Value) :
    (∀ d v t τ, (p.run (.plain watched i position u)).Comes σ (.ok (.reply (.ok d v t)) τ) →
      ∃ w n υ, g.Derives known xs σ (some (w, n)) υ ∧ v.Corresponds τ υ w ∧
        (State.plain watched i position u).Beyond xs n τ t) ∧
    (∀ w n υ, g.Derives known xs σ (some (w, n)) υ →
      ∃ d v t τ, (p.run (.plain watched i position u)).Comes σ (.ok (.reply (.ok d v t)) τ) ∧
        v.Corresponds τ υ w ∧ (State.plain watched i position u).Beyond xs n τ t) ∧
    ((∃ d e t τ, (p.run (.plain watched i position u)).Comes σ (.ok (.reply (.err d e t)) τ)) ↔
      ∃ υ, g.Derives known xs σ none υ) := by
  have hd := bench.declared.later later.grows
  have part := (hd.part p g hp).1
  obtain ⟨κ, r, fits, holds⟩ := hi
  have joins : (⟨fun _ _ => False, κ⟩ : Bridge).Joins σ σ := Bridge.joins_start fits rfl
  have reads : (⟨fun _ _ => False, κ⟩ : Bridge).Reads xs (.plain watched i position u) :=
    ⟨⟨r, holds⟩, data⟩
  -- Where the grammar derives something, it is no declaration without definition.
  have replies {result υ} (h : g.Derives known xs σ result υ) :
      (Job.parser p (.plain watched i position u)).direct.Answers
        (Bridge.Follows ⟨fun _ _ => False, κ⟩ υ result g xs (.plain watched i position u)) σ := by
    refine (hd.made p g hp).answers (fun q τ k built => ?_) (.refl σ)
    refine h.answers (hd.later k.grows) (part.resolve_left ?_) (k.joins joins) built reads
    rintro rfl
    cases h
  refine ⟨fun d v t τ run => ?_, fun w n υ h => ?_, fun h => ?_, fun ⟨υ, h⟩ => ?_⟩
  · obtain ⟨_, b, υ, -, joins, derives, reflects⟩ :=
      (hd.made p g hp).proves hd joins part reads run
    cases reflects with
    | ok hv consumed moved reads =>
      exact ⟨_, _, υ, derives, ⟨b.pairing, joins.agree, hv⟩, joins.beyond moved reads⟩
  · obtain ⟨r, τ, comes, -, b, -, joins, reflects⟩ := replies h
    cases reflects with
    | ok hv consumed moved reads =>
      exact ⟨_, _, _, τ, comes.reply, ⟨b.pairing, joins.agree, hv⟩, joins.beyond moved reads⟩
  · obtain ⟨d, e, t, τ, run⟩ := h
    obtain ⟨_, b, υ, -, -, derives, reflects⟩ :=
      (hd.made p g hp).proves hd joins part reads run
    cases reflects with
    | err _ => exact ⟨υ, derives⟩
  · obtain ⟨r, τ, comes, -, b, -, -, reflects⟩ := replies h
    cases reflects with
    | err _ => exact ⟨_, _, _, τ, comes.reply⟩

/-- A grammar of nested pairs that refers to its own declaration, with what is inside of a pair read
into a list: where the attempt at another pair takes a token that opens nothing, it goes back. -/
theorem attempts_backtrack_nested :
    let r := (Build.forward (Store.initial () fun _ _ => ())).1
    let σ₁ : Store Unit := (Build.forward (Store.initial () fun _ _ => ())).2
    let pair (inner : Grammar Unit) : Grammar Unit :=
      .plus (.plus (.token (.int 1)) inner) (.token (.int 2))
    let g := pair (.map (.many (.attempt (.ref r))) Build.listOf)
    let σ := (r.define (g.build σ₁).1 (g.build σ₁).2).2
    let xs : List Value := [.int 1, .int 1, .int 2, .int 1, .int 2, .int 2]
    let state : State Value := .plain false (.view ⟨0, .ofList xs⟩ 0 none) 0 .none
    let inside : Value := .group [.int 1, .list [], .int 2]
    ∃ d v t τ υ, (r.run state).Comes σ (.ok (.reply (.ok d v t)) τ) ∧
      v.Corresponds τ υ (.group [.int 1, .list [inside, inside], .int 2]) ∧
      state.Beyond xs 6 τ t := by
  intro r σ₁ pair g σ xs state inside
  let known : Declarations Unit :=
    ((Declarations.set (fun _ => none) r .forward).set (g.build σ₁).1 g).set r g
  have each {known : Declarations Unit} (hr : (known r).isSome) :
      g.Each (Grammar.Backtracking known) := by
    have one (n : Int) :
        (Grammar.token (.int n) : Grammar Unit).Each (Grammar.Backtracking known) :=
      .leaf (by trivial) rfl rfl
    have attempts : (Grammar.many (.attempt (.ref r))).Each (Grammar.Backtracking known) :=
      .one (by trivial) (.one (by trivial) (.leaf (by exact hr) rfl rfl) rfl rfl) rfl rfl
    have inner : (Grammar.map (.many (.attempt (.ref r))) Build.listOf).Each
        (Grammar.Backtracking known) := .one (fun _ => functions_listOf) attempts rfl rfl
    exact .two (by trivial) (.two (by trivial) (one 1) inner rfl rfl) (one 2) rfl rfl
  have forward : Bench _ σ₁ := .forward (.start ⟨_, rfl, .inl ⟨rfl, rfl⟩⟩ ⟨_, rfl, rfl⟩)
  have build : Bench _ (g.build σ₁).2 := .build forward (each rfl) id
  have other : r ≠ (g.build σ₁).1 := by decide +kernel
  have bench : Bench known σ :=
    .define build ((if_neg other).trans (if_pos rfl)) (if_pos rfl) (by simp [g, pair])
  have supplies : Stream.Supplies (.view ⟨0, .ofList xs⟩ 0 none) σ (.ofList xs) :=
    Stream.supplies_view (Int.le_refl 0) (fun n => by
      rw [Stream'.Seq.ofList_get?, Int.zero_add]
      simp [Sequence.get?, Items.ofList, Items.get?]) none σ
  have data : ∀ x ∈ xs, x.Settled := by
    intro x hx
    obtain ⟨n, rfl⟩ : ∃ n, x = .int n := by
      simp only [xs, List.mem_cons, List.not_mem_nil, or_false] at hx
      rcases hx with rfl | rfl | rfl | rfl | rfl | rfl <;> exact ⟨_, rfl⟩
    exact .int n
  have agrees := (attempts_backtrack bench .refl (if_pos rfl) supplies data false 0 .none).2.1
  -- The third token opens no pair, and the fifth and the sixth one open none either.
  have closed (ys : List Value) : (Grammar.ref r).Derives known (.int 2 :: ys) σ none σ :=
    .ref (if_pos rfl) (.plusFirst (.plusFirst (.unequal (by decide))))
  have listed (s : Stream Value) (vs : List Value) (n : Nat)
      (h : (Build.listOf (.stream s) : Action Unit Value).run (.within n) σ = .ok (.list vs) σ) :
      (Build.listOf (.stream s) : Action Unit Value).run.Comes σ (.ok (.list vs) σ) :=
    (composed_action _).comes h not_exhausted_ok
  have inner (ys : List Value) : (Grammar.ref r).Derives known (.int 1 :: .int 2 :: ys) σ
      (some (inside, 2)) σ :=
    .ref (if_pos rfl) (.plus (.plus (.equal (by decide))
      (.map (.stop (.attempt (closed ys))) (listed .nil [] 5 rfl))) (.equal (by decide)))
  have outer : g.Derives known xs σ
      (some (.group [.int 1, .list [inside, inside], .int 2], 6)) σ :=
    .plus (.plus (.equal (by decide)) (.map (.more (m := 0) (.attempt (inner _))
      (.more (m := 0) (.attempt (inner _)) (.stop (.attempt (closed _)))))
      (listed (.cons 0 inside (.cons 0 inside .nil)) [inside, inside] 9 rfl))) (.equal (by decide))
  obtain ⟨d, v, t, τ, run, same, beyond⟩ := agrees _ _ σ outer
  exact ⟨d, v, t, τ, σ, run, same, beyond⟩

end

end ResumableParsing
