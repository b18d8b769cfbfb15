import ResumableParsing.Proofs.Direct.Arrivals
import ResumableParsing.Proofs.Store.Bookkeeping

/-!
# What combinators arrive at

With requests answered, what the run of a parser comes to is said in terms of the runs of the
parsers that it starts: one equivalence for each kind of step, and one for each combinator.

* `Direct.Lands`: what a program comes to, as the outcome of a run
* `lands_done`, `lands_act`, `lands_call`: steps of programs
* `ParserId.Performs.arrives_iff`: a parser does what its body does
* `arrives_pure`, `arrives_seq`, `arrives_alt`, `arrives_map`, `ManyArrives`: the combinators
-/

namespace ResumableParsing

variable {W β : Type}

/-- With requests answered by the chunks of their numbers, the program comes to `y`, and is not kept
waiting. -/
def Direct.Lands (chunks : Int → Stream Value) (x : Direct W (Reply Value)) (σ : Store W)
    (y : EStateM.Result Stop (Store W) (Finish W)) : Prop :=
  (∀ q τ, y ≠ .ok (.request q) τ) ∧ x.Arrives chunks σ (.of y) (left y)

section

variable {chunks : Int → Stream Value} {σ τ : Store W} {p q : ParserId} {s : State Value}
  {y : EStateM.Result Stop (Store W) (Finish W)} {r : Reply Value} {e : Stop}

/-! ## Steps of programs -/

/-- A reply, or a break. -/
theorem Direct.Lands.cases {x : Direct W (Reply Value)} (h : x.Lands chunks σ y) :
    (∃ r τ, y = .ok (.reply r) τ ∧ x.Arrives chunks σ (.reply r) τ) ∨
      ∃ e τ, y = .error e τ ∧ x.Arrives chunks σ (.stop e) τ := by
  rcases y with ⟨r | q, τ⟩ | ⟨e, τ⟩
  · exact .inl ⟨r, τ, rfl, h.2⟩
  · exact absurd rfl (h.1 q τ)
  · exact .inr ⟨e, τ, rfl, h.2⟩

theorem Direct.Arrives.lands_reply {x : Direct W (Reply Value)}
    (h : x.Arrives chunks σ (.reply r) τ) : x.Lands chunks σ (.ok (.reply r) τ) :=
  ⟨by simp, h⟩

theorem Direct.Arrives.lands_stop {x : Direct W (Reply Value)}
    (h : x.Arrives chunks σ (.stop e) τ) : x.Lands chunks σ (.error e τ) :=
  ⟨by simp, h⟩

theorem lands_done :
    (Direct.done r : Direct W _).Lands chunks σ y ↔ y = .ok (.reply r) σ := by
  constructor
  · intro h
    obtain ⟨d, h'⟩ := h.2.depth
    obtain ⟨of_y, left_y⟩ := h'.of_done
    obtain ⟨r', τ, rfl, -⟩ | ⟨e, τ, rfl, -⟩ := h.cases
    · cases of_y
      cases left_y
      rfl
    · cases of_y
  · rintro rfl
    exact Direct.Arrives.lands_reply (.done r σ)

/-- The store is changed first. -/
theorem lands_act {x : Eval W β} {k : β → Direct W (Reply Value)} (hx : Composed x)
    (hk : ∀ b, (k b).Patient) : (Direct.act x k).Lands chunks σ y ↔
      (∃ b σ₁, x.Comes σ (.ok b σ₁) ∧ (k b).Lands chunks σ₁ y) ∨
        ∃ e τ, x.Comes σ (.error e τ) ∧ y = .error e τ := by
  constructor
  · intro h
    obtain ⟨d, h'⟩ := h.2.depth
    rcases h'.of_act hx with ⟨b, σ₁, first, rest⟩ | ⟨e, of_y, first⟩
    · exact .inl ⟨b, σ₁, first, h.1, rest.arrives⟩
    · obtain ⟨r, τ, rfl, -⟩ | ⟨e', τ, rfl, -⟩ := h.cases
      · cases of_y
      · cases of_y
        exact .inr ⟨e, τ, first, rfl⟩
  · rintro (⟨b, σ₁, first, rest⟩ | ⟨e, τ, first, rfl⟩)
    · exact ⟨rest.1, .act (hk b) first rest.2⟩
    · exact Direct.Arrives.lands_stop (.actStop first)

/-- A step that is known. -/
theorem lands_act_ok {x : Eval W β} {k : β → Direct W (Reply Value)} {b : β} {σ₁ : Store W}
    (hx : Composed x) (hk : ∀ b, (k b).Patient) (h : x.Comes σ (.ok b σ₁)) :
    (Direct.act x k).Lands chunks σ y ↔ (k b).Lands chunks σ₁ y := by
  rw [lands_act hx hk]
  constructor
  · rintro (⟨b', σ', h', rest⟩ | ⟨e, τ, h', -⟩)
    · cases h.unique h'
      exact rest
    · cases h.unique h'
  · exact fun rest => .inl ⟨b, σ₁, h, rest⟩

/-- A computation that breaks off. -/
theorem lands_act_error {x : Eval W β} {k : β → Direct W (Reply Value)} (hx : Composed x)
    (hk : ∀ b, (k b).Patient) (h : x.Comes σ (.error e τ)) :
    (Direct.act x k).Lands chunks σ y ↔ y = .error e τ := by
  rw [lands_act hx hk]
  constructor
  · rintro (⟨b', σ', h', rest⟩ | ⟨e', τ', h', rfl⟩)
    · cases h.unique h'
    · cases h.unique h'
      rfl
  · rintro rfl
    exact .inr ⟨e, τ, h, rfl⟩

/-- A job is started first. -/
theorem lands_call {j : Job W} {k : Reply Value → Direct W (Reply Value)}
    (hk : ∀ r, (k r).Patient) : (Direct.call j k).Lands chunks σ y ↔
      (∃ r σ₁, j.direct.Lands chunks σ (.ok (.reply r) σ₁) ∧ (k r).Lands chunks σ₁ y) ∨
        ∃ e τ, j.direct.Lands chunks σ (.error e τ) ∧ y = .error e τ := by
  constructor
  · intro h
    obtain ⟨d, h'⟩ := h.2.depth
    obtain ⟨d', -, ⟨r, σ₁, first, rest⟩ | ⟨e, of_y, first⟩⟩ := h'.of_call
    · exact .inl ⟨r, σ₁, first.arrives.lands_reply, h.1, rest.arrives⟩
    · obtain ⟨r, τ, rfl, -⟩ | ⟨e', τ, rfl, -⟩ := h.cases
      · cases of_y
      · exact .inr ⟨e', τ, first.arrives.lands_stop, rfl⟩
  · rintro (⟨r, σ₁, first, rest⟩ | ⟨e, τ, first, rfl⟩)
    · exact ⟨rest.1, .call (hk r) first.2 rest.2⟩
    · exact Direct.Arrives.lands_stop (.callStop first.2)

theorem lands_iff_arrives : (Job.parser p s).direct.Lands chunks σ y ↔ p.Arrives chunks s σ y :=
  ⟨fun h => (ParserId.arrives_iff h.1).mpr h.2, fun h => ⟨h.1, (ParserId.arrives_iff h.1).mp h⟩⟩

/-- A parser is started first. -/
theorem lands_run {k : Reply Value → Direct W (Reply Value)} (hk : ∀ r, (k r).Patient) :
    (Direct.call (.parser p s) k).Lands chunks σ y ↔
      (∃ r σ₁, p.Arrives chunks s σ (.ok (.reply r) σ₁) ∧ (k r).Lands chunks σ₁ y) ∨
        ∃ e τ, p.Arrives chunks s σ (.error e τ) ∧ y = .error e τ := by
  rw [lands_call hk]
  simp only [lands_iff_arrives]

/-! ## Parsers -/

/-- To log an attempt is bookkeeping. -/
theorem ParserId.clerical_tried (q : ParserId) (σ : Store W) : σ.Clerical (q.tried σ) :=
  (q.noted_tried σ).clerical

/-- A parser does what its body does, after the attempt has been logged. -/
theorem ParserId.Performs.arrives_iff {b : Body W} (hp : p.Performs σ b) :
    p.Arrives chunks s σ y ↔ (b.direct s).Lands chunks (p.tried σ) y := by
  rw [← lands_iff_arrives]
  constructor
  · intro h
    obtain ⟨d, h'⟩ := h.2.depth
    obtain ⟨d', -, body⟩ := hp.of_arrivesIn h'
    exact ⟨h.1, body.arrives⟩
  · exact fun h => ⟨h.1, hp.arrives h.2⟩

theorem composed_answer (chunks : Int → Stream Value) (k : Nat) (f : Finish W) :
    Composed (Finish.answer chunks k f) := by
  induction k generalizing f with
  | zero => exact .pure f
  | succ k ih =>
    cases f with
    | reply r => exact .pure _
    | request q => exact .bind (composed_resumed q _) ih

theorem composed_runWith (chunks : Int → Stream Value) (k : Nat) (p : ParserId) (s : State Value) :
    Composed (p.runWith chunks k s : Eval W (Finish W)) :=
  .bind (composed_complete _) (composed_answer chunks k)

/-- A run forgets nothing. -/
theorem ParserId.Arrives.grows (h : p.Arrives chunks s σ y) : σ.Grows (left y) := by
  obtain ⟨-, k, h⟩ := h
  exact (composed_runWith chunks k p s).grows_of_comes h

/-- More requests may be answered than there are. -/
theorem comes_answer_more {k k' : Nat} {f : Finish W} (hk : k ≤ k')
    (hy : ∀ q τ, y ≠ .ok (.request q) τ) (h : (Finish.answer chunks k f).Comes σ y) :
    (Finish.answer chunks k' f).Comes σ y := by
  cases f with
  | reply r =>
    rw [answer_reply] at h ⊢
    exact h
  | request q =>
    induction k generalizing k' q σ with
    | zero =>
      cases h.unique (comes_pure _ σ)
      exact absurd rfl (hy q σ)
    | succ k ih =>
      obtain ⟨k', rfl⟩ : ∃ j, k' = j + 1 := ⟨k' - 1, by omega⟩
      rcases h.of_bind (composed_resumed q _) with ⟨f, σ₁, first, rest⟩ | ⟨e, τ, first, rfl⟩
      · refine comes_bind_ok first ?_
        cases f with
        | reply r =>
          rw [answer_reply] at rest ⊢
          exact rest
        | request q' => exact ih (by omega) q' rest
      · exact comes_bind_error first

/-- A run comes to one thing. -/
theorem ParserId.Arrives.unique {z : EStateM.Result Stop (Store W) (Finish W)}
    (h : p.Arrives chunks s σ y) (h' : p.Arrives chunks s σ z) : y = z := by
  have within {y : EStateM.Result Stop (Store W) (Finish W)} {k n : Nat} (hk : k ≤ n)
      (hy : ∀ q τ, y ≠ .ok (.request q) τ) (h : (p.runWith chunks k s).Comes σ y) :
      (p.runWith chunks n s).Comes σ y := by
    rcases h.of_bind (composed_complete _) with ⟨f, σ₁, first, rest⟩ | ⟨e, τ, first, rfl⟩
    · exact comes_bind_ok first (comes_answer_more hk hy rest)
    · exact comes_bind_error first
  obtain ⟨hy, k, h⟩ := h
  obtain ⟨hz, k', h'⟩ := h'
  exact (within (Nat.le_max_left k k') hy h).unique (within (Nat.le_max_right k k') hz h')

/-! ## Combinators -/

theorem arrives_pure {v : Value} (h : p.Performs σ (.pure v)) :
    p.Arrives chunks s σ y ↔ y = .ok (.reply (.ok false v s)) (p.tried σ) := by
  rw [h.arrives_iff]
  exact lands_done

/-- What two parsers in sequence arrive at. -/
inductive SeqArrives (chunks : Int → Stream Value) (a b : ParserId) (c : Combine)
    (s : State Value) (σ : Store W) : EStateM.Result Stop (Store W) (Finish W) → Prop where
  /-- The first one fails. -/
  | first {d : Bool} {e : ParseError Value} {t : State Value} {τ : Store W} :
      a.Arrives chunks s σ (.ok (.reply (.err d e t)) τ) →
      SeqArrives chunks a b c s σ (.ok (.reply (.err d e t)) τ)
  /-- The first one breaks off. -/
  | firstStop {e : Stop} {τ : Store W} :
      a.Arrives chunks s σ (.error e τ) → SeqArrives chunks a b c s σ (.error e τ)
  /-- The second one fails. -/
  | second {d d' : Bool} {v : Value} {e : ParseError Value} {t u : State Value}
      {σ₁ τ : Store W} :
      a.Arrives chunks s σ (.ok (.reply (.ok d v t)) σ₁) →
      b.Arrives chunks t σ₁ (.ok (.reply (.err d' e u)) τ) →
      SeqArrives chunks a b c s σ (.ok (.reply (.err (d || d') e u)) τ)
  /-- The second one breaks off. -/
  | secondStop {d : Bool} {v : Value} {t : State Value} {e : Stop} {σ₁ τ : Store W} :
      a.Arrives chunks s σ (.ok (.reply (.ok d v t)) σ₁) →
      b.Arrives chunks t σ₁ (.error e τ) → SeqArrives chunks a b c s σ (.error e τ)
  /-- Both succeed, and the results are joined. -/
  | both {d d' : Bool} {v w x : Value} {t u : State Value} {σ₁ σ₂ τ : Store W} :
      a.Arrives chunks s σ (.ok (.reply (.ok d v t)) σ₁) →
      b.Arrives chunks t σ₁ (.ok (.reply (.ok d' w u)) σ₂) →
      (c.join v w).Comes σ₂ (.ok x τ) →
      SeqArrives chunks a b c s σ (.ok (.reply (.ok (d || d') x u)) τ)
  /-- The results cannot be joined. -/
  | bothStop {d d' : Bool} {v w : Value} {t u : State Value} {e : Stop} {σ₁ σ₂ τ : Store W} :
      a.Arrives chunks s σ (.ok (.reply (.ok d v t)) σ₁) →
      b.Arrives chunks t σ₁ (.ok (.reply (.ok d' w u)) σ₂) →
      (c.join v w).Comes σ₂ (.error e τ) → SeqArrives chunks a b c s σ (.error e τ)

theorem arrives_seq {a b : ParserId} {c : Combine} (h : p.Performs σ (.seq a b c)) :
    p.Arrives chunks s σ y ↔ SeqArrives chunks a b c s (p.tried σ) y := by
  have patient := Direct.Patient.body (.seq a b c : Body W) s
  have patient₂ (d v t) := patient (.ok d v t)
  rw [h.arrives_iff]
  constructor
  · intro h
    rcases (lands_run patient).mp h with ⟨r, σ₁, first, h⟩ | ⟨e, τ, first, rfl⟩
    · cases r with
      | err d e t =>
        cases lands_done.mp h
        exact .first first
      | ok d v t =>
        rcases (lands_run (patient₂ d v t)).mp h with ⟨r, σ₂, second, h⟩ | ⟨e, τ, second, rfl⟩
        · cases r with
          | err d' e u =>
            cases lands_done.mp h
            exact .second first second
          | ok d' w u =>
            rcases (lands_act (composed_join c v w) (patient₂ d v t (.ok d' w u)).2).mp h with
              ⟨x, τ, joined, h⟩ | ⟨e, τ, joined, rfl⟩
            · cases lands_done.mp h
              exact .both first second joined
            · exact .bothStop first second joined
        · exact .secondStop first second
    · exact .firstStop first
  · intro h
    cases h with
    | firstStop first => exact (lands_run patient).mpr (.inr ⟨_, _, first, rfl⟩)
    | first first => exact (lands_run patient).mpr (.inl ⟨_, _, first, lands_done.mpr rfl⟩)
    | @second d d' v e t u σ₁ τ first second =>
      refine (lands_run patient).mpr (.inl ⟨_, _, first, ?_⟩)
      exact (lands_run (patient₂ d v t)).mpr (.inl ⟨_, _, second, lands_done.mpr rfl⟩)
    | @secondStop d v t e σ₁ τ first second =>
      refine (lands_run patient).mpr (.inl ⟨_, _, first, ?_⟩)
      exact (lands_run (patient₂ d v t)).mpr (.inr ⟨_, _, second, rfl⟩)
    | @both d d' v w x t u σ₁ σ₂ τ first second joined =>
      refine (lands_run patient).mpr (.inl ⟨_, _, first, ?_⟩)
      refine (lands_run (patient₂ d v t)).mpr (.inl ⟨_, _, second, ?_⟩)
      exact (lands_act (composed_join c v w) (patient₂ d v t (.ok d' w u)).2).mpr
        (.inl ⟨_, _, joined, lands_done.mpr rfl⟩)
    | @bothStop d d' v w t u e σ₁ σ₂ τ first second joined =>
      refine (lands_run patient).mpr (.inl ⟨_, _, first, ?_⟩)
      refine (lands_run (patient₂ d v t)).mpr (.inl ⟨_, _, second, ?_⟩)
      exact (lands_act (composed_join c v w) (patient₂ d v t (.ok d' w u)).2).mpr
        (.inr ⟨_, _, joined, rfl⟩)

/-- What the choice between two parsers arrives at. -/
inductive AltArrives (chunks : Int → Stream Value) (a b : ParserId) (s : State Value)
    (σ : Store W) : EStateM.Result Stop (Store W) (Finish W) → Prop where
  /-- The first one does not fail without consuming. -/
  | first {y : EStateM.Result Stop (Store W) (Finish W)} :
      a.Arrives chunks s σ y → (∀ e t τ, y ≠ .ok (.reply (.err false e t)) τ) →
      AltArrives chunks a b s σ y
  /-- The second one does not fail without consuming. -/
  | second {y : EStateM.Result Stop (Store W) (Finish W)} {e : ParseError Value}
      {t : State Value} {σ₁ : Store W} :
      a.Arrives chunks s σ (.ok (.reply (.err false e t)) σ₁) → b.Arrives chunks s σ₁ y →
      (∀ e t τ, y ≠ .ok (.reply (.err false e t)) τ) → AltArrives chunks a b s σ y
  /-- Both fail without consuming. -/
  | neither {e e' : ParseError Value} {t u : State Value} {σ₁ σ₂ : Store W} :
      a.Arrives chunks s σ (.ok (.reply (.err false e t)) σ₁) →
      b.Arrives chunks s σ₁ (.ok (.reply (.err false e' u)) σ₂) →
      AltArrives chunks a b s σ (.ok (.reply (.err false (e.merge σ₂.nextSerial e') u))
        (σ₂.drawn 1))

theorem comes_get (σ : Store W) : (get : Eval W (Store W)).Comes σ (.ok σ σ) :=
  comes_of_forall (fun _ => rfl) not_exhausted_ok

theorem comes_serial (σ : Store W) :
    (Eval.serial : Eval W Nat).Comes σ (.ok σ.nextSerial (σ.drawn 1)) :=
  comes_of_forall (fun _ => rfl) not_exhausted_ok

theorem arrives_alt {a b : ParserId} (h : p.Performs σ (.alt a b)) :
    p.Arrives chunks s σ y ↔ AltArrives chunks a b s (p.tried σ) y := by
  have patient := Direct.Patient.body (.alt a b : Body W) s
  have patient₂ (e t) := patient (.err false e t)
  rw [h.arrives_iff]
  constructor
  · intro h
    rcases (lands_run patient).mp h with ⟨r, σ₁, first, h⟩ | ⟨e, τ, first, rfl⟩
    · rcases r with ⟨d, v, t⟩ | ⟨_ | _, e, t⟩
      · cases lands_done.mp h
        exact .first first (by simp)
      · rcases (lands_run (patient₂ e t)).mp h with ⟨r, σ₂, second, h⟩ | ⟨e, τ, second, rfl⟩
        · rcases r with ⟨d', w, u⟩ | ⟨_ | _, e', u⟩
          · cases lands_done.mp h
            exact .second first second (by simp)
          · cases lands_done.mp ((lands_act_ok .serial (patient₂ e t (.err false e' u)).2
              (comes_serial σ₂)).mp h)
            exact .neither first second
          · cases lands_done.mp h
            exact .second first second (by simp)
        · exact .second first second (by simp)
      · cases lands_done.mp h
        exact .first first (by simp)
    · exact .first first (by simp)
  · intro h
    cases h with
    | first first ne =>
      rcases y with ⟨(⟨d, v, t⟩ | ⟨_ | _, e, t⟩) | q, τ⟩ | ⟨e, τ⟩
      · exact (lands_run patient).mpr (.inl ⟨_, _, first, lands_done.mpr rfl⟩)
      · exact absurd rfl (ne e t τ)
      · exact (lands_run patient).mpr (.inl ⟨_, _, first, lands_done.mpr rfl⟩)
      · exact absurd rfl (first.1 q τ)
      · exact (lands_run patient).mpr (.inr ⟨_, _, first, rfl⟩)
    | @second _ e t σ₁ first second ne =>
      refine (lands_run patient).mpr (.inl ⟨_, _, first, ?_⟩)
      rcases y with ⟨(⟨d, v, t'⟩ | ⟨_ | _, e', t'⟩) | q, τ⟩ | ⟨e', τ⟩
      · exact (lands_run (patient₂ e t)).mpr (.inl ⟨_, _, second, lands_done.mpr rfl⟩)
      · exact absurd rfl (ne e' t' τ)
      · exact (lands_run (patient₂ e t)).mpr (.inl ⟨_, _, second, lands_done.mpr rfl⟩)
      · exact absurd rfl (second.1 q τ)
      · exact (lands_run (patient₂ e t)).mpr (.inr ⟨_, _, second, rfl⟩)
    | @neither e e' t u σ₁ σ₂ first second =>
      refine (lands_run patient).mpr (.inl ⟨_, _, first, ?_⟩)
      refine (lands_run (patient₂ e t)).mpr (.inl ⟨_, _, second, ?_⟩)
      exact (lands_act_ok .serial (patient₂ e t (.err false e' u)).2 (comes_serial σ₂)).mpr
        (lands_done.mpr rfl)

/-- What a parser whose result is transformed arrives at. -/
inductive MapArrives (chunks : Int → Stream Value) (a : ParserId) (f : Value → Action W Value)
    (s : State Value) (σ : Store W) : EStateM.Result Stop (Store W) (Finish W) → Prop where
  /-- The parser fails. -/
  | failed {d : Bool} {e : ParseError Value} {t : State Value} {τ : Store W} :
      a.Arrives chunks s σ (.ok (.reply (.err d e t)) τ) →
      MapArrives chunks a f s σ (.ok (.reply (.err d e t)) τ)
  /-- The parser breaks off. -/
  | stop {e : Stop} {τ : Store W} :
      a.Arrives chunks s σ (.error e τ) → MapArrives chunks a f s σ (.error e τ)
  /-- The result is transformed. -/
  | mapped {d : Bool} {v x : Value} {t : State Value} {σ₁ τ : Store W} :
      a.Arrives chunks s σ (.ok (.reply (.ok d v t)) σ₁) → (f v).run.Comes σ₁ (.ok x τ) →
      MapArrives chunks a f s σ (.ok (.reply (.ok d x t)) τ)
  /-- The result cannot be transformed. -/
  | mapStop {d : Bool} {v : Value} {t : State Value} {e : Stop} {σ₁ τ : Store W} :
      a.Arrives chunks s σ (.ok (.reply (.ok d v t)) σ₁) → (f v).run.Comes σ₁ (.error e τ) →
      MapArrives chunks a f s σ (.error e τ)

theorem arrives_map {a : ParserId} {f : Value → Action W Value} (h : p.Performs σ (.map a f)) :
    p.Arrives chunks s σ y ↔ MapArrives chunks a f s (p.tried σ) y := by
  have patient := Direct.Patient.body (.map a f : Body W) s
  rw [h.arrives_iff]
  constructor
  · intro h
    rcases (lands_run patient).mp h with ⟨r, σ₁, first, h⟩ | ⟨e, τ, first, rfl⟩
    · cases r with
      | err d e t =>
        cases lands_done.mp h
        exact .failed first
      | ok d v t =>
        rcases (lands_act (composed_action _) (patient (.ok d v t)).2).mp h with
          ⟨x, τ, mapped, h⟩ | ⟨e, τ, mapped, rfl⟩
        · cases lands_done.mp h
          exact .mapped first mapped
        · exact .mapStop first mapped
    · exact .stop first
  · intro h
    cases h with
    | failed first => exact (lands_run patient).mpr (.inl ⟨_, _, first, lands_done.mpr rfl⟩)
    | stop first => exact (lands_run patient).mpr (.inr ⟨_, _, first, rfl⟩)
    | @mapped d v x t σ₁ τ first mapped =>
      refine (lands_run patient).mpr (.inl ⟨_, _, first, ?_⟩)
      exact (lands_act (composed_action _) (patient (.ok d v t)).2).mpr
        (.inl ⟨_, _, mapped, lands_done.mpr rfl⟩)
    | @mapStop d v t e σ₁ τ first mapped =>
      refine (lands_run patient).mpr (.inl ⟨_, _, first, ?_⟩)
      exact (lands_act (composed_action _) (patient (.ok d v t)).2).mpr
        (.inr ⟨_, _, mapped, rfl⟩)

/-- What the unlimited repetition `q` of a parser arrives at, where `Again` says what the runs
arrive at that it starts of itself. -/
inductive ManyArrives (chunks : Int → Stream Value) (q a : ParserId)
    (Again : State Value → Store W → EStateM.Result Stop (Store W) (Finish W) → Prop)
    (s : State Value) (σ : Store W) : EStateM.Result Stop (Store W) (Finish W) → Prop where
  /-- The parser fails without consuming. -/
  | ended {e : ParseError Value} {t : State Value} {τ : Store W} :
      a.Arrives chunks s σ (.ok (.reply (.err false e t)) τ) →
      ManyArrives chunks q a Again s σ (.ok (.reply (.ok false (.stream .nil) s)) τ)
  /-- The parser fails after consuming. -/
  | failed {e : ParseError Value} {t : State Value} {τ : Store W} :
      a.Arrives chunks s σ (.ok (.reply (.err true e t)) τ) →
      ManyArrives chunks q a Again s σ (.ok (.reply (.err true e t)) τ)
  /-- The parser breaks off. -/
  | stop {e : Stop} {τ : Store W} : a.Arrives chunks s σ (.error e τ) →
      ManyArrives chunks q a Again s σ (.error e τ)
  /-- The parser succeeds without consuming. -/
  | endless {v : Value} {t : State Value} {τ : Store W} :
      a.Arrives chunks s σ (.ok (.reply (.ok false v t)) τ) →
      ManyArrives chunks q a Again s σ (.error (.raised (.endlessRepetition (τ.parserName q))) τ)
  /-- There are more results. -/
  | more {d : Bool} {v w x : Value} {t u : State Value} {σ₁ σ₂ τ : Store W} :
      a.Arrives chunks s σ (.ok (.reply (.ok true v t)) σ₁) →
      Again t σ₁ (.ok (.reply (.ok d w u)) σ₂) → (Combine.cons.join v w).Comes σ₂ (.ok x τ) →
      ManyArrives chunks q a Again s σ (.ok (.reply (.ok true x u)) τ)
  /-- The results cannot be joined. -/
  | joinStop {d : Bool} {v w : Value} {t u : State Value} {e : Stop} {σ₁ σ₂ τ : Store W} :
      a.Arrives chunks s σ (.ok (.reply (.ok true v t)) σ₁) →
      Again t σ₁ (.ok (.reply (.ok d w u)) σ₂) → (Combine.cons.join v w).Comes σ₂ (.error e τ) →
      ManyArrives chunks q a Again s σ (.error e τ)
  /-- The rest fails. -/
  | moreFails {d : Bool} {v : Value} {e : ParseError Value} {t u : State Value}
      {σ₁ τ : Store W} : a.Arrives chunks s σ (.ok (.reply (.ok true v t)) σ₁) →
      Again t σ₁ (.ok (.reply (.err d e u)) τ) →
      ManyArrives chunks q a Again s σ (.ok (.reply (.err true e u)) τ)
  /-- The rest breaks off. -/
  | moreStop {v : Value} {t : State Value} {e : Stop} {σ₁ τ : Store W} :
      a.Arrives chunks s σ (.ok (.reply (.ok true v t)) σ₁) → Again t σ₁ (.error e τ) →
      ManyArrives chunks q a Again s σ (.error e τ)

theorem ManyArrives.lands {q a : ParserId} (h : ManyArrives chunks q a (q.Arrives chunks) s σ y) :
    ((Body.many q a : Body W).direct s).Lands chunks σ y := by
  have patient := Direct.Patient.body (.many q a : Body W) s
  cases h with
  | ended first => exact (lands_run patient).mpr (.inl ⟨_, _, first, lands_done.mpr rfl⟩)
  | failed first => exact (lands_run patient).mpr (.inl ⟨_, _, first, lands_done.mpr rfl⟩)
  | stop first => exact (lands_run patient).mpr (.inr ⟨_, _, first, rfl⟩)
  | @endless v t τ first =>
    refine (lands_run patient).mpr (.inl ⟨_, _, first, ?_⟩)
    exact (lands_act_ok .get (patient (.ok false v t)).2 (comes_get τ)).mpr
      ((lands_act_error (.fault _) ((patient (.ok false v t)).2 τ).2 (comes_fault _ τ)).mpr rfl)
  | @more d v w x t u σ₁ σ₂ τ first second joined =>
    refine (lands_run patient).mpr (.inl ⟨_, _, first, ?_⟩)
    refine (lands_run (patient (.ok true v t))).mpr (.inl ⟨_, _, second, ?_⟩)
    exact (lands_act (composed_join _ v w) (patient (.ok true v t) (.ok d w u)).2).mpr
      (.inl ⟨_, _, joined, lands_done.mpr rfl⟩)
  | @joinStop d v w t u e σ₁ σ₂ τ first second joined =>
    refine (lands_run patient).mpr (.inl ⟨_, _, first, ?_⟩)
    refine (lands_run (patient (.ok true v t))).mpr (.inl ⟨_, _, second, ?_⟩)
    exact (lands_act (composed_join _ v w) (patient (.ok true v t) (.ok d w u)).2).mpr
      (.inr ⟨_, _, joined, rfl⟩)
  | @moreFails d v e t u σ₁ τ first second =>
    refine (lands_run patient).mpr (.inl ⟨_, _, first, ?_⟩)
    exact (lands_run (patient (.ok true v t))).mpr (.inl ⟨_, _, second, lands_done.mpr rfl⟩)
  | @moreStop v t e σ₁ τ first second =>
    refine (lands_run patient).mpr (.inl ⟨_, _, first, ?_⟩)
    exact (lands_run (patient (.ok true v t))).mpr (.inr ⟨_, _, second, rfl⟩)

/-- The runs that the repetition starts of itself are less deep. -/
theorem manyArrives_of_arrivesIn {q a : ParserId} {n : Nat}
    (hy : ∀ f τ, y ≠ .ok (.request f) τ)
    (h : ((Body.many q a : Body W).direct s).ArrivesIn chunks n σ (.of y) (left y)) :
    ManyArrives chunks q a (fun t σ y => (∀ f τ, y ≠ .ok (.request f) τ) ∧
      ∃ k < n, (Job.parser q t).direct.ArrivesIn chunks k σ (.of y) (left y)) s σ y := by
  have patient := Direct.Patient.body (.many q a : Body W) s
  obtain ⟨k, hk, ⟨r, σ₁, first, rest⟩ | ⟨e, of_y, first⟩⟩ := h.of_call
  · have first := lands_iff_arrives.mp first.arrives.lands_reply
    rcases r with ⟨_ | _, v, t⟩ | ⟨_ | _, e, t⟩
    · have lands := (lands_act_ok .get (patient (.ok false v t)).2 (comes_get σ₁)).mp
        ⟨hy, rest.arrives⟩
      cases (lands_act_error (.fault _) ((patient (.ok false v t)).2 σ₁).2
        (comes_fault _ σ₁)).mp lands
      exact .endless first
    · obtain ⟨k', hk', ⟨r, σ₂, second, rest⟩ | ⟨e, of_y, second⟩⟩ := rest.of_call
      · cases r with
        | err d e u =>
          cases lands_done.mp ⟨hy, rest.arrives⟩
          exact .moreFails first ⟨by simp, k', hk', second⟩
        | ok d w u =>
          rcases (lands_act (composed_join _ v w) (patient (.ok true v t) (.ok d w u)).2).mp
            ⟨hy, rest.arrives⟩ with ⟨x, τ, joined, done⟩ | ⟨e, τ, joined, rfl⟩
          · cases lands_done.mp done
            exact .more first ⟨by simp, k', hk', second⟩ joined
          · exact .joinStop first ⟨by simp, k', hk', second⟩ joined
      · obtain ⟨r, τ, rfl, -⟩ | ⟨e', τ, rfl, -⟩ := Direct.Lands.cases ⟨hy, second.arrives⟩
        · cases of_y
        · exact .moreStop first ⟨by simp, k', hk', second⟩
    · cases lands_done.mp ⟨hy, rest.arrives⟩
      exact .ended first
    · cases lands_done.mp ⟨hy, rest.arrives⟩
      exact .failed first
  · obtain ⟨r, τ, rfl, -⟩ | ⟨e', τ, rfl, -⟩ := Direct.Lands.cases ⟨hy, first.arrives⟩
    · cases of_y
    · exact .stop (lands_iff_arrives.mp first.arrives.lands_stop)

end

end ResumableParsing
