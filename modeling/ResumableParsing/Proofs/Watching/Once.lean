import ResumableParsing.Proofs.Watching.Audits

/-!
# Watched sessions

Watched and unwatched sessions agree, whatever the caller asks of them and in whatever order, and a
watched state inside a chunk is asked for its parser at most once, however often parses move past
it.

* `audited_errand`, `Course.audit`: the calls of an errand, and of a whole history
* `Course.unique`: a history is determined by its errands
* `watched_sessions_agree`: both statements about all histories
-/

namespace ResumableParsing

variable {W : Type}

section

variable {P P' : ParserId → Prop} {n : Nat} {σ σ' σ₀ τ : Store W} {asked : List Ask}
  {trips trips' : List (Trip W)} {pool : List SessionId}

/-- What the handlers do does not depend on who is watched, so they make no states. -/
theorem Handlers.IgnoreWatching.detached {handlers : Handlers W} (h : handlers.IgnoreWatching)
    (r : Reply Value) : (handlers.call r).Detached := by
  have same : r.Alike r := by
    cases r with
    | ok d v s => exact .ok d v (.refl s)
    | err d e s => exact .err d ⟨rfl, .refl _, rfl, rfl⟩ (.refl s)
  exact (h r r same).detached

/-- An errand asks only where nobody has asked before. -/
theorem audited_errand {e : Errand W} (audit : Audit P' σ asked) (le : ∀ p, P p → P' p)
    (fits : e.Fits P pool) :
    Audited P' n σ asked e.run (e.asked (.within n) σ) fun _ _ _ => True := by
  have given {α : Type} {x : Eval W α} {f : α → Answer} {asks : List Ask}
      {Q : (ParserId → Prop) → α → Store W → Prop} (h : Audited P' n σ asked x asks Q) :
      Audited P' n σ asked (f <$> x) asks fun _ _ _ => True := by
    rw [map_eq_pure_bind]
    exact h.andThen fun _ a τ _ audit _ _ => .pure audit trivial
  cases e with
  | start p watched input position user handlers =>
    exact given (audited_startSession audit (le p fits.1) fits.2.detached watched input
      position user)
  | provide source i => exact given (audited_provide audit source)
  | force source i => exact given (audited_forceProvide audit source)
  | finish i => exact given (audited_finish audit)
  | act a => exact given (.silent audit ((quiet_action fits).idles audit.refl))

/-- Between the errands of a history everything is in order. -/
theorem Course.audit (pristine : σ₀.Pristine P) (course : Course P σ₀ trips σ) :
    ∃ P', (∀ p, P p → P' p) ∧ Audit P' σ (trips.reverse.flatMap Trip.asked) := by
  induction course with
  | none => exact ⟨P, fun _ hp => hp, .of_pristine pristine⟩
  | @more trips σ e n _ fits _ ih =>
    obtain ⟨P₁, le, audit⟩ := ih
    obtain ⟨P₂, later, audit', -⟩ := (audited_errand (n := n) audit le fits).next
    refine ⟨P₂, fun p hp => later.le p (le p hp), ?_⟩
    rw [List.reverse_cons, List.flatMap_append, List.flatMap_singleton]
    exact audit'

/-- The answers of a history are determined by its errands. -/
theorem Course.unique (course : Course P σ₀ trips σ) (course' : Course P σ₀ trips' σ')
    (same : trips.map Trip.errand = trips'.map Trip.errand) :
    σ = σ' ∧ trips.map Trip.answer = trips'.map Trip.answer := by
  induction course generalizing trips' σ' with
  | none =>
    cases course' with
    | none => exact ⟨rfl, rfl⟩
    | more => cases same
  | @more trips σ e n _ _ ended ih =>
    cases course' with
    | none => cases same
    | @more trips' σ' e' n' course' _ ended' =>
      obtain ⟨(errand : e = e'), rest⟩ := List.cons.inj same
      subst errand
      obtain ⟨rfl, answers⟩ := ih course' rest
      have one := ((composed_errand e).comes rfl ended).unique
        ((composed_errand e).comes rfl ended')
      rw [List.map_cons, List.map_cons, answers, one]
      exact ⟨rfl, rfl⟩

/-- **Watched and unwatched sessions agree, and watched states are asked once.** In every history of
sessions, chunks, results and programs of the caller, each state inside a chunk asks for the parser
of its inner state at most once, and with its first token. If watching changes nothing that the
functions of the caller can see, then the same errands can be run with other states watched, and
however they are run, they are answered alike: the same sessions are given, they are complete at the
same time and have the same chunks, and results and errors are the same, with the same inputs,
positions and user states. -/
theorem watched_sessions_agree (pristine : σ₀.Pristine P) (course : Course P σ₀ trips σ) :
    (((trips.reverse.flatMap Trip.asked).map Ask.state).Nodup ∧
      ∀ x ∈ trips.reverse.flatMap Trip.asked, x.inner.input.Head σ x.token) ∧
    ((∀ token world, σ₀.watch token world = world) → ∀ errands : List (Errand W),
      List.Forall₂ Errand.Alike (trips.map Trip.errand) errands →
      (∃ trips' τ, Course P σ₀ trips' τ ∧ trips'.map Trip.errand = errands) ∧
      ∀ trips' τ, Course P σ₀ trips' τ → trips'.map Trip.errand = errands →
        List.Forall₂ Watching.Told (trips.map Trip.answer) (trips'.map Trip.answer) ∧
        ∀ i ∈ given trips, Watching.Same σ τ i) := by
  obtain ⟨P', -, audit⟩ := course.audit pristine
  refine ⟨⟨audit.once, audit.head⟩, fun unseen errands alike => ?_⟩
  obtain ⟨trips₁, τ₁, course₁, same₁, told, sessions⟩ :=
    Watching.course_agrees pristine unseen course alike
  refine ⟨⟨trips₁, τ₁, course₁, same₁⟩, fun trips₂ τ₂ course₂ same₂ => ?_⟩
  obtain ⟨rfl, answers⟩ := course₁.unique course₂ (same₁.trans same₂.symm)
  refine ⟨?_, sessions⟩
  rw [← answers, List.forall₂_map_left_iff, List.forall₂_map_right_iff]
  exact told

end

/-- Behind a chunk of one token two sessions go on in different ways, and both go back in front of
the token. Its state is asked once. -/
theorem watched_sessions_agree_going_back :
    let any : Grammar Unit := .some fun _ => .done true
    let made := (Grammar.or (.attempt (.plus any (.fail "no"))) any).build
      (Store.initial () fun _ w => w)
    let chunk (v : Int) : Stream Value := .cons 0 (.int v) .nil
    let errands (watched : Bool) : List (Errand Unit) :=
      [.finish ⟨2⟩, .provide (.stream (chunk 3)) ⟨1⟩, .provide (.stream (chunk 2)) ⟨1⟩,
        .start made.1 watched (chunk 1) 0 .none .value]
    ∃ P trips σ trips' τ, made.2.Pristine P ∧ Course P made.2 trips σ ∧
      trips.map Trip.errand = errands true ∧
      (trips.reverse.flatMap Trip.asked).map Ask.state = [⟨0⟩] ∧
      (∀ x ∈ trips.reverse.flatMap Trip.asked, x.inner.input.Head σ x.token) ∧
      Course P made.2 trips' τ ∧ trips'.map Trip.errand = errands false ∧
      List.Forall₂ Watching.Told (trips.map Trip.answer) (trips'.map Trip.answer) ∧
      ∀ i ∈ given trips, Watching.Same σ τ i := by
  intro any made chunk errands
  have reads : any.Library (fun _ => False) fun p => p = .finished := .some fun _ => trivial
  obtain ⟨P, pristine, main⟩ := Grammar.Library.pristine
    (.or (.attempt (.plus reads (.fail "no"))) reads) () fun _ w => w
  have ended {σ : Store Unit} {e : Errand Unit} (h : succeeded (e.run.exec 60 σ) = true) :
      ¬Exhausted (e.run.exec 60 σ) := by
    rintro ⟨τ, stopped⟩
    rw [stopped] at h
    cases h
  have started : Course P made.2 _ _ := .more (.start made.1 true (chunk 1) 0 .none .value) 60 .none
    ⟨main, Handlers.ignoreWatching_value⟩ (ended (by decide +kernel))
  have provided : Course P made.2 _ _ := started.more (.provide (.stream (chunk 2)) ⟨1⟩) 60
    (show _ ∈ _ by decide +kernel) (ended (by decide +kernel))
  have diverged : Course P made.2 _ _ := provided.more (.provide (.stream (chunk 3)) ⟨1⟩) 60
    (show _ ∈ _ by decide +kernel) (ended (by decide +kernel))
  have course : Course P made.2 _ _ := diverged.more (.finish ⟨2⟩) 60
    (show _ ∈ _ by decide +kernel) (ended (by decide +kernel))
  have alike : List.Forall₂ Errand.Alike (errands true) (errands false) :=
    .cons (.finish _) (.cons (.provide _ _) (.cons (.provide _ _) (.cons (.start ..) .nil)))
  obtain ⟨⟨-, heads⟩, agree⟩ := watched_sessions_agree pristine course
  obtain ⟨⟨trips', τ, course', same⟩, told⟩ := agree (fun _ _ => rfl) (errands false) alike
  exact ⟨P, _, _, trips', τ, pristine, course, rfl, by decide +kernel, heads, course', same,
    told trips' τ course' same⟩

end ResumableParsing
