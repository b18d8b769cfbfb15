import Mathlib.Data.List.Forall2
import ResumableParsing.Proofs.Repetition.Unfolding
import ResumableParsing.Proofs.Stream.Tokens

/-!
# Lazy repetition and repetition at once

A walk along the lazy repetition meets the results of applying the parser again and again, and then
the end or the error. The repetition that is parsed at once has the same results, the same end and
the same error, although it goes through all applications in one run.

* `Stream.Shows.walk`: a walk along a stream meets what the stream shows
* `applied_of_passes`: the repetition at once goes through repeated application
* `lazy_repetition_iterates`: lazy repetition is repeated application
-/

namespace ResumableParsing

variable {W α : Type}

/-! ## Walks -/

theorem comes_catching_ok {x : Eval W α} {σ τ : Store W} {a : α} (h : x.Comes σ (.ok a τ)) :
    (Eval.catching x).Comes σ (.ok (.ok a) τ) := by
  obtain ⟨-, n, h⟩ := h
  refine ⟨not_exhausted_ok, n, fun b hb => ?_⟩
  have h : x (.within b) σ = .ok a τ := h b hb
  simp only [Eval.exec, Eval.catching, h]

theorem comes_catching_raised {x : Eval W α} {σ τ : Store W} {f : Fault}
    (h : x.Comes σ (.error (.raised f) τ)) : (Eval.catching x).Comes σ (.ok (.error f) τ) := by
  obtain ⟨-, n, h⟩ := h
  refine ⟨not_exhausted_ok, n, fun b hb => ?_⟩
  have h : x (.within b) σ = .error (.raised f) τ := h b hb
  simp only [Eval.exec, Eval.catching, h]

/-- What breaks a walk off behind the last application, in the store that the walk leaves. -/
def Ending.Raised (σ : Store W) : Ending W → Option Fault → Prop
  | .failed e _ ρ, r => ∃ f, e.Corresponds ρ σ f ∧ r = some (.noParse f)
  | _, r => r = none

/-- A walk of at most `limit` elements, with the elements `done` behind it, meets the values of the
applications `vs` and then what `z` says. It has left the store `σ`. -/
structure Stream.Walk.Meets (z : Ending W) (vs : List (Success W)) (limit : Nat)
    (done : List Value) (σ : Store W) (w : Stream.Walk) : Prop where
  /-- The values, as far as the walk goes. -/
  elements : ∃ ws, w.elements = ws.reverse ++ done ∧
    List.Forall₂ (fun v u => v.Gave σ u) (vs.take limit) ws
  /-- There are more values. -/
  cut : w.cut = decide (limit < vs.length)
  /-- The fault behind the last value, if the walk gets there. -/
  raised : if limit < vs.length then w.raised = none else z.Raised σ w.raised

section

variable {P : ParserId → Prop} {z : Ending W} {base σ : Store W} {vs : List (Success W)}
  {s : Stream Value}

/-- A walk along a stream meets what the stream shows, and the stream shows the same afterwards. -/
theorem Stream.Shows.walk (h : s.Shows P z base vs σ) (g : base.Grows σ) {limit : Nat}
    (hz : z = .more → limit < vs.length) (done : List Value) :
    ∃ w τ, (s.walkFrom limit done).Comes σ (.ok w τ) ∧ σ.Grows τ ∧ w.Meets z vs limit done τ ∧
      (z.Keeps P → s.Shows P z base vs τ) := by
  induction vs generalizing s σ limit done with
  | nil =>
    obtain rfl | ⟨rfl, rfl⟩ := h
    · simp at hz
    · refine ⟨{ elements := done }, σ, ?_, .refl σ, ⟨⟨[], rfl, by simp⟩, by simp, ?_⟩,
        fun _ => .inr ⟨rfl, rfl⟩⟩
      · cases limit <;> exact comes_of_forall (fun _ => rfl) not_exhausted_ok
      · simp [Ending.Raised]
  | cons v vs ih =>
    obtain ⟨n, u, i, rfl, hv, x, hx⟩ := id h
    cases limit with
    | zero =>
      refine ⟨{ elements := done, cut := true }, σ, ?_, .refl σ, ⟨⟨[], rfl, by simp⟩, by simp, ?_⟩,
        fun _ => h⟩
      · exact comes_of_forall (fun _ => rfl) not_exhausted_ok
      · simp
    | succ limit =>
      have occupied : (Eval.catching (Stream.lazy n u i).isEmpty).Comes σ (.ok (.ok false) σ) :=
        comes_of_forall (fun _ => rfl) not_exhausted_ok
      have first : (Eval.catching (Stream.lazy n u i).first).Comes σ (.ok (.ok u) σ) :=
        comes_of_forall (fun _ => rfl) not_exhausted_ok
      -- Where the tail is computed or known, the walk goes on along it.
      have onward {t : Stream Value} {τ : Store W} (ht : (Stream.lazy n u i).rest.Comes σ (.ok t τ))
          (known : i.Is τ x (.known (some t))) (shows : t.Shows P z base vs τ) :
          ∃ w τ, ((Stream.lazy n u i).walkFrom (limit + 1) done).Comes σ (.ok w τ) ∧ σ.Grows τ ∧
            w.Meets z (v :: vs) (limit + 1) done τ ∧
              (z.Keeps P → (Stream.lazy n u i).Shows P z base (v :: vs) τ) := by
        have g' := (composed_rest _).grows_of_comes ht
        obtain ⟨w, τ', walk, g'', ⟨⟨ws, elements, same⟩, cut, raised⟩, shows⟩ :=
          ih shows (g.trans g') (fun e => by simpa using hz e) (u :: done)
        have hv' := hv.later (g'.trans g'').keepsTails
        refine ⟨w, τ', ?_, g'.trans g'', ⟨⟨u :: ws, by simp [elements], ?_⟩, ?_, ?_⟩, ?_⟩
        · exact comes_bind_ok occupied (comes_bind_ok first
            (comes_bind_ok (comes_catching_ok ht) walk))
        · exact .cons hv' same
        · simpa using cut
        · simpa using raised
        · exact fun keeps =>
            ⟨n, u, i, rfl, hv', x, .inr ⟨t, known.known_later g'', shows keeps⟩⟩
      rcases hx with ⟨t, unset, ready, next⟩ | ⟨t, known, shows⟩
      · have goes := next σ g unset ready
        cases vs with
        | cons v' vs =>
          obtain ⟨t, τ, ht, known, shows⟩ := Ending.comes_cons.mp goes
          exact onward ht known shows
        | nil =>
          cases z with
          | more => simp at hz
          | ended =>
            obtain ⟨t, τ, ht, known, shows⟩ := goes
            exact onward ht known shows
          -- The tail raises the error, and the walk ends with the elements that it has seen.
          | failed e before after =>
            obtain ⟨f, τ, hf, raises, unset', ready'⟩ := goes
            have g' := (composed_rest _).grows_of_comes raises
            have hv' := hv.later g'.keepsTails
            refine ⟨{ elements := u :: done, raised := some (.noParse f) }, τ, ?_, g',
              ⟨⟨[u], rfl, .cons hv' (by simp)⟩, by simp, ?_⟩, fun keeps => ?_⟩
            · refine comes_bind_ok occupied (comes_bind_ok first ?_)
              exact comes_bind_ok (comes_catching_raised raises) (comes_pure _ τ)
            · simpa [Ending.Raised] using hf
            · exact ⟨n, u, i, rfl, hv', x, .inl ⟨t, unset', ready' keeps, next⟩⟩
      · exact onward (comes_rest_known known) known shows

end

/-! ## Repetition at once -/

/-- Builds the repetition of a parser and runs it. -/
def ParserId.manyAt (p : ParserId) (s : State Value) : Eval W (Finish W) := do
  let all ← Eval.ofBuild (Build.many p)
  all.run s

theorem composed_buildMany (p : ParserId) :
    Composed (Eval.ofBuild (Build.many p) : Eval W ParserId) :=
  .change (Build.many p) (fun _ _ => rfl) (Build.Grows.many p).adds

theorem composed_manyAt (p : ParserId) (s : State Value) :
    Composed (p.manyAt s : Eval W (Finish W)) :=
  .bind (composed_buildMany p) fun _ => composed_complete _

/-- Walks along the lazy repetition of a parser. An error of the first application breaks the walk
off before it has begun. -/
def ParserId.walkMany (p : ParserId) (s : State Value) (limit : Nat) : Eval W Stream.Walk := do
  match ← Eval.catching (p.runMany s) with
  | .ok (.ok v) => (← Stream.ofValue v).walkFrom limit []
  | .ok (.error _) => Eval.fault .waitingTail
  | .error f => return { elements := [], raised := some f }

/-- What the repetition at once replies where the applications are `vs` and go on as `z` says. -/
def Reply.Collects (vs : List (Success W)) (z : Ending W) : Reply Value → Prop
  | .ok _ v _ => z = .ended ∧ ∃ s : Stream Value, v = .stream s ∧ s.Spells (vs.map (·.value))
  | .err _ e _ => ∃ before after, z = .failed e before after

section

variable {P : ParserId → Prop} {σ τ υ : Store W} {p all : ParserId} {s t : State Value}
  {r : Reply Value} {n b : Nat}

/-- A run of a parser in front of a frame replies to the frame. -/
theorem Passes.handed {f : Frame W}
    (h : Passes (.within b) [] n (Task.run p s [f]).step σ [] (.reply r) τ) :
    ∃ n₁ n₂ r' υ, n = n₁ + n₂ + 1 ∧
      Passes (.within b) [] n₁ (Task.run p s []).step σ [] (.reply r') υ ∧
      (p.run s).Comes σ (.ok (.reply r') υ) ∧
      Passes (.within b) [] n₂ (f.resume r' []) υ [] (.reply r) τ := by
  have behind : (Task.run p s [f]).step = Task.overStep [f] <$> (Task.run p s []).step :=
    step_over (.run p s []) [f] (by simp)
  rw [behind] at h
  rcases h.split with ⟨n₁, n₂, r', υ, cs₁, cs₂, hn, hcs, h₁, h₂⟩ | ⟨hu, -⟩
  · obtain ⟨rfl, rfl⟩ := List.append_eq_nil_iff.mp hcs.symm
    exact ⟨n₁, n₂, r', υ, hn, h₁, comes_of_evaluates (evaluates_iff_passes.mpr ⟨n₁, h₁⟩), h₂⟩
  · exact absurd rfl (hu r)

/-- The repetition at once goes through repeated application, one result after the other. -/
theorem applied_of_passes (hall : all.Does σ (.many all p))
    (h : Passes (.within b) [] n (Task.run all s []).step σ [] (.reply r) τ) :
    ∃ vs z, Applied p σ s vs z ∧ r.Collects vs z := by
  -- The repetition behind the first result takes fewer steps.
  induction n using Nat.strongRecOn generalizing σ s r τ with
  | ind n ih =>
    obtain ⟨n₁, h₁, σ₁, noted, h⟩ := hall.passes h
    have start : Task.next ((Body.many all p).enter s []) (.within b) σ₁ =
        .ok (.tail (.run p s [.manyItem all p s])) σ₁ := rfl
    obtain ⟨n₂, h₂, h⟩ := h.onward start (by simp)
    obtain ⟨n₃, n₄, r', σ₂, h₃, -, run, h⟩ := h.handed
    cases r' with
    | err d e t =>
      cases d with
      | false =>
        obtain ⟨rfl, rfl⟩ := h.delivered (.ok false (.stream .nil) s) σ₂ rfl
        exact ⟨[], .ended, .ended noted run, rfl, .nil, rfl, .nil⟩
      | true =>
        obtain ⟨rfl, rfl⟩ := h.delivered (.err true e t) σ₂ rfl
        exact ⟨[], _, .failed noted run, _, _, rfl⟩
    | ok d v t =>
      cases d with
      | false => cases (h.of_error rfl).2.1
      | true =>
        have again : (Frame.manyItem all p s).resume (.ok true v t) [] (.within b) σ₂ =
            .ok (.tail (.run all t [.manyRest v])) σ₂ := rfl
        obtain ⟨n₅, h₅, h⟩ := h.onward again (by simp)
        obtain ⟨n₆, n₇, r'', σ₃, h₆, rest, run', h⟩ := h.handed
        have g := noted.grows.trans ((composed_complete _).grows_of_comes run)
        obtain ⟨vs, z, applied, collects⟩ := ih n₆ (by omega) (hall.later g) rest
        refine ⟨⟨v, t, σ₂⟩ :: vs, z, .step noted run applied, ?_⟩
        cases r'' with
        | err d e u =>
          obtain ⟨rfl, rfl⟩ := h.delivered (.err true e u) σ₃ rfl
          exact collects
        | ok d w u =>
          obtain ⟨rfl, S, rfl, spells⟩ := collects
          obtain ⟨rfl, rfl⟩ := h.delivered (.ok true (.stream (.cons σ₃.nextSerial v S)) u) _ rfl
          exact ⟨rfl, _, rfl, .cons spells⟩

/-- A walk along the lazy repetition meets the values of repeated application. -/
theorem Applied.walkMany {vs : List (Success W)} {z : Ending W} (h : Applied p σ s vs z)
    (hp : P p) (ready : Prepared P σ s υ t) {limit : Nat} (hz : z = .more → limit < vs.length) :
    ∃ w τ, (p.walkMany t limit).Comes υ (.ok w τ) ∧ w.Meets z vs limit [] τ := by
  have goes := h.unfolds hp ready
  have onward {u : Stream Value} {τ : Store W}
      (hu : (p.runMany t).Comes υ (.ok (.ok (.stream u)) τ)) (shows : u.Shows P z τ vs τ) :
      ∃ w τ', (p.walkMany t limit).Comes υ (.ok w τ') ∧ w.Meets z vs limit [] τ' := by
    obtain ⟨w, τ', walk, -, meets, -⟩ := shows.walk (.refl τ) hz []
    exact ⟨w, τ', comes_bind_ok (comes_catching_ok hu) (comes_bind_ok (comes_pure u τ) walk), meets⟩
  cases vs with
  | cons v vs =>
    obtain ⟨u, τ, hu, shows⟩ := Ending.comes_cons.mp goes
    exact onward hu shows
  | nil =>
    cases z with
    | more => simp at hz
    | ended =>
      obtain ⟨u, τ, hu, shows⟩ := goes
      exact onward hu shows
    | failed e before after =>
      obtain ⟨f, τ, hf, raises, -⟩ := goes
      refine ⟨_, τ, comes_bind_ok (comes_catching_raised raises) (comes_pure _ τ),
        ⟨[], rfl, by simp⟩, by simp, ?_⟩
      simpa [Ending.Raised] using hf

/-- The run of the repetition behind its building. -/
theorem ParserId.run_of_manyAt (h : (p.manyAt s).Comes σ (.ok (.reply r) τ)) :
    ((Build.many p σ).1.run s).Comes (Build.many p σ).2 (.ok (.reply r) τ) := by
  rcases h.of_bind (composed_buildMany p) with ⟨all, υ, built, run⟩ | ⟨e, υ, -, he⟩
  · cases built.unique (comes_of_forall (fun _ => rfl) not_exhausted_ok)
    exact run
  · cases he

theorem applied_of_manyAt (h : (p.manyAt s).Comes σ (.ok (.reply r) τ)) :
    ∃ vs z, Applied p (Build.many p σ).2 s vs z ∧ r.Collects vs z := by
  have does := (owns_body ("\x7b " ++ σ.parserName p ++ " \x7d") (fun self => .many self p) σ).does
  obtain ⟨b, evaluates⟩ := evaluates_of_comes (ParserId.run_of_manyAt h)
  obtain ⟨n, passes⟩ := evaluates_iff_passes.mp (evaluates b (Nat.le_refl b))
  exact applied_of_passes does passes

/-- After the repetition at once the place is still prepared, if the names are as they were. -/
theorem Prepared.after_manyAt (pure : σ.Pure P) (hp : P p) (ready : Prepared P σ s σ s)
    (h : (p.manyAt s).Comes σ (.ok (.reply r) τ)) (labels : σ.SameLabels P τ) :
    Prepared P σ s τ s := by
  have g := (composed_manyAt p s).grows_of_comes h
  refine ⟨ready.defines.later (.refl σ) g labels, ?_⟩
  -- The repetition is one more parser with pure functions.
  obtain ⟨P', -, pure', -, all⟩ :=
    Pairing.Builds.pureParsers pure (Pairing.Builds.many (q := p) ⟨rfl, hp⟩)
  have built : σ.Unfolds (Build.many p σ).2 := (Store.Enlarged.push σ _).unfolds
  have start : Prepared P' (Build.many p σ).2 s (Build.many p σ).2 s :=
    ⟨pure'.agree.defines, ready.place.unfolds built built⟩
  obtain ⟨r', τ', w, run, -, -, -, place⟩ := start.runs all (ParserId.run_of_manyAt h)
  cases run.unique (ParserId.run_of_manyAt h)
  exact (ready.place.unfolds (.refl σ) built).trans place

end

/-- Lazy repetition is repeated application, and agrees with the repetition that is parsed at once.

The parser is put together from the primitives and combinators of the library with pure functions of
the caller, and the input supplies data, whether it has been read or not. Let the parser be applied
in the state, then in the state of the reply and so on. The lazy repetition may be asked for in
another store, over another input with the same elements, and the store may change between two
questions as long as the place where it goes on stays prepared. If the first application fails after
consuming, it raises the error. Otherwise it is a stream that shows the values one by one, and then
ends where an application fails without consuming, or raises the error of the one that fails after
consuming whenever its tail is asked for. Walks along the stream meet just that. The cells that they
have met stay, and the walks may be repeated; after an error this takes that the application has
given no parser another name.

If the repetition at once replies, it has gone through repeated application. If it succeeds, a walk
along the lazy repetition meets exactly the elements of its stream; if it fails, the walk meets the
values before the failing application and then the error. -/
theorem lazy_repetition_iterates {P : ParserId → Prop} {p : ParserId} {σ : Store W}
    (pure : σ.Pure P) (hp : P p) {i : Stream Value} {x : Elements} (hi : i.Supplies σ x)
    (data : ∀ v ∈ x, v.Settled) (watched : Bool) (position : Int) (user : Value) :
    let s : State Value := .plain watched i position user
    Prepared P σ s σ s ∧
    (∀ vs z, Applied p σ s vs z → ∀ υ t, Prepared P σ s υ t →
      z.Comes vs (p.runMany t) (fun u => .ok (.stream u)) υ
        (fun u τ => u.Shows P z τ vs τ ∧ ∀ υ, τ.Grows υ → u.Shows P z τ vs υ →
          ∀ limit, (z = .more → limit < vs.length) →
            ∃ w τ', (u.walkFrom limit []).Comes υ (.ok w τ') ∧ υ.Grows τ' ∧
              w.Meets z vs limit [] τ' ∧ (z.Keeps P → u.Shows P z τ vs τ'))
        fun τ => z.Keeps P → Prepared P σ s τ t) ∧
    ∀ r τ, (p.manyAt s).Comes σ (.ok (.reply r) τ) →
      (σ.SameLabels P τ → Prepared P σ s τ s) ∧
      ∃ vs z, Applied p (Build.many p σ).2 s vs z ∧ r.Collects vs z ∧
        ∀ υ t, Prepared P σ s υ t → ∀ limit ≥ vs.length,
          ∃ w τ', (p.walkMany t limit).Comes υ (.ok w τ') ∧ w.Meets z vs limit [] τ' := by
  intro s
  have ready : Prepared P σ s σ s := ⟨pure.agree.defines, .plain hi hi data⟩
  refine ⟨ready, fun vs z applied υ t prepared => ?_, fun r τ h => ?_⟩
  · refine (applied.unfolds hp prepared).imp (fun u τ hu shows => ?_)
      fun e ρ f τ he hf kept => ⟨τ, he, hf, kept⟩
    refine ⟨τ, hu, shows, fun υ g hυ limit hz => ?_⟩
    exact hυ.walk g hz []
  · obtain ⟨vs, z, applied, collects⟩ := applied_of_manyAt h
    have built : σ.Unfolds (Build.many p σ).2 := (Store.Enlarged.push σ _).unfolds
    refine ⟨ready.after_manyAt pure hp h, vs, z, applied, collects,
      fun υ t prepared limit hl => ?_⟩
    refine applied.walkMany hp (prepared.unfolds built (.refl υ)) ?_
    rintro rfl
    cases r with
    | ok d v t => cases collects.1
    | err d e t =>
      obtain ⟨before, after, more⟩ := collects
      cases more

/-- The parser of two tokens succeeds on the first two of three tokens, and then fails where the
input ends. The lazy repetition takes the tokens from a one-shot iterator. -/
theorem lazy_repetition_iterates_three_tokens :
    let token : Cell Unit := { direct := some (.body (.some ⟨0⟩ fun _ => .done true)) }
    let pair : Cell Unit := { direct := some (.body (.seq ⟨0⟩ ⟨0⟩ .second)) }
    let i : Stream Value := .cons 0 (.int 1) (.cons 0 (.int 2) (.cons 0 (.int 3) .nil))
    let σ : Store Unit :=
      { world := (), watch := fun _ _ => (), parsers := #[token, pair]
        iterators := #[.items ⟨0, .ofList [.int 1, .int 2, .int 3]⟩ 0], cells := #[⟨⟨0⟩, .unset⟩] }
    let p : ParserId := ⟨1⟩
    let t : State Value := .plain false (.pulled ⟨0⟩) 0 .none
    (∃ u τ w τ' w' τ'', (p.runMany t).Comes σ (.ok (.ok (.stream u)) τ) ∧
      ((u.walkFrom 1 []).Comes τ (.ok w τ') ∧ w.elements = [.int 2] ∧ w.raised.isSome) ∧
      (u.walkFrom 1 []).Comes τ' (.ok w' τ'') ∧ w'.elements = [.int 2] ∧ w'.raised.isSome) ∧
    ∃ e s' τ limit w τ' f, (p.manyAt (.plain false i 0 .none)).Comes σ
        (.ok (.reply (.err true e s')) τ) ∧
      (p.walkMany t limit).Comes σ (.ok w τ') ∧ w.raised = some (.noParse f) ∧
        e.message = f.message := by
  intro token pair i σ p t
  let P : ParserId → Prop := fun p => p.index < 2
  have pure : σ.Pure P := by
    have start (n : Nat) (h : n < 2) : (Pairing.only P).parsers ⟨n⟩ ⟨n⟩ := ⟨rfl, h⟩
    rintro ⟨_ | _ | n⟩ hp
    · exact ⟨token, rfl, rfl, rfl,
        .some (.some (start 0 (by decide)) fun _ _ _ _ => .done rfl), .none⟩
    · exact ⟨pair, rfl, rfl, rfl,
        .some (.seq .second (start 0 (by decide)) (start 0 (by decide))), .none⟩
    · exact absurd (show n + 2 < 2 from hp) (by omega)
  let x : Elements := .cons (.int 1) (.cons (.int 2) (.cons (.int 3) .nil))
  have hi : i.Supplies σ x := ⟨.empty, 0, .empty σ, .cons (.cons (.cons .nil))⟩
  have hj : (Stream.pulled ⟨0⟩).Supplies σ x := by
    let κ : Contents := ⟨fun _ => none, fun c => if c = ⟨0⟩ then some (x, 0) else none⟩
    refine ⟨κ, 1, ⟨fun _ _ _ h => (by cases h), fun c y d hc => ?_, fun c c' it h h' => ?_⟩,
      .pulled rfl (by decide)⟩
    · by_cases e : c = ⟨0⟩
      · subst e
        cases hc
        refine ⟨_, rfl, fun _ => .unset rfl (.items ?_)⟩
        rintro (_ | _ | _ | n) <;> rfl
      · simp [κ, e] at hc
    · have only {c : CellId} (h : (κ.cells c).isSome) : c = ⟨0⟩ := by
        by_contra e
        simp [κ, e] at h
      rw [only h.spoken, only h'.spoken]
  have data : ∀ v ∈ x, v.Settled := by
    intro v hv
    obtain ⟨n, rfl⟩ : ∃ n, v = .int n := by
      rcases Stream'.Seq.eq_or_mem_of_mem_cons hv with rfl | hv
      · exact ⟨1, rfl⟩
      rcases Stream'.Seq.eq_or_mem_of_mem_cons hv with rfl | hv
      · exact ⟨2, rfl⟩
      rcases Stream'.Seq.eq_or_mem_of_mem_cons hv with rfl | hv
      · exact ⟨3, rfl⟩
      · exact absurd hv (Stream'.Seq.notMem_nil _)
    exact .int n
  obtain ⟨-, shown, agreed⟩ :=
    lazy_repetition_iterates pure (p := p) (by decide) hi data false 0 .none
  have ready : Prepared P σ (.plain false i 0 .none) σ t := ⟨pure.agree.defines, .plain hi hj data⟩
  constructor
  · let s₂ : State Value := .plain false (.cons 0 (.int 3) .nil) 2 .none
    have first : (p.run (.plain false i 0 .none)).Comes σ
        (.ok (.reply (.ok true (.int 2) s₂)) σ) :=
      (composed_complete _).comes (n := 40) rfl not_exhausted_ok
    obtain ⟨e, s₃, n, second⟩ : ∃ e s₃ n, (p.run s₂).Comes σ
        (.ok (.reply (.err true e s₃)) { σ with nextSerial := n }) :=
      ⟨_, _, _, (composed_complete _).comes (n := 40) rfl not_exhausted_ok⟩
    let σ' : Store Unit := { σ with nextSerial := n }
    have applied : Applied p σ (.plain false i 0 .none) [⟨.int 2, s₂, σ⟩] (.failed e σ σ') :=
      .step (.refl σ) first (.failed (.refl σ) second)
    have keeps : σ.SameLabels P σ' := by
      intro q _ c d hc hd
      cases hc.symm.trans hd
      exact ⟨rfl, rfl⟩
    have value {τ : Store Unit} {w : Stream.Walk} (meets : w.Meets (.failed e σ σ')
        [⟨.int 2, s₂, σ⟩] 1 [] τ) : w.elements = [.int 2] ∧ w.raised.isSome := by
      obtain ⟨⟨ws, elements, same⟩, -, f, -, raised⟩ := meets
      obtain _ | ⟨⟨_, -, _, -, like⟩, same⟩ := same
      cases same
      cases like
      exact ⟨elements, by rw [raised]; rfl⟩
    obtain ⟨u, τ, run, shows, walks⟩ := shown _ _ applied σ t ready
    obtain ⟨w, τ', walk, g, meets, again⟩ := walks τ (.refl τ) shows 1 (by simp)
    obtain ⟨w', τ'', walk', -, meets', -⟩ := walks τ' g (again keeps) 1 (by simp)
    exact ⟨u, τ, w, τ', w', τ'', run, ⟨walk, value meets⟩, walk', value meets'⟩
  -- The repetition at once is evaluated; what the walk meets follows from the theorem.
  · obtain ⟨e, s', τ, run⟩ : ∃ e s' τ, (p.manyAt (.plain false i 0 .none)).Comes σ
        (.ok (.reply (.err true e s')) τ) :=
      ⟨_, _, _, (composed_manyAt p _).comes (n := 40) rfl not_exhausted_ok⟩
    obtain ⟨-, vs, z, -, ⟨before, after, rfl⟩, walks⟩ := agreed _ τ run
    obtain ⟨w, τ', walk, meets⟩ := walks σ t ready vs.length (Nat.le_refl _)
    obtain ⟨f, same, raised⟩ : ∃ f, e.Corresponds after τ' f ∧ w.raised = some (.noParse f) := by
      simpa [Ending.Raised] using meets.raised
    exact ⟨e, s', τ, vs.length, w, τ', f, run, walk, raised, same.message⟩

end ResumableParsing
