import ResumableParsing.Proofs.Correspondence.Even
import ResumableParsing.Proofs.Correspondence.Runs
import ResumableParsing.Proofs.Stream.Tokens

/-!
# More tokens behind the last one

A plain run that never moves past the last token does not find out what lies behind it. So with more
tokens there it takes the same steps and comes to the same end.

* `Task.PastLast`: a run has moved past the last token
* `ParserId.MovesPastLast`: it does so on some path
* `Extension.Longer`: states with more tokens behind the ones that are left
* `Extension.follows`: a run on the longer input follows the one on the shorter input
-/

namespace ResumableParsing

variable {W : Type}

/-! ## The last token -/

/-- A token has been read, and it was the last one: the parser that has read it is given a state at
the end of the input. -/
def Task.PastLast : Task W → Prop
  | .deliver r (.matched _ :: _) => r.state.input.Spells []
  | _ => False

/-- On some path that it tries, even if it gives it up later, the parser moves past the last token.
-/
def ParserId.MovesPastLast (p : ParserId) (s : State Value) (σ : Store W) : Prop :=
  (Task.run p s []).Meets Task.PastLast σ

namespace Extension

variable {more : List Value} {P Q : ParserId → Prop} {s s' : State Value} {σ τ : Store W}

/-! ## What corresponds -/

/-- Plain states where a token is left. On the right there are more tokens behind those that are
left on the left. -/
inductive Longer (more : List Value) : State Value → State Value → Prop where
  | intro {i j : Stream Value} {ys : List Value} {position : Int} {user : Value} :
      i.Spells ys → j.Spells (ys ++ more) → ys ≠ [] →
      Longer more (.plain false i position user) (.plain false j position user)

/-- Both states lie behind a token, perhaps behind the last one of the shorter input. -/
inductive Moves (more : List Value) :
    (Continuation W → Task W) → (Continuation W → Task W) → Prop where
  | intro {i j : Stream Value} {ys : List Value} {position : Int} {user : Value} :
      i.Spells ys → j.Spells (ys ++ more) →
      Moves more (fun k => .settle (.plain false i position user) k)
        (fun k => .settle (.plain false j position user) k)

/-- The stores are alike, nothing is parsed when streams are read, and the parsers only start one
another. -/
structure Stores (P : ParserId → Prop) (σ τ : Store W) : Prop where
  /-- They differ in what belongs to states, results and sessions. -/
  alike : σ.Alike τ
  /-- Nothing is parsed when streams are read. -/
  still : σ.Still
  /-- The parsers only start one another. -/
  closed : Closed (fun _ => False) P σ

/-- What corresponds in a run and a run on a longer input. -/
def correspondence (W : Type) (more : List Value) : Correspondence W where
  World := ParserId → Prop
  Le P Q := ∀ p, P p → Q p
  During P Q := ∀ p, P p → Q p
  Stores := Stores
  Values _ v u := v = u
  Tokens _ v u := v = u
  Parsers P p q := p = q ∧ P p
  Binders P f g := f = g ∧ Correspondence.Binder P f
  States _ := Longer more
  Occupied _ := Longer more
  Moving _ := Moves more
  Pausing _ _ _ _ := False

/-! ## Steps -/

/-- Values and parsers are the same on both sides. -/
theorem even (W : Type) (more : List Value) :
    (correspondence W more).Even fun P : ParserId → Prop => P where
  refl _ _ h := h
  trans h h' p hp := h' p (h p hp)
  during_trans h h' p hp := h' p (h p hp)
  le h := h
  values := Iff.rfl
  tokens := Iff.rfl
  parsers := Iff.rfl
  binders := Iff.rfl
  known_mono hle := hle _
  alike h := Stores.alike h
  still h := Stores.still h
  closed h := Stores.closed h
  later h alike still k _ _ _ := ⟨alike, still, (Stores.closed h).later k⟩
  learn h hP closed := ⟨_, hP, ⟨Stores.alike h, Stores.still h, closed⟩, fun _ h => h⟩

/-- There is a token on both sides. -/
theorem runs_isEmpty (h : Longer more s s') : (correspondence W more).Runs P
    (fun _ a b => a = b ∧ (a = false → Longer more s s')) s.input.isEmpty s'.input.isEmpty := by
  have longer := h
  cases h with
  | @intro i j ys position user hi hj occupied =>
    have same : ys.isEmpty = (ys ++ more).isEmpty := by
      cases ys with
      | nil => exact absurd rfl occupied
      | cons y ys => rfl
    exact (even W more).runs_known (hi.isEmpty (W := W)) (hj.isEmpty (W := W)) fun _ _ =>
      ⟨same, fun _ => longer⟩

/-- It is the same token. -/
theorem runs_first (h : Longer more s s') : (correspondence W more).Runs P
    (correspondence W more).Tokens s.input.first s'.input.first := by
  cases h with
  | @intro i j ys position user hi hj occupied =>
    cases ys with
    | nil => exact absurd rfl occupied
    | cons y ys =>
      exact (even W more).runs_known (hi.first (W := W)) (hj.first (W := W)) fun _ _ => rfl

/-- Both states move past it. -/
theorem runs_next (h : Longer more s s') (v u : Value) (k l : Continuation W) :
    (correspondence W more).Runs P
      (fun _ x y => ∃ m m', Moves more m m' ∧ x = m k ∧ y = m' l) (s.next v k) (s'.next u l) := by
  cases h with
  | @intro i j ys position user hi hj occupied =>
    cases ys with
    | nil => exact absurd rfl occupied
    | cons y ys =>
      obtain ⟨i', hi', rest, -⟩ := hi.rest (W := W)
      obtain ⟨j', hj', rest', -⟩ := hj.rest (W := W)
      let behind (i : Stream Value) (k : Continuation W) : Task W :=
        .settle (.plain false i (position + 1) user) k
      refine (even W more).runs_known (fun m σ => ?left) (fun m σ => ?right) fun _ _ =>
        ⟨behind i', behind j', .intro hi' hj', rfl, rfl⟩
      case left => simp [State.next, State.advance, State.input, State.alter, rest, behind]
      case right => simp [State.next, State.advance, State.input, State.alter, rest', behind]

/-- As long as they do not move past the last token of the shorter input, the runs correspond. -/
theorem faithful (W : Type) (more : List Value) : (correspondence W more).Faithful where
  toOrdered := (even W more).toOrdered
  values_mono _ h := h
  tokens_mono _ h := h
  parsers_mono hle h := ⟨h.1, hle _ h.2⟩
  binders_mono hle h := ⟨h.1, h.2.mono hle⟩
  states_mono _ h := h
  occupied_mono _ h := h
  moving_mono _ h := h
  tokens_values h := h
  position h := by
    cases h
    rfl
  none _ := rfl
  nil _ := rfl
  ignore h := congrArg Value.ignore h
  binders := (even W more).runs_built
  found := (even W more).found
  debug _ := (even W more).runs_debug
  serial _ := (even W more).imp ((even W more).runs_quiet .serial) fun _ _ _ _ _ => trivial
  isEmpty := runs_isEmpty
  first := runs_first
  render hs h := by
    cases h
    exact (Stores.alike hs).render _
  join := (even W more).join
  next h v u _ := runs_next h v u

/-! ## Runs -/

variable {t u : Task W}

/-- A step of the run on the shorter input that does not lead past the last token is taken by the
other run, too. -/
theorem step (ht : (correspondence W more).Tasks P t u) (hs : Stores P σ τ)
    {r : EStateM.Result Stop (Store W) (Step (Task W) (Finish W))} (hr : t.step.Comes σ r)
    (clear : ∀ t' σ', r = .ok (.tail t') σ' → ¬t'.PastLast) :
    ∃ r', u.step.Comes τ r' ∧
      (correspondence W more).Ends P (correspondence W more).Steps r r' := by
  rcases (faithful W more).goes ht with goes | ⟨_, _, v, _, k, l, moves, rfl, hk, rfl, rfl⟩
  · exact goes P σ τ r (fun _ h => h) hs hr
  · cases moves with
    | @intro i j ys position user hi hj =>
      have arrives (s : State Value) (k : Continuation W) (σ : Store W) :
          (Task.step (.settle s k)).Comes σ (.ok (.tail (.arrive s k)) _) :=
        comes_of_forall (fun _ => rfl) not_exhausted_ok
      cases hr.unique (arrives _ _ σ)
      have hs := (even W more).log_right ((even W more).log hs ("trying " ++ Task.settleName))
        ("trying " ++ Task.settleName)
      refine ⟨_, arrives _ _ τ, P, fun _ h => h, hs, .tail (.arrive (.intro hi hj ?_) rfl hk)⟩
      -- Had it moved past the last token, the step would lead there.
      rintro rfl
      exact clear _ _ rfl hi

/-- A run that never moves past the last token comes to the same end if there are more tokens. -/
theorem follows {n : Nat} {y : EStateM.Result Stop (Store W) (Finish W)} (hy : t.Reaches n σ y)
    (clear : ¬t.Meets Task.PastLast σ) (ht : (correspondence W more).Tasks P t u)
    (hs : Stores P σ τ) : ∃ y', u.Reaches n τ y' ∧
      (correspondence W more).Ends P (correspondence W more).Finishes y y' := by
  induction hy generalizing P u τ with
  | @value t f σ σ' hr =>
    obtain ⟨r', hu, ends⟩ := step ht hs hr fun _ _ e => by cases e
    obtain ⟨x, τ', P', rfl, hP, hs', steps⟩ := ends.of_ok
    generalize hv : Step.value f = z at steps
    cases steps with
    | tail => cases hv
    | reply replies =>
      cases hv
      exact ⟨_, .value hu, P', hP, hs', .reply replies⟩
    | pause pausing => exact pausing.elim
  | @error t e σ σ' hr =>
    obtain ⟨r', hu, ends⟩ := step ht hs hr fun _ _ e => by cases e
    obtain ⟨τ', P', rfl, hP, hs'⟩ := ends.of_error
    exact ⟨_, .error hu, ends⟩
  | @tail n t t' σ σ' y hr hy ih =>
    have clear' : ¬t'.Meets Task.PastLast σ' := fun meets => clear (.later hr meets)
    obtain ⟨r', hu, ends⟩ := step ht hs hr fun _ _ e past => by
      cases e
      exact clear' (.here past)
    obtain ⟨x, τ', P', rfl, hP, hs', steps⟩ := ends.of_ok
    generalize hv : Step.tail t' = z at steps
    cases steps with
    | tail ht' =>
      cases hv
      obtain ⟨y', hu', ends⟩ := ih clear' ht' hs'
      exact ⟨y', .tail hu hu', (even W more).ends_mono hP ends⟩
    | reply => cases hv
    | pause pausing => exact pausing.elim

end Extension

end ResumableParsing
