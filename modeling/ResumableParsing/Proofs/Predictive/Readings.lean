import ResumableParsing.Proofs.Direct.Answers

/-!
# Readings

What a parser makes of a list of tokens, with the four outcomes told apart: a choice tries its
second part only where the first one fails without consuming, and a repetition that has consumed
does not go back. This is the meaning of grammars that do without attempts.

* `Gist`: what the result of a parser amounts to
* `Core.Reads`: what a tree of run functions makes of a list of tokens
* `Core.Reads.spends`: a success has consumed just where it leaves fewer tokens
* `Core.Reads.answers`: parsers reply as their trees read
-/

namespace ResumableParsing

variable {W α : Type}

/-! ## Results -/

/-- What the result of a parser amounts to. The cells of a stream carry numbers of their own, so
only its elements count. -/
inductive Gist where
  /-- The value itself. -/
  | value (v : Value)
  /-- A stream of these values, all of which are there. -/
  | items (vs : List Value)
  /-- Any value, because it is left out. -/
  | anything

/-- The value amounts to that. -/
inductive Gist.Fits : Gist → Value → Prop where
  | value {v : Value} : Fits (.value v) v
  | items {s : Stream Value} {vs : List Value} : s.Spells vs → Fits (.items vs) (.stream s)
  | anything {v : Value} : Fits .anything v

/-- What a parser makes of a list of tokens. -/
inductive Reading (α : Type) where
  /-- Success, and the tokens behind it. -/
  | ok (consumed : Bool) (y : Gist) (rest : List α)
  /-- Failure. -/
  | err (consumed : Bool)

/-- The reply is what the reading says. -/
inductive Reading.Fits (token : α → Value) : Reading α → Reply Value → Store W → Prop where
  | ok {c : Bool} {y : Gist} {rest : List α} {v : Value} {t : State Value} {σ : Store W} :
      y.Fits v → t.Lists (rest.map token) σ → Fits token (.ok c y rest) (.ok c v t) σ
  | err {c : Bool} {e : ParseError Value} {t : State Value} {σ : Store W} :
      Fits token (.err c) (.err c e t) σ

/-- `c.Unites y z x`: results that amount to `y` and `z` are joined to one that amounts to `x`. -/
inductive Combine.Unites : Combine → Gist → Gist → Gist → Prop where
  | first {y z : Gist} : Unites .first y z y
  | second {y z : Gist} : Unites .second y z z
  | group {v w : Value} : Unites .group (.value v) (.value w) (.value (v.beside w))
  | cons {v : Value} {vs : List Value} :
      Unites .cons (.value v) (.items vs) (.items (v :: vs))

/-- In all later stores the function makes of a result that amounts to `y` one that amounts to
`z`. -/
def Gist.Maps (σ : Store W) (f : Value → Action W Value) (y z : Gist) : Prop :=
  ∀ v, y.Fits v → (f v).Always σ z.Fits

/-! ## Readings of trees -/

/-- What a tree of run functions makes of a list of tokens. A parser that has been built before
stands for the tree that it is built as. -/
inductive Core.Reads (σ : Store W) (token : α → Value) :
    Core W → List α → Reading α → Prop where
  | ref {p : ParserId} {a : Core W} {xs : List α} {r : Reading α} : a.Built σ p →
      Reads σ token a xs r → Reads σ token (.ref p) xs r
  /-- The end of the input. -/
  | finished : ParserId.finished.Performs σ (.finished .finished) →
      Reads σ token (.ref .finished) [] (.ok false (.value .none) [])
  /-- There is another token. -/
  | unfinished {x : α} {xs : List α} : ParserId.finished.Performs σ (.finished .finished) →
      Reads σ token (.ref .finished) (x :: xs) (.err false)
  /-- A token that satisfies the predicate. -/
  | accept {f : Value → Action W Bool} {x : α} {xs : List α} :
      (f (token x)).Always σ (fun c => c = true) →
      Reads σ token (.some f) (x :: xs) (.ok true (.value (token x)) xs)
  /-- Another token. -/
  | reject {f : Value → Action W Bool} {x : α} {xs : List α} :
      (f (token x)).Always σ (fun c => c = false) →
      Reads σ token (.some f) (x :: xs) (.err false)
  /-- No token. -/
  | lacking {f : Value → Action W Bool} : Reads σ token (.some f) [] (.err false)
  | pure {v : Value} {y : Gist} {xs : List α} : y.Fits v →
      Reads σ token (.pure v) xs (.ok false y xs)
  | fail {message : String} {xs : List α} : Reads σ token (.fail message) xs (.err false)
  /-- One parser after the other. -/
  | seq {a b : Core W} {k : Combine} {xs mid rest : List α} {c d : Bool} {y z x : Gist} :
      Reads σ token a xs (.ok c y mid) → Reads σ token b mid (.ok d z rest) → k.Unites y z x →
      Reads σ token (.seq a b k) xs (.ok (c || d) x rest)
  /-- The first one fails. -/
  | seqFirst {a b : Core W} {k : Combine} {xs : List α} {c : Bool} :
      Reads σ token a xs (.err c) → Reads σ token (.seq a b k) xs (.err c)
  /-- The second one fails. -/
  | seqSecond {a b : Core W} {k : Combine} {xs mid : List α} {c d : Bool} {y : Gist} :
      Reads σ token a xs (.ok c y mid) → Reads σ token b mid (.err d) →
      Reads σ token (.seq a b k) xs (.err (c || d))
  /-- The first part of a choice succeeds. -/
  | left {a b : Core W} {xs rest : List α} {c : Bool} {y : Gist} :
      Reads σ token a xs (.ok c y rest) → Reads σ token (.alt a b) xs (.ok c y rest)
  /-- It fails after consuming, and the second part is not tried. -/
  | stuck {a b : Core W} {xs : List α} :
      Reads σ token a xs (.err true) → Reads σ token (.alt a b) xs (.err true)
  /-- It fails without consuming, and the second part decides. -/
  | right {a b : Core W} {xs : List α} {r : Reading α} :
      Reads σ token a xs (.err false) → Reads σ token b xs r → Reads σ token (.alt a b) xs r
  /-- The result is transformed. -/
  | map {a : Core W} {f : Value → Action W Value} {xs rest : List α} {c : Bool} {y z : Gist} :
      Reads σ token a xs (.ok c y rest) → y.Maps σ f z →
      Reads σ token (.map a f) xs (.ok c z rest)
  /-- There is no result. -/
  | mapFails {a : Core W} {f : Value → Action W Value} {xs : List α} {c : Bool} :
      Reads σ token a xs (.err c) → Reads σ token (.map a f) xs (.err c)
  /-- The result is left out. -/
  | ignore {a : Core W} {xs rest : List α} {c : Bool} {y : Gist} :
      Reads σ token a xs (.ok c y rest) → Reads σ token (.ignore a) xs (.ok c .anything rest)
  /-- There is no result. -/
  | ignoreFails {a : Core W} {xs : List α} {c : Bool} :
      Reads σ token a xs (.err c) → Reads σ token (.ignore a) xs (.err c)
  /-- A repetition ends where its part fails without consuming. -/
  | stop {a : Core W} {xs : List α} :
      Reads σ token a xs (.err false) → Reads σ token (.many a) xs (.ok false (.items []) xs)
  /-- After consuming, it goes on. -/
  | more {a : Core W} {xs mid rest : List α} {c : Bool} {v : Value} {vs : List Value} :
      Reads σ token a xs (.ok true (.value v) mid) →
      Reads σ token (.many a) mid (.ok c (.items vs) rest) →
      Reads σ token (.many a) xs (.ok true (.items (v :: vs)) rest)
  /-- Its part fails after consuming. -/
  | manyFirst {a : Core W} {xs : List α} :
      Reads σ token a xs (.err true) → Reads σ token (.many a) xs (.err true)
  /-- It fails later. -/
  | manyRest {a : Core W} {xs mid : List α} {c : Bool} {y : Gist} :
      Reads σ token a xs (.ok true y mid) → Reads σ token (.many a) mid (.err c) →
      Reads σ token (.many a) xs (.err true)
  /-- A parser that is defined as another one. -/
  | copy {a : Core W} {xs : List α} {r : Reading α} :
      Reads σ token a xs r → Reads σ token (.copy a) xs r

/-- A success that has consumed leaves fewer tokens, and one that has not leaves all of them. -/
def Reading.Spends (xs : List α) : Reading α → Prop
  | .ok true _ rest => rest.length < xs.length
  | .ok false _ rest => rest = xs
  | .err _ => True

section

variable {σ₀ σ : Store W} {token : α → Value} {a : Core W} {p : ParserId} {xs mid rest : List α}
  {r : Reading α} {c d : Bool} {x y z : Gist} {s : State Value}

theorem Reading.Spends.length_le (h : (Reading.ok c y rest).Spends xs) :
    rest.length ≤ xs.length := by
  cases c with
  | true => exact Nat.le_of_lt h
  | false => exact Nat.le_of_eq (congrArg List.length h)

theorem Reading.Spends.seq (h : (Reading.ok c y mid).Spends xs)
    (h' : (Reading.ok d z rest).Spends mid) : (Reading.ok (c || d) x rest).Spends xs := by
  cases c with
  | true => exact Nat.lt_of_le_of_lt h'.length_le h
  | false =>
    obtain rfl : mid = xs := h
    rw [Bool.false_or]
    cases d <;> exact h'

theorem Core.Reads.spends (h : a.Reads σ token xs r) : r.Spends xs := by
  induction h with
  | ref _ _ ih => exact ih
  | finished _ => exact rfl
  | accept _ => exact Nat.lt_succ_self _
  | pure _ => exact rfl
  | seq _ _ _ ih ih' => exact ih.seq ih'
  | left _ ih => cases ‹Bool› <;> exact ih
  | right _ _ _ ih => exact ih
  | map _ _ ih => cases ‹Bool› <;> exact ih
  | ignore _ ih => cases ‹Bool› <;> exact ih
  | stop _ _ => exact rfl
  | more _ _ ih ih' => exact Nat.lt_of_le_of_lt ih'.length_le ih
  | copy _ ih => exact ih
  | _ => trivial

/-! ## Parsers reply as their trees read -/

theorem Combine.Unites.comes {k : Combine} (h : k.Unites y z x) {v w : Value} (hv : y.Fits v)
    (hw : z.Fits w) (σ : Store W) : ∃ u τ, (k.join v w).Comes σ (.ok u τ) ∧ x.Fits u := by
  cases h with
  | first => exact ⟨v, σ, comes_pure v σ, hv⟩
  | second => exact ⟨w, σ, comes_pure w σ, hw⟩
  | group =>
    cases hv
    cases hw
    exact ⟨_, σ, comes_join_group _ _ σ, .value⟩
  | cons =>
    cases hv
    cases hw with
    | items spells =>
      obtain ⟨τ, comes⟩ := comes_join_cons v _ σ
      exact ⟨_, τ, comes, .items (.cons spells)⟩

open Direct.Answers (done act call debug refuse runs captured)

/-- The induction is on the reading. In all later stores the parser of the tree gives a reply that
fits. -/
theorem Core.Reads.answers (h : a.Reads σ₀ token xs r) (hσ : σ₀.Evolves σ) (hp : a.Built σ₀ p)
    (hs : s.Lists (xs.map token) σ) : (Job.parser p s).direct.Answers (r.Fits token) σ := by
  induction h generalizing σ p s with
  | ref built _ ih =>
    obtain rfl := hp.eq_of_ref
    exact ih hσ built hs
  | finished performs =>
    obtain rfl := hp.eq_of_ref
    refine runs (performs.later hσ.grows) fun τ k => ?_
    exact answers_finished (hs.later k) fun υ k' => .ok .value (hs.later (k.trans k'))
  | unfinished performs =>
    obtain rfl := hp.eq_of_ref
    refine runs (performs.later hσ.grows) fun τ k => ?_
    exact answers_unfinished (hs.later k) fun _ _ _ => .err
  | accept accepts =>
    cases hp with
    | some performs =>
      refine runs (performs.later hσ.grows) fun τ k => ?_
      refine answers_accept (hs.later k) (accepts.later (hσ.trans k)) ?_
      exact fun _ _ _ _ _ _ _ _ lists => .ok .value lists
  | reject rejects =>
    cases hp with
    | some performs =>
      refine runs (performs.later hσ.grows) fun τ k => ?_
      exact answers_reject (hs.later k) (rejects.later (hσ.trans k)) fun _ _ _ => .err
  | lacking =>
    cases hp with
    | some performs =>
      refine runs (performs.later hσ.grows) fun τ k => ?_
      exact answers_lacking (hs.later k) fun _ _ _ => .err
  | pure fits =>
    cases hp with
    | pure performs =>
      refine runs (performs.later hσ.grows) fun τ k => done (.ok fits (hs.later k))
  | fail =>
    cases hp with
    | fail performs =>
      exact runs (performs.later hσ.grows) fun τ _ => refuse fun _ _ _ => .err
  | seq _ _ unites ih ih' =>
    cases hp with
    | seq ha hb performs =>
      refine runs (performs.later hσ.grows) fun τ k => ?_
      refine call (ih (hσ.trans k) ha (hs.later k)) fun r σ₁ k₁ hr => ?_
      cases hr with
      | ok hv lists =>
        refine call (ih' ((hσ.trans k).trans k₁) hb lists) fun r σ₂ k₂ hr => ?_
        cases hr with
        | ok hw lists =>
          obtain ⟨u, υ, comes, fits⟩ := unites.comes hv hw σ₂
          exact act (composed_join _ _ _) comes fun k₃ => done (.ok fits (lists.later k₃))
  | seqFirst _ ih =>
    cases hp with
    | seq ha _ performs =>
      refine runs (performs.later hσ.grows) fun τ k => ?_
      refine call (ih (hσ.trans k) ha (hs.later k)) fun r σ₁ _ hr => ?_
      cases hr with
      | err => exact done .err
  | seqSecond _ _ ih ih' =>
    cases hp with
    | seq ha hb performs =>
      refine runs (performs.later hσ.grows) fun τ k => ?_
      refine call (ih (hσ.trans k) ha (hs.later k)) fun r σ₁ k₁ hr => ?_
      cases hr with
      | ok _ lists =>
        refine call (ih' ((hσ.trans k).trans k₁) hb lists) fun r σ₂ _ hr => ?_
        cases hr with
        | err => exact done .err
  | left _ ih =>
    cases hp with
    | alt ha _ performs =>
      refine runs (performs.later hσ.grows) fun τ k => ?_
      refine call (ih (hσ.trans k) ha (hs.later k)) fun r σ₁ _ hr => ?_
      cases hr with
      | ok hv lists => exact done (.ok hv lists)
  | stuck _ ih =>
    cases hp with
    | alt ha _ performs =>
      refine runs (performs.later hσ.grows) fun τ k => ?_
      refine call (ih (hσ.trans k) ha (hs.later k)) fun r σ₁ _ hr => ?_
      cases hr with
      | err => exact done .err
  | right _ _ ih ih' =>
    cases hp with
    | alt ha hb performs =>
      refine runs (performs.later hσ.grows) fun τ k => ?_
      refine call (ih (hσ.trans k) ha (hs.later k)) fun r σ₁ k₁ hr => ?_
      cases hr with
      | err =>
        refine call (ih' ((hσ.trans k).trans k₁) hb (hs.later (k.trans k₁))) fun r σ₂ _ hr => ?_
        -- Two failures without consuming are combined to one.
        rcases r with ⟨d, v, t⟩ | ⟨_ | _, e, t⟩
        · exact done hr
        · refine act .serial (comes_of_forall (fun _ => rfl) not_exhausted_ok) fun _ => done ?_
          cases hr with
          | err => exact .err
        · exact done hr
  | map _ maps ih =>
    cases hp with
    | map ha performs =>
      refine runs (performs.later hσ.grows) fun τ k => ?_
      refine call (ih (hσ.trans k) ha (hs.later k)) fun r σ₁ k₁ hr => ?_
      cases hr with
      | ok hv lists =>
        obtain ⟨u, υ, comes, fits⟩ := maps _ hv σ₁ ((hσ.trans k).trans k₁)
        exact act (composed_action _) comes fun k₂ => done (.ok fits (lists.later k₂))
  | mapFails _ ih =>
    cases hp with
    | map ha performs =>
      refine runs (performs.later hσ.grows) fun τ k => ?_
      refine call (ih (hσ.trans k) ha (hs.later k)) fun r σ₁ _ hr => ?_
      cases hr with
      | err => exact done .err
  | ignore _ ih =>
    cases hp with
    | ignore ha capture performs =>
      refine runs (performs.later hσ.grows) fun τ k => ?_
      have inner := ih (hσ.trans k) ha (hs.later k)
      refine call (captured (capture.later (hσ.trans k).grows) inner) fun r σ₁ _ hr => ?_
      cases hr with
      | ok _ lists => exact done (.ok .anything lists)
  | ignoreFails _ ih =>
    cases hp with
    | ignore ha capture performs =>
      refine runs (performs.later hσ.grows) fun τ k => ?_
      have inner := ih (hσ.trans k) ha (hs.later k)
      refine call (captured (capture.later (hσ.trans k).grows) inner) fun r σ₁ _ hr => ?_
      cases hr with
      | err => exact done .err
  | stop _ ih =>
    cases hp with
    | many ha performs =>
      refine runs (performs.later hσ.grows) fun τ k => ?_
      refine call (ih (hσ.trans k) ha (hs.later k)) fun r σ₁ k₁ hr => ?_
      cases hr with
      | err => exact done (.ok (.items .nil) (hs.later (k.trans k₁)))
  | more _ _ ih ih' =>
    cases hp with
    | many ha performs =>
      refine runs (performs.later hσ.grows) fun τ k => ?_
      refine call (ih (hσ.trans k) ha (hs.later k)) fun r σ₁ k₁ hr => ?_
      cases hr with
      | ok hv lists =>
        -- The rest is read by the repetition itself.
        refine call (ih' ((hσ.trans k).trans k₁) (.many ha performs) lists) fun r σ₂ k₂ hr => ?_
        cases hr with
        | ok hw lists =>
          obtain ⟨u, υ, comes, fits⟩ := Combine.Unites.cons.comes hv hw σ₂
          exact act (composed_join _ _ _) comes fun k₃ => done (.ok fits (lists.later k₃))
  | manyFirst _ ih =>
    cases hp with
    | many ha performs =>
      refine runs (performs.later hσ.grows) fun τ k => ?_
      refine call (ih (hσ.trans k) ha (hs.later k)) fun r σ₁ _ hr => ?_
      cases hr with
      | err => exact done .err
  | manyRest _ _ ih ih' =>
    cases hp with
    | many ha performs =>
      refine runs (performs.later hσ.grows) fun τ k => ?_
      refine call (ih (hσ.trans k) ha (hs.later k)) fun r σ₁ k₁ hr => ?_
      cases hr with
      | ok _ lists =>
        refine call (ih' ((hσ.trans k).trans k₁) (.many ha performs) lists) fun r σ₂ _ hr => ?_
        cases hr with
        | err => exact done .err
  | copy _ ih =>
    cases hp with
    | copy ha capture performs =>
      refine runs (performs.later hσ.grows) fun τ k => ?_
      exact captured (capture.later (hσ.trans k).grows) (ih (hσ.trans k) ha (hs.later k))

end

end ResumableParsing
