import ResumableParsing.Proofs.Repetition.Cells

/-!
# Repeated application, step by step

A parser is applied to a state, then to the state of its reply and so on. The lazy repetition shows
the values one by one: each tail applies the parser once more when it is asked for, at whatever time
that is, as long as the place where it goes on is what it was. After a failure that has consumed
input the tail raises the error, and does so again whenever it is asked for.

* `Applied`: applying a parser again and again
* `Stream.Shows`: a lazy stream shows the values
* `Applied.unfolds`: the lazy repetition does
-/

namespace ResumableParsing

variable {W : Type}

/-! ## Applying a parser again and again -/

/-- An application of a parser that has succeeded. -/
structure Success (W : Type) where
  /-- The value of the reply. -/
  value : Value
  /-- Its state, where the parser is applied next. -/
  state : State Value
  /-- The store that has been left. -/
  store : Store W

/-- How it goes on behind some applications. -/
inductive Ending (W : Type) where
  /-- There may be more. -/
  | more
  /-- The parser fails without consuming. -/
  | ended
  /-- The parser fails after consuming, with this error, in the one store and leaving the other. -/
  | failed (e : ParseError Value) (before after : Store W)

/-- `Applied p ρ s vs z`: from the store `ρ` on, the parser is applied in the state `s`, then in the
state of the reply and so on. The applications `vs` succeed, and it goes on as `z` says. Between two
applications nothing happens but that messages are logged. -/
inductive Applied (p : ParserId) :
    Store W → State Value → List (Success W) → Ending W → Prop where
  /-- Nothing is said of the rest. -/
  | more {ρ : Store W} {s : State Value} : Applied p ρ s [] .more
  /-- The parser fails without consuming. -/
  | ended {ρ υ τ : Store W} {s t : State Value} {e : ParseError Value} : ρ.Noted υ →
      (p.run s).Comes υ (.ok (.reply (.err false e t)) τ) → Applied p ρ s [] .ended
  /-- The parser fails after consuming. -/
  | failed {ρ υ τ : Store W} {s t : State Value} {e : ParseError Value} : ρ.Noted υ →
      (p.run s).Comes υ (.ok (.reply (.err true e t)) τ) → Applied p ρ s [] (.failed e υ τ)
  /-- The parser succeeds, and is applied in the next state. -/
  | step {ρ υ τ : Store W} {s t : State Value} {d : Bool} {v : Value} {vs : List (Success W)}
      {z : Ending W} : ρ.Noted υ → (p.run s).Comes υ (.ok (.reply (.ok d v t)) τ) →
      Applied p τ t vs z → Applied p ρ s (⟨v, t, τ⟩ :: vs) z

/-- If the parser fails in the end, it leaves the names of the parsers of the set as they were. -/
def Ending.Keeps (P : ParserId → Prop) : Ending W → Prop
  | .failed _ before after => before.SameLabels P after
  | _ => True

/-- The value is the one of the application, or was so at some time before the store `σ`. -/
def Success.Gave (a : Success W) (σ : Store W) (w : Value) : Prop :=
  ∃ υ, υ.KeepsTails σ ∧ a.value.Corresponds a.store υ w

theorem Success.Gave.later {a : Success W} {σ τ : Store W} {w : Value} (h : a.Gave σ w)
    (r : σ.KeepsTails τ) : a.Gave τ w := by
  obtain ⟨υ, r', same⟩ := h
  exact ⟨υ, r'.trans r, same⟩

/-! ## Lazy streams -/

/-- What a computation comes to that asks for the applications `vs`, which go on as `z` says: it
raises the error if that is all there is, and leaves a store with the property `Q`. Otherwise it has
a stream with the property `R` for its outcome `a`. -/
def Ending.Comes {α : Type} (z : Ending W) (vs : List (Success W)) (x : Eval W α)
    (a : Stream Value → α) (σ : Store W) (R : Stream Value → Store W → Prop)
    (Q : Store W → Prop) : Prop :=
  match z, vs with
  | .more, [] => True
  | .failed e _ ρ, [] =>
    ∃ f τ, e.Corresponds ρ τ f ∧ x.Comes σ (.error (.raised (.noParse f)) τ) ∧ Q τ
  | _, _ => ∃ s τ, x.Comes σ (.ok (a s) τ) ∧ R s τ

theorem Ending.comes_cons {α : Type} {z : Ending W} {v : Success W}
    {vs : List (Success W)} {x : Eval W α} {a : Stream Value → α} {σ : Store W}
    {R : Stream Value → Store W → Prop} {Q : Store W → Prop} :
    z.Comes (v :: vs) x a σ R Q ↔ ∃ s τ, x.Comes σ (.ok (a s) τ) ∧ R s τ := by
  cases z <;> rfl

/-- Another computation that comes to the same. -/
theorem Ending.Comes.imp {α β : Type} {z : Ending W} {vs : List (Success W)}
    {x : Eval W α} {y : Eval W β} {a : Stream Value → α} {b : Stream Value → β} {σ τ : Store W}
    {R R' : Stream Value → Store W → Prop} {Q Q' : Store W → Prop} (h : z.Comes vs x a σ R Q)
    (hok : ∀ s υ, x.Comes σ (.ok (a s) υ) → R s υ → ∃ υ', y.Comes τ (.ok (b s) υ') ∧ R' s υ')
    (herr : ∀ (e : ParseError Value) ρ f υ, e.Corresponds ρ υ f →
      x.Comes σ (.error (.raised (.noParse f)) υ) → Q υ → ∃ υ',
        e.Corresponds ρ υ' f ∧ y.Comes τ (.error (.raised (.noParse f)) υ') ∧ Q' υ') :
    z.Comes vs y b τ R' Q' := by
  have ok (h : ∃ s υ, x.Comes σ (.ok (a s) υ) ∧ R s υ) :
      ∃ s υ, y.Comes τ (.ok (b s) υ) ∧ R' s υ := by
    obtain ⟨s, υ, hx, hR⟩ := h
    obtain ⟨υ', hy, hR'⟩ := hok s υ hx hR
    exact ⟨s, υ', hy, hR'⟩
  cases vs with
  | cons v vs => exact comes_cons.mpr (ok (comes_cons.mp h))
  | nil =>
    cases z with
    | more => trivial
    | ended => exact ok h
    | failed e _ ρ =>
      obtain ⟨f, υ, hf, hx, hQ⟩ := h
      obtain ⟨υ', hf', hy, hQ'⟩ := herr e ρ f υ hf hx hQ
      exact ⟨f, υ', hf', hy, hQ'⟩

/-- What is known of a tail. -/
def TailId.Is (i : TailId) (σ : Store W) (x : Tail W) (slot : Slot (Option (Stream Value))) :
    Prop :=
  σ.tails[i.index]? = some ⟨x, slot⟩

/-- In the store `σ` the stream shows the values of the applications `vs` and goes on as `z` says.
Each value stands in a lazy cell. If the tail of the cell is known it shows the other values. If it
has not been computed yet, then the state behind the application is at hand. Whenever the tail is
asked for, in any store that has grown from `base` and in which this is still so, it shows the other
values from then on; or it raises the error, and is as it was before. -/
def Stream.Shows (P : ParserId → Prop) (z : Ending W) (base : Store W) :
    List (Success W) → Stream Value → Store W → Prop
  | [], s, _ => z = .more ∨ z = .ended ∧ s = .nil
  | v :: vs, s, σ => ∃ n w i, s = .lazy n w i ∧ v.Gave σ w ∧ ∃ x,
      (∃ t, i.Is σ x .unset ∧ Prepared P v.store v.state σ t ∧
        ∀ υ, base.Grows υ → i.Is υ x .unset → Prepared P v.store v.state υ t →
          z.Comes vs s.rest id υ
            (fun u τ => i.Is τ x (.known (some u)) ∧ Shows P z base vs u τ)
            fun τ => i.Is τ x .unset ∧ (z.Keeps P → Prepared P v.store v.state τ t)) ∨
      ∃ u, i.Is σ x (.known (some u)) ∧ Shows P z base vs u σ

/-! ## Tails -/

section

variable {σ τ υ : Store W} {i : TailId} {x : Tail W} {slot : Slot (Option (Stream Value))}
  {n : Nat} {v : Value} {t : Stream Value} {j : TailId} {y : Tail W}
  {slot' : Slot (Option (Stream Value))}

/-- Two things that are known of one tail. -/
theorem TailId.Is.unique (h : i.Is σ x slot) (h' : i.Is σ y slot') : x = y ∧ slot = slot' := by
  cases h.symm.trans h'
  exact ⟨rfl, rfl⟩

/-- Tails of which different things are known are not the same. -/
theorem TailId.Is.ne (h : i.Is σ x slot) (h' : j.Is σ y slot') (hs : slot ≠ slot') :
    i.index ≠ j.index := by
  intro same
  rw [TailId.Is, same] at h
  exact hs (TailId.Is.unique h h').2

/-- A tail that has not been computed, or is known, is so in a later store unless somebody has asked
for it. -/
theorem TailId.Is.later (h : i.Is σ x slot) (g : σ.Grows τ) :
    ∃ slot', i.Is τ x slot' ∧ (slot = .unset ∨ slot' = slot) := by
  obtain ⟨⟨x', slot'⟩, found, rfl, same⟩ := g.tails _ _ h
  exact ⟨slot', found, same⟩

theorem TailId.Is.lt_size (h : i.Is σ x slot) : i.index < σ.tails.size :=
  (Array.getElem?_eq_some_iff.mp h).1

theorem TailId.Is.known_later {o : Option (Stream Value)} (h : i.Is σ x (.known o))
    (g : σ.Grows τ) : i.Is τ x (.known o) := by
  obtain ⟨slot, h, hs | rfl⟩ := h.later g
  · cases hs
  · exact h

/-- Marking a tail. -/
theorem TailId.Is.put (h : i.Is σ x slot) (slot' : Slot (Option (Stream Value))) :
    i.Is (Shelf.tails.put i.index slot' σ) x slot' :=
  (Memo.putSlot_self σ.tails i.index slot').trans (congrArg (Option.map _) h)

/-- Marking another one. -/
theorem TailId.Is.put_other (h : i.Is σ x slot) (hj : j.index ≠ i.index)
    (slot' : Slot (Option (Stream Value))) : i.Is (Shelf.tails.put j.index slot' σ) x slot :=
  (Memo.putSlot_other σ.tails hj slot').trans h

theorem TailId.Is.grows_busy (h : i.Is σ x .unset) :
    σ.Grows (Shelf.tails.put i.index .busy σ) := by
  refine Shelf.lawful_tails.grows_busy fun y hy => ?_
  rw [show Shelf.tails.find i.index σ = _ from h] at hy
  cases hy
  rfl

theorem comes_rest_known (h : i.Is σ x (.known (some t))) :
    (Stream.lazy n v i).rest.Comes σ (.ok t σ) :=
  comes_bind_ok (Shelf.comes_get_known (force_tail i) h) (comes_pure t σ)

/-- A tail is computed when it is asked for. -/
theorem comes_rest_unset (h : i.Is σ x .unset)
    {z : EStateM.Result Stop (Store W) (Option (Stream Value))}
    (hz : x.compute.Comes (Shelf.tails.put i.index .busy σ) z) :
    match z with
    | .ok (some t) τ => (Stream.lazy n v i).rest.Comes σ
        (.ok t (Shelf.tails.put i.index (.known (some t)) τ))
    | .ok none _ => True
    | .error e τ => (Stream.lazy n v i).rest.Comes σ
        (.error e (Shelf.tails.put i.index .unset τ)) := by
  have force := Shelf.comes_get_unset (force_tail i) h hz
  rcases z with ⟨_ | t, τ⟩ | ⟨e, τ⟩
  · trivial
  · exact comes_bind_ok force (comes_pure t _)
  · exact comes_bind_error force

end

/-! ## The lazy repetition -/

section

variable {P : ParserId → Prop} {z : Ending W} {base base' ρ σ τ υ : Store W}
  {vs : List (Success W)} {u : Stream Value} {s t : State Value} {p all : ParserId}

/-- Marking a tail that runs a parser is part of the unfolding. -/
theorem TailId.Is.unfolds {i : TailId} (hi : i.Is σ (.parse all t) .busy)
    (slot : Slot (Option (Stream Value))) : σ.Unfolds (Shelf.tails.put i.index slot σ) :=
  .put hi (fun _ => by simp) slot

/-- What a stream shows does not depend on a tail that is being computed. -/
theorem Stream.Shows.put (h : u.Shows P z base vs σ) {i : TailId}
    (hi : i.Is σ (.parse all t) .busy) (slot : Slot (Option (Stream Value))) :
    u.Shows P z base vs (Shelf.tails.put i.index slot σ) := by
  have unfolds := hi.unfolds slot
  -- The tails of the stream are known or unset, so they are others than the one that is marked.
  have other {j : TailId} {y : Tail W} {slot' : Slot (Option (Stream Value))}
      (hj : j.Is σ y slot') (hs : slot' ≠ .busy) : j.Is (Shelf.tails.put i.index slot σ) y slot' :=
    hj.put_other (hi.ne hj hs.symm) slot
  induction vs generalizing u with
  | nil => exact h
  | cons v vs ih =>
    obtain ⟨n, w, j, rfl, hw, y, ⟨t', hj, ready, next⟩ | ⟨u', hj, hu'⟩⟩ := h
    · exact ⟨n, w, j, rfl, hw.later unfolds.keepsTails, y,
        .inl ⟨t', other hj (by simp), ready.unfolds (.refl _) unfolds, next⟩⟩
    · exact ⟨n, w, j, rfl, hw.later unfolds.keepsTails, y, .inr ⟨u', other hj (by simp), ih hu'⟩⟩

/-- What holds of all stores that have grown from one holds of those that have grown from a later
one. -/
theorem Stream.Shows.mono (h : u.Shows P z base vs σ) (g : base.Grows base') :
    u.Shows P z base' vs σ := by
  induction vs generalizing u σ with
  | nil => exact h
  | cons v vs ih =>
    obtain ⟨n, w, i, rfl, hw, x, ⟨t, hi, ready, next⟩ | ⟨u', hi, hu'⟩⟩ := h
    · refine ⟨n, w, i, rfl, hw, x, .inl ⟨t, hi, ready, fun υ g' hυ ready' => ?_⟩⟩
      exact (next υ (g.trans g') hυ ready').imp (fun u τ hu h => ⟨τ, hu, h.1, ih h.2⟩)
        fun e ρ f τ he hf h => ⟨τ, he, hf, h⟩
    · exact ⟨n, w, i, rfl, hw, x, .inr ⟨u', hi, ih hu'⟩⟩

/-- A tail that runs the repetition comes to what the repetition comes to. -/
theorem Ending.Comes.rest {i : TailId} {n : Nat} {w : Value} {Q : Store W → Prop}
    (hi : i.Is σ (.parse all t) .unset)
    (h : z.Comes vs (all.parseState t) (fun u => .ok (.stream u))
      (Shelf.tails.put i.index .busy σ) (fun u τ => u.Shows P z base vs τ) Q) :
    z.Comes vs (Stream.lazy n w i).rest id σ
      (fun u τ => i.Is τ (.parse all t) (.known (some u)) ∧ u.Shows P z base vs τ)
      fun τ => i.Is τ (.parse all t) .unset ∧ ∃ υ, Q υ ∧ υ.Unfolds τ := by
  have busy {y : EStateM.Result Stop (Store W) (Except (Request W) Value)}
      (hy : (all.parseState t).Comes (Shelf.tails.put i.index .busy σ) y) :
      i.Is (left y) (.parse all t) .busy := by
    obtain ⟨slot, h, hs | rfl⟩ :=
      (hi.put .busy).later ((composed_parseState all t).grows_of_comes hy)
    · cases hs
    · exact h
  refine h.imp (fun u τ hu shows => ?_) fun e ρ f τ he hf hQ => ?_
  · have compute : (Tail.parse all t : Tail W).compute.Comes (Shelf.tails.put i.index .busy σ)
        (.ok (some u) τ) := comes_bind_ok hu (comes_pure _ τ)
    exact ⟨_, comes_rest_unset hi compute, (busy hu).put _, shows.put (busy hu) _⟩
  · have compute : (Tail.parse all t : Tail W).compute.Comes (Shelf.tails.put i.index .busy σ)
        (.error (.raised (.noParse f)) τ) := comes_bind_error hf
    have unfolds := (busy hf).unfolds .unset
    obtain ⟨x, hx, hx'⟩ := he.state.input
    have same : e.state.Corresponds ρ (Shelf.tails.put i.index .unset τ) f.state :=
      { he.state with input := ⟨x, hx, hx'.unfolds unfolds⟩ }
    exact ⟨Shelf.tails.put i.index .unset τ, { he with state := same },
      comes_rest_unset hi compute, (busy hf).put _, τ, hQ, unfolds⟩

/-- The repetition shows the values of repeated application. -/
theorem Applied.repetition (h : Applied p ρ s vs z) (hp : P p) (all_p : p.Repetition base all)
    (g : base.Grows υ) (ready : Prepared P ρ s υ t) :
    z.Comes vs (all.parseState t) (fun u => .ok (.stream u)) υ
      (fun u τ => u.Shows P z base vs τ) fun τ => z.Keeps P → Prepared P ρ s τ t := by
  -- By induction on the applications: in a place that is prepared the parser replies alike, and the
  -- state of the reply is a prepared place for the tail behind it.
  induction h generalizing υ t with
  | more => trivial
  | ended noted run =>
    obtain ⟨σ₁, noted', opens⟩ := (all_p.later g).opens t
    obtain ⟨_, τ, w, run', -, replies, -⟩ :=
      (ready.unfolds noted.unfolds noted'.unfolds).runs hp run
    cases replies with
    | err _ _ _ =>
      obtain ⟨τ', run'⟩ := opens _ τ run'
      exact ⟨.nil, τ', comes_bind_ok run' (comes_pure _ τ'), .inr ⟨rfl, rfl⟩⟩
  | @failed ρ ρ₁ _ s _ _ noted run =>
    obtain ⟨σ₁, noted', opens⟩ := (all_p.later g).opens t
    have ready := ready.unfolds noted.unfolds noted'.unfolds
    obtain ⟨_, τ, w, run', hs, replies, defines, place⟩ := ready.runs hp run
    have g₁ := (composed_complete _).grows_of_comes run
    have g₂ := (composed_complete _).grows_of_comes run'
    cases replies with
    | err _ he _ =>
      -- The tail is asked for again in the store that the error has left, so the names matter.
      refine ⟨_, τ, Storage.corresponds_error hs.1 hs.2 he,
        comes_bind_ok (opens _ τ run') (comes_fault _ τ), fun keeps => ?_⟩
      have kept : Prepared P ρ₁ s τ t := ⟨ready.defines.before g₁ g₂ defines keeps, place⟩
      exact kept.unfolds noted.symm.unfolds (.refl τ)
  | @step ρ ρ₁ ρ₂ s s' d v vs z noted run _ ih =>
    obtain ⟨σ₁, noted', opens⟩ := (all_p.later g).opens t
    obtain ⟨_, τ, w, run', hs, replies, defines, -⟩ :=
      (ready.unfolds noted.unfolds noted'.unfolds).runs hp run
    cases replies with
    | @ok _ v' _ t' _ hv ht =>
      obtain ⟨n, i, τ', run', unfolds, tail⟩ := opens _ τ run'
      refine Ending.comes_cons.mpr
        ⟨.lazy n v' i, τ', comes_bind_ok run' (comes_pure _ τ'), n, v', i, rfl, ?_, ?_⟩
      · exact ⟨τ, unfolds.keepsTails, w.1, hs.1, hv⟩
      · have next := (Prepared.of_stores hs ht defines).unfolds (.refl _) unfolds
        refine ⟨.parse all t', .inl ⟨t', tail, next, fun υ' g' hi ready => ?_⟩⟩
        -- The tail is marked while it runs, which leaves the place as it is.
        have busy := ready.unfolds (.refl _) (.put hi (fun _ => by simp) .busy)
        have rest := (ih (g'.trans hi.grows_busy) busy).rest (n := n) (w := v') hi
        refine rest.imp (fun u τ hu h => ⟨τ, hu, h⟩) fun e ρ f τ he hf h => ?_
        obtain ⟨unset, υ, kept, unfolds⟩ := h
        exact ⟨τ, he, hf, unset, fun keeps => (kept keeps).unfolds (.refl _) unfolds⟩

/-- What the lazy repetition of a parser shows, and when it raises an error. -/
theorem Applied.unfolds (h : Applied p ρ s vs z) (hp : P p) (ready : Prepared P ρ s υ t) :
    z.Comes vs (p.runMany t) (fun u => .ok (.stream u)) υ
      (fun u τ => u.Shows P z τ vs τ) fun τ => z.Keeps P → Prepared P ρ s τ t := by
  obtain ⟨g, unfolds, all_p⟩ := repetition_repeatedly p υ
  have built : (Eval.ofBuild p.repeatedly).Comes υ (.ok _ _) :=
    comes_of_forall (fun _ => rfl) not_exhausted_ok
  have shows := h.repetition hp all_p (.refl _) (ready.unfolds (.refl _) unfolds)
  refine shows.imp (fun u τ hu shows => ?_) fun e ρ f τ he hf kept =>
    ⟨τ, he, comes_bind_ok built hf, kept⟩
  exact ⟨τ, comes_bind_ok built hu, shows.mono ((composed_parseState _ t).grows_of_comes hu)⟩

end

end ResumableParsing
