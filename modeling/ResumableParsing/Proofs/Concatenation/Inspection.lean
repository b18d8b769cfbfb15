import ResumableParsing.Proofs.Concatenation.Joints

/-!
# What is looked at in joined streams

A computation on joined streams asks questions to the streams that are put together. Between the
questions nothing happens but that tails are marked or made, and serial numbers drawn. If one of the
questions raises a fault, so does the computation, and if one never ends, the computation does not.

* `Store.Appending`: nothing has happened but that one stream has been put after others
* `Stream.Asks`, `Eval.Course`: the questions of a computation
* `Eval.Course.bind`: one computation after another
* `course_append`, `course_rest`: putting streams together, and asking for the rest of them
-/

namespace ResumableParsing

variable {W α β : Type}

/-! ## Between the questions -/

/-- Tails that append `b` may have been made or marked, and serial numbers drawn. Nothing else has
happened, and nothing that was known has been lost. -/
structure Store.Appending (b : Stream Value) (σ τ : Store W) : Prop extends σ.Secures τ where
  /-- Only tails and serial numbers differ. -/
  same : ∃ n tails, σ.nextSerial ≤ n ∧ τ = { σ with nextSerial := n, tails := tails }
  /-- Each tail is as it was, or it is new or was one that appends `b`, and is one still. -/
  touched : ∀ i : TailId, τ.tails[i.index]? = σ.tails[i.index]? ∨
    ∃ a, i.Appends τ a b ∧ (i.Appends σ a b ∨ σ.tails.size ≤ i.index)

section

variable {σ τ υ : Store W} {a b : Stream Value} {i : TailId}

namespace Store.Appending

theorem refl (b : Stream Value) (σ : Store W) : σ.Appending b σ where
  toSecures := .refl σ
  same := ⟨σ.nextSerial, σ.tails, Nat.le_refl _, rfl⟩
  touched _ := .inl rfl

theorem size_le (h : Appending b σ τ) : σ.tails.size ≤ τ.tails.size := by
  apply Nat.le_of_not_lt
  intro less
  rcases h.touched ⟨τ.tails.size⟩ with same | ⟨a, ⟨slot, is⟩, _⟩
  · rw [Array.getElem?_eq_getElem less] at same
    simp at same
  · simp [TailId.Is] at is

theorem trans (h : Appending b σ τ) (h' : Appending b τ υ) : Appending b σ υ where
  toSecures := h.toSecures.trans h'.toSecures
  same := by
    obtain ⟨n, tails, le, rfl⟩ := h.same
    obtain ⟨n', tails', le', rfl⟩ := h'.same
    exact ⟨n', tails', Nat.le_trans le le', rfl⟩
  touched i := by
    rcases h'.touched i with same' | ⟨a, after, ⟨slot, before⟩ | new⟩
    · rcases h.touched i with same | ⟨a, ⟨slot, after⟩, before⟩
      · exact .inl (same'.trans same)
      · exact .inr ⟨a, ⟨slot, same'.trans after⟩, before⟩
    · rcases h.touched i with same | ⟨a', ⟨slot', middle⟩, first⟩
      · exact .inr ⟨a, after, .inl ⟨slot, same.symm.trans before⟩⟩
      · cases before.symm.trans middle
        exact .inr ⟨a, after, first⟩
    · exact .inr ⟨a, after, .inr (Nat.le_trans h.size_le new)⟩

/-- A tail that appends is marked, which was not known. -/
theorem mark (h : i.Appends σ a b) (unknown : ∀ o, σ.slot (.tail i) ≠ .known o)
    (s : Slot (Option (Stream Value))) : Appending b σ (σ.mark (.tail i) s) where
  toSecures := Store.secures_mark unknown s
  same := ⟨σ.nextSerial, _, Nat.le_refl _, rfl⟩
  touched j := by
    by_cases same : Deferred.tail i = .tail j
    · cases same
      obtain ⟨slot, is⟩ := id h
      exact .inr ⟨a, ⟨s, is.put s⟩, .inl h⟩
    · exact .inl (Store.tails_mark_other (d := .tail i) σ s same)

/-- A tail is made. -/
theorem push (a b : Stream Value) (σ : Store W) : Appending b σ
    { σ with nextSerial := σ.nextSerial + 1, tails := σ.tails.push ⟨.append a b, .unset⟩ } where
  toSecures := ((composed_lazyCell .none (.append a b)).grows_of_comes
    (comes_newTail .none _ σ)).secures
  same := ⟨_, _, Nat.le_succ _, rfl⟩
  touched i := by
    by_cases new : i.index = σ.tails.size
    · right
      refine ⟨a, ⟨.unset, ?_⟩, .inr (Nat.le_of_eq new.symm)⟩
      simp [TailId.Is, new]
    · left
      simp [Array.getElem?_push, new]

end Store.Appending

end

/-! ## Questions -/

/-- How a series of questions ends. -/
inductive Stream.Halt where
  /-- All of them have been answered. -/
  | onward
  /-- The last one has broken off. -/
  | broken (e : Stop)
  /-- The last one never ends. -/
  | stuck

/-- `Stream.Asks b may σ h τ`: questions are asked one after another from `σ` on, each where `may`
allows it, and nothing else happens but that tails are made and marked that append `b`. -/
inductive Stream.Asks (b : Stream Value) (may : Store W → Stream Value → Stream.Question → Prop) :
    Store W → Stream.Halt → Store W → Prop where
  /-- No more questions. -/
  | done {σ τ : Store W} : σ.Appending b τ → Asks b may σ .onward τ
  /-- The question breaks off. -/
  | broken {σ υ φ τ : Store W} {s : Stream Value} {q : Stream.Question} {e : Stop} :
      σ.Appending b υ → may υ s q → (s.ask q).Comes υ (.error e φ) → φ.Appending b τ →
      Asks b may σ (.broken e) τ
  /-- The question never ends. -/
  | stuck {σ υ : Store W} {s : Stream Value} {q : Stream.Question} :
      σ.Appending b υ → may υ s q → (∀ y, ¬(s.ask q).Comes υ y) → Asks b may σ .stuck υ
  /-- The question is answered, and others follow. -/
  | next {σ υ φ τ : Store W} {s : Stream Value} {q : Stream.Question} {f : Stream.Finding}
      {h : Stream.Halt} : σ.Appending b υ → may υ s q → (s.ask q).Comes υ (.ok f φ) →
      Asks b may φ h τ → Asks b may σ h τ

/-- The computation asks questions where it may, and comes to a result, breaks off or never ends as
they do. -/
inductive Eval.Course (b : Stream Value) (may : Store W → Stream Value → Stream.Question → Prop)
    (x : Eval W α) (σ : Store W) : Prop where
  /-- The questions are answered, and there is a result. -/
  | comes {a : α} {τ : Store W} :
      Stream.Asks b may σ .onward τ → x.Comes σ (.ok a τ) → Course b may x σ
  /-- A question breaks off. -/
  | breaks {e : Stop} {τ : Store W} :
      Stream.Asks b may σ (.broken e) τ → x.Comes σ (.error e τ) → Course b may x σ
  /-- A question never ends. -/
  | hangs {τ : Store W} :
      Stream.Asks b may σ .stuck τ → (∀ y, ¬x.Comes σ y) → Course b may x σ

section

variable {b : Stream Value} {may may' : Store W → Stream Value → Stream.Question → Prop}
  {σ τ υ : Store W} {h : Stream.Halt} {x : Eval W α} {f : α → Eval W β} {s : Stream Value}
  {q : Stream.Question}

namespace Stream.Asks

/-- Something has happened before the questions. -/
theorem before (own : σ.Appending b τ) (h' : Asks b may τ h υ) : Asks b may σ h υ := by
  cases h' with
  | done own' => exact .done (own.trans own')
  | broken own' allowed asked after => exact .broken (own.trans own') allowed asked after
  | stuck own' allowed hangs => exact .stuck (own.trans own') allowed hangs
  | next own' allowed asked rest => exact .next (own.trans own') allowed asked rest

/-- Something happens after the questions. -/
theorem after (h' : Asks b may σ h τ) (ended : h ≠ .stuck) (own : τ.Appending b υ) :
    Asks b may σ h υ := by
  induction h' with
  | done own' => exact .done (own'.trans own)
  | broken own' allowed asked own'' => exact .broken own' allowed asked (own''.trans own)
  | stuck _ _ _ => exact absurd rfl ended
  | next own' allowed asked _ ih => exact .next own' allowed asked (ih ended own)

/-- More questions follow. -/
theorem append (h' : Asks b may σ .onward τ) (h'' : Asks b may τ h υ) : Asks b may σ h υ := by
  generalize he : Halt.onward = e at h'
  induction h' with
  | done own => exact h''.before own
  | broken _ _ _ _ => cases he
  | stuck _ _ _ => cases he
  | next own allowed asked _ ih => exact .next own allowed asked (ih h'' he)

/-- Other questions are allowed, where enough is known. -/
theorem imp (h' : Asks b may σ h τ)
    (le : ∀ υ s q, σ.Secures υ → may υ s q → may' υ s q) : Asks b may' σ h τ := by
  induction h' with
  | done own => exact .done own
  | broken own allowed asked after =>
    exact .broken own (le _ _ _ own.toSecures allowed) asked after
  | stuck own allowed hangs => exact .stuck own (le _ _ _ own.toSecures allowed) hangs
  | @next σ υ φ τ s q f h own allowed asked _ ih =>
    have secures : σ.Secures φ := own.toSecures.trans
      ((composed_ask q s).grows_of_comes asked).secures
    refine .next own (le _ _ _ own.toSecures allowed) asked (ih ?_)
    intro ψ s q more
    exact le ψ s q (secures.trans more)

end Stream.Asks

/-! ## Courses -/

namespace Eval.Course

theorem imp (h : x.Course b may σ) (le : ∀ υ s q, σ.Secures υ → may υ s q → may' υ s q) :
    x.Course b may' σ := by
  cases h with
  | comes asks run => exact .comes (asks.imp le) run
  | breaks asks run => exact .breaks (asks.imp le) run
  | hangs asks never => exact .hangs (asks.imp le) never

theorem pure (a : α) (σ : Store W) : (Pure.pure a : Eval W α).Course b may σ :=
  .comes (.done (.refl b σ)) (comes_pure a σ)

/-- One computation after another. -/
theorem bind (hx : Composed x) (h : x.Course b may σ)
    (hf : ∀ a τ, x.Comes σ (.ok a τ) → (f a).Course b may τ) : (x >>= f).Course b may σ := by
  cases h with
  | @comes a τ asks run =>
    cases hf a τ run with
    | comes asks' run' => exact .comes (asks.append asks') (comes_bind_ok run run')
    | breaks asks' run' => exact .breaks (asks.append asks') (comes_bind_ok run run')
    | hangs asks' never =>
      refine .hangs (asks.append asks') ?_
      intro y whole
      rcases whole.of_bind hx with ⟨a', τ', run', second⟩ | ⟨e, τ', run', _⟩
      · cases run.unique run'
        exact never y second
      · cases run.unique run'
  | breaks asks run => exact .breaks asks (comes_bind_error run)
  | hangs asks never =>
    refine .hangs asks ?_
    intro y whole
    rcases whole.of_bind hx with ⟨a', τ', run', _⟩ | ⟨e, τ', run', _⟩
    · exact never _ run'
    · exact never _ run'

/-- A single question. -/
theorem question {g : α → Stream.Finding} (hx : Composed x)
    (same : s.ask q = x >>= fun a => Pure.pure (g a)) (allowed : may σ s q) :
    x.Course b may σ := by
  have asked {a : α} {τ : Store W} (run : x.Comes σ (.ok a τ)) :
      (s.ask q).Comes σ (.ok (g a) τ) := same ▸ comes_bind_ok run (comes_pure _ τ)
  -- Whether the question is answered, breaks off or never ends, so does the computation.
  by_cases ends : ∃ y, x.Comes σ y
  · obtain ⟨y, run⟩ := ends
    cases y with
    | ok a τ =>
      exact .comes (.next (.refl b σ) allowed (asked run) (.done (.refl b τ))) run
    | error e τ =>
      have fails : (s.ask q).Comes σ (.error e τ) := same ▸ comes_bind_error run
      exact .breaks (.broken (.refl b σ) allowed fails (.refl b τ)) run
  · refine .hangs (.stuck (.refl b σ) allowed ?_) fun y run => ends ⟨y, run⟩
    intro y run
    rw [same] at run
    rcases run.of_bind hx with ⟨a, τ, run, _⟩ | ⟨e, τ, run, _⟩
    · exact ends ⟨_, run⟩
    · exact ends ⟨_, run⟩

theorem isEmpty (allowed : may σ s .isEmpty) : s.isEmpty.Course b may σ :=
  .question (g := .empty) (composed_isEmpty s) rfl allowed

theorem first (allowed : may σ s .first) : s.first.Course b may σ :=
  .question (g := .element) (composed_first s) rfl allowed

theorem rest (allowed : may σ s .rest) : s.rest.Course b may σ :=
  .question (g := .onward) (composed_rest s) rfl allowed

end Eval.Course

end

/-! ## Putting streams together, and reading them -/

section

variable {a b c : Stream Value} {may : Store W → Stream Value → Stream.Question → Prop}
  {σ τ : Store W} {base n : Nat} {v : Value} {i : TailId}

/-- Two streams are put together by looking at the first cell of the first one. -/
theorem course_append
    (allowed : ∀ υ q, σ.Secures υ → q ≠ Stream.Question.rest → may υ a q) :
    (a.append b).Course b may σ := by
  apply Eval.Course.bind (composed_isEmpty a) (.isEmpty (allowed _ _ (.refl σ) (by simp)))
  intro e τ asked
  have secures := ((composed_isEmpty a).grows_of_comes asked).secures
  cases e with
  | true => exact .pure b τ
  | false =>
    apply Eval.Course.bind (composed_first a) (.first (allowed _ _ secures (by simp)))
    intro v υ _
    exact .comes (.done (.push a b υ)) (comes_newTail v _ υ)

/-- A tail that appends asks for the rest of the first stream, and then looks at the first cell of
that. -/
theorem course_compute (first : ∀ υ, σ.Secures υ → may υ a .rest)
    (behind : ∀ υ a' q, σ.Secures υ → a.Next υ a' → q ≠ Stream.Question.rest → may υ a' q) :
    (Tail.append a b).compute.Course b may σ := by
  apply Eval.Course.bind (composed_rest a) (.rest (first _ (.refl σ)))
  intro a' τ asked
  have secures := ((composed_rest a).grows_of_comes asked).secures
  have next := Stream.next_of_comes asked
  refine .bind (composed_append a' b) (course_append ?_) fun c υ _ => .pure _ υ
  intro υ q more hq
  exact behind υ a' q (secures.trans more) (next.later more.toKnows) hq

/-- What the rest comes to of a cell whose tail has to be computed. -/
theorem Eval.Comes.of_rest {y : EStateM.Result Stop (Store W) (Stream Value)} {x : Tail W}
    (unset : i.Is σ x .unset) (run : (Stream.lazy n v i).rest.Comes σ y) :
    ∃ z, x.compute.Comes (σ.mark (.tail i) .busy) z := by
  obtain ⟨z, force⟩ := Eval.Comes.first_of_bind (.force _) run
  obtain ⟨z', compute, _⟩ := (comes_force_iff unset.part).mp force
  exact ⟨z', compute⟩

/-- The rest of a joined stream is known, or its tail is computed. -/
theorem course_rest (faithful : σ.Faithful base) (le : base ≤ i.index) (appends : i.Appends σ a b)
    (free : σ.Free base) (first : ∀ υ, σ.Secures υ → may υ a .rest)
    (behind : ∀ υ a' q, σ.Secures υ → a.Next υ a' → q ≠ Stream.Question.rest → may υ a' q) :
    (Stream.lazy n v i).rest.Course b may σ := by
  obtain ⟨slot, is⟩ := id appends
  cases slot with
  | busy => exact absurd (Store.slot_of_part is.part) (free i a b le appends)
  | known o =>
    obtain ⟨a', c, rfl, _, _⟩ := faithful i a b o le is
    exact .comes (.done (.refl b σ)) (comes_rest_known is)
  | unset =>
    have marks : σ.Appending b (σ.mark (.tail i) .busy) :=
      .mark appends (is.unknown (by simp)) .busy
    -- When the function has ended, the tail is still busy, and what is noted of it then touches
    -- nothing else.
    have notes {τ : Store W} (g : (σ.mark (.tail i) .busy).Grows τ)
        (s : Slot (Option (Stream Value))) : τ.Appending b (τ.mark (.tail i) s) := by
      have busy := is.busy_later g
      exact .mark ⟨_, busy⟩ (busy.unknown (by simp)) s
    have compute : (Tail.append a b).compute.Course b may (σ.mark (.tail i) .busy) := by
      apply course_compute
      · exact fun υ more => first υ (marks.toSecures.trans more)
      · exact fun υ a' q more => behind υ a' q (marks.toSecures.trans more)
    cases compute with
    | @comes o τ asks run =>
      obtain ⟨a', c, rfl, _, _⟩ := joined_of_compute run (Nat.zero_le _)
      have noted := notes ((composed_compute _).grows_of_comes run) (.known (some c))
      exact .comes ((asks.before marks).after (by simp) noted) (comes_rest_unset is run)
    | @breaks e τ asks run =>
      have noted := notes ((composed_compute _).grows_of_comes run) .unset
      exact .breaks ((asks.before marks).after (by simp) noted) (comes_rest_unset is run)
    | hangs asks never =>
      refine .hangs (asks.before marks) ?_
      intro y run
      obtain ⟨z, run⟩ := run.of_rest is
      exact never z run

/-- After a fault, a tail that appends is as it was before. -/
theorem unset_of_rest_error {e : Stop} (faithful : σ.Faithful base) (le : base ≤ i.index)
    (appends : i.Appends σ a b) (free : σ.Free base)
    (run : (Stream.lazy n v i).rest.Comes σ (.error e τ)) : i.Is τ (.append a b) .unset := by
  obtain ⟨slot, is⟩ := id appends
  cases slot with
  | busy => exact absurd (Store.slot_of_part is.part) (free i a b le appends)
  | known o =>
    obtain ⟨a', c, rfl, _, _⟩ := faithful i a b o le is
    cases run.unique (comes_rest_known is)
  | unset =>
    obtain ⟨z, compute⟩ := run.of_rest is
    have busy := is.busy_later ((composed_compute _).grows_of_comes compute)
    cases z with
    | ok o υ =>
      obtain ⟨a', c, rfl, _, _⟩ := joined_of_compute compute (Nat.zero_le _)
      cases run.unique (comes_rest_unset is compute)
    | error e' υ =>
      cases run.unique (comes_rest_unset is compute)
      exact busy.put .unset

end

end ResumableParsing
