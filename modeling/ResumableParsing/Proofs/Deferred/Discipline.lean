import ResumableParsing.Proofs.Deferred.Knowledge

/-!
# The discipline of deferred parts

Computations of deferred parts nest to any depth: the function of a part may ask for any part, its
own included, and may let faults through or catch them. However they nest and fail, a part is busy
while its function runs and at no other time, and each function returns at most once.

* `Incident.History`: computations run one after another, and what has occurred in them
* `Incident.Has`: the value of a part has been found
* `Incident.Disciplined`: the rules that a history keeps to
* `deferred_parts_are_disciplined`: every history keeps to them
-/

namespace ResumableParsing

variable {W : Type}

theorem Slot.unset_iff {α : Type} {s : Slot α} : s = .unset ↔ s ≠ .busy ∧ ∀ a, s ≠ .known a := by
  cases s <;> simp

namespace Incident

/-- Computations are run one after another, and each of them ends; between them the incidents have
occurred. Asking for a part is one such computation, and making new parts is another one. -/
inductive History (σ : Store W) : List Incident → Store W → Prop where
  | start : History σ [] σ
  | next {α : Type} {x : Eval W α} {τ : Store W} {es es' : List Incident}
      {y : EStateM.Result Stop (Store W) α} :
      History σ es τ → x.Traced τ es' y → History σ (es ++ es') (left y)

/-- The value of the part was known at first, or its function has returned it. -/
def Has (σ : Store W) (es : List Incident) (d : Deferred) (a : d.Content) : Prop :=
  σ.slot d = .known a ∨ .returned d a ∈ es

/-- The rules that deferred parts keep to. -/
structure Disciplined (σ : Store W) (es : List Incident) (τ : Store W) : Prop where
  /-- No part is left busy. -/
  quiescent : τ.Quiescent
  /-- A value that has been found is kept, and no other value is known. -/
  known : ∀ d a, τ.slot d = .known a ↔ Has σ es d a
  /-- A function returns normally once at most. After that its part gives the value that has been
  returned, whenever it is asked for, and nothing else happens to it. -/
  once : ∀ d a before after, es = before ++ .returned d a :: after →
    (∀ b, ¬Has σ before d b) ∧ ∀ e ∈ after, e.part = d → e = .kept d a
  /-- A request is refused exactly if the function of the part is running. -/
  refused : ∀ e before after, es = before ++ e :: after → e.IsRequest →
    (e = .reentered e.part ↔ Running e.part before)
  /-- A request is answered at once exactly if the value has been found. -/
  given : ∀ e before after, es = before ++ e :: after → e.IsRequest →
    ∀ a, e = .kept e.part a ↔ Has σ before e.part a
  /-- In all other cases the function is called. -/
  called : ∀ e before after, es = before ++ e :: after → e.IsRequest →
    (e = .called e.part ↔ ¬Running e.part before ∧ ∀ a, ¬Has σ before e.part a)
  /-- When a function has broken off, nothing is known of its part, and the next request for it
  calls the function again. -/
  again : ∀ d f before after, es = before ++ .failed d f :: after →
    (∀ a, ¬Has σ before d a) ∧ ∀ between e rest, after = between ++ e :: rest →
      (∀ e' ∈ between, e'.part ≠ d) → e.part = d → e = .called d

/-! ## Any moment of a history -/

section

variable {σ τ : Store W} {k k' : Knowledge} {es before after : List Incident} {e : Incident}
  {d : Deferred}

theorem History.leads (h : History σ es τ) : Leads σ.slot es τ.slot := by
  induction h with
  | start => exact .nil _
  | next _ traced ih => exact ih.append traced.leads

/-- Each incident occurs at a moment at which the parts whose functions are running are busy, and
the values that have been found are known. -/
theorem Leads.moment (h : Leads σ.slot (before ++ e :: after) k) (quiescent : σ.Quiescent) :
    ∃ m m', Moves m e m' ∧ Leads m' after k ∧ (∀ d, m d = .busy ↔ Running d before) ∧
      ∀ d a, m d = .known a ↔ Has σ before d a := by
  obtain ⟨m, first, rest⟩ := h.split
  cases rest with
  | @cons _ m' _ _ _ move rest =>
    refine ⟨m, m', move, rest, ?_, ?_⟩
    · intro d
      exact first.busy_iff (quiescent d)
    · intro d a
      exact first.known_iff a

/-- A request is refused, answered or passed on to the function, as the part is. -/
theorem Moves.request (h : Moves k e k') (he : e.IsRequest) :
    (e = .reentered e.part ↔ k e.part = .busy) ∧ (∀ a, e = .kept e.part a ↔ k e.part = .known a) ∧
      (e = .called e.part ↔ k e.part = .unset) := by
  cases h with
  | kept known =>
    simp only [part, known, reduceCtorEq, true_and, and_true]
    intro a
    constructor
    · intro same
      cases same
      rfl
    · intro same
      rw [Slot.known.inj same]
  | reentered busy => simp [part, busy]
  | called unset => simp [part, unset]
  | returned a busy => exact he.elim
  | failed f busy => exact he.elim

/-- A part whose function ends has been busy, so its value had not been found. -/
theorem Ends.not_has (he : e.Ends d) (move : Moves k e k')
    (known : ∀ d a, k d = .known a ↔ Has σ before d a) (b : d.Content) : ¬Has σ before d b := by
  have busy : k d = .busy := by
    rcases he with ⟨a, rfl⟩ | ⟨f, rfl⟩
    · cases move with
      | returned _ busy => exact busy
    · cases move with
      | failed _ busy => exact busy
  intro has
  cases busy.symm.trans ((known d b).mpr has)

/-- Series of incidents keep to the rules. -/
theorem Leads.disciplined (h : Leads σ.slot es τ.slot) (quiescent : σ.Quiescent)
    (quiescent' : τ.Quiescent) : Disciplined σ es τ where
  quiescent := quiescent'
  known d a := h.known_iff a
  -- Each of the other rules is read off what is known at the moment of its incident.
  once d a before after split := by
    subst split
    obtain ⟨m, m', move, rest, -, known⟩ := h.moment quiescent
    refine ⟨Ends.not_has (.inl ⟨a, rfl⟩) move known, ?_⟩
    have returned : m' d = .known a := (move.known_iff a).mpr (.inr rfl)
    exact rest.kept returned
  refused e before after split he := by
    subst split
    obtain ⟨m, m', move, -, busy, -⟩ := h.moment quiescent
    rw [(move.request he).1, busy]
  given e before after split he a := by
    subst split
    obtain ⟨m, m', move, -, -, known⟩ := h.moment quiescent
    rw [(move.request he).2.1, known]
  called e before after split he := by
    subst split
    obtain ⟨m, m', move, -, busy, known⟩ := h.moment quiescent
    rw [(move.request he).2.2, Slot.unset_iff, ne_eq, busy]
    simp only [ne_eq, known]
  again d f before after split := by
    subst split
    obtain ⟨m, m', move, rest, -, known⟩ := h.moment quiescent
    refine ⟨Ends.not_has (.inr ⟨f, rfl⟩) move known, ?_⟩
    intro between e rest' split' other about
    subst split' about
    have unset : m' e.part = .unset := by
      cases move with
      | failed _ busy => exact Function.update_self _ _ _
    -- Nothing becomes known of the part until the next incident that is about it.
    obtain ⟨n, through, last⟩ := rest.split
    cases last with
    | cons move' _ => exact move'.called_of_unset ((through.other other).trans unset)

end

end Incident

/-! ## Histories -/

section

variable {α : Type} {x : Eval W α} {σ τ : Store W} {d : Deferred} {es : List Incident}
  {y : EStateM.Result Stop (Store W) α}

/-- A computation leaves no part busy that was not busy before. -/
theorem Eval.Traced.busy_before (h : x.Traced σ es y) (busy : (left y).slot d = .busy) :
    σ.slot d = .busy := by
  induction h with
  | change f σ _ hf => exact ((hf σ).slot d).symm.trans busy
  | bind _ _ ih ih' => exact ih (ih' busy)
  | @computed d' x σ es y found traced ih =>
    by_cases same : d' = d
    · subst same
      rw [slot_settle found traced] at busy
      cases y <;> cases busy
    · rw [left_settle, Store.slot_mark_other _ _ same] at busy
      have before := ih busy
      rwa [Store.slot_mark_other _ _ same] at before
  | stop => exact busy
  | broken _ ih => exact ih busy
  | quiet _ ih => exact ih busy
  | caught _ ih => exact ih busy
  | lost _ ih => exact ih busy
  | loop n _ _ _ ih => exact ih busy
  | kept => exact busy
  | reentered => exact busy
  | missing => exact busy
  | session _ ih => exact ih busy

theorem Eval.Traced.quiescent (h : x.Traced σ es y) (quiescent : σ.Quiescent) :
    (left y).Quiescent := by
  intro d busy
  exact quiescent d (h.busy_before busy)

theorem Incident.History.quiescent (h : History σ es τ) (quiescent : σ.Quiescent) :
    τ.Quiescent := by
  induction h with
  | start => exact quiescent
  | next _ traced ih => exact traced.quiescent ih

theorem Incident.History.disciplined (h : History σ es τ) (quiescent : σ.Quiescent) :
    Disciplined σ es τ :=
  h.leads.disciplined quiescent (h.quiescent quiescent)

theorem Incident.History.has (h : History σ es τ) {a : d.Content} (has : Has σ es d a) :
    τ.slot d = .known a :=
  (h.leads.known_iff a).mpr has

/-- What a request for a part that is there comes to: its value if that is known, and otherwise what
its function comes to. -/
theorem comes_request {y : EStateM.Result Stop (Store W) d.Content}
    (run : (Eval.force d).Comes τ y) (quiescent : τ.Quiescent) :
    (∃ x a, τ.part? d = some ⟨x, .known a⟩ ∧ y = .ok a τ) ∨
      (∃ x z es, τ.part? d = some ⟨x, .unset⟩ ∧ x.Traced (τ.mark d .busy) es z ∧
        y = d.settle z) ∨
      τ.part? d = none ∧ ((∀ i, d ≠ .session i) → y = .error .dangling τ) := by
  cases found : τ.part? d with
  | none =>
    refine .inr (.inr ⟨rfl, fun hd => ?_⟩)
    exact run.unique (Eval.Traced.missing found hd).comes
  | some m =>
    obtain ⟨x, slot⟩ := m
    cases slot with
    | busy => exact absurd (Store.slot_of_part found) (quiescent d)
    | known a =>
      left
      exact ⟨x, a, rfl, run.unique (Eval.Traced.kept found).comes⟩
    | unset =>
      right
      left
      obtain ⟨z, inner, same⟩ := (comes_force_iff found).mp run
      obtain ⟨es, traced⟩ := (Store.regular_part found).traced inner
      exact ⟨x, z, es, rfl, traced, same⟩

end

/-- Deferred parts are asked for one after another, and each request comes to an end; the functions
of the parts ask for parts, let faults through and catch them as they like. Then the whole history
keeps to the rules of `Incident.Disciplined`. A value that has been found is the answer to each
later request, and nothing else happens then. What a request gives is the value of its part from
then on, and after a fault nothing is known of the part. -/
theorem deferred_parts_are_disciplined {σ τ : Store W} {es : List Incident}
    (quiescent : σ.Quiescent) (history : Incident.History σ es τ) :
    Incident.Disciplined σ es τ ∧
      ∀ (d : Deferred) (y : EStateM.Result Stop (Store W) d.Content),
        (Eval.force d).Comes τ y → ∃ es', (Eval.force d).Traced τ es' y ∧
          Incident.Disciplined σ (es ++ es') (left y) ∧
          (∀ a, Incident.Has σ es d a → y = .ok a τ ∧ es' = [.kept d a]) ∧
          (∀ a υ, y = .ok a υ → (∀ i, d ≠ .session i) → υ.slot d = .known a) ∧
          ∀ e υ, y = .error e υ → υ.slot d = .unset := by
  refine ⟨history.disciplined quiescent, ?_⟩
  intro d y run
  have none_has (h : τ.slot d = .unset) (a : d.Content) : ¬Incident.Has σ es d a := by
    intro has
    cases h.symm.trans (history.has has)
  rcases comes_request run (history.quiescent quiescent) with
    ⟨x, a, found, rfl⟩ | ⟨x, z, inner, found, traced, rfl⟩ | ⟨missing, fails⟩
  -- The part is known, so the request only reads it.
  · have known := Store.slot_of_part found
    have traced : (Eval.force d).Traced τ [.kept d a] (.ok a τ) := .kept found
    refine ⟨_, traced, (history.next traced).disciplined quiescent, ?_, ?_, ?_⟩
    · intro b has
      obtain rfl : a = b := Slot.known.inj (known.symm.trans (history.has has))
      exact ⟨rfl, rfl⟩
    · intro b υ same _
      cases same
      exact known
    · intro e υ same
      cases same
  -- The part is computed by this request.
  · have request := Eval.Traced.computed found traced
    have noted := slot_settle found traced
    refine ⟨_, request, (history.next request).disciplined quiescent, ?_, ?_, ?_⟩
    · intro a has
      exact absurd has (none_has (Store.slot_of_part found) a)
    · intro a υ same _
      cases z <;> cases same
      exact noted
    · intro e υ same
      cases z <;> cases same
      exact noted
  -- There is no such part on a shelf; only a session can be asked for nevertheless.
  · have unset : τ.slot d = .unset := by simp [Store.slot, missing]
    obtain ⟨es', traced⟩ := (Regular.force d).traced run
    refine ⟨es', traced, (history.next traced).disciplined quiescent, ?_, ?_, ?_⟩
    · intro a has
      exact absurd has (none_has unset a)
    · intro a υ same hd
      cases same.symm.trans (fails hd)
    · intro e υ same
      cases d with
      | session i => rfl
      | _ =>
        cases same.symm.trans (fails (by simp))
        exact unset

/-- The first result asks for the second one, whatever becomes of that, and then gives the third
one. The second result asks for the first one. -/
def entangledStore : Store Unit :=
  { Store.initial () fun _ w => w with
    results := #[⟨.result ⟨1⟩ fun _ => .result ⟨2⟩ .ofExcept, .unset⟩,
      ⟨.result ⟨0⟩ .ofExcept, .unset⟩, ⟨.done (.int 7), .unset⟩] }

/-- What occurs when the first result is asked for. -/
def entangledIncidents : List Incident :=
  [.called (.result ⟨0⟩), .called (.result ⟨1⟩), .reentered (.result ⟨0⟩),
    .failed (.result ⟨1⟩) (.raised .reentrant), .called (.result ⟨2⟩),
    .returned (.result ⟨2⟩) (.int 7), .returned (.result ⟨0⟩) (.int 7)]

/-- The second result refuses while the first one is being computed. The first one goes on, and is
kept. -/
theorem deferred_parts_are_disciplined_entangled :
    entangledStore.Quiescent ∧ ∃ τ, Incident.History entangledStore entangledIncidents τ ∧
      Incident.Disciplined entangledStore entangledIncidents τ ∧
      τ.slot (.result ⟨1⟩) = .unset ∧
      ∃ es, Incident.Disciplined entangledStore (entangledIncidents ++ es) τ ∧
        es = [.kept (.result ⟨0⟩) (.int 7)] := by
  have quiescent : entangledStore.Quiescent := by
    intro d
    cases d with
    | result i =>
      obtain ⟨i⟩ := i
      match i with
      | 0 => simp [Store.slot, Store.part?, entangledStore]
      | 1 => simp [Store.slot, Store.part?, entangledStore]
      | 2 => simp [Store.slot, Store.part?, entangledStore]
      | i + 3 => simp [Store.slot, Store.part?, entangledStore]
    | _ => simp [Store.slot, Store.part?, entangledStore, Store.initial]
  let σ₁ := entangledStore.mark (.result ⟨0⟩) .busy
  let σ₂ := σ₁.mark (.result ⟨1⟩) .busy
  let σ₃ := σ₂.mark (.result ⟨1⟩) .unset
  let σ₄ := (σ₃.mark (.result ⟨2⟩) .busy).mark (.result ⟨2⟩) (.known (.int 7))
  have done (σ : Store Unit) :
      (pure (Value.int 7) : Eval Unit Value).Traced σ [] (.ok (.int 7) σ) :=
    .change (fun σ => (Value.int 7, σ)) σ (fun _ _ => rfl) .refl
  have refused : (Eval.force (.result ⟨0⟩)).Traced σ₂ _ _ := .reentered rfl
  have second : (Eval.force (.result ⟨1⟩)).Traced σ₁ _ (.error (.raised .reentrant) σ₃) :=
    .computed rfl (.bind (.caught refused) (.stop (.raised .reentrant) _ (by simp)))
  have third : (Eval.force (.result ⟨2⟩)).Traced σ₃ _ (.ok (.int 7) σ₄) :=
    Eval.Traced.computed (d := .result ⟨2⟩) rfl (done _)
  have first : (Eval.force (.result ⟨0⟩)).Traced entangledStore _ _ :=
    .computed rfl (.bind (.caught second) (.bind (.quiet third) (done _)))
  have history : Incident.History entangledStore entangledIncidents _ := .next .start first
  obtain ⟨rules, answers⟩ := deferred_parts_are_disciplined quiescent history
  refine ⟨quiescent, _, history, rules, rfl, ?_⟩
  have returned : Incident.Has entangledStore entangledIncidents (.result ⟨0⟩) (.int 7) :=
    .inr (by simp [entangledIncidents])
  obtain ⟨x, there⟩ := Store.part_of_slot (history.has returned) (by simp)
  obtain ⟨es, _, rules', has, _⟩ := answers _ _ (Eval.Traced.kept there).comes
  exact ⟨es, rules', (has (.int 7) returned).2⟩

end ResumableParsing
