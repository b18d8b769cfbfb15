import ResumableParsing.Proofs.Store.Comes
import ResumableParsing.Proofs.Stream.Known

/-!
# Questions to streams

A stream is asked whether there is anything, what comes first, and what follows. A deferred part
answers from what is known of it; otherwise it is computed, and the answer is kept, unless the
computation breaks off.

* `Stream.Question`, `Stream.ask`: the questions, and what is found
* `Stream.Next.comes`, `Stream.next_of_comes`: what is known is found, and what is found is known
* `comes_ask_known`, `comes_ask_unset`: a cell of a stream that is read from an iterator
* `Stream.Inquiry`, `Stream.Inquiry.walk`: a walk along a stream is a series of questions
-/

namespace ResumableParsing

variable {W : Type}

/-! ## Questions -/

namespace Stream

/-- The questions by which streams are read. -/
inductive Question where
  /-- Is there nothing? -/
  | isEmpty
  /-- What comes first? -/
  | first
  /-- What follows? -/
  | rest
deriving DecidableEq

/-- What is found. -/
inductive Finding where
  /-- Whether there is nothing. -/
  | empty (b : Bool)
  /-- The first element. -/
  | element (v : Value)
  /-- The rest. -/
  | onward (s : Stream Value)

/-- Asks a stream. -/
def ask : Question → Stream Value → Eval W Finding
  | .isEmpty, s => do return .empty (← s.isEmpty)
  | .first, s => do return .element (← s.first)
  | .rest, s => do return .onward (← s.rest)

/-- What is found at a cell with these contents. -/
def Question.found (q : Question) (o : Option (Value × Stream Value)) (σ : Store W) :
    EStateM.Result Stop (Store W) Finding :=
  match q, o with
  | .isEmpty, o => .ok (.empty o.isNone) σ
  | .first, some (v, _) => .ok (.element v) σ
  | .first, none => .error (.raised .emptyStream) σ
  | .rest, some (_, s) => .ok (.onward s) σ
  | .rest, none => .ok (.onward .nil) σ

/-- What is found at a cell with these contents, as a computation. -/
def Question.answer (q : Question) (o : Option (Value × Stream Value)) : Eval W Finding :=
  fun _ σ => q.found o σ

/-- The streams that somebody holds after asking: the rest is one of them. -/
def holds (held : List (Stream Value)) : EStateM.Result Stop (Store W) Finding → List (Stream Value)
  | .ok (.onward s) _ => s :: held
  | _ => held

/-- What is left of a stream behind its first `n` elements. -/
def rests : (n : Nat) → Stream Value → Eval W (Stream Value)
  | 0, s => return s
  | n + 1, s => do (← rests n s).rest

theorem composed_ask (q : Question) (s : Stream Value) : Composed (s.ask q : Eval W Finding) := by
  cases q with
  | isEmpty => exact .bind (composed_isEmpty s) fun _ => .pure _
  | first => exact .bind (composed_first s) fun _ => .pure _
  | rest => exact .bind (composed_rest s) fun _ => .pure _

theorem regular_rests (n : Nat) (s : Stream Value) :
    Regular (rests n s : Eval W (Stream Value)) := by
  induction n with
  | zero => exact .pure s
  | succ n ih => exact .bind ih fun t => regular_rest t

theorem Question.left_found (q : Question) (o : Option (Value × Stream Value)) (σ : Store W) :
    left (q.found o σ) = σ := by
  cases q with
  | isEmpty => rfl
  | first => rcases o with _ | ⟨v, s⟩ <;> rfl
  | rest => rcases o with _ | ⟨v, s⟩ <;> rfl

end Stream

/-! ## What is known -/

section

variable {σ τ : Store W} {s t : Stream Value} {v : Value}

theorem Stream.Vacant.comes (h : s.Vacant σ) : s.isEmpty.Comes σ (.ok true σ) :=
  (composed_isEmpty s).comes (n := 1) (isEmpty_of_vacant h) not_exhausted_ok

theorem Stream.Occupied.comes (h : s.Occupied σ) : s.isEmpty.Comes σ (.ok false σ) :=
  (composed_isEmpty s).comes (n := 1) (isEmpty_of_occupied h) not_exhausted_ok

theorem Stream.Head.comes (h : s.Head σ v) : s.first.Comes σ (.ok v σ) :=
  (composed_first s).comes (n := 1) (first_of_head h) not_exhausted_ok

theorem Stream.Next.comes (h : s.Next σ t) : s.rest.Comes σ (.ok t σ) :=
  (composed_rest s).comes (n := 1) (rest_of_next h) not_exhausted_ok

theorem Stream.vacant_of_comes (h : s.isEmpty.Comes σ (.ok true τ)) : s.Vacant τ := by
  obtain ⟨-, n, run⟩ := h
  exact known_of_isEmpty (run n (Nat.le_refl n))

theorem Stream.occupied_of_comes (h : s.isEmpty.Comes σ (.ok false τ)) : s.Occupied τ := by
  obtain ⟨-, n, run⟩ := h
  have known : if false then s.Vacant τ else s.Occupied τ :=
    known_of_isEmpty (run n (Nat.le_refl n))
  simpa using known

theorem Stream.head_of_comes (h : s.first.Comes σ (.ok v τ)) : s.Head τ v := by
  obtain ⟨-, n, run⟩ := h
  exact head_of_first (run n (Nat.le_refl n))

theorem Stream.next_of_comes (h : s.rest.Comes σ (.ok t τ)) : s.Next τ t := by
  obtain ⟨-, n, run⟩ := h
  exact next_of_rest (run n (Nat.le_refl n))

end

/-! ## Cells that are read from iterators -/

/-- The cell is filled from the iterator, and this is known of it. -/
def CellId.Is (c : CellId) (σ : Store W) (it : IteratorId)
    (slot : Slot (Option (Value × Stream Value))) : Prop :=
  σ.cells[c.index]? = some ⟨it, slot⟩

/-- The store while a cell is being filled. -/
def CellId.busy (c : CellId) (σ : Store W) : Store W := Shelf.cells.put c.index .busy σ

/-- What a question comes to at a cell whose iterator has answered: the element is kept, with the
stream of what comes after it, or the end is. Where the iterator has raised a fault, nothing is
kept. -/
def CellId.filled (c : CellId) (it : IteratorId) (q : Stream.Question) :
    EStateM.Result Stop (Store W) (Option Value) → EStateM.Result Stop (Store W) Stream.Finding
  | .ok (some v) σ =>
    let next : Stream Value := .pulled ⟨σ.cells.size⟩
    q.found (some (v, next)) (Shelf.cells.put c.index (.known (some (v, next)))
      { σ with cells := σ.cells.push ⟨it, .unset⟩ })
  | .ok none σ => q.found none (Shelf.cells.put c.index (.known none) σ)
  | .error e σ => .error e (Shelf.cells.put c.index .unset σ)

section

variable {σ : Store W} {c : CellId} {it : IteratorId} {o : Option (Value × Stream Value)}
  {q : Stream.Question} {y : EStateM.Result Stop (Store W) Stream.Finding}
  {z : EStateM.Result Stop (Store W) (Option Value)}

theorem not_exhausted_found : ¬Exhausted (q.found o σ) := by
  rintro ⟨τ, h⟩
  cases q with
  | isEmpty => cases h
  | first => rcases o with _ | ⟨v, s⟩ <;> cases h
  | rest => rcases o with _ | ⟨v, s⟩ <;> cases h

/-- A cell is asked by looking at its contents. -/
theorem ask_pulled (q : Stream.Question) (c : CellId) :
    (Stream.pulled c).ask q = (Eval.force (.cell c) : Eval W _) >>= q.answer := by
  cases q with
  | isEmpty =>
    simp only [Stream.ask, Stream.isEmpty, bind_assoc, pure_bind]
    rfl
  | first =>
    simp only [Stream.ask, Stream.first, bind_assoc]
    refine congrArg _ (funext fun o => ?_)
    rcases o with _ | ⟨v, s⟩ <;> rfl
  | rest =>
    simp only [Stream.ask, Stream.rest, bind_assoc]
    refine congrArg _ (funext fun o => ?_)
    rcases o with _ | ⟨v, s⟩ <;> rfl

theorem Stream.Question.comes_answer : (q.answer o).Comes σ (q.found o σ) :=
  comes_of_forall (fun _ => rfl) not_exhausted_found

/-- A cell whose contents are known answers, and nothing changes. -/
theorem comes_ask_known (h : c.Is σ it (.known o)) :
    ((Stream.pulled c).ask q).Comes σ (q.found o σ) := by
  rw [ask_pulled]
  exact comes_bind_ok (Shelf.comes_get_known (force_cell c) h) q.comes_answer

/-- A new cell. -/
theorem comes_newCell (it : IteratorId) (σ : Store W) : (Stream.ofIterator it : Eval W _).Comes σ
    (.ok (.pulled ⟨σ.cells.size⟩) { σ with cells := σ.cells.push ⟨it, .unset⟩ }) :=
  comes_of_forall (fun _ => rfl) not_exhausted_ok

/-- What the next cell of an iterator comes to, once it has answered. -/
theorem comes_pull (hz : it.next.Comes σ z) : it.pull.Comes σ (match z with
    | .ok (some v) τ => .ok (some (v, .pulled ⟨τ.cells.size⟩))
        { τ with cells := τ.cells.push ⟨it, .unset⟩ }
    | .ok none τ => .ok none τ
    | .error e τ => .error e τ) := by
  cases z with
  | ok o τ =>
    cases o with
    | none => exact comes_bind_ok hz (comes_pure _ τ)
    | some v =>
      exact comes_bind_ok hz (comes_bind_ok (comes_newCell it τ) (comes_pure _ _))
  | error e τ => exact comes_bind_error hz

/-- A cell of which nothing is known asks its iterator, once. -/
theorem comes_ask_unset (h : c.Is σ it .unset) :
    ((Stream.pulled c).ask q).Comes σ y ↔
      ∃ z, it.next.Comes (c.busy σ) z ∧ y = c.filled it q z := by
  have answers {z : EStateM.Result Stop (Store W) (Option Value)}
      (hz : it.next.Comes (c.busy σ) z) : ((Stream.pulled c).ask q).Comes σ (c.filled it q z) := by
    have force := Shelf.comes_get_unset (force_cell c) h (comes_pull hz)
    rw [ask_pulled]
    rcases z with ⟨_ | v, τ⟩ | ⟨e, τ⟩
    · exact comes_bind_ok force q.comes_answer
    · exact comes_bind_ok force q.comes_answer
    · exact comes_bind_error force
  constructor
  · intro run
    -- The question has an outcome, so the iterator has given one.
    have pulled : ∃ z, it.next.Comes (c.busy σ) z := by
      rw [ask_pulled] at run
      obtain ⟨z, force⟩ := run.first_of_bind (.force _)
      obtain ⟨z', pull, -⟩ := Shelf.of_comes_get (force_cell c) (composed_pull it) h force
      exact pull.first_of_bind (composed_next it)
    obtain ⟨z, hz⟩ := pulled
    exact ⟨z, hz, run.unique (answers hz)⟩
  · rintro ⟨z, hz, rfl⟩
    exact answers hz

/-- An empty stream answers like a cell at the end. -/
theorem comes_ask_nil : (Stream.nil.ask q).Comes σ (q.found none σ) := by
  cases q with
  | isEmpty => exact comes_bind_ok (comes_pure true σ) (comes_pure _ σ)
  | first => exact comes_bind_error (comes_fault _ σ)
  | rest => exact comes_bind_ok (comes_pure _ σ) (comes_pure _ σ)

end

/-! ## Walks -/

/-- Questions are asked one after another, each to a stream that is held by then. -/
inductive Stream.Inquiry : List (Stream Value) → Store W → List (Stream Value) → Store W →
  Prop where
  | done (held : List (Stream Value)) (σ : Store W) : Inquiry held σ held σ
  | ask {held held' : List (Stream Value)} {σ σ' : Store W} {s : Stream Value} {q : Stream.Question}
      {y : EStateM.Result Stop (Store W) Stream.Finding} : s ∈ held → (s.ask q).Comes σ y →
      Inquiry (Stream.holds held y) (left y) held' σ' → Inquiry held σ held' σ'

/-- What a computation comes to whose faults are caught, it comes to by itself. -/
theorem Eval.Comes.of_catching {x : Eval W α} {σ : Store W}
    {y : EStateM.Result Stop (Store W) (Except Fault α)} (hx : Composed x)
    (h : (Eval.catching x).Comes σ y) : ∃ z, x.Comes σ z ∧ left z = left y ∧
      ∀ a τ, y = .ok (.ok a) τ → z = .ok a τ := by
  obtain ⟨he, n, h⟩ := h
  have run := h n (Nat.le_refl n)
  rw [Eval.exec, Eval.catching] at run
  refine ⟨x.exec n σ, hx.comes rfl ?_, ?_, ?_⟩
  · rintro ⟨τ, e⟩
    rw [show x (.within n) σ = _ from e] at run
    exact he ⟨τ, run.symm⟩
  · rw [← run, Eval.exec]
    cases x (.within n) σ with
    | ok a τ => rfl
    | error e τ => cases e <;> rfl
  · rintro a τ rfl
    rw [Eval.exec]
    cases e : x (.within n) σ with
    | ok b υ =>
      rw [e] at run
      cases run
      rfl
    | error f υ =>
      rw [e] at run
      cases f <;> cases run

section

variable {held : List (Stream Value)} {σ τ : Store W} {s : Stream Value} {v : Value}

theorem Stream.Inquiry.trans {held₁ held₂ : List (Stream Value)} {σ₁ σ₂ : Store W}
    (h : Inquiry held σ held₁ σ₁) (h' : Inquiry held₁ σ₁ held₂ σ₂) : Inquiry held σ held₂ σ₂ := by
  induction h with
  | done => exact h'
  | ask hs run _ ih => exact .ask hs run (ih h')

/-- One question. -/
theorem Stream.Inquiry.single {q : Stream.Question}
    {y : EStateM.Result Stop (Store W) Stream.Finding} (hs : s ∈ held) (h : (s.ask q).Comes σ y) :
    Inquiry held σ (Stream.holds held y) (left y) := .ask hs h (.done _ _)

theorem Stream.Inquiry.isEmpty {y : EStateM.Result Stop (Store W) (Except Fault Bool)}
    (hs : s ∈ held) (h : (Eval.catching s.isEmpty).Comes σ y) : Inquiry held σ held (left y) := by
  obtain ⟨z, asked, same, -⟩ := h.of_catching (composed_isEmpty s)
  rw [← same]
  cases z with
  | ok b τ => exact single (q := .isEmpty) hs (comes_bind_ok asked (comes_pure _ τ))
  | error e τ => exact single (q := .isEmpty) hs (comes_bind_error asked)

theorem Stream.Inquiry.first {y : EStateM.Result Stop (Store W) (Except Fault Value)}
    (hs : s ∈ held) (h : (Eval.catching s.first).Comes σ y) : Inquiry held σ held (left y) := by
  obtain ⟨z, asked, same, -⟩ := h.of_catching (composed_first s)
  rw [← same]
  cases z with
  | ok v τ => exact single (q := .first) hs (comes_bind_ok asked (comes_pure _ τ))
  | error e τ => exact single (q := .first) hs (comes_bind_error asked)

theorem Stream.Inquiry.rest {y : EStateM.Result Stop (Store W) (Except Fault (Stream Value))}
    (hs : s ∈ held) (h : (Eval.catching s.rest).Comes σ y) :
    ∃ held', Inquiry held σ held' (left y) ∧ ∀ t τ, y = .ok (.ok t) τ → t ∈ held' := by
  obtain ⟨z, asked, same, value⟩ := h.of_catching (composed_rest s)
  rw [← same]
  cases z with
  | ok t τ =>
    refine ⟨_, single (q := .rest) hs (comes_bind_ok asked (comes_pure _ τ)), ?_⟩
    rintro t' τ' rfl
    cases value t' τ' rfl
    exact List.mem_cons_self
  | error e τ =>
    refine ⟨_, single (q := .rest) hs (comes_bind_error asked), ?_⟩
    rintro t' τ' rfl
    cases value t' τ' rfl

/-- A walk along a stream that is held asks questions only, each of a stream that has been found by
then. -/
theorem Stream.Inquiry.walk {n : Nat} {done : List Value}
    {y : EStateM.Result Stop (Store W) Stream.Walk} (hs : s ∈ held)
    (h : (s.walkFrom n done).Comes σ y) : ∃ held', Inquiry held σ held' (left y) := by
  induction n generalizing held σ s done with
  | zero =>
    rw [walkFrom] at h
    rcases h.of_bind (.catching (composed_isEmpty s)) with ⟨b, σ₁, asked, rest⟩ |
      ⟨e, σ₁, asked, rfl⟩
    · have begun := Inquiry.isEmpty hs asked
      cases b with
      | ok _ | error _ =>
        cases rest.unique (comes_pure _ σ₁)
        exact ⟨held, begun⟩
    · exact ⟨held, Inquiry.isEmpty hs asked⟩
  | succ n ih =>
    rw [walkFrom] at h
    rcases h.of_bind (.catching (composed_isEmpty s)) with ⟨b, σ₁, asked, rest⟩ |
      ⟨e, σ₁, asked, rfl⟩
    · have begun := Inquiry.isEmpty hs asked
      rcases b with f | _ | _
      · cases rest.unique (comes_pure _ σ₁)
        exact ⟨held, begun⟩
      · -- There is an element, so the walk goes on.
        rcases rest.of_bind (.catching (composed_first s)) with
          ⟨v, σ₂, asked, rest⟩ | ⟨e, σ₂, asked, rfl⟩
        · have onward := begun.trans (Inquiry.first hs asked)
          cases v with
          | error f =>
            cases rest.unique (comes_pure _ σ₂)
            exact ⟨held, onward⟩
          | ok v =>
            rcases rest.of_bind (.catching (composed_rest s)) with
              ⟨t, σ₃, asked, rest⟩ | ⟨e, σ₃, asked, rfl⟩
            · obtain ⟨held₁, found, got⟩ := Inquiry.rest hs asked
              cases t with
              | error f =>
                cases rest.unique (comes_pure _ σ₃)
                exact ⟨held₁, onward.trans found⟩
              | ok t =>
                obtain ⟨held₂, walk⟩ := ih (got t σ₃ rfl) rest
                exact ⟨held₂, (onward.trans found).trans walk⟩
            · obtain ⟨held₁, found, -⟩ := Inquiry.rest hs asked
              exact ⟨held₁, onward.trans found⟩
        · exact ⟨held, begun.trans (Inquiry.first hs asked)⟩
      · cases rest.unique (comes_pure _ σ₁)
        exact ⟨held, begun⟩
    · exact ⟨held, Inquiry.isEmpty hs asked⟩

end

end ResumableParsing
