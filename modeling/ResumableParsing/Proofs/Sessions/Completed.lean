import ResumableParsing.Proofs.Sessions.Handling
import ResumableParsing.Proofs.Stream.Questions

/-!
# Chunks for complete sessions

A complete session is given back whatever chunk is fed to it. An enforced chunk is not even looked
at. An ordinary one is looked at first, to see whether it is empty, so an iterator is asked for one
element, and what it raises is raised.

* `Source.look`: the look at a chunk
* `SessionId.provide_of_isDone`: all that is done with a chunk for a complete session
* `IteratorId.comes_look`: a look at what an iterator gives asks it once
* `complete_sessions_look_at_chunks`: what becomes of the session and of the chunk
* `complete_session_takes_element`: an element that is taken
-/

namespace ResumableParsing

variable {W : Type}

/-! ## Looking at a chunk -/

/-- Looks whether there is anything in a chunk. -/
def Source.look (chunk : Source) : Eval W Bool := do (← chunk.asStream).isEmpty

namespace IteratorId

variable {it : IteratorId} {answer : Nat → W → Pull × W} {asked : Nat} {σ τ : Store W}

/-- The iterator has been asked once, and has left the world like this. Its answer is kept in a new
cell, and nothing else has changed. -/
structure AskedOnce (it : IteratorId) (w : W) (σ τ : Store W) : Prop where
  /-- The iterator has one question behind it. -/
  iterators : τ.iterators = σ.iterators.modify it.index Iterator.moved
  /-- Cells have been made. -/
  cells : σ.cells.size < τ.cells.size
  /-- The world is as the answer has left it, and the rest is as it was. -/
  rest : τ = { σ with world := w, iterators := τ.iterators, cells := τ.cells }

/-- What an iterator does with its next question, if the caller answers. -/
theorem comes_next_answer (found : σ.iterators[it.index]? = some (.caller answer asked)) :
    it.next.Comes σ (
      let τ := { σ with
        iterators := σ.iterators.modify it.index Iterator.moved
        world := (answer asked σ.world).2 }
      match (answer asked σ.world).1 with
      | .item v => .ok (some v) τ
      | .finished => .ok none τ
      | .failed f => .error (.raised f) τ) := by
  refine comes_of_forall (fun n => ?_) ?_
  · simp only [Eval.exec, IteratorId.next, IteratorId.alter, Eval.run_bind, Eval.run_get, found,
      Eval.deref_some, Eval.run_pure, Eval.run_modify, Eval.run_modifyGet]
    cases (answer asked σ.world).1 <;> rfl
  · rintro ⟨τ, h⟩
    cases e : (answer asked σ.world).1 <;> rw [e] at h <;> cases h

/-- A look at an iterator takes one element, or raises what the iterator raises. -/
theorem comes_look (found : σ.iterators[it.index]? = some (.caller answer asked)) :
    ∃ τ, it.AskedOnce (answer asked σ.world).2 σ τ ∧
      (Source.iterator it).look.Comes σ (match (answer asked σ.world).1 with
        | .item _ => .ok false τ
        | .finished => .ok true τ
        | .failed f => .error (.raised f) τ) := by
  -- The stream over the iterator has one cell, which the answer fills.
  let c : CellId := ⟨σ.cells.size⟩
  let υ : Store W := { σ with cells := σ.cells.push ⟨it, .unset⟩ }
  have unset : c.Is υ it .unset := Array.getElem?_push_size
  have next := comes_next_answer (σ := c.busy υ) found
  rw [show (c.busy υ).world = σ.world from rfl] at next
  have made := comes_newCell it σ
  rcases answered : answer asked σ.world with ⟨_ | v | f, w⟩
  all_goals
    simp only [answered] at next
    have force := Shelf.comes_get_unset (force_cell c) unset (comes_pull next)
  case finished =>
    refine ⟨_, ?_, comes_bind_ok made (comes_bind_ok force (comes_pure _ _))⟩
    exact ⟨rfl, by simp [Shelf.cells, Memo.putSlot, CellId.busy, υ], rfl⟩
  case item =>
    refine ⟨_, ?_, comes_bind_ok made (comes_bind_ok force (comes_pure _ _))⟩
    refine ⟨rfl, ?_, rfl⟩
    simp only [Shelf.cells, Memo.putSlot, CellId.busy, υ, Array.size_modify, Array.size_push]
    omega
  case failed =>
    refine ⟨_, ?_, comes_bind_ok made (comes_bind_error force)⟩
    exact ⟨rfl, by simp [Shelf.cells, Memo.putSlot, CellId.busy, υ], rfl⟩

end IteratorId

/-! ## Complete sessions -/

namespace SessionId

variable {σ : Store W} {i : SessionId} {s : Session W} {n : Nat}

/-- A chunk for a complete session is looked at, and the session is given back. -/
theorem provide_of_isDone (hi : σ.sessions[i.index]? = some s) (hd : s.isDone = true)
    (chunk : Source) :
    (i.provide chunk).exec n σ = (do let _ ← chunk.look; return i : Eval W SessionId).exec n σ := by
  have looked : i.provide chunk = (do
      let c ← chunk.asStream
      let empty ← c.isEmpty
      if empty then return i else i.forceProvide (.stream c) : Eval W SessionId) := rfl
  rw [looked, Source.look, bind_assoc, Eval.exec, Eval.exec]
  cases hc : chunk.asStream (.within n) σ with
  | error e τ => simp only [Eval.run_bind, hc]
  | ok c τ =>
    cases he : c.isEmpty (.within n) τ with
    | error e υ => simp only [Eval.run_bind, hc, he]
    | ok empty υ =>
      have grows : σ.Grows υ :=
        ((composed_asStream chunk).grows_of_ok hc).trans ((composed_isEmpty c).grows_of_ok he)
      have same := forceProvide_complete (.stream c) (grows.sessions _ _ hi) hd (.within n)
      cases empty <;> simp [Eval.run_bind, hc, he, same]

/-- Whatever a look at the chunk comes to, the chunk for a complete session comes to as well. -/
theorem comes_provide_of_isDone (hi : σ.sessions[i.index]? = some s) (hd : s.isDone = true)
    {chunk : Source} {y : EStateM.Result Stop (Store W) SessionId}
    (h : (do let _ ← chunk.look; return i : Eval W SessionId).Comes σ y) :
    (i.provide chunk).Comes σ y := by
  obtain ⟨hy, n, h⟩ := h
  exact ⟨hy, n, fun n' hn => (provide_of_isDone hi hd chunk).trans (h n' hn)⟩

/-- How a complete session treats chunks. -/
structure TreatsChunks (i : SessionId) (σ : Store W) : Prop where
  /-- An enforced chunk is left alone, and so is everything else. -/
  forced : ∀ chunk n, (i.forceProvide chunk).exec n σ = .ok i σ
  /-- An ordinary chunk is looked at, and nothing else is done. -/
  looks : ∀ chunk n, (i.provide chunk).exec n σ =
    (do let _ ← chunk.look; return i : Eval W SessionId).exec n σ
  /-- So an iterator is asked once: an element is taken, or what the iterator raises is raised. -/
  asks : ∀ (it : IteratorId) (answer : Nat → W → Pull × W) (asked : Nat),
    σ.iterators[it.index]? = some (.caller answer asked) →
    ∃ τ, it.AskedOnce (answer asked σ.world).2 σ τ ∧
      (i.provide (.iterator it)).Comes σ (match (answer asked σ.world).1 with
        | .failed f => .error (.raised f) τ
        | _ => .ok i τ)
  /-- Nothing, finished sequences and streams whose first cell is there lose nothing. -/
  keeps : ∀ chunk, (∀ it, chunk ≠ .iterator it) → (∀ c, chunk ≠ .stream (.pulled c)) →
    ∃ serial, (i.provide chunk).Comes σ (.ok i { σ with nextSerial := serial })

end SessionId

/-- A look at a chunk that no iterator stands behind makes a handle at most. -/
theorem Source.comes_look {chunk : Source} {σ : Store W} (own : ∀ it, chunk ≠ .iterator it)
    (there : ∀ c, chunk ≠ .stream (.pulled c)) :
    ∃ empty serial, chunk.look.Comes σ (.ok empty { σ with nextSerial := serial }) := by
  match chunk with
  | .none => exact ⟨_, _, comes_pure true σ⟩
  | .sequence q => exact ⟨_, _, comes_of_forall (fun _ => rfl) not_exhausted_ok⟩
  | .iterator it => exact absurd rfl (own it)
  | .stream .nil => exact ⟨_, _, comes_pure true σ⟩
  | .stream (.cons ..) => exact ⟨_, _, comes_pure false σ⟩
  | .stream (.lazy ..) => exact ⟨_, _, comes_pure false σ⟩
  | .stream (.view q k _) => exact ⟨_, _, comes_pure (Stream.viewIsEmpty q k) σ⟩
  | .stream (.pulled c) => exact absurd rfl (there c)

/-- A complete session is given back for every chunk. An enforced chunk is left alone. An ordinary
one is looked at all the same, so an element of an iterator is lost, or its error raised. -/
theorem complete_sessions_look_at_chunks {σ : Store W} {i : SessionId} {s : Session W}
    (hi : σ.sessions[i.index]? = some s) (hd : s.isDone = true) : i.TreatsChunks σ where
  forced chunk n := forceProvide_complete chunk hi hd (.within n)
  looks chunk n := SessionId.provide_of_isDone hi hd chunk
  asks it answer asked found := by
    obtain ⟨τ, once, look⟩ := it.comes_look found
    refine ⟨τ, once, SessionId.comes_provide_of_isDone hi hd ?_⟩
    cases answered : (answer asked σ.world).1 with
    | item | finished =>
      rw [answered] at look
      exact comes_bind_ok look (comes_pure i τ)
    | failed =>
      rw [answered] at look
      exact comes_bind_error look
  keeps chunk own there := by
    obtain ⟨empty, serial, look⟩ := Source.comes_look (σ := σ) own there
    exact ⟨serial, SessionId.comes_provide_of_isDone hi hd (comes_bind_ok look (comes_pure i _))⟩

/-- An endless iterator that has not been asked yet is asked by a session that is already complete.
-/
theorem complete_session_takes_element :
    let made := (Grammar.some fun _ => .done true : Grammar Unit).build
      (Store.initial () fun _ _ => ())
    let numbers (n : Nat) (_ : Unit) : Pull × Unit := (.item (.int n), ())
    ∃ i σ k τ υ, (made.1.startSession (.plain false .nil 0 .none) .value).exec 9 made.2 = .ok i σ ∧
      (i.forceProvide .none).exec 9 σ = .ok k τ ∧
      let it : IteratorId := ⟨τ.iterators.size⟩
      (k.provide (.iterator it)).Comes { τ with iterators := τ.iterators.push (.caller numbers 0) }
        (.ok k υ) ∧ υ.iterators[it.index]? = some (.caller numbers 1) := by
  intro made numbers
  -- The session is complete at once, without a token.
  have script : succeeded ((do
      let i ← made.1.startSession (.plain false .nil 0 .none) .value
      let k ← i.forceProvide .none
      unless (← k.session).isDone do Eval.fault .notAStream : Eval Unit Unit).exec 9 made.2) =
        true := by decide +kernel
  obtain ⟨_, _, script⟩ := exists_of_succeeded script
  obtain ⟨i, σ, started, script⟩ := ok_of_bind script
  obtain ⟨k, τ, forced, script⟩ := ok_of_bind script
  obtain ⟨s, hk, hd⟩ : ∃ s, τ.sessions[k.index]? = some s ∧ s.isDone = true := by
    cases hk : τ.sessions[k.index]? with
    | none => simp [SessionId.session, hk] at script
    | some s => cases hd : s.isDone <;> simp [SessionId.session, hk, hd] at script ⊢
  let it : IteratorId := ⟨τ.iterators.size⟩
  let τ' : Store Unit := { τ with iterators := τ.iterators.push (.caller numbers 0) }
  have fresh : τ'.iterators[it.index]? = some (.caller numbers 0) := Array.getElem?_push_size
  obtain ⟨υ, once, comes⟩ := (complete_sessions_look_at_chunks (σ := τ') hk hd).asks it _ _ fresh
  refine ⟨i, σ, k, τ, υ, started, forced, comes, ?_⟩
  rw [once.iterators, Array.getElem?_modify, if_pos rfl, fresh]
  rfl

end ResumableParsing
