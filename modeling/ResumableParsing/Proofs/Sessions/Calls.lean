import ResumableParsing.Proofs.Sessions.Drives

/-!
# Histories of calls

Sessions are started, get chunks and are finished in any order, and each of them as often as one
likes. Calls may raise faults. The book stays true all the while.

* `Store.Opens`: a store before the first session
* `Call`, `Calls`: the stores that calls lead to, and the sessions that they have given so far
* `Calls.holds`: the book is true
-/

namespace ResumableParsing

variable {W : Type}

/-- No session has been started. Tails that are parses start from plain states, and nothing is being
computed. -/
structure Store.Opens (R : Reach → Prop) (P : ParserId → Prop) (σ : Store W) : Prop where
  /-- The parsers only start one another. -/
  closed : Closed R P σ
  /-- Tails leave states inside chunks alone. -/
  tails : ∀ (i : Nat) (x : Memo (Tail W) (Option (Stream Value))), σ.tails[i]? = some x →
    x.thunk.On R ⟨P, fun _ => none⟩
  /-- No result is being computed. -/
  results : ∀ (i : Nat) (x : Memo (Action W Value) Value), σ.results[i]? = some x →
    x.slot ≠ .busy
  /-- There are no sessions. -/
  sessions : σ.sessions = #[]

/-- A grammar of the library is built, and nothing else has been done. -/
theorem Grammar.Library.opens {R : Reach → Prop} {g : Grammar W}
    (h : g.Library R fun p => p = .finished) (world : W) (watch : Value → W → W) :
    ∃ P, (g.build (.initial world watch)).2.Opens R P ∧ P (g.build (.initial world watch)).1 := by
  obtain ⟨P, -, hP, hp⟩ := h.scoped _ (closed_initial world watch)
  have frame := g.build_grows.frame (.initial world watch)
  refine ⟨P, ⟨hP, fun i x hx => ?_, fun i x hx => ?_, ?_⟩, hp⟩
  · rw [frame] at hx
    cases hx
  · rw [frame] at hx
    cases hx
  · rw [frame]
    rfl

/-- A session that has been obtained, and how its parse has been started. -/
structure Obtained (W : Type) where
  /-- The session. -/
  session : SessionId
  /-- The parser. -/
  parser : ParserId
  /-- The state that the parse starts in. -/
  start : State Value
  /-- What is done with the end of the parse. -/
  handlers : Handlers W

/-- The sessions that have been obtained, after a call that may give another one. -/
def enlist (given : SessionId → Obtained W) (pool : List (Obtained W)) :
    EStateM.Result Stop (Store W) SessionId → List (Obtained W)
  | .ok j _ => given j :: pool
  | .error .. => pool

theorem mem_enlist {given : SessionId → Obtained W} {pool : List (Obtained W)}
    {y : EStateM.Result Stop (Store W) SessionId} {x : Obtained W} (h : x ∈ enlist given pool y) :
    x ∈ pool ∨ ∃ j τ, y = .ok j τ ∧ x = given j := by
  cases y with
  | error e τ => exact .inl h
  | ok j τ =>
    rcases List.mem_cons.mp h with h | h
    · exact .inr ⟨j, τ, rfl, h⟩
    · exact .inl h

/-- `Call P pool σ pool' τ`: a call on a session of the pool leads from the store `σ` to `τ`, and to
a larger pool if it gives another session. A call that breaks off leaves what it has changed. -/
inductive Call (P : ParserId → Prop) (pool : List (Obtained W)) (σ : Store W) :
    List (Obtained W) → Store W → Prop where
  /-- A session is started from a plain state. -/
  | start {p : ParserId} (n : Nat) (input : Stream Value) (position : Int) (user : Value)
      (handlers : Handlers W) : P p →
      Call P pool σ
        (enlist (⟨·, p, .plain false input position user, handlers⟩) pool
          ((p.startSession (.plain false input position user) handlers).exec n σ))
        (left ((p.startSession (.plain false input position user) handlers).exec n σ))
  /-- A session gets a chunk, unless that is empty. -/
  | provide {x : Obtained W} (n : Nat) (source : Source) : x ∈ pool →
      Call P pool σ
        (enlist (fun j => { x with session := j }) pool ((x.session.provide source).exec n σ))
        (left ((x.session.provide source).exec n σ))
  /-- A session gets a chunk. -/
  | force {x : Obtained W} (n : Nat) (source : Source) : x ∈ pool →
      Call P pool σ
        (enlist (fun j => { x with session := j }) pool ((x.session.forceProvide source).exec n σ))
        (left ((x.session.forceProvide source).exec n σ))
  /-- A session is finished. -/
  | finish {x : Obtained W} (n : Nat) : x ∈ pool →
      Call P pool σ pool (left (x.session.finish.exec n σ))
  /-- The caller does something else. -/
  | act (n : Nat) (a : Action W Unit) : Call P pool σ pool (left (a.run.exec n σ))

/-- Any number of calls, one after the other. -/
inductive Calls (P : ParserId → Prop) (pool₀ : List (Obtained W)) (σ₀ : Store W) :
    List (Obtained W) → Store W → Prop where
  /-- No call. -/
  | none : Calls P pool₀ σ₀ pool₀ σ₀
  /-- One more call. -/
  | more {pool pool' : List (Obtained W)} {σ τ : Store W} :
      Calls P pool₀ σ₀ pool σ → Call P pool σ pool' τ → Calls P pool₀ σ₀ pool' τ

section

variable {R : Reach → Prop} {P : ParserId → Prop} {σ₀ σ τ : Store W}
  {pool₀ pool pool' : List (Obtained W)} {x : Obtained W} {p : ParserId} {j : SessionId}
  {input : Stream Value} {position : Int} {user : Value} {handlers : Handlers W} {source : Source}
  {n : Nat}

theorem Calls.trans (calls : Calls P pool₀ σ₀ pool σ) (later : Calls P pool σ pool' τ) :
    Calls P pool₀ σ₀ pool' τ := by
  induction later with
  | none => exact calls
  | more _ call ih => exact ih.more call

/-! ## Calls that succeed -/

theorem Calls.started (calls : Calls P pool₀ σ₀ pool σ) (hp : P p)
    (e : (p.startSession (.plain false input position user) handlers).exec n σ = .ok j τ) :
    Calls P pool₀ σ₀ (⟨j, p, .plain false input position user, handlers⟩ :: pool) τ := by
  have h := calls.more (.start n input position user handlers hp)
  rw [e] at h
  exact h

theorem Calls.provided (calls : Calls P pool₀ σ₀ pool σ) (hx : x ∈ pool)
    (e : (x.session.provide source).exec n σ = .ok j τ) :
    Calls P pool₀ σ₀ ({ x with session := j } :: pool) τ := by
  have h := calls.more (.provide n source hx)
  rw [e] at h
  exact h

theorem Calls.forced (calls : Calls P pool₀ σ₀ pool σ) (hx : x ∈ pool)
    (e : (x.session.forceProvide source).exec n σ = .ok j τ) :
    Calls P pool₀ σ₀ ({ x with session := j } :: pool) τ := by
  have h := calls.more (.force n source hx)
  rw [e] at h
  exact h

/-! ## Growth -/

theorem composed_newHistory : Composed (History.empty : Eval W History) := by
  refine .modifyGet fun σ => { Store.Adds.refl σ with buffers := fun i b hb => ?_ }
  exact ⟨b, getElem?_push_of_eq_some hb _, List.prefix_refl _⟩

theorem composed_startSession (p : ParserId) (s : State Value) (handlers : Handlers W) :
    Composed (p.startSession s handlers) :=
  .bind composed_newHistory fun _ => .bind (composed_makeSession _) fun j => composed_provide _ j

theorem Call.grows (call : Call P pool σ pool' τ) : σ.Grows τ := by
  cases call with
  | start n input position user handlers _ =>
    exact (composed_startSession _ _ handlers).grows_within n σ
  | provide n source _ => exact (composed_provide source _).grows_within n σ
  | force n source _ => exact (composed_forceProvide source _).grows_within n σ
  | finish n _ => exact (composed_finish _).grows_within n σ
  | act n a => exact (composed_action a).grows_within n σ

/-- What is known stays known, whatever calls are made. -/
theorem Calls.grows (calls : Calls P pool₀ σ₀ pool σ) : σ₀.Grows σ := by
  induction calls with
  | none => exact .refl _
  | more _ call ih => exact ih.trans call.grows

/-! ## The book between two calls -/

theorem Store.Opens.holds (h : σ.Opens R P) :
    Book.Holds R (fun _ => False) ⟨P, fun _ => none⟩ σ where
  closed := h.closed
  tails := h.tails
  right a x hx := by cases hx
  memory a x hx := by cases hx
  results i x hx hb := h.results i x hx hb
  sessions i s hs := by simp [h.sessions] at hs

/-- What is true of the store and of all sessions between two calls. -/
structure Book.Between (R : Reach → Prop) (P : ParserId → Prop) (b : Book)
    (pool : List (Obtained W)) (σ : Store W) : Prop where
  /-- The book is true, and no result is being computed. -/
  holds : b.Holds R (fun _ => False) σ
  /-- The parsers are there. -/
  parsers : ∀ p, P p → b.parsers p
  /-- The sessions go along their ways. -/
  along : ∀ x ∈ pool, x.session.Along R b σ x.start

theorem Book.Between.later {b b' : Book} (h : b.Between R P pool σ)
    (s : b.Since R (fun _ => False) σ b' τ) : b'.Between R P pool τ :=
  ⟨s.holds, fun p hp => s.le.parsers p (h.parsers p hp),
    fun x hx => (h.along x hx).later s.le s.grows⟩

/-- The session that a call gives goes along its way as well. -/
theorem Book.Between.gain {b : Book} {y : Eval W SessionId} {given : SessionId → Obtained W}
    {s : State Value} (h : b.Between R P pool σ)
    (hg : ∀ j, (given j).session = j ∧ (given j).start = s)
    (hy : Keeps R False (fun _ => False) n b σ y fun j b' τ => j.Along R b' τ s) :
    ∃ b' : Book, b'.Between R P (enlist given pool (y.exec n σ)) (left (y.exec n σ)) := by
  obtain ⟨b', since, hj⟩ := hy.since
  have later := h.later since
  refine ⟨b', later.holds, later.parsers, fun x hx => ?_⟩
  rcases mem_enlist hx with hx | ⟨j, τ, e, rfl⟩
  · exact later.along x hx
  · rw [(hg j).1, (hg j).2, e]
    exact hj j τ e

/-- A call keeps the book. -/
theorem Call.holds {b : Book} (h : b.Between R P pool σ) (call : Call P pool σ pool' τ) :
    ∃ b' : Book, b'.Between R P pool' τ := by
  have hF (n : Nat) : Steady W R False n := steady (fun f => f.elim) n
  cases call with
  | start n input position user handlers hp =>
    exact h.gain (fun _ => ⟨rfl, rfl⟩)
      (keeps_startSession (hF n) h.holds (h.parsers _ hp) input position user handlers)
  | provide n source hx =>
    exact h.gain (fun _ => ⟨rfl, rfl⟩) (keeps_provide (hF n) h.holds (h.along _ hx) source)
  | force n source hx =>
    exact h.gain (fun _ => ⟨rfl, rfl⟩)
      (keeps_forceProvide_along (hF n) h.holds (h.along _ hx) source)
  | @finish x n _ =>
    obtain ⟨b', since, -⟩ := (keeps_finish (hF n) not_false h.holds x.session).since
    exact ⟨b', h.later since⟩
  | act n a =>
    obtain ⟨b', since, -⟩ := (keeps_action (hF n) (fun f => f.elim) h.holds (a := a)).since
    exact ⟨b', h.later since⟩

/-- The book is true, whatever calls have been made. -/
theorem Calls.holds (opens : σ₀.Opens R P) (calls : Calls P [] σ₀ pool σ) :
    ∃ b, Book.Between R P b pool σ := by
  induction calls with
  | none => exact ⟨_, opens.holds, fun _ hp => hp, by simp⟩
  | more _ call ih =>
    obtain ⟨b, h⟩ := ih
    exact call.holds h

end

end ResumableParsing
