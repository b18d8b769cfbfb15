import ResumableParsing.Proofs.Sessions.Ending

/-!
# When handlers are called

The handler of a session is not called while chunks are provided. The parse leaves its reply, and
the handler's call for that reply is kept as a deferred result. Only somebody who asks for the
result makes the call, and makes it again as long as it has raised; once it has returned, its value
is there for good.

* `Stage.parse`, `Session.settled`: a drive without handlers, and what is left for them
* `SessionId.EndedBy`: a session whose parse has ended with a reply
* `SessionId.Owes`, `SessionId.Gave`: the call is still to be made, or has returned
* `handlers_are_disciplined`: all sessions do this, whatever calls are made
-/

namespace ResumableParsing

variable {W α : Type}

/-! ## Drives without handlers -/

/-- The parse of a session that gets a chunk, up to its end or to where it waits, with the history
that it has read. Nothing comes out if it has been complete before. -/
def Stage.parse (source : Source) (chunks : History) (stage : Stage W) :
    Eval W (Option (History × Finish W)) := do
  let chunk ← source.asStream
  let chunks ← chunks.append chunk
  match ← stage.feed chunk with
  | none => return none
  | some f => return some (chunks, ← f.replayed chunks)

/-- The store with the session that comes out of a drive. If the parse has ended, the call of the
handler is put down in a deferred result. -/
def Session.settled (s : Session W) (chunks : History) (f : Finish W) (σ : Store W) : Store W :=
  match f with
  | .request q =>
    let τ := σ.noted ("suspended, waiting for chunk " ++ toString q.chunk)
    { τ with sessions := σ.sessions.push { s with stage := .waiting q, chunks := chunks } }
  | .reply r =>
    let τ := σ.noted ("completed after " ++ toString chunks.size ++ " chunks")
    let done : Session W := { s with stage := .complete ⟨σ.results.size⟩, chunks := chunks }
    { τ with
      results := σ.results.push ⟨s.handlers.call r, .unset⟩, sessions := σ.sessions.push done }

theorem settle_eq (s : Session W) (chunks : History) (f : Finish W) (m : Means W) (σ : Store W) :
    s.settle chunks f m σ = .ok ⟨σ.sessions.size⟩ (s.settled chunks f σ) := by
  cases f with
  | reply r =>
    cases hl : σ.logging <;> simp [Session.settle, Finish.stage, ResultId.make, SessionId.make,
      Session.settled, Store.noted, hl]
  | request q =>
    cases hl : σ.logging <;> simp [Session.settle, Finish.stage, SessionId.make, Session.settled,
      Store.noted, hl]

section

variable {σ τ υ : Store W} {i j : SessionId} {s : Session W} {r : ResultId} {n : Nat}
  {source : Source} {a : Action W Value}

/-- A session that gets a chunk goes on without its handlers. They are put down again behind that.
-/
theorem forceProvide_eq_parse (hi : σ.sessions[i.index]? = some s) (hd : s.isDone = false)
    (m : Means W) : i.forceProvide source m σ = match s.stage.parse source s.chunks m σ with
      | .ok none τ => .ok i τ
      | .ok (some (chunks, f)) τ => .ok ⟨τ.sessions.size⟩ (s.settled chunks f τ)
      | .error e τ => .error e τ := by
  simp only [SessionId.forceProvide, SessionId.session, Stage.parse, Eval.run_bind, Eval.run_get,
    hi, Eval.deref_some, Eval.run_pure, hd, Bool.false_eq_true, if_false]
  cases source.asStream m σ with
  | error e τ => rfl
  | ok chunk τ =>
    simp only
    cases s.chunks.append chunk m τ with
    | error e τ => rfl
    | ok chunks τ =>
      simp only
      cases s.stage.feed chunk m τ with
      | error e τ => rfl
      | ok f τ =>
        cases f with
        | none => rfl
        | some f =>
          simp only [Finish.replayed, Eval.run_bind, Eval.run_read]
          cases Finish.replay chunks m.steps f m τ with
          | error e τ => rfl
          | ok f τ =>
            -- The handlers play a part only in what the session is settled with.
            have settled := settle_eq s chunks f m τ
            rw [Session.settle, Eval.run_bind] at settled
            exact settled

/-! ## Results of complete sessions -/

/-- The store in which a deferred result is being computed. -/
def ResultId.calling (r : ResultId) (σ : Store W) : Store W := Shelf.results.put r.index .busy σ

/-- What is left when the call behind a deferred result is over: its value is kept, a fault is not.
-/
def ResultId.called (r : ResultId) :
    EStateM.Result Stop (Store W) Value → EStateM.Result Stop (Store W) Value
  | .ok v σ => .ok v (Shelf.results.put r.index (.known v) σ)
  | .error e σ => .error e (Shelf.results.put r.index .unset σ)

/-- The session `i` is complete and has the result `r`. -/
def SessionId.Completed (σ : Store W) (i : SessionId) (r : ResultId) : Prop :=
  ∃ s, σ.sessions[i.index]? = some s ∧ s.stage = .complete r

/-- The call `a` behind the result `r` of the session `i` is still to be made. -/
structure SessionId.Owes (σ : Store W) (i : SessionId) (r : ResultId) (a : Action W Value) :
    Prop where
  /-- Nothing is known of the result. -/
  unset : σ.results[r.index]? = some ⟨a, .unset⟩
  /-- Whoever finishes the session makes the call, once. -/
  call : ∀ n, i.finish.exec (n + 1) σ = r.called (a.run.exec n (r.calling σ))
  /-- If the call returns, its value is known from then on. -/
  returned : ∀ n v τ, i.finish.exec (n + 1) σ = .ok v τ →
    τ.results[r.index]? = some ⟨a, .known v⟩
  /-- If it raises, nothing is known as before. -/
  raised : ∀ n e τ, i.finish.exec (n + 1) σ = .error e τ →
    τ.results[r.index]? = some ⟨a, .unset⟩
  /-- While the call is being made, whatever it has done before, it cannot finish the session. -/
  own : ∀ {α : Type} (before : Action W α) (k : α → Value → Action W Value) n v τ,
    before.run.exec (n + 2) (r.calling σ) = .ok v τ →
    (before.bind fun v => .finish i (k v)).run.exec (n + 2) (r.calling σ) =
      .error (.raised .reentrant) τ

/-- The call `a` behind the result `r` of the session `i` has returned `v`. -/
structure SessionId.Gave (σ : Store W) (i : SessionId) (r : ResultId) (a : Action W Value)
    (v : Value) : Prop where
  /-- The value is known. -/
  known : σ.results[r.index]? = some ⟨a, .known v⟩
  /-- Whoever finishes the session gets it, and nothing else happens. -/
  finish : ∀ n, i.finish.exec (n + 1) σ = .ok v σ

theorem SessionId.Completed.later (h : i.Completed σ r) (k : σ.Grows τ) : i.Completed τ r := by
  obtain ⟨s, hs, hr⟩ := h
  exact ⟨s, k.sessions _ _ hs, hr⟩

/-- To finish a complete session is to ask for its result. -/
theorem finish_completed (h : i.Completed σ r) (n : Nat) :
    i.finish.exec (n + 1) σ = Shelf.results.get r.index (fun a => a.run (.within n)) σ := by
  obtain ⟨s, hs, hr⟩ := h
  have complete : i.completeFor (n + 1) (.within (n + 1)) σ = .ok r σ := by
    have same := forceProvide_complete .none hs (by simp [Session.isDone, hr]) (.within (n + 1))
    simp [SessionId.completeFor, same, SessionId.session, hs, hr]
  change (i.completeFor (n + 1) >>= fun r => Eval.force (.result r)) (.within (n + 1)) σ = _
  rw [Eval.run_bind, complete]
  rfl

/-- While the call behind a result is being made, the result stays marked. -/
theorem calling_busy (hr : σ.results[r.index]? = some ⟨a, .unset⟩) (k : (r.calling σ).Grows τ) :
    τ.results[r.index]? = some ⟨a, .busy⟩ := by
  have marked : (r.calling σ).results[r.index]? = some ⟨a, .busy⟩ := by
    change Shelf.results.find r.index (Shelf.results.put r.index .busy σ) = _
    rw [Shelf.lawful_results.find_put, show Shelf.results.find r.index σ = _ from hr]
    rfl
  obtain ⟨⟨thunk, slot⟩, hx, ht, hs⟩ := k.results _ _ marked
  rw [hx, show thunk = a from ht, show slot = .busy from hs.resolve_left (by simp)]

theorem results_put (hr : σ.results[r.index]? = some ⟨a, .busy⟩) (slot : Slot Value) :
    (Shelf.results.put r.index slot σ).results[r.index]? = some ⟨a, slot⟩ := by
  change Shelf.results.find r.index (Shelf.results.put r.index slot σ) = _
  rw [Shelf.lawful_results.find_put, show Shelf.results.find r.index σ = _ from hr]
  rfl

/-- Somebody finishes a complete session, and nothing is known of its result. -/
theorem finish_unset (h : i.Completed σ r) (hr : σ.results[r.index]? = some ⟨a, .unset⟩) (n : Nat) :
    i.finish.exec (n + 1) σ = r.called (a.run.exec n (r.calling σ)) := by
  rw [finish_completed h, Shelf.get, show Shelf.results.find r.index σ = _ from hr]
  simp only [ResultId.calling, Eval.exec]
  cases a.run (.within n) (Shelf.results.put r.index .busy σ) <;> rfl

theorem SessionId.Completed.owes (h : i.Completed σ r)
    (hr : σ.results[r.index]? = some ⟨a, .unset⟩) : i.Owes σ r a where
  unset := hr
  call := finish_unset h hr
  returned n v τ e := by
    rw [finish_unset h hr] at e
    have grows := (composed_action a).grows_within n (r.calling σ)
    cases run : a.run.exec n (r.calling σ) with
    | error f υ =>
      rw [run] at e
      cases e
    | ok w υ =>
      rw [run] at e grows
      cases e
      exact results_put (calling_busy hr grows) _
  raised n e τ he := by
    rw [finish_unset h hr] at he
    have grows := (composed_action a).grows_within n (r.calling σ)
    cases run : a.run.exec n (r.calling σ) with
    | ok w υ =>
      rw [run] at he
      cases he
    | error f υ =>
      rw [run] at he grows
      cases he
      exact results_put (calling_busy hr grows) _
  own before k n v τ e := by
    have grows := (composed_action before).grows_within (n + 2) (r.calling σ)
    rw [e] at grows
    have busy := calling_busy hr grows
    have later : i.Completed τ r := SessionId.Completed.later (σ := r.calling σ) h grows
    rw [Action.run_bind, Eval.exec, Eval.run_bind, show before.run (.within (n + 2)) _ = _ from e]
    change (Eval.force (.session i) >>= fun w => (k v w).run) (.within (n + 2)) τ = _
    rw [Eval.run_bind, show Eval.force (.session i) (.within (n + 2)) τ = i.finish.exec (n + 1) τ
      from rfl, finish_completed later, Shelf.get, show Shelf.results.find r.index τ = _ from busy]

theorem SessionId.Completed.gave {v : Value} (h : i.Completed σ r)
    (hr : σ.results[r.index]? = some ⟨a, .known v⟩) : i.Gave σ r a v where
  known := hr
  finish n := by
    rw [finish_completed h, Shelf.get, show Shelf.results.find r.index σ = _ from hr]

/-! ## How sessions come to their results -/

/-- The session `i` has come out of a call in which the parse has ended with this reply, and the
call `a` behind its result `r` was still to be made then. -/
def SessionId.EndedBy (reply : Reply Value) (a : Action W Value) (σ : Store W) (i : SessionId)
    (r : ResultId) : Prop :=
  ∃ (j : SessionId) (n : Nat) (source : Source) (hist : History) (σ₁ υ τ : Store W),
    j.During (.within n) source σ₁ hist (.rest (.reply reply)) υ ∧
    (j.forceProvide source).exec n σ₁ = .ok i τ ∧ τ.results[r.index]? = some ⟨a, .unset⟩ ∧
    τ.Grows σ

/-- The session has the handlers that its parse has been started with. If it is complete, its result
is that of the handler, called for the reply of the parse. -/
structure Obtained.Stands (σ : Store W) (x : Obtained W) (s : Session W) : Prop where
  /-- The session is there. -/
  found : σ.sessions[x.session.index]? = some s
  /-- The handlers have stayed. -/
  handlers : s.handlers = x.handlers
  /-- The parse has ended with a reply. -/
  ended : ∀ r, s.stage = .complete r →
    ∃ reply, x.session.EndedBy reply (x.handlers.call reply) σ r

theorem Obtained.Stands.later {x : Obtained W} (h : x.Stands σ s) (k : σ.Grows τ) :
    x.Stands τ s where
  found := k.sessions _ _ h.found
  handlers := h.handlers
  ended r hr := by
    obtain ⟨reply, j, n, source, hist, σ₁, υ, τ₁, during, e, unset, grows⟩ := h.ended r hr
    exact ⟨reply, j, n, source, hist, σ₁, υ, τ₁, during, e, unset, grows.trans k⟩

theorem Obtained.Stands.forced {x : Obtained W} (h : x.Stands σ s)
    (e : (x.session.forceProvide source).exec n σ = .ok j τ) :
    ∃ s', Obtained.Stands τ { x with session := j } s' := by
  cases hd : s.isDone with
  | true =>
    rw [Eval.exec, forceProvide_complete source h.found hd] at e
    cases e
    exact ⟨s, h⟩
  | false =>
    obtain ⟨hist, f, υ, during, -, settled⟩ := during_of_forceProvide h.found hd e
    rw [settle_eq] at settled
    cases settled
    cases f with
    | request q =>
      exact ⟨{ s with stage := .waiting q, chunks := hist }, by simp [Session.settled], h.handlers,
        by simp⟩
    | reply reply =>
      refine ⟨{ s with stage := .complete ⟨υ.results.size⟩, chunks := hist },
        by simp [Session.settled], h.handlers, fun r hr => ⟨reply, ?_⟩⟩
      cases hr
      refine ⟨x.session, n, source, hist, σ, υ, _, during, e, ?_, .refl _⟩
      simp [Session.settled, h.handlers]

theorem Obtained.Stands.provided {x : Obtained W} (h : x.Stands σ s)
    (e : (x.session.provide source).exec n σ = .ok j τ) :
    ∃ s', Obtained.Stands τ { x with session := j } s' := by
  obtain ⟨c, σ₁, hc, e⟩ := ok_of_bind e
  obtain ⟨empty, σ₂, he, e⟩ := ok_of_bind e
  have grows₁ := (composed_asStream source).grows_of_ok hc
  have grows₂ := (composed_isEmpty c).grows_of_ok he
  have h := h.later (grows₁.trans grows₂)
  cases empty with
  | true =>
    cases e
    exact ⟨s, h⟩
  | false => exact h.forced e

theorem Obtained.stands_started {p : ParserId} {t : State Value} {handlers : Handlers W}
    (e : (p.startSession t handlers).exec n σ = .ok j τ) :
    ∃ s, Obtained.Stands τ ⟨j, p, t, handlers⟩ s := by
  obtain ⟨hist, σ₁, -, e⟩ := ok_of_bind e
  obtain ⟨i, σ₂, made, e⟩ := ok_of_bind e
  cases made
  let s : Session W := ⟨.ready p t, handlers, hist⟩
  have ready : Obtained.Stands { σ₁ with sessions := σ₁.sessions.push s }
      ⟨⟨σ₁.sessions.size⟩, p, t, handlers⟩ s := ⟨Array.getElem?_push_size, rfl, by simp [s]⟩
  exact ready.provided e

/-- All sessions that have been obtained stand so, whatever calls have been made. -/
theorem Calls.stands {P : ParserId → Prop} {σ₀ : Store W} {pool : List (Obtained W)}
    (calls : Calls P [] σ₀ pool σ) : ∀ x ∈ pool, ∃ s, x.Stands σ s := by
  induction calls with
  | none => simp
  | @more pool pool' σ τ _ call ih =>
    have stay (x : Obtained W) (hx : x ∈ pool) : ∃ s, x.Stands τ s := by
      obtain ⟨s, h⟩ := ih x hx
      exact ⟨s, h.later call.grows⟩
    cases call with
    | start n input position user handlers _ =>
      intro x hx
      rcases mem_enlist hx with hx | ⟨j, τ, e, rfl⟩
      · exact stay x hx
      · rw [e]
        exact Obtained.stands_started e
    | provide n source hy =>
      intro x hx
      rcases mem_enlist hx with hx | ⟨j, τ, e, rfl⟩
      · exact stay x hx
      · obtain ⟨s, h⟩ := ih _ hy
        rw [e]
        exact h.provided e
    | force n source hy =>
      intro x hx
      rcases mem_enlist hx with hx | ⟨j, τ, e, rfl⟩
      · exact stay x hx
      · obtain ⟨s, h⟩ := ih _ hy
        rw [e]
        exact h.forced e
    | finish => exact stay
    | act => exact stay

/-! ## Discipline -/

/-- A session that is not complete is finished by finishing the one that an empty chunk makes of it.
-/
theorem finish_eq_forced (h : ∀ j τ, (i.forceProvide .none).exec (n + 1) σ = .ok j τ →
    ∃ s, τ.sessions[j.index]? = some s ∧ s.isDone = true) :
    i.finish.exec (n + 1) σ =
      (do (← i.forceProvide .none).finish : Eval W Value).exec (n + 1) σ := by
  change (i.completeFor (n + 1) >>= fun r => Eval.force (.result r)) (.within (n + 1)) σ =
    (i.forceProvide .none >>= SessionId.finish) (.within (n + 1)) σ
  rw [SessionId.completeFor, bind_assoc, Eval.run_bind, Eval.run_bind]
  cases e : i.forceProvide .none (.within (n + 1)) σ with
  | error f τ => rfl
  | ok j τ =>
    obtain ⟨s, hj, hd⟩ := h j τ e
    cases hr : s.stage with
    | complete r =>
      have finish := finish_completed ⟨s, hj, hr⟩ n
      simp only [Eval.exec] at finish
      simp only [finish, SessionId.session, Eval.run_bind, Eval.run_get, hj, Eval.deref_some,
        Eval.run_pure, hr]
      rfl
    | _ => simp [Session.isDone, hr] at hd

theorem provide_complete (hi : σ.sessions[i.index]? = some s) (hd : s.isDone = true)
    (e : (i.provide source).exec n σ = .ok j τ) : j = i := by
  obtain ⟨c, σ₁, hc, e⟩ := ok_of_bind e
  obtain ⟨empty, σ₂, he, e⟩ := ok_of_bind e
  have grows := ((composed_asStream source).grows_of_ok hc).trans
    ((composed_isEmpty c).grows_of_ok he)
  cases empty with
  | true =>
    cases e
    rfl
  | false =>
    have same := forceProvide_complete (.stream c) (grows.sessions _ _ hi) hd (.within n)
    cases same.symm.trans e
    rfl

end

/-- What is true of the session of `x` and its handlers, whatever calls are made later. -/
structure Obtained.Disciplined (R : Reach → Prop) (P : ParserId → Prop) (pool : List (Obtained W))
    (σ : Store W) (x : Obtained W) (s : Session W) : Prop where
  /-- The session has the handlers that its parse has been started with. -/
  stands : x.Stands σ s
  /-- The session gets a chunk without its handlers. They are only put down again. -/
  parsed : s.isDone = false → ∀ n source, (x.session.forceProvide source).exec n σ =
    match (s.stage.parse source s.chunks).exec n σ with
    | .ok none τ => .ok x.session τ
    | .ok (some (chunks, f)) τ => .ok ⟨τ.sessions.size⟩ (s.settled chunks f τ)
    | .error e τ => .error e τ
  /-- Nor is another handler called: if the functions of the grammars ask for no results, it does
  not matter how results are computed. -/
  aside : ¬R .results → ¬R .sessions → ∀ other n source,
    x.session.forceProvide source (.aside other n) σ = (x.session.forceProvide source).exec n σ ∧
    x.session.provide source (.aside other n) σ = (x.session.provide source).exec n σ
  /-- To finish the session is to finish the one that an empty chunk makes of it. -/
  finished : ∀ n, x.session.finish.exec (n + 1) σ =
    (do (← x.session.forceProvide .none).finish : Eval W Value).exec (n + 1) σ
  /-- A complete session stays itself when it gets chunks. -/
  stays : ∀ r, s.stage = .complete r → ∀ n source j τ,
    ((x.session.forceProvide source).exec n σ = .ok j τ → j = x.session ∧ τ = σ) ∧
    ((x.session.provide source).exec n σ = .ok j τ → j = x.session)
  /-- Its parse has ended with a reply. As long as the handler's call for that reply has not
  returned, it is still to be made; once it has returned, that stays so. -/
  handled : ∀ r, s.stage = .complete r → ∃ reply,
    x.session.EndedBy reply (x.handlers.call reply) σ r ∧
    ∀ pool' τ, Calls P pool σ pool' τ → x.session.Owes τ r (x.handlers.call reply) ∨
      ∃ v, ∀ pool'' υ, Calls P pool' τ pool'' υ → x.session.Gave υ r (x.handlers.call reply) v

/-- The handlers of all sessions are called as they should be. -/
theorem handlers_are_disciplined {R : Reach → Prop} {P : ParserId → Prop} {σ₀ σ : Store W}
    {pool : List (Obtained W)} (opens : σ₀.Opens R P) (calls : Calls P [] σ₀ pool σ)
    {x : Obtained W} (hx : x ∈ pool) : ∃ s, x.Disciplined R P pool σ s := by
  obtain ⟨s, stands⟩ := calls.stands x hx
  obtain ⟨b, h⟩ := calls.holds opens
  have along := h.along x hx
  refine ⟨s, stands, fun hd n source => forceProvide_eq_parse stands.found hd (.within n),
    fun hr hs other n source => ?_, fun n => ?_, fun r hr n source j τ => ?_, fun r hr => ?_⟩
  · have hF : Steady W R (¬R .results ∧ ¬R .sessions) n := steady id n
    exact ⟨(keeps_forceProvide_along hF h.holds along source).aside ⟨hr, hs⟩ other,
      (keeps_provide hF h.holds along source).aside ⟨hr, hs⟩ other⟩
  · have empty : Source.none.Empty σ := trivial
    exact finish_eq_forced fun j τ e =>
      along.complete (steady (fun f => f.elim) (n + 1)) h.holds empty e
  · have hd : s.isDone = true := by simp [Session.isDone, hr]
    constructor
    · intro e
      rw [Eval.exec, forceProvide_complete source stands.found hd] at e
      cases e
      exact ⟨rfl, rfl⟩
    · exact provide_complete stands.found hd
  · obtain ⟨reply, ended⟩ := stands.ended r hr
    refine ⟨reply, ended, fun pool' τ later => ?_⟩
    obtain ⟨-, -, -, -, -, -, τ₁, -, -, unset, grows⟩ := ended
    have grows' := grows.trans later.grows
    have completed : x.session.Completed τ r :=
      SessionId.Completed.later ⟨s, stands.found, hr⟩ later.grows
    obtain ⟨⟨thunk, slot⟩, hy, ht, -⟩ := grows'.results _ _ unset
    cases ht
    obtain ⟨b', h'⟩ := (calls.trans later).holds opens
    -- The result is computed by the handler, which has not been called, has raised or has
    -- answered.
    cases slot with
    | unset => exact .inl (completed.owes hy)
    | busy => exact (h'.holds.results _ _ hy rfl).elim
    | known v =>
      refine .inr ⟨v, fun pool'' υ later' => ?_⟩
      obtain ⟨⟨thunk, slot⟩, hz, ht, hs⟩ := later'.grows.results _ _ hy
      cases ht
      cases hs.resolve_left (by simp)
      exact (completed.later later'.grows).gave hz

/-- A session that is complete after an empty chunk, so that its handler is still to be called. -/
theorem handlers_are_disciplined_empty_chunk :
    let made := (Grammar.some fun _ => .done true : Grammar Unit).build
      (Store.initial () fun _ _ => ())
    let start : State Value := .plain false .nil 0 .none
    ∃ P pool j σ k τ s, (made.1.startSession start .value).exec 9 made.2 = .ok j σ ∧
      (j.forceProvide .none).exec 9 σ = .ok k τ ∧ s.isDone = true ∧
      Obtained.Disciplined (fun _ => False) P pool τ ⟨k, made.1, start, .value⟩ s := by
  intro made start
  have library : (Grammar.some fun _ => .done true : Grammar Unit).Library
      (fun _ => False) fun p => p = .finished := .some fun _ => trivial
  obtain ⟨P, opens, hp⟩ := library.opens () fun _ _ => ()
  have script : succeeded ((do
      let j ← made.1.startSession start .value
      let k ← j.forceProvide .none
      unless (← k.session).isDone do Eval.fault .notAStream : Eval Unit Unit).exec 9 made.2) =
        true := by decide +kernel
  obtain ⟨_, _, script⟩ := exists_of_succeeded script
  obtain ⟨j, σ, started, script⟩ := ok_of_bind script
  obtain ⟨k, τ, forced, script⟩ := ok_of_bind script
  have calls := (Calls.none : Calls P [] made.2 [] made.2).started (n := 9) hp started
  have calls := calls.forced (n := 9) List.mem_cons_self forced
  obtain ⟨s, disciplined⟩ := handlers_are_disciplined opens calls List.mem_cons_self
  refine ⟨P, _, j, σ, k, τ, s, started, forced, ?_, disciplined⟩
  have found := disciplined.stands.found
  cases hd : s.isDone with
  | true => rfl
  | false => simp [SessionId.session, found, hd] at script

end ResumableParsing
