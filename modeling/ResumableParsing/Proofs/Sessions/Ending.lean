import ResumableParsing.Proofs.Sessions.Calls
import ResumableParsing.Proofs.Sessions.Moves

/-!
# The end of the input ends the parse

No parser gets out of an empty chunk, so a parse that gets one does not wait any more. It may still
go back to older chunks and come forward again; but when it comes to the empty chunk, it ends
there. One empty chunk is therefore all that the end of the input takes.

* `SessionId.finishOr`: the result of a session, with another rest of the loop
* `SessionId.EndsWhenEmpty`: an empty chunk ends the parse of a session
* `empty_chunk_ends`: this is so for all sessions, whatever calls have been made before
-/

namespace ResumableParsing

variable {W : Type}

namespace SessionId

/-- The complete session at the end of the input. What is to be done with a session that one empty
chunk has not completed is left to `again`. -/
def completeOr (again : SessionId → Eval W ResultId) (i : SessionId) : Eval W ResultId := do
  let j ← i.forceProvide .none
  match (← j.session).stage with
  | .complete result => return result
  | _ => again j

/-- The result of a session at the end of the input. What is to be done with a session that one
empty chunk has not completed is left to `again`. -/
def finishOr (again : SessionId → Eval W ResultId) (i : SessionId) : Eval W Value := do
  let result ← i.completeOr again
  Eval.force (.result result)

/-- The session `i` has got these chunks, and an empty chunk ends its parse. -/
structure EndsWhenEmpty (σ : Store W) (i : SessionId) (chunks : List (Stream Value)) : Prop where
  /-- The history lists the chunks. While the session is not complete, none of them is empty. -/
  found : ∃ s, σ.sessions[i.index]? = some s ∧ s.chunks.Lists σ chunks ∧
    (s.isDone = false → ∀ c ∈ chunks, c.Occupied σ)
  /-- None of them is empty but the last. -/
  nonempty : ∀ c ∈ chunks.dropLast, c.Occupied σ
  /-- A call in which the parse ends gives a session. -/
  ends : ∀ n source hist r τ, i.During (.within n) source σ hist (.rest (.reply r)) τ →
    ∃ j υ, (i.forceProvide source).Comes σ (.ok j υ)
  /-- If the chunk is empty, a session that comes out is complete. -/
  complete : ∀ n source j τ, source.Empty σ → (i.forceProvide source).exec n σ = .ok j τ →
    ∃ s, τ.sessions[j.index]? = some s ∧ s.isDone = true
  /-- The end of the input takes one chunk: it does not matter what is done with a session that one
  chunk has not completed. -/
  once : ∀ again n, (i.finishOr again).exec (n + 1) σ = i.finish.exec (n + 1) σ

end SessionId

section

variable {R : Reach → Prop} {B : Nat → Prop} {n : Nat} {b : Book} {σ τ : Store W} {i j : SessionId}
  {t : State Value} {source : Source}

/-- A parse that has ended gives a session. -/
theorem comes_settle_reply (s : Session W) (hist : History) (r : Reply Value) (σ : Store W) :
    ∃ j τ, (s.settle hist (.reply r)).Comes σ (.ok j τ) :=
  ⟨_, _, (composed_settle s hist (.reply r)).comes (n := 0) rfl not_exhausted_ok⟩

theorem SessionId.During.ends {n : Nat} {hist : History} {r : Reply Value}
    (during : i.During (.within n) source σ hist (.rest (.reply r)) τ) :
    ∃ j υ, (i.forceProvide source).Comes σ (.ok j υ) := by
  obtain ⟨s, hi⟩ := during.session
  obtain ⟨j, υ, settled⟩ := comes_settle_reply s hist r τ
  refine ⟨j, υ, during.comes hi (comes_bind_ok ?_ settled)⟩
  exact comes_loop (n := 1) (fun n => composed_replayFor hist n _)
    (fun n => exhausted_or_replay hist n _) (comes_pure _ τ)

/-- A session that comes out of a call with an empty chunk is complete. -/
theorem SessionId.Along.complete (hF : Steady W R False n) (h : b.Holds R B σ)
    (ha : i.Along R b σ t) (empty : source.Empty σ)
    (e : (i.forceProvide source).exec n σ = .ok j τ) :
    ∃ s, τ.sessions[j.index]? = some s ∧ s.isDone = true := by
  obtain ⟨s, w, hi, hl, hs, -⟩ := ha
  cases hd : s.isDone with
  | true =>
    rw [Eval.exec, forceProvide_complete source hi hd] at e
    cases e
    exact ⟨s, hi, hd⟩
  | false =>
    obtain ⟨b', -, hq⟩ := (keeps_forceProvide_pending hF h hi hl hs hd source).since
    obtain ⟨s', c, hj, -, void, -, -, hs'⟩ := hq j τ e
    refine ⟨s', hj, ?_⟩
    cases hstage : s'.stage with
    | complete r => simp [Session.isDone, hstage]
    | _ =>
      -- All chunks of a session that waits have been read to their end, so none is empty.
      rw [hstage] at hs'
      have occupied := hs'.occupied (c := c) (by simp) (by simp)
      exact absurd occupied (void empty).not_occupied

/-- If one empty chunk completes the session, nothing else is asked for. -/
theorem completeOr_eq {m : Means W} (again again' : SessionId → Eval W ResultId)
    (h : ∀ j τ, i.forceProvide .none m σ = .ok j τ →
      ∃ s, τ.sessions[j.index]? = some s ∧ s.isDone = true) :
    i.completeOr again m σ = i.completeOr again' m σ := by
  unfold SessionId.completeOr
  rw [Eval.run_bind, Eval.run_bind]
  cases e : i.forceProvide .none m σ with
  | error f τ => rfl
  | ok j τ =>
    obtain ⟨s, hj, hd⟩ := h j τ e
    cases hstage : s.stage with
    | complete r => simp [SessionId.session, hj, hstage]
    | _ => simp [Session.isDone, hstage] at hd

end

/-- Whatever calls have been made on sessions of parsers of the library, an empty chunk ends the
parse of each session. -/
theorem empty_chunk_ends {P : ParserId → Prop} {σ₀ σ : Store W}
    {pool : List (Obtained W)} (opens : σ₀.Opens (fun _ => True) P)
    (calls : Calls P [] σ₀ pool σ) {x : Obtained W} (hx : x ∈ pool) :
    ∃ chunks, x.session.EndsWhenEmpty σ chunks := by
  have hF (n : Nat) : Steady W (fun _ => True) False n := steady (fun f => f.elim) n
  obtain ⟨b, h⟩ := calls.holds opens
  have along := h.along _ hx
  have complete (n : Nat) (source : Source) (j : SessionId) (τ : Store W)
      (empty : source.Empty σ) (e : (x.session.forceProvide source).exec n σ = .ok j τ) :=
    along.complete (hF n) h.holds empty e
  obtain ⟨s, w, hs, hl, kept, -⟩ := along
  -- Only the last chunk of a session may be empty, and only when its parse has ended.
  have pending (hd : s.isDone = false) (c : Stream Value) (hc : c ∈ w.chunks) : c.Occupied σ :=
    kept.occupied (fun r hr => by simp [Session.isDone, hr] at hd) hc
  refine ⟨w.chunks, ⟨s, hs, hl, pending⟩, fun c hc => ?_,
    fun n source hist r τ during => during.ends, complete, fun again n => ?_⟩
  · cases hstage : s.stage with
    | complete r =>
      rw [hstage] at kept
      exact kept.1 c hc
    | _ => exact pending (by simp [Session.isDone, hstage]) c (List.dropLast_subset _ hc)
  · have same := completeOr_eq again (fun j => j.completeFor n) fun j τ e =>
      complete (n + 1) .none j τ trivial e
    change (x.session.finishOr again) (.within (n + 1)) σ =
      (x.session.completeOr (fun j => j.completeFor n) >>= fun r => Eval.force (.result r))
        (.within (n + 1)) σ
    rw [SessionId.finishOr, Eval.run_bind, Eval.run_bind, same]

/-- A session that waits behind one chunk, and what the end of the input makes of it. -/
theorem empty_chunk_ends_one_chunk :
    let made := (Grammar.many (.some fun _ => .done true) : Grammar Unit).build
      (Store.initial () fun _ _ => ())
    let start : State Value := .plain false .nil 0 .none
    let chunk : Stream Value := .cons 0 (.int 7) .nil
    ∃ j σ k τ l υ chunks s, (made.1.startSession start .value).exec 9 made.2 = .ok j σ ∧
      (j.provide (.stream chunk)).exec 9 σ = .ok k τ ∧ k.EndsWhenEmpty τ chunks ∧
      (k.forceProvide .none).exec 9 τ = .ok l υ ∧ υ.sessions[l.index]? = some s ∧
      s.isDone = true := by
  intro made start chunk
  have library : (Grammar.many (.some fun _ => .done true) : Grammar Unit).Library
      (fun _ => True) fun p => p = .finished := .many (.some fun _ => trivial)
  obtain ⟨P, opens, hp⟩ := library.opens () fun _ _ => ()
  -- The calls are evaluated; what they make of the session follows from the theorem.
  have script : succeeded ((do
      let j ← made.1.startSession start .value
      let k ← j.provide (.stream chunk)
      k.forceProvide .none : Eval Unit SessionId).exec 9 made.2) = true := by decide +kernel
  obtain ⟨l, υ, script⟩ := exists_of_succeeded script
  obtain ⟨j, σ, started, script⟩ := ok_of_bind script
  obtain ⟨k, τ, provided, forced⟩ := ok_of_bind script
  have calls := (Calls.none : Calls P [] made.2 [] made.2).started (n := 9) hp started
  have calls := calls.provided (n := 9) List.mem_cons_self provided
  obtain ⟨chunks, ends⟩ := empty_chunk_ends opens calls List.mem_cons_self
  obtain ⟨s, hs, hd⟩ := ends.complete 9 .none l υ trivial forced
  exact ⟨j, σ, k, τ, l, υ, chunks, s, started, provided, ends, forced, hs, hd⟩

end ResumableParsing
