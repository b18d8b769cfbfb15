import ResumableParsing.Proofs.Direct.Answered
import ResumableParsing.Proofs.Sessions.Drives
import ResumableParsing.Proofs.Store.Comes

/-!
# The moves of a drive

What a session does with a chunk, move by move: it takes a step of the parse, or it answers a
request for a chunk of the history. The session comes to what these moves lead to.

* `Work`, `SessionId.During`: what a drive goes through
* `SessionId.During.keeps`: the book is kept at every moment
* `during_of_forceProvide`: a session that comes out of a call is what the moves have led to
* `SessionId.During.comes`: a call comes to what the moves lead to
-/

namespace ResumableParsing

variable {W : Type}

/-! ## What a drive goes through -/

/-- What a drive is at: the next step of the parse, or an end of the parse that it looks at. -/
inductive Work (W : Type) where
  /-- The next step. -/
  | task (t : Task W)
  /-- The parse has ended, or waits. -/
  | rest (f : Finish W)

/-- `Work.Next m chunks a σ b τ`: a drive over a history goes on from `a` to `b`. -/
inductive Work.Next (m : Means W) (chunks : History) :
    Work W → Store W → Work W → Store W → Prop where
  /-- A step is taken. -/
  | step {t t' : Task W} {σ τ : Store W} :
      t.step m σ = .ok (.tail t') τ → Next m chunks (.task t) σ (.task t') τ
  /-- The last step is taken. -/
  | halt {t : Task W} {f : Finish W} {σ τ : Store W} :
      t.step m σ = .ok (.value f) τ → Next m chunks (.task t) σ (.rest f) τ
  /-- A request for a chunk of the history is answered. -/
  | replay {q : Request W} {c : Stream Value} {t : Task W} {σ σ₁ τ : Store W} :
      chunks.has q.chunk = true → chunks.chunk q.chunk m σ = .ok c σ₁ →
      q.arrive c m σ₁ = .ok t τ → Next m chunks (.rest (.request q)) σ (.task t) τ

/-- `i.During m source σ chunks a τ`: the session `i` gets the chunk of a source in the store `σ`.
Its history is then `chunks`, and at some moment the drive is at `a` in the store `τ`. -/
inductive SessionId.During (m : Means W) (source : Source) (i : SessionId) (σ : Store W)
    (chunks : History) : Work W → Store W → Prop where
  /-- The drive begins. -/
  | opening {s : Session W} {t : Task W} {τ : Store W} :
      σ.sessions[i.index]? = some s → s.isDone = false →
      s.opening source m σ = .ok (chunks, some t) τ → During m source i σ chunks (.task t) τ
  /-- The drive goes on. -/
  | next {a b : Work W} {τ υ : Store W} :
      During m source i σ chunks a τ → a.Next m chunks τ b υ → During m source i σ chunks b υ

/-! ## The book during a drive -/

section

variable {R : Reach → Prop} {B : Nat → Prop} {n : Nat} {b : Book} {σ τ : Store W} {w : Way}

/-- What the book says of a drive. -/
def Work.On (R : Reach → Prop) (b : Book) (σ : Store W) (w : Way) : Work W → Prop
  | .task t => t.On R b σ (some w)
  | .rest f => f.On R b σ (some w)

/-- A move of a drive keeps the book. -/
theorem Work.Next.keeps (hF : Steady W R False n) (h : b.Holds R B σ) {hist : History}
    (hl : hist.Lists σ w.chunks) {a a' : Work W} (ha : a.On R b σ w)
    (move : a.Next (.within n) hist σ a' τ) : ∃ b', b.Since R B σ b' τ ∧ a'.On R b' τ w := by
  cases move with
  | step e =>
    obtain ⟨b', since, hq⟩ := (keeps_step hF h ha).since
    rw [e] at since hq
    exact ⟨b', since, hq _ _ rfl⟩
  | halt e =>
    obtain ⟨b', since, hq⟩ := (keeps_step hF h ha).since
    rw [e] at since hq
    exact ⟨b', since, hq _ _ rfl⟩
  | replay hh e e' =>
    obtain ⟨_, ⟨⟩, hr⟩ := ha
    obtain ⟨cs, _, _, _, -, hp, hn, -⟩ := id hr
    obtain ⟨-, -, hs, -⟩ := id hl
    -- The chunk that the parse waits for stands in the history of the session.
    have hlt : cs.length < w.chunks.length := by
      have hlt := of_decide_eq_true hh
      omega
    have found := List.getElem?_eq_getElem hlt
    rw [hn, hl.chunk_eq found] at e
    cases e
    obtain ⟨b', since, hq⟩ := (keeps_arrive (S := False) (n := n) h hr hn found).since
    rw [e'] at since hq
    exact ⟨b', since, hq _ _ rfl⟩

/-- The chunk that a session gets, and what the book says at every moment of the drive. -/
theorem SessionId.During.keeps (hF : Steady W R False n) (h : b.Holds R B σ) {i : SessionId}
    {s : Session W} {source : Source} {hist : History} {a : Work W}
    (hi : σ.sessions[i.index]? = some s) (hl : s.chunks.Lists σ w.chunks)
    (hs : s.stage.Kept R b σ w s.handlers) (during : i.During (.within n) source σ hist a τ) :
    ∃ c b', source.Gives σ c ∧ b.Since R B σ b' τ ∧ hist.Lists τ (w.chunks ++ [c]) ∧
      a.On R b' τ ⟨w.origin, w.chunks ++ [c]⟩ := by
  induction during with
  | opening hi' hd e =>
    rw [hi] at hi'
    cases hi'
    obtain ⟨b', since, hq⟩ := (keeps_opening hF h hl hs hd source).since
    rw [e] at since hq
    obtain ⟨c, t, ht, gives, -, hl', ht'⟩ := hq _ _ rfl
    cases ht
    exact ⟨c, b', gives, since, hl', ht'⟩
  | next _ move ih =>
    obtain ⟨c, b', gives, since, hl', ha⟩ := ih
    obtain ⟨b'', since', ha'⟩ := move.keeps hF since.holds (w := ⟨w.origin, w.chunks ++ [c]⟩) hl' ha
    exact ⟨c, b'', gives, since.trans since', hl'.later since'.grows.carries, ha'⟩

end

/-! ## What the moves lead to -/

/-- The drive over the history goes no further: no chunk of the history is waited for. -/
def Finish.Rests (chunks : History) : Finish W → Prop
  | .reply _ => True
  | .request q => chunks.has q.chunk = false

/-- What is left to do in a drive. -/
def Work.onward (s : Session W) (chunks : History) : Work W → Eval W SessionId
  | .task t => s.drive chunks t
  | .rest f => do s.settle chunks (← f.replayed chunks)

section

variable {n : Nat} {m : Means W} {i j : SessionId} {s : Session W} {source : Source}
  {hist : History} {a : Work W} {t : Task W} {f f' : Finish W} {σ τ υ : Store W}

/-- The opening gives a task, unless the session is complete. -/
theorem opening_task {x : Option (Task W)} (hd : s.isDone = false)
    (e : s.opening source m σ = .ok (hist, x) τ) : ∃ t, x = some t := by
  obtain ⟨c, σ₁, -, e⟩ := ok_of_bind e
  obtain ⟨chunks, σ₂, -, e⟩ := ok_of_bind e
  obtain ⟨y, σ₃, ho, e⟩ := ok_of_bind e
  cases e
  cases hs : s.stage with
  | ready p u =>
    rw [hs] at ho
    obtain ⟨u', σ₄, -, ho⟩ := ok_of_bind ho
    obtain ⟨start, σ₅, -, ho⟩ := ok_of_bind ho
    cases ho
    exact ⟨_, rfl⟩
  | waiting q =>
    rw [hs, Stage.opening, map_eq_pure_bind] at ho
    obtain ⟨t, σ₄, -, ho⟩ := ok_of_bind ho
    cases ho
    exact ⟨t, rfl⟩
  | complete r => simp [Session.isDone, hs] at hd

/-- There is a session that gets the chunk. -/
theorem SessionId.During.session (during : During m source i σ hist a τ) :
    ∃ s, σ.sessions[i.index]? = some s := by
  induction during with
  | opening hi => exact ⟨_, hi⟩
  | next _ _ ih => exact ih

/-- All steps of a parse are moves. -/
theorem SessionId.During.runFor (during : During m source i σ hist (.task t) τ) {k : Nat}
    (e : t.runFor k m τ = .ok f υ) : During m source i σ hist (.rest f) υ := by
  induction k generalizing t τ with
  | zero => cases e
  | succ k ih =>
    obtain ⟨step, τ', h, e⟩ := ok_of_bind e
    cases step with
    | tail t' => exact ih (during.next (.step h)) e
    | value f' =>
      cases e
      exact during.next (.halt h)

/-- All answers from the history are moves. -/
theorem SessionId.During.replay (during : During m source i σ hist (.rest f) τ) {k : Nat}
    (e : Finish.replay hist k f m τ = .ok f' υ) :
    During m source i σ hist (.rest f') υ ∧ f'.Rests hist := by
  induction k generalizing f τ with
  | zero => cases e
  | succ k ih =>
    cases f with
    | reply r =>
      cases e
      exact ⟨during, trivial⟩
    | request q =>
      cases hh : hist.has q.chunk with
      | false =>
        simp only [Finish.replay, hh] at e
        cases e
        exact ⟨during, hh⟩
      | true =>
        simp only [Finish.replay, hh, if_true, resume_eq_arrive] at e
        obtain ⟨c, τ₁, hc, e⟩ := ok_of_bind e
        obtain ⟨f₁, τ₂, hf, e⟩ := ok_of_bind e
        obtain ⟨t, τ', ht, hf⟩ := ok_of_bind hf
        exact ih ((during.next (.replay hh hc ht)).runFor hf) e

/-- A session that comes out of a call is what the moves have led to. -/
theorem during_of_forceProvide (hi : σ.sessions[i.index]? = some s) (hd : s.isDone = false)
    (e : i.forceProvide source m σ = .ok j τ) :
    ∃ hist f υ, i.During m source σ hist (.rest f) υ ∧ f.Rests hist ∧
      s.settle hist f m υ = .ok j τ := by
  rw [forceProvide_pending_eq hi hd source m] at e
  obtain ⟨⟨hist, t⟩, σ₁, ho, e⟩ := ok_of_bind e
  obtain ⟨t, rfl⟩ := opening_task hd ho
  obtain ⟨f, σ₂, hf, e⟩ := ok_of_bind e
  obtain ⟨f', σ₃, hf', e⟩ := ok_of_bind e
  obtain ⟨during, rests⟩ := ((SessionId.During.opening hi hd ho).runFor hf).replay hf'
  exact ⟨hist, f', σ₃, during, rests, e⟩

/-! ### Calls come to what the moves lead to -/

theorem composed_openStage (c : Stream Value) (s : Stage W) : Composed (s.opening c) := by
  cases s with
  | ready p t =>
    exact .bind (composed_alterState _ t) fun _ => .bind (composed_inChunk 0 _) fun _ => .pure _
  | waiting q => exact .map (composed_arrive q c) some
  | complete r => exact .pure _

theorem composed_opening (source : Source) (s : Session W) : Composed (s.opening source) :=
  .bind (composed_asStream source) fun c => .bind (composed_appendChunk _ c) fun _ =>
    .bind (composed_openStage c _) fun _ => .pure _

theorem composed_settle (s : Session W) (hist : History) (f : Finish W) :
    Composed (s.settle hist f) :=
  .bind (composed_stage _ hist f) fun _ => composed_makeSession _

/-- The answer to a request comes to what the parse comes to in the chunk. -/
theorem comes_answer {q : Request W} {c : Stream Value} {t : Task W} {σ₁ σ₂ : Store W}
    {y : EStateM.Result Stop (Store W) (Finish W)} (hh : hist.has q.chunk = true)
    (hc : (hist.chunk q.chunk).Comes σ (.ok c σ₁)) (ht : (q.arrive c).Comes σ₁ (.ok t σ₂))
    (h : (t.complete >>= fun f => f.replayed hist).Comes σ₂ y) :
    ((Finish.request q).replayed hist).Comes σ y := by
  obtain ⟨he, k, hk⟩ := h
  have rounds : (t.complete >>= Finish.replay hist k).Comes σ₂ y :=
    (Composed.bind (composed_complete t) fun f => composed_replayFor hist k f).comes
      (hk k (Nat.le_refl k)) he
  refine comes_loop (fun n => composed_replayFor hist n _)
    (fun n => exhausted_or_replay hist n _) (n := k + 1) ?_
  simp only [Finish.replay, hh, if_true, resume_eq_arrive]
  refine comes_bind_ok hc ?_
  rw [bind_assoc]
  exact comes_bind_ok ht rounds

/-- A call comes to what is left to do at any moment of the drive. -/
theorem SessionId.During.comes (during : i.During (.within n) source σ hist a τ)
    (hi : σ.sessions[i.index]? = some s) {y : EStateM.Result Stop (Store W) SessionId}
    (h : (a.onward s hist).Comes τ y) : (i.forceProvide source).Comes σ y := by
  induction during with
  | opening hi' hd e =>
    rw [hi] at hi'
    cases hi'
    refine Eval.Comes.congr (forceProvide_pending_eq hi hd source) ?_
    exact comes_bind_ok ((composed_opening source s).comes e not_exhausted_ok) h
  | @next _ _ _ υ _ move ih =>
    refine ih ?_
    cases move with
    | step e =>
      refine h.bind_congr (composed_complete _) fun z hz => ?_
      obtain ⟨k, hk⟩ := comes_complete.mp hz
      exact comes_complete.mpr ⟨k + 1, .tail ((composed_step _).comes e not_exhausted_ok) hk⟩
    | halt e =>
      refine comes_bind_ok (comes_complete.mpr ⟨0, .value ?_⟩) h
      exact (composed_step _).comes e not_exhausted_ok
    | @replay _ _ t _ _ _ hh hc ht =>
      have h : ((t.complete >>= fun f => f.replayed hist) >>= s.settle hist).Comes υ y := by
        rw [bind_assoc]
        exact h
      refine h.bind_congr (.bind (composed_complete _) fun f => composed_replay hist f)
        fun z hz => ?_
      exact comes_answer hh ((composed_chunk hist _).comes hc not_exhausted_ok)
        ((composed_arrive _ _).comes ht not_exhausted_ok) hz

end

end ResumableParsing
