import ResumableParsing.Proofs.Sessions.Histories
import ResumableParsing.Proofs.Watching.Drives

/-!
# Histories of watched and unwatched sessions

A caller starts sessions, gives them chunks, finishes them and runs programs of its own, in any
order, on any session that it has been given. If the same errands are run with watched and with
unwatched states, then the library answers alike: the sessions are complete at the same time and
have the same chunks, and the results, the errors and the states in them are the same.

Beside the answers a history records how often the parser of a watched state has been asked for.

* `Ask`, `Task.asks`, `Task.asked`: the calls by which watched states are asked for their parsers
* `Errand`, `Errand.run`, `Errand.asked`: what the caller asks of the library
* `Trip`, `Course`: the errands so far, with their answers and calls
* `Watching.course_agrees`: the same errands, watched and unwatched
-/

namespace ResumableParsing

variable {W α : Type}

/-! ## Calls -/

/-- A call by which a state inside a chunk asks its inner state for the parser that moves past a
token. -/
structure Ask where
  /-- The state inside a chunk. -/
  state : AdvanceId
  /-- Its inner state. -/
  inner : State Value
  /-- The token. -/
  token : Value

/-- The call that a step begins with. It moves past a token by the parser of a watched state unless
the way past it is known. -/
def Task.asks (σ : Store W) : Task W → List Ask
  | .cross a _ (.plain true input position user) _ =>
    match σ.advances[a.index]? with
    | some ⟨token, none, _⟩ => [⟨a, .plain true input position user, token.getD .none⟩]
    | _ => []
  | _ => []

/-- The step with a call runs the parser that the inner state gives for the token, and notes in the
state inside the chunk what the parser replies. -/
theorem Task.step_of_asks {t : Task W} {σ : Store W} {x : Ask} (h : x ∈ t.asks σ) :
    ∃ chunk k, t = .cross x.state chunk x.inner k ∧ ∀ m : Means W, t.step m σ =
      (do return .tail (← x.inner.next x.token (.crossed x.state chunk :: k)) : Eval W _) m σ := by
  unfold Task.asks at h
  split at h
  · next a chunk input position user k =>
    split at h
    · next token exhausted found =>
      obtain rfl := List.mem_singleton.mp h
      refine ⟨chunk, k, rfl, fun m => ?_⟩
      simp [Task.step, AdvanceId.cross, AdvanceId.memory, found]
    · cases h
  · cases h

/-- The calls behind a computation, if it succeeds. -/
def Eval.calls (m : Means W) (σ : Store W) (x : Eval W α) (f : α → Store W → List Ask) : List Ask :=
  match x m σ with
  | .ok a τ => f a τ
  | .error .. => []

/-- The calls during a run of at most `n` steps, in order. -/
def Task.asked (m : Means W) : (n : Nat) → Task W → Store W → List Ask
  | 0, _, _ => []
  | n + 1, t, σ => t.asks σ ++ t.step.calls m σ fun s τ =>
    match s with
    | .tail t' => Task.asked m n t' τ
    | .value _ => []

/-- The calls while requests for chunks of the history are answered. -/
def Finish.asked (m : Means W) (chunks : History) : (n : Nat) → Finish W → Store W → List Ask
  | 0, _, _ => []
  | n + 1, f, σ =>
    match f with
    | .reply _ => []
    | .request q =>
      if chunks.has q.chunk then
        (chunks.chunk q.chunk >>= q.arrive).calls m σ fun t τ =>
          t.asked m m.steps τ ++ t.complete.calls m τ fun f υ => Finish.asked m chunks n f υ
      else []

/-- The calls while a session gets a chunk. -/
def SessionId.asked (m : Means W) (source : Source) (i : SessionId) (σ : Store W) : List Ask :=
  i.session.calls m σ fun s σ =>
    if s.isDone then []
    else (s.opening source).calls m σ fun x τ =>
      match x with
      | (_, none) => []
      | (chunks, some t) =>
        t.asked m m.steps τ ++ t.complete.calls m τ fun f υ => f.asked m chunks m.steps υ

/-- The calls while a session gets a chunk, unless that is empty. -/
def SessionId.askedUnlessEmpty (m : Means W) (source : Source) (i : SessionId) (σ : Store W) :
    List Ask :=
  source.asStream.calls m σ fun c σ => c.isEmpty.calls m σ fun empty σ =>
    if empty then [] else i.asked m (.stream c) σ

/-- The calls while a session is fed with ends of the input until it is complete. -/
def SessionId.askedFor (m : Means W) : (n : Nat) → SessionId → Store W → List Ask
  | 0, _, _ => []
  | n + 1, i, σ => i.asked m .none σ ++ (i.forceProvide .none).calls m σ fun i σ =>
    i.session.calls m σ fun s σ =>
      match s.stage with
      | .complete _ => []
      | _ => i.askedFor m n σ

/-! ## Errands -/

/-- What a caller can ask of the library. -/
inductive Errand (W : Type) where
  /-- Starts a session from a plain state. -/
  | start (p : ParserId) (watched : Bool) (input : Stream Value) (position : Int) (user : Value)
      (handlers : Handlers W)
  /-- Gives a chunk to a session, unless it is empty. -/
  | provide (source : Source) (i : SessionId)
  /-- Gives a chunk to a session. -/
  | force (source : Source) (i : SessionId)
  /-- Asks for the result of a session at the end of the input. -/
  | finish (i : SessionId)
  /-- Runs a program of the caller. -/
  | act (a : Action W Value)

/-- What the library answers. -/
inductive Answer where
  /-- A session. -/
  | session (i : SessionId)
  /-- A value. -/
  | value (v : Value)

namespace Errand

/-- The errand is run. -/
def run : Errand W → Eval W Answer
  | .start p watched input position user handlers =>
    .session <$> p.startSession (.plain watched input position user) handlers
  | .provide source i => .session <$> i.provide source
  | .force source i => .session <$> i.forceProvide source
  | .finish i => .value <$> i.finish
  | .act a => .value <$> a.run

/-- The calls while the errand is run, if handlers and programs of the caller make no states. -/
def asked (m : Means W) (σ : Store W) : Errand W → List Ask
  | .start p watched input position user handlers =>
    History.empty.calls m σ fun chunks σ =>
      (SessionId.make ⟨.ready p (.plain watched input position user), handlers, chunks⟩).calls m σ
        fun i σ => i.askedUnlessEmpty m (.stream input) σ
  | .provide source i => i.askedUnlessEmpty m source σ
  | .force source i => i.asked m source σ
  | .finish i => i.askedFor m m.steps σ
  | .act _ => []

/-- The errand is about the parsers `P` and the sessions of a list, and what the caller brings along
takes no notice of who is watched, and makes no states. -/
def Fits (P : ParserId → Prop) (pool : List SessionId) : Errand W → Prop
  | .start p _ _ _ _ handlers => P p ∧ handlers.IgnoreWatching
  | .provide _ i => i ∈ pool
  | .force _ i => i ∈ pool
  | .finish i => i ∈ pool
  | .act a => a.Detached

/-- The errands are the same, except for who is watched. -/
inductive Alike : Errand W → Errand W → Prop where
  | start (p : ParserId) (watched watched' : Bool) (input : Stream Value) (position : Int)
      (user : Value) (handlers : Handlers W) :
      Alike (.start p watched input position user handlers)
        (.start p watched' input position user handlers)
  | provide (source : Source) (i : SessionId) : Alike (.provide source i) (.provide source i)
  | force (source : Source) (i : SessionId) : Alike (.force source i) (.force source i)
  | finish (i : SessionId) : Alike (.finish i) (.finish i)
  | act {a b : Action W Value} : a.Matches b → Alike (.act a) (.act b)

end Errand

/-- The answers are the same, except for who is watched. -/
inductive Answer.Alike : Answer → Answer → Prop where
  | session (i : SessionId) : Alike (.session i) (.session i)
  | value {v u : Value} : v.Alike u → Alike (.value v) (.value u)

/-! ## Histories -/

/-- An errand that has been run. -/
structure Trip (W : Type) where
  /-- The errand. -/
  errand : Errand W
  /-- The calls. -/
  asked : List Ask
  /-- The answer, or why it broke off. -/
  answer : Except Stop Answer

/-- The sessions that have been given. -/
def given : List (Trip W) → List SessionId
  | [] => []
  | ⟨_, _, .ok (.session i)⟩ :: trips => i :: given trips
  | _ :: trips => given trips

/-- `Course P σ₀ trips σ`: the errands, the latest first, lead from the store `σ₀` to the store `σ`.
-/
inductive Course (P : ParserId → Prop) (σ₀ : Store W) : List (Trip W) → Store W → Prop where
  /-- Nothing has been asked. -/
  | none : Course P σ₀ [] σ₀
  /-- One more errand, run within a bound that is large enough. -/
  | more {trips : List (Trip W)} {σ : Store W} (e : Errand W) (n : Nat) :
      Course P σ₀ trips σ → e.Fits P (given trips) → ¬Exhausted (e.run.exec n σ) →
      Course P σ₀ (⟨e, e.asked (.within n) σ, answer (e.run.exec n σ)⟩ :: trips)
        (left (e.run.exec n σ))

/-- Nothing has been parsed, and no state has been put into a chunk. -/
structure Store.Pristine (P : ParserId → Prop) (σ : Store W) : Prop where
  /-- The parsers only start one another. -/
  closed : Closed (fun _ => False) P σ
  /-- Nothing is parsed when streams are read. -/
  still : σ.Still
  /-- No state is inside a chunk. -/
  advances : σ.advances = #[]
  /-- There are no results. -/
  results : σ.results = #[]
  /-- There are no sessions. -/
  sessions : σ.sessions = #[]

/-- A grammar of the library is built, and nothing else has been done. -/
theorem Grammar.Library.pristine {g : Grammar W}
    (h : g.Library (fun _ => False) fun p => p = .finished) (world : W) (watch : Value → W → W) :
    ∃ P, (g.build (.initial world watch)).2.Pristine P ∧ P (g.build (.initial world watch)).1 := by
  obtain ⟨P, -, hP, hp⟩ := h.scoped _ (closed_initial world watch)
  have frame := g.build_grows.frame (.initial world watch)
  refine ⟨P, ⟨hP, fun i x hx => ?_, ?_, ?_, ?_⟩, hp⟩
  · rw [frame] at hx
    cases hx
  · rw [frame]
    rfl
  · rw [frame]
    rfl
  · rw [frame]
    rfl

section

variable {P : ParserId → Prop} {σ₀ σ τ : Store W} {trips : List (Trip W)} {x : Eval W α}
  {f : α → Answer} {r : EStateM.Result Stop (Store W) Answer}

theorem composed_errand (e : Errand W) : Composed e.run := by
  cases e with
  | start p watched input position user handlers => exact (composed_startSession p _ handlers).map _
  | provide source i => exact (composed_provide source i).map _
  | force source i => exact (composed_forceProvide source i).map _
  | finish i => exact (composed_finish i).map _
  | act a => exact (composed_action a).map _

/-- One more errand that comes to its end. -/
theorem Course.more_of_comes (course : Course P σ₀ trips σ) {e : Errand W}
    (fits : e.Fits P (given trips)) (hr : e.run.Comes σ r) :
    ∃ asked, Course P σ₀ (⟨e, asked, answer r⟩ :: trips) (left r) := by
  obtain ⟨he, n, hn⟩ := hr
  have run : e.run.exec n σ = r := hn n (Nat.le_refl n)
  have more := course.more e n fits (run ▸ he)
  rw [run] at more
  exact ⟨_, more⟩

/-- What an answer is made of. -/
theorem of_comes_map (hx : Composed x) (h : (f <$> x).Comes σ r) :
    (∃ a τ, x.Comes σ (.ok a τ) ∧ r = .ok (f a) τ) ∨
      ∃ e τ, x.Comes σ (.error e τ) ∧ r = .error e τ := by
  rw [map_eq_pure_bind] at h
  rcases h.of_bind hx with ⟨a, σ₁, ha, hr⟩ | ⟨e, σ₁, he, rfl⟩
  · exact .inl ⟨a, σ₁, ha, hr.unique (comes_pure _ σ₁)⟩
  · exact .inr ⟨e, σ₁, he, rfl⟩

theorem comes_map_ok {a : α} (h : x.Comes σ (.ok a τ)) : (f <$> x).Comes σ (.ok (f a) τ) := by
  rw [map_eq_pure_bind]
  exact comes_bind_ok h (comes_pure _ τ)

theorem comes_map_error {e : Stop} (h : x.Comes σ (.error e τ)) :
    (f <$> x).Comes σ (.error e τ) := by
  rw [map_eq_pure_bind]
  exact comes_bind_error h

end

namespace Watching

/-! ## The same errands -/

/-- The library has given the same answers, except for who is watched. -/
inductive Told : Except Stop Answer → Except Stop Answer → Prop where
  | answer {x y : Answer} : x.Alike y → Told (.ok x) (.ok y)
  | stop {e f : Stop} : e.Alike f → Told (.error e) (.error f)

/-- Both histories have come to the same point. -/
structure Abreast (P : ParserId → Prop) (w : World W) (trips trips' : List (Trip W))
    (σ τ : Store W) : Prop where
  /-- The stores differ only in who is watched. -/
  stores : Stores w σ τ
  /-- The parsers are known. -/
  known : ∀ p, P p → w.known p
  /-- The sessions that have been given are the same. -/
  sessions : ∀ i ∈ given trips, Sessions w i
  /-- There are as many of them. -/
  given : given trips = given trips'
  /-- So are the answers. -/
  told : List.Forall₂ (fun x y : Trip W => Told x.answer y.answer) trips trips'

/-- The errand has been run on both sides, and answered alike. -/
inductive Replied (w : World W) : EStateM.Result Stop (Store W) Answer →
    EStateM.Result Stop (Store W) Answer → Prop where
  | session {w' : World W} {σ τ : Store W} {i : SessionId} : w.Le w' → Stores w' σ τ →
      Sessions w' i → Replied w (.ok (.session i) σ) (.ok (.session i) τ)
  | value {w' : World W} {σ τ : Store W} {v u : Value} : w.Le w' → Stores w' σ τ →
      v.Alike u → Replied w (.ok (.value v) σ) (.ok (.value u) τ)
  | stop {w' : World W} {σ τ : Store W} {e f : Stop} : w.Le w' → Stores w' σ τ →
      e.Alike f → Replied w (.error e σ) (.error f τ)

section

variable {P : ParserId → Prop} {w : World W} {σ σ₀ τ : Store W} {trips trips' : List (Trip W)}
  {r : EStateM.Result Stop (Store W) Answer}

/-- The same session is given on both sides. -/
theorem replied_session {x y : Eval W SessionId} (hs : Stores w σ τ) (hx : Composed x)
    (h : (correspondence W).Runs w (fun w' i j => i = j ∧ Sessions w' i) x y)
    (hr : (Answer.session <$> x).Comes σ r) :
    ∃ r', (Answer.session <$> y).Comes τ r' ∧ Replied w r r' := by
  rcases of_comes_map hx hr with ⟨i, σ', hi, rfl⟩ | ⟨e, σ', he, rfl⟩
  · obtain ⟨r', hr', ends⟩ := h w σ τ _ (.refl w) hs hi
    obtain ⟨_, τ', w', rfl, hle, hs', rfl, there⟩ := ends.of_ok
    exact ⟨_, comes_map_ok hr', .session hle hs' there⟩
  · obtain ⟨r', hr', ends⟩ := h w σ τ _ (.refl w) hs he
    obtain ⟨τ', w', rfl, hle, hs'⟩ := ends.of_error
    exact ⟨_, comes_map_error hr', .stop hle hs' (.same e)⟩

/-- Values that are the same except for who is watched are given on both sides. -/
theorem replied_value {x y : Eval W Value} (hx : Composed x)
    (h : ∀ z, x.Comes σ z → ∃ z', y.Comes τ z' ∧ Answers w z z')
    (hr : (Answer.value <$> x).Comes σ r) :
    ∃ r', (Answer.value <$> y).Comes τ r' ∧ Replied w r r' := by
  rcases of_comes_map hx hr with ⟨v, σ', hv, rfl⟩ | ⟨e, σ', he, rfl⟩
  · obtain ⟨z, hz, answers⟩ := h _ hv
    cases answers with
    | ok hle hs hvu => exact ⟨_, comes_map_ok hz, .value hle hs hvu⟩
  · obtain ⟨z, hz, answers⟩ := h _ he
    cases answers with
    | error hle hs hef => exact ⟨_, comes_map_error hz, .stop hle hs hef⟩

/-- The same errand is answered alike on both sides. -/
theorem replied {e e' : Errand W} {pool : List SessionId} (hs : Stores w σ τ)
    (known : ∀ p, P p → w.known p) (sessions : ∀ i ∈ pool, Sessions w i) (fits : e.Fits P pool)
    (alike : e.Alike e') (hr : e.run.Comes σ r) : ∃ r', e'.run.Comes τ r' ∧ Replied w r r' := by
  cases alike with
  | start p v v' input position user handlers =>
    exact replied_session hs (composed_startSession p _ handlers)
      (runs_startSession (known p fits.1) v v' input position user fits.2) hr
  | provide source i =>
    exact replied_session hs (composed_provide source i) (runs_provide source (sessions i fits)) hr
  | force source i =>
    exact replied_session hs (composed_forceProvide source i)
      (runs_forceProvide source (sessions i fits)) hr
  | finish i =>
    exact replied_value (composed_finish i) (fun z hz => answers_finish (sessions i fits) hs hz) hr
  | @act a b h =>
    exact replied_value (composed_action a) (fun z hz => answers_of_matches h hs hz) hr

/-- The other errand is about the same parsers and sessions. -/
theorem fits_of_alike {e e' : Errand W} {pool : List SessionId} (fits : e.Fits P pool)
    (alike : e.Alike e') : e'.Fits P pool := by
  cases alike with
  | start => exact fits
  | provide => exact fits
  | force => exact fits
  | finish => exact fits
  | act h => exact h.detached

/-- One more errand is run on both sides. -/
theorem Abreast.more {e e' : Errand W} (h : Abreast P w trips trips' σ τ)
    (fits : e.Fits P (ResumableParsing.given trips)) (alike : e.Alike e')
    (hr : e.run.Comes σ r) : ∃ r' w', e'.run.Comes τ r' ∧ ∀ asked asked',
      Abreast P w' (⟨e, asked, answer r⟩ :: trips) (⟨e', asked', answer r'⟩ :: trips')
        (left r) (left r') := by
  obtain ⟨r', hr', replied⟩ := replied h.stores h.known h.sessions fits alike hr
  have known {w' : World W} (hle : w.Le w') (p : ParserId) (hp : P p) := hle.known p (h.known p hp)
  have sessions {w' : World W} (hle : w.Le w') (i : SessionId)
      (hi : i ∈ ResumableParsing.given trips) := (h.sessions i hi).mono hle
  cases replied with
  | session hle hs there =>
    refine ⟨_, _, hr', fun _ _ => ⟨hs, known hle, ?_, congrArg (List.cons _) h.given,
      .cons (.answer (.session _)) h.told⟩⟩
    -- The session is the new one or has been given before.
    rintro i (_ | ⟨_, hi⟩)
    · exact there
    · exact sessions hle i hi
  | value hle hs hv =>
    exact ⟨_, _, hr', fun _ _ => ⟨hs, known hle, sessions hle, h.given,
      .cons (.answer (.value hv)) h.told⟩⟩
  | stop hle hs he =>
    exact ⟨_, _, hr', fun _ _ => ⟨hs, known hle, sessions hle, h.given, .cons (.stop he) h.told⟩⟩

/-- The same errands lead to the same answers. -/
theorem course_abreast (pristine : σ₀.Pristine P) (unseen : ∀ token world,
    σ₀.watch token world = world) (course : Course P σ₀ trips σ) {errands : List (Errand W)}
    (alike : List.Forall₂ Errand.Alike (trips.map Trip.errand) errands) :
    ∃ trips' τ w, Course P σ₀ trips' τ ∧ trips'.map Trip.errand = errands ∧
      Abreast P w trips trips' σ τ := by
  induction course generalizing errands with
  | none =>
    cases alike
    refine ⟨[], σ₀, ⟨P, σ₀, σ₀⟩, .none, rfl, ⟨.refl σ₀, pristine.still, pristine.closed, unseen, ?_,
      ?_, rfl, rfl, .refl σ₀, .refl σ₀⟩, fun _ hp => hp, by simp [given], rfl, .nil⟩
    · exact ⟨rfl, fun i x y hx => by simp [pristine.advances] at hx⟩
    · exact ⟨rfl, fun i x y hx => by simp [pristine.results] at hx⟩
  | @more trips σ e n course fits ended ih =>
    cases alike with
    | cons he rest =>
      obtain ⟨trips', τ, w, course', rfl, abreast⟩ := ih rest
      have comes := (composed_errand e).comes rfl ended
      obtain ⟨r', w', hr', abreast'⟩ := abreast.more fits he comes
      have fits' := abreast.given ▸ fits_of_alike fits he
      obtain ⟨asked', course''⟩ := course'.more_of_comes fits' hr'
      exact ⟨_, _, w', course'', rfl, abreast' _ _⟩

/-- Sessions are the same to the caller if both are complete or neither is, and they have the same
chunks. -/
def Same (σ τ : Store W) (i : SessionId) : Prop :=
  ∃ s t chunks, σ.sessions[i.index]? = some s ∧ τ.sessions[i.index]? = some t ∧
    s.isDone = t.isDone ∧ s.chunks.Shows σ chunks ∧ t.chunks.Shows τ chunks

/-- The sessions that have been given are the same to the caller. -/
theorem Abreast.same (h : Abreast P w trips trips' σ τ) {i : SessionId}
    (hi : i ∈ ResumableParsing.given trips) : Same σ τ i := by
  obtain ⟨s, t, hs, ht, paired⟩ := h.sessions i hi
  obtain ⟨cs, lists⟩ := paired.lists
  have left : s.chunks.Lists σ cs := lists.later h.stores.left.carries
  have right : t.chunks.Lists τ cs := by
    obtain ⟨buffer, hb, size, whole⟩ := left
    exact ⟨buffer, h.stores.buffers ▸ paired.chunks ▸ hb, paired.chunks ▸ size, whole⟩
  exact ⟨s, t, cs, h.stores.left.sessions _ s hs, h.stores.right.sessions _ t ht, paired.isDone_eq,
    left.shows, right.shows⟩

/-- **Watched and unwatched sessions agree.** -/
theorem course_agrees (pristine : σ₀.Pristine P) (unseen : ∀ token world,
    σ₀.watch token world = world) (course : Course P σ₀ trips σ) {errands : List (Errand W)}
    (alike : List.Forall₂ Errand.Alike (trips.map Trip.errand) errands) :
    ∃ trips' τ, Course P σ₀ trips' τ ∧ trips'.map Trip.errand = errands ∧
      List.Forall₂ (fun x y : Trip W => Told x.answer y.answer) trips trips' ∧
      ∀ i ∈ given trips, Same σ τ i := by
  obtain ⟨trips', τ, w, course', same, abreast⟩ := course_abreast pristine unseen course alike
  exact ⟨trips', τ, course', same, abreast.told, fun i hi => abreast.same hi⟩

end

end Watching

end ResumableParsing
