import ResumableParsing.Proofs.Lineages.Drives
import ResumableParsing.Proofs.Stream.Questions
import ResumableParsing.Proofs.Watching.Crossing

/-!
# Driving watched and unwatched sessions

Two sessions differ only in who is watched, and they get the same chunks. Then they need the same
chunks next, their parses are over at the same time, and they give the same results.

* `Watching.Stages`, `Watching.Paired`, `Watching.Sessions`: sessions that differ only in who is
  watched
* `Watching.runs_forceProvide`, `Watching.runs_provide`, `Watching.runs_startSession`: the
  operations that give sessions
* `Watching.answers_of_matches`: programs of the caller that ask the same things
* `Watching.answers_finish`: the results of sessions
-/

namespace ResumableParsing.Watching

variable {W α β : Type}

/-! ## Corresponding sessions -/

/-- Both parses are to start in the same state, wait at the same place, or have ended with the same
deferred result, except for who is watched. -/
inductive Stages (w : World W) : Stage W → Stage W → Prop where
  | ready {p : ParserId} (watched watched' : Bool) (input : Stream Value) (position : Int)
      (user : Value) : w.known p →
      Stages w (.ready p (.plain watched input position user))
        (.ready p (.plain watched' input position user))
  | waiting {r r' : Request W} :
      Finishes w (.request r) (.request r') → Stages w (.waiting r) (.waiting r')
  | complete (result : ResultId) : Stages w (.complete result) (.complete result)

/-- The sessions are the same, except for who is watched. -/
structure Paired (w : World W) (s t : Session W) : Prop where
  /-- How far they have come. -/
  stage : Stages w s.stage t.stage
  /-- What the caller does with the end. -/
  handlers : s.handlers = t.handlers
  /-- It does not depend on who is watched. -/
  ignore : s.handlers.IgnoreWatching
  /-- The chunks. -/
  chunks : s.chunks = t.chunks
  /-- They are there. -/
  lists : ∃ cs, s.chunks.Lists w.left cs

/-- The session is there on both sides. -/
def Sessions (w : World W) (i : SessionId) : Prop :=
  ∃ s t, w.left.sessions[i.index]? = some s ∧ w.right.sessions[i.index]? = some t ∧ Paired w s t

section

variable {w w' : World W} {s t : Session W} {a b : Stage W} {f g : Finish W}
  {i : SessionId} {l : History}

/-! ### Later worlds -/

theorem Finishes.mono (hle : w.Le w') (h : Finishes w f g) : Finishes w' f g := by
  have hC := faithful W
  cases h with
  | reply hr => exact .reply (hC.replies_mono hle hr)
  | request n v v' i p u x hk => exact .request n v v' i p u x (hC.continuations_mono hle hk)

theorem Stages.mono (hle : w.Le w') (h : Stages w a b) : Stages w' a b := by
  cases h with
  | ready v v' i p u hp => exact .ready v v' i p u (hle.known _ hp)
  | waiting hr => exact .waiting (hr.mono hle)
  | complete result => exact .complete result

theorem Paired.mono (hle : w.Le w') (h : Paired w s t) : Paired w' s t := by
  obtain ⟨cs, lists⟩ := h.lists
  exact { h with stage := h.stage.mono hle, lists := ⟨cs, lists.later hle.left.carries⟩ }

theorem Sessions.mono (hle : w.Le w') (h : Sessions w i) : Sessions w' i := by
  obtain ⟨s, t, hs, ht, paired⟩ := h
  exact ⟨s, t, hle.left.sessions _ s hs, hle.right.sessions _ t ht, paired.mono hle⟩

/-- Both sessions are complete, or neither is. -/
theorem Paired.isDone_eq (h : Paired w s t) : s.isDone = t.isDone := by
  have stage := h.stage
  rw [Session.isDone, Session.isDone]
  generalize s.stage = a at stage
  generalize t.stage = b at stage
  cases stage <;> rfl

/-- Corresponding replies differ only in who is watched. -/
theorem alike_of_replies {r r' : Reply Value} (h : (correspondence W).Replies w r r') :
    r.Alike r' := by
  have same : ∀ {ps qs : List ParserId},
      List.Forall₂ ((correspondence W).Parsers w) ps qs → ps = qs := by
    intro ps qs h
    have h := h.imp (S := Eq) fun _ _ hpq => hpq.1
    rwa [List.forall₂_eq_eq_eq] at h
  cases h with
  | ok d hv hs =>
    cases hv
    exact .ok d _ (Within.alike hs)
  | err d he hs =>
    exact .err d ⟨he.reason, Within.alike he.state, same he.expected, he.merged⟩ (Within.alike hs)

/-! ## Chunks -/

/-- The buffers are the same, so the same chunks are read. -/
theorem runs_contents (l : History) :
    (correspondence W).Runs w (fun _ a b => a = b) l.contents l.contents := by
  have hC := even W
  refine hC.get fun w' σ τ _ hs => ?_
  rw [Stores.buffers hs]
  exact hC.imp (hC.runs_quiet (.deref _)) fun _ _ _ _ h => h.1

theorem runs_chunk (l : History) (n : Int) :
    (correspondence W).Runs w (fun _ a b => a = b) (l.chunk n) (l.chunk n) := by
  have hC := even W
  rw [History.chunk]
  split
  · refine hC.bind (composed_contents l) (runs_contents l) ?_
    rintro w' b _ - rfl
    exact hC.imp (hC.runs_quiet (.deref _)) fun _ _ _ _ h => h.1
  · exact hC.fault _

/-- Both histories get one more chunk. -/
theorem runs_append {cs : List (Stream Value)} (hl : l.Lists w.left cs) (c : Stream Value) :
    (correspondence W).Runs w (fun w' l l' => l = l' ∧ l.Lists w'.left (cs ++ [c]))
      (l.append c) (l.append c) := by
  intro w' σ τ r hle hs hr
  have hs : Stores w' σ τ := hs
  have there : l.Lists σ cs := hl.later ((World.Le.left hle).trans hs.left).carries
  obtain ⟨l', buffers, lists, append⟩ := there.append_eq c
  have left : (l.append c).Comes σ _ := comes_of_forall (fun _ => append σ _ rfl) not_exhausted_ok
  have right : (l.append c).Comes τ _ :=
    comes_of_forall (fun _ => append τ _ hs.buffers.symm) not_exhausted_ok
  cases hr.unique left
  have composed : Composed (l.append c : Eval W History) := composed_appendChunk l c
  have changed := hs.change (composed.grows_of_comes left) (composed.grows_of_comes right)
    { hs.alike with } hs.still hs.advances hs.results rfl hs.sessions
  -- The longer history is there from now on.
  exact ⟨_, right, _, changed.observe.1, changed.observe.2, rfl, lists⟩

/-! ## Going on -/

/-- Both parses are at the beginning of a chunk. -/
theorem runs_inChunk (n : Int) (watched watched' : Bool) (input : Stream Value) (position : Int)
    (user : Value) : (correspondence W).Runs w (fun _ => Within)
      (State.inChunk n (.plain watched input position user))
      (State.inChunk n (.plain watched' input position user)) := by
  refine runs_modifyGet (composed_inChunk n _) (composed_inChunk n _)
    fun w' σ τ _ hs left right => ⟨w', .refl w', ?_, ?_⟩
  · exact hs.change left right { hs.alike with } hs.still (hs.advances.push (.unknown none))
      hs.results hs.buffers hs.sessions
  · rw [hs.advances.size]
    exact .intro ..

/-- Both parses that wait arrive in the chunk. -/
theorem runs_arrive {r r' : Request W} (hr : Finishes w (.request r) (.request r'))
    (c : Stream Value) :
    (correspondence W).Runs w (correspondence W).Tasks (r.arrive c) (r'.arrive c) := by
  have hC := even W
  cases hr with
  | request n v v' i p u x hk =>
    simp only [Request.arrive, State.setInput, State.alter, pure_bind]
    refine hC.bind (composed_inChunk n _) (runs_inChunk n v v' c p u) fun w₁ s t h₁ hst =>
      hC.pure fun w₂ h₂ => ?_
    exact .arrive hst rfl ((faithful W).continuations_mono (hC.trans h₁ h₂) hk)

/-- Both parses are opened with the chunk, unless they are complete. -/
theorem runs_opening (h : Stages w a b) (c : Stream Value) :
    (correspondence W).Runs w (fun w' => Option.Rel ((correspondence W).Tasks w'))
      (a.opening c) (b.opening c) := by
  have hC := even W
  cases h with
  | ready v v' i n u hp =>
    simp only [Stage.opening, State.setInput, State.alter, pure_bind]
    refine hC.bind (composed_inChunk 0 _) (runs_inChunk 0 v v' c n u) fun w₁ s t h₁ hst =>
      hC.pure fun w₂ h₂ => ?_
    have hle : w.Le w₂ := World.Le.trans h₁ h₂
    exact .some (.run ⟨rfl, hle.known _ hp⟩ hst .nil)
  | @waiting r r' hr =>
    rw [Stage.opening, Stage.opening, map_eq_pure_bind, map_eq_pure_bind]
    refine hC.bind (composed_arrive r c) (runs_arrive hr c) fun w₁ t u _ ht =>
      hC.pure fun w₂ h₂ => ?_
    exact .some ((faithful W).tasks_mono h₂ ht)
  | complete _ => exact hC.pure fun _ _ => .none

/-- Requests for old chunks are answered alike. -/
theorem runs_replay (n : Nat) (l : History) (hf : Finishes w f g) :
    (correspondence W).Runs w Finishes (Finish.replay l n f) (Finish.replay l n g) := by
  have hC := even W
  induction n generalizing w f g with
  | zero => exact Correspondence.runs_exhausted
  | succ n ih =>
    have wait := hf
    cases hf with
    | reply hr => exact hC.pure fun _ hle => wait.mono hle
    | request m v v' i p u x hk =>
      simp only [Finish.replay, resume_eq_arrive, bind_assoc]
      split
      · refine hC.bind (composed_chunk l m) (runs_chunk l m) ?_
        rintro w₁ c _ h₁ rfl
        have arrive := runs_arrive (wait.mono h₁) c
        refine hC.bind (composed_arrive _ c) arrive fun w₂ t u h₂ ht => ?_
        exact hC.bind (composed_complete t) (runs_complete ht) fun w₃ f g h₃ hf => ih hf
      · exact hC.pure fun _ hle => wait.mono hle

/-- The end of a parse becomes a deferred result on both sides. -/
theorem runs_result {a b : Action W Value} (h : a.Matches b) :
    (correspondence W).Runs w (fun _ i j => i = j) (ResultId.make a) (ResultId.make b) := by
  refine runs_modifyGet (composed_makeResult a) (composed_makeResult b)
    fun w' σ τ _ hs left right => ⟨w', .refl w', ?_, ?_⟩
  · exact hs.change left right { hs.alike with } hs.still hs.advances (hs.results.push ⟨h, .unset⟩)
      hs.buffers hs.sessions
  · exact congrArg ResultId.mk hs.results.size

/-- Whether a parse waits or has ended is noted alike. -/
theorem runs_stage {h h' : Handlers W} (same : h = h') (ignore : h.IgnoreWatching) (l : History)
    (hf : Finishes w f g) : (correspondence W).Runs w Stages (f.stage h l) (g.stage h' l) := by
  have hC := even W
  subst same
  have wait := hf
  cases hf with
  | request =>
    refine hC.bind (.debug _) (hC.runs_debug _ _) fun w₁ _ _ h₁ _ => hC.pure fun w₂ h₂ => ?_
    exact .waiting (wait.mono (World.Le.trans h₁ h₂))
  | @reply r r' hr =>
    refine hC.bind (composed_makeResult _) (runs_result (ignore r r' (alike_of_replies hr))) ?_
    rintro w₁ i _ - rfl
    exact hC.bind (.debug _) (hC.runs_debug _ _) fun w₂ _ _ _ _ => hC.pure fun _ _ => .complete i

/-- The same session is made on both sides. -/
theorem runs_make (h : Paired w s t) : (correspondence W).Runs w
    (fun w' i j => i = j ∧ Sessions w' i) (SessionId.make s) (SessionId.make t) := by
  refine runs_modifyGet (composed_makeSession s)
    (composed_makeSession t) fun w' σ τ hle hs left right => ?_
  have changed := hs.change left right { hs.alike with } hs.still hs.advances hs.results hs.buffers
    (by rw [Array.size_push, Array.size_push, hs.sessions])
  -- The new session is found from now on.
  obtain ⟨later, observed⟩ := changed.observe
  refine ⟨_, later, observed, congrArg SessionId.mk hs.sessions, s, t, Array.getElem?_push_size, ?_,
    (h.mono hle).mono later⟩
  simp only [hs.sessions]
  exact Array.getElem?_push_size

/-- Both parses are driven as far as their chunks go. -/
theorem runs_drive (hst : Paired w s t) {cs : List (Stream Value)} (hl : l.Lists w.left cs)
    {x y : Task W}
    (hxy : (correspondence W).Tasks w x y) : (correspondence W).Runs w
      (fun w' i j => i = j ∧ Sessions w' i) (s.drive l x) (t.drive l y) := by
  have hC := even W
  refine hC.bind (composed_complete x) (runs_complete hxy) fun w₁ f g h₁ hf => ?_
  have replay : (correspondence W).Runs w₁ Finishes (f.replayed l) (g.replayed l) :=
    Correspondence.runs_loop (fun n => composed_replayFor l n f) (fun n => composed_replayFor l n g)
      (fun n => exhausted_or_replay l n g) fun n => runs_replay n l hf
  refine hC.bind (composed_replay l f) replay fun w₂ f g h₂ hf => ?_
  refine hC.bind (composed_stage _ l f) (runs_stage hst.handlers hst.ignore l hf)
    fun w₃ a b h₃ hab => ?_
  have hle : w.Le w₃ := World.Le.trans h₁ (World.Le.trans h₂ h₃)
  exact runs_make ⟨hab, hst.handlers, hst.ignore, rfl, cs, hl.later hle.left.carries⟩

/-! ## The operations of sessions -/

/-- A session is looked up. -/
theorem runs_session (h : Sessions w i) :
    (correspondence W).Runs w Paired i.session i.session := by
  intro w' σ τ r hle hs hr
  have hs : Stores w' σ τ := hs
  have h := h.mono hle
  obtain ⟨s, t, hi, hj, paired⟩ := h
  have left : (i.session : Eval W _).Comes σ (.ok s σ) :=
    comes_of_forall (fun _ => Lineages.session_eq (hs.left.sessions _ s hi) _) not_exhausted_ok
  have right : (i.session : Eval W _).Comes τ (.ok t τ) :=
    comes_of_forall (fun _ => Lineages.session_eq (hs.right.sessions _ t hj) _) not_exhausted_ok
  cases hr.unique left
  exact ⟨_, right, w', .refl w', hs, paired⟩

/-- The same session gets the same chunk. -/
theorem runs_forceProvide (source : Source) (h : Sessions w i) : (correspondence W).Runs w
    (fun w' i j => i = j ∧ Sessions w' i) (i.forceProvide source) (i.forceProvide source) := by
  have hC := even W
  rw [forceProvide_eq]
  refine hC.bind (composed_session i) (runs_session h) fun w₁ s t h₁ hst => ?_
  have hst : Paired w₁ s t := hst
  have there : Sessions w₁ i := h.mono h₁
  rw [hst.isDone_eq]
  split
  · exact hC.pure fun _ hle => ⟨rfl, there.mono hle⟩
  · simp only [Session.receive, Session.opening, bind_assoc, pure_bind]
    refine hC.bind (composed_asStream source) (hC.runs_quiet (quiet_asStream source)) ?_
    rintro w₂ c _ h₂ ⟨rfl, -⟩
    have hst := hst.mono h₂
    obtain ⟨cs, hl⟩ := hst.lists
    rw [← hst.chunks]
    refine hC.bind (composed_appendChunk _ c) (runs_append hl c) ?_
    rintro w₃ l _ h₃ ⟨rfl, hl⟩
    have hst := hst.mono h₃
    refine hC.bind (composed_openStage c _) (runs_opening hst.stage c) fun w₄ x y h₄ hxy => ?_
    have hle : w₁.Le w₄ := World.Le.trans h₂ (World.Le.trans h₃ h₄)
    cases hxy with
    | none => exact hC.pure fun _ h₅ => ⟨rfl, there.mono (hle.trans h₅)⟩
    | some hxy => exact runs_drive (hst.mono h₄) (hl.later (World.Le.left h₄).carries) hxy

/-- It does so if an empty chunk is passed over. -/
theorem runs_provide (source : Source) (h : Sessions w i) : (correspondence W).Runs w
    (fun w' i j => i = j ∧ Sessions w' i) (i.provide source) (i.provide source) := by
  have hC := even W
  refine hC.bind (composed_asStream source) (hC.runs_quiet (quiet_asStream source)) ?_
  rintro w₁ c _ h₁ ⟨rfl, -⟩
  refine hC.bind (composed_isEmpty c) (hC.runs_quiet (quiet_isEmpty c)) ?_
  rintro w₂ empty _ h₂ ⟨rfl, -⟩
  have there : Sessions w₂ i := h.mono (World.Le.trans h₁ h₂)
  split
  · exact hC.pure fun _ hle => ⟨rfl, there.mono hle⟩
  · exact runs_forceProvide _ there

/-- The same session is started. -/
theorem runs_startSession {p : ParserId} (hp : w.known p) (watched watched' : Bool)
    (input : Stream Value) (position : Int) (user : Value)
    {h : Handlers W} (ignore : h.IgnoreWatching) :
    (correspondence W).Runs w (fun w' i j => i = j ∧ Sessions w' i)
      (p.startSession (.plain watched input position user) h)
      (p.startSession (.plain watched' input position user) h) := by
  have hC := even W
  have history : (correspondence W).Runs w (fun w' l l' => l = l' ∧ l.Lists w'.left [])
      History.empty History.empty := by
    refine runs_modifyGet composed_newHistory composed_newHistory fun w' σ τ _ hs left right => ?_
    have changed := hs.change left right { hs.alike with } hs.still hs.advances hs.results
      (congrArg (Array.push · #[]) hs.buffers) hs.sessions
    refine ⟨_, changed.observe.1, changed.observe.2, by rw [hs.buffers], #[], ?_,
      rfl, List.nil_prefix⟩
    exact Array.getElem?_push_size
  refine hC.bind composed_newHistory history ?_
  rintro w₁ l _ h₁ ⟨rfl, hl⟩
  have hp : w₁.known p := World.Le.known h₁ p hp
  refine hC.bind (composed_makeSession _)
    (runs_make ⟨.ready watched watched' input position user hp, rfl, ignore, rfl, _, hl⟩) ?_
  rintro w₂ i _ h₂ ⟨rfl, hi⟩
  exact runs_provide _ hi

/-- The same sessions are complete after the same number of empty chunks. -/
theorem runs_completeFor (n : Nat) (h : Sessions w i) : (correspondence W).Runs w
    (fun _ i j => i = j) (i.completeFor n) (i.completeFor n) := by
  have hC := even W
  induction n generalizing w i with
  | zero => exact Correspondence.runs_exhausted
  | succ n ih =>
    refine hC.bind (composed_forceProvide _ i) (runs_forceProvide .none h) ?_
    rintro w₁ i _ h₁ ⟨rfl, hi⟩
    refine hC.bind (composed_session i) (runs_session hi) fun w₂ s t h₂ hst => ?_
    have stage := hst.stage
    have hi : Sessions w₂ i := hi.mono h₂
    generalize s.stage = a at stage
    generalize t.stage = b at stage
    cases stage with
    | ready => exact ih hi
    | waiting => exact ih hi
    | complete result => exact hC.pure fun _ _ => rfl

end

/-! ## Results -/

/-- Both computations give values that differ only in who is watched, or break off with such
reasons. -/
inductive Answers (w : World W) : EStateM.Result Stop (Store W) Value →
    EStateM.Result Stop (Store W) Value → Prop where
  | ok {w' : World W} {σ τ : Store W} {v u : Value} :
      w.Le w' → Stores w' σ τ → v.Alike u → Answers w (.ok v σ) (.ok u τ)
  | error {w' : World W} {σ τ : Store W} {e f : Stop} :
      w.Le w' → Stores w' σ τ → e.Alike f → Answers w (.error e σ) (.error f τ)

section

variable {w w' : World W} {σ τ : Store W} {r r' : EStateM.Result Stop (Store W) Value}

theorem Answers.mono (hle : w.Le w') (h : Answers w' r r') : Answers w r r' := by
  cases h with
  | ok hle' hs hv => exact .ok (hle.trans hle') hs hv
  | error hle' hs he => exact .error (hle.trans hle') hs he

/-- Both stores have gone on. -/
theorem Answers.stores (h : Answers w r r') : ∃ w', w.Le w' ∧ Stores w' (left r) (left r') := by
  cases h with
  | ok hle hs _ => exact ⟨_, hle, hs⟩
  | error hle hs _ => exact ⟨_, hle, hs⟩

/-- Behind a computation that corresponds, the answers are given. -/
theorem answers_bind {x : Eval W α} {y : Eval W β} {f : α → Eval W Value} {g : β → Eval W Value}
    {Q : World W → α → β → Prop} (hs : Stores w σ τ) (hx : Composed x)
    (h : (correspondence W).Runs w Q x y)
    (hf : ∀ w' σ' τ' a b r, w.Le w' → Stores w' σ' τ' → Q w' a b → (f a).Comes σ' r →
      ∃ r', (g b).Comes τ' r' ∧ Answers w' r r') (hr : (x >>= f).Comes σ r) :
    ∃ r', (y >>= g).Comes τ r' ∧ Answers w r r' := by
  rcases hr.of_bind hx with ⟨a, σ', ha, hr⟩ | ⟨e, σ', he, rfl⟩
  · obtain ⟨r₁, hy, ends⟩ := h w σ τ _ (.refl w) hs ha
    obtain ⟨b, τ', w', rfl, hle, hs', hq⟩ := ends.of_ok
    obtain ⟨r', hr', answers⟩ := hf w' σ' τ' a b r hle hs' hq hr
    exact ⟨r', comes_bind_ok hy hr', answers.mono hle⟩
  · obtain ⟨r₁, hy, ends⟩ := h w σ τ _ (.refl w) hs he
    obtain ⟨τ', w', rfl, hle, hs'⟩ := ends.of_error
    exact ⟨_, comes_bind_error hy, .error hle hs' (.same e)⟩

/-- Behind a quiet computation, which is the same on both sides, the answers are given. -/
theorem answers_quiet {x : Eval W α} (hx : Quiet x) {f g : α → Eval W Value} (hs : Stores w σ τ)
    (hf : ∀ w' σ' τ' a r, w.Le w' → Stores w' σ' τ' → (f a).Comes σ' r →
      ∃ r', (g a).Comes τ' r' ∧ Answers w' r r') (hr : (x >>= f).Comes σ r) :
    ∃ r', (x >>= g).Comes τ r' ∧ Answers w r r' := by
  refine answers_bind hs hx.composed ((even W).runs_quiet hx) ?_ hr
  rintro w' σ' τ' a _ r hle hs' ⟨rfl, -⟩ hr
  exact hf w' σ' τ' a r hle hs' hr

/-- Behind a look at the stores, the answers are given. -/
theorem answers_get {f g : Store W → Eval W Value}
    (hf : ∀ r, (f σ).Comes σ r → ∃ r', (g τ).Comes τ r' ∧ Answers w r r')
    (hr : (get >>= f).Comes σ r) : ∃ r', (get >>= g).Comes τ r' ∧ Answers w r r' :=
  hf r hr

/-- Programs of the caller that ask the library the same things give the same answers, except for
who is watched. -/
theorem answers_of_matches {a b : Action W Value} (h : a.Matches b) (hs : Stores w σ τ)
    (hr : a.run.Comes σ r) : ∃ r', b.run.Comes τ r' ∧ Answers w r r' := by
  induction h generalizing w σ τ r with
  | @done v u hv =>
    cases hr.unique (comes_pure v σ)
    exact ⟨_, comes_pure u τ, .ok (.refl w) hs hv⟩
  | @raise f g hf =>
    cases hr.unique (comes_fault f σ)
    exact ⟨_, comes_fault g τ, .error (.refl w) hs (.raised hf)⟩
  | @inspect k l _ ih =>
    refine answers_get (f := fun σ => (k σ.world).run) (g := fun τ => (l τ.world).run) ?_ hr
    rw [hs.alike.world]
    exact fun _ hr => ih τ.world hs hr
  | update f _ ih =>
    exact answers_quiet (.world fun w => ((), f w)) hs (fun _ _ _ _ _ _ hs hr => ih hs hr) hr
  | serial _ ih => exact answers_quiet .serial hs (fun _ _ _ n _ _ hs hr => ih n hs hr) hr
  | iterator answer _ ih =>
    exact answers_quiet (.make _) hs (fun _ _ _ it _ _ hs hr => ih it hs hr) hr
  | asStream s _ ih =>
    exact answers_quiet (quiet_asStream s) hs (fun _ _ _ t _ _ hs hr => ih t hs hr) hr
  | isEmpty s _ ih =>
    exact answers_quiet (quiet_isEmpty s) hs (fun _ _ _ e _ _ hs hr => ih e hs hr) hr
  | first s _ ih => exact answers_quiet (quiet_first s) hs (fun _ _ _ v _ _ hs hr => ih v hs hr) hr
  | rest s _ ih => exact answers_quiet (quiet_rest s) hs (fun _ _ _ t _ _ hs hr => ih t hs hr) hr
  | append s t _ ih =>
    exact answers_quiet (quiet_append s t) hs (fun _ _ _ u _ _ hs hr => ih u hs hr) hr
  | toList s _ ih =>
    exact answers_quiet (quiet_toList s) hs (fun _ _ _ vs _ _ hs hr => ih vs hs hr) hr
  | @render v k l _ ih =>
    refine answers_get (f := fun σ => (k (σ.render v)).run)
      (g := fun τ => (l (τ.render v)).run) ?_ hr
    rw [hs.alike.render v]
    exact fun _ hr => ih (τ.render v) hs hr

/-- As much is known of a result on both sides as is put there. -/
theorem aligned_put {a b : Array (Memo (Action W Value) Value)} (h : Aligned Results a b) (i : Nat)
    {s t : Slot Value} (hst : Slots s t) :
    Aligned Results (Memo.putSlot a i s) (Memo.putSlot b i t) :=
  h.modify i fun _ _ _ _ hmn => ⟨hmn.thunk, hst⟩

/-- The result of a session is asked for. -/
theorem answers_force (i : ResultId) (hs : Stores w σ τ)
    (hr : (Eval.force (.result i) : Eval W Value).Comes σ r) :
    ∃ r', (Eval.force (.result i) : Eval W Value).Comes τ r' ∧ Answers w r r' := by
  have immediate {σ : Store W} {e : Stop} (he : e ≠ .exhausted)
      (h : Shelf.results.get i.index (fun a => a.run.exec 0) σ = .error e σ) :
      (Eval.force (.result i) : Eval W Value).Comes σ (.error e σ) := by
    refine (Composed.force (.result i)).comes (n := 1) h ?_
    rintro ⟨υ, eq⟩
    cases eq
    exact he rfl
  cases hm : σ.results[i.index]? with
  | none =>
    have left : Shelf.results.find i.index σ = none := hm
    have right : Shelf.results.find i.index τ = none := hs.results.missing hm
    have missing {σ : Store W} (h : Shelf.results.find i.index σ = none) :=
      immediate (σ := σ) (e := .dangling) (by simp) (by simp only [Shelf.get, h])
    cases hr.unique (missing left)
    exact ⟨_, missing right, .error (.refl w) hs (.same _)⟩
  | some m =>
    obtain ⟨n, hn, thunk, slot⟩ := hs.results.found hm
    obtain ⟨a, x⟩ := m
    obtain ⟨b, y⟩ := n
    have left : Shelf.results.find i.index σ = some ⟨a, x⟩ := hm
    have right : Shelf.results.find i.index τ = some ⟨b, y⟩ := hn
    cases slot with
    | known hv =>
      cases hr.unique (Shelf.comes_get_known (force_result i) left)
      exact ⟨_, Shelf.comes_get_known (force_result i) right, .ok (.refl w) hs hv⟩
    | busy =>
      have busy {σ : Store W} {a : Action W Value}
          (h : Shelf.results.find i.index σ = some ⟨a, .busy⟩) :=
        immediate (σ := σ) (e := .raised .reentrant) (by simp) (by simp only [Shelf.get, h])
      cases hr.unique (busy left)
      exact ⟨_, busy right, .error (.refl w) hs (.same _)⟩
    | unset =>
      obtain ⟨z, hz, rfl⟩ := Shelf.of_comes_get (force_result i) (composed_action a) left hr
      have unset {σ : Store W} {a : Action W Value}
          (h : Shelf.results.find i.index σ = some ⟨a, .unset⟩) :
          σ.Grows (Shelf.results.put i.index .busy σ) := by
        refine Shelf.lawful_results.grows_busy fun x hx => ?_
        rw [h] at hx
        cases hx
        rfl
      have marked : Stores w (Shelf.results.put i.index .busy σ)
          (Shelf.results.put i.index .busy τ) :=
        hs.change (unset left) (unset right) { hs.alike with } hs.still hs.advances
          (aligned_put hs.results i.index .busy) hs.buffers hs.sessions
      obtain ⟨z', hz', answers⟩ := answers_of_matches thunk marked hz
      have forced := Shelf.comes_get_unset (force_result i) right hz'
      have grows := (Composed.force _).grows_of_comes hr
      have grows' := (Composed.force _).grows_of_comes forced
      refine ⟨_, forced, ?_⟩
      -- What the handler leaves is put down in the stores that it leaves.
      cases answers with
      | ok _ hs' hv =>
        refine .ok (.refl w) (hs.change grows grows' { hs'.alike with } hs'.still hs'.advances ?_
          hs'.buffers hs'.sessions) hv
        exact aligned_put hs'.results i.index (.known hv)
      | error _ hs' he =>
        refine .error (.refl w) (hs.change grows grows' { hs'.alike with } hs'.still hs'.advances ?_
          hs'.buffers hs'.sessions) he
        exact aligned_put hs'.results i.index .unset

/-- A session is finished alike on both sides. -/
theorem answers_finish {i : SessionId} (h : Sessions w i) (hs : Stores w σ τ)
    (hr : i.finish.Comes σ r) : ∃ r', i.finish.Comes τ r' ∧ Answers w r r' := by
  have complete : (correspondence W).Runs w (fun _ i j => i = j) i.completion i.completion :=
    Correspondence.runs_loop (fun n => composed_completeFor n i) (fun n => composed_completeFor n i)
      (fun n => exhausted_or_completeFor n i) fun n => runs_completeFor n h
  rw [SessionId.finish_eq] at hr ⊢
  refine answers_bind hs (composed_completion i) complete ?_ hr
  rintro w' σ' τ' result _ r - hs' rfl hr
  exact answers_force result hs' hr

end

end ResumableParsing.Watching
