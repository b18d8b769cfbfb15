import ResumableParsing.Proofs.Watching.Moments

/-!
# Auditing sessions

Every operation of sessions is a chain of runs, and between the runs nobody asks for anything. A run
begins with a new state inside a chunk, and the states that it may come back to have ways that are
known up to the ends of their chunks; so it begins at a moment of a run in order, and ends at rest.

* `audited_opening`, `audited_replay`: the beginnings of runs, and the requests for old chunks
* `audited_forceProvide`, `audited_provide`, `audited_startSession`: the operations that give
  sessions
* `audited_finish`: the results of sessions
-/

namespace ResumableParsing

variable {W α : Type}

section

variable {P : ParserId → Prop} {n : Nat} {σ τ : Store W} {asked : List Ask} {x : Eval W α}
  {f : Finish W} {t : Task W} {s : Session W} {q : Request W} {i : SessionId} {chunks : History}

/-! ## Other changes of the store -/

/-- An element of an array with one more at its end. -/
theorem getElem?_push_cases {x : Array α} {y z : α} {j : Nat} (h : (x.push y)[j]? = some z) :
    z = y ∨ x[j]? = some z := by
  rw [Array.getElem?_push] at h
  split at h
  · cases h
    exact .inl rfl
  · exact .inr h

/-- Nothing but buffers, results and sessions has been added. -/
structure Store.Adjoins (P : ParserId → Prop) (σ τ : Store W) : Prop where
  /-- Nothing is parsed when streams are read. -/
  still : τ.Still
  /-- No state has moved on. -/
  advances : τ.advances = σ.advances
  /-- New results are computed without making states. -/
  results : ∀ (j : Nat) (m : Memo (Action W Value) Value), τ.results[j]? = some m →
    m.thunk.Detached ∨ ∃ m', σ.results[j]? = some m' ∧ m.thunk = m'.thunk
  /-- New sessions are at rest. -/
  sessions : ∀ (j : Nat) (s : Session W), τ.sessions[j]? = some s →
    s.AtRest P σ ∨ σ.sessions[j]? = some s

theorem audited_adjoins {a : α} (audit : Audit P σ asked) (hx : Composed x)
    (e : x (.within n) σ = .ok a τ) (adjoins : σ.Adjoins P τ) :
    Audited P n σ asked x [] fun P' _ _ => P' = P := by
  have grows : σ.Grows τ := hx.grows_of_ok e
  have recalls : σ.Recalls τ := .of_advances adjoins.advances
  refine .of_ok e ⟨fun _ hp => hp, grows, recalls⟩ (audit.later grows recalls adjoins.still ?_
    adjoins.results adjoins.sessions) rfl
  exact fun j m hm => audit.remembers j m (adjoins.advances ▸ hm)

/-- A history of its own is begun. -/
theorem audited_newHistory (audit : Audit P σ asked) :
    Audited P n σ asked History.empty [] fun P' _ _ => P' = P :=
  audited_adjoins audit composed_newHistory rfl
    ⟨audit.still, rfl, fun _ m hm => .inr ⟨m, hm, rfl⟩, fun _ _ hs => .inr hs⟩

/-- A chunk goes into a buffer, unless the history has none. -/
theorem append_cases (chunks : History) (c : Stream Value) (m : Means W) (σ : Store W) :
    (∃ l b, chunks.append c m σ = .ok l { σ with buffers := b }) ∨
      chunks.append c m σ = .error .dangling σ := by
  cases found : σ.buffers[chunks.buffer.index]? with
  | none => exact .inr (by simp [History.append, History.contents, found])
  | some buffer =>
    simp only [History.append, History.contents, Eval.run_bind, Eval.run_get, found,
      Eval.deref_some,
      Eval.run_pure]
    split
    · exact .inl ⟨_, _, rfl⟩
    · exact .inl ⟨_, _, rfl⟩

/-- A history gets one more chunk. -/
theorem audited_append (audit : Audit P σ asked) (c : Stream Value) :
    Audited P n σ asked (chunks.append c) [] fun P' _ _ => P' = P := by
  rcases append_cases chunks c (.within n) σ with ⟨l, b, e⟩ | e
  · exact audited_adjoins audit (composed_appendChunk chunks c) e
      ⟨audit.still, rfl, fun _ m hm => .inr ⟨m, hm, rfl⟩, fun _ _ hs => .inr hs⟩
  · exact .of_eq (y := throw .dangling) e (.throw audit)

/-- A session at rest is made. -/
theorem audited_make (audit : Audit P σ asked) (hs : s.AtRest P σ) :
    Audited P n σ asked (SessionId.make s) [] fun P' _ _ => P' = P := by
  refine audited_adjoins audit (composed_makeSession s) rfl
    ⟨audit.still, rfl, fun _ m hm => .inr ⟨m, hm, rfl⟩, fun j s' hs' => ?_⟩
  rcases getElem?_push_cases hs' with rfl | hs'
  · exact .inl hs
  · exact .inr hs'

/-- A deferred result is made. -/
theorem audited_result (audit : Audit P σ asked) {a : Action W Value} (ha : a.Detached) :
    Audited P n σ asked (ResultId.make a) [] fun P' _ _ => P' = P := by
  refine audited_adjoins audit (composed_makeResult a) rfl
    ⟨audit.still, rfl, fun j m hm => ?_, fun _ _ hs => .inr hs⟩
  rcases getElem?_push_cases hm with rfl | hm
  · exact .inl ha
  · exact .inr ⟨m, hm, rfl⟩

/-! ## Looking at sessions and histories -/

theorem audited_session (audit : Audit P σ asked) :
    Audited P n σ asked i.session [] fun P' s τ => s.AtRest P' τ :=
  .get (.silent audit (.found audit.refl fun s found => audit.sessions _ s found))

theorem idles_chunk (idle : σ.Idle P P σ) (c : Int) :
    Idles P n σ (chunks.chunk c) fun P' _ _ => P' = P := by
  rw [History.chunk]
  split
  · refine Idles.bind (Q := fun P' _ τ => P' = P ∧ τ = σ) ?_ ?_
    · exact .get (.found idle fun _ _ => ⟨rfl, rfl⟩)
    · rintro _ b τ - ⟨rfl, rfl⟩ -
      exact .found idle fun _ _ => rfl
  · exact .fault idle

/-! ## Runs -/

/-- A new state inside a chunk, and a run that begins there. -/
theorem audited_inChunk (audit : Audit P σ asked) {l : List AdvanceId}
    (full : ∀ a ∈ l, a.Full σ) (c : Int) (watched : Bool) (input : Stream Value) (position : Int)
    (user : Value) :
    Audited P n σ asked (State.inChunk c (.plain watched input position user)) []
      fun P' s τ => P' = P ∧ ∃ a, s.Lies a ∧ Trail τ (fun _ => False) (a :: l) := by
  let a : AdvanceId := ⟨σ.advances.size⟩
  let τ : Store W := { σ with advances := σ.advances.push {} }
  have grows : σ.Grows τ :=
    (composed_inChunk c (.plain watched input position user)).grows_within 0 σ
  have recalls : σ.Recalls τ := .push rfl
  have remembers : τ.Remembers := audit.remembers.push rfl
  have fresh : a.Fresh τ := Array.getElem?_push_size
  have trail : Trail τ (fun _ => False) (a :: l) := .start fresh
    fun b hb => recalls.full (full b hb)
  exact .of_ok rfl ⟨fun _ hp => hp, grows, recalls⟩ (audit.recalled grows recalls remembers)
    ⟨rfl, a, .intro .., trail⟩

/-- A parse that waits arrives in a chunk. -/
theorem audited_arrive (audit : Audit P σ asked) (hq : q.AtRest P σ) (c : Stream Value) :
    Audited P n σ asked (q.arrive c) [] fun P' t τ => t.Moment P' τ asked := by
  cases hq with
  | intro number w input p u hk full =>
    simp only [Request.arrive, State.setInput, State.alter, pure_bind]
    refine (audited_inChunk audit full number w c p u).follow ?_
    rintro _ s τ - audit' ⟨rfl, a, hs, trail⟩ -
    exact .pure audit' (.going (.deliver hs hk) trail)

/-- A parse is opened with a chunk, unless it is over. -/
theorem audited_openStage {s : Stage W} (audit : Audit P σ asked) (hs : s.AtRest P σ)
    (c : Stream Value) : Audited P n σ asked (s.opening c) []
      fun P' t τ => ∀ t', t = some t' → t'.Moment P' τ asked := by
  cases hs with
  | ready w input p u hp =>
    simp only [Stage.opening, State.setInput, State.alter, pure_bind]
    refine (audited_inChunk audit (l := []) (by simp) 0 w c p u).follow ?_
    rintro _ s τ - audit' ⟨rfl, a, hs, trail⟩ -
    refine .pure audit' ?_
    rintro _ ⟨⟩
    exact .going (.run hp hs .nil) trail
  | @waiting q hq =>
    rw [Stage.opening, map_eq_pure_bind]
    refine (audited_arrive audit hq c).follow fun P' t τ _ audit' moment _ => ?_
    refine .pure audit' ?_
    rintro _ ⟨⟩
    exact moment
  | complete r =>
    refine .pure audit ?_
    rintro _ ⟨⟩

/-- Requests for old chunks are answered. -/
theorem audited_replay (audit : Audit P σ asked) (hf : f.AtRest P σ) (j : Nat) :
    Audited P n σ asked (Finish.replay chunks j f) (f.asked (.within n) chunks j σ)
      fun P' f τ => f.AtRest P' τ := by
  induction j generalizing P σ asked f with
  | zero => exact .throw audit
  | succ j ih =>
    cases hf with
    | reply r => exact .pure audit (.reply r)
    | @request q hq =>
      rw [Finish.asked]
      -- A chunk of the history is looked up, and the run goes on; any other one is waited for.
      by_cases old : chunks.has q.chunk
      · have replay : Finish.replay (W := W) chunks (j + 1) (.request q) =
            (chunks.chunk q.chunk >>= q.arrive) >>=
              fun t => t.complete >>= Finish.replay chunks j := by
          simp [Finish.replay, old, resume_eq_arrive]
        rw [replay, if_pos old]
        have arrive : Audited P n σ asked (chunks.chunk q.chunk >>= q.arrive) []
            fun P' t τ => t.Moment P' τ asked := by
          refine .after audit (idles_chunk audit.refl q.chunk) ?_
          rintro _ c τ idle audit' rfl -
          exact audited_arrive audit' (hq.later idle.proceeds) c
        refine arrive.before fun P₁ t σ₁ _ audit₁ moment _ => ?_
        exact (audited_complete audit₁ moment).bind fun P₂ f σ₂ _ audit₂ hf _ => ih audit₂ hf
      · rw [if_neg old]
        refine .of_eq (y := pure (.request q)) ?_ (.pure audit (.request hq))
        simp [Finish.replay, old]

/-- A parse that has ended gets a deferred result. -/
theorem audited_stage {handlers : Handlers W} (audit : Audit P σ asked) (hf : f.AtRest P σ)
    (detached : ∀ r, (handlers.call r).Detached) :
    Audited P n σ asked (f.stage handlers chunks) [] fun P' s τ => s.AtRest P' τ := by
  have announce {σ' : Store W} (audit : Audit P σ' asked) {s : Stage W} (hs : s.AtRest P σ')
      (message : Store W → String) : Audited P n σ' asked (do Eval.debug message; return s) []
        fun P' s τ => s.AtRest P' τ := by
    refine .after audit ((Quiet.debug message).idles audit.refl) ?_
    rintro _ _ τ idle audit' rfl -
    exact .pure audit' (hs.later idle.proceeds)
  cases hf with
  | reply r =>
    refine (audited_result audit (detached r)).follow ?_
    rintro _ result τ - audit' rfl -
    exact announce audit' (.complete result) _
  | request hq => exact announce audit (.waiting hq) _

/-- A run goes as far as its chunks go. -/
theorem audited_drive (audit : Audit P σ asked) (ht : t.Moment P σ asked)
    (detached : ∀ r, (s.handlers.call r).Detached) :
    Audited P n σ asked (s.drive chunks t)
      (t.asked (.within n) n σ ++ t.complete.calls (.within n) σ fun f τ =>
        f.asked (.within n) chunks n τ) fun _ _ _ => True := by
  refine (audited_complete audit ht).bind fun P₁ f σ₁ _ audit₁ hf _ => ?_
  have replay : Audited P₁ n σ₁ _ (f.replayed chunks) (f.asked (.within n) chunks n σ₁)
      fun P' f τ => f.AtRest P' τ :=
    .of_eq (y := Finish.replay chunks n f) rfl (audited_replay audit₁ hf n)
  refine replay.andThen fun P₂ f σ₂ _ audit₂ hf _ => ?_
  refine (audited_stage audit₂ hf detached).follow fun P₃ stage σ₃ _ audit₃ hs _ => ?_
  have rests : Session.AtRest P₃ σ₃ { s with stage := stage, chunks := chunks } := ⟨hs, detached⟩
  exact (audited_make audit₃ rests).imp fun _ _ _ _ => trivial

/-! ## The operations of sessions -/

/-- A session is opened with the chunk of a source. -/
theorem audited_opening (audit : Audit P σ asked) (hs : s.AtRest P σ) (source : Source) :
    Audited P n σ asked (s.opening source) []
      fun P' x τ => ∀ t, x.2 = some t → t.Moment P' τ asked := by
  refine .after audit ((quiet_asStream source).idles audit.refl) ?_
  rintro _ c σ₁ idle₁ audit₁ rfl -
  refine (audited_append audit₁ c).follow ?_
  rintro _ chunks σ₂ later audit₂ rfl -
  have hs := (hs.later idle₁.proceeds).later later
  refine (audited_openStage audit₂ hs.stage c).follow fun P₃ t σ₃ _ audit₃ moment _ => ?_
  exact .pure audit₃ moment

/-- A session gets a chunk. -/
theorem audited_forceProvide (audit : Audit P σ asked) (source : Source) :
    Audited P n σ asked (i.forceProvide source) (i.asked (.within n) source σ)
      fun _ _ _ => True := by
  rw [forceProvide_eq]
  refine (audited_session audit).before fun P₁ s σ₁ _ audit₁ hs _ => ?_
  by_cases done : s.isDone
  · rw [if_pos done, if_pos done]
    exact .pure audit₁ trivial
  · rw [if_neg done, if_neg done]
    refine (audited_opening audit₁ hs source).before fun P₂ x σ₂ later audit₂ moment _ => ?_
    obtain ⟨chunks, _ | t⟩ := x
    · exact .pure audit₂ trivial
    · exact audited_drive audit₂ (moment t rfl) hs.handlers

/-- A session gets a chunk, unless it is empty. -/
theorem audited_provide (audit : Audit P σ asked) (source : Source) :
    Audited P n σ asked (i.provide source) (i.askedUnlessEmpty (.within n) source σ)
      fun _ _ _ => True := by
  have stream := (quiet_asStream source).idles audit.refl (n := n)
  refine (Audited.silent audit stream).before fun P₁ c σ₁ _ audit₁ _ _ => ?_
  have look := (quiet_isEmpty c).idles audit₁.refl (n := n)
  refine (Audited.silent audit₁ look).before fun P₂ empty σ₂ _ audit₂ _ _ => ?_
  cases empty with
  | true => exact .pure audit₂ trivial
  | false => exact audited_forceProvide audit₂ _

/-- A session is started from a plain state. -/
theorem audited_startSession {p : ParserId} {handlers : Handlers W} (audit : Audit P σ asked)
    (hp : P p) (detached : ∀ r, (handlers.call r).Detached) (watched : Bool)
    (input : Stream Value) (position : Int) (user : Value) :
    Audited P n σ asked (p.startSession (.plain watched input position user) handlers)
      ((Errand.start p watched input position user handlers).asked (.within n) σ)
      fun _ _ _ => True := by
  rw [ParserId.startSession, Errand.asked]
  refine (audited_newHistory audit).before ?_
  rintro _ chunks σ₁ - audit₁ rfl -
  have rests : Session.AtRest _ σ₁
      ⟨.ready p (.plain watched input position user), handlers, chunks⟩ :=
    ⟨.ready watched input position user hp, detached⟩
  refine (audited_make audit₁ rests).before fun P₂ i σ₂ _ audit₂ _ _ => ?_
  exact audited_provide audit₂ _

/-- A session gets empty chunks until it is complete. -/
theorem audited_completeFor (audit : Audit P σ asked) (j : Nat) :
    Audited P n σ asked (i.completeFor j) (i.askedFor (.within n) j σ) fun _ _ _ => True := by
  induction j generalizing P σ asked i with
  | zero => exact .throw audit
  | succ j ih =>
    refine (audited_forceProvide audit .none).bind fun P₁ i σ₁ _ audit₁ _ _ => ?_
    refine (audited_session audit₁).before fun P₂ s σ₂ _ audit₂ _ _ => ?_
    cases s.stage with
    | complete r => exact .pure audit₂ trivial
    | ready p s => exact ih audit₂
    | waiting q => exact ih audit₂

/-! ## Results -/

/-- The result of a session is asked for. -/
theorem audited_force (audit : Audit P σ asked) (r : ResultId) :
    Audited P n σ asked (Eval.force (.result r) : Eval W Value) [] fun _ _ _ => True := by
  cases n with
  | zero => exact .of_eq (y := throw .exhausted) rfl (.throw audit)
  | succ n =>
    have forced : (Eval.force (.result r) : Eval W Value) (.within (n + 1)) σ =
        Shelf.results.get r.index (fun a => a.run (.within n)) σ := rfl
    cases found : σ.results[r.index]? with
    | none =>
      refine .of_eq (y := throw .dangling) ?_ (.throw audit)
      rw [forced, Shelf.get, show Shelf.results.find r.index σ = none from found]
      rfl
    | some m =>
      obtain ⟨a, slot⟩ := m
      have find : Shelf.results.find r.index σ = some ⟨a, slot⟩ := found
      cases slot with
      | known v =>
        refine .of_eq (y := pure v) ?_ (.pure audit trivial)
        simp only [forced, Shelf.get, find]
        rfl
      | busy =>
        refine .of_eq (y := Eval.fault .reentrant) ?_ (.throw audit)
        simp only [forced, Shelf.get, find]
        rfl
      | unset =>
        let marked : Store W := Shelf.results.put r.index .busy σ
        have closed : Closed (fun _ => False) P marked := audit.closed
        have idle : marked.Idle P P (left (a.run (.within n) marked)) :=
          (quiet_action (audit.results _ _ found)).idle (.refl closed audit.still) n
        -- The handler leaves states alone, and only the slot of the result is written.
        obtain ⟨slot, last⟩ : ∃ slot, left ((Eval.force (.result r) : Eval W Value)
            (.within (n + 1)) σ) = Shelf.results.put r.index slot
              (left (a.run (.within n) marked)) := by
          simp only [forced, Shelf.get, find]
          cases a.run (.within n) marked with
          | ok v τ => exact ⟨.known v, rfl⟩
          | error e τ => exact ⟨.unset, rfl⟩
        have grows := (Composed.force (.result r)).grows_within (n + 1) σ
        rw [Eval.exec, last] at grows
        generalize left (a.run (.within n) marked) = τ at idle last grows
        have recalls : σ.Recalls (Shelf.results.put r.index slot τ) :=
          .of_advances idle.clear.advances
        refine ⟨P, ?_, ?_, fun _ _ _ => trivial⟩
        · rw [last]
          exact ⟨fun _ hp => hp, grows, recalls⟩
        · rw [last, List.append_nil]
          refine audit.later grows recalls idle.still (fun j m hm => ?_) (fun j m hm => .inr ?_)
            (fun j s hs => .inr (idle.clear.sessions ▸ hs))
          · exact audit.remembers j m (idle.clear.advances ▸ hm)
          · obtain ⟨m₁, h₁, same₁⟩ := Memo.thunk_putSlot hm
            obtain ⟨m₂, h₂, same₂⟩ := Memo.thunk_putSlot (idle.clear.results ▸ h₁)
            exact ⟨m₂, h₂, same₁.trans same₂⟩

/-- A session is finished. -/
theorem audited_finish (audit : Audit P σ asked) :
    Audited P n σ asked i.finish (i.askedFor (.within n) n σ) fun _ _ _ => True := by
  rw [SessionId.finish_eq]
  have complete : Audited P n σ asked i.completion (i.askedFor (.within n) n σ) fun _ _ _ => True :=
    .of_eq (y := i.completeFor n) rfl (audited_completeFor audit n)
  exact complete.andThen fun P₁ r σ₁ _ audit₁ _ _ => audited_force audit₁ r

end

end ResumableParsing
