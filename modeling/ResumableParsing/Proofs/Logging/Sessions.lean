import ResumableParsing.Proofs.Logging.Parses

/-!
# Sessions in stores that differ in logging

Sessions, the repetition of a parser and what computes deferred parts are put together from parses
and small changes, so they take no notice of logging. With them deferred parts take no notice of it.

* `Logging.indifferent_forceProvide`, `Logging.indifferent_finish`: sessions
* `Logging.indifferent_runMany`: lazy repetition
* `Logging.forces`: deferred parts
-/

namespace ResumableParsing.Logging

variable {W α : Type} {M : Prop} {K : ParserId → Prop} {n : Nat}

/-! ## Running parsers -/

section

variable (forces : Forces W M K n)

include forces

theorem indifferent_run (p : ParserId) (s : State Value) :
    Indifferent M K n (p.run s : Eval W (Finish W)) (Finish.Truthful M K) :=
  indifferent_complete forces (t := .run p s []) (List.forall_mem_nil _)

theorem indifferent_parseState (p : ParserId) (s : State Value) :
    Indifferent M K n (p.parseState s : Eval W (Except (Request W) Value)) fun _ => True := by
  refine indifferent_bind (indifferent_run forces p s) fun f _ => ?_
  rcases f with r | r
  · cases r with
    | ok d v s => exact indifferent_pure trivial
    | err d e s => exact indifferent_fault False.elim
  · exact indifferent_pure trivial

theorem indifferent_resumed {r : Request W} (h : ∀ f ∈ r.continuation, f.Truthful M K)
    (chunk : Stream Value) : Indifferent M K n (r.resume chunk) (Finish.Truthful M K) :=
  indifferent_bind (indifferent_alterState _ _) fun _ _ =>
    indifferent_bind (indifferent_inChunk _ _) fun s _ =>
      indifferent_complete forces (t := .arrive s r.continuation) h

/-- What computes a tail. -/
theorem indifferent_compute {t : Tail W} (h : t.Truthful M) :
    Indifferent M K n t.compute fun _ => True := by
  cases t with
  | append a b =>
    exact indifferent_bind (indifferent_rest forces a) fun s _ =>
      indifferent_bind (indifferent_append forces s b) fun _ _ => indifferent_pure trivial
  | parse p s =>
    refine indifferent_bind (indifferent_parseState forces p s) fun f _ => ?_
    cases f with
    | ok v => exact indifferent_bind (indifferent_ofValue v) fun _ _ => indifferent_pure trivial
    | error r => exact indifferent_pure trivial
  | action a => exact indifferent_map (indifferent_action forces h) fun _ _ => trivial

end

/-! ## Lazy repetition -/

/-- The parser of the whole stream is declared, and defined by means of itself. -/
theorem Stores.repeatedly {σ τ : Store W} (h : Abreast M K σ τ) (p : ParserId) :
    Both p.repeatedly σ τ fun _ σ' τ' => Abreast M K σ' τ' := by
  refine h.declare.bind ?_
  rintro all σ₁ τ₁ ⟨-, h₁⟩
  let cell (v : Value) : Action W (Grammar W) := .done (.cell v all)
  have orderly (v : Value) : (cell v).Yields (Grammar.Orderly M K K) := by
    intro m σ g σ' run
    cases run
    exact .cell v all
  refine (builds_bindParser (f := cell) p (fun _ => trivial) orderly σ₁ τ₁ h₁ rfl).bind ?_
  rintro cells σ₂ τ₂ ⟨h₂, -, -⟩
  refine (builds_optional cells (.stream .nil) σ₂ τ₂ h₂ rfl).bind ?_
  rintro q σ₃ τ₃ ⟨h₃, -, new⟩
  have defined : Both (all.define q) σ₃ τ₃ fun _ σ' τ' => Abreast M K σ' τ' := by
    refine ⟨rfl, h₃.define (.inr rfl) new.1 (fun _ h => h.elim) ?_⟩
    exact fun i hi other => hi.elim id other
  refine defined.bind ?_
  rintro ⟨⟩ σ₄ τ₄ h₄
  refine (builds_name (R := fun _ _ => True) p (fun name => ?_) σ₄ τ₄ h₄ rfl).imp ?_
  · exact builds_named _ trivial
  · exact fun _ _ _ h => h.1

theorem indifferent_runMany (forces : Forces W M K n) (p : ParserId) (s : State Value) :
    Indifferent M K n (p.runMany s : Eval W (Except (Request W) Value)) fun _ => True := by
  refine indifferent_bind (R := fun _ => True) ?_ fun all _ => indifferent_parseState forces all s
  exact indifferent_ofBuild fun σ τ hs => (hs.repeatedly p).imp fun _ _ _ h => ⟨h, trivial⟩

/-! ## Histories of chunks -/

theorem indifferent_session (i : SessionId) :
    Indifferent M K n (i.session : Eval W (Session W)) (Session.Truthful M K) :=
  indifferent_look (g := fun σ => σ.sessions[i.index]?) (f := Eval.deref)
    (fun _ _ hs => ⟨by rw [hs.rest], hs.truthful.sessions i.index⟩) fun _ h => indifferent_deref h

theorem indifferent_contents (h : History) :
    Indifferent M K n (h.contents : Eval W (Array (Stream Value))) fun _ => True :=
  indifferent_look (g := fun σ => σ.buffers[h.buffer.index]?) (f := Eval.deref) (Q := fun _ => True)
    (fun _ _ hs => ⟨by rw [hs.rest], trivial⟩) fun _ _ => indifferent_deref fun _ _ => trivial

theorem indifferent_newHistory :
    Indifferent M K n (History.empty : Eval W History) fun _ => True :=
  indifferent_modifyGet (fun _ _ _ _ => rfl) fun _ h => ⟨{ h with }, trivial⟩

theorem indifferent_appendChunk (h : History) (chunk : Stream Value) :
    Indifferent M K n (h.append chunk : Eval W History) fun _ => True := by
  refine indifferent_bind (indifferent_contents h) fun buffer _ =>
    indifferent_ite (fun _ => ?_) fun _ => ?_
  · exact indifferent_bind (indifferent_modify (fun _ _ _ _ => rfl) fun _ h => { h with })
      fun _ _ => indifferent_pure trivial
  · exact indifferent_modifyGet (fun _ _ _ _ => rfl) fun _ h => ⟨{ h with }, trivial⟩

theorem indifferent_chunk (h : History) (i : Int) :
    Indifferent M K n (h.chunk i : Eval W (Stream Value)) fun _ => True :=
  indifferent_ite (fun _ => indifferent_bind (indifferent_contents h) fun _ _ =>
    indifferent_deref fun _ _ => trivial) fun _ => indifferent_fault False.elim

/-! ## Sessions -/

theorem indifferent_makeResult {a : Action W Value} (h : a.Truthful M) :
    Indifferent M K n (ResultId.make a) fun _ => True :=
  indifferent_modifyGet (fun _ _ _ _ => rfl) fun _ hσ =>
    ⟨{ hσ with results := each_push hσ.results h }, trivial⟩

theorem indifferent_makeSession {s : Session W} (h : s.Truthful M K) :
    Indifferent M K n (SessionId.make s) fun _ => True :=
  indifferent_modifyGet (fun _ _ _ _ => rfl) fun _ hσ =>
    ⟨{ hσ with sessions := each_push hσ.sessions h }, trivial⟩

theorem indifferent_stage {handlers : Handlers W} (hh : handlers.Truthful M) (chunks : History)
    {f : Finish W} (hf : f.Truthful M K) :
    Indifferent M K n (f.stage handlers chunks) (Stage.Truthful M K) := by
  cases f with
  | reply r =>
    exact indifferent_bind (indifferent_makeResult (hh r)) fun _ _ =>
      indifferent_bind (indifferent_debug _) fun _ _ => indifferent_pure trivial
  | request r => exact indifferent_bind (indifferent_debug _) fun _ _ => indifferent_pure hf

section

variable (forces : Forces W M K n)

include forces

theorem indifferent_feed (chunk : Stream Value) {s : Stage W} (h : s.Truthful M K) :
    Indifferent M K n (s.feed chunk) fun x => ∀ f, x = some f → f.Truthful M K := by
  have given {f : Finish W} (hf : f.Truthful M K) :
      Indifferent M K n (pure (some f) : Eval W (Option (Finish W))) fun x =>
        ∀ f, x = some f → f.Truthful M K :=
    indifferent_pure fun g hg => Option.some.inj hg ▸ hf
  cases s with
  | ready p s =>
    exact indifferent_bind (indifferent_alterState _ s) fun _ _ =>
      indifferent_bind (indifferent_inChunk 0 _) fun _ _ =>
        indifferent_bind (indifferent_run forces p _) fun _ hf => given hf
  | waiting r => exact indifferent_bind (indifferent_resumed forces h chunk) fun _ hf => given hf
  | complete r =>
    refine indifferent_pure ?_
    intro f h
    cases h

theorem indifferent_replayFor (chunks : History) (k : Nat) {f : Finish W} (h : f.Truthful M K) :
    Indifferent M K n (Finish.replay chunks k f) (Finish.Truthful M K) := by
  induction k generalizing f with
  | zero => exact indifferent_exhausted
  | succ k ih =>
    cases f with
    | reply r => exact indifferent_pure h
    | request r =>
      exact indifferent_ite (fun _ => indifferent_bind (indifferent_chunk chunks _) fun _ _ =>
        indifferent_bind (indifferent_resumed forces h _) fun f hf => ih hf)
        fun _ => indifferent_pure h

/-- Chunks of the history are provided again. -/
theorem indifferent_replay (chunks : History) {f : Finish W} (h : f.Truthful M K) :
    Indifferent M K n (do Finish.replay chunks (← read).steps f) (Finish.Truthful M K) :=
  indifferent_loop (fun k => (regular_replayFor chunks k f).composed)
    (fun k => exhausted_or_replay chunks k f) fun k => indifferent_replayFor forces chunks k h

theorem indifferent_forceProvide (chunk : Source) (i : SessionId) :
    Indifferent M K n (i.forceProvide chunk : Eval W SessionId) fun _ => True := by
  refine indifferent_bind (indifferent_session i) fun s hs =>
    indifferent_ite (fun _ => indifferent_pure trivial) fun _ => ?_
  refine indifferent_bind (indifferent_asStream chunk) fun chunk _ =>
    indifferent_bind (indifferent_appendChunk _ chunk) fun chunks _ =>
      indifferent_bind (indifferent_feed forces chunk hs.stage) fun x hx => ?_
  cases x with
  | none => exact indifferent_pure trivial
  | some f =>
    simp only
    rw [← bind_assoc]
    exact indifferent_bind (indifferent_replay forces chunks (hx f rfl)) fun f hf =>
      indifferent_bind (indifferent_stage hs.handlers chunks hf) fun _ hstage =>
        indifferent_makeSession ⟨hs.handlers, hstage⟩

theorem indifferent_provide (chunk : Source) (i : SessionId) :
    Indifferent M K n (i.provide chunk : Eval W SessionId) fun _ => True :=
  indifferent_bind (indifferent_asStream chunk) fun _ _ =>
    indifferent_bind (indifferent_isEmpty forces _) fun _ _ =>
      indifferent_ite (fun _ => indifferent_pure trivial) fun _ =>
        indifferent_forceProvide forces _ i

theorem indifferent_startSession (p : ParserId) (s : State Value) {handlers : Handlers W}
    (h : handlers.Truthful M) :
    Indifferent M K n (p.startSession s handlers) fun _ => True :=
  indifferent_bind indifferent_newHistory fun _ _ =>
    indifferent_bind (indifferent_makeSession ⟨h, trivial⟩) fun i _ =>
      indifferent_provide forces (.stream s.input) i

theorem indifferent_completeFor (k : Nat) (i : SessionId) :
    Indifferent M K n (i.completeFor k : Eval W ResultId) fun _ => True := by
  induction k generalizing i with
  | zero => exact indifferent_exhausted
  | succ k ih =>
    refine indifferent_bind (indifferent_forceProvide forces _ i) fun i _ =>
      indifferent_bind (indifferent_session i) fun s _ => ?_
    cases s.stage with
    | complete r => exact indifferent_pure trivial
    | _ => exact ih i

theorem indifferent_finish (i : SessionId) :
    Indifferent M K n (i.finish : Eval W Value) fun _ => True := by
  unfold SessionId.finish
  rw [← bind_assoc]
  refine indifferent_bind (R := fun _ => True) ?_ fun result _ => forces (.result result)
  exact indifferent_loop (fun k => (regular_completeFor k i).composed)
    (fun k m σ => exhausted_or_completeFor k i m σ) fun k => indifferent_completeFor forces k i

end

/-! ## Deferred parts -/

section

variable {σ τ : Store W} {d : Deferred}

/-- The same deferred parts are there. -/
theorem Stores.part (h : Abreast M K σ τ) (d : Deferred) : τ.part? d = σ.part? d := by
  rw [h.rest]
  cases d <;> rfl

/-- What computes a part takes no notice of logging. -/
theorem Stores.computed (h : Abreast M K σ τ) (forces : Forces W M K n) {x : Eval W d.Content}
    {s : Slot d.Content} (found : σ.part? d = some ⟨x, s⟩) :
    Indifferent M K n x fun _ => True := by
  cases d with
  | tail i =>
    obtain ⟨m, there, e⟩ := Option.map_eq_some_iff.mp found
    cases e
    exact indifferent_compute forces (h.truthful.tails _ m there)
  | cell i =>
    obtain ⟨m, -, e⟩ := Option.map_eq_some_iff.mp found
    cases e
    exact indifferent_pull forces m.thunk
  | result i =>
    obtain ⟨m, there, e⟩ := Option.map_eq_some_iff.mp found
    cases e
    exact indifferent_action forces (h.truthful.results _ m there)
  | session i => cases found

/-- What is noted of a part leaves its computation as it is. -/
theorem each_putSlot {θ β : Type} {P : θ → Prop} {memos : Array (Memo θ β)}
    (h : ∀ (i : Nat) (m : Memo θ β), memos[i]? = some m → P m.thunk) (j : Nat) (s : Slot β)
    (i : Nat) (m : Memo θ β) (hm : (Memo.putSlot memos j s)[i]? = some m) : P m.thunk := by
  refine each_modify (P := fun m => P m.thunk) h ?_ j i m hm
  exact fun _ h => h

/-- The same is noted of a part on both sides. -/
theorem Stores.mark (h : Abreast M K σ τ) (d : Deferred) (s : Slot d.Content) :
    Abreast M K (σ.mark d s) (τ.mark d s) := by
  refine (h.change (f := fun σ => ((), σ.mark d s)) (fun _ _ _ _ => ?_) ?_).2
  · cases d <;> rfl
  · cases d with
    | tail i => exact { h.truthful with tails := each_putSlot h.truthful.tails _ s }
    | cell i => exact { h.truthful with }
    | result i => exact { h.truthful with results := each_putSlot h.truthful.results _ s }
    | session i => exact h.truthful

/-- What has been computed is noted on both sides. -/
theorem Ends.settle {y z : EStateM.Result Stop (Store W) d.Content}
    (h : Ends M K (fun _ => True) y z) : Ends M K (fun _ => True) (d.settle y) (d.settle z) := by
  cases h with
  | ok _ hs => exact .ok trivial (hs.mark d _)
  | raised hf hs => exact .raised hf (hs.mark d _)
  | dangling hs => exact .dangling (hs.mark d _)

end

/-- Deferred parts take no notice of logging. The induction is on the depth to which computations
are nested. -/
theorem forces (n : Nat) : Forces W M K n := by
  induction n with
  | zero => exact fun d σ τ _ he => absurd ⟨σ, rfl⟩ he
  | succ n ih =>
    intro d σ τ hs he
    change ¬Exhausted (forceWithin (n + 1) d σ) at he
    change ∃ r, _ ∧ Ends M K _ (forceWithin (n + 1) d σ) r
    cases found : σ.part? d with
    | none =>
      have missing := (hs.part d).trans found
      cases d with
      | session i =>
        obtain ⟨r, hr, ends⟩ := indifferent_finish ih i σ τ hs he
        exact ⟨r, comes_force hr hr.1 fun n run => run, ends⟩
      | _ =>
        rw [forceWithin_missing found (by simp)]
        exact ⟨_, comes_force_now (not_exhausted_error (by simp)) fun n =>
          forceWithin_missing missing (by simp), .dangling hs⟩
    | some m =>
      obtain ⟨x, s⟩ := m
      have there := (hs.part d).trans found
      cases s with
      | known a =>
        rw [forceWithin_known found]
        exact ⟨_, comes_force_now not_exhausted_ok fun n => forceWithin_known there,
          .ok trivial hs⟩
      | busy =>
        rw [forceWithin_busy found]
        exact ⟨_, comes_force_now (not_exhausted_error (by simp)) fun n => forceWithin_busy there,
          .raised False.elim hs⟩
      | unset =>
        rw [forceWithin_unset found] at he ⊢
        obtain ⟨r, hr, ends⟩ := hs.computed ih found _ _ (hs.mark d .busy)
          fun lost => he (exhausted_settle lost)
        exact ⟨_, (comes_force_iff there).mpr ⟨r, hr, rfl⟩, ends.settle⟩

end ResumableParsing.Logging
