import ResumableParsing.Machine
import ResumableParsing.Proofs.Store.Building
import ResumableParsing.Proofs.Store.Regular

/-!
# The operations of the library

Every operation of the library is put together from small changes, from requests for deferred parts
and from loops with a bound. A change may add deferred parts, and never touches one.

* `regular_isEmpty`, `regular_append`, `regular_pull`: streams and iterators
* `regular_action`: programs of the caller
* `regular_step`, `regular_complete`: parses
* `regular_forceProvide`, `regular_finish`: sessions
* `regular_compute`: what computes the tails of streams
-/

namespace ResumableParsing

variable {W α : Type}

/-! ## Streams -/

theorem regular_isEmpty (s : Stream Value) : Regular (s.isEmpty : Eval W Bool) := by
  cases s with
  | pulled c => exact .bind (.force _) fun found => .pure _
  | _ => exact .pure _

theorem regular_first (s : Stream Value) : Regular (s.first : Eval W Value) := by
  cases s with
  | nil => exact .fault _
  | cons n v t => exact .pure _
  | lazy n v t => exact .pure _
  | view q i h =>
    refine .ite (.fault _) ?_
    cases q.get? i with
    | some v => exact .pure v
    | none => exact .fault _
  | pulled c =>
    refine .bind (.force _) fun found => ?_
    cases found with
    | some v => exact .pure _
    | none => exact .fault _

theorem regular_rest (s : Stream Value) : Regular (s.rest : Eval W (Stream Value)) := by
  cases s with
  | lazy n v t =>
    refine .bind (.force _) fun found => ?_
    cases found with
    | some s => exact .pure s
    | none => exact .fault _
  | pulled c =>
    refine .bind (.force _) fun found => ?_
    cases found with
    | some v => exact .pure _
    | none => exact .pure _
  | _ => exact .pure _

theorem regular_consCell (v : Value) (t : Stream Value) :
    Regular (Stream.consCell v t : Eval W (Stream Value)) :=
  .bind .serial fun _ => .pure _

theorem regular_lazyCell (v : Value) (t : Tail W) : Regular (Stream.lazyCell v t) :=
  .bind .serial fun _ => .bind (.modifyGet fun σ => .pushTail σ t) fun _ => .pure _

theorem regular_append (a b : Stream Value) : Regular (a.append b : Eval W (Stream Value)) :=
  .bind (regular_isEmpty a) fun _ =>
    .ite (.pure b) (.bind (regular_first a) fun v => regular_lazyCell v _)

theorem regular_ofSequence (q : Sequence Value) (i : Int) :
    Regular (Stream.ofSequence q i : Eval W (Stream Value)) :=
  .bind .serial fun _ => .pure _

theorem regular_ofIterator (it : IteratorId) :
    Regular (Stream.ofIterator it : Eval W (Stream Value)) :=
  .modifyGet fun σ => .pushCell σ it

theorem regular_ofValue (v : Value) : Regular (Stream.ofValue v : Eval W (Stream Value)) := by
  cases v with
  | stream s => exact .pure s
  | _ => exact .fault _

theorem regular_asStream (s : Source) : Regular (s.asStream : Eval W (Stream Value)) := by
  cases s with
  | none => exact .pure _
  | stream s => exact .pure s
  | sequence q => exact regular_ofSequence q 0
  | iterator it => exact regular_ofIterator it

theorem regular_toListFrom (n : Nat) (done : List Value) (s : Stream Value) :
    Regular (Stream.toListFrom n done s : Eval W (List Value)) := by
  induction n generalizing done s with
  | zero => exact .stop _
  | succ n ih =>
    exact .bind (regular_isEmpty s) fun _ => .ite (.pure _) <|
      .bind (regular_first s) fun v => .bind (regular_rest s) fun t => ih (v :: done) t

theorem exhausted_or_toListFrom (n : Nat) (done : List Value) (s : Stream Value) (m : Means W)
    (σ : Store W) : Exhausted (Stream.toListFrom n done s m σ) ∨
      Stream.toListFrom (n + 1) done s m σ = Stream.toListFrom n done s m σ := by
  induction n generalizing done s σ with
  | zero => exact .inl ⟨σ, rfl⟩
  | succ n ih =>
    refine exhausted_or_bind fun empty σ => exhausted_or_ite (.inr rfl) ?_
    exact exhausted_or_bind fun v σ => exhausted_or_bind fun t σ => ih (v :: done) t σ

theorem regular_toList (s : Stream Value) : Regular (s.toList : Eval W (List Value)) :=
  .loop (fun n => regular_toListFrom n [] s) fun n m σ => exhausted_or_toListFrom n [] s m σ

theorem regular_takeFrom (n : Nat) (done : List Value) (s : Stream Value) :
    Regular (Stream.takeFrom n done s : Eval W (List Value)) := by
  induction n generalizing done s with
  | zero => exact .pure _
  | succ n ih =>
    exact .bind (regular_isEmpty s) fun _ => .ite (.pure _) <|
      .bind (regular_first s) fun v => .ite (.pure _) <|
        .bind (regular_rest s) fun t => ih (v :: done) t

theorem regular_take (s : Stream Value) (n : Nat) : Regular (s.take n : Eval W (List Value)) :=
  regular_takeFrom n [] s

/-! ## Iterators -/

theorem regular_make (it : Iterator W) : Regular (IteratorId.make it) :=
  .modifyGet fun σ => .pushIterator σ it

theorem regular_alterIterator (it : IteratorId) {f : Iterator W → Iterator W}
    (hf : ∀ x : Iterator W, x.Leaves (f x)) : Regular (it.alter f) :=
  .modify fun σ => .alterIterator σ it hf

theorem regular_next (it : IteratorId) : Regular (it.next : Eval W (Option Value)) := by
  refine .bind .get fun σ => .bind (.deref _) fun i =>
    .bind (regular_alterIterator it .moved) fun _ => ?_
  cases i with
  | spent => exact .pure _
  | items q i => exact .pure _
  | walk s given =>
    refine .ite (.bind (regular_rest s) fun s => ?_) (.bind (.pure s) fun s => ?_) <;>
    exact .bind (regular_isEmpty s) fun _ => .ite (.pure _) <|
      .bind (regular_first s) fun v =>
        .bind (regular_alterIterator it (.onward s)) fun _ => .pure _
  | caller answer asked =>
    refine .bind (.modifyGet fun σ => ?_) fun p => ?_
    · exact { Store.Widens.refl σ with }
    · cases p with
      | item v => exact .pure _
      | finished => exact .pure _
      | failed f => exact .fault _

theorem regular_pull (it : IteratorId) :
    Regular (it.pull : Eval W (Option (Value × Stream Value))) := by
  refine .bind (regular_next it) fun v => ?_
  cases v with
  | none => exact .pure _
  | some v => exact .bind (regular_ofIterator it) fun _ => .pure _

/-! ## States -/

theorem regular_inChunk (n : Int) (s : State Value) :
    Regular (State.inChunk n s : Eval W (State Value)) :=
  .modifyGet fun σ => { Store.Widens.refl σ with advances := by simp }

theorem regular_alterState (f : Bool → Stream Value → Int → Value → State Value)
    (s : State Value) : Regular (s.alter f : Eval W (State Value)) := by
  induction s with
  | plain w i p u => exact .pure _
  | chunked a c s ih => exact .bind ih fun s => regular_inChunk c s

theorem regular_advance (s : State Value) : Regular (s.advance : Eval W (State Value)) :=
  .bind (regular_rest _) fun _ => regular_alterState _ s

theorem regular_memory (a : AdvanceId) : Regular (a.memory : Eval W Advance) :=
  .bind .get fun _ => .deref _

theorem regular_alter (a : AdvanceId) (f : Advance → Advance) :
    Regular (a.alter f : Eval W Unit) :=
  .modify fun σ => { Store.Widens.refl σ with advances := by simp }

theorem regular_remember (a : AdvanceId) (n : Int) (inner : State Value) :
    Regular (a.remember n inner : Eval W Unit) :=
  .bind (regular_isEmpty _) fun _ => .ite (regular_alter a _) <|
    .bind (regular_inChunk n inner) fun _ => regular_alter a _

/-! ## Actions of the caller -/

theorem regular_action (a : Action W α) : Regular a.run := by
  induction a with
  | done a => exact .pure a
  | raise f => exact .fault f
  | inspect k ih => exact .bind .get fun σ => ih σ.world
  | update f next ih => exact .bind (.modify fun σ => { Store.Widens.refl σ with }) fun _ => ih
  | serial k ih => exact .bind .serial fun n => ih n
  | iterator answer k ih => exact .bind (regular_make _) fun it => ih it
  | asStream s k ih => exact .bind (regular_asStream s) fun t => ih t
  | isEmpty s k ih => exact .bind (regular_isEmpty s) fun b => ih b
  | first s k ih => exact .bind (regular_first s) fun v => ih v
  | rest s k ih => exact .bind (regular_rest s) fun t => ih t
  | append a b k ih => exact .bind (regular_append a b) fun t => ih t
  | toList s k ih => exact .bind (regular_toList s) fun vs => ih vs
  | setInput s i k ih => exact .bind (regular_alterState _ s) fun t => ih t
  | setPosition s p k ih => exact .bind (regular_alterState _ s) fun t => ih t
  | setUser s u k ih => exact .bind (regular_alterState _ s) fun t => ih t
  | render v k ih => exact .bind .get fun σ => ih (σ.render v)
  | peek r k ih => exact .bind .get fun σ => ih (r.peek σ).1 (r.peek σ).2
  | result r k ih => exact .bind (.catching (.force _)) fun v => ih v
  | finish s k ih => exact .bind (.force _) fun v => ih v

/-! ## Steps of a parse -/

/-- While parsers are built no deferred part is added. -/
theorem Build.Grows.widens {b : Build W α} (h : Build.Grows b) (σ : Store W) :
    σ.Widens (b σ).2 := by
  have grows := h.grows σ
  rw [h.frame σ] at grows ⊢
  exact { Store.Widens.refl σ with toGrows := grows }

theorem regular_build (g : Grammar W) : Regular (Eval.ofBuild g.build) :=
  .change g.build (fun _ _ => rfl) g.build_grows.widens

theorem regular_go (m : Advance) (n : Int) (k : Continuation W) : Regular (m.go n k) :=
  .bind (.deref _) fun _ => .ite (.pure _) (.pure _)

theorem regular_nextState (s : State Value) (token : Value) (k : Continuation W) :
    Regular (s.next token k) := by
  cases s with
  | plain w i p u =>
    refine .ite (.bind (.modify fun σ => ?_) fun _ => ?_) ?_
    · exact { Store.Widens.refl σ with }
    · exact .bind (regular_advance _) fun _ => .pure _
    · exact .bind (regular_advance _) fun _ => .pure _
  | chunked a c s => exact .bind (regular_alter a _) fun _ => .pure _

theorem regular_cross (a : AdvanceId) (n : Int) (inner : State Value) (k : Continuation W) :
    Regular (a.cross n inner k) := by
  refine .bind (regular_memory a) fun m => .ite (regular_go m n k) ?_
  split
  · exact .bind (regular_advance _) fun _ => .bind (regular_remember a n _) fun _ =>
      .bind (regular_memory a) fun m => regular_go m n k
  · exact .bind (regular_nextState inner _ _) fun _ => .pure _

theorem regular_refuse (reason : Reason) (expected : List ParserId) (s : State Value)
    (k : Continuation W) : Regular (Task.refuse reason expected s k) :=
  .bind .serial fun _ => .pure _

theorem regular_enter (b : Body W) (s : State Value) (k : Continuation W) :
    Regular (b.enter s k) := by
  cases b with
  | some self accepts =>
    refine .bind (regular_isEmpty _) fun _ => .ite (regular_refuse ..) ?_
    refine .bind (regular_first _) fun token => .bind (regular_action _) fun _ => .ite ?_ ?_
    · exact regular_nextState s token _
    · exact .bind (.debug _) fun _ => .bind .get fun _ => regular_refuse ..
  | finished self =>
    refine .bind (regular_isEmpty _) fun _ => .ite (.pure _) ?_
    exact .bind (regular_first _) fun _ => .bind .get fun _ => regular_refuse ..
  | fail m => exact regular_refuse ..
  | undeclared => exact .fault _
  | cell v again => exact .bind (regular_lazyCell v _) fun _ => .pure _
  | native run => exact .bind (regular_action _) fun _ => .pure _
  | _ => exact .pure _

theorem regular_join (c : Combine) (v w : Value) : Regular (c.join v w : Eval W Value) := by
  cases c with
  | first => exact .pure v
  | second => exact .pure w
  | group => cases v <;> exact .pure _
  | cons =>
    cases w with
    | stream s => exact .bind (regular_consCell v s) fun _ => .pure _
    | _ => exact .bind (regular_lazyCell v _) fun _ => .pure _
  | append =>
    exact .bind (regular_ofValue v) fun s => .bind (regular_ofValue w) fun t =>
      .bind (regular_append s t) fun _ => .pure _

theorem regular_resume (f : Frame W) (r : Reply Value) (k : Continuation W) :
    Regular (f.resume r k) := by
  cases f with
  | seqFirst q c => cases r <;> exact .pure _
  | seqSecond d v c =>
    cases r with
    | ok d w s => exact .bind (regular_join c v w) fun _ => .pure _
    | err d e s => exact .pure _
  | altFirst q s => rcases r with ⟨_, _, _⟩ | ⟨_ | _, _, _⟩ <;> exact .pure _
  | altSecond e =>
    rcases r with ⟨d, v, s⟩ | ⟨_ | _, e', s⟩
    · exact .pure _
    · exact .bind .serial fun _ => .pure _
    · exact .pure _
  | map f =>
    cases r with
    | ok d v s => exact .bind (regular_action _) fun _ => .pure _
    | err d e s => exact .pure _
  | bind f =>
    cases r with
    | ok d v s => exact .bind (regular_action _) fun g => .bind (regular_build g) fun q => .pure _
    | err d e s => exact .pure _
  | consume => exact .pure _
  | ignore => cases r <;> exact .pure _
  | attempt s => rcases r with ⟨_, _, _⟩ | ⟨_ | _, _, _⟩ <;> exact .pure _
  | manyItem self p s =>
    rcases r with ⟨_ | _, v, t⟩ | ⟨_ | _, e, t⟩
    · exact .bind .get fun _ => .fault _
    · exact .pure _
    · exact .pure _
    · exact .pure _
  | manyRest v =>
    cases r with
    | ok d w s => exact .bind (regular_join .cons v w) fun _ => .pure _
    | err d e s => exact .pure _
  | matched token => exact .bind (.debug _) fun _ => .pure _
  | crossed a n =>
    exact .bind (regular_remember a n _) fun _ => .bind (regular_memory a) fun m =>
      regular_go m n k
  | after s run => exact .bind (regular_action _) fun _ => .pure _

theorem regular_startLogged (p : ParserId) (s : State Value) (k : Continuation W) :
    Regular (Task.startLogged p s k) := by
  refine .bind (.debug _) fun _ => .bind .get fun _ => .bind (.deref _) fun c => ?_
  cases c.logged with
  | some c => exact .pure _
  | none => exact .fault _

theorem regular_step (t : Task W) : Regular t.step := by
  cases t with
  | run p s k =>
    refine .bind .get fun _ => .bind (.deref _) fun c => ?_
    cases c.direct with
    | some c => exact .pure _
    | none => exact .bind (regular_startLogged p s k) fun _ => .pure _
  | code c s k =>
    cases c with
    | body b => exact .bind (regular_enter b s k) fun _ => .pure _
    | method p => exact .bind (regular_startLogged p s k) fun _ => .pure _
  | settle s k => exact .bind (.debug _) fun _ => .pure _
  | cross a n inner k => exact regular_cross a n inner k
  | deliver r k =>
    cases k with
    | nil => exact .pure _
    | cons f k => exact regular_resume f r k

/-! ## Runs -/

theorem regular_runFor (n : Nat) (t : Task W) : Regular (t.runFor n) := by
  induction n generalizing t with
  | zero => exact .stop _
  | succ n ih =>
    refine .bind (regular_step t) fun s => ?_
    cases s with
    | tail t => exact ih t
    | value f => exact .pure f

theorem exhausted_or_runFor (n : Nat) (t : Task W) (m : Means W) (σ : Store W) :
    Exhausted (t.runFor n m σ) ∨ t.runFor (n + 1) m σ = t.runFor n m σ := by
  induction n generalizing t σ with
  | zero => exact .inl ⟨σ, rfl⟩
  | succ n ih =>
    refine exhausted_or_bind fun s σ => ?_
    cases s with
    | tail t => exact ih t σ
    | value f => exact .inr rfl

theorem regular_complete (t : Task W) : Regular t.complete :=
  .loop (fun n => regular_runFor n t) fun n m σ => exhausted_or_runFor n t m σ

theorem regular_resumed (r : Request W) (chunk : Stream Value) : Regular (r.resume chunk) :=
  .bind (regular_alterState _ _) fun _ => .bind (regular_inChunk _ _) fun _ =>
    regular_complete _

theorem regular_parseState (p : ParserId) (s : State Value) :
    Regular (p.parseState s : Eval W (Except (Request W) Value)) := by
  refine .bind (regular_complete _) fun f => ?_
  rcases f with r | r
  · cases r with
    | ok d v s => exact .pure _
    | err d e s => exact .fault _
  · exact .pure _

/-! ## Sessions -/

theorem regular_session (i : SessionId) : Regular (i.session : Eval W (Session W)) :=
  .bind .get fun _ => .deref _

theorem regular_contents (h : History) : Regular (h.contents : Eval W _) :=
  .bind .get fun _ => .deref _

theorem regular_appendChunk (h : History) (chunk : Stream Value) :
    Regular (h.append chunk : Eval W History) := by
  refine .bind (regular_contents h) fun buffer => .ite ?_ (.modifyGet fun σ => ?_)
  · refine .bind (.modify fun σ => ?_) fun _ => .pure _
    refine { Store.Widens.refl σ with buffers := fun i b hb => ?_ }
    rw [Array.getElem?_modify, hb]
    split
    · exact ⟨b.push chunk, rfl, by simp⟩
    · exact ⟨b, rfl, List.prefix_refl _⟩
  · refine { Store.Widens.refl σ with buffers := fun i b hb => ⟨b, ?_, List.prefix_refl _⟩ }
    obtain ⟨hi, rfl⟩ := Array.getElem?_eq_some_iff.mp hb
    exact Array.getElem?_push_lt hi

theorem regular_chunk (h : History) (i : Int) :
    Regular (h.chunk i : Eval W (Stream Value)) :=
  .ite (.bind (regular_contents h) fun _ => .deref _) (.fault _)

theorem regular_feed (chunk : Stream Value) (s : Stage W) : Regular (s.feed chunk) := by
  cases s with
  | ready p s =>
    exact .bind (regular_alterState _ s) fun _ => .bind (regular_inChunk 0 _) fun _ =>
      .bind (regular_complete _) fun _ => .pure _
  | waiting r => exact .bind (regular_resumed r chunk) fun _ => .pure _
  | complete r => exact .pure _

theorem regular_replayFor (chunks : History) (n : Nat) (f : Finish W) :
    Regular (Finish.replay chunks n f) := by
  induction n generalizing f with
  | zero => exact .stop _
  | succ n ih =>
    cases f with
    | reply r => exact .pure _
    | request r =>
      exact .ite (.bind (regular_chunk chunks _) fun _ => .bind (regular_resumed r _) fun f => ih f)
        (.pure _)

theorem exhausted_or_replay (chunks : History) (n : Nat) (f : Finish W) (m : Means W)
    (σ : Store W) : Exhausted (Finish.replay chunks n f m σ) ∨
      Finish.replay chunks (n + 1) f m σ = Finish.replay chunks n f m σ := by
  induction n generalizing f σ with
  | zero => exact .inl ⟨σ, rfl⟩
  | succ n ih =>
    cases f with
    | reply r => exact .inr rfl
    | request r =>
      exact exhausted_or_ite (exhausted_or_bind fun _ _ => exhausted_or_bind fun f σ => ih f σ)
        (.inr rfl)

theorem regular_replay (chunks : History) (f : Finish W) :
    Regular (do Finish.replay chunks (← read).steps f) :=
  .loop (fun n => regular_replayFor chunks n f) fun n => exhausted_or_replay chunks n f

theorem regular_makeResult (a : Action W Value) : Regular (ResultId.make a) :=
  .modifyGet fun σ => .pushResult σ a

theorem regular_stage (handlers : Handlers W) (chunks : History) (f : Finish W) :
    Regular (f.stage handlers chunks) := by
  cases f with
  | reply r => exact .bind (regular_makeResult _) fun _ => .bind (.debug _) fun _ => .pure _
  | request r => exact .bind (.debug _) fun _ => .pure _

theorem regular_makeSession (s : Session W) : Regular (SessionId.make s) := by
  refine .modifyGet fun σ => { Store.Widens.refl σ with sessions := fun i t ht => ?_ }
  obtain ⟨hi, rfl⟩ := Array.getElem?_eq_some_iff.mp ht
  exact Array.getElem?_push_lt hi

theorem regular_forceProvide (chunk : Source) (i : SessionId) :
    Regular (i.forceProvide chunk : Eval W SessionId) := by
  refine .bind (regular_session i) fun s => .ite (.pure i) ?_
  refine .bind (regular_asStream chunk) fun chunk => .bind (regular_appendChunk _ chunk)
    fun chunks => .bind (regular_feed chunk _) fun f => ?_
  cases f with
  | none => exact .pure i
  | some f =>
    simp only
    rw [← bind_assoc]
    exact .bind (regular_replay chunks f) fun f => .bind (regular_stage _ chunks f) fun _ =>
      regular_makeSession _

theorem regular_provide (chunk : Source) (i : SessionId) :
    Regular (i.provide chunk : Eval W SessionId) :=
  .bind (regular_asStream chunk) fun _ => .bind (regular_isEmpty _) fun _ =>
    .ite (.pure i) (regular_forceProvide _ i)

theorem regular_completeFor (n : Nat) (i : SessionId) :
    Regular (i.completeFor n : Eval W ResultId) := by
  induction n generalizing i with
  | zero => exact .stop _
  | succ n ih =>
    refine .bind (regular_forceProvide _ i) fun i => .bind (regular_session i) fun s => ?_
    cases s.stage with
    | complete r => exact .pure r
    | _ => exact ih i

theorem exhausted_or_completeFor (n : Nat) (i : SessionId) (m : Means W) (σ : Store W) :
    Exhausted (i.completeFor n m σ) ∨ i.completeFor (n + 1) m σ = i.completeFor n m σ := by
  induction n generalizing i σ with
  | zero => exact .inl ⟨σ, rfl⟩
  | succ n ih =>
    refine exhausted_or_bind fun i σ => exhausted_or_bind fun s σ => ?_
    cases s.stage with
    | complete r => exact .inr rfl
    | _ => exact ih i σ

theorem regular_finish (i : SessionId) : Regular (i.finish : Eval W Value) := by
  unfold SessionId.finish
  rw [← bind_assoc]
  refine .bind ?_ fun _ => .force _
  exact .loop (fun n => regular_completeFor n i) fun n m σ => exhausted_or_completeFor n i m σ

theorem regular_compute (t : Tail W) : Regular t.compute := by
  cases t with
  | append a b =>
    exact .bind (regular_rest a) fun s => .bind (regular_append s b) fun _ => .pure _
  | parse p s =>
    refine .bind (regular_parseState p s) fun f => ?_
    cases f with
    | ok v => exact .bind (regular_ofValue v) fun _ => .pure _
    | error r => exact .pure _
  | action a => exact (regular_action a).map _

end ResumableParsing
