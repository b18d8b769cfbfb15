import ResumableParsing.Proofs.Logging.Computations

/-!
# Parses in stores that differ in logging

A parse takes the same way in stores that differ in logging, except that it looks definitions up in
different places: where a run function has been taken over on one side, the logging method leads to
the same run function on the other side, perhaps by some more steps.

* `Task.Truthful`, `Finish.Truthful`: what is left to do claims no definition to be missing
* `Logging.indifferent_enter`, `Logging.indifferent_resume`: starting parsers and receiving replies
* `Logging.follows_code`, `Logging.follows_run`: definitions that are looked up in different places
* `Logging.indifferent_complete`: parses take no notice of logging
-/

namespace ResumableParsing

variable {W α : Type}

/-! ## What is left to do -/

/-- The functions in the continuation claim no definition to be missing. A run function is looked at
elsewhere. -/
def Task.Truthful (M : Prop) (K : ParserId → Prop) : Task W → Prop
  | .run _ _ k => ∀ f ∈ k, f.Truthful M K
  | .code .. => False
  | .settle _ k => ∀ f ∈ k, f.Truthful M K
  | .cross _ _ _ k => ∀ f ∈ k, f.Truthful M K
  | .deliver _ k => ∀ f ∈ k, f.Truthful M K

/-- So do the functions of a parse that waits. -/
def Finish.Truthful (M : Prop) (K : ParserId → Prop) : Finish W → Prop
  | .reply _ => True
  | .request r => ∀ f ∈ r.continuation, f.Truthful M K

namespace Logging

variable {M : Prop} {K : ParserId → Prop} {n : Nat} {k : Continuation W}

/-- What a step leaves. -/
def Leaves (M : Prop) (K : ParserId → Prop) : Step (Task W) (Finish W) → Prop
  | .tail t => t.Truthful M K
  | .value f => f.Truthful M K

/-- One more frame. -/
theorem truthful_cons {f : Frame W} (hf : f.Truthful M K) (hk : ∀ f ∈ k, f.Truthful M K) :
    ∀ g ∈ f :: k, g.Truthful M K :=
  List.forall_mem_cons.mpr ⟨hf, hk⟩

/-! ## Moving past a token -/

section

variable (hk : ∀ f ∈ k, f.Truthful M K)

include hk

theorem indifferent_go (m : Advance) (i : Int) :
    Indifferent M K n (m.go i k) (Leaves M K) :=
  indifferent_bind (R := fun _ => True) (indifferent_deref fun _ _ => trivial) fun _ _ =>
    indifferent_ite (fun _ => indifferent_pure hk) fun _ => indifferent_pure hk

theorem indifferent_refuse (reason : Reason) (expected : List ParserId) (s : State Value) :
    Indifferent M K n (Task.refuse reason expected s k) (Task.Truthful M K) :=
  indifferent_bind indifferent_serial fun _ _ => indifferent_pure hk

theorem indifferent_nextState (forces : Forces W M K n) (s : State Value) (token : Value) :
    Indifferent M K n (s.next token k) (Task.Truthful M K) := by
  cases s with
  | plain w i p u =>
    have moved : Indifferent M K n
        (do return .settle (← (State.plain w i p u).advance) k : Eval W (Task W))
        (Task.Truthful M K) :=
      indifferent_bind (indifferent_advance forces _) fun _ _ => indifferent_pure hk
    exact indifferent_ite (fun _ => indifferent_bind
      (indifferent_modify (fun _ _ _ _ => rfl) fun _ h => { h with }) fun _ _ => moved)
      fun _ => moved
  | chunked a c s => exact indifferent_bind (indifferent_alter a _) fun _ _ => indifferent_pure hk

theorem indifferent_cross (forces : Forces W M K n) (a : AdvanceId) (i : Int)
    (inner : State Value) : Indifferent M K n (a.cross i inner k) (Leaves M K) := by
  refine indifferent_memory a fun m => indifferent_ite (fun _ => indifferent_go hk m i) fun _ => ?_
  split
  · exact indifferent_bind (indifferent_advance forces _) fun _ _ =>
      indifferent_bind (indifferent_remember forces a i _) fun _ _ =>
        indifferent_memory a fun m => indifferent_go hk m i
  · refine indifferent_bind (R := Task.Truthful M K) ?_ fun _ ht => indifferent_pure ht
    exact indifferent_nextState (truthful_cons (f := .crossed a i) trivial hk) forces inner _

/-! ## Starting a parser -/

theorem indifferent_enter (forces : Forces W M K n) {b : Body W} (hb : b.Truthful M K)
    (s : State Value) : Indifferent M K n (b.enter s k) (Task.Truthful M K) := by
  cases b with
  | some self accepts =>
    refine indifferent_bind (indifferent_isEmpty forces _) fun _ _ =>
      indifferent_ite (fun _ => indifferent_refuse hk _ _ _) fun _ => ?_
    refine indifferent_bind (indifferent_first forces _) fun token _ =>
      indifferent_bind (indifferent_action forces (hb token)) fun _ _ =>
        indifferent_ite (fun _ => ?_) fun _ => ?_
    · exact indifferent_nextState (truthful_cons (f := .matched token) trivial hk) forces s token
    · exact indifferent_bind (indifferent_debug _) fun _ _ =>
        indifferent_render token fun _ => indifferent_refuse hk _ _ _
  | finished self =>
    refine indifferent_bind (indifferent_isEmpty forces _) fun _ _ =>
      indifferent_ite (fun _ => indifferent_pure hk) fun _ => ?_
    exact indifferent_bind (indifferent_first forces _) fun token _ =>
      indifferent_render token fun _ => indifferent_refuse hk _ _ _
  | pure v => exact indifferent_pure hk
  | fail m => exact indifferent_refuse hk _ _ _
  | undeclared => exact indifferent_fault fun _ => hb
  | ignore inner => exact hb.elim
  | cell v again =>
    exact indifferent_bind (indifferent_lazyCell v trivial) fun _ _ => indifferent_pure hk
  | native run =>
    exact indifferent_bind (indifferent_action forces (hb s)) fun _ _ => indifferent_pure hk
  | map p f => exact indifferent_pure (truthful_cons hb hk)
  | bind p f => exact indifferent_pure (truthful_cons hb hk)
  | after p run => exact indifferent_pure (truthful_cons hb hk)
  | _ => exact indifferent_pure (truthful_cons trivial hk)

/-! ## Receiving a reply -/

omit hk in
theorem indifferent_join (forces : Forces W M K n) (c : Combine) (v w : Value) :
    Indifferent M K n (c.join v w : Eval W Value) fun _ => True := by
  cases c with
  | first => exact indifferent_pure trivial
  | second => exact indifferent_pure trivial
  | group => cases v <;> exact indifferent_pure trivial
  | cons =>
    cases w with
    | stream s =>
      exact indifferent_bind (indifferent_consCell v s) fun _ _ => indifferent_pure trivial
    | _ =>
      refine indifferent_bind (indifferent_lazyCell v ?_) fun _ _ => indifferent_pure trivial
      exact False.elim
  | append =>
    exact indifferent_bind (indifferent_ofValue v) fun s _ =>
      indifferent_bind (indifferent_ofValue w) fun t _ =>
        indifferent_bind (indifferent_append forces s t) fun _ _ => indifferent_pure trivial

omit hk in
/-- An orderly grammar is built at run time. -/
theorem indifferent_build {g : Grammar W} (hg : g.Orderly M K K) :
    Indifferent M K n (Eval.ofBuild g.build) fun _ => True :=
  indifferent_ofBuild fun σ τ hs =>
    (hg.builds (fun p hp => ⟨hs.known p hp, id⟩) σ τ hs rfl).imp fun _ _ _ h => ⟨h.1, trivial⟩

theorem indifferent_resume (forces : Forces W M K n) {f : Frame W} (hf : f.Truthful M K)
    (r : Reply Value) : Indifferent M K n (f.resume r k) (Leaves M K) := by
  cases f with
  | seqFirst q c =>
    cases r with
    | ok d v s => exact indifferent_pure (truthful_cons trivial hk)
    | err d e s => exact indifferent_pure hk
  | seqSecond d v c =>
    cases r with
    | ok d w s =>
      exact indifferent_bind (indifferent_join forces c v w) fun _ _ => indifferent_pure hk
    | err d e s => exact indifferent_pure hk
  | altFirst q s =>
    rcases r with ⟨_, _, _⟩ | ⟨_ | _, _, _⟩
    · exact indifferent_pure hk
    · exact indifferent_pure (truthful_cons trivial hk)
    · exact indifferent_pure hk
  | altSecond e =>
    rcases r with ⟨d, v, s⟩ | ⟨_ | _, e', s⟩
    · exact indifferent_pure hk
    · exact indifferent_bind indifferent_serial fun _ _ => indifferent_pure hk
    · exact indifferent_pure hk
  | map f =>
    cases r with
    | ok d v s =>
      exact indifferent_bind (indifferent_action forces (hf v)) fun _ _ => indifferent_pure hk
    | err d e s => exact indifferent_pure hk
  | bind f =>
    cases r with
    | ok d v s =>
      -- The function gives orderly grammars.
      refine indifferent_bind ((indifferent_action forces (hf.1 v)).yields (hf.2 v)) fun g hg => ?_
      refine indifferent_bind (indifferent_build hg) fun q _ => indifferent_pure ?_
      cases d with
      | false => exact hk
      | true => exact truthful_cons trivial hk
    | err d e s => exact indifferent_pure hk
  | consume => exact indifferent_pure hk
  | ignore => cases r <;> exact indifferent_pure hk
  | attempt s => rcases r with ⟨_, _, _⟩ | ⟨_ | _, _, _⟩ <;> exact indifferent_pure hk
  | manyItem self p s =>
    rcases r with ⟨_ | _, v, t⟩ | ⟨_ | _, e, t⟩
    · exact indifferent_look (g := fun σ => σ.parserName self) (Q := fun _ => True)
        (fun σ τ hs => ⟨by rw [hs.parserName], trivial⟩) fun _ _ => indifferent_fault False.elim
    · exact indifferent_pure (truthful_cons trivial hk)
    · exact indifferent_pure hk
    · exact indifferent_pure hk
  | manyRest v =>
    cases r with
    | ok d w s =>
      exact indifferent_bind (indifferent_join forces .cons v w) fun _ _ => indifferent_pure hk
    | err d e s => exact indifferent_pure hk
  | matched token => exact indifferent_bind (indifferent_debug _) fun _ _ => indifferent_pure hk
  | crossed a i =>
    exact indifferent_bind (indifferent_remember forces a i _) fun _ _ =>
      indifferent_memory a fun m => indifferent_go hk m i
  | after s run =>
    exact indifferent_bind (indifferent_action forces (hf s r)) fun _ _ => indifferent_pure hk

end

/-! ## Runs -/

/-- The tasks are the same, or run functions that do the same. -/
inductive Tasks (M : Prop) (K : ParserId → Prop) (σ τ : Store W) : Task W → Task W → Prop where
  | same {t : Task W} : t.Truthful M K → Tasks M K σ τ t t
  | code {c d : Code W} {s : State Value} {k : Continuation W} :
      Codes M K (fun _ => False) σ.parsers τ.parsers c d → (∀ f ∈ k, f.Truthful M K) →
      Tasks M K σ τ (.code c s k) (.code d s k)

/-- What a run on the left ends with, the run of a task on the right ends with as well. -/
def Reached (M : Prop) (K : ParserId → Prop) (y : EStateM.Result Stop (Store W) (Finish W))
    (u : Task W) (τ : Store W) : Prop :=
  ∃ m r, u.Reaches m τ r ∧ Ends M K (Finish.Truthful M K) y r

/-- Within the bound `n`, what a task on the left ends with in `j` steps a task on the right ends
with as well. -/
def Follows (M : Prop) (K : ParserId → Prop) (n j : Nat) (t u : Task W) (σ τ : Store W) : Prop :=
  Abreast M K σ τ → ¬Exhausted (t.runFor j (.within n) σ) →
    Reached M K (t.runFor j (.within n) σ) u τ

section

variable {σ τ : Store W} {t u : Task W} {j : Nat}

theorem runFor_tail {t' : Task W} {σ' : Store W} {m : Means W}
    (step : t.step m σ = .ok (.tail t') σ') : t.runFor (j + 1) m σ = t'.runFor j m σ' := by
  rw [Task.runFor, Eval.run_bind, step]

theorem runFor_error {e : Stop} {σ' : Store W} {m : Means W} (step : t.step m σ = .error e σ') :
    t.runFor (j + 1) m σ = .error e σ' := by
  rw [Task.runFor, Eval.run_bind, step]

/-- The left side goes on with another task. -/
theorem Follows.stepLeft {t' : Task W} {σ' : Store W} (noted : σ.Noted σ')
    (step : ∀ m, t.step m σ = .ok (.tail t') σ') (h : Follows M K n j t' u σ' τ) :
    Follows M K n (j + 1) t u σ τ := by
  intro hs he
  rw [runFor_tail (step _)] at he ⊢
  exact h (hs.notedLeft noted) he

/-- The right side does. -/
theorem Follows.stepRight {u' : Task W} {τ' : Store W} (noted : τ.Noted τ')
    (step : ∀ m, u.step m τ = .ok (.tail u') τ') (h : Follows M K n j t u' σ τ') :
    Follows M K n j t u σ τ := by
  intro hs he
  obtain ⟨m, r, hr, ends⟩ := h (hs.notedRight noted) he
  exact ⟨m + 1, r, .tail (comes_of_forall (fun _ => step _) not_exhausted_ok) hr, ends⟩

/-- Both sides find that a definition is missing. -/
theorem follows_undefined {σ' τ' : Store W} (hM : M) (noted : σ.Noted σ') (noted' : τ.Noted τ')
    (step : ∀ m, t.step m σ = .error (.raised .undefinedParser) σ')
    (step' : ∀ m, u.step m τ = .error (.raised .undefinedParser) τ') :
    Follows M K n (j + 1) t u σ τ := by
  intro hs _
  rw [runFor_error (step _)]
  refine ⟨0, _, .error (comes_of_forall (fun _ => step' _) (not_exhausted_error (by simp))), ?_⟩
  exact .raised (fun _ => hM) ((hs.notedLeft noted).notedRight noted')

/-- Both sides take the same step. -/
theorem follows_step (h : Indifferent M K n t.step (Leaves M K))
    (ih : ∀ {t' : Task W} {σ' τ' : Store W}, t'.Truthful M K → Follows M K n j t' t' σ' τ') :
    Follows M K n (j + 1) t t σ τ := by
  intro hs he
  rw [Task.runFor, Eval.run_bind] at he ⊢
  cases run : t.step (.within n) σ with
  | ok x σ' =>
    rw [run] at he
    obtain ⟨τ', hr, hx, hs'⟩ := h.of_ok hs run
    cases x with
    | tail t' =>
      obtain ⟨m, r', hr', ends⟩ := ih hx hs' he
      exact ⟨m + 1, r', .tail hr hr', ends⟩
    | value f => exact ⟨0, _, .value hr, .ok hx hs'⟩
  | error e σ' =>
    rw [run] at he
    obtain ⟨τ', hr, ends⟩ := h.of_error hs run (by
      rintro rfl
      exact he ⟨_, rfl⟩)
    exact ⟨0, _, .error hr, ends _ _⟩

/-- Run functions that do the same are run. The induction is on where the definitions are kept. -/
theorem follows_code (forces : Forces W M K n) {a b : Array (Cell W)} {c d : Code W}
    {s : State Value} {k : Continuation W} (codes : Codes M K (fun _ => False) a b c d)
    (ha : σ.parsers = a) (hb : τ.parsers = b) (hk : ∀ f ∈ k, f.Truthful M K)
    (ih : ∀ {t u : Task W} {σ τ : Store W}, Tasks M K σ τ t u → Follows M K n j t u σ τ) :
    Follows M K n (j + 1) (.code c s k) (.code d s k) σ τ := by
  induction codes generalizing σ τ with
  | body hx =>
    exact follows_step (indifferent_bind (indifferent_enter hk forces hx s) fun _ ht =>
      indifferent_pure ht) fun ht => ih (.same ht)
  | ignore codes _ =>
    refine .stepLeft (.refl σ) (fun _ => rfl) (.stepRight (.refl τ) (fun _ => rfl) (ih ?_))
    exact .code (ha ▸ hb ▸ codes) (truthful_cons trivial hk)
  | @left p _ _ _ _ found logged codes _ =>
    have noted := Store.Noted.noted ("trying " ++ σ.parserName p) σ
    refine .stepLeft noted (step_method (ha ▸ found) logged s k) (ih (.code ?_ hk))
    exact noted.parsers ▸ ha ▸ hb ▸ codes
  | @right p _ _ _ _ found logged codes ihc =>
    have noted := Store.Noted.noted ("trying " ++ τ.parserName p) τ
    exact .stepRight noted (step_method (hb ▸ found) logged s k) (ihc ha (noted.parsers.trans hb))
  | undefined hM _ found found' none none' =>
    exact follows_undefined hM (.noted _ σ) (.noted _ τ) (step_method_none (ha ▸ found) none s k)
      (step_method_none (hb ▸ found') none' s k)

/-- A parser runs the definition that it goes by, wherever that is kept. -/
theorem follows_run {p : ParserId} {s : State Value} {k : Continuation W}
    (hk : ∀ f ∈ k, f.Truthful M K)
    (ih : ∀ {t u : Task W} {σ τ : Store W}, Tasks M K σ τ t u → Follows M K n j t u σ τ) :
    Follows M K n (j + 1) (.run p s k) (.run p s k) σ τ := by
  intro hs he
  cases hc : σ.parsers[p.index]? with
  | none =>
    have missing {σ : Store W} (hp : σ.parsers[p.index]? = none) (m : Means W) :
        (Task.run p s k).step m σ = .error .dangling σ := by
      simp [Task.step, hp]
    rw [runFor_error (missing hc _)]
    exact ⟨0, _, .error (comes_of_forall (fun _ => missing (hs.dangling hc) _)
      (not_exhausted_error (by simp))), .dangling hs⟩
  | some c =>
    obtain ⟨c', d, hc', hd, same⟩ := hs.parser (Array.getElem?_eq_some_iff.mp hc).1
    obtain rfl : c = c' := Option.some.inj (hc.symm.trans hc')
    -- What is looked up first may be the definition or the logging method in front of it.
    have inForce := same.inForce
    generalize hx : c.inForce = x at inForce
    generalize hy : d.inForce = y at inForce
    cases inForce with
    | none hM =>
      obtain ⟨σ', noted, run⟩ := step_run_none hc hx s k
      obtain ⟨τ', noted', run'⟩ := step_run_none hd hy s k
      exact follows_undefined hM noted noted' run run' hs he
    | some codes =>
      obtain ⟨σ', noted, run⟩ := step_run hc hx s k
      obtain ⟨τ', noted', run'⟩ := step_run hd hy s k
      refine Follows.stepLeft noted run (.stepRight noted' run' (ih (.code ?_ hk))) hs he
      exact noted.parsers ▸ noted'.parsers ▸ codes
    | opened open_ => exact open_.elim

/-- What a task ends with on the left, it ends with on the right. The induction is on the steps on
the left. -/
theorem follows (forces : Forces W M K n) (h : Tasks M K σ τ t u) : Follows M K n j t u σ τ := by
  induction j generalizing t u σ τ with
  | zero => exact fun _ he => absurd ⟨σ, rfl⟩ he
  | succ j ih =>
    cases h with
    | code codes hk => exact follows_code forces codes rfl rfl hk ih
    | @same t ht =>
      have next {t' : Task W} {σ' τ' : Store W} (ht : t'.Truthful M K) :
          Follows M K n j t' t' σ' τ' := ih (.same ht)
      cases t with
      | code c s k => exact ht.elim
      | settle s k =>
        exact follows_step
          (indifferent_bind (indifferent_debug _) fun _ _ => indifferent_pure ht) next
      | cross a i inner k => exact follows_step (indifferent_cross ht forces a i inner) next
      | deliver r k =>
        cases k with
        | nil => exact follows_step (indifferent_pure trivial) next
        | cons f k =>
          obtain ⟨hf, hk⟩ := List.forall_mem_cons.mp ht
          exact follows_step (indifferent_resume hk forces hf r) next
      | run p s k => exact follows_run ht ih

/-- Parses take no notice of logging. -/
theorem indifferent_complete (forces : Forces W M K n) {t : Task W} (ht : t.Truthful M K) :
    Indifferent M K n t.complete (Finish.Truthful M K) := by
  intro σ τ hs he
  obtain ⟨m, r, hr, ends⟩ := follows (j := n) forces (.same ht) hs he
  exact ⟨r, comes_complete.mpr ⟨m, hr⟩, ends⟩

end

end Logging

end ResumableParsing
