import ResumableParsing.Proofs.Watching.Courses
import ResumableParsing.Proofs.Watching.Tasks

/-!
# The ledger of calls

Between two errands every session is at rest: the parse has not begun, it is over, or it waits for a
chunk, and then the ways from all states that it can come back to are known up to the ends of their
chunks. A ledger lists the calls so far by which states inside chunks have asked for their parsers.

* `Request.AtRest`, `Finish.AtRest`, `Session.AtRest`: parses that are at rest
* `Ledger`: no state has asked twice, and each one for its first token
* `Audit`: what holds of the store between two errands
* `Audited`: computations that lead from one such store to another
-/

namespace ResumableParsing

variable {W α β : Type}

/-! ## Parses at rest -/

/-- The parse waits in a plain state, and the ways from all states that it can come back to are
known up to the ends of their chunks. -/
inductive Request.AtRest (P : ParserId → Prop) (σ : Store W) : Request W → Prop where
  | intro (n : Int) (watched : Bool) (input : Stream Value) (position : Int) (user : Value)
      {k : Continuation W} {l : List AdvanceId} : Continuation.Holds P k l → (∀ a ∈ l, a.Full σ) →
      AtRest P σ ⟨n, .plain watched input position user, k⟩

/-- The parse is over, or it waits. -/
inductive Finish.AtRest (P : ParserId → Prop) (σ : Store W) : Finish W → Prop where
  | reply (r : Reply Value) : AtRest P σ (.reply r)
  | request {q : Request W} : q.AtRest P σ → AtRest P σ (.request q)

/-- The parse is to start in a plain state, waits, or is over. -/
inductive Stage.AtRest (P : ParserId → Prop) (σ : Store W) : Stage W → Prop where
  | ready {p : ParserId} (watched : Bool) (input : Stream Value) (position : Int) (user : Value) :
      P p → AtRest P σ (.ready p (.plain watched input position user))
  | waiting {q : Request W} : q.AtRest P σ → AtRest P σ (.waiting q)
  | complete (result : ResultId) : AtRest P σ (.complete result)

/-- The session is between two chunks, and its handlers make no states. -/
structure Session.AtRest (P : ParserId → Prop) (σ : Store W) (s : Session W) : Prop where
  /-- How far it has come. -/
  stage : s.stage.AtRest P σ
  /-- What the caller does with its end. -/
  handlers : ∀ r, (s.handlers.call r).Detached

/-- More is known. -/
structure Store.Proceeds (P : ParserId → Prop) (σ : Store W) (P' : ParserId → Prop) (τ : Store W) :
    Prop where
  /-- The parsers stay. -/
  le : ∀ p, P p → P' p
  /-- What is known stays known. -/
  grows : σ.Grows τ
  /-- So does what states inside chunks remember. -/
  recalls : σ.Recalls τ

section

variable {P P' P'' : ParserId → Prop} {σ τ υ : Store W}

theorem Store.Proceeds.trans (h : σ.Proceeds P P' τ) (h' : τ.Proceeds P' P'' υ) :
    σ.Proceeds P P'' υ :=
  ⟨fun p hp => h'.le p (h.le p hp), h.grows.trans h'.grows, h.recalls.trans h'.recalls⟩

theorem Request.AtRest.later {q : Request W} (h : q.AtRest P σ) (later : σ.Proceeds P P' τ) :
    q.AtRest P' τ := by
  cases h with
  | intro n w i p u hk full =>
    exact .intro n w i p u (hk.mono later.le) fun a ha => later.recalls.full (full a ha)

theorem Stage.AtRest.later {s : Stage W} (h : s.AtRest P σ) (later : σ.Proceeds P P' τ) :
    s.AtRest P' τ := by
  cases h with
  | ready w i p u hp => exact .ready w i p u (later.le _ hp)
  | waiting hq => exact .waiting (hq.later later)
  | complete r => exact .complete r

theorem Session.AtRest.later {s : Session W} (h : s.AtRest P σ) (later : σ.Proceeds P P' τ) :
    s.AtRest P' τ := ⟨h.stage.later later, h.handlers⟩

end

/-! ## The ledger -/

/-- The calls so far: every state has asked at most once, and with its first token. -/
structure Ledger (σ : Store W) (asked : List Ask) : Prop where
  /-- No state has asked twice. -/
  once : (asked.map Ask.state).Nodup
  /-- The states remember that they have asked. -/
  spent : ∀ x ∈ asked, x.state.Spent σ
  /-- They have asked with their first tokens. -/
  head : ∀ x ∈ asked, x.inner.input.Head σ x.token

/-- What holds between two errands. -/
structure Audit (P : ParserId → Prop) (σ : Store W) (asked : List Ask) : Prop
    extends Ledger σ asked where
  /-- The parsers only start one another. -/
  closed : Closed (fun _ => False) P σ
  /-- Nothing is parsed when streams are read. -/
  still : σ.Still
  /-- Inside chunks states of these chunks are remembered. -/
  remembers : σ.Remembers
  /-- Results are computed without making states. -/
  results : ∀ (i : Nat) (m : Memo (Action W Value) Value), σ.results[i]? = some m → m.thunk.Detached
  /-- The sessions are at rest. -/
  sessions : ∀ (i : Nat) (s : Session W), σ.sessions[i]? = some s → s.AtRest P σ

section

variable {P P' : ParserId → Prop} {σ τ : Store W} {asked : List Ask} {a : AdvanceId}

namespace Ledger

theorem nil (σ : Store W) : Ledger σ [] :=
  ⟨List.nodup_nil, fun _ hx => absurd hx List.not_mem_nil, fun _ hx => absurd hx List.not_mem_nil⟩

theorem later (h : Ledger σ asked) (grows : σ.Grows τ) (recalls : σ.Recalls τ) : Ledger τ asked :=
  ⟨h.once, fun x hx => recalls.spent (h.spent x hx), fun x hx => (h.head x hx).later grows.knows⟩

/-- A state that nobody has asked is not in the ledger. -/
theorem not_asked (h : Ledger σ asked) (ha : a.Fresh σ) : ∀ x ∈ asked, x.state ≠ a := by
  rintro x hx rfl
  exact ha.not_spent (h.spent x hx)

/-- One more call. -/
theorem add (h : Ledger σ asked) {x : Ask} (new : ∀ y ∈ asked, y.state ≠ x.state)
    (spent : x.state.Spent σ) (head : x.inner.input.Head σ x.token) : Ledger σ (asked ++ [x]) := by
  have mem {y : Ask} (hy : y ∈ asked ++ [x]) : y ∈ asked ∨ y = x := by simpa using hy
  refine ⟨?_, fun y hy => ?_, fun y hy => ?_⟩
  · rw [List.map_append, List.nodup_append]
    refine ⟨h.once, List.pairwise_singleton _ _, fun b hb c hc => ?_⟩
    obtain ⟨y, hy, rfl⟩ := List.mem_map.mp hb
    rw [List.map_singleton, List.mem_singleton] at hc
    exact hc ▸ new y hy
  · rcases mem hy with hy | rfl
    · exact h.spent y hy
    · exact spent
  · rcases mem hy with hy | rfl
    · exact h.head y hy
    · exact head

end Ledger

namespace Audit

/-- Nothing has been asked before the first errand. -/
theorem of_pristine (h : σ.Pristine P) : Audit P σ [] where
  toLedger := .nil σ
  closed := h.closed
  still := h.still
  remembers i m hm := by simp [h.advances] at hm
  results i m hm := by simp [h.results] at hm
  sessions i s hs := by simp [h.sessions] at hs

/-- Other parts of the store have changed, or have been added. -/
theorem later (h : Audit P σ asked) (grows : σ.Grows τ) (recalls : σ.Recalls τ) (still : τ.Still)
    (remembers : τ.Remembers) (results : ∀ (i : Nat) (m : Memo (Action W Value) Value),
      τ.results[i]? = some m → m.thunk.Detached ∨
        ∃ m', σ.results[i]? = some m' ∧ m.thunk = m'.thunk)
    (sessions : ∀ (i : Nat) (s : Session W), τ.sessions[i]? = some s →
      s.AtRest P σ ∨ σ.sessions[i]? = some s) : Audit P τ asked where
  toLedger := h.toLedger.later grows recalls
  closed := h.closed.later grows
  still := still
  remembers := remembers
  results i m hm := by
    rcases results i m hm with new | ⟨m', hm', same⟩
    · exact new
    · exact same ▸ h.results i m' hm'
  sessions i s hs := by
    have later : σ.Proceeds P P τ := ⟨fun _ hp => hp, grows, recalls⟩
    rcases sessions i s hs with new | old
    · exact new.later later
    · exact (h.sessions i s old).later later

/-- The memories have changed. -/
theorem recalled (h : Audit P σ asked) {x : Array Advance}
    (grows : σ.Grows { σ with advances := x })
    (recalls : σ.Recalls { σ with advances := x })
    (remembers : ({ σ with advances := x } : Store W).Remembers) :
    Audit P { σ with advances := x } asked :=
  h.later grows recalls h.still remembers (fun _ m hm => .inr ⟨m, hm, rfl⟩) fun _ _ hs => .inr hs

end Audit

/-- States have been left alone. -/
theorem Store.Idle.proceeds (h : σ.Idle P P' τ) : σ.Proceeds P P' τ :=
  ⟨h.le, h.grows, .of_advances h.clear.advances⟩

theorem Audit.idle (h : Audit P σ asked) (idle : σ.Idle P P' τ) : Audit P' τ asked where
  toLedger := h.toLedger.later idle.grows idle.proceeds.recalls
  closed := idle.closed
  still := idle.still
  remembers i m hm := h.remembers i m (idle.clear.advances ▸ hm)
  results i m hm := h.results i m (idle.clear.results ▸ hm)
  sessions i s hs := (h.sessions i s (idle.clear.sessions ▸ hs)).later idle.proceeds

theorem Audit.refl (h : Audit P σ asked) : σ.Idle P P σ := .refl h.closed h.still

end

/-! ## Audited computations -/

/-- The computation makes these calls, leaves a store in order, and its result is as `Q` says. -/
structure Audited (P : ParserId → Prop) (n : Nat) (σ : Store W) (asked : List Ask) (x : Eval W α)
    (asks : List Ask) (Q : (ParserId → Prop) → α → Store W → Prop) : Prop where
  /-- What is left. -/
  next : ∃ P', σ.Proceeds P P' (left (x (.within n) σ)) ∧
    Audit P' (left (x (.within n) σ)) (asked ++ asks) ∧
    ∀ a τ, x (.within n) σ = .ok a τ → Q P' a τ

/-- Computations behind which nothing is asked. -/
theorem Eval.calls_nil (m : Means W) (σ : Store W) (x : Eval W α) :
    x.calls m σ (fun _ _ => []) = [] := by
  rw [Eval.calls]
  cases x m σ <;> rfl

section

variable {P P' : ParserId → Prop} {n : Nat} {σ τ : Store W} {asked asks : List Ask}
  {x y : Eval W α} {f : α → Eval W β} {g : α → Store W → List Ask}
  {Q Q₁ : (ParserId → Prop) → α → Store W → Prop} {Q' : (ParserId → Prop) → β → Store W → Prop}

namespace Audited

/-- Calls that are made before states are left alone. -/
theorem of_idles (audit : Audit P σ (asked ++ asks)) (hx : Idles P n σ x Q) :
    Audited P n σ asked x asks Q := by
  obtain ⟨P', idle, hq⟩ := hx.next
  exact ⟨P', idle.proceeds, audit.idle idle, hq⟩

/-- What leaves states alone asks for nothing. -/
theorem silent (audit : Audit P σ asked) (hx : Idles P n σ x Q) : Audited P n σ asked x [] Q :=
  of_idles (by rwa [List.append_nil]) hx

/-- The computation is known to succeed. -/
theorem of_ok {a : α} (e : x (.within n) σ = .ok a τ) (later : σ.Proceeds P P' τ)
    (audit : Audit P' τ asked) (q : Q P' a τ) : Audited P n σ asked x [] Q := by
  refine ⟨P', ?_, ?_, fun b υ e' => ?_⟩
  · rwa [e]
  · rwa [e, List.append_nil]
  · cases e.symm.trans e'
    exact q

theorem of_eq (h : x (.within n) σ = y (.within n) σ) (hy : Audited P n σ asked y asks Q) :
    Audited P n σ asked x asks Q := by
  refine ⟨?_⟩
  rw [h]
  exact hy.next

theorem imp (hx : Audited P n σ asked x asks Q) (h : ∀ P' a τ, Q P' a τ → Q₁ P' a τ) :
    Audited P n σ asked x asks Q₁ := by
  obtain ⟨P', later, audit, hq⟩ := hx.next
  exact ⟨P', later, audit, fun a τ e => h P' a τ (hq a τ e)⟩

theorem throw {e : Stop} (audit : Audit P σ asked) :
    Audited P n σ asked (throw e : Eval W α) [] Q := silent audit (.throw audit.refl)

theorem pure {a : α} (audit : Audit P σ asked) (q : Q P a σ) :
    Audited P n σ asked (pure a) [] Q := silent audit (.pure audit.refl q)

/-- The store is looked at. -/
theorem get {k : Store W → Eval W α} (h : Audited P n σ asked (k σ) asks Q) :
    Audited P n σ asked (MonadState.get >>= k) asks Q := of_eq (y := k σ) rfl h

/-! ### One computation after another -/

/-- Both computations ask. -/
theorem bind (hx : Audited P n σ asked x asks Q)
    (hf : ∀ P' a τ, σ.Proceeds P P' τ → Audit P' τ (asked ++ asks) → Q P' a τ →
      x (.within n) σ = .ok a τ → Audited P' n τ (asked ++ asks) (f a) (g a τ) Q') :
    Audited P n σ asked (x >>= f) (asks ++ x.calls (.within n) σ g) Q' := by
  obtain ⟨P', later, audit, hq⟩ := hx.next
  cases e : x (.within n) σ with
  | error e' τ =>
    rw [e] at later audit
    have none : x.calls (.within n) σ g = [] := by rw [Eval.calls, e]
    refine ⟨P', ?_, ?_, fun b υ h => ?_⟩
    · rw [Eval.run_bind, e]
      exact later
    · rw [Eval.run_bind, e, none, List.append_nil]
      exact audit
    · rw [Eval.run_bind, e] at h
      cases h
  | ok a τ =>
    rw [e] at later audit
    obtain ⟨P'', later', audit', hq'⟩ := (hf P' a τ later audit (hq a τ e) e).next
    have calls : x.calls (.within n) σ g = g a τ := by rw [Eval.calls, e]
    refine ⟨P'', ?_, ?_, fun b υ h => ?_⟩
    · rw [Eval.run_bind, e]
      exact later.trans later'
    · rw [Eval.run_bind, e, calls, ← List.append_assoc]
      exact audit'
    · rw [Eval.run_bind, e] at h
      exact hq' b υ h

/-- Only the first one asks. -/
theorem andThen (hx : Audited P n σ asked x asks Q)
    (hf : ∀ P' a τ, σ.Proceeds P P' τ → Audit P' τ (asked ++ asks) → Q P' a τ →
      x (.within n) σ = .ok a τ → Audited P' n τ (asked ++ asks) (f a) [] Q') :
    Audited P n σ asked (x >>= f) asks Q' := by
  have h := hx.bind (g := fun _ _ => []) hf
  rwa [Eval.calls_nil, List.append_nil] at h

/-- Only the second one asks. -/
theorem before (hx : Audited P n σ asked x [] Q)
    (hf : ∀ P' a τ, σ.Proceeds P P' τ → Audit P' τ asked → Q P' a τ →
      x (.within n) σ = .ok a τ → Audited P' n τ asked (f a) (g a τ) Q') :
    Audited P n σ asked (x >>= f) (x.calls (.within n) σ g) Q' := by
  refine hx.bind (g := g) ?_
  rwa [List.append_nil]

/-- Neither asks. -/
theorem follow (hx : Audited P n σ asked x [] Q)
    (hf : ∀ P' a τ, σ.Proceeds P P' τ → Audit P' τ asked → Q P' a τ →
      x (.within n) σ = .ok a τ → Audited P' n τ asked (f a) [] Q') :
    Audited P n σ asked (x >>= f) [] Q' := by
  refine hx.andThen ?_
  rwa [List.append_nil]

/-- Neither asks, and the first one leaves states alone. -/
theorem after (audit : Audit P σ asked) (hx : Idles P n σ x Q)
    (hf : ∀ P' a τ, σ.Idle P P' τ → Audit P' τ asked → Q P' a τ →
      x (.within n) σ = .ok a τ → Audited P' n τ asked (f a) [] Q') :
    Audited P n σ asked (x >>= f) [] Q' :=
  (silent audit hx.along).follow fun P' a τ _ audit q e => hf P' a τ q.1 audit q.2 e

end Audited

end

end ResumableParsing
