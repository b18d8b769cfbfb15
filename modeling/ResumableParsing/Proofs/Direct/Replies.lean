import ResumableParsing.Proofs.Direct.Answered
import ResumableParsing.Proofs.Store.Building
import ResumableParsing.Proofs.Store.Comes

/-!
# Replies of parsers

A run replies as the semantics in direct style says. What a parser does is found behind its run
function, perhaps after some attempts have been logged.

* `comes_of_evaluates`, `evaluates_of_comes`: runs and the semantics
* `Cell.inForce`, `step_run`: the definition that a parser goes by
* `ParserId.Does`: what a parser does
* `ParserId.Does.evaluates`: a parser replies as what it does
* `ParserId.Does.passes`: and only so
* `does_body`, `does_define`: what new parsers do
-/

namespace ResumableParsing

variable {W : Type}

/-! ## Runs -/

section

variable {p : ParserId} {s : State Value} {r : Reply Value} {σ τ : Store W} {n : Nat}

theorem evaluates_of_comes (h : (p.run s).Comes σ (.ok (.reply r) τ)) :
    ∃ n₀, ∀ n ≥ n₀, Evaluates (.within n) (.parser p s) σ [] (.reply r) τ := by
  obtain ⟨-, n₀, h⟩ := h
  refine ⟨n₀, fun n hn => ?_⟩
  obtain ⟨u, σ₁, N, e, given⟩ := evaluates_of_runFor (h n hn) (by simp)
  cases u with
  | reply r' =>
    cases N with
    | zero => cases given
    | succ N =>
      cases given
      exact e
  | stop e' => cases given
  | waits k =>
    obtain ⟨q, -, hq⟩ := given
    cases hq

theorem comes_of_evaluates (h : Evaluates (.within n) (.parser p s) σ [] (.reply r) τ) :
    (p.run s).Comes σ (.ok (.reply r) τ) := by
  obtain ⟨k, run⟩ := runFor_of_evaluates [] h
  have ends : (Task.run p s []).runFor (1 + k) (.within n) σ = .ok (.reply r) τ := run 1
  obtain ⟨j, reaches⟩ := reaches_of_runFor ends not_exhausted_ok
  exact comes_complete.mpr ⟨j, reaches⟩

end

/-! ## What parsers do -/

/-- The store is the same, up to what has been logged. -/
def Store.Noted (σ τ : Store W) : Prop := ∃ log, τ = { σ with log := log }

namespace Store.Noted

variable {σ τ υ : Store W}

theorem refl (σ : Store W) : σ.Noted σ := ⟨σ.log, rfl⟩

theorem trans (h : σ.Noted τ) (h' : τ.Noted υ) : σ.Noted υ := by
  obtain ⟨l, rfl⟩ := h
  obtain ⟨l', rfl⟩ := h'
  exact ⟨l', rfl⟩

theorem symm (h : σ.Noted τ) : τ.Noted σ := by
  obtain ⟨l, rfl⟩ := h
  exact ⟨σ.log, rfl⟩

theorem parsers (h : σ.Noted τ) : τ.parsers = σ.parsers := by
  obtain ⟨l, rfl⟩ := h
  rfl

theorem grows (h : σ.Noted τ) : σ.Grows τ := by
  obtain ⟨l, rfl⟩ := h
  exact { Store.Grows.refl σ with }

theorem noted (m : String) (σ : Store W) : σ.Noted (σ.noted m) := by
  rw [Store.noted]
  split
  · exact ⟨_, rfl⟩
  · exact .refl σ

end Store.Noted

/-! ### Looking definitions up -/

section

variable {σ : Store W} {p : ParserId} {c : Cell W}

/-- The definition that a parser goes by. -/
def Cell.inForce (c : Cell W) : Option (Code W) := c.direct.or c.logged

theorem found_noted (hc : σ.parsers[p.index]? = some c) (message : String) :
    (σ.noted message).parsers[p.index]? = some c := by
  rw [(Store.Noted.noted message σ).parsers, hc]

/-- The logging method reports the attempt, and goes on with the definition behind it. -/
theorem run_startLogged (hc : σ.parsers[p.index]? = some c) {x : Code W} (hx : c.logged = some x)
    (s : State Value) (k : Continuation W) (m : Means W) : Task.startLogged p s k m σ =
      .ok (.code x s k) (σ.noted ("trying " ++ σ.parserName p)) := by
  have there := found_noted hc ("trying " ++ σ.parserName p)
  rw [Store.noted] at there ⊢
  simp [Task.startLogged, there, hx]

/-- Where there is none, it raises a fault. -/
theorem run_startLogged_none (hc : σ.parsers[p.index]? = some c) (hx : c.logged = none)
    (s : State Value) (k : Continuation W) (m : Means W) : Task.startLogged p s k m σ =
      .error (.raised .undefinedParser) (σ.noted ("trying " ++ σ.parserName p)) := by
  have there := found_noted hc ("trying " ++ σ.parserName p)
  rw [Store.noted] at there ⊢
  simp [Task.startLogged, there, hx]

/-- A run of the logging method starts with this. -/
theorem step_method (hc : σ.parsers[p.index]? = some c) {x : Code W} (hx : c.logged = some x)
    (s : State Value) (k : Continuation W) (m : Means W) : (Task.code (.method p) s k).step m σ =
      .ok (.tail (.code x s k)) (σ.noted ("trying " ++ σ.parserName p)) := by
  simp [Task.step, run_startLogged hc hx]

theorem step_method_none (hc : σ.parsers[p.index]? = some c) (hx : c.logged = none)
    (s : State Value) (k : Continuation W) (m : Means W) : (Task.code (.method p) s k).step m σ =
      .error (.raised .undefinedParser) (σ.noted ("trying " ++ σ.parserName p)) := by
  simp [Task.step, run_startLogged_none hc hx]

/-- A parser starts the definition that it goes by. -/
theorem step_run (hc : σ.parsers[p.index]? = some c) {x : Code W} (hx : c.inForce = some x)
    (s : State Value) (k : Continuation W) : ∃ σ', σ.Noted σ' ∧
      ∀ m, (Task.run p s k).step m σ = .ok (.tail (.code x s k)) σ' := by
  unfold Cell.inForce at hx
  cases direct : c.direct with
  | some y =>
    rw [direct, Option.some_or] at hx
    cases hx
    exact ⟨σ, .refl σ, fun m => by simp [Task.step, hc, direct]⟩
  | none =>
    rw [direct, Option.none_or] at hx
    refine ⟨_, .noted ("trying " ++ σ.parserName p) σ, fun m => ?_⟩
    simp [Task.step, hc, direct, run_startLogged hc hx]

/-- A parser without definition raises a fault. -/
theorem step_run_none (hc : σ.parsers[p.index]? = some c) (hx : c.inForce = none)
    (s : State Value) (k : Continuation W) : ∃ σ', σ.Noted σ' ∧
      ∀ m, (Task.run p s k).step m σ = .error (.raised .undefinedParser) σ' := by
  obtain ⟨direct, logged⟩ := Option.or_eq_none_iff.mp hx
  refine ⟨_, .noted ("trying " ++ σ.parserName p) σ, fun m => ?_⟩
  simp [Task.step, hc, direct, run_startLogged_none hc logged]

end

/-- The run function does what the body says, perhaps after attempts have been logged. -/
inductive Code.Leads (cells : Array (Cell W)) (b : Body W) : Code W → Prop where
  /-- It is the body. -/
  | body : Leads cells b (.body b)
  /-- It is a logging method, and the definition behind it does so. -/
  | method {p : ParserId} {c : Cell W} {code : Code W} :
      cells[p.index]? = some c → c.logged = some code → Leads cells b code →
      Leads cells b (.method p)

/-- The parser does what the body says. -/
def ParserId.Does (σ : Store W) (p : ParserId) (b : Body W) : Prop :=
  ∃ c, σ.parsers[p.index]? = some c ∧ (c.code p).Leads σ.parsers b

section

variable {p : ParserId} {b : Body W} {code : Code W} {s : State Value} {r : Reply Value}
  {σ σ₁ τ : Store W} {m : Means W} {n : Nat} {t : Task W}

theorem Code.Leads.kept (h : code.Leads σ.parsers b) (k : σ.Continues τ) :
    code.Leads τ.parsers b := by
  induction h with
  | body => exact .body
  | method hc hl _ ih =>
    obtain ⟨d, hd, -, hl'⟩ := k _ _ hc
    exact .method hd (hl'.trans hl) ih

theorem ParserId.Does.kept (h : p.Does σ b) (k : σ.Continues τ) : p.Does τ b := by
  obtain ⟨c, hc, h⟩ := h
  obtain ⟨d, hd, hdirect, -⟩ := k _ c hc
  refine ⟨d, hd, ?_⟩
  rw [show d.code p = c.code p by rw [Cell.code, Cell.code, hdirect]]
  exact h.kept k

theorem ParserId.Does.later (h : p.Does σ b) (g : σ.Grows τ) : p.Does τ b := h.kept g.parsers

/-! ### Replies of what they do -/

theorem found_eq {c : Cell W} (h : σ.parsers[p.index]? = some c) (m : Means W) :
    p.found m σ = .ok c σ := by
  simp [ParserId.found, h]

theorem Code.Leads.evaluates (h : code.Leads σ.parsers b) (s : State Value) : ∃ σ₁, σ.Noted σ₁ ∧
    ∀ {m r τ}, (b.direct s).Ends m σ₁ [] (.reply r) τ →
      Evaluates m (.code code s) σ [] (.reply r) τ := by
  generalize hcells : σ.parsers = cells at h
  induction h generalizing σ with
  | body => exact ⟨σ, .refl σ, id⟩
  | @method q c code hc hl _ ih =>
    have noted := Store.Noted.noted ("trying " ++ σ.parserName q) σ
    have same := noted.parsers.trans hcells
    obtain ⟨σ₁, noted', ends⟩ := ih same
    refine ⟨σ₁, noted.trans noted', fun {m r τ} h => ?_⟩
    refine .act (Eval.run_debug _ m σ) (.act (found_eq (same ▸ hc) m) ?_)
    rw [Direct.done_bind, hl]
    exact .call (ends h) .done

/-- A parser replies as what it does. -/
theorem ParserId.Does.evaluates (h : p.Does σ b) (s : State Value) : ∃ σ₁, σ.Noted σ₁ ∧
    ∀ {m r τ}, (b.direct s).Ends m σ₁ [] (.reply r) τ →
      Evaluates m (.parser p s) σ [] (.reply r) τ := by
  obtain ⟨c, hc, h⟩ := h
  obtain ⟨σ₁, noted, ends⟩ := h.evaluates s
  refine ⟨σ₁, noted, fun {m r τ} e => ?_⟩
  refine .act (found_eq hc m) ?_
  rw [Cell.code] at ends
  rw [Direct.done_bind]
  cases hd : c.direct with
  | some code =>
    rw [hd] at ends
    exact .call (ends e) .done
  | none =>
    rw [hd] at ends
    exact ends e

/-! ### Steps of what they do -/

/-- A run that hands a reply over in its first step has come to that reply. -/
theorem Passes.delivered {x : Eval W (Step (Task W) (Finish W))}
    (h : Passes m [] n x σ [] (.reply r) τ) (r' : Reply Value) (υ : Store W)
    (e : x m σ = .ok (.tail (.deliver r' [])) υ) : r = r' ∧ τ = υ := by
  cases h with
  | hands e' =>
    cases e.symm.trans e'
    exact ⟨rfl, rfl⟩
  | tail e' above _ =>
    cases e.symm.trans e'
    exact absurd above (Task.Above.not_deliver r')

/-- A run that hands no reply over in its first step goes on. -/
theorem Passes.onward {x : Eval W (Step (Task W) (Finish W))}
    (h : Passes m [] n x σ [] (.reply r) τ) (e : x m σ = .ok (.tail t) σ₁)
    (ht : ∀ r, t ≠ .deliver r []) : ∃ n' < n, Passes m [] n' t.step σ₁ [] (.reply r) τ := by
  cases h with
  | hands e' =>
    cases e.symm.trans e'
    exact absurd rfl (ht r)
  | @tail _ _ n' _ _ _ _ _ e' _ h =>
    cases e.symm.trans e'
    exact ⟨n', Nat.lt_succ_self n', h⟩

theorem Code.Leads.passes (h : code.Leads σ.parsers b)
    (hp : Passes m [] n (Task.code code s []).step σ [] (.reply r) τ) :
    ∃ n' ≤ n, ∃ σ₁, σ.Noted σ₁ ∧ Passes m [] n' (Task.next (b.enter s [])) σ₁ [] (.reply r) τ := by
  generalize hcells : σ.parsers = cells at h
  induction h generalizing σ n with
  | body => exact ⟨n, Nat.le_refl n, σ, .refl σ, hp⟩
  | @method q c code hc hl _ ih =>
    have noted := Store.Noted.noted ("trying " ++ σ.parserName q) σ
    have same := noted.parsers.trans hcells
    obtain ⟨n₁, h₁, hp⟩ := hp.onward (step_method (hcells ▸ hc) hl s [] m) (by simp)
    obtain ⟨n₂, h₂, σ₁, noted', hp⟩ := ih hp same
    exact ⟨n₂, by omega, σ₁, noted.trans noted', hp⟩

/-- The steps of a parser lead to what it does. -/
theorem ParserId.Does.passes (h : p.Does σ b)
    (hp : Passes m [] n (Task.run p s []).step σ [] (.reply r) τ) :
    ∃ n' ≤ n, ∃ σ₁, σ.Noted σ₁ ∧ Passes m [] n' (Task.next (b.enter s [])) σ₁ [] (.reply r) τ := by
  obtain ⟨c, hc, h⟩ := h
  rw [Cell.code] at h
  cases hd : c.direct with
  | some code =>
    rw [hd] at h
    have first : (Task.run p s []).step m σ = .ok (.tail (.code code s [])) σ := by
      simp [Task.step, hc, hd]
    obtain ⟨n₁, h₁, hp⟩ := hp.onward first (by simp)
    obtain ⟨n₂, h₂, rest⟩ := h.passes hp
    exact ⟨n₂, by omega, rest⟩
  | none =>
    rw [hd] at h
    -- The run of a parser without a run function of its own is the run of its logging method.
    refine h.passes (passes_congr ?_ hp)
    simp [Task.step, hc, hd]

/-! ### New parsers -/

/-- The parser is defined by the body, and by nothing else. -/
def ParserId.Owns (σ : Store W) (p : ParserId) (b : Body W) : Prop :=
  ∃ c, σ.parsers[p.index]? = some c ∧
    ((σ.logging = false ∧ c.direct = some (.body b)) ∨
      (σ.logging = true ∧ c.direct = none ∧ c.logged = some (.body b)))

theorem ParserId.Owns.later (h : p.Owns σ b) (g : σ.Grows τ) : p.Owns τ b := by
  obtain ⟨c, hc, h⟩ := h
  obtain ⟨d, hd, hdirect, hlogged⟩ := g.parsers _ c hc
  exact ⟨d, hd, by rwa [g.logging, hdirect, hlogged]⟩

theorem ParserId.Owns.leads (h : p.Owns σ b) {c : Cell W} (hc : σ.parsers[p.index]? = some c) :
    (c.code p).Leads σ.parsers b := by
  obtain ⟨d, hd, h⟩ := h
  cases hc.symm.trans hd
  rcases h with ⟨-, h⟩ | ⟨-, h, h'⟩
  · rw [Cell.code, h]
    exact .body
  · rw [Cell.code, h]
    exact .method hc h' .body

theorem ParserId.Owns.does (h : p.Owns σ b) : p.Does σ b := by
  obtain ⟨c, hc, -⟩ := id h
  exact ⟨c, hc, h.leads hc⟩

/-- A new parser is defined by its body. -/
theorem owns_body (name : String) (f : ParserId → Body W) (σ : Store W) :
    (Build.body name f σ).1.Owns (Build.body name f σ).2 (f (Build.body name f σ).1) := by
  refine ⟨_, Array.getElem?_push_size, ?_⟩
  change σ.logging = false ∧ _ ∨ σ.logging = true ∧ _
  cases σ.logging with
  | false => exact .inl ⟨rfl, rfl⟩
  | true => exact .inr ⟨rfl, rfl, rfl⟩

end

end ResumableParsing
