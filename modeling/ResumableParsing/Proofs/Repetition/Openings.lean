import ResumableParsing.Proofs.Direct.Combinators
import ResumableParsing.Proofs.Termination.Lists
import ResumableParsing.Proofs.Repetition.Unfolding

/-!
# One result at a time

A run of the lazy repetition is one run of the repeated parser, and hardly more: the library notes
what it tries, and makes a cell for the result. This is so whatever the run comes to, be it a reply,
a fault, or a request for a chunk.

* `Finish.onto`, `comes_over`: a parse with frames behind it, and the frames
* `ParserId.Does.comes`: a run of a parser is a run of what it does
* `Store.Inward`: nothing has happened outside of the library
* `ParserId.Opening`: what the repetition comes to, given what the parser comes to
* `ParserId.Repetition.comes_parseState`: so it comes to just that
-/

namespace ResumableParsing

variable {W : Type}

/-! ## Parses with frames behind them -/

/-- What becomes of the end of a parse when there are frames behind it: they get the reply. -/
def Finish.onto (K : Continuation W) : Finish W → Eval W (Finish W)
  | .reply r => (Task.deliver r K).complete
  | .request q => return .request (q.over K)

section

variable {σ τ : Store W} {t t' : Task W} {y : EStateM.Result Stop (Store W) (Finish W)}

/-- The rest of a parse, after one step. -/
theorem complete_tail (h : t.step.Comes σ (.ok (.tail t') τ)) :
    t.complete.Comes σ y ↔ t'.complete.Comes τ y := by
  rw [comes_complete, comes_complete]
  constructor
  · rintro ⟨n, reaches⟩
    cases reaches with
    | value e => cases h.unique e
    | error e => cases h.unique e
    | tail e rest =>
      cases h.unique e
      exact ⟨_, rest⟩
  · rintro ⟨n, reaches⟩
    exact ⟨n + 1, .tail h reaches⟩

theorem complete_error {e : Stop} (h : t.step.Comes σ (.error e τ)) :
    t.complete.Comes σ (.error e τ) := comes_complete.mpr ⟨0, .error h⟩

theorem complete_deliver (r : Reply Value) (σ : Store W) :
    (Task.deliver r [] : Task W).complete.Comes σ (.ok (.reply r) σ) :=
  comes_complete.mpr ⟨0, .value (comes_pure _ σ)⟩

/-- What a step with frames behind it comes to, the step has come to. -/
theorem of_overStep {K : Continuation W} (first : ∀ r, t ≠ .deliver r [])
    {x : EStateM.Result Stop (Store W) (Step (Task W) (Finish W))}
    (h : (t.over K).step.Comes σ x) :
    (∃ s τ, t.step.Comes σ (.ok s τ) ∧ x = .ok (Task.overStep K s) τ) ∨
      ∃ e τ, t.step.Comes σ (.error e τ) ∧ x = .error e τ := by
  rw [step_over t K first, map_eq_pure_bind] at h
  rcases h.of_bind (composed_step t) with ⟨s, τ, step, goes⟩ | ⟨e, τ, step, rfl⟩
  · exact .inl ⟨s, τ, step, goes.unique (comes_pure _ τ)⟩
  · exact .inr ⟨e, τ, step, rfl⟩

theorem comes_overStep {K : Continuation W} (first : ∀ r, t ≠ .deliver r [])
    {s : Step (Task W) (Finish W)} (h : t.step.Comes σ (.ok s τ)) :
    (t.over K).step.Comes σ (.ok (Task.overStep K s) τ) := by
  rw [step_over t K first, map_eq_pure_bind]
  exact comes_bind_ok h (comes_pure _ τ)

/-- A task that hands its reply over takes no other step. -/
theorem ne_deliver_of_step {x : EStateM.Result Stop (Store W) (Step (Task W) (Finish W))}
    (h : t.step.Comes σ x) (hx : ∀ r, x ≠ .ok (.value (.reply r)) σ) (r : Reply Value) :
    t ≠ .deliver r [] := by
  rintro rfl
  exact hx r (h.unique (comes_pure _ σ))

/-- A parse that breaks off does so with any frames behind it. -/
theorem Task.Reaches.over_error {n : Nat} {e : Stop} (h : t.Reaches n σ (.error e τ))
    (K : Continuation W) : (t.over K).complete.Comes σ (.error e τ) := by
  generalize hy : (.error e τ : EStateM.Result Stop (Store W) (Finish W)) = y at h
  induction h with
  | value => cases hy
  | @error t e' σ τ h =>
    cases hy
    apply complete_error
    rw [step_over t K (ne_deliver_of_step h (by simp)), map_eq_pure_bind]
    exact comes_bind_error h
  | tail h _ ih =>
    exact (complete_tail (comes_overStep (ne_deliver_of_step h (by simp)) h)).mpr (ih hy)

/-- A parse that comes to an end goes on with the frames behind it. -/
theorem Task.Reaches.over_ok {n : Nat} {f : Finish W} (h : t.Reaches n σ (.ok f τ))
    (K : Continuation W) : (t.over K).complete.Comes σ y ↔ (f.onto K).Comes τ y := by
  generalize hz : (.ok f τ : EStateM.Result Stop (Store W) (Finish W)) = z at h
  induction h with
  | error => cases hz
  | tail h _ ih => rw [complete_tail (comes_overStep (ne_deliver_of_step h (by simp)) h), ih hz]
  | @value t f' σ τ' e =>
    cases hz
    rcases f with r | q
    · -- Only a task with no frame left hands its reply over.
      have last : ∃ r, t = .deliver r [] := by
        apply Classical.byContradiction
        intro first
        obtain ⟨-, n, run⟩ := e
        exact unfinished_step (fun r h => first ⟨r, h⟩) _ _ r τ (run n (Nat.le_refl n))
      obtain ⟨r', rfl⟩ := last
      cases e.unique (comes_pure _ σ)
      exact .rfl
    · have goes := comes_overStep (K := K) (ne_deliver_of_step e (by simp)) e
      have ends : (t.over K).complete.Comes σ (.ok (.request (q.over K)) τ) :=
        comes_complete.mpr ⟨0, .value goes⟩
      constructor
      · rintro run
        cases run.unique ends
        exact comes_pure _ τ
      · intro run
        cases run.unique (comes_pure _ τ)
        exact ends

/-- A parse with frames behind it comes to something only if the parse does. -/
theorem exists_of_over {n : Nat} {K : Continuation W} (h : (t.over K).Reaches n σ y) :
    ∃ m z, t.Reaches m σ z := by
  induction n using Nat.strongRecOn generalizing t σ with
  | ind n ih =>
    by_cases last : ∃ r, t = .deliver r []
    · obtain ⟨r, rfl⟩ := last
      exact ⟨0, _, .value (comes_pure _ σ)⟩
    · have first : ∀ r, t ≠ .deliver r [] := fun r h => last ⟨r, h⟩
      cases h with
      | value h =>
        obtain ⟨s, τ, h, hs⟩ | ⟨e, τ, -, ⟨⟩⟩ := of_overStep first h
        cases s with
        | tail t' => cases hs
        | value f => exact ⟨0, _, .value h⟩
      | error h =>
        obtain ⟨s, τ, -, ⟨⟩⟩ | ⟨e, τ, h, -⟩ := of_overStep first h
        exact ⟨0, _, .error h⟩
      | tail h rest =>
        obtain ⟨s, τ, h, hs⟩ | ⟨e, τ, -, ⟨⟩⟩ := of_overStep first h
        cases s with
        | tail t' =>
          cases hs
          obtain ⟨m, z, reaches⟩ := ih _ (Nat.lt_succ_self _) rest
          exact ⟨m + 1, z, .tail h reaches⟩
        | value f => exact ⟨0, _, .value h⟩

/-- A parse with frames behind it is the parse, and then the frames. -/
theorem comes_over {K : Continuation W} :
    (t.over K).complete.Comes σ y ↔ (t.complete >>= Finish.onto K).Comes σ y := by
  constructor
  · intro h
    obtain ⟨n, reaches⟩ := comes_complete.mp h
    obtain ⟨m, z, reaches⟩ := exists_of_over reaches
    have run : t.complete.Comes σ z := comes_complete.mpr ⟨m, reaches⟩
    cases z with
    | ok f τ => exact comes_bind_ok run ((reaches.over_ok K).mp h)
    | error e τ =>
      cases h.unique (reaches.over_error K)
      exact comes_bind_error run
  · intro h
    rcases h.of_bind (composed_complete t) with ⟨f, τ, run, onto⟩ | ⟨e, τ, run, rfl⟩
    · obtain ⟨n, reaches⟩ := comes_complete.mp run
      exact (reaches.over_ok K).mpr onto
    · obtain ⟨n, reaches⟩ := comes_complete.mp run
      exact reaches.over_error K

/-! ## Runs of parsers -/

theorem comes_method {p : ParserId} {c : Cell W} {code : Code W} (s : State Value)
    (k : Continuation W) (hc : σ.parsers[p.index]? = some c) (hl : c.logged = some code) :
    (Task.code (.method p) s k).step.Comes σ
      (.ok (.tail (.code code s k)) (σ.noted ("trying " ++ σ.parserName p))) :=
  comes_of_forall (fun _ => step_method hc hl s k _) not_exhausted_ok

/-- A run function does what it leads to. -/
theorem Code.Leads.complete {code : Code W} {b : Body W} (h : code.Leads σ.parsers b)
    (s : State Value) (k : Continuation W) : ∃ σ₁, σ.Noted σ₁ ∧ ∀ y,
      (Task.code code s k).complete.Comes σ y ↔ (Task.code (.body b) s k).complete.Comes σ₁ y := by
  generalize hcells : σ.parsers = cells at h
  induction h generalizing σ with
  | body => exact ⟨σ, .refl σ, fun y => .rfl⟩
  | @method q c code hc hl _ ih =>
    have noted := Store.Noted.noted ("trying " ++ σ.parserName q) σ
    obtain ⟨σ₁, noted', same⟩ := ih (noted.parsers.trans hcells)
    refine ⟨σ₁, noted.trans noted', fun y => ?_⟩
    rw [complete_tail (comes_method s k (hcells ▸ hc) hl), same]

/-- A run of a parser is a run of what it does. -/
theorem ParserId.Does.complete {p : ParserId} {b : Body W} (h : p.Does σ b) (s : State Value)
    (k : Continuation W) : ∃ σ₁, σ.Noted σ₁ ∧ ∀ y,
      (Task.run p s k).complete.Comes σ y ↔ (Task.code (.body b) s k).complete.Comes σ₁ y := by
  obtain ⟨c, hc, h⟩ := h
  obtain ⟨σ₁, noted, same⟩ := h.complete s k
  refine ⟨σ₁, noted, fun y => ?_⟩
  rw [← same]
  have found : (get >>= fun σ : Store W => Eval.deref σ.parsers[p.index]?).Comes σ (.ok c σ) :=
    comes_found hc
  rw [Cell.code] at h same ⊢
  cases hd : c.direct with
  | some code =>
    apply complete_tail
    rw [Task.step, ← bind_assoc]
    refine comes_bind_ok found ?_
    simp only [hd]
    exact comes_pure _ σ
  | none =>
    rw [hd] at h
    cases h with
    | method hc' hl _ =>
      -- A parser without a run function of its own is run by its logging method.
      refine Iff.trans (complete_tail ?_) (complete_tail (comes_method s k hc' hl)).symm
      rw [Task.step, ← bind_assoc]
      refine comes_bind_ok found ?_
      simp only [hd]
      exact comes_bind_ok (comes_of_forall (fun _ => run_startLogged hc' hl s k _) not_exhausted_ok)
        (comes_pure _ _)

end

/-! ## What the repetition comes to -/

/-- Nothing has happened outside of the library: messages have been logged, serial numbers drawn,
and parsers and tails made or marked. -/
def Store.Inward (σ τ : Store W) : Prop :=
  ∃ log n tails parsers,
    τ = { σ with log := log, nextSerial := n, tails := tails, parsers := parsers }

namespace Store.Inward

variable {σ τ υ : Store W}

theorem trans (h : σ.Inward τ) (h' : τ.Inward υ) : σ.Inward υ := by
  obtain ⟨log, n, tails, parsers, rfl⟩ := h
  obtain ⟨log', n', tails', parsers', rfl⟩ := h'
  exact ⟨log', n', tails', parsers', rfl⟩

theorem put (i : Nat) (slot : Slot (Option (Stream Value))) (σ : Store W) :
    σ.Inward (Shelf.tails.put i slot σ) :=
  ⟨σ.log, σ.nextSerial, Memo.putSlot σ.tails i slot, σ.parsers, rfl⟩

end Store.Inward

theorem Store.Noted.inward {σ τ : Store W} (h : σ.Noted τ) : σ.Inward τ := by
  obtain ⟨log, rfl⟩ := h
  exact ⟨log, σ.nextSerial, σ.tails, σ.parsers, rfl⟩

/-- What the lazy repetition `all` comes to, given what the repeated parser comes to. After a
success it is a cell with the result, whose tail runs the repetition from there. -/
inductive ParserId.Opening (all : ParserId) : EStateM.Result Stop (Store W) (Finish W) →
    EStateM.Result Stop (Store W) (Except (Request W) Value) → Prop where
  /-- A result. -/
  | cell {d : Bool} {v : Value} {t : State Value} {n : Nat} {i : TailId} {σ τ : Store W} :
      σ.Inward τ → i.Is τ (.parse all t) .unset →
      Opening all (.ok (.reply (.ok d v t)) σ) (.ok (.ok (.stream (.lazy n v i))) τ)
  /-- The end. -/
  | ended {e : ParseError Value} {t : State Value} {σ τ : Store W} : σ.Inward τ →
      Opening all (.ok (.reply (.err false e t)) σ) (.ok (.ok (.stream .nil)) τ)
  /-- A failure after consuming. -/
  | failed {e : ParseError Value} {t : State Value} {σ : Store W} :
      Opening all (.ok (.reply (.err true e t)) σ) (.error (.raised (.noParse e)) σ)
  /-- A request for a chunk. -/
  | waits {q q' : Request W} {σ : Store W} :
      Opening all (.ok (.request q) σ) (.ok (.error q') σ)
  /-- A fault. -/
  | stop {e : Stop} {σ : Store W} : Opening all (.error e σ) (.error e σ)

section

variable {σ τ υ : Store W} {p all : ParserId} {s t : State Value} {d : Bool} {v : Value}
  {k : Continuation W} {y : EStateM.Result Stop (Store W) (Finish W)}

/-- A cell for a result is made by a parser of its own. -/
theorem complete_cell (v : Value) (all : ParserId) (t : State Value) (k : Continuation W)
    (σ : Store W) : ∃ n i τ, σ.Inward τ ∧ i.Is τ (.parse all t) .unset ∧ ∀ y,
      (Task.run (Build.body "" (fun _ => .cell v all) σ).1 t k).complete.Comes
        (Build.body "" (fun _ => .cell v all) σ).2 y ↔
      (Task.deliver (.ok false (.stream (.lazy n v i)) t) k).complete.Comes τ y := by
  let σ₁ := (Build.body "" (fun _ => .cell v all) σ).2
  obtain ⟨σ₂, noted, same⟩ := (owns_body "" (fun _ => .cell v all) σ).does.complete t k
  have built : σ.Inward σ₁ := ⟨_, _, _, _, rfl⟩
  obtain ⟨n, i, τ, made, unset, -, filed⟩ := comes_lazyCell v (.parse all t) σ₂
  have inward : σ₂.Inward τ := by
    obtain ⟨log, n, tails, -, -, rfl⟩ := filed
    exact ⟨log, n, tails, _, rfl⟩
  refine ⟨n, i, τ, (built.trans noted.inward).trans inward, unset, fun y => ?_⟩
  rw [same]
  apply complete_tail
  exact comes_bind_ok (comes_bind_ok made (comes_pure _ τ)) (comes_pure _ τ)

/-- Behind a result the binding makes a cell. -/
theorem complete_bind (d : Bool) (v : Value) (all : ParserId) (t : State Value)
    (k : Continuation W) (σ : Store W) : ∃ n i τ, σ.Inward τ ∧ i.Is τ (.parse all t) .unset ∧ ∀ y,
      (Task.deliver (.ok d v t) (.bind (fun v => .done (.cell v all)) :: k)).complete.Comes σ y ↔
      (Task.deliver (.ok d (.stream (.lazy n v i)) t) k).complete.Comes τ y := by
  let q : ParserId := (Build.body "" (fun _ => .cell v all) σ).1
  let σ₁ := (Build.body "" (fun _ => .cell v all) σ).2
  have built : (Eval.ofBuild (Build.body "" fun _ => .cell v all)).Comes σ (.ok q σ₁) :=
    comes_of_forall (fun _ => rfl) not_exhausted_ok
  cases d with
  | false =>
    obtain ⟨n, i, τ, inward, unset, same⟩ := complete_cell v all t k σ
    refine ⟨n, i, τ, inward, unset, fun y => ?_⟩
    rw [← same]
    apply complete_tail
    exact comes_bind_ok (comes_pure _ σ) (comes_bind_ok built (comes_pure _ σ₁))
  | true =>
    obtain ⟨n, i, τ, inward, unset, same⟩ := complete_cell v all t (.consume :: k) σ
    refine ⟨n, i, τ, inward, unset, fun y => ?_⟩
    have consumed : (Task.deliver (.ok false (.stream (.lazy n v i)) t) (.consume :: k) :
        Task W).step.Comes τ (.ok (.tail (.deliver (.ok true (.stream (.lazy n v i)) t) k)) τ) :=
      comes_pure _ τ
    rw [← complete_tail consumed, ← same]
    apply complete_tail
    exact comes_bind_ok (comes_pure _ σ) (comes_bind_ok built (comes_pure _ σ₁))

/-- A run of the repetition is a run of the repeated parser, and then its frames. -/
theorem ParserId.Repetition.comes_run (h : p.Repetition σ all) (s : State Value) :
    ∃ stop υ, stop.Does υ (.pure (.stream .nil)) ∧ σ.Noted υ ∧
      ∀ y, (all.run s).Comes σ y ↔
        (p.run s >>= Finish.onto [.bind fun v => .done (.cell v all), .altFirst stop s]).Comes
          υ y := by
  obtain ⟨cells, stop, hall, hcells, hstop⟩ := h
  obtain ⟨σ₁, noted, alt⟩ := hall.complete s []
  obtain ⟨σ₂, noted', bind⟩ := (hcells.later noted.grows).complete s [.altFirst stop s]
  have noted := noted.trans noted'
  refine ⟨stop, σ₂, hstop.later noted.grows, noted, fun y => ?_⟩
  have alternatives : (Task.code (.body (.alt cells stop)) s [] : Task W).step.Comes σ₁
      (.ok (.tail (.run cells s [.altFirst stop s])) σ₁) :=
    comes_bind_ok (comes_pure _ σ₁) (comes_pure _ σ₁)
  have binding : (Task.code (.body (.bind p fun v => .done (.cell v all))) s
      [.altFirst stop s] : Task W).step.Comes σ₂ (.ok (.tail ((Task.run p s []).over
        [.bind fun v => .done (.cell v all), .altFirst stop s])) σ₂) :=
    comes_bind_ok (comes_pure _ σ₂) (comes_pure _ σ₂)
  rw [ParserId.run, alt, complete_tail alternatives, bind, complete_tail binding, comes_over]
  rfl

/-- What the frames make of a reply is what the repetition opens with. -/
theorem opening_onto (all : ParserId) {stop : ParserId} (hstop : stop.Does υ (.pure (.stream .nil)))
    (z : EStateM.Result Stop (Store W) (Finish W)) (h : (p.run s).Comes υ z) :
    ∃ y, ((p.run s >>= Finish.onto [.bind fun v => .done (.cell v all), .altFirst stop s]) >>=
      Finish.value).Comes υ y ∧ all.Opening z y := by
  rcases z with ⟨(⟨d, v, t⟩ | ⟨_ | _, e, t⟩) | q, τ⟩ | ⟨e, τ⟩
  · obtain ⟨n, i, τ', inward, unset, same⟩ := complete_bind d v all t [.altFirst stop s] τ
    have first : (Task.deliver (.ok d (.stream (.lazy n v i)) t) [.altFirst stop s] :
        Task W).step.Comes τ' (.ok (.tail (.deliver (.ok d (.stream (.lazy n v i)) t) [])) τ') :=
      comes_pure _ τ'
    have onto := (same _).mpr ((complete_tail first).mpr (complete_deliver _ τ'))
    exact ⟨_, comes_bind_ok (comes_bind_ok h onto) (comes_pure _ τ'), .cell inward unset⟩
  · have again : (Task.deliver (.err false e t) [.bind fun v => .done (.cell v all),
        .altFirst stop s] : Task W).step.Comes τ
          (.ok (.tail (.deliver (.err false e t) [.altFirst stop s])) τ) := comes_pure _ τ
    have other : (Task.deliver (.err false e t) [.altFirst stop s] : Task W).step.Comes τ
        (.ok (.tail (.run stop s [.altSecond e])) τ) := comes_pure _ τ
    have grown := (composed_complete _).grows_of_comes h
    obtain ⟨τ', noted, stops⟩ := (hstop.later grown).complete s [.altSecond e]
    have enters : (Task.code (.body (.pure (.stream .nil))) s [.altSecond e] : Task W).step.Comes τ'
        (.ok (.tail (.deliver (.ok false (.stream .nil) s) [.altSecond e])) τ') :=
      comes_bind_ok (comes_pure _ τ') (comes_pure _ τ')
    have last : (Task.deliver (.ok false (.stream .nil) s) [.altSecond e] : Task W).step.Comes τ'
        (.ok (.tail (.deliver (.ok false (.stream .nil) s) [])) τ') := comes_pure _ τ'
    have onto : (Finish.onto [.bind fun v => .done (.cell v all), .altFirst stop s]
        (.reply (.err false e t)) : Eval W _).Comes τ _ :=
      (complete_tail again).mpr ((complete_tail other).mpr ((stops _).mpr
        ((complete_tail enters).mpr ((complete_tail last).mpr (complete_deliver _ τ')))))
    exact ⟨_, comes_bind_ok (comes_bind_ok h onto) (comes_pure _ τ'), .ended noted.inward⟩
  · have again : (Task.deliver (.err true e t) [.bind fun v => .done (.cell v all),
        .altFirst stop s] : Task W).step.Comes τ
          (.ok (.tail (.deliver (.err true e t) [.altFirst stop s])) τ) := comes_pure _ τ
    have last : (Task.deliver (.err true e t) [.altFirst stop s] : Task W).step.Comes τ
        (.ok (.tail (.deliver (.err true e t) [])) τ) := comes_pure _ τ
    have onto : (Finish.onto [.bind fun v => .done (.cell v all), .altFirst stop s]
        (.reply (.err true e t)) : Eval W _).Comes τ _ :=
      (complete_tail again).mpr ((complete_tail last).mpr (complete_deliver _ τ))
    exact ⟨_, comes_bind_ok (comes_bind_ok h onto) (comes_fault _ τ), .failed⟩
  · exact ⟨_, comes_bind_ok (comes_bind_ok h (comes_pure _ τ)) (comes_pure _ τ), .waits⟩
  · exact ⟨_, comes_bind_error (comes_bind_error h), .stop⟩

/-- A run of the lazy repetition is one run of the repeated parser, after its own attempts have been
logged. It comes to something if the parser does, and to what is said in `ParserId.Opening`. -/
theorem ParserId.Repetition.comes_parseState (h : p.Repetition σ all) (s : State Value) :
    ∃ υ, σ.Noted υ ∧
      (∀ z, (p.run s).Comes υ z → ∃ y, (all.parseState s).Comes σ y ∧ all.Opening z y) ∧
      ∀ y, (all.parseState s).Comes σ y → ∃ z, (p.run s).Comes υ z ∧ all.Opening z y := by
  obtain ⟨stop, υ, hstop, noted, same⟩ := h.comes_run s
  have onward {z : EStateM.Result Stop (Store W) (Finish W)} (hz : (p.run s).Comes υ z) :
      ∃ y, (all.parseState s).Comes σ y ∧ all.Opening z y := by
    obtain ⟨y, run, opening⟩ := opening_onto all hstop z hz
    refine ⟨y, run.bind_congr ?_ fun w hw => (same w).mpr hw, opening⟩
    refine .bind (composed_complete _) fun f => ?_
    cases f with
    | reply r => exact composed_complete _
    | request q => exact .pure _
  refine ⟨υ, noted, fun z hz => onward hz, fun y hy => ?_⟩
  obtain ⟨z, hz⟩ : ∃ z, (p.run s).Comes υ z := by
    obtain ⟨w, run⟩ : ∃ w, (all.run s).Comes σ w := hy.first_of_bind (composed_complete _)
    exact ((same w).mp run).first_of_bind (composed_complete _)
  obtain ⟨y', hy', opening⟩ := onward hz
  cases hy.unique hy'
  exact ⟨z, hz, opening⟩

end

end ResumableParsing
