import ResumableParsing.Proofs.Deferred.Parts

/-!
# Traces of computations

A computation that ends has asked deferred parts for their values, some of them while it computed
others. A trace lists in order what has become of these requests, at every depth.

* `Incident`: what can become of a request for a deferred part
* `Eval.Traced`: a computation, its trace and its outcome
* `Regular.traced`: every computation that ends has a trace
* `comes_force_iff`: a part of which nothing is known comes to what its function comes to
* `Eval.Traced.comes`: what has a trace is what the computation comes to
-/

namespace ResumableParsing

variable {W α β : Type}

/-! ## Incidents -/

/-- What becomes of a request for a deferred part. -/
inductive Incident where
  /-- The value is known, and is given. -/
  | kept (d : Deferred) (a : d.Content)
  /-- The part is being computed, and refuses. -/
  | reentered (d : Deferred)
  /-- The function of the part is called. -/
  | called (d : Deferred)
  /-- The function of the part returns normally. -/
  | returned (d : Deferred) (a : d.Content)
  /-- The function of the part breaks off. -/
  | failed (d : Deferred) (e : Stop)

namespace Incident

/-- The part that the incident is about. -/
def part : Incident → Deferred
  | kept d _ => d
  | reentered d => d
  | called d => d
  | returned d _ => d
  | failed d _ => d

/-- The incident begins a request; the other ones end a call. -/
def IsRequest : Incident → Prop
  | kept .. => True
  | reentered _ => True
  | called _ => True
  | returned .. => False
  | failed .. => False

end Incident

/-- How the call of a function ends. -/
def Deferred.ending (d : Deferred) : EStateM.Result Stop (Store W) d.Content → Incident
  | .ok a _ => .returned d a
  | .error e _ => .failed d e

/-! ## Traces -/

/-- `x.Traced σ es y`: the computation comes to `y` from `σ`, and in between the incidents `es` have
occurred. -/
inductive Eval.Traced : {α : Type} → Eval W α → Store W → List Incident →
    EStateM.Result Stop (Store W) α → Prop where
  /-- A change touches no deferred part. -/
  | change {α : Type} {x : Eval W α} (f : Store W → α × Store W) (σ : Store W) :
      (∀ m σ, x m σ = .ok (f σ).1 (f σ).2) → (∀ σ : Store W, σ.Widens (f σ).2) →
      Traced x σ [] (.ok (f σ).1 (f σ).2)
  /-- A computation breaks off. -/
  | stop {α : Type} (e : Stop) (σ : Store W) :
      e ≠ .exhausted → Traced (throw e : Eval W α) σ [] (.error e σ)
  /-- One computation after another. -/
  | bind {α β : Type} {x : Eval W α} {f : α → Eval W β} {σ υ : Store W} {a : α}
      {es es' : List Incident} {y : EStateM.Result Stop (Store W) β} :
      Traced x σ es (.ok a υ) → Traced (f a) υ es' y → Traced (x >>= f) σ (es ++ es') y
  /-- The first computation breaks off. -/
  | broken {α β : Type} {x : Eval W α} {f : α → Eval W β} {σ υ : Store W} {e : Stop}
      {es : List Incident} : Traced x σ es (.error e υ) → Traced (x >>= f) σ es (.error e υ)
  /-- There is no fault to be caught. -/
  | quiet {α : Type} {x : Eval W α} {σ υ : Store W} {a : α} {es : List Incident} :
      Traced x σ es (.ok a υ) → Traced (Eval.catching x) σ es (.ok (.ok a) υ)
  /-- A fault is caught. -/
  | caught {α : Type} {x : Eval W α} {σ υ : Store W} {f : Fault} {es : List Incident} :
      Traced x σ es (.error (.raised f) υ) → Traced (Eval.catching x) σ es (.ok (.error f) υ)
  /-- What leads nowhere is not caught. -/
  | lost {α : Type} {x : Eval W α} {σ υ : Store W} {es : List Incident} :
      Traced x σ es (.error .dangling υ) → Traced (Eval.catching x) σ es (.error .dangling υ)
  /-- Some rounds of a loop. -/
  | loop {α : Type} {f : Nat → Eval W α} (n : Nat) {σ : Store W} {es : List Incident}
      {y : EStateM.Result Stop (Store W) α} : (∀ n, Regular (f n)) →
      (∀ n m σ, Exhausted (f n m σ) ∨ f (n + 1) m σ = f n m σ) →
      Traced (f n) σ es y → Traced (do f (← read).steps) σ es y
  /-- A part whose value is known gives it. -/
  | kept {d : Deferred} {x : Eval W d.Content} {a : d.Content} {σ : Store W} :
      σ.part? d = some ⟨x, .known a⟩ → Traced (Eval.force d) σ [.kept d a] (.ok a σ)
  /-- A part that is being computed refuses. -/
  | reentered {d : Deferred} {x : Eval W d.Content} {σ : Store W} :
      σ.part? d = some ⟨x, .busy⟩ →
      Traced (Eval.force d) σ [.reentered d] (.error (.raised .reentrant) σ)
  /-- The function of a part is called, and ends. -/
  | computed {d : Deferred} {x : Eval W d.Content} {σ : Store W} {es : List Incident}
      {y : EStateM.Result Stop (Store W) d.Content} : σ.part? d = some ⟨x, .unset⟩ →
      Traced x (σ.mark d .busy) es y →
      Traced (Eval.force d) σ (.called d :: (es ++ [d.ending y])) (d.settle y)
  /-- There is no such part. -/
  | missing {d : Deferred} {σ : Store W} : σ.part? d = none → (∀ i, d ≠ .session i) →
      Traced (Eval.force d) σ [] (.error .dangling σ)
  /-- A session is finished. -/
  | session {i : SessionId} {σ : Store W} {es : List Incident}
      {y : EStateM.Result Stop (Store W) Value} :
      Traced i.finish σ es y → Traced (Eval.force (.session i)) σ es y

/-! ## Traces of what has ended -/

section

variable {x : Eval W α} {m : Means W} {σ τ : Store W} {d : Deferred}
  {y : EStateM.Result Stop (Store W) α} {es : List Incident}

theorem exhausted_settle {z : EStateM.Result Stop (Store W) d.Content} (h : Exhausted z) :
    Exhausted (d.settle z) := by
  obtain ⟨υ, rfl⟩ := h
  exact ⟨_, rfl⟩

/-- A computation that has ended has a trace, if the deferred parts that it asked for have. -/
theorem Regular.traced_of (h : Regular x)
    (hm : ∀ d σ, ¬Exhausted (m.force d σ) → ∃ es, (Eval.force d).Traced σ es (m.force d σ))
    (he : ¬Exhausted (x m σ)) : ∃ es, x.Traced σ es (x m σ) := by
  induction h generalizing σ with
  | change f hx hf =>
    rw [hx]
    exact ⟨[], .change f σ hx hf⟩
  | stop e =>
    refine ⟨[], .stop e σ ?_⟩
    intro h
    subst h
    exact he ⟨σ, rfl⟩
  | @bind α β x f _ _ ihx ihf =>
    rw [Eval.run_bind] at he ⊢
    cases run : x m σ with
    | ok a υ =>
      rw [run] at he
      have first : ¬Exhausted (x m σ) := run ▸ not_exhausted_ok
      obtain ⟨es, traced⟩ := ihx first
      obtain ⟨es', traced'⟩ := ihf a he
      rw [run] at traced
      exact ⟨_, .bind traced traced'⟩
    | error e υ =>
      rw [run] at he
      -- If the bound had been too small for the first computation, it would be for both.
      have first : ¬Exhausted (x m σ) := by
        intro lost
        rw [run, exhausted_error] at lost
        subst lost
        exact he ⟨υ, rfl⟩
      obtain ⟨es, traced⟩ := ihx first
      rw [run] at traced
      exact ⟨es, .broken traced⟩
  | force d => exact hm d σ he
  | @catching α x _ ih =>
    unfold Eval.catching at he ⊢
    cases run : x m σ with
    | ok a υ =>
      obtain ⟨es, traced⟩ := ih (run ▸ not_exhausted_ok)
      rw [run] at traced
      exact ⟨es, .quiet traced⟩
    | error e υ =>
      rw [run] at he
      have first : ¬Exhausted (x m σ) := by
        intro lost
        rw [run, exhausted_error] at lost
        subst lost
        exact he ⟨υ, rfl⟩
      obtain ⟨es, traced⟩ := ih first
      rw [run] at traced
      cases e with
      | raised f => exact ⟨es, .caught traced⟩
      | exhausted => exact absurd ⟨υ, rfl⟩ he
      | dangling => exact ⟨es, .lost traced⟩
  | @loop α f hf more ih =>
    obtain ⟨es, traced⟩ := ih m.steps he
    exact ⟨es, .loop m.steps hf more traced⟩

/-- A request for a deferred part that has ended has a trace. The induction is on the depth to which
computations are nested. -/
theorem force_traced (n : Nat) (d : Deferred) (σ : Store W)
    (he : ¬Exhausted (forceWithin n d σ)) :
    ∃ es, (Eval.force d).Traced σ es (forceWithin n d σ) := by
  induction n generalizing d σ with
  | zero => exact absurd ⟨σ, rfl⟩ he
  | succ n ih =>
    cases found : σ.part? d with
    | none =>
      cases d with
      | session i =>
        obtain ⟨es, traced⟩ := (regular_finish i).traced_of ih he
        exact ⟨es, .session traced⟩
      | _ =>
        rw [forceWithin_missing found (by simp)]
        exact ⟨[], .missing found (by simp)⟩
    | some m =>
      obtain ⟨x, slot⟩ := m
      cases slot with
      | known a =>
        rw [forceWithin_known found]
        exact ⟨_, .kept found⟩
      | busy =>
        rw [forceWithin_busy found]
        exact ⟨_, .reentered found⟩
      -- The computation of the part asks for other parts, one level deeper.
      | unset =>
        rw [forceWithin_unset found] at he ⊢
        have ended := fun h => he (exhausted_settle h)
        obtain ⟨es, traced⟩ := (Store.regular_part found).traced_of ih ended
        exact ⟨_, .computed found traced⟩

/-- Every computation of the library that ends has a trace. -/
theorem Regular.traced (h : Regular x) (run : x.Comes σ y) : ∃ es, x.Traced σ es y := by
  obtain ⟨he, n, run⟩ := run
  have run := run n (Nat.le_refl n)
  unfold Eval.exec at run
  subst run
  exact h.traced_of (force_traced n) he

/-! ## What has a trace -/

theorem comes_catching {z : EStateM.Result Stop (Store W) α} (h : x.Comes σ z)
    {y : EStateM.Result Stop (Store W) (Except Fault α)} (he : ¬Exhausted y)
    (hy : ∀ m, x m σ = z → Eval.catching x m σ = y) : (Eval.catching x).Comes σ y := by
  obtain ⟨-, n, run⟩ := h
  exact ⟨he, n, fun n' hn => hy _ (run n' hn)⟩

theorem comes_force {x : Eval W d.Content} {z y : EStateM.Result Stop (Store W) d.Content}
    (h : x.Comes τ z) (he : ¬Exhausted y)
    (hy : ∀ n, x ⟨n, forceWithin n⟩ τ = z → forceWithin (n + 1) d σ = y) :
    (Eval.force d).Comes σ y := by
  obtain ⟨-, n, run⟩ := h
  refine ⟨he, n + 1, fun n' hn => ?_⟩
  obtain ⟨k, rfl⟩ : ∃ k, n' = k + 1 := ⟨n' - 1, by omega⟩
  exact hy k (run k (by omega))

theorem comes_force_now {y : EStateM.Result Stop (Store W) d.Content} (he : ¬Exhausted y)
    (hy : ∀ n, forceWithin (n + 1) d σ = y) : (Eval.force d).Comes σ y := by
  refine ⟨he, 1, fun n hn => ?_⟩
  obtain ⟨k, rfl⟩ : ∃ k, n = k + 1 := ⟨n - 1, by omega⟩
  exact hy k

/-- A part of which nothing is known comes to what its function comes to, and that is noted. -/
theorem comes_force_iff {x : Eval W d.Content} {y : EStateM.Result Stop (Store W) d.Content}
    (found : σ.part? d = some ⟨x, .unset⟩) :
    (Eval.force d).Comes σ y ↔ ∃ z, x.Comes (σ.mark d .busy) z ∧ y = d.settle z := by
  constructor
  · intro ⟨he, n, run⟩
    have answer : forceWithin (n + 1) d σ = y := run (n + 1) (Nat.le_succ n)
    rw [forceWithin_unset found] at answer
    refine ⟨_, (Store.regular_part found).composed.comes (n := n) rfl ?_, answer.symm⟩
    intro exhausted
    exact he (answer ▸ exhausted_settle exhausted)
  · intro ⟨z, run, same⟩
    subst same
    apply comes_force run
    · intro he
      cases z with
      | ok a υ => exact not_exhausted_ok he
      | error e υ => exact run.1 (exhausted_error.mpr (exhausted_error.mp he))
    · intro n run
      rw [forceWithin_unset found, run]

/-- What has a trace is what the computation comes to. -/
theorem Eval.Traced.comes (h : x.Traced σ es y) : x.Comes σ y := by
  induction h with
  | change f σ hx hf => exact comes_change hx σ
  | stop e σ he => exact comes_of_forall (fun _ => rfl) (not_exhausted_error he)
  | bind _ _ ihx ihf => exact comes_bind_ok ihx ihf
  | broken _ ih => exact comes_bind_error ih
  | quiet _ ih =>
    apply comes_catching ih not_exhausted_ok
    intro m run
    simp [Eval.catching, run]
  | caught _ ih =>
    apply comes_catching ih not_exhausted_ok
    intro m run
    simp [Eval.catching, run]
  | lost _ ih =>
    apply comes_catching ih (not_exhausted_error (by simp))
    intro m run
    simp [Eval.catching, run]
  | loop n hf more _ ih => exact comes_loop (fun n => (hf n).composed) more ih
  | kept found => exact comes_force_now not_exhausted_ok fun n => forceWithin_known found
  | reentered found =>
    exact comes_force_now (not_exhausted_error (by simp)) fun n => forceWithin_busy found
  | computed found _ ih => exact (comes_force_iff found).mpr ⟨_, ih, rfl⟩
  | missing found hd =>
    exact comes_force_now (not_exhausted_error (by simp)) fun n => forceWithin_missing found hd
  | session _ ih => exact comes_force ih ih.1 fun n run => run

end

end ResumableParsing
