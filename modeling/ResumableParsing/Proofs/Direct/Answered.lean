import ResumableParsing.Proofs.Direct.Engine
import ResumableParsing.Proofs.Store.Comes

/-!
# Runs whose requests are answered

A parse that waits is gone on with in the chunk that it asked for, until it ends or as often as one
likes. What it comes to is what the semantics in direct style comes to with the same answers.

* `Finish.answer`, `ParserId.runWith`: answering the requests of a parse by chunk numbers
* `evaluates_of_runWith`: the semantics agrees
-/

namespace ResumableParsing

variable {W : Type}

/-- What a parse that has ended, or waits, has come to. -/
def Finish.upshot : Finish W → Upshot
  | .reply r => .reply r
  | .request q => .waits q.chunk

/-- Answers so many requests of a parse with the chunks of their numbers. -/
def Finish.answer (chunks : Int → Stream Value) : (requests : Nat) → Finish W → Eval W (Finish W)
  | 0, f => return f
  | _ + 1, .reply r => return .reply r
  | n + 1, .request q => do Finish.answer chunks n (← q.resume (chunks q.chunk))

/-- A parser, run from a state, with its requests answered. -/
def ParserId.runWith (chunks : Int → Stream Value) (requests : Nat) (p : ParserId)
    (s : State Value) : Eval W (Finish W) := do
  Finish.answer chunks requests (← p.run s)

theorem answer_reply (chunks : Int → Stream Value) (k : Nat) (r : Reply Value) :
    Finish.answer chunks k (.reply r) = (return .reply r : Eval W (Finish W)) := by
  cases k <;> rfl

theorem composed_arrive (q : Request W) (c : Stream Value) : Composed (q.arrive c) :=
  .bind (composed_alterState _ _) fun _ => .bind (composed_inChunk _ _) fun _ => .pure _

theorem above_nil {t : Task W} (h : ∀ r, t ≠ .deliver r []) : t.Above [] :=
  ⟨t, (over_nil t).symm, h⟩

/-- What a computation has come to that ends or waits. -/
def Upshot.of : EStateM.Result Stop (Store W) (Finish W) → Upshot
  | .ok f _ => f.upshot
  | .error e _ => .stop e

/-- A reply that nobody waits for is the end. -/
theorem delivered {m : Means W} {r : Reply Value} {σ : Store W}
    {y : EStateM.Result Stop (Store W) (Finish W)}
    (h : (Task.deliver r []).complete m σ = y) (hy : ¬Exhausted y) : y = .ok (.reply r) σ := by
  obtain ⟨_ | N, force⟩ := m
  · exact absurd ⟨σ, h.symm⟩ hy
  · exact h.symm

/-- A run passes to its end, and from there on as the end says. -/
theorem passes_of_runFor {m : Means W} {N : Nat} {t : Task W} {σ τ : Store W}
    {y : EStateM.Result Stop (Store W) (Finish W)} (cs : Answers) (u : Upshot)
    (ht : ∀ r, t ≠ .deliver r []) (h : t.runFor N m σ = y) (hy : ¬Exhausted y)
    (hr : (∀ q υ, y ≠ .ok (.request q) υ) → cs = [] ∧ u = .of y ∧ τ = left y)
    (hq : ∀ q σ₁ x υ, y = .ok (.request q) σ₁ → x m υ = .ok (.value (.request q)) σ₁ →
      ∃ n, Passes m [] n x υ cs u τ) :
    ∃ n, Passes m [] n t.step σ cs u τ := by
  induction N generalizing t σ with
  | zero => exact absurd ⟨σ, h.symm⟩ hy
  | succ N ih =>
    rw [runFor_succ] at h
    cases e : t.step m σ with
    | error e' σ' =>
      rw [e] at h
      subst h
      obtain ⟨rfl, rfl, rfl⟩ := hr (by simp)
      exact ⟨0, .stop e⟩
    | ok x σ' =>
      rw [e] at h
      rcases x with t' | r | q
      -- A reply that is handed to nobody ends the run; any other task goes on.
      · by_cases ht' : ∃ r, t' = .deliver r []
        · obtain ⟨r, rfl⟩ := ht'
          cases N with
          | zero => exact absurd ⟨σ', h.symm⟩ hy
          | succ N =>
            subst h
            obtain ⟨rfl, rfl, rfl⟩ := hr (by rintro q υ ⟨⟩)
            exact ⟨0, .hands e⟩
        · have ht' : ∀ r, t' ≠ .deliver r [] := fun r h => ht' ⟨r, h⟩
          obtain ⟨n, p⟩ := ih ht' h
          exact ⟨n + 1, .tail e (above_nil ht') p⟩
      · exact absurd e (unfinished_step ht m σ r σ')
      · exact hq q σ' _ σ h.symm e

theorem passes_of_answered {chunks : Int → Stream Value} {m : Means W} {k N : Nat} {t : Task W}
    {σ : Store W} {y : EStateM.Result Stop (Store W) (Finish W)} (ht : ∀ r, t ≠ .deliver r [])
    (h : (t.runFor N >>= Finish.answer chunks k) m σ = y) (hy : ¬Exhausted y) :
    ∃ cs n, Passes m [] n t.step σ cs (.of y) (left y) ∧ ∀ a ∈ cs, a.2 = chunks a.1 := by
  induction k generalizing N t σ with
  | zero =>
    rw [show Finish.answer chunks 0 = (pure : Finish W → Eval W _) from rfl, bind_pure] at h
    obtain ⟨n, p⟩ := passes_of_runFor [] (.of y) ht h hy (fun _ => ⟨rfl, rfl, rfl⟩)
      (by rintro q σ₁ x υ rfl e; exact ⟨0, .waits e⟩)
    exact ⟨[], n, p, by simp⟩
  | succ k ih =>
    rw [Eval.run_bind] at h
    split at h
    · next f₁ σ₁ e =>
      cases f₁ with
      | reply r =>
        subst h
        obtain ⟨n, p⟩ := passes_of_runFor [] (.reply r) ht e not_exhausted_ok
          (fun _ => ⟨rfl, rfl, rfl⟩) (by rintro q σ₁ x υ ⟨⟩)
        exact ⟨[], n, p, by simp⟩
      | request q =>
        change (q.resume (chunks q.chunk) >>= Finish.answer chunks k) m σ₁ = _ at h
        rw [resume_eq_arrive, bind_assoc, Eval.run_bind] at h
        -- The request is answered, and what follows the answer is shorter.
        have arrived : ∃ cs n, Passes m [] n (Task.next (q.arrive (chunks q.chunk))) σ₁ cs
            (.of y) (left y) ∧ ∀ a ∈ cs, a.2 = chunks a.1 := by
          split at h
          · next t' σ₂ e' =>
            have hn : Task.next (q.arrive (chunks q.chunk)) m σ₁ = .ok (.tail t') σ₂ := by
              rw [run_next, e']
            by_cases ht' : ∃ r, t' = .deliver r []
            · obtain ⟨r, rfl⟩ := ht'
              rw [Eval.run_bind] at h
              split at h
              · next f' υ e'' =>
                cases delivered e'' not_exhausted_ok
                rw [answer_reply] at h
                subst h
                exact ⟨[], 0, .hands hn, by simp⟩
              · next e₁ υ e'' =>
                subst h
                have e₁ := delivered e'' hy
                cases e₁
            · have ht' : ∀ r, t' ≠ .deliver r [] := fun r h => ht' ⟨r, h⟩
              obtain ⟨cs, n, p, hcs⟩ := ih ht' h
              exact ⟨cs, n + 1, .tail hn (above_nil ht') p, hcs⟩
          · next e₁ σ₂ e' =>
            subst h
            have hn : Task.next (q.arrive (chunks q.chunk)) m σ₁ = .error e₁ σ₂ := by
              rw [run_next, e']
            exact ⟨[], 0, .stop hn, by simp⟩
        obtain ⟨cs, n', p, hcs⟩ := arrived
        obtain ⟨n, p⟩ := passes_of_runFor ((q.chunk, chunks q.chunk) :: cs) (.of y)
          ht e not_exhausted_ok (fun h => absurd rfl (h q σ₁))
          (by rintro _ _ x υ ⟨⟩ ex; exact ⟨n' + 1, .answer ex p⟩)
        refine ⟨_, n, p, ?_⟩
        rintro a (_ | ha)
        · rfl
        · exact hcs a ‹_›
    · next e₁ σ₁ e =>
      subst h
      obtain ⟨n, p⟩ := passes_of_runFor [] (.stop e₁) ht e hy (fun _ => ⟨rfl, rfl, rfl⟩)
        (by rintro q σ₁ x υ ⟨⟩)
      exact ⟨[], n, p, by simp⟩

/-- Where a parser ends or waits, with its requests answered, is where the semantics says. -/
theorem evaluates_of_runWith {chunks : Int → Stream Value} {m : Means W} {k : Nat} {p : ParserId}
    {s : State Value} {σ : Store W} {y : EStateM.Result Stop (Store W) (Finish W)}
    (h : p.runWith chunks k s m σ = y) (hy : ¬Exhausted y) :
    ∃ cs, Evaluates m (.parser p s) σ cs (.of y) (left y) ∧ ∀ a ∈ cs, a.2 = chunks a.1 := by
  obtain ⟨cs, n, passes, hcs⟩ := passes_of_answered (N := m.steps) (by simp) h hy
  exact ⟨cs, evaluates_iff_passes.mpr ⟨n, passes⟩, hcs⟩

/-- What a parser comes to, with its requests answered, is what the semantics says. -/
theorem evaluates_of_answered {chunks : Int → Stream Value} {m : Means W} {k : Nat} {p : ParserId}
    {s : State Value} {σ τ : Store W} {f : Finish W}
    (h : p.runWith chunks k s m σ = .ok f τ) :
    ∃ cs, Evaluates m (.parser p s) σ cs f.upshot τ ∧ ∀ a ∈ cs, a.2 = chunks a.1 :=
  evaluates_of_runWith h not_exhausted_ok

end ResumableParsing
