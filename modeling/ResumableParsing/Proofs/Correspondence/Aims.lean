import ResumableParsing.Proofs.Store.Comes

/-!
# What runs come upon

Besides what a run comes to, it can matter which tasks it comes upon on its way. Runs take the same
steps whenever they start in the same store, so this is settled from the start.

* `Task.Meets`: a run comes upon a task of a kind
* `Aim`: what a run comes to, and whether it comes upon a task of a kind
* `Aim.At`, `Aim.Leads`, `Aim.Ends`: a run on its way, and at its end
-/

namespace ResumableParsing

variable {W : Type}

/-- `t.Meets B σ`: the run of `t` in the store `σ` comes upon a task as `B` says. -/
inductive Task.Meets (B : Task W → Prop) : Task W → Store W → Prop where
  /-- It starts with such a task. -/
  | here {t : Task W} {σ : Store W} : B t → Meets B t σ
  /-- It comes upon such a task later. -/
  | later {t t' : Task W} {σ σ' : Store W} :
      t.step.Comes σ (.ok (.tail t') σ') → Meets B t' σ' → Meets B t σ

section

variable {B : Task W → Prop} {t t' : Task W} {σ σ' : Store W}

theorem Task.not_meets_of_value {f : Finish W} (hB : ¬B t)
    (h : t.step.Comes σ (.ok (.value f) σ')) : ¬t.Meets B σ := by
  rintro (here | ⟨step, -⟩)
  · exact hB here
  · cases h.unique step

theorem Task.not_meets_of_error {e : Stop} (hB : ¬B t) (h : t.step.Comes σ (.error e σ')) :
    ¬t.Meets B σ := by
  rintro (here | ⟨step, -⟩)
  · exact hB here
  · cases h.unique step

/-- What a run comes upon after a step, it comes upon in all. -/
theorem Task.meets_of_tail (hB : ¬B t) (h : t.step.Comes σ (.ok (.tail t') σ')) :
    t.Meets B σ ↔ t'.Meets B σ' := by
  constructor
  · rintro (here | ⟨step, meets⟩)
    · exact absurd here hB
    · cases h.unique step
      exact meets
  · exact .later h

end

/-- What is asked of a run. -/
structure Aim (W : Type) where
  /-- The tasks that matter on the way. -/
  marked : Task W → Prop
  /-- The run comes upon one of them. -/
  met : Prop
  /-- What the run comes to. -/
  result : EStateM.Result Stop (Store W) (Finish W)

namespace Aim

/-- No tasks matter on the way. -/
def plain (y : EStateM.Result Stop (Store W) (Finish W)) : Aim W := ⟨fun _ => False, False, y⟩

variable {y : Aim W} {n : Nat} {t : Task W} {σ : Store W}
  {z : EStateM.Result Stop (Store W) (Finish W)}

/-- The run is at a task, with `n` steps before the last one. -/
structure At (y : Aim W) (n : Nat) (t : Task W) (σ : Store W) : Prop where
  /-- It comes to the result. -/
  reaches : t.Reaches n σ y.result
  /-- It is still to come upon a marked task if it does so at all. -/
  meets : t.Meets y.marked σ ↔ y.met

/-- The run has come to an end, and has not come upon a marked task. -/
structure Ends (y : Aim W) (z : EStateM.Result Stop (Store W) (Finish W)) : Prop where
  /-- It has come to the result. -/
  result : y.result = z
  /-- No marked task was on the way. -/
  clear : ¬y.met

/-- The run has taken a step, at most `n` steps before the end. -/
inductive Leads (y : Aim W) : Nat → Step (Task W) (Finish W) → Store W → Prop where
  /-- It goes on. -/
  | tail {n : Nat} {t : Task W} {σ : Store W} : y.At n t σ → Leads y (n + 1) (.tail t) σ
  /-- It is over. -/
  | value {n : Nat} {f : Finish W} {σ : Store W} : y.Ends (.ok f σ) → Leads y n (.value f) σ

/-- A run takes a step from a task that is not marked. -/
theorem At.step (h : y.At n t σ) (ht : ¬y.marked t) :
    (∃ e τ, t.step.Comes σ (.error e τ) ∧ y.Ends (.error e τ)) ∨
    ∃ s τ, t.step.Comes σ (.ok s τ) ∧ y.Leads n s τ := by
  obtain ⟨reaches, meets⟩ := h
  generalize hy : y.result = r at reaches
  cases reaches with
  | value step =>
    refine .inr ⟨_, _, step, .value ⟨hy, ?_⟩⟩
    exact fun met => Task.not_meets_of_value ht step (meets.mpr met)
  | error step =>
    refine .inl ⟨_, _, step, hy, ?_⟩
    exact fun met => Task.not_meets_of_error ht step (meets.mpr met)
  | tail step reaches =>
    exact .inr ⟨_, _, step, .tail ⟨hy ▸ reaches, (Task.meets_of_tail ht step).symm.trans meets⟩⟩

/-- Where no tasks matter, a run just comes to its result. -/
theorem at_plain (h : t.Reaches n σ z) : (plain z).At n t σ := by
  refine ⟨h, fun meets => ?_, False.elim⟩
  clear h
  induction meets with
  | here marked => exact marked
  | later _ _ ih => exact ih

end Aim

end ResumableParsing
