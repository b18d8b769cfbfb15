import ResumableParsing.Proofs.Correspondence.Aims
import ResumableParsing.Proofs.Correspondence.Steps

/-!
# Corresponding runs step by step

Corresponding tasks in corresponding stores come to the same end, unless the right run pauses
before: then it waits for a chunk, and the left run is at the place from which the right one will go
on.

* `Correspondence.Paused`: the right run waits, and the left one is at the same place
* `Correspondence.Lawful.reaches`: what the right run comes to
-/

namespace ResumableParsing.Correspondence

variable {W : Type} (C : Correspondence W)

/-- The ends of two parses correspond: they give corresponding replies. -/
inductive Finishes (w : C.World) : Finish W → Finish W → Prop where
  | reply {r r' : Reply Value} : C.Replies w r r' → Finishes w (.reply r) (.reply r')

/-- The right run waits as the request says. The left run is at the same place in the store `σ`,
with at most `n` steps left from there. -/
inductive Paused (w : C.World) (n : Nat) (σ : Store W) (y : Aim W) : Request W → Prop where
  | intro {x : Continuation W → Step (Task W) (Finish W)} {i : Int} {s : State Value}
      {v u : Value} {k l : Continuation W} :
      C.Pausing w x i s → C.Values w v u → List.Forall₂ (C.Frames w) k l →
      y.Leads n (x (.matched v :: k)) σ → Paused w n σ y ⟨i, s, .matched u :: l⟩

variable {C}

/-- Whatever the left run comes to, the right run comes to a corresponding end, or it pauses on the
way. No task that corresponds to another one is marked. -/
theorem Lawful.reaches (hC : C.Lawful) {w : C.World} {n : Nat} {t u : Task W} {σ τ : Store W}
    {y : Aim W} (clear : ∀ w' t u, C.During w w' → C.Tasks w' t u → ¬y.marked t)
    (ht : C.Tasks w t u) (hs : C.Stores w σ τ) (hy : y.At n t σ) :
    (∃ m z z', u.Reaches m τ z' ∧ y.Ends z ∧ C.Ends w C.Finishes z z') ∨
    ∃ m q τ' w' n' σ', u.Reaches m τ (.ok (.request q) τ') ∧ C.During w w' ∧ C.Stores w' σ' τ' ∧
      n' ≤ n ∧ C.Paused w' n' σ' y q := by
  induction n using Nat.strongRecOn generalizing w t u σ τ with
  | ind n ih =>
    rcases hy.step (clear w t u (hC.refl w) ht) with ⟨e, σ', step, ended⟩ | ⟨s, σ', step, leads⟩
    · obtain ⟨r', hu, ends⟩ := hC.step ht w σ τ _ (hC.le (hC.refl w)) hs step
      obtain ⟨τ', w', rfl, hle, hs'⟩ := ends.of_error
      exact .inl ⟨0, _, _, .error hu, ended, ends⟩
    · obtain ⟨r', hu, ends⟩ := hC.step ht w σ τ _ (hC.le (hC.refl w)) hs step
      obtain ⟨x, τ', w', rfl, hle, hs', steps⟩ := ends.of_ok
      cases steps with
      | @tail t' u' ht' =>
        cases leads with
        | @tail m _ _ hy' =>
          have clear' (w'' : C.World) (t u : Task W) (hle' : C.During w' w'')
              (h : C.Tasks w'' t u) : ¬y.marked t :=
            clear w'' t u (hC.during_trans hle hle') h
          -- Both runs go on, and what is left of the left one is shorter.
          rcases ih m (Nat.lt_succ_self m) clear' ht' hs' hy' with
            ⟨k, z, z', hu', ended, ends⟩ | ⟨k, q, τ'', w'', n', σ'', hu', hle', hs'', hn, hp⟩
          · exact .inl ⟨k + 1, z, z', .tail hu hu', ended, hC.ends_mono hle ends⟩
          · exact .inr ⟨k + 1, q, τ'', w'', n', σ'', .tail hu hu', hC.during_trans hle hle', hs'',
              Nat.le_succ_of_le hn, hp⟩
      | reply hr =>
        cases leads with
        | value ended => exact .inl ⟨0, _, _, .value hu, ended, w', hle, hs', .reply hr⟩
      -- The right run waits for a chunk where the left one moves on.
      | pause hz hv hk =>
        exact .inr ⟨0, _, τ', w', n, σ', .value hu, hle, hs', Nat.le_refl n, .intro hz hv hk leads⟩

end ResumableParsing.Correspondence
