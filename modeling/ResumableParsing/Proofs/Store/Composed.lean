import ResumableParsing.Proofs.Store.Growth

/-!
# Computations put together from small changes

Every computation of the library is put together from changes of the store that keep what is known,
from requests for deferred parts, and from loops with a bound. So whatever holds of the pieces and
is kept by putting them together holds of all computations.

* `Composed`: the computations that are put together in this way
* `Composed.grows`: the store grows along them
* `Composed.patient`: larger bounds change no outcome that is there
-/

namespace ResumableParsing

variable {W α β : Type}

/-- The outcomes that larger bounds may change. -/
def Exhausted (y : EStateM.Result Stop (Store W) α) : Prop := ∃ σ, y = .error .exhausted σ

/-- The store that a computation leaves. -/
def left : EStateM.Result Stop (Store W) α → Store W
  | .ok _ σ => σ
  | .error _ σ => σ

/-- The answer that a computation gives, or why it breaks off. -/
def answer : EStateM.Result Stop (Store W) α → Except Stop α
  | .ok a _ => .ok a
  | .error e _ => .error e

/-- The computation has succeeded. -/
def succeeded : EStateM.Result Stop (Store W) α → Bool
  | .ok .. => true
  | .error .. => false

theorem exists_of_succeeded {y : EStateM.Result Stop (Store W) α} (h : succeeded y = true) :
    ∃ a σ, y = .ok a σ := by
  cases y with
  | ok a σ => exact ⟨a, σ, rfl⟩
  | error e σ => cases h

/-- What two computations come to that succeed one after the other. -/
theorem ok_of_bind {x : Eval W α} {f : α → Eval W β} {m : Means W} {σ τ : Store W} {b : β}
    (h : (x >>= f) m σ = .ok b τ) : ∃ a υ, x m σ = .ok a υ ∧ f a m υ = .ok b τ := by
  rw [Eval.run_bind] at h
  split at h
  · next a υ e => exact ⟨a, υ, e, h⟩
  · cases h

/-- Computations that are put together from changes that keep what is known. -/
inductive Composed : {α : Type} → Eval W α → Prop where
  /-- A change that succeeds. -/
  | change {α : Type} {x : Eval W α} (f : Store W → α × Store W) :
      (∀ m σ, x m σ = .ok (f σ).1 (f σ).2) → (∀ σ : Store W, σ.Adds (f σ).2) → Composed x
  /-- A computation breaks off. -/
  | stop {α : Type} (e : Stop) : Composed (throw e : Eval W α)
  /-- One computation after another. -/
  | bind {α β : Type} {x : Eval W α} {f : α → Eval W β} :
      Composed x → (∀ a, Composed (f a)) → Composed (x >>= f)
  /-- A deferred part. -/
  | force (d : Deferred) : Composed (Eval.force d)
  /-- A fault is looked at. -/
  | catching {α : Type} {x : Eval W α} : Composed x → Composed (Eval.catching x)
  /-- A loop, whose rounds are bounded. -/
  | loop {α : Type} {f : Nat → Eval W α} : (∀ n, Composed (f n)) →
      (∀ n m σ, Exhausted (f n m σ) ∨ f (n + 1) m σ = f n m σ) →
      Composed (do f (← read).steps)

/-! ## Growth -/

/-- Deferred parts are computed by growth of the store. -/
def Means.Grow (m : Means W) : Prop := ∀ (d : Deferred) (σ : Store W), σ.Grows (left (m.force d σ))

theorem Composed.grows {x : Eval W α} (h : Composed x) {m : Means W} (hm : m.Grow)
    (σ : Store W) : σ.Grows (left (x m σ)) := by
  induction h generalizing σ with
  | change f hx hf =>
    rw [hx]
    exact (hf σ).toGrows
  | stop e => exact .refl σ
  | @bind α β x f _ _ ihx ihf =>
    rw [Eval.run_bind]
    have hx := ihx σ
    cases h : x m σ with
    | ok a σ₁ =>
      rw [h] at hx
      exact hx.trans (ihf a σ₁)
    | error e σ₁ =>
      rw [h] at hx
      exact hx
  | force d => exact hm d σ
  | @catching α x _ ih =>
    have hx := ih σ
    simp only [Eval.catching]
    cases h : x m σ with
    | ok a σ₁ =>
      rw [h] at hx
      exact hx
    | error e σ₁ =>
      rw [h] at hx
      cases e <;> exact hx
  | loop _ _ ih => exact ih m.steps σ

/-! ## Patience -/

/-- The bounds of `m'` are larger than those of `m`. -/
structure Means.Le (m m' : Means W) : Prop where
  /-- Runs may take more steps. -/
  steps : m.steps ≤ m'.steps
  /-- Deferred parts that are computed within the bounds come out the same. -/
  force : ∀ d σ, Exhausted (m.force d σ) ∨ m'.force d σ = m.force d σ

theorem exhausted_or_bind {x : Eval W α} {f g : α → Eval W β} {m : Means W} {σ : Store W}
    (h : ∀ a σ, Exhausted (f a m σ) ∨ g a m σ = f a m σ) :
    Exhausted ((x >>= f) m σ) ∨ (x >>= g) m σ = (x >>= f) m σ := by
  rw [Eval.run_bind, Eval.run_bind]
  cases x m σ with
  | ok a σ₁ => exact h a σ₁
  | error e σ₁ => exact .inr rfl

theorem exhausted_or_ite {c : Prop} [Decidable c] {x y x' y' : Eval W α} {m : Means W}
    {σ : Store W} (hx : Exhausted (x m σ) ∨ x' m σ = x m σ)
    (hy : Exhausted (y m σ) ∨ y' m σ = y m σ) :
    Exhausted ((if c then x else y) m σ) ∨
      (if c then x' else y') m σ = (if c then x else y) m σ := by
  split
  · exact hx
  · exact hy

/-- More rounds of a loop change no outcome that is there. -/
theorem exhausted_or_loop {f : Nat → Eval W α} {m : Means W}
    (h : ∀ n σ, Exhausted (f n m σ) ∨ f (n + 1) m σ = f n m σ) {n n' : Nat} (hn : n ≤ n')
    (σ : Store W) : Exhausted (f n m σ) ∨ f n' m σ = f n m σ := by
  induction hn with
  | refl => exact .inr rfl
  | @step k _ ih =>
    rcases ih with ih | ih
    · exact .inl ih
    · rcases h k σ with hk | hk
      · exact .inl (ih ▸ hk)
      · exact .inr (hk.trans ih)

theorem Composed.patient {x : Eval W α} (h : Composed x) {m m' : Means W} (hm : m.Le m')
    (σ : Store W) : Exhausted (x m σ) ∨ x m' σ = x m σ := by
  induction h generalizing σ with
  | change f hx hf => exact .inr (by rw [hx, hx])
  | stop e => exact .inr rfl
  | @bind α β x f _ _ ihx ihf =>
    rw [Eval.run_bind, Eval.run_bind]
    rcases ihx σ with ⟨σ₁, hx⟩ | hx
    · rw [hx]
      exact .inl ⟨σ₁, rfl⟩
    · rw [hx]
      cases h : x m σ with
      | ok a σ₁ => exact ihf a σ₁
      | error e σ₁ => exact .inr rfl
  | force d => exact hm.force d σ
  | @catching α x _ ih =>
    simp only [Eval.catching]
    rcases ih σ with ⟨σ₁, hx⟩ | hx
    · rw [hx]
      exact .inl ⟨σ₁, rfl⟩
    · rw [hx]
      exact .inr rfl
  | @loop α f _ hf ih =>
    change Exhausted (f m.steps m σ) ∨ f m'.steps m' σ = f m.steps m σ
    rcases ih m.steps σ with h | h
    · exact .inl h
    · rcases exhausted_or_loop (fun n σ => hf n m' σ) hm.steps σ with h' | h'
      · exact .inl (h ▸ h')
      · exact .inr (h'.trans h)

/-! ## Pieces -/

namespace Composed

theorem pure (a : α) : Composed (pure a : Eval W α) :=
  .change (fun σ => (a, σ)) (fun _ _ => rfl) .refl

theorem modifyGet {f : Store W → α × Store W} (h : ∀ σ : Store W, σ.Adds (f σ).2) :
    Composed (modifyGet f : Eval W α) := .change f (fun _ _ => rfl) h

theorem modify {f : Store W → Store W} (h : ∀ σ : Store W, σ.Adds (f σ)) :
    Composed (modify f : Eval W Unit) := .change (fun σ => ((), f σ)) (fun _ _ => rfl) h

theorem get : Composed (get : Eval W (Store W)) :=
  .change (fun σ => (σ, σ)) (fun _ _ => rfl) .refl

theorem fault (e : Fault) : Composed (Eval.fault e : Eval W α) := .stop _

theorem deref (a : Option α) : Composed (Eval.deref a : Eval W α) := by
  cases a with
  | some a => exact pure a
  | none => exact .stop _

theorem map {x : Eval W α} (h : Composed x) (f : α → β) : Composed (f <$> x) := by
  rw [map_eq_pure_bind]
  exact .bind h fun a => pure (f a)

theorem ite {c : Prop} [Decidable c] {x y : Eval W α} (hx : Composed x) (hy : Composed y) :
    Composed (if c then x else y) := by
  split
  · exact hx
  · exact hy

theorem debug (message : Store W → String) : Composed (Eval.debug message) := by
  refine .change (fun σ => ((), if σ.logging then { σ with log := message σ :: σ.log } else σ))
    (fun _ _ => rfl) fun σ => ?_
  dsimp only
  split
  · exact { Store.Adds.refl σ with }
  · exact .refl σ

theorem serial : Composed (Eval.serial : Eval W Nat) :=
  .change (fun σ => (σ.nextSerial, { σ with nextSerial := σ.nextSerial + 1 })) (fun _ _ => rfl)
    fun σ => { Store.Adds.refl σ with nextSerial := Nat.le_succ _ }

end Composed

end ResumableParsing
