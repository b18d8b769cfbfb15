import ResumableParsing.Proofs.Store.Computations

/-!
# What computations come to

A computation comes to an outcome if it has that outcome within every bound that is large enough.
Since larger bounds change no outcome that is there, one bound is enough to know it.

* `Eval.Comes`: what a computation comes to
* `comes_bind_ok`, `comes_bind_error`: one computation after another
* `Eval.Comes.of_bind`: what the two come to, one by one
* `Shelf.settle`: what is known of a deferred part after it has been computed
* `Shelf.comes_get_known`, `Shelf.comes_get_unset`: what the value of a deferred part comes to
* `Task.Reaches`, `comes_complete`: a parse comes to what its steps come to
-/

namespace ResumableParsing

variable {W α β : Type}

/-- Within every bound that is large enough, the computation has the outcome `y`. -/
def Eval.Comes (x : Eval W α) (σ : Store W) (y : EStateM.Result Stop (Store W) α) : Prop :=
  ¬Exhausted y ∧ ∃ n, ∀ n' ≥ n, x.exec n' σ = y

section

variable {x : Eval W α} {f : α → Eval W β} {σ σ₁ : Store W} {a : α} {e : Stop}
  {y z : EStateM.Result Stop (Store W) α} {r : EStateM.Result Stop (Store W) β}

theorem not_exhausted_ok : ¬Exhausted (.ok a σ : EStateM.Result Stop (Store W) α) := by
  rintro ⟨τ, h⟩
  cases h

theorem exhausted_error :
    Exhausted (.error e σ : EStateM.Result Stop (Store W) α) ↔ e = .exhausted := by
  simp [Exhausted]

theorem not_exhausted_error (h : e ≠ .exhausted) :
    ¬Exhausted (.error e σ : EStateM.Result Stop (Store W) α) :=
  mt exhausted_error.mp h

/-- An outcome within one bound is the one that a computation comes to. -/
theorem Composed.comes (h : Composed x) {n : Nat} (hy : x.exec n σ = y) (he : ¬Exhausted y) :
    x.Comes σ y := by
  refine ⟨he, n, fun n' hn => ?_⟩
  rcases h.patient_within hn σ with h' | h'
  · rw [hy] at h'
    exact absurd h' he
  · rw [h', hy]

/-- What is known stays known. -/
theorem Composed.grows_of_comes (h : Composed x) (hy : x.Comes σ y) : σ.Grows (left y) := by
  obtain ⟨-, n, hn⟩ := hy
  rw [← hn n (Nat.le_refl n)]
  exact h.grows_within n σ

theorem Eval.Comes.unique (h : x.Comes σ y) (h' : x.Comes σ z) : y = z := by
  obtain ⟨-, n, h⟩ := h
  obtain ⟨-, n', h'⟩ := h'
  rw [← h (max n n') (by omega), h' (max n n') (by omega)]

/-- An outcome that no bound changes. -/
theorem comes_of_forall (h : ∀ n, x.exec n σ = y) (he : ¬Exhausted y) : x.Comes σ y :=
  ⟨he, 0, fun n _ => h n⟩

theorem comes_pure (a : α) (σ : Store W) : (pure a : Eval W α).Comes σ (.ok a σ) :=
  comes_of_forall (fun _ => rfl) not_exhausted_ok

theorem comes_fault (f : Fault) (σ : Store W) :
    (Eval.fault f : Eval W α).Comes σ (.error (.raised f) σ) :=
  comes_of_forall (fun _ => rfl) (not_exhausted_error (by simp))

/-- A change that succeeds whatever the bound. -/
theorem comes_change {g : Store W → α × Store W} (h : ∀ m σ, x m σ = .ok (g σ).1 (g σ).2)
    (σ : Store W) : x.Comes σ (.ok (g σ).1 (g σ).2) :=
  comes_of_forall (fun _ => h _ σ) not_exhausted_ok

theorem comes_bind_ok (hx : x.Comes σ (.ok a σ₁)) (hf : (f a).Comes σ₁ r) :
    (x >>= f).Comes σ r := by
  obtain ⟨-, n, hx⟩ := hx
  obtain ⟨hr, n', hf⟩ := hf
  refine ⟨hr, max n n', fun k hk => ?_⟩
  have h₁ : x (.within k) σ = .ok a σ₁ := hx k (by omega)
  have h₂ : f a (.within k) σ₁ = r := hf k (by omega)
  rw [Eval.exec, Eval.run_bind, h₁]
  exact h₂

theorem comes_bind_error (hx : x.Comes σ (.error e σ₁)) : (x >>= f).Comes σ (.error e σ₁) := by
  obtain ⟨he, n, hx⟩ := hx
  rw [exhausted_error] at he
  refine ⟨not_exhausted_error he, n, fun k hk => ?_⟩
  have h₁ : x (.within k) σ = .error e σ₁ := hx k hk
  rw [Eval.exec, Eval.run_bind, h₁]

/-- What two computations come to, one after the other, they come to one by one. -/
theorem Eval.Comes.of_bind (hx : Composed x) (h : (x >>= f).Comes σ r) :
    (∃ a σ₁, x.Comes σ (.ok a σ₁) ∧ (f a).Comes σ₁ r) ∨
      ∃ e σ₁, x.Comes σ (.error e σ₁) ∧ r = .error e σ₁ := by
  obtain ⟨hr, n, h⟩ := h
  -- Were the first computation exhausted within the bound, so would the whole be.
  have first : x.Comes σ (x.exec n σ) := by
    apply hx.comes rfl
    rintro ⟨τ, he⟩
    apply hr
    rw [← h n (Nat.le_refl n), Eval.exec, Eval.run_bind, show x (.within n) σ = _ from he]
    exact ⟨τ, rfl⟩
  cases hy : x.exec n σ with
  | error e σ₁ =>
    refine .inr ⟨e, σ₁, hy ▸ first, ?_⟩
    rw [← h n (Nat.le_refl n), Eval.exec, Eval.run_bind, show x (.within n) σ = _ from hy]
  | ok a σ₁ =>
    rw [hy] at first
    refine .inl ⟨a, σ₁, first, hr, ?_⟩
    obtain ⟨-, n', first⟩ := first
    refine ⟨max n n', fun k hk => ?_⟩
    have h₁ : x (.within k) σ = .ok a σ₁ := first k (by omega)
    have h₂ : (x >>= f) (.within k) σ = r := h k (by omega)
    rw [Eval.run_bind, h₁] at h₂
    exact h₂

/-- What comes first in a computation comes to an end of its own. -/
theorem Eval.Comes.first_of_bind (hx : Composed x) (h : (x >>= f).Comes σ r) :
    ∃ z, x.Comes σ z := by
  rcases h.of_bind hx with ⟨a, σ₁, h, -⟩ | ⟨e, σ₁, h, -⟩
  · exact ⟨_, h⟩
  · exact ⟨_, h⟩

/-- Computations that do the same in a store come to the same. -/
theorem Eval.Comes.congr {x' : Eval W α} (hx : ∀ m, x' m σ = x m σ) (h : x.Comes σ y) :
    x'.Comes σ y := by
  obtain ⟨he, n, h⟩ := h
  exact ⟨he, n, fun n' hn => (hx _).trans (h n' hn)⟩

/-- Another first computation, which comes to the same. -/
theorem Eval.Comes.bind_congr {x' : Eval W α} {σ' : Store W} (h : (x >>= f).Comes σ r)
    (hx : Composed x) (hx' : ∀ z, x.Comes σ z → x'.Comes σ' z) : (x' >>= f).Comes σ' r := by
  rcases h.of_bind hx with ⟨a, σ₁, ha, hr⟩ | ⟨e, σ₁, he, rfl⟩
  · exact comes_bind_ok (hx' _ ha) hr
  · exact comes_bind_error (hx' _ he)

/-- What a loop comes to, some rounds of it come to. -/
theorem of_comes_loop {f : Nat → Eval W α} (hf : ∀ n, Composed (f n))
    (h : (do f (← read).steps : Eval W α).Comes σ y) : ∃ n, (f n).Comes σ y := by
  obtain ⟨he, n, hn⟩ := h
  exact ⟨n, (hf n).comes (hn n (Nat.le_refl n)) he⟩

/-- What some rounds of a loop come to, the loop comes to. -/
theorem comes_loop {f : Nat → Eval W α} (hf : ∀ n, Composed (f n))
    (hr : ∀ n m σ, Exhausted (f n m σ) ∨ f (n + 1) m σ = f n m σ) {n : Nat}
    (h : (f n).Comes σ y) : (do f (← read).steps : Eval W α).Comes σ y := by
  obtain ⟨he, b, hb⟩ := h
  have rounds : f n (.within (max n b)) σ = y := hb _ (by omega)
  refine (Composed.loop hf hr).comes (n := max n b) ?_ he
  change f (max n b) (.within (max n b)) σ = y
  rcases exhausted_or_loop (fun n σ => hr n _ σ) (Nat.le_max_left n b) σ with h | h
  · rw [rounds] at h
    exact absurd h he
  · rw [h, rounds]

end

/-! ## Deferred parts -/

namespace Shelf

variable {θ : Type}

/-- What is known of the part at a place once it has been computed: its value is kept, and where
the computation has broken off, nothing is. -/
def settle (shelf : Shelf W θ α) (i : Nat) :
    EStateM.Result Stop (Store W) α → EStateM.Result Stop (Store W) α
  | .ok a σ => .ok a (shelf.put i (.known a) σ)
  | .error e σ => .error e (shelf.put i .unset σ)

section

variable {shelf : Shelf W θ α} {i : Nat} {x : Eval W α} {compute : θ → Eval W α} {σ : Store W}
  {t : θ} {a : α} {y z : EStateM.Result Stop (Store W) α}

theorem not_exhausted_settle (h : ¬Exhausted y) : ¬Exhausted (shelf.settle i y) := by
  rintro ⟨τ, e⟩
  cases y with
  | ok a σ => cases e
  | error e' σ =>
    cases e
    exact h ⟨σ, rfl⟩

theorem get_known {compute : θ → Change W α} (found : shelf.find i σ = some ⟨t, .known a⟩) :
    shelf.get i compute σ = .ok a σ := by
  rw [get, found]

theorem get_unset {compute : θ → Change W α} (found : shelf.find i σ = some ⟨t, .unset⟩) :
    shelf.get i compute σ = shelf.settle i (compute t (shelf.put i .busy σ)) := by
  rw [get, found]
  simp only
  cases compute t (shelf.put i .busy σ) <;> rfl

theorem comes_get_known (hx : ∀ n σ, x.exec (n + 1) σ = shelf.get i (fun t => (compute t).exec n) σ)
    (found : shelf.find i σ = some ⟨t, .known a⟩) : x.Comes σ (.ok a σ) := by
  refine ⟨not_exhausted_ok, 1, fun n hn => ?_⟩
  obtain ⟨n, rfl⟩ : ∃ m, n = m + 1 := ⟨n - 1, by omega⟩
  exact (hx n σ).trans (get_known found)

/-- A part is computed when it is asked for. -/
theorem comes_get_unset (hx : ∀ n σ, x.exec (n + 1) σ = shelf.get i (fun t => (compute t).exec n) σ)
    (found : shelf.find i σ = some ⟨t, .unset⟩) (hz : (compute t).Comes (shelf.put i .busy σ) z) :
    x.Comes σ (shelf.settle i z) := by
  obtain ⟨he, b, hz⟩ := hz
  refine ⟨not_exhausted_settle he, b + 1, fun n hn => ?_⟩
  obtain ⟨n, rfl⟩ : ∃ m, n = m + 1 := ⟨n - 1, by omega⟩
  rw [← hz n (by omega)]
  exact (hx n σ).trans (get_unset found)

/-- What the value of a part that is not known comes to, its computation has come to. -/
theorem of_comes_get (hx : ∀ n σ, x.exec (n + 1) σ = shelf.get i (fun t => (compute t).exec n) σ)
    (hc : Composed (compute t)) (found : shelf.find i σ = some ⟨t, .unset⟩) (h : x.Comes σ y) :
    ∃ z, (compute t).Comes (shelf.put i .busy σ) z ∧ y = shelf.settle i z := by
  obtain ⟨he, b, hb⟩ := h
  have run := ((hx b σ).trans (get_unset found)).symm.trans (hb (b + 1) (by omega))
  -- The computation is not short of steps, or else its part would be.
  have first : ¬Exhausted ((compute t).exec b (shelf.put i .busy σ)) := by
    rintro ⟨τ, e⟩
    rw [e] at run
    exact he ⟨_, run.symm⟩
  exact ⟨_, hc.comes rfl first, run.symm⟩

end

end Shelf

theorem force_tail (i : TailId) (n : Nat) (σ : Store W) :
    (Eval.force (.tail i) : Eval W _).exec (n + 1) σ =
      Shelf.tails.get i.index (fun t : Tail W => t.compute.exec n) σ := rfl

theorem force_cell (c : CellId) (n : Nat) (σ : Store W) :
    (Eval.force (.cell c) : Eval W _).exec (n + 1) σ =
      Shelf.cells.get c.index (fun it => (it.pull : Eval W _).exec n) σ := rfl

theorem force_result (i : ResultId) (n : Nat) (σ : Store W) :
    (Eval.force (.result i) : Eval W Value).exec (n + 1) σ =
      Shelf.results.get i.index (fun a => a.run.exec n) σ := rfl

/-! ## Parses -/

/-- `t.Reaches n σ y`: a parse comes to `y` with `n` steps before the last one. -/
inductive Task.Reaches : Nat → Task W → Store W → EStateM.Result Stop (Store W) (Finish W) →
    Prop where
  /-- The last step. -/
  | value {t : Task W} {f : Finish W} {σ σ' : Store W} :
      t.step.Comes σ (.ok (.value f) σ') → Reaches 0 t σ (.ok f σ')
  /-- A step breaks off. -/
  | error {t : Task W} {e : Stop} {σ σ' : Store W} :
      t.step.Comes σ (.error e σ') → Reaches 0 t σ (.error e σ')
  /-- There is another step. -/
  | tail {n : Nat} {t t' : Task W} {σ σ' : Store W}
      {y : EStateM.Result Stop (Store W) (Finish W)} :
      t.step.Comes σ (.ok (.tail t') σ') → Reaches n t' σ' y → Reaches (n + 1) t σ y

section

variable {t : Task W} {σ : Store W} {y : EStateM.Result Stop (Store W) (Finish W)}

theorem Task.Reaches.not_exhausted {n : Nat} (h : t.Reaches n σ y) : ¬Exhausted y := by
  induction h with
  | value h => exact not_exhausted_ok
  | error h =>
    rintro ⟨τ, e⟩
    cases e
    exact h.1 ⟨_, rfl⟩
  | tail _ _ ih => exact ih

theorem reaches_of_runFor {m n : Nat} (h : t.runFor n (.within m) σ = y) (he : ¬Exhausted y) :
    ∃ k, t.Reaches k σ y := by
  induction n generalizing t σ with
  | zero => exact absurd ⟨σ, h.symm⟩ he
  | succ n ih =>
    -- Were the step exhausted within the bound, so would the parse be.
    have first : t.step.Comes σ (t.step (.within m) σ) := by
      apply (composed_step t).comes rfl
      rintro ⟨τ, e⟩
      apply he
      rw [← h, Task.runFor, Eval.run_bind, show t.step (.within m) σ = _ from e]
      exact ⟨τ, rfl⟩
    rw [Task.runFor, Eval.run_bind] at h
    split at h
    · next s σ' e =>
      rw [e] at first
      cases s with
      | tail t' =>
        obtain ⟨k, hk⟩ := ih h
        exact ⟨k + 1, .tail first hk⟩
      | value f =>
        cases h
        exact ⟨0, .value first⟩
    · next e' σ' e =>
      rw [e] at first
      cases h
      exact ⟨0, .error first⟩

theorem Task.Reaches.runFor {n : Nat} (h : t.Reaches n σ y) :
    ∃ m₀, ∀ m ≥ m₀, ∀ k > n, t.runFor k (.within m) σ = y := by
  induction h with
  | value h =>
    obtain ⟨-, m₀, h⟩ := h
    refine ⟨m₀, fun m hm k hk => ?_⟩
    obtain ⟨k, rfl⟩ : ∃ l, k = l + 1 := ⟨k - 1, by omega⟩
    rw [Task.runFor, Eval.run_bind, show Task.step _ (.within m) _ = _ from h m hm]
    rfl
  | error h =>
    obtain ⟨-, m₀, h⟩ := h
    refine ⟨m₀, fun m hm k hk => ?_⟩
    obtain ⟨k, rfl⟩ : ∃ l, k = l + 1 := ⟨k - 1, by omega⟩
    rw [Task.runFor, Eval.run_bind, show Task.step _ (.within m) _ = _ from h m hm]
  | tail h _ ih =>
    obtain ⟨-, m₀, h⟩ := h
    obtain ⟨m₁, ih⟩ := ih
    refine ⟨max m₀ m₁, fun m hm k hk => ?_⟩
    obtain ⟨k, rfl⟩ : ∃ l, k = l + 1 := ⟨k - 1, by omega⟩
    rw [Task.runFor, Eval.run_bind, show Task.step _ (.within m) _ = _ from h m (by omega)]
    exact ih m (by omega) k (by omega)

/-- A parse comes to what its steps come to. -/
theorem comes_complete : t.complete.Comes σ y ↔ ∃ n, t.Reaches n σ y := by
  constructor
  · rintro ⟨he, m, h⟩
    exact reaches_of_runFor (h m (Nat.le_refl m)) he
  · rintro ⟨n, h⟩
    obtain ⟨m₀, hm⟩ := h.runFor
    refine ⟨h.not_exhausted, max m₀ (n + 1), fun m hm' => ?_⟩
    exact hm m (by omega) m (by omega)

end

end ResumableParsing
