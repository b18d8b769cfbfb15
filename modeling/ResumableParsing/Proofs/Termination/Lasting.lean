import ResumableParsing.Proofs.Deferred.Parts
import ResumableParsing.Proofs.Termination.Finite

/-!
# What no computation changes

Computations of the library add to the store and ask for deferred parts. What additions keep, and
what is kept when a part is asked for, holds in all later stores.

* `Composed.keeps`: what additions and deferred parts keep, all computations keep
* `Store.Lasting`: conditions that additions keep and that last when a part is asked for
* `Store.Lasting.later`: they hold in all later stores
-/

namespace ResumableParsing

variable {W : Type}

/-- What additions and deferred parts keep, all computations keep. -/
theorem Composed.keeps {α : Type} {I : Store W → Prop}
    (hI : ∀ {σ τ : Store W}, I σ → σ.Adds τ → I τ) {m : Means W}
    (hm : ∀ d σ, I σ → I (left (m.force d σ))) {x : Eval W α} (h : Composed x) {σ : Store W}
    (hσ : I σ) : I (left (x m σ)) := by
  induction h generalizing σ with
  | change f hx hf =>
    rw [hx]
    exact hI hσ (hf σ)
  | stop e => exact hσ
  | @bind α β x f _ _ ihx ihf =>
    rw [Eval.run_bind]
    have hx := ihx hσ
    cases h : x m σ with
    | ok a σ₁ =>
      rw [h] at hx
      exact ihf a hx
    | error e σ₁ =>
      rw [h] at hx
      exact hx
  | force d => exact hm d σ hσ
  | @catching α x _ ih =>
    have hx := ih hσ
    simp only [Eval.catching]
    cases h : x m σ with
    | ok a σ₁ =>
      rw [h] at hx
      exact hx
    | error e σ₁ =>
      rw [h] at hx
      cases e <;> exact hx
  | loop _ _ ih => exact ih m.steps hσ

/-- A condition that lasts: additions keep it, and so do the marks of a part that is being computed.
When a part is asked for that has not been computed, the condition says nothing of this part, or is
kept by the part itself. -/
structure Store.Lasting (I : Store W → Prop) : Prop where
  /-- Additions keep it. -/
  adds : ∀ {σ τ : Store W}, I σ → σ.Adds τ → I τ
  /-- It says nothing of parts that are being computed. -/
  mark : ∀ {σ : Store W} {d : Deferred} (s : Slot d.Content), I σ → σ.slot d = .busy →
    I (σ.mark d s)
  /-- It is kept where a part is asked for. -/
  ask : ∀ {σ : Store W} {d : Deferred} {x : Eval W d.Content}, I σ →
    σ.part? d = some ⟨x, .unset⟩ → I (σ.mark d .busy) ∨ ∀ n, I (left (forceWithin (n + 1) d σ))

section

variable {σ τ : Store W}

/-- A part that is being computed goes on being computed. -/
theorem Store.Grows.busy {d : Deferred} (g : σ.Grows τ) (h : σ.slot d = .busy) :
    τ.slot d = .busy := by
  have kept {θ β : Type} {a b : Array (Memo θ β)} {i : Nat} {m : Memo θ β} (keep : Memo.Keep a b)
      (hm : a[i]? = some m) (hs : m.slot = .busy) : ∃ m', b[i]? = some m' ∧ m'.slot = .busy := by
    obtain ⟨m', hm', -, unset | same⟩ := keep i m hm
    · rw [hs] at unset
      cases unset
    · exact ⟨m', hm', same.trans hs⟩
  obtain ⟨x, found⟩ := Store.part_of_slot h (by simp)
  cases d with
  | session i => cases found
  | tail i =>
    obtain ⟨⟨t, s⟩, there, e⟩ := Option.map_eq_some_iff.mp found
    cases e
    obtain ⟨m', there', busy⟩ := kept g.tails there rfl
    simp [Store.slot, Store.part?, there', busy]
  | cell i =>
    obtain ⟨⟨t, s⟩, there, e⟩ := Option.map_eq_some_iff.mp found
    cases e
    obtain ⟨m', there', busy⟩ := kept g.cells there rfl
    simp [Store.slot, Store.part?, there', busy]
  | result i =>
    obtain ⟨⟨t, s⟩, there, e⟩ := Option.map_eq_some_iff.mp found
    cases e
    obtain ⟨m', there', busy⟩ := kept g.results there rfl
    simp [Store.slot, Store.part?, there', busy]

namespace Store.Lasting

variable {I : Store W → Prop}

/-- No deferred part changes it. The induction is on the nesting of deferred parts. -/
theorem force (h : Lasting I) (n : Nat) (d : Deferred) (hσ : I σ) :
    I (left (forceWithin n d σ)) := by
  induction n generalizing d σ with
  | zero => exact hσ
  | succ n ih =>
    have keeps {β : Type} {x : Eval W β} (hx : Composed x) {σ : Store W} (hσ : I σ) :
        I (left (x ⟨n, forceWithin n⟩ σ)) := hx.keeps h.adds (fun d _ => ih d) hσ
    -- A session has no slot: it is finished anew, and its result is another part.
    by_cases session : ∃ i, d = .session i
    · obtain ⟨i, rfl⟩ := session
      exact keeps (composed_finish i) hσ
    · cases found : σ.part? d with
      | none =>
        rw [forceWithin_missing found fun i same => session ⟨i, same⟩]
        exact hσ
      | some m =>
        obtain ⟨x, _ | _ | a⟩ := m
        · obtain marked | asked := h.ask hσ found
          -- The part is marked while it is computed, and gets its last mark then.
          · have hm : Means.Grow (⟨n, forceWithin n⟩ : Means W) := force_grow n
            have hx := (Store.regular_part found).composed
            have computed := keeps hx marked
            have busy := (hx.grows hm _).busy (Store.busy_mark found)
            rw [forceWithin_unset found]
            cases hr : x ⟨n, forceWithin n⟩ (σ.mark d .busy) with
            | ok a τ =>
              rw [hr] at computed busy
              exact h.mark _ computed busy
            | error e τ =>
              rw [hr] at computed busy
              exact h.mark _ computed busy
          · exact asked n
        · rw [forceWithin_busy found]
          exact hσ
        · rw [forceWithin_known found]
          exact hσ

/-- It holds in all later stores. -/
theorem later (h : Lasting I) (hσ : I σ) (k : σ.Evolves τ) : I τ := by
  induction k with
  | refl => exact hσ
  | step n _ hx ih => exact hx.keeps h.adds (fun d _ => h.force n d) ih

end Store.Lasting

end

end ResumableParsing
