import ResumableParsing.Proofs.Store.Computations

/-!
# What is known of a stream

Looking at a stream can compute parts of it. What was found out is then known for good: the same
question gets the same answer later, and computes nothing.

* `Store.Knows`: what a later store knows of streams
* `Stream.Vacant`, `Stream.Occupied`: a stream is known to be empty, or not to be
* `Stream.Head`: the first element of a stream is known
* `Stream.Next`: the rest of a stream is known
* `rest_next`, `next_rest`: the rest is known once it has been asked for, and costs nothing then
-/

namespace ResumableParsing

variable {W : Type} {σ τ υ : Store W}

/-! ## Known parts -/

/-- A part with a known value. -/
def Memo.KnownAs {θ α : Type} (a : Array (Memo θ α)) (i : Nat) (v : α) : Prop :=
  ∃ x : Memo θ α, a[i]? = some x ∧ x.slot = .known v

/-- What is known of streams is known later. -/
structure Store.Knows (σ τ : Store W) : Prop where
  /-- Known tails. -/
  tails : ∀ {i : Nat} {t : Option (Stream Value)},
    Memo.KnownAs σ.tails i t → Memo.KnownAs τ.tails i t
  /-- Known cells. -/
  cells : ∀ {i : Nat} {c : Option (Value × Stream Value)},
    Memo.KnownAs σ.cells i c → Memo.KnownAs τ.cells i c

theorem Memo.KnownAs.unique {θ α : Type} {a : Array (Memo θ α)} {i : Nat} {v w : α}
    (h : KnownAs a i v) (h' : KnownAs a i w) : v = w := by
  obtain ⟨x, hx, hs⟩ := h
  obtain ⟨y, hy, hs'⟩ := h'
  rw [hx] at hy
  cases hy
  rw [hs] at hs'
  cases hs'
  rfl

theorem Memo.Keep.knownAs {θ α : Type} {a b : Array (Memo θ α)} (h : Keep a b) {i : Nat} {v : α}
    (hv : KnownAs a i v) : KnownAs b i v := by
  obtain ⟨x, hx, hs⟩ := hv
  obtain ⟨y, hy, -, hk⟩ := h i x hx
  rcases hk with hk | hk
  · simp [hs] at hk
  · exact ⟨y, hy, hk.trans hs⟩

theorem Store.Grows.knows (h : σ.Grows τ) : σ.Knows τ := ⟨h.tails.knownAs, h.cells.knownAs⟩

/-! ## Known answers -/

namespace Stream

/-- The stream is known to be empty. -/
def Vacant (σ : Store W) : Stream Value → Prop
  | .nil => True
  | .cons .. => False
  | .lazy .. => False
  | .view q i _ => viewIsEmpty q i = true
  | .pulled c => Memo.KnownAs σ.cells c.index none

/-- The stream is known to have elements. -/
def Occupied (σ : Store W) : Stream Value → Prop
  | .nil => False
  | .cons .. => True
  | .lazy .. => True
  | .view q i _ => viewIsEmpty q i = false
  | .pulled c => ∃ v, Memo.KnownAs σ.cells c.index (some v)

/-- The first element is known. -/
def Head (σ : Store W) : Stream Value → Value → Prop
  | .nil, _ => False
  | .cons _ w _, v => v = w
  | .lazy _ w _, v => v = w
  | .view q i _, v => viewIsEmpty q i = false ∧ q.get? i = some v
  | .pulled c, v => ∃ t, Memo.KnownAs σ.cells c.index (some (v, t))

/-- What follows the first element is known. -/
def Next (σ : Store W) : Stream Value → Stream Value → Prop
  | .nil, t => t = .nil
  | .cons _ _ s, t => t = s
  | .lazy _ _ i, t => Memo.KnownAs σ.tails i.index (some t)
  | .view q i h, t => t = if viewIsEmpty q i then .view q i h else .view q (i + 1) none
  | .pulled c, t => (∃ v, Memo.KnownAs σ.cells c.index (some (v, t))) ∨
      (Memo.KnownAs σ.cells c.index none ∧ t = .nil)

variable {s t : Stream Value}

theorem Vacant.later (h : s.Vacant σ) (k : σ.Knows τ) : s.Vacant τ := by
  cases s with
  | pulled c => exact k.cells h
  | _ => exact h

theorem Occupied.later (h : s.Occupied σ) (k : σ.Knows τ) : s.Occupied τ := by
  cases s with
  | pulled c =>
    obtain ⟨v, h⟩ := h
    exact ⟨v, k.cells h⟩
  | _ => exact h

theorem Head.later {v : Value} (h : s.Head σ v) (k : σ.Knows τ) : s.Head τ v := by
  cases s with
  | pulled c =>
    obtain ⟨t, h⟩ := h
    exact ⟨t, k.cells h⟩
  | _ => exact h

theorem Head.occupied {v : Value} (h : s.Head σ v) : s.Occupied σ := by
  cases s with
  | nil => exact h.elim
  | cons n w t => trivial
  | lazy n w t => trivial
  | view q i _ => exact h.1
  | pulled c =>
    obtain ⟨t, h⟩ := h
    exact ⟨_, h⟩

theorem Next.later (h : s.Next σ t) (k : σ.Knows τ) : s.Next τ t := by
  cases s with
  | lazy n v i => exact k.tails h
  | pulled c =>
    rcases h with ⟨v, h⟩ | ⟨h, rfl⟩
    · exact .inl ⟨v, k.cells h⟩
    · exact .inr ⟨k.cells h, rfl⟩
  | _ => exact h

theorem Occupied.not_vacant (h : s.Occupied σ) : ¬s.Vacant σ := by
  intro h'
  cases s with
  | nil => exact h
  | cons n v t => exact h'
  | lazy n v t => exact h'
  | view q i _ =>
    rw [Vacant, show viewIsEmpty q i = false from h] at h'
    cases h'
  | pulled c =>
    obtain ⟨v, h⟩ := h
    cases h.unique h'

theorem Next.unique {t' : Stream Value} (h : s.Next σ t) (h' : s.Next σ t') : t = t' := by
  cases s with
  | lazy n v i =>
    cases Memo.KnownAs.unique h h'
    rfl
  | pulled c =>
    rcases h with ⟨v, h⟩ | ⟨h, rfl⟩ <;> rcases h' with ⟨w, h'⟩ | ⟨h', rfl⟩ <;>
      cases h.unique h' <;> rfl
  | _ => exact Eq.trans h (Eq.symm h')

end Stream

/-! ## Asking -/

section

variable {n : Nat}

theorem known_of_force_tail {i : TailId} {t : Option (Stream Value)}
    (h : forceWithin n (.tail i) σ = .ok t τ) : Memo.KnownAs τ.tails i.index t := by
  cases n with
  | zero => cases h
  | succ n =>
    exact Shelf.lawful_tails.known_get (fun t => (composed_compute t).grows (within_grow n)) h

theorem known_of_force_cell {i : CellId} {c : Option (Value × Stream Value)}
    (h : forceWithin n (.cell i) σ = .ok c τ) : Memo.KnownAs τ.cells i.index c := by
  cases n with
  | zero => cases h
  | succ n =>
    exact Shelf.lawful_cells.known_get (fun it => (composed_pull it).grows (within_grow n)) h

theorem force_tail_of_known {i : TailId} {t : Option (Stream Value)}
    (h : Memo.KnownAs σ.tails i.index t) : forceWithin (n + 1) (.tail i) σ = .ok t σ := by
  obtain ⟨x, hx, hs⟩ := h
  simp [forceWithin, Shelf.get, Shelf.tails, hx, hs]

theorem force_cell_of_known {i : CellId} {c : Option (Value × Stream Value)}
    (h : Memo.KnownAs σ.cells i.index c) : forceWithin (n + 1) (.cell i) σ = .ok c σ := by
  obtain ⟨x, hx, hs⟩ := h
  simp [forceWithin, Shelf.get, Shelf.cells, hx, hs]

variable {s t : Stream Value}

/-- A stream that has been looked at is known to be empty or not. -/
theorem known_of_isEmpty {b : Bool} (h : s.isEmpty (.within n) σ = .ok b τ) :
    if b then s.Vacant τ else s.Occupied τ := by
  cases s with
  | pulled c =>
    obtain ⟨found, σ₁, e, h⟩ := ok_of_bind h
    have k := known_of_force_cell e
    cases found with
    | none =>
      cases h
      exact k
    | some v =>
      cases h
      exact ⟨v, k⟩
  | view q i h' =>
    cases h
    cases hv : Stream.viewIsEmpty q i <;> simp [Stream.Vacant, Stream.Occupied, hv]
  | _ =>
    cases h
    simp [Stream.Vacant, Stream.Occupied]

/-- The first element that has been asked for is known. -/
theorem head_of_first {v : Value} (h : s.first (.within n) σ = .ok v τ) : s.Head τ v := by
  cases s with
  | nil => cases h
  | cons m w t =>
    cases h
    rfl
  | lazy m w t =>
    cases h
    rfl
  | view q i _ =>
    rw [Stream.first] at h
    cases hv : Stream.viewIsEmpty q i with
    | true =>
      rw [hv] at h
      cases h
    | false =>
      rw [hv, if_neg Bool.false_ne_true] at h
      cases hg : q.get? i with
      | none =>
        rw [hg] at h
        cases h
      | some w =>
        rw [hg] at h
        cases h
        exact ⟨hv, hg⟩
  | pulled c =>
    obtain ⟨found, σ₁, e, h⟩ := ok_of_bind h
    have k := known_of_force_cell e
    cases found with
    | none => cases h
    | some x =>
      cases h
      exact ⟨x.2, k⟩

/-- The rest that has been asked for is known. -/
theorem next_of_rest (h : s.rest (.within n) σ = .ok t τ) : s.Next τ t := by
  cases s with
  | lazy m v i =>
    obtain ⟨found, σ₁, e, h⟩ := ok_of_bind h
    have k := known_of_force_tail e
    cases found with
    | none => cases h
    | some s =>
      cases h
      exact k
  | pulled c =>
    obtain ⟨found, σ₁, e, h⟩ := ok_of_bind h
    have k := known_of_force_cell e
    cases found with
    | none =>
      cases h
      exact .inr ⟨k, rfl⟩
    | some v =>
      cases h
      exact .inl ⟨v.1, k⟩
  | _ =>
    cases h
    rfl

/-- Behind the first token of a plain state is the rest of its input. -/
theorem next_of_advance {w : Bool} {p : Int} {u : Value} {t' : State Value}
    (h : (State.plain w s p u).advance (.within n) σ = .ok t' τ) :
    ∃ t, t' = .plain w t (p + 1) u ∧ s.Next τ t := by
  simp only [State.advance, State.input, Eval.run_bind] at h
  split at h
  · next t σ₁ e =>
    cases h
    exact ⟨t, rfl, next_of_rest e⟩
  · cases h

/-- A first element that is known is found without computing anything. -/
theorem first_of_head {v : Value} (h : s.Head σ v) : s.first (.within (n + 1)) σ = .ok v σ := by
  cases s with
  | nil => exact h.elim
  | cons m w t =>
    cases h
    rfl
  | lazy m w t =>
    cases h
    rfl
  | view q i _ =>
    obtain ⟨hv, hg⟩ := h
    rw [Stream.first, hv, if_neg Bool.false_ne_true, hg]
    rfl
  | pulled c =>
    obtain ⟨t, h⟩ := h
    simp only [Stream.first, Eval.run_bind, Eval.run_force]
    rw [show (Means.within (n + 1)).force (.cell c) σ = _ from force_cell_of_known h]
    rfl

/-- A rest that is known is found without computing anything. -/
theorem rest_of_next (h : s.Next σ t) : s.rest (.within (n + 1)) σ = .ok t σ := by
  cases s with
  | lazy m v i =>
    simp only [Stream.rest, Eval.run_bind, Eval.run_force]
    rw [show (Means.within (n + 1)).force (.tail i) σ = .ok (some t) σ from force_tail_of_known h]
    rfl
  | pulled c =>
    simp only [Stream.rest, Eval.run_bind, Eval.run_force]
    rcases h with ⟨v, h⟩ | ⟨h, rfl⟩
    · rw [show (Means.within (n + 1)).force (.cell c) σ = _ from force_cell_of_known h]
      rfl
    · rw [show (Means.within (n + 1)).force (.cell c) σ = _ from force_cell_of_known h]
      rfl
  | _ =>
    cases h
    rfl

/-- Nothing is computed where it is known that a stream is empty. -/
theorem isEmpty_of_vacant (h : s.Vacant σ) : s.isEmpty (.within (n + 1)) σ = .ok true σ := by
  cases s with
  | nil => rfl
  | cons m v t => exact h.elim
  | lazy m v t => exact h.elim
  | view q i _ =>
    rw [Stream.isEmpty, show Stream.viewIsEmpty q i = true from h]
    rfl
  | pulled c =>
    simp only [Stream.isEmpty, Eval.run_bind, Eval.run_force]
    rw [show (Means.within (n + 1)).force (.cell c) σ = _ from force_cell_of_known h]
    rfl

/-- Nor where it is known that there are elements. -/
theorem isEmpty_of_occupied (h : s.Occupied σ) :
    s.isEmpty (.within (n + 1)) σ = .ok false σ := by
  cases s with
  | nil => exact h.elim
  | cons m v t => rfl
  | lazy m v t => rfl
  | view q i _ =>
    rw [Stream.isEmpty, show Stream.viewIsEmpty q i = false from h]
    rfl
  | pulled c =>
    obtain ⟨v, h⟩ := h
    simp only [Stream.isEmpty, Eval.run_bind, Eval.run_force]
    rw [show (Means.within (n + 1)).force (.cell c) σ = _ from force_cell_of_known h]
    rfl

end

end ResumableParsing
