import ResumableParsing.Proofs.Stream.Known

/-!
# Finite token sequences

Streams whose elements are all there: cells with known tails, and views of finished sequences.
Reading them computes nothing.

* `Stream.Spells`: the stream holds exactly these elements
* `Stream.Spells.isEmpty`, `Stream.Spells.first`, `Stream.Spells.rest`: reading it
* `Stream.Spells.view_of_get`: views of texts, lists and so on
-/

namespace ResumableParsing

variable {W : Type}

/-- The stream holds exactly these elements, and nothing has to be computed to read them. -/
inductive Stream.Spells : Stream Value → List Value → Prop where
  /-- The empty stream. -/
  | nil : Spells .nil []
  /-- A cell with a known tail. -/
  | cons {n : Nat} {v : Value} {s : Stream Value} {vs : List Value} :
      Spells s vs → Spells (.cons n v s) (v :: vs)
  /-- A view with nothing left. -/
  | stop {q : Sequence Value} {i : Int} {h : Option Nat} :
      viewIsEmpty q i = true → Spells (.view q i h) []
  /-- A view with an element. -/
  | view {q : Sequence Value} {i : Int} {h : Option Nat} {v : Value} {vs : List Value} :
      viewIsEmpty q i = false → q.get? i = some v → Spells (.view q (i + 1) none) vs →
      Spells (.view q i h) (v :: vs)

namespace Stream.Spells

variable {s : Stream Value} {v : Value} {vs : List Value}

theorem isEmpty (h : s.Spells vs) (m : Means W) (σ : Store W) :
    s.isEmpty m σ = .ok vs.isEmpty σ := by
  cases h with
  | nil => rfl
  | cons h => rfl
  | stop h =>
    rw [Stream.isEmpty, h]
    rfl
  | view h hv ht =>
    rw [Stream.isEmpty, h]
    rfl

theorem first (h : s.Spells (v :: vs)) (m : Means W) (σ : Store W) : s.first m σ = .ok v σ := by
  cases h with
  | cons h => rfl
  | view h hv ht => simp [Stream.first, h, hv]

theorem rest (h : s.Spells (v :: vs)) : ∃ t : Stream Value, t.Spells vs ∧
    (∀ (m : Means W) (σ : Store W), s.rest m σ = .ok t σ) ∧ ∀ σ : Store W, s.Next σ t := by
  cases h with
  | cons h => exact ⟨_, h, fun m σ => rfl, fun σ => rfl⟩
  | view h hv ht =>
    refine ⟨_, ht, fun m σ => ?_, fun σ => ?_⟩
    · rw [Stream.rest, h]
      rfl
    · rw [Stream.Next, h]
      rfl

theorem next (h : s.Spells (v :: vs)) {σ : Store W} {t : Stream Value} (ht : s.Next σ t) :
    t.Spells vs := by
  obtain ⟨u, hu, -, next⟩ := h.rest (W := W)
  rwa [ht.unique (next σ)]

theorem nil_of_vacant (h : s.Spells vs) {σ : Store W} (hv : s.Vacant σ) : vs = [] := by
  cases h with
  | nil => rfl
  | cons h => exact hv.elim
  | stop h => rfl
  | view h hv' ht =>
    rw [Stream.Vacant, h] at hv
    cases hv

theorem ne_nil_of_occupied (h : s.Spells vs) {σ : Store W} (ho : s.Occupied σ) : vs ≠ [] := by
  cases h with
  | nil => exact ho.elim
  | cons h => exact List.cons_ne_nil _ _
  | stop h =>
    rw [Stream.Occupied, h] at ho
    cases ho
  | view h hv' ht => exact List.cons_ne_nil _ _

/-- A stream is empty or it is not. -/
theorem nil_of_empty (h : s.Spells vs) (empty : s.Spells []) : vs = [] := by
  cases empty with
  | nil =>
    cases h
    rfl
  | stop stop =>
    cases h with
    | stop _ => rfl
    | view more _ _ =>
      rw [stop] at more
      cases more

/-- A view of a finished sequence holds its elements from an index on. -/
theorem view_of_get {q : Sequence Value} {i : Nat} {h : Option Nat}
    (size : q.size = i + vs.length) (get : ∀ k v, vs[k]? = some v → q.items.get? (i + k) = some v) :
    (Stream.view q i h).Spells vs := by
  induction vs generalizing i h with
  | nil =>
    refine .stop ?_
    rw [viewIsEmpty, size]
    simp
  | cons v vs ih =>
    have head : q.items.get? i = some v := get 0 v rfl
    refine .view ?_ ?_ (ih (i := i + 1) ?_ fun k u hu => ?_)
    · rw [viewIsEmpty, size, List.length_cons, decide_eq_false_iff_not]
      omega
    · rw [Sequence.get?, if_pos (by omega)]
      exact head
    · rw [size, List.length_cons]
      omega
    · rw [← get (k + 1) u hu]
      congr 1
      omega

end Stream.Spells

end ResumableParsing
