import ResumableParsing.Value.Basic

/-!
# Values up to the identity of their cells

Each cell and each view of a sequence carries a number of its own, so parsing the same tokens twice
gives streams that are told apart. Such values are alike: they are put together in the same way, and
differ in these numbers alone.

* `Value.Like`: values that are put together in the same way
* `Value.beside`: what the results of two parsers in sequence are grouped into
-/

namespace ResumableParsing

/-! ## Likeness -/

/-- The values are put together in the same way. Values with the property `I` are like themselves,
and deferred tails that `T` pairs are like one another. -/
inductive Value.Like (I : Value → Prop) (T : TailId → TailId → Prop) : Value → Value → Prop where
  | same {v : Value} : I v → Like I T v v
  | list {xs ys : List Value} : xs.length = ys.length → (∀ p ∈ xs.zip ys, Like I T p.1 p.2) →
      Like I T (.list xs) (.list ys)
  | tuple {xs ys : List Value} : xs.length = ys.length → (∀ p ∈ xs.zip ys, Like I T p.1 p.2) →
      Like I T (.tuple xs) (.tuple ys)
  | group {xs ys : List Value} : xs.length = ys.length → (∀ p ∈ xs.zip ys, Like I T p.1 p.2) →
      Like I T (.group xs) (.group ys)
  | dict {xs ys : List (Value × Value)} : xs.length = ys.length →
      (∀ p ∈ xs.zip ys, Like I T p.1.1 p.2.1) → (∀ p ∈ xs.zip ys, Like I T p.1.2 p.2.2) →
      Like I T (.dict xs) (.dict ys)
  | ignored {v w : Value} : Like I T v w → Like I T (.ignored v) (.ignored w)
  | token {m n v w : Value} : Like I T m n → Like I T v w → Like I T (.token m v) (.token n w)
  | nil : Like I T (.stream .nil) (.stream .nil)
  | cons {m n : Nat} {v w : Value} {s t : Stream Value} : Like I T v w →
      Like I T (.stream s) (.stream t) → Like I T (.stream (.cons m v s)) (.stream (.cons n w t))
  | lazy {m n : Nat} {v w : Value} {i j : TailId} : Like I T v w → T i j →
      Like I T (.stream (.lazy m v i)) (.stream (.lazy n w j))
  | view {p q : Sequence Value} {i : Int} {m n : Option Nat} : p.items = q.items →
      I (.stream (.view p i m)) → Like I T (.stream (.view p i m)) (.stream (.view q i n))

/-- What the results of two parsers in sequence are grouped into: the second one extends the group
of the first one. -/
def Value.beside (v w : Value) : Value :=
  match v with
  | .group vs => .group (vs ++ [w])
  | _ => .group [v, w]

section

variable {I : Value → Prop} {T : TailId → TailId → Prop} {v : Value} {s : Stream Value}

/-- What a stream is like is a stream. -/
theorem Value.Like.stream (h : (Value.stream s).Like I T v) : ∃ t, v = .stream t := by
  cases h with
  | same _ => exact ⟨_, rfl⟩
  | nil => exact ⟨_, rfl⟩
  | cons _ _ => exact ⟨_, rfl⟩
  | lazy _ _ => exact ⟨_, rfl⟩
  | view _ _ => exact ⟨_, rfl⟩

theorem forall_zip_append {α : Type} {R : α → α → Prop} {xs ys : List α} {x y : α}
    (size : xs.length = ys.length) (h : ∀ p ∈ xs.zip ys, R p.1 p.2) (hx : R x y) :
    ∀ p ∈ (xs ++ [x]).zip (ys ++ [y]), R p.1 p.2 := by
  intro p hp
  rw [List.zip_append size] at hp
  rcases List.mem_append.mp hp with hp | hp
  · exact h p hp
  · obtain rfl : p = (x, y) := by simpa using hp
    exact hx

theorem forall_zip_comm {α : Type} {R : α → α → Prop} {xs ys : List α}
    (h : ∀ p ∈ xs.zip ys, R p.2 p.1) : ∀ p ∈ ys.zip xs, R p.1 p.2 := by
  intro p hp
  have hp : p.swap ∈ xs.zip ys := by
    rw [List.mem_iff_getElem] at hp ⊢
    obtain ⟨i, hi, rfl⟩ := hp
    rw [List.length_zip] at hi
    exact ⟨i, by rw [List.length_zip]; omega, by simp⟩
  exact h _ hp

theorem forall_zip_self {α : Type} {R : α → α → Prop} {xs : List α} (hR : ∀ x ∈ xs, R x x) :
    ∀ p ∈ xs.zip xs, R p.1 p.2 := by
  intro p hp
  obtain ⟨i, hi, rfl⟩ := List.mem_iff_getElem.mp hp
  rw [List.getElem_zip]
  exact hR _ (List.getElem_mem _)

end

end ResumableParsing
