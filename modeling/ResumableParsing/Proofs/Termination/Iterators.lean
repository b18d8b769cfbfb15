import ResumableParsing.Proofs.Termination.Lasting

/-!
# Iterators that end

The elements of an iterator are taken one by one, each when somebody looks at it for the first time.
If there are only so many of them, whatever becomes of the world, then the stream of its elements is
finite. Others may take elements from the same iterator in between, so this has to be kept by all
computations.

* `Iterator.AtMost`: at most so many elements of a kind can be taken
* `CellId.AtMost`: at most so many elements of a kind can be read
* `CellId.AtMost.later`: no computation makes them more
* `CellId.AtMost.finite`: the stream is finite
-/

namespace ResumableParsing

variable {W : Type}

/-! ## Elements that are left -/

/-- At most `n` more elements can be taken from the iterator, whatever becomes of the world. They
are of the kind `A`, and the iterator raises nothing. Walks along streams are left out. -/
def Iterator.AtMost (A : Value → Prop) (n : Nat) : Iterator W → Prop
  | .caller answer asked => (∀ k ≥ asked, ∀ w f, (answer k w).1 ≠ .failed f) ∧
      (∀ k ≥ asked, ∀ w v, (answer k w).1 = .item v → A v) ∧
      ∀ k ≥ asked + n, ∀ w, (answer k w).1 = .finished
  | .items q i => (∀ k ≥ i, ∀ v, q.items.get? k = some v → A v) ∧
      ∀ k ≥ i + n, q.items.get? k = none
  | .walk .. => False
  | .spent => True

/-- At most `n` elements can be read from the cell on, and they are of the kind `A`. -/
inductive CellId.AtMost (A : Value → Prop) (σ : Store W) : Nat → CellId → Prop where
  /-- The cell has not been looked at. -/
  | waiting {n : Nat} {c : CellId} {i : IteratorId} {it : Iterator W} :
      σ.cells[c.index]? = some ⟨i, .unset⟩ → σ.iterators[i.index]? = some it → it.AtMost A n →
      AtMost A σ n c
  /-- There was no element. -/
  | ended {n : Nat} {c : CellId} {i : IteratorId} :
      σ.cells[c.index]? = some ⟨i, .known none⟩ → AtMost A σ n c
  /-- There was an element. -/
  | read {n : Nat} {c d : CellId} {i : IteratorId} {v : Value} :
      σ.cells[c.index]? = some ⟨i, .known (some (v, .pulled d))⟩ → A v → AtMost A σ n d →
      AtMost A σ (n + 1) c

section

variable {A : Value → Prop} {σ τ : Store W} {n : Nat} {c d : CellId} {it : IteratorId}
  {x y : Iterator W}

theorem Iterator.AtMost.leaves (h : x.AtMost A n) (hl : x.Leaves y) : y.AtMost A n := by
  cases x with
  | caller answer asked =>
    cases y with
    | caller answer' asked' =>
      obtain ⟨rfl, le⟩ := hl
      obtain ⟨raises, kind, ends⟩ := h
      exact ⟨fun k hk => raises k (by omega), fun k hk => kind k (by omega),
        fun k hk => ends k (by omega)⟩
    | _ => exact hl.elim
  | items q i =>
    cases y with
    | items q' j =>
      obtain ⟨rfl, le⟩ := hl
      exact ⟨fun k hk => h.1 k (by omega), fun k hk => h.2 k (by omega)⟩
    | _ => exact hl.elim
  | walk s given => exact h.elim
  | spent =>
    cases y with
    | spent => trivial
    | _ => exact hl.elim

/-- Asking such an iterator for an element. -/
theorem next_of_atMost (hi : σ.iterators[it.index]? = some x) (hx : x.AtMost A n) :
    ∃ v τ, (∀ m, it.next m σ = .ok v τ) ∧ τ.cells = σ.cells ∧
      (v = none ∨ ∃ k y w, n = k + 1 ∧ v = some w ∧ A w ∧
        τ.iterators[it.index]? = some y ∧ y.AtMost A k) := by
  have moved : (σ.iterators.modify it.index Iterator.moved)[it.index]? = some x.moved := by
    rw [Array.getElem?_modify, if_pos rfl, hi]
    rfl
  cases x with
  | walk s given => exact hx.elim
  | spent =>
    refine ⟨none, { σ with iterators := σ.iterators.modify it.index .moved }, ?_, rfl, .inl rfl⟩
    simp [IteratorId.next, IteratorId.alter, hi]
  | items q i =>
    obtain ⟨kind, ends⟩ := hx
    refine ⟨q.items.get? i, { σ with iterators := σ.iterators.modify it.index .moved }, ?_, rfl, ?_⟩
    · simp [IteratorId.next, IteratorId.alter, hi]
    · cases found : q.items.get? i with
      | none => exact .inl rfl
      | some v =>
        obtain ⟨n, rfl⟩ : ∃ k, n = k + 1 := by
          cases n with
          | zero =>
            rw [ends i (Nat.le_refl i)] at found
            cases found
          | succ n => exact ⟨n, rfl⟩
        exact .inr ⟨n, _, v, rfl, rfl, kind i (Nat.le_refl i) v found, moved,
          fun k hk => kind k (by omega), fun k hk => ends k (by omega)⟩
  | caller answer asked =>
    obtain ⟨raises, kind, ends⟩ := hx
    -- Whatever the answer is, the iterator has been asked once more.
    have next (v : Option Value) (hv : (answer asked σ.world).1 = v.elim .finished .item)
        (m : Means W) : it.next m σ = .ok v { σ with
          iterators := σ.iterators.modify it.index .moved
          world := (answer asked σ.world).2 } := by
      cases v <;> simp_all [IteratorId.next, IteratorId.alter]
    cases he : (answer asked σ.world).1 with
    | failed f => exact absurd he (raises asked (Nat.le_refl _) _ f)
    | finished => exact ⟨none, _, next none he, rfl, .inl rfl⟩
    | item v =>
      refine ⟨some v, _, next (some v) he, rfl, .inr ?_⟩
      cases n with
      | zero =>
        rw [ends asked (by omega)] at he
        cases he
      | succ n =>
        exact ⟨n, _, v, rfl, rfl, kind asked (Nat.le_refl _) _ v he, moved,
          fun k hk => raises k (by omega), fun k hk => kind k (by omega),
          fun k hk => ends k (by omega)⟩

/-- What follows the element is a new cell of the same iterator. -/
theorem pull_of_atMost (hi : σ.iterators[it.index]? = some x) (hx : x.AtMost A n) :
    ∃ a τ, (∀ m, it.pull m σ = .ok a τ) ∧
      (a = none ∧ τ.cells = σ.cells ∨
        ∃ k v y, n = k + 1 ∧ a = some (v, .pulled ⟨σ.cells.size⟩) ∧ A v ∧
          τ.cells = σ.cells.push ⟨it, .unset⟩ ∧ τ.iterators[it.index]? = some y ∧
          y.AtMost A k) := by
  obtain ⟨_, τ, next, cells, rfl | ⟨k, y, v, rfl, rfl, hv, hy, hk⟩⟩ := next_of_atMost hi hx
  · refine ⟨none, τ, fun m => ?_, .inl ⟨rfl, cells⟩⟩
    rw [IteratorId.pull, Eval.run_bind, next m]
    rfl
  · refine ⟨some (v, .pulled ⟨σ.cells.size⟩), { τ with cells := τ.cells.push ⟨it, .unset⟩ },
      fun m => ?_, .inr ⟨k, v, y, rfl, rfl, hv, by rw [cells], hy, hk⟩⟩
    rw [IteratorId.pull, Eval.run_bind, next m, ← cells]
    rfl

/-- Looking into a cell. -/
theorem force_of_atMost (h : c.AtMost A σ n) : ∃ a τ,
    (∀ b, forceWithin (b + 1) (.cell c) σ = .ok a τ) ∧ c.AtMost A τ n ∧
      (a = none ∨ ∃ k v d, n = k + 1 ∧ a = some (v, .pulled d) ∧ A v ∧ d.AtMost A τ k) := by
  cases h with
  | ended hc => exact ⟨none, σ, fun b => force_cell_of_known ⟨_, hc, rfl⟩, .ended hc, .inl rfl⟩
  | @read n _ d i v hc hv hd =>
    exact ⟨_, σ, fun b => force_cell_of_known ⟨_, hc, rfl⟩, .read hc hv hd,
      .inr ⟨n, v, d, rfl, rfl, hv, hd⟩⟩
  | @waiting _ _ i x hc hi hx =>
    obtain ⟨a, τ, pull, left⟩ :=
      pull_of_atMost (σ := Shelf.cells.put c.index .busy σ) hi hx
    have found : Shelf.cells.find c.index σ = some ⟨i, .unset⟩ := hc
    have busy : (Shelf.cells.put c.index .busy σ).cells[c.index]? = some ⟨i, .busy⟩ := by
      rw [find_put_cell, if_pos rfl, hc]
      rfl
    have size := (Array.getElem?_eq_some_iff.mp busy).1
    refine ⟨a, Shelf.cells.put c.index (.known a) τ, fun b => ?_, ?_⟩
    · simp [forceWithin, Shelf.get, found, pull]
    · obtain ⟨rfl, cells⟩ | ⟨k, v, y, rfl, rfl, hv, cells, hy, hk⟩ := left
      · refine ⟨.ended (i := i) ?_, .inl rfl⟩
        rw [find_put_cell, if_pos rfl, cells, busy]
        rfl
      · have rest : CellId.AtMost A (Shelf.cells.put c.index
            (.known (some (v, .pulled ⟨(Shelf.cells.put c.index .busy σ).cells.size⟩))) τ) k
            ⟨(Shelf.cells.put c.index .busy σ).cells.size⟩ := by
          refine .waiting (i := i) ?_ hy hk
          refine (Memo.putSlot_other τ.cells (by dsimp only; omega) _).trans ?_
          rw [cells]
          exact Array.getElem?_push_size
        refine ⟨.read (i := i) (v := v) ?_ hv rest, .inr ⟨k, v, _, rfl, rfl, hv, rest⟩⟩
        rw [find_put_cell, if_pos rfl, cells, getElem?_push_of_eq_some busy]
        rfl

/-! ## All computations -/

theorem CellId.AtMost.adds (h : c.AtMost A σ n) (k : σ.Adds τ) : c.AtMost A τ n := by
  induction h with
  | waiting h h' hx =>
    obtain ⟨y, hy, leaves⟩ := k.taken _ _ h'
    exact .waiting (k.sameCells _ _ h) hy (hx.leaves leaves)
  | ended h => exact .ended (k.sameCells _ _ h)
  | read h hv _ ih => exact .read (k.sameCells _ _ h) hv ih

/-- A cell of which something else is known is not the one that is marked. -/
theorem cells_mark_of_slot {d : Deferred} {s : Slot d.Content}
    {slot : Slot (Option (Value × Stream Value))} (hc : σ.cells[c.index]? = some ⟨it, slot⟩)
    (other : d = .cell c → σ.slot (.cell c) ≠ slot) :
    (σ.mark d s).cells[c.index]? = some ⟨it, slot⟩ := by
  have here : σ.slot (.cell c) = slot :=
    Store.slot_of_part (x := it.pull) (by simp [Store.part?, hc])
  rw [σ.cells_mark_other s fun same => other same here]
  exact hc

theorem Store.iterators_mark (σ : Store W) (d : Deferred) (s : Slot d.Content) :
    (σ.mark d s).iterators = σ.iterators := by cases d <;> rfl

/-- A cell that is being looked at is none of these. -/
theorem CellId.AtMost.mark (h : c.AtMost A σ n) {d : Deferred} (s : Slot d.Content)
    (busy : σ.slot d = .busy) : c.AtMost A (σ.mark d s) n := by
  have other {c : CellId} {slot : Slot (Option (Value × Stream Value))} (hs : slot ≠ .busy) :
      d = .cell c → σ.slot (.cell c) ≠ slot := by
    rintro rfl same
    exact hs (same.symm.trans busy)
  induction h with
  | waiting h h' hx =>
    exact .waiting (cells_mark_of_slot h (other (by simp))) (σ.iterators_mark d s ▸ h') hx
  | ended h => exact .ended (cells_mark_of_slot h (other (by simp)))
  | read h hv _ ih => exact .read (cells_mark_of_slot h (other (by simp))) hv ih

/-- Where another cell is looked at, this one is left alone. Looking into a cell leaves as many
elements as there were. -/
theorem CellId.AtMost.ask (h : c.AtMost A σ n) {d : Deferred} {x : Eval W d.Content}
    (unset : σ.part? d = some ⟨x, .unset⟩) : c.AtMost A (σ.mark d .busy) n ∨
      ∀ b, c.AtMost A (left (forceWithin (b + 1) d σ)) n := by
  have other {c : CellId} {a : Option (Value × Stream Value)} :
      d = .cell c → σ.slot (.cell c) ≠ .known a := by
    rintro rfl same
    cases (Store.slot_of_part unset).symm.trans same
  induction h with
  | @waiting n c i y hc hi hy =>
    by_cases same : d = .cell c
    · subst same
      obtain ⟨a, τ, looks, left, -⟩ := force_of_atMost (.waiting hc hi hy)
      refine .inr fun b => ?_
      rw [looks b]
      exact left
    · have kept := cells_mark_of_slot (s := .busy) hc fun this => absurd this same
      exact .inl (.waiting kept (σ.iterators_mark d .busy ▸ hi) hy)
  | ended hc => exact .inl (.ended (cells_mark_of_slot hc other))
  | read hc hv _ ih =>
    obtain marked | asked := ih
    · exact .inl (.read (cells_mark_of_slot hc other) hv marked)
    · refine .inr fun b => ?_
      obtain ⟨⟨j, slot⟩, found, ht, same⟩ := (force_grow (b + 1) d σ).cells _ _ hc
      obtain rfl : slot = _ := same.resolve_left (by simp)
      exact .read found hv (asked b)

/-- No computation makes them more. -/
theorem CellId.AtMost.later (h : c.AtMost A σ n) (k : σ.Evolves τ) : c.AtMost A τ n := by
  have lasting : Store.Lasting fun σ : Store W => c.AtMost A σ n :=
    ⟨adds, fun s h => h.mark s, fun h => h.ask⟩
  exact lasting.later h k

/-! ## Finite streams -/

/-- The stream of such a cell is finite. -/
theorem CellId.AtMost.finite (h : c.AtMost A σ n) : (Stream.pulled c).Finite (fun _ => A) n σ := by
  have looks {σ : Store W} {n : Nat} {c : CellId} (h : c.AtMost A σ n) : ∃ a τ,
      (Eval.force (.cell c)).Comes σ (.ok a τ) ∧
        (a = none ∨ ∃ k v d, n = k + 1 ∧ a = some (v, .pulled d) ∧ A v ∧ d.AtMost A τ k) := by
    obtain ⟨a, τ, looks, -, left⟩ := force_of_atMost h
    refine ⟨a, τ, ⟨not_exhausted_ok, 1, fun b hb => ?_⟩, left⟩
    obtain ⟨b, rfl⟩ : ∃ k, b = k + 1 := ⟨b - 1, by omega⟩
    exact looks b
  induction n generalizing c σ with
  | zero =>
    intro τ k
    obtain ⟨a, υ, look, rfl | ⟨k, v, d, h, -⟩⟩ := looks (h.later k)
    · exact ⟨υ, comes_bind_ok look (comes_pure _ υ)⟩
    · cases h
  | succ n ih =>
    intro τ k
    obtain ⟨a, υ, look, rfl | ⟨_, v, d, ⟨⟩, rfl, hv, hd⟩⟩ := looks (h.later k)
    · exact .inl ⟨υ, comes_bind_ok look (comes_pure _ υ)⟩
    · refine .inr ⟨⟨υ, ?_⟩, ⟨v, υ, ?_, hv⟩, .pulled d, υ, ?_, ih hd⟩
      · exact comes_bind_ok look (comes_pure _ υ)
      · exact comes_bind_ok look (comes_pure _ υ)
      · exact comes_bind_ok look (comes_pure _ υ)

end

end ResumableParsing
