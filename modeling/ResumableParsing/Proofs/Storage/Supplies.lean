import ResumableParsing.Proofs.Storage.Elements

/-!
# What streams supply

Whatever a stream supplies is found when it is read, and so it supplies nothing else. Each way to
make a stream supplies the elements that it is made of.

* `Stream.Supplies.take`, `Stream.Supplies.unique`: what is read
* `Stream.supplies_view`: views
* `Stream.comes_suppliedCell`, `Stream.comes_suppliedAppend`, `Source.comes_fromIterable`: streams
  that are made
-/

namespace ResumableParsing

variable {W : Type} {σ : Store W} {s : Stream Value} {x y z : Elements} {r d : Nat}

/-! ## Reading many elements -/

namespace Contents

variable {κ : Contents} {busy : Deferred → Prop}

/-- Reading the first elements finds them. -/
theorem finds_take (n : Nat) (done : List Value) (above : κ.Above busy r) (h : κ.Holds r s x) :
    κ.Finds busy (Stream.takeFrom (W := W) n done s) fun _ vs => vs = done.reverse ++ x.take n := by
  induction n generalizing κ s x done with
  | zero => exact finds_pure fun _ _ => by simp
  | succ n ih =>
    rw [Stream.takeFrom]
    have readable := reads W r κ busy s x above h
    refine finds_bind readable.isEmpty fun κ₁ empty hle hempty => ?_
    cases x using Stream'.Seq.recOn with
    | nil =>
      rw [hempty.mpr rfl, if_pos rfl]
      exact finds_pure fun _ _ => by simp
    | cons v y =>
      rw [if_neg fun h => Stream'.Seq.cons_ne_nil (hempty.mp h)]
      refine finds_bind ((readable.first v y rfl).mono hle) fun κ₂ u hle' hu => ?_
      subst hu
      split
      · next hn =>
        subst hn
        exact finds_pure fun _ _ => by simp
      · have hle := hle.trans hle'
        refine finds_bind ((readable.rest u y rfl).mono hle) fun κ₃ t hle'' ht => ?_
        refine (ih (u :: done) (above.mono (hle.trans hle'') (Nat.le_refl r)) ht).imp ?_
        rintro _ _ - rfl
        simp

/-- The contents of no deferred parts. -/
def empty : Contents := ⟨fun _ => none, fun _ => none⟩

theorem Fits.empty (σ : Store W) : empty.Fits (fun _ => False) σ where
  tails _ _ _ h := by cases h
  cells _ _ _ h := by cases h
  alone _ _ _ h := by cases h.spoken

/-- Nothing is being computed. -/
theorem above_none (κ : Contents) (r : Nat) : κ.Above (fun _ => False) r := fun _ h => h.elim

/-- Then every stream is read as the contents tell. -/
theorem Holds.readable (h : κ.Holds r s x) : Readable W κ (fun _ => False) r s x :=
  reads W r κ _ s x (κ.above_none r) h

end Contents

/-- The first elements of a stream are those that it supplies. -/
theorem Stream.Supplies.take (h : s.Supplies σ x) (n : Nat) :
    ∃ σ', (s.take n).Comes σ (.ok (x.take n) σ') := by
  obtain ⟨κ, r, fits, holds⟩ := h
  obtain ⟨vs, κ', σ', comes, -, -, rfl⟩ :=
    Contents.finds_take n [] (κ.above_none r) holds κ σ (.refl κ) fits
  exact ⟨σ', comes⟩

/-- A stream supplies one sequence of elements only. -/
theorem Stream.Supplies.unique (h : s.Supplies σ x) (h' : s.Supplies σ y) : x = y := by
  apply Stream'.Seq.ext
  intro n
  obtain ⟨σ₁, comes⟩ := h.take (n + 1)
  obtain ⟨σ₂, comes'⟩ := h'.take (n + 1)
  have same : x.take (n + 1) = y.take (n + 1) := by
    have same := comes.unique comes'
    simp only [EStateM.Result.ok.injEq] at same
    exact same.1
  have here := congrArg (·[n]?) same
  simpa [Stream'.Seq.getElem?_take] using here

/-! ## Streams that are there -/

/-- A view supplies the elements of its sequence from its index on. -/
theorem Stream.supplies_view {q : Sequence Value} {i : Int} (hi : 0 ≤ i)
    (h : ∀ n : Nat, x.get? n = q.get? (i + n)) (handle : Option Nat) (σ : Store W) :
    (Stream.view q i handle).Supplies σ x :=
  ⟨.empty, 0, .empty σ, .view hi h⟩

/-! ## Streams that are made -/

/-- A lazy cell supplies its head and what is computed for its tail. -/
theorem Stream.comes_suppliedCell {κ : Contents} (fits : κ.Fits (fun _ => False) σ)
    {a : Action W (Stream Value)} (h : κ.Makes d a x) (v : Value) :
    ∃ t σ', (Stream.lazyCell v (.action a)).Comes σ (.ok t σ') ∧ t.Supplies σ' (.cons v x) := by
  obtain ⟨t, κ', σ', comes, -, fits, holds⟩ :=
    Contents.finds_lazyCell (.action h) v κ σ (.refl κ) fits
  exact ⟨t, σ', comes, κ', _, fits, holds⟩

/-- One stream after another supplies the elements of both. -/
theorem Stream.comes_suppliedAppend {κ : Contents} (fits : κ.Fits (fun _ => False) σ)
    {a b : Stream Value} (ha : κ.Holds r a y) (hb : κ.Holds r b z) :
    ∃ t σ', (a.append b).Comes σ (.ok t σ') ∧ t.Supplies σ' (y.append z) := by
  obtain ⟨t, κ', σ', comes, -, fits, holds⟩ :=
    Contents.finds_append (Contents.reads W r)
      (κ.above_none r) ha (hb.mono (.refl κ) (Nat.le_succ r))
      κ σ (.refl κ) fits
  exact ⟨t, σ', comes, κ', _, fits, holds⟩

/-- The stream of an iterable supplies what its iterator gives, taken one by one. -/
theorem Source.comes_fromIterable {it : IteratorId} {answer : Nat → W → Pull × W} {asked : Nat}
    (hi : σ.iterators[it.index]? = some (.caller answer asked)) (h : Provides answer asked x) :
    ∃ t σ', (Source.fromIterable (.iterator it)).Comes σ (.ok t σ') ∧ t.Supplies σ' x := by
  obtain ⟨t, κ, σ', comes, -, fits, holds⟩ :=
    Contents.comes_ofIterator (d := 0) (.empty σ) hi (.caller h) fun c ho => by cases ho.spoken
  exact ⟨t, σ', comes, κ, 1, fits, holds⟩

end ResumableParsing
