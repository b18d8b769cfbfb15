import ResumableParsing.Proofs.Storage.Iterators

/-!
# Reading finds the elements

The deferred parts of a stream are computed from deeper to less deep ones, so what the contents say
of them can be shown by induction on the depth. A view of a sequence is read by its index; the tail
of a lazy cell is kept once it has been computed.

* `Contents.finds_append`: one stream after another
* `Contents.Makes.finds`: computations of the caller
* `Contents.finds_tail`: the tail of a lazy cell
* `Contents.reads`: every stream is read as the contents tell
-/

namespace ResumableParsing

variable {W : Type}

/-! ## Views -/

section

variable {q : Sequence Value} {i : Int} {x : Elements}

/-- A sequence has elements up to its size. -/
theorem Items.get?_eq_none {items : Items Value} {n : Nat} :
    items.get? n = none ↔ items.size ≤ n := by
  cases items with
  | text ps => simp [Items.get?, Items.size]
  | list xs => simp [Items.get?, Items.size]
  | tuple xs => simp [Items.get?, Items.size]
  | octets ns =>
    rw [Items.size, ← Array.getElem?_eq_none_iff]
    cases e : ns[n]? <;> simp [Items.get?, e]
  | range start stop step =>
    rw [Items.get?]
    split <;> simp <;> omega

theorem Sequence.get?_eq_none (h : 0 ≤ i) :
    q.get? i = none ↔ Stream.viewIsEmpty q i = true := by
  rw [Sequence.get?, if_pos h, Items.get?_eq_none, Stream.viewIsEmpty, Sequence.size]
  rw [decide_eq_true_iff]
  omega

theorem view_nil (hi : 0 ≤ i) (h : ∀ n : Nat,
    (Stream'.Seq.nil : Elements).get? n = q.get? (i + n)) :
    Stream.viewIsEmpty q i = true := by
  rw [← Sequence.get?_eq_none hi, ← Int.add_zero i]
  exact (h 0).symm

theorem view_cons {v : Value} (hi : 0 ≤ i)
    (h : ∀ n : Nat, (Stream'.Seq.cons v x).get? n = q.get? (i + n)) :
    Stream.viewIsEmpty q i = false ∧ q.get? i = some v ∧
      ∀ n : Nat, x.get? n = q.get? (i + 1 + n) := by
  have first : q.get? i = some v := by
    rw [← Int.add_zero i]
    exact (h 0).symm
  refine ⟨?_, first, fun n => ?_⟩
  · rw [← Bool.not_eq_true, ← Sequence.get?_eq_none hi, first]
    exact Option.some_ne_none v
  · rw [← Stream'.Seq.get?_cons_succ v x n, h]
    congr 1
    omega

end

namespace Contents

variable {busy : Deferred → Prop} {κ : Contents} {d e r : Nat} {x y z : Elements}

/-! ## Streams after one another -/

theorem finds_append (reads : Reads W e) (above : κ.Above busy e) {a b : Stream Value}
    (ha : κ.Holds e a y) (hb : κ.Holds (e + 1) b z) :
    κ.Finds busy (Stream.append a b : Eval W _) fun κ' t => κ'.Holds (e + 1) t (y.append z) := by
  have readable := reads κ busy a y above ha
  refine finds_bind readable.isEmpty fun κ₁ empty hle hempty => ?_
  cases y using Stream'.Seq.recOn with
  | nil =>
    rw [hempty.mpr rfl, if_pos rfl, Stream'.Seq.nil_append]
    exact finds_pure fun κ' hle' => hb.mono (hle.trans hle') (Nat.le_refl _)
  | cons v y =>
    rw [if_neg fun h => Stream'.Seq.cons_ne_nil (hempty.mp h)]
    refine finds_bind ((readable.first v y rfl).mono hle) fun κ₂ u hle' hu => ?_
    subst hu
    rw [Stream'.Seq.cons_append]
    have hle := hle.trans hle'
    exact finds_lazyCell (.append (ha.mono hle (Nat.le_refl _)) (hb.mono hle (Nat.le_refl _))) _

/-! ## Computations of the caller -/

/-- An iterator is made, and at once a stream of what it gives. -/
theorem finds_newIterator {answer : Nat → W → Pull × W} (h : Provides answer 0 y) :
    κ.Finds busy (do Stream.ofIterator (← IteratorId.make (.caller answer 0)) : Eval W _)
      fun κ' t => κ'.Holds 1 t y := by
  intro κ₁ σ hle fits
  let it : IteratorId := ⟨σ.iterators.size⟩
  let σ₁ : Store W := { σ with iterators := σ.iterators.push (.caller answer 0) }
  have make : (IteratorId.make (.caller answer 0) : Eval W _).Comes σ (.ok it σ₁) :=
    comes_of_forall (fun _ => rfl) not_exhausted_ok
  have old {j : Nat} (hj : j < σ.iterators.size) : σ₁.iterators[j]? = σ.iterators[j]? := by
    rw [Array.getElem?_push_lt hj, Array.getElem?_eq_getElem hj]
  -- Where a cell is to be read from an iterator, that was there before.
  have known {y : Elements} {e : Nat} {m : Memo IteratorId _}
      (right : κ₁.CellRight e σ.iterators y m) (hm : m.slot = .unset) :
      m.thunk.index < σ.iterators.size := by
    cases right with
    | ended => cases hm
    | found => cases hm
    | unset hi => exact (Array.getElem?_eq_some_iff.mp hi).1
  have fits₁ : κ₁.Fits busy σ₁ := by
    refine ⟨fits.tails, fun c y e hc => ?_, fun c c' j ho ho' => ?_⟩
    · obtain ⟨m, hm, right⟩ := fits.cells c y e hc
      exact ⟨m, hm, fun idle => (right idle).mono (.refl κ₁) fun hs => old (known (right idle) hs)⟩
    · exact fits.alone c c' j ⟨ho.spoken, ho.idle, ho.unset⟩ ⟨ho'.spoken, ho'.idle, ho'.unset⟩
  have free (c : CellId) (ho : κ₁.Owns busy σ₁ c it) : False := by
    obtain ⟨⟨y, e⟩, hy⟩ := Option.isSome_iff_exists.mp ho.spoken
    obtain ⟨m, hm, right⟩ := fits.cells c y e hy
    cases hm.symm.trans ho.unset
    exact absurd (known (right ho.idle) rfl) (Nat.lt_irrefl _)
  have new : σ₁.iterators[it.index]? = some (.caller answer 0) := Array.getElem?_push_size
  obtain ⟨t, κ', σ', ht, moves, fits', holds⟩ :=
    comes_ofIterator (d := 0) fits₁ new (.caller h) free
  refine ⟨t, κ', σ', comes_bind_ok make ht, ⟨moves.le, moves.tails, fun j hj _ hn => ?_,
    moves.tailsSize, ?_, moves.rest⟩, fits', holds⟩
  · have here : j.index < σ₁.iterators.size := by simpa [σ₁] using Nat.lt_succ_of_lt hj
    have hne : j ≠ it := by
      rintro rfl
      exact Nat.lt_irrefl _ hj
    obtain ⟨hn', same⟩ :=
      moves.iterators j here hne fun c ho => hn c ⟨ho.spoken, ho.idle, ho.unset⟩
    exact ⟨hn', same.trans (old hj)⟩
  · refine Nat.le_trans ?_ moves.iteratorsSize
    simp [σ₁]

theorem Makes.finds (reads : ∀ e ≤ d, Reads W e) {a : Action W (Stream Value)}
    (h : κ.Makes d a x) (above : κ.Above busy d) :
    κ.Finds busy a.run fun κ' t => κ'.Holds (d + 1) t x := by
  have look {κ : Contents} : κ.Finds busy (get : Eval W (Store W)) fun _ _ => True :=
    finds_change (f := fun σ => (σ, σ)) (fun _ _ => rfl) fun _ => rfl
  induction h with
  | done h => exact finds_pure fun κ' hle => h.mono hle (Nat.le_refl _)
  | inspect _ ih =>
    exact finds_bind look fun κ' σ hle _ => (ih σ.world above).mono hle
  | @update κ g a x _ ih =>
    refine finds_bind (Q := fun _ _ => True) ?_ fun κ' _ hle _ => (ih above).mono hle
    exact finds_change (f := fun σ => ((), { σ with world := g σ.world })) (fun _ _ => rfl)
      fun _ => rfl
  | serial _ ih => exact finds_bind finds_serial fun κ' n hle _ => (ih n above).mono hle
  | empty _ ih => exact ih above
  | stream _ ih => exact ih above
  | sequence _ ih =>
    rw [Action.run, Source.asStream, Stream.ofSequence, bind_assoc]
    exact finds_bind finds_serial fun κ' n hle _ => (ih n above).mono hle
  | @iterator κ answer f x y ha _ ih =>
    -- The new iterator and its first cell are made together, as nothing else is read from it.
    have split : (Action.iterator answer fun it => .asStream (.iterator it) f).run =
        (IteratorId.make (.caller answer 0) >>= Stream.ofIterator) >>= fun t => (f t).run := by
      rw [bind_assoc]
      rfl
    rw [split]
    exact finds_bind (finds_newIterator ha) fun κ' t hle ht =>
      ih κ' t hle ht (above.mono hle (Nat.le_refl d))
  | isEmpty hs _ ih =>
    refine finds_bind (reads d (Nat.le_refl d) _ _ _ _ above hs).isEmpty fun κ' b hle hb => ?_
    exact (ih b hb above).mono hle
  | first hs _ ih =>
    refine finds_bind ((reads d (Nat.le_refl d) _ _ _ _ above hs).first _ _ rfl)
      fun κ' u hle hu => ?_
    subst hu
    exact (ih above).mono hle
  | rest hs _ ih =>
    refine finds_bind ((reads d (Nat.le_refl d) _ _ _ _ above hs).rest _ _ rfl)
      fun κ' t hle ht => ?_
    exact ih κ' t hle ht (above.mono hle (Nat.le_refl d))
  | append he ha hb _ ih =>
    refine finds_bind (finds_append (reads _ he) (above.mono (.refl _) he) ha hb)
      fun κ' t hle ht => ?_
    exact ih κ' t hle ht (above.mono hle (Nat.le_refl d))

/-! ## The tails of lazy cells -/

/-- What computes a tail finds its elements. -/
theorem TailRight.finds (reads : ∀ e ≤ d, Reads W e) (above : κ.Above busy d) {t : Tail W}
    (h : κ.TailRight d x ⟨t, .unset⟩) :
    κ.Finds busy t.compute fun κ' o => ∃ s, o = some s ∧ κ'.Holds (d + 1) s x := by
  cases h with
  | append ha hb =>
    refine finds_bind ((reads d (Nat.le_refl d) _ _ _ _ above ha).rest _ _ rfl)
      fun κ₁ a hle ha => ?_
    refine finds_bind (finds_append (reads d (Nat.le_refl d)) (above.mono hle (Nat.le_refl d)) ha
      (hb.mono hle (Nat.le_refl _))) fun κ₂ s _ hs => ?_
    exact finds_pure fun κ' hle' => ⟨s, rfl, hs.mono hle' (Nat.le_refl _)⟩
  | action h =>
    rw [Tail.compute, map_eq_pure_bind]
    refine finds_bind (h.finds reads above) fun κ₁ s _ hs => ?_
    exact finds_pure fun κ' hle' => ⟨s, rfl, hs.mono hle' (Nat.le_refl _)⟩

section

variable {busy' : Deferred → Prop} {i : TailId} {c : CellId} {it : IteratorId} {κ₁ : Contents}
  {σ τ : Store W} {s : Stream Value} {slot : Slot (Option (Stream Value))}

theorem Owns.of_putTail (others : ∀ p, p ≠ .tail i → busy p → busy' p)
    (h : κ.Owns busy' (Shelf.tails.put i.index slot σ) c it) : κ.Owns busy σ c it :=
  ⟨h.spoken, fun h' => h.idle (others _ (by simp) h'), h.unset⟩

/-- A tail is marked as busy, or as known to be what the contents say. -/
theorem Fits.putTail (fits : κ.Fits busy σ) (others : ∀ p, p ≠ .tail i → busy p → busy' p)
    (right : ¬busy' (.tail i) → ∀ x d (t : Tail W), κ.tails i = some (x, d) →
      κ.TailRight d x ⟨t, slot⟩) : κ.Fits busy' (Shelf.tails.put i.index slot σ) := by
  refine ⟨fun j y e hj => ?_, fun c y e hc => ?_, fun c c' it ho ho' => ?_⟩
  · obtain ⟨m, hm, old⟩ := fits.tails j y e hj
    by_cases same : i = j
    · subst same
      refine ⟨{ m with slot := slot }, (find_put_tail σ i i slot).trans ?_,
        fun idle => right idle y e m.thunk hj⟩
      rw [if_pos rfl, hm]
      rfl
    · refine ⟨m, (find_put_tail σ i j slot).trans ?_, fun idle => old fun h => idle ?_⟩
      · rw [if_neg same, hm]
      · exact others _ (by simpa using Ne.symm same) h
  · obtain ⟨m, hm, old⟩ := fits.cells c y e hc
    exact ⟨m, hm, fun idle => old fun h => idle (others _ (by simp) h)⟩
  · exact fits.alone c c' it (ho.of_putTail others) (ho'.of_putTail others)

theorem Fits.computing (fits : κ.Fits busy σ) (i : TailId) :
    κ.Fits (also busy (.tail i)) (Shelf.tails.put i.index .busy σ) :=
  fits.putTail (fun _ _ => .inl) fun idle => (idle (.inr rfl)).elim

/-- What has been computed is what the contents say. -/
theorem Fits.computed (fits : κ.Fits (also busy (.tail i)) σ) (hi : κ.tails i = some (x, d))
    (hs : κ.Holds (d + 1) s x) : κ.Fits busy (Shelf.tails.put i.index (.known (some s)) σ) := by
  refine fits.putTail (fun _ => busy_of_also) fun _ y e t hi' => ?_
  cases hi.symm.trans hi'
  exact .known hs

theorem Moves.computed (hi : (κ.tails i).isSome)
    (h : Moves (fun _ => False) (also busy (.tail i)) κ (Shelf.tails.put i.index .busy σ) κ₁ τ) :
    Moves (fun _ => False) busy κ σ κ₁ (Shelf.tails.put i.index (.known (some s)) τ) where
  le := h.le
  tails j hj hn := by
    have hne : i ≠ j := by
      rintro rfl
      rw [hn] at hi
      cases hi
    have size : j.index < (Shelf.tails.put i.index .busy σ).tails.size := by
      simpa [Shelf.tails, Memo.putSlot] using hj
    obtain ⟨hn', same⟩ := h.tails j size hn
    refine ⟨hn', ?_⟩
    rw [find_put_tail, if_neg hne, same, find_put_tail, if_neg hne]
  iterators it hit no hn := by
    obtain ⟨hn', same⟩ := h.iterators it hit no fun c ho => hn c (ho.of_putTail fun _ _ => .inl)
    exact ⟨fun c ho => hn' c (ho.of_putTail fun _ => busy_of_also), same⟩
  tailsSize := by simpa [Shelf.tails, Memo.putSlot] using h.tailsSize
  iteratorsSize := h.iteratorsSize
  rest := by
    change { τ with tails := _ } = _
    rw [h.rest]
    rfl

end

/-- A tail is computed at most once. -/
theorem finds_tail (reads : ∀ d < r, Reads W d) {i : TailId} (hi : κ.tails i = some (x, d))
    (hd : d < r) (above : κ.Above busy r) : κ.Finds busy (Eval.force (W := W) (.tail i))
      fun κ' o => ∃ s, o = some s ∧ κ'.Holds (d + 1) s x := by
  intro κ₁ σ hle fits
  have hi := hle.tails _ _ hi
  have above := above.mono hle (Nat.le_refl r)
  obtain ⟨m, hm, right⟩ := fits.tails i x d hi
  have right := right (above.idle (p := .tail i) hi hd)
  obtain ⟨t, _ | _ | _⟩ := m
  · obtain ⟨_, κ', σ', ho, moves, fits', s, rfl, hs⟩ :=
      TailRight.finds (fun e he => reads e (by omega)) (above.also (p := .tail i) hi hd) right κ₁ _
        (.refl κ₁) (fits.computing i)
    exact ⟨some s, κ', _, Shelf.comes_get_unset (force_tail i) hm ho,
      moves.computed (by rw [hi]; rfl),
      fits'.computed (moves.le.tails _ _ hi) hs, s, rfl, hs⟩
  · cases right
  · cases right with
    | known hs =>
      exact ⟨_, κ₁, σ, Shelf.comes_get_known (force_tail i) hm, .refl _ _ _ _, fits, _, rfl, hs⟩

/-! ## All streams -/

/-- Reading a stream finds the elements that the contents tell. -/
theorem reads (W : Type) (r : Nat) : Reads W r := by
  induction r using Nat.strong_induction_on with
  | h r ih =>
  intro κ busy s x above h
  cases h with
  | nil =>
    refine ⟨finds_pure fun _ _ => by simp, fun v y e => ?_, fun v y e => ?_⟩
    · exact absurd e Stream'.Seq.nil_ne_cons
    · exact absurd e Stream'.Seq.nil_ne_cons
  | @cons n v s y hs =>
    refine ⟨finds_pure fun _ _ => by simp, fun u z e => ?_, fun u z e => ?_⟩
    · obtain ⟨rfl, -⟩ := Stream'.Seq.cons_eq_cons.mp e
      exact finds_pure fun _ _ => rfl
    · obtain ⟨-, rfl⟩ := Stream'.Seq.cons_eq_cons.mp e
      exact finds_pure fun _ hle => hs.mono hle (Nat.le_refl r)
  | @lazy n v i y d hi hd =>
    refine ⟨finds_pure fun _ _ => by simp, fun u z e => ?_, fun u z e => ?_⟩
    · obtain ⟨rfl, -⟩ := Stream'.Seq.cons_eq_cons.mp e
      exact finds_pure fun _ _ => rfl
    · obtain ⟨-, rfl⟩ := Stream'.Seq.cons_eq_cons.mp e
      refine finds_bind (finds_tail ih hi hd above) fun κ' o _ ho => ?_
      obtain ⟨s, rfl, hs⟩ := ho
      exact finds_pure fun _ hle => hs.mono hle hd
  | @view q i n _ hi h =>
    cases x using Stream'.Seq.recOn with
    | nil =>
      refine ⟨finds_pure fun _ _ => by simp [view_nil hi h], fun v y e => ?_, fun v y e => ?_⟩
      · exact absurd e Stream'.Seq.nil_ne_cons
      · exact absurd e Stream'.Seq.nil_ne_cons
    | cons v y =>
      obtain ⟨nonempty, first, others⟩ := view_cons hi h
      refine ⟨finds_pure fun _ _ => by simp [nonempty], fun u z e => ?_, fun u z e => ?_⟩
      · obtain ⟨rfl, -⟩ := Stream'.Seq.cons_eq_cons.mp e
        rw [Stream.first, nonempty, if_neg Bool.false_ne_true, first]
        exact finds_pure fun _ _ => rfl
      · obtain ⟨-, rfl⟩ := Stream'.Seq.cons_eq_cons.mp e
        rw [Stream.rest, nonempty, if_neg Bool.false_ne_true]
        exact finds_pure fun _ _ => .view (by omega) others
  | @pulled c _ d hc hd =>
    have force := finds_cell ih hc hd above
    refine ⟨finds_bind force fun κ' o _ ho => ?_, fun v y e => ?_, fun v y e => ?_⟩
    · cases ho with
      | ended => exact finds_pure fun _ _ => by simp
      | found hs => exact finds_pure fun _ _ => by simp
    · refine finds_bind force fun κ' o _ ho => ?_
      obtain ⟨s, rfl, -⟩ := ho.occupied e
      exact finds_pure fun _ _ => rfl
    · refine finds_bind force fun κ' o _ ho => ?_
      obtain ⟨s, rfl, hs⟩ := ho.occupied e
      exact finds_pure fun _ hle => hs.mono hle hd

end Contents

end ResumableParsing
