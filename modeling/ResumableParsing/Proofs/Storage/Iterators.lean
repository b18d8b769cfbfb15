import ResumableParsing.Proofs.Storage.Reading

/-!
# Taking elements from iterators

A cell of a stream that is read from an iterator takes one element and makes the next cell. Since no
other cell is to be read from the same iterator, the next cell holds the elements behind it.

* `Contents.Readable`: a stream is read as its contents tell
* `Contents.comes_next`: asking an iterator
* `Contents.finds_cell`: reading a cell
-/

namespace ResumableParsing

variable {W α β : Type}

/-! ## Deferred parts -/

namespace Contents

variable {busy : Deferred → Prop} {κ κ' : Contents} {σ : Store W} {d r : Nat} {x : Elements}

/-- What is said of a deferred part. -/
def part (κ : Contents) : Deferred → Option (Elements × Nat)
  | .tail i => κ.tails i
  | .cell c => κ.cells c
  | _ => none

theorem Le.part (h : κ.Le κ') {p : Deferred} {y : Elements × Nat} (hp : κ.part p = some y) :
    κ'.part p = some y := by
  cases p with
  | tail i => exact h.tails i y hp
  | cell c => exact h.cells c y hp
  | result => cases hp
  | session => cases hp

/-- Everything that is being computed lies at depth `r` or deeper. -/
def Above (κ : Contents) (busy : Deferred → Prop) (r : Nat) : Prop :=
  ∀ p, busy p → ∃ x d, κ.part p = some (x, d) ∧ r ≤ d

/-- The parts that are being computed, and another one. -/
def also (busy : Deferred → Prop) (p : Deferred) (p' : Deferred) : Prop := busy p' ∨ p' = p

/-- What else is busy was so before. -/
theorem busy_of_also {p p' : Deferred} (ne : p' ≠ p) (h : also busy p p') : busy p' :=
  h.resolve_right ne

theorem Above.mono (h : κ.Above busy r) (hle : κ.Le κ') {r' : Nat} (hr : r' ≤ r) :
    κ'.Above busy r' := by
  intro p hp
  obtain ⟨x, d, hx, hd⟩ := h p hp
  exact ⟨x, d, hle.part hx, Nat.le_trans hr hd⟩

/-- Parts that lie less deep are not being computed. -/
theorem Above.idle (h : κ.Above busy r) {p : Deferred} (hp : κ.part p = some (x, d)) (hd : d < r) :
    ¬busy p := by
  intro hb
  obtain ⟨y, e, hy, he⟩ := h p hb
  cases hp.symm.trans hy
  omega

/-- One of them may be computed, where only parts that lie less deep than it are asked for. -/
theorem Above.also (h : κ.Above busy r) {p : Deferred} (hp : κ.part p = some (x, d)) (hd : d < r) :
    κ.Above (also busy p) d := by
  rintro p' (hb | rfl)
  · exact h.mono (.refl κ) (Nat.le_of_lt hd) p' hb
  · exact ⟨x, d, hp, Nat.le_refl d⟩

/-- Reading the stream finds the elements. -/
structure Readable (W : Type) (κ : Contents) (busy : Deferred → Prop) (r : Nat) (s : Stream Value)
    (x : Elements) : Prop where
  /-- It is empty if there are none. -/
  isEmpty : κ.Finds busy (s.isEmpty : Eval W Bool) fun _ b => b ↔ x = .nil
  /-- The first element. -/
  first : ∀ v y, x = .cons v y → κ.Finds busy (s.first : Eval W Value) fun _ a => a = v
  /-- The others. -/
  rest : ∀ v y, x = .cons v y → κ.Finds busy (s.rest : Eval W _) fun κ' t => κ'.Holds r t y

/-- All streams that lead to parts of depths below `r` only are read as the contents tell. -/
def Reads (W : Type) (r : Nat) : Prop :=
  ∀ κ busy s x, κ.Above busy r → κ.Holds r s x → Readable W κ busy r s x

/-! ## Asking iterators -/

/-- An iterator from which no cell is to be read is asked or moved on. -/
theorem moves_alter (fits : κ.Fits busy σ) {it : IteratorId}
    (free : ∀ c, ¬κ.Owns busy σ c it) (f : Iterator W → Iterator W) :
    Moves (fun j => j = it) busy κ σ κ { σ with iterators := σ.iterators.modify it.index f } ∧
      κ.Fits busy { σ with iterators := σ.iterators.modify it.index f } ∧
      ∀ c, ¬κ.Owns busy { σ with iterators := σ.iterators.modify it.index f } c it := by
  have other {j : IteratorId} (hj : j ≠ it) :
      (σ.iterators.modify it.index f)[j.index]? = σ.iterators[j.index]? := by
    rw [Array.getElem?_modify, if_neg]
    exact fun e => hj (congrArg IteratorId.mk e.symm)
  -- Which cells are still to be read does not depend on the iterators.
  have owns {c : CellId} {j : IteratorId}
      (ho : κ.Owns busy { σ with iterators := σ.iterators.modify it.index f } c j) :
      κ.Owns busy σ c j := ⟨ho.spoken, ho.idle, ho.unset⟩
  refine ⟨⟨.refl κ, fun _ _ h => ⟨h, rfl⟩, fun j _ hj hn => ?_, Nat.le_refl _, ?_, rfl⟩, ?_, ?_⟩
  · exact ⟨fun c ho => hn c (owns ho), other hj⟩
  · exact Nat.le_of_eq Array.size_modify.symm
  · refine ⟨fits.tails, fun c y e hc => ?_, fun c c' j ho ho' => ?_⟩
    · obtain ⟨⟨j, slot⟩, hm, right⟩ := fits.cells c y e hc
      refine ⟨_, hm, fun idle => (right idle).mono (.refl κ) fun hs => other ?_⟩
      rintro rfl
      cases hs
      exact free c ⟨by rw [hc]; rfl, idle, hm⟩
    · exact fits.alone c c' j (owns ho) (owns ho')
  · exact fun c ho => free c (owns ho)

/-- What becomes of an iterator that is asked: it gives the first element, if there is one, and then
the others. -/
structure Asked (κ : Contents) (busy : Deferred → Prop) (σ : Store W) (it : IteratorId) (d : Nat)
    (x : Elements) (o : Option Value) (κ' : Contents) (σ' : Store W) : Prop where
  /-- Nothing else has changed but what reading changes. -/
  moves : Moves (fun j => j = it) busy κ σ κ' σ'
  /-- The store fits the contents. -/
  fits : κ'.Fits busy σ'
  /-- No cell is to be read from the iterator. -/
  free : ∀ c, ¬κ'.Owns busy σ' c it
  /-- The first element. -/
  head : o = x.head
  /-- The others. -/
  tail : ∀ v y, x = .cons v y → ∃ i : Iterator W, σ'.iterators[it.index]? = some i ∧ i.Gives κ' d y

theorem comes_alter (it : IteratorId) (f : Iterator W → Iterator W) (σ : Store W) :
    (it.alter f : Eval W Unit).Comes σ
      (.ok () { σ with iterators := σ.iterators.modify it.index f }) :=
  comes_of_forall (fun _ => rfl) not_exhausted_ok

/-- A walk along a stream that has arrived at its next element, or at the end. -/
theorem comes_onward (reads : Reads W d) (above : κ.Above busy d) (fits : κ.Fits busy σ)
    {it : IteratorId} {t : Stream Value} (hi : σ.iterators[it.index]? = some (.walk .nil true))
    (free : ∀ c, ¬κ.Owns busy σ c it) (ht : κ.Holds d t x) : ∃ o κ' σ', (do
        if ← t.isEmpty then return none
        else
          let v ← t.first
          it.alter (Iterator.onward t)
          return some v : Eval W (Option Value)).Comes σ (.ok o σ') ∧
      Asked κ busy σ it d x o κ' σ' := by
  have readable := reads κ busy t x above ht
  obtain ⟨b, κ₁, σ₁, hb, moves, fits₁, empty⟩ := readable.isEmpty κ σ (.refl κ) fits
  obtain ⟨free₁, same⟩ := moves.iterators it (Array.getElem?_eq_some_iff.mp hi).1 id free
  cases x using Stream'.Seq.recOn with
  | nil =>
    obtain rfl := empty.mpr rfl
    refine ⟨none, κ₁, σ₁, comes_bind_ok hb (comes_pure _ _), moves.weaken _, fits₁,
      free₁, rfl, fun v y e => ?_⟩
    exact absurd e Stream'.Seq.nil_ne_cons
  | cons v y =>
    have nonempty : b = false := by
      cases b with
      | false => rfl
      | true => exact absurd (empty.mp rfl) Stream'.Seq.cons_ne_nil
    subst nonempty
    obtain ⟨_, κ₂, σ₂, hv, moves', fits₂, rfl⟩ :=
      readable.first v y rfl κ₁ σ₁ moves.le fits₁
    obtain ⟨free₂, same'⟩ := moves'.iterators it
      (Nat.lt_of_lt_of_le (Array.getElem?_eq_some_iff.mp hi).1 moves.iteratorsSize) id free₁
    obtain ⟨moves'', fits₃, free₃⟩ := moves_alter fits₂ free₂ (Iterator.onward t)
    -- The stream is read before the iterator is moved on, and nobody else moves it meanwhile.
    have gone := (moves.trans moves').weaken fun j => j = it
    refine ⟨some _, κ₂, _, comes_bind_ok hb (comes_bind_ok hv (comes_bind_ok (comes_alter _ _ _)
      (comes_pure _ _))), gone.trans moves'', fits₃, free₃, (Stream'.Seq.head_cons _ y).symm, ?_⟩
    intro u z e
    obtain ⟨rfl, rfl⟩ := Stream'.Seq.cons_eq_cons.mp e
    have now : σ₂.iterators[it.index]? = some (.walk .nil true) := same'.trans (same.trans hi)
    refine ⟨.walk t true, ?_, .onward (ht.mono gone.le (Nat.le_refl d))⟩
    change (σ₂.iterators.modify it.index (Iterator.onward t))[it.index]? = _
    rw [Array.getElem?_modify, if_pos rfl, now]
    rfl

/-- What has been read before an iterator is asked does not matter. -/
theorem Asked.after {it : IteratorId} {o : Option Value} {κ₁ κ' : Contents} {σ₁ σ' : Store W}
    (moves : Moves (fun j => j = it) busy κ σ κ₁ σ₁) (h : Asked κ₁ busy σ₁ it d x o κ' σ') :
    Asked κ busy σ it d x o κ' σ' :=
  { h with moves := moves.trans h.moves }

/-- An iterator gives its first element. -/
theorem comes_next (reads : Reads W d) (above : κ.Above busy d) (fits : κ.Fits busy σ)
    {it : IteratorId} {i : Iterator W} (hi : σ.iterators[it.index]? = some i)
    (free : ∀ c, ¬κ.Owns busy σ c it) (hg : i.Gives κ d x) :
    ∃ o κ' σ', (it.next : Eval W _).Comes σ (.ok o σ') ∧ Asked κ busy σ it d x o κ' σ' := by
  obtain ⟨moves, fits₁, free₁⟩ := moves_alter fits free Iterator.moved
  have now : (σ.iterators.modify it.index Iterator.moved)[it.index]? = some i.moved := by
    rw [Array.getElem?_modify, if_pos rfl, hi]
    rfl
  have look : (get : Eval W (Store W)).Comes σ (.ok σ σ) :=
    comes_of_forall (fun _ => rfl) not_exhausted_ok
  have here : (Eval.deref σ.iterators[it.index]? : Eval W _).Comes σ (.ok i σ) := by
    rw [hi]
    exact comes_pure i σ
  unfold IteratorId.next
  cases hg with
  | spent =>
    refine ⟨none, κ, _, comes_bind_ok look (comes_bind_ok here (comes_bind_ok (comes_alter _ _ _)
      (comes_pure _ _))), moves, fits₁, free₁, rfl, fun v y e => ?_⟩
    exact absurd e Stream'.Seq.nil_ne_cons
  | @items q k _ h =>
    refine ⟨q.items.get? k, κ, _, comes_bind_ok look (comes_bind_ok here
      (comes_bind_ok (comes_alter _ _ _) (comes_pure _ _))), moves, fits₁, free₁, (h 0).symm, ?_⟩
    rintro v y rfl
    refine ⟨_, now, .items fun n => ?_⟩
    rw [← Stream'.Seq.get?_cons_succ v, h]
    congr 1
    omega
  | @caller answer asked _ h =>
    let σ₁ : Store W := { σ with iterators := σ.iterators.modify it.index Iterator.moved }
    let σ₂ : Store W := { σ₁ with world := (answer asked σ.world).2 }
    have asks : (modifyGet fun σ => ((answer asked σ.world).1,
        { σ with world := (answer asked σ.world).2 }) : Eval W Pull).Comes σ₁
          (.ok (answer asked σ.world).1 σ₂) := comes_of_forall (fun _ => rfl) not_exhausted_ok
    have moves₂ : Moves (fun j => j = it) busy κ σ κ σ₂ :=
      moves.trans ⟨.refl κ, fun _ _ h => ⟨h, rfl⟩,
        fun _ _ _ h => ⟨fun c ho => h c ⟨ho.spoken, ho.idle, ho.unset⟩, rfl⟩, Nat.le_refl _,
        Nat.le_refl _, rfl⟩
    have fits₂ : κ.Fits busy σ₂ := fits₁.congr rfl rfl rfl
    have free₂ (c : CellId) (ho : κ.Owns busy σ₂ c it) : False :=
      free₁ c ⟨ho.spoken, ho.idle, ho.unset⟩
    cases x using Stream'.Seq.recOn with
    | nil =>
      rw [h.last] at asks
      refine ⟨none, κ, σ₂, comes_bind_ok look (comes_bind_ok here (comes_bind_ok (comes_alter _ _ _)
        (comes_bind_ok asks (comes_pure _ _)))), moves₂, fits₂, free₂, rfl, fun v y e => ?_⟩
      exact absurd e Stream'.Seq.nil_ne_cons
    | cons v y =>
      rw [h.first] at asks
      refine ⟨some v, κ, σ₂, comes_bind_ok look (comes_bind_ok here (comes_bind_ok
        (comes_alter _ _ _) (comes_bind_ok asks (comes_pure _ _)))), moves₂, fits₂, free₂,
        (Stream'.Seq.head_cons _ y).symm, fun u z e => ?_⟩
      obtain ⟨rfl, rfl⟩ := Stream'.Seq.cons_eq_cons.mp e
      exact ⟨_, now, .caller h.rest⟩
  | walk hs =>
    obtain ⟨o, κ', σ', ho, asked⟩ := comes_onward reads above fits₁ now free₁ hs
    refine ⟨o, κ', σ', ?_, asked.after moves⟩
    exact comes_bind_ok look (comes_bind_ok here (comes_bind_ok (comes_alter _ _ _) ho))
  -- An iterator that walks along a stream first moves on to its next element.
  | onward hs =>
    obtain ⟨t, κ₁, σ₁, rest, moves₁, fits₁, ht⟩ :=
      (reads κ busy _ _ above hs).rest _ _ rfl κ _ (.refl κ) fits₁
    obtain ⟨free₁, same⟩ := moves₁.iterators it (Array.getElem?_eq_some_iff.mp now).1 id free₁
    obtain ⟨o, κ', σ', ho, asked⟩ :=
      comes_onward reads (above.mono moves₁.le (Nat.le_refl d)) fits₁ (same.trans now) free₁ ht
    refine ⟨o, κ', σ', ?_, asked.after (moves.trans (moves₁.weaken _))⟩
    exact comes_bind_ok look (comes_bind_ok here (comes_bind_ok (comes_alter _ _ _)
      (comes_bind_ok rest ho)))

/-! ## Cells -/

/-- What is found in a cell. -/
inductive Found (κ : Contents) (d : Nat) : Elements → Option (Value × Stream Value) → Prop where
  | ended : Found κ d .nil none
  | found {v : Value} {s : Stream Value} {x : Elements} :
      κ.Holds (d + 1) s x → Found κ d (.cons v x) (some (v, s))

theorem Found.occupied {v : Value} {y : Elements} {o : Option (Value × Stream Value)}
    (h : κ.Found d x o) (hx : x = .cons v y) : ∃ s, o = some (v, s) ∧ κ.Holds (d + 1) s y := by
  cases h with
  | ended => exact absurd hx Stream'.Seq.nil_ne_cons
  | found hs =>
    obtain ⟨rfl, rfl⟩ := Stream'.Seq.cons_eq_cons.mp hx
    exact ⟨_, rfl, hs⟩

/-- An iterator is asked for an element, and for the stream of the others. -/
theorem comes_pull (reads : Reads W d) (above : κ.Above busy d) (fits : κ.Fits busy σ)
    {it : IteratorId} {i : Iterator W} (hi : σ.iterators[it.index]? = some i)
    (free : ∀ c, ¬κ.Owns busy σ c it) (hg : i.Gives κ d x) : ∃ o κ' σ',
      (it.pull : Eval W _).Comes σ (.ok o σ') ∧ Moves (fun j => j = it) busy κ σ κ' σ' ∧
      κ'.Fits busy σ' ∧ κ'.Found d x o := by
  obtain ⟨o, κ₁, σ₁, ho, asked⟩ := comes_next reads above fits hi free hg
  unfold IteratorId.pull
  cases x using Stream'.Seq.recOn with
  | nil =>
    obtain rfl : o = none := asked.head
    exact ⟨none, κ₁, σ₁, comes_bind_ok ho (comes_pure _ _), asked.moves, asked.fits, .ended⟩
  | cons v y =>
    obtain rfl : o = some v := asked.head
    obtain ⟨i', hi', hg'⟩ := asked.tail v y rfl
    obtain ⟨t, κ₂, σ₂, ht, moves, fits₂, holds⟩ := comes_ofIterator asked.fits hi' hg' asked.free
    refine ⟨some (v, t), κ₂, σ₂, ?_, asked.moves.trans moves, fits₂, .found holds⟩
    exact comes_bind_ok ho (comes_bind_ok ht (comes_pure _ _))

/-! ### While a cell is being read, and afterwards -/

section

variable {busy' : Deferred → Prop} {c c' : CellId} {it j : IteratorId} {κ₁ : Contents} {τ : Store W}
  {o : Option (Value × Stream Value)} {slot : Slot (Option (Value × Stream Value))}

/-- A cell that is busy or known is not to be read, and the others are as they were. -/
theorem Owns.of_putCell (others : ∀ p, p ≠ .cell c → busy p → busy' p)
    (taken : busy' (.cell c) ∨ slot ≠ .unset)
    (h : κ.Owns busy' (Shelf.cells.put c.index slot σ) c' j) : c ≠ c' ∧ κ.Owns busy σ c' j := by
  have unset := h.unset
  have ne : c ≠ c' := by
    rintro rfl
    rw [find_put_cell, if_pos rfl] at unset
    obtain ⟨m, -, hm⟩ := Option.map_eq_some_iff.mp unset
    cases hm
    exact taken.elim h.idle fun known => known rfl
  rw [find_put_cell, if_neg ne] at unset
  refine ⟨ne, h.spoken, fun h' => h.idle (others _ ?_ h'), unset⟩
  rintro ⟨⟩
  exact ne rfl

/-- A cell is marked as busy, or as known to be what the contents say. -/
theorem Fits.putCell (fits : κ.Fits busy σ) (others : ∀ p, p ≠ .cell c → busy p → busy' p)
    (taken : busy' (.cell c) ∨ slot ≠ .unset)
    (right : ¬busy' (.cell c) → ∀ x d it, κ.cells c = some (x, d) →
      κ.CellRight d σ.iterators x ⟨it, slot⟩) : κ.Fits busy' (Shelf.cells.put c.index slot σ) := by
  refine ⟨fun i y e hi => ?_, fun c' y e hc => ?_, fun c' c'' j ho ho' => ?_⟩
  · obtain ⟨m, hm, old⟩ := fits.tails i y e hi
    exact ⟨m, hm, fun idle => old fun h => idle (others _ (by simp) h)⟩
  · obtain ⟨m, hm, old⟩ := fits.cells c' y e hc
    by_cases same : c = c'
    · subst same
      refine ⟨{ m with slot := slot }, (find_put_cell σ c c slot).trans ?_,
        fun idle => right idle y e m.thunk hc⟩
      rw [if_pos rfl, hm]
      rfl
    · refine ⟨m, (find_put_cell σ c c' slot).trans ?_, fun idle => old fun h => idle ?_⟩
      · rw [if_neg same, hm]
      · exact others _ (by simpa using Ne.symm same) h
  · exact fits.alone c' c'' j (ho.of_putCell others taken).2 (ho'.of_putCell others taken).2

theorem owns_of_reading
    (h : κ.Owns (also busy (.cell c)) (Shelf.cells.put c.index .busy σ) c' j) :
    c ≠ c' ∧ κ.Owns busy σ c' j :=
  h.of_putCell (fun _ _ => .inl) (.inl (.inr rfl))

theorem Fits.reading (fits : κ.Fits busy σ) (c : CellId) :
    κ.Fits (also busy (.cell c)) (Shelf.cells.put c.index .busy σ) :=
  fits.putCell (fun _ _ => .inl) (.inl (.inr rfl)) fun idle => (idle (.inr rfl)).elim

theorem owns_of_read (h : κ.Owns busy (Shelf.cells.put c.index (.known o) σ) c' j) :
    c ≠ c' ∧ κ.Owns (also busy (.cell c)) σ c' j :=
  h.of_putCell (fun _ => busy_of_also) (.inr (by simp))

/-- What has been found is what the contents say. -/
theorem Fits.read (fits : κ.Fits (also busy (.cell c)) σ) (hc : κ.cells c = some (x, d))
    (found : κ.Found d x o) : κ.Fits busy (Shelf.cells.put c.index (.known o) σ) := by
  refine fits.putCell (fun _ => busy_of_also) (.inr (by simp)) fun _ y e it hc' => ?_
  cases hc.symm.trans hc'
  cases found with
  | ended => exact .ended
  | found hs => exact .found hs

/-- The iterator of the cell has been moved on, and nobody else reads from it. -/
theorem Moves.read (own : κ.Owns busy σ c it)
    (h : Moves (fun j => j = it) (also busy (.cell c)) κ (Shelf.cells.put c.index .busy σ) κ₁ τ) :
    Moves (fun _ => False) busy κ σ κ₁ (Shelf.cells.put c.index (.known o) τ) where
  le := h.le
  tails := h.tails
  iterators j hj _ hn := by
    have hne : j ≠ it := by
      rintro rfl
      exact hn c own
    obtain ⟨hn', same⟩ := h.iterators j hj hne fun c' ho => hn c' (owns_of_reading ho).2
    exact ⟨fun c' ho => hn' c' (owns_of_read ho).2, same⟩
  tailsSize := h.tailsSize
  iteratorsSize := h.iteratorsSize
  rest := by
    change { τ with cells := _ } = _
    rw [h.rest]
    rfl

end

/-- A cell is read at most once. -/
theorem finds_cell {r : Nat} (reads : ∀ d < r, Reads W d) {c : CellId}
    (hc : κ.cells c = some (x, d)) (hd : d < r) (above : κ.Above busy r) :
    κ.Finds busy (Eval.force (W := W) (.cell c)) fun κ' o => κ'.Found d x o := by
  intro κ₁ σ hle fits
  have hc := hle.cells _ _ hc
  have above := above.mono hle (Nat.le_refl r)
  have idle : ¬busy (.cell c) := above.idle hc hd
  obtain ⟨⟨it, slot⟩, hm, right⟩ := fits.cells c x d hc
  cases right idle with
  | ended => exact ⟨none, κ₁, σ, Shelf.comes_get_known (force_cell c) hm, .refl _ _ _ _,
      fits, .ended⟩
  | found hs => exact ⟨_, κ₁, σ, Shelf.comes_get_known (force_cell c) hm, .refl _ _ _ _, fits,
      .found hs⟩
  | unset hi hg =>
    have own : κ₁.Owns busy σ c it := ⟨by rw [hc]; rfl, idle, hm⟩
    -- The iterator is free while the cell is being read, as no two cells read from it.
    have free (c' : CellId)
        (ho : κ₁.Owns (also busy (.cell c)) (Shelf.cells.put c.index .busy σ) c' it) : False :=
      (owns_of_reading ho).1 (fits.alone c c' it own (owns_of_reading ho).2)
    obtain ⟨o, κ', σ', ho, moves, fits', found⟩ :=
      comes_pull (reads d hd) (above.also (p := .cell c) hc hd) (fits.reading c) hi free hg
    exact ⟨o, κ', _, Shelf.comes_get_unset (force_cell c) hm ho, moves.read own,
      fits'.read (moves.le.cells _ _ hc) found, found⟩

end Contents

end ResumableParsing
