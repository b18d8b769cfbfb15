import ResumableParsing.Proofs.Storage.Contents
import ResumableParsing.Proofs.Store.Comes

/-!
# Reading streams whose contents are known

Reading a stream computes deferred parts, and takes elements from iterators. In a store that fits
the contents, it finds the elements that the contents tell, and leaves a store that fits as well:
the parts that have been computed hold what they were said to hold, and new parts are added.

* `Contents.Moves`: what may change while streams are read
* `Contents.Finds`: computations that succeed in every store that fits
* `Contents.reads`: reading a stream finds its elements
-/

namespace ResumableParsing

variable {W α β : Type}

namespace Contents

/-! ## What may change -/

/-- Streams have been read, and perhaps elements have been taken from the iterators `E`. -/
structure Moves (E : IteratorId → Prop) (busy : Deferred → Prop) (κ : Contents) (σ : Store W)
    (κ' : Contents) (σ' : Store W) : Prop where
  /-- The contents speak of what they spoke of, and perhaps of new parts. -/
  le : κ.Le κ'
  /-- Other tails are as they were. -/
  tails : ∀ i : TailId, i.index < σ.tails.size → κ.tails i = none →
    κ'.tails i = none ∧ σ'.tails[i.index]? = σ.tails[i.index]?
  /-- So are other iterators from which no cell is to be read. -/
  iterators : ∀ it : IteratorId, it.index < σ.iterators.size → ¬E it →
    (∀ c, ¬κ.Owns busy σ c it) →
      (∀ c, ¬κ'.Owns busy σ' c it) ∧ σ'.iterators[it.index]? = σ.iterators[it.index]?
  /-- Tails stay. -/
  tailsSize : σ.tails.size ≤ σ'.tails.size
  /-- Iterators stay. -/
  iteratorsSize : σ.iterators.size ≤ σ'.iterators.size
  /-- Only the world, the log and what streams are read from has changed. -/
  rest : σ' = { σ with
    world := σ'.world, log := σ'.log, nextSerial := σ'.nextSerial, iterators := σ'.iterators
    tails := σ'.tails, cells := σ'.cells }

section

variable {E : IteratorId → Prop} {busy : Deferred → Prop} {κ κ' κ'' : Contents}
  {σ σ' σ'' : Store W}

theorem Moves.refl (E : IteratorId → Prop) (busy : Deferred → Prop) (κ : Contents) (σ : Store W) :
    Moves E busy κ σ κ σ :=
  ⟨.refl κ, fun _ _ h => ⟨h, rfl⟩, fun _ _ _ h => ⟨h, rfl⟩, Nat.le_refl _, Nat.le_refl _, rfl⟩

theorem Moves.trans (h : Moves E busy κ σ κ' σ') (h' : Moves E busy κ' σ' κ'' σ'') :
    Moves E busy κ σ κ'' σ'' where
  le := h.le.trans h'.le
  tails i hi hn := by
    obtain ⟨hn', same⟩ := h.tails i hi hn
    obtain ⟨hn'', same'⟩ := h'.tails i (Nat.lt_of_lt_of_le hi h.tailsSize) hn'
    exact ⟨hn'', same'.trans same⟩
  iterators it hi he hn := by
    obtain ⟨hn', same⟩ := h.iterators it hi he hn
    obtain ⟨hn'', same'⟩ := h'.iterators it (Nat.lt_of_lt_of_le hi h.iteratorsSize) he hn'
    exact ⟨hn'', same'.trans same⟩
  tailsSize := Nat.le_trans h.tailsSize h'.tailsSize
  iteratorsSize := Nat.le_trans h.iteratorsSize h'.iteratorsSize
  rest := by rw [h'.rest, h.rest]

theorem Moves.weaken (h : Moves (fun _ => False) busy κ σ κ' σ') (E : IteratorId → Prop) :
    Moves E busy κ σ κ' σ' :=
  { h with iterators := fun it hi _ => h.iterators it hi id }

/-- The contents fit every store with the same tails, cells and iterators. -/
theorem Fits.congr (h : κ.Fits busy σ) (ht : σ'.tails = σ.tails) (hc : σ'.cells = σ.cells)
    (hi : σ'.iterators = σ.iterators) : κ.Fits busy σ' where
  tails := by
    rw [ht]
    exact h.tails
  cells := by
    rw [hc, hi]
    exact h.cells
  alone c c' it ho ho' :=
    h.alone c c' it ⟨ho.spoken, ho.idle, hc ▸ ho.unset⟩ ⟨ho'.spoken, ho'.idle, hc ▸ ho'.unset⟩

end

/-! ## Computations that succeed -/

/-- In every store that fits the contents, or larger ones, the computation has a result with the
property `Q`, and leaves a store that fits. -/
def Finds (κ : Contents) (busy : Deferred → Prop) (x : Eval W α) (Q : Contents → α → Prop) : Prop :=
  ∀ κ₁ σ, κ.Le κ₁ → κ₁.Fits busy σ → ∃ a κ' σ', x.Comes σ (.ok a σ') ∧
    Moves (fun _ => False) busy κ₁ σ κ' σ' ∧ κ'.Fits busy σ' ∧ Q κ' a

section

variable {busy : Deferred → Prop} {κ κ' : Contents} {x : Eval W α} {Q Q' : Contents → α → Prop}
  {R : Contents → β → Prop}

theorem Finds.mono (hle : κ.Le κ') (h : κ.Finds busy x Q) : κ'.Finds busy x Q :=
  fun _ σ hle' => h _ σ (hle.trans hle')

theorem Finds.imp (h : κ.Finds busy x Q) (hQ : ∀ κ' a, κ.Le κ' → Q κ' a → Q' κ' a) :
    κ.Finds busy x Q' := by
  intro κ₁ σ hle fits
  obtain ⟨a, κ', σ', hx, moves, fits', hq⟩ := h κ₁ σ hle fits
  exact ⟨a, κ', σ', hx, moves, fits', hQ κ' a (hle.trans moves.le) hq⟩

theorem finds_pure {a : α} (h : ∀ κ', κ.Le κ' → Q κ' a) :
    κ.Finds busy (pure a : Eval W α) Q :=
  fun κ₁ σ hle fits => ⟨a, κ₁, σ, comes_pure a σ, .refl _ _ _ _, fits, h κ₁ hle⟩

theorem finds_bind {f : α → Eval W β} (h : κ.Finds busy x Q)
    (hf : ∀ κ' a, κ.Le κ' → Q κ' a → κ'.Finds busy (f a) R) : κ.Finds busy (x >>= f) R := by
  intro κ₁ σ hle fits
  obtain ⟨a, κ₂, σ₂, hx, moves, fits₂, hq⟩ := h κ₁ σ hle fits
  obtain ⟨b, κ₃, σ₃, hy, moves', fits₃, hr⟩ :=
    hf κ₂ a (hle.trans moves.le) hq κ₂ σ₂ (.refl κ₂) fits₂
  exact ⟨b, κ₃, σ₃, comes_bind_ok hx hy, moves.trans moves', fits₃, hr⟩

/-- A change of the world, the log or the serial numbers. -/
theorem finds_change {f : Store W → α × Store W} (hx : ∀ m σ, x m σ = .ok (f σ).1 (f σ).2)
    (hf : ∀ σ, (f σ).2 = { σ with
      world := (f σ).2.world, log := (f σ).2.log, nextSerial := (f σ).2.nextSerial }) :
    κ.Finds busy x fun _ _ => True := by
  intro κ₁ σ hle fits
  have tails : (f σ).2.tails = σ.tails := by rw [hf]
  have cells : (f σ).2.cells = σ.cells := by rw [hf]
  have iterators : (f σ).2.iterators = σ.iterators := by rw [hf]
  refine ⟨_, κ₁, _, comes_change hx σ, ⟨.refl κ₁, fun i _ hn => ⟨hn, by rw [tails]⟩,
    fun it _ _ hn => ⟨fun c ho => hn c ⟨ho.spoken, ho.idle, cells ▸ ho.unset⟩, by rw [iterators]⟩,
    Nat.le_of_eq (by rw [tails]), Nat.le_of_eq (by rw [iterators]), ?_⟩,
    fits.congr tails cells iterators, trivial⟩
  rw [hf]

theorem finds_serial : κ.Finds busy (Eval.serial : Eval W Nat) fun _ _ => True :=
  finds_change (f := fun σ => (σ.nextSerial, { σ with nextSerial := σ.nextSerial + 1 }))
    (fun _ _ => rfl) fun _ => rfl

end

/-! ## New parts -/

/-- Another tail, with its elements and its depth. -/
def withTail (κ : Contents) (i : TailId) (x : Elements) (d : Nat) : Contents where
  tails j := if j = i then some (x, d) else κ.tails j
  cells := κ.cells

/-- Another cell, with its elements and its depth. -/
def withCell (κ : Contents) (c : CellId) (x : Elements) (d : Nat) : Contents where
  tails := κ.tails
  cells j := if j = c then some (x, d) else κ.cells j

section

variable {busy : Deferred → Prop} {κ : Contents} {σ : Store W} {x : Elements} {d : Nat}

/-- The contents do not speak of parts that are not there. -/
theorem Fits.newTail (h : κ.Fits busy σ) : κ.tails ⟨σ.tails.size⟩ = none := by
  cases e : κ.tails ⟨σ.tails.size⟩ with
  | none => rfl
  | some x =>
    obtain ⟨m, hm, -⟩ := h.tails _ _ _ e
    exact absurd (Array.getElem?_eq_some_iff.mp hm).1 (Nat.lt_irrefl _)

theorem Fits.newCell (h : κ.Fits busy σ) : κ.cells ⟨σ.cells.size⟩ = none := by
  cases e : κ.cells ⟨σ.cells.size⟩ with
  | none => rfl
  | some x =>
    obtain ⟨m, hm, -⟩ := h.cells _ _ _ e
    exact absurd (Array.getElem?_eq_some_iff.mp hm).1 (Nat.lt_irrefl _)

theorem le_withTail {i : TailId} (h : κ.tails i = none) : κ.Le (κ.withTail i x d) := by
  refine ⟨fun j y hj => ?_, fun _ _ hc => hc⟩
  rw [withTail]
  dsimp only
  rw [if_neg, hj]
  rintro rfl
  rw [h] at hj
  cases hj

theorem le_withCell {c : CellId} (h : κ.cells c = none) : κ.Le (κ.withCell c x d) := by
  refine ⟨fun _ _ ht => ht, fun j y hj => ?_⟩
  rw [withCell]
  dsimp only
  rw [if_neg, hj]
  rintro rfl
  rw [h] at hj
  cases hj

theorem CellRight.mono {κ' : Contents} (hle : κ.Le κ') {its its' : Array (Iterator W)}
    {m : Memo IteratorId (Option (Value × Stream Value))}
    (hits : m.slot = .unset → its'[m.thunk.index]? = its[m.thunk.index]?)
    (h : κ.CellRight d its x m) : κ'.CellRight d its' x m := by
  cases h with
  | ended => exact .ended
  | found h => exact .found (h.mono hle (Nat.le_refl _))
  | unset hi hg => exact .unset ((hits rfl).trans hi) (hg.mono hle)

/-- A lazy cell with a new tail. -/
theorem finds_lazyCell {tail : Tail W} (h : κ.TailRight d x ⟨tail, .unset⟩) (v : Value) :
    κ.Finds busy (Stream.lazyCell v tail) fun κ' t => κ'.Holds (d + 1) t (.cons v x) := by
  refine finds_bind finds_serial fun κ₁ n hle _ => ?_
  refine finds_bind (Q := fun κ' i => κ'.tails i = some (x, d)) ?_ fun κ₂ i _ hi =>
    finds_pure fun κ₃ hle' => .lazy (hle'.tails _ _ hi) (Nat.lt_succ_self d)
  intro κ₂ σ hle' fits
  -- The contents of the new tail are added to what is said of the others.
  let i : TailId := ⟨σ.tails.size⟩
  let κ' := κ₂.withTail i x d
  have grows : κ₂.Le κ' := le_withTail fits.newTail
  have hle := (hle.trans hle').trans grows
  have new : κ'.tails i = some (x, d) := if_pos rfl
  refine ⟨i, κ', { σ with tails := σ.tails.push ⟨tail, .unset⟩ }, ?_, ?_, ?_, new⟩
  · exact comes_of_forall (fun _ => rfl) not_exhausted_ok
  · refine ⟨grows, fun j hj hn => ⟨?_, Array.getElem?_push_lt hj ▸ ?_⟩, fun it _ _ hn => ⟨?_, rfl⟩,
      by simp, Nat.le_refl _, rfl⟩
    · refine (if_neg ?_).trans hn
      rintro rfl
      exact Nat.lt_irrefl _ hj
    · rw [Array.getElem?_eq_getElem hj]
    · exact fun c ho => hn c ⟨ho.spoken, ho.idle, ho.unset⟩
  · refine ⟨fun j y e hj => ?_, fun c y e hc => ?_, fun c c' it ho ho' => ?_⟩
    · by_cases same : j = i
      · subst same
        rw [new] at hj
        cases hj
        exact ⟨_, Array.getElem?_push_size, fun _ => h.mono hle⟩
      · have old : κ₂.tails j = some (y, e) := (if_neg same).symm.trans hj
        obtain ⟨m, hm, right⟩ := fits.tails j y e old
        exact ⟨m, getElem?_push_of_eq_some hm _, fun idle => (right idle).mono grows⟩
    · obtain ⟨m, hm, right⟩ := fits.cells c y e hc
      exact ⟨m, hm, fun idle => (right idle).mono grows fun _ => rfl⟩
    · exact fits.alone c c' it ⟨ho.spoken, ho.idle, ho.unset⟩ ⟨ho'.spoken, ho'.idle, ho'.unset⟩

/-- A new cell that is to be read from an iterator from which no other one is. -/
theorem comes_ofIterator (fits : κ.Fits busy σ) {it : IteratorId} {i : Iterator W}
    (hi : σ.iterators[it.index]? = some i) (hg : i.Gives κ d x)
    (free : ∀ c, ¬κ.Owns busy σ c it) : ∃ t κ' σ',
      (Stream.ofIterator it : Eval W _).Comes σ (.ok t σ') ∧
      Moves (fun j => j = it) busy κ σ κ' σ' ∧ κ'.Fits busy σ' ∧ κ'.Holds (d + 1) t x := by
  let c : CellId := ⟨σ.cells.size⟩
  let κ' := κ.withCell c x d
  have grows : κ.Le κ' := le_withCell fits.newCell
  have new : κ'.cells c = some (x, d) := if_pos rfl
  let σ' : Store W := { σ with cells := σ.cells.push ⟨it, .unset⟩ }
  -- A cell that is still to be read and is not the new one was to be read before.
  have known {c' : CellId} {j : IteratorId} (ho : κ'.Owns busy σ' c' j) (hne : c' ≠ c) :
      κ.Owns busy σ c' j := by
    have spoken : (κ.cells c').isSome := by
      have h := ho.spoken
      rwa [show κ'.cells c' = κ.cells c' from if_neg hne] at h
    obtain ⟨⟨y, e⟩, hy⟩ := Option.isSome_iff_exists.mp spoken
    obtain ⟨m, hm, -⟩ := fits.cells c' y e hy
    have unset := ho.unset
    rw [show σ'.cells[c'.index]? = some m from getElem?_push_of_eq_some hm _] at unset
    exact ⟨spoken, ho.idle, hm.trans unset⟩
  have own {j : IteratorId} (ho : κ'.Owns busy σ' c j) : j = it := by
    have unset := ho.unset
    rw [show σ'.cells[c.index]? = _ from Array.getElem?_push_size] at unset
    cases unset
    rfl
  refine ⟨.pulled c, κ', σ', ?_, ?_, ?_, .pulled new (Nat.lt_succ_self d)⟩
  · exact comes_of_forall (fun _ => rfl) not_exhausted_ok
  · refine ⟨grows, fun j _ hn => ⟨hn, rfl⟩, fun j _ hne hn => ⟨fun c' ho => ?_, rfl⟩, Nat.le_refl _,
      Nat.le_refl _, rfl⟩
    by_cases same : c' = c
    · subst same
      exact hne (own ho)
    · exact hn c' (known ho same)
  · refine ⟨fun j y e hj => ?_, fun c' y e hc => ?_, fun c' c'' j ho ho' => ?_⟩
    · obtain ⟨m, hm, right⟩ := fits.tails j y e hj
      exact ⟨m, hm, fun idle => (right idle).mono grows⟩
    · by_cases same : c' = c
      · subst same
        rw [new] at hc
        cases hc
        exact ⟨_, Array.getElem?_push_size, fun _ => .unset hi (hg.mono grows)⟩
      · have old : κ.cells c' = some (y, e) := (if_neg same).symm.trans hc
        obtain ⟨m, hm, right⟩ := fits.cells c' y e old
        exact ⟨m, getElem?_push_of_eq_some hm _, fun idle => (right idle).mono grows fun _ => rfl⟩
    · by_cases same : c' = c
      · by_cases same' : c'' = c
        · exact same.trans same'.symm
        · subst same
          cases own ho
          exact absurd (known ho' same') (free c'')
      · by_cases same' : c'' = c
        · subst same'
          cases own ho'
          exact absurd (known ho same) (free c')
        · exact fits.alone c' c'' j (known ho same) (known ho' same')

end

end Contents

end ResumableParsing
