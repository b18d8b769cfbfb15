import ResumableParsing.Proofs.Stream.Sharing

/-!
# Iterators that are left alone

Somebody reads from an iterator. Values that do not lead to it can be read in any way by anybody
else: whatever is asked of their streams, the iterator is not asked, and what is found does not lead
to it either.

* `Value.Avoids`: values that do not lead to the iterator
* `Store.Private`: nothing else in the store leads to it
* `Store.Untouched`: what may be done without asking it
* `IteratorId.Spared`: computations that do no more than that
* `spared_rest`, `spared_toList`, `spared_join` and so on: questions to such values
-/

namespace ResumableParsing

variable {W α β : Type}

/-! ## Values -/

/-- The tail is computed from streams alone, or refused. -/
def Tail.Simple : Tail W → Prop
  | .append .. => True
  | .parse .. => False
  | .action a => ∃ f, a = .raise f

/-- Reading the value does not lead to the iterator. -/
inductive Value.Avoids (it : IteratorId) (σ : Store W) : Value → Prop where
  | none : Avoids it σ .none
  | bool (b : Bool) : Avoids it σ (.bool b)
  | int (n : Int) : Avoids it σ (.int n)
  | float (bits : UInt64) : Avoids it σ (.float bits)
  | nan (serial : Nat) (bits : UInt64) : Avoids it σ (.nan serial bits)
  | text (t : Text) : Avoids it σ (.text t)
  | outcome (o : Outcome) : Avoids it σ (.outcome o)
  | list {vs : List Value} : (∀ v ∈ vs, Avoids it σ v) → Avoids it σ (.list vs)
  | tuple {vs : List Value} : (∀ v ∈ vs, Avoids it σ v) → Avoids it σ (.tuple vs)
  | group {vs : List Value} : (∀ v ∈ vs, Avoids it σ v) → Avoids it σ (.group vs)
  | dict {es : List (Value × Value)} : (∀ e ∈ es, Avoids it σ e.1) →
      (∀ e ∈ es, Avoids it σ e.2) → Avoids it σ (.dict es)
  | ignored {v : Value} : Avoids it σ v → Avoids it σ (.ignored v)
  | token {m v : Value} : Avoids it σ m → Avoids it σ v → Avoids it σ (.token m v)
  | failure {e : ParseError Value} : Avoids it σ (.state e.state) → Avoids it σ (.failure e)
  | plain {w : Bool} {i : Stream Value} {p : Int} {u : Value} : Avoids it σ (.stream i) →
      Avoids it σ u → Avoids it σ (.state (.plain w i p u))
  | chunked {a : AdvanceId} {c : Int} {s : State Value} : Avoids it σ (.state s) →
      Avoids it σ (.state (.chunked a c s))
  | ok {d : Bool} {v : Value} {s : State Value} : Avoids it σ v → Avoids it σ (.state s) →
      Avoids it σ (.reply (.ok d v s))
  | err {d : Bool} {e : ParseError Value} {s : State Value} : Avoids it σ (.failure e) →
      Avoids it σ (.state s) → Avoids it σ (.reply (.err d e s))
  | nil : Avoids it σ (.stream .nil)
  | cons {n : Nat} {v : Value} {s : Stream Value} : Avoids it σ v → Avoids it σ (.stream s) →
      Avoids it σ (.stream (.cons n v s))
  /-- The tail is there, and no parser is run for it. -/
  | lazy {n : Nat} {v : Value} {i : TailId} {m : Memo (Tail W) (Option (Stream Value))} :
      Avoids it σ v → σ.tails[i.index]? = some m → m.thunk.Simple →
        Avoids it σ (.stream (.lazy n v i))
  | view {q : Sequence Value} {i : Int} {h : Option Nat} :
      (∀ k v, q.items.get? k = some v → Avoids it σ v) → Avoids it σ (.stream (.view q i h))
  /-- The cell is there, and it is filled from another iterator. -/
  | pulled {c : CellId} {m : Memo IteratorId (Option (Value × Stream Value))} :
      σ.cells[c.index]? = some m → m.thunk ≠ it → Avoids it σ (.stream (.pulled c))

/-- Reading the stream does not lead to the iterator. -/
abbrev Stream.Avoids (it : IteratorId) (σ : Store W) (s : Stream Value) : Prop :=
  (Value.stream s).Avoids it σ

/-- The streams from which the tail is computed do not lead to the iterator. -/
def Tail.Avoids (it : IteratorId) (σ : Store W) : Tail W → Prop
  | .append a b => a.Avoids it σ ∧ b.Avoids it σ
  | _ => True

/-- Nothing that the iterator `x` gives leads to the iterator `it`. -/
def Iterator.Avoids (it : IteratorId) (σ : Store W) (x : Iterator W) : Prop :=
  match x with
  | .caller answer _ => ∀ n w v, (answer n w).1 = .item v → v.Avoids it σ
  | .items q _ => ∀ k v, q.items.get? k = some v → v.Avoids it σ
  | .walk s _ => s.Avoids it σ
  | .spent => True

/-! ## Stores -/

/-- Nothing in the store leads to the iterator but its own cells, and tails for which a parser is
run or the caller asked. -/
structure Store.Private (it : IteratorId) (σ : Store W) : Prop where
  /-- The streams of other tails do not. -/
  tails : ∀ (i : Nat) (m : Memo (Tail W) (Option (Stream Value))), σ.tails[i]? = some m →
    m.thunk.Simple → m.thunk.Avoids it σ ∧ ∀ s, m.slot = .known (some s) → s.Avoids it σ
  /-- Elements of cells do not, nor what follows in the cells of other iterators. -/
  cells : ∀ (i : Nat) (m : Memo IteratorId (Option (Value × Stream Value))) (v : Value)
    (s : Stream Value), σ.cells[i]? = some m → m.slot = .known (some (v, s)) →
    v.Avoids it σ ∧ (m.thunk ≠ it → s.Avoids it σ)
  /-- What iterators give does not. -/
  iterators : ∀ (i : Nat) (x : Iterator W), σ.iterators[i]? = some x → x.Avoids it σ

/-- Deferred parts are still there, and computed in the same way. -/
structure Store.Retains (σ τ : Store W) : Prop where
  /-- The tails of lazy cells. -/
  tails : ∀ (i : Nat) (m : Memo (Tail W) (Option (Stream Value))), σ.tails[i]? = some m →
    ∃ n : Memo (Tail W) (Option (Stream Value)), τ.tails[i]? = some n ∧ n.thunk = m.thunk
  /-- The cells of iterators. -/
  cells : ∀ (i : Nat) (m : Memo IteratorId (Option (Value × Stream Value))), σ.cells[i]? = some m →
    ∃ n : Memo IteratorId (Option (Value × Stream Value)), τ.cells[i]? = some n ∧ n.thunk = m.thunk

/-- What is done leaves the iterator alone, and all that is known of its cells. -/
structure Store.Untouched (it : IteratorId) (σ τ : Store W) : Prop where
  /-- Nothing else has come to lead to it. -/
  alone : τ.Private it
  /-- Deferred parts are where they were. -/
  retains : σ.Retains τ
  /-- So are parsers. -/
  continues : σ.Continues τ
  /-- Its cells are as they were. -/
  view : τ.over it = σ.over it
  /-- So is the iterator. -/
  same : τ.iterators[it.index]? = σ.iterators[it.index]?

section

variable {it : IteratorId} {σ τ υ : Store W} {v : Value}

theorem Store.Retains.refl (σ : Store W) : σ.Retains σ :=
  ⟨fun _ m h => ⟨m, h, rfl⟩, fun _ m h => ⟨m, h, rfl⟩⟩

theorem Store.Retains.trans (h : σ.Retains τ) (h' : τ.Retains υ) : σ.Retains υ where
  tails i m hm := by
    obtain ⟨n, hn, e⟩ := h.tails i m hm
    obtain ⟨n', hn', e'⟩ := h'.tails i n hn
    exact ⟨n', hn', e'.trans e⟩
  cells i m hm := by
    obtain ⟨n, hn, e⟩ := h.cells i m hm
    obtain ⟨n', hn', e'⟩ := h'.cells i n hn
    exact ⟨n', hn', e'.trans e⟩

theorem Store.Grows.retains (h : σ.Grows τ) : σ.Retains τ where
  tails i m hm := by
    obtain ⟨n, hn, e, -⟩ := h.tails i m hm
    exact ⟨n, hn, e⟩
  cells i m hm := by
    obtain ⟨n, hn, e, -⟩ := h.cells i m hm
    exact ⟨n, hn, e⟩

/-- What does not lead to the iterator does not come to do so. -/
theorem Value.Avoids.later (h : σ.Retains τ) (hv : v.Avoids it σ) : v.Avoids it τ := by
  induction hv with
  | none => exact .none
  | bool b => exact .bool b
  | int n => exact .int n
  | float b => exact .float b
  | nan n b => exact .nan n b
  | text t => exact .text t
  | outcome o => exact .outcome o
  | list _ ih => exact .list ih
  | tuple _ ih => exact .tuple ih
  | group _ ih => exact .group ih
  | dict _ _ ih ih' => exact .dict ih ih'
  | ignored _ ih => exact .ignored ih
  | token _ _ ih ih' => exact .token ih ih'
  | failure _ ih => exact .failure ih
  | plain _ _ ih ih' => exact .plain ih ih'
  | chunked _ ih => exact .chunked ih
  | ok _ _ ih ih' => exact .ok ih ih'
  | err _ _ ih ih' => exact .err ih ih'
  | nil => exact .nil
  | cons _ _ ih ih' => exact .cons ih ih'
  | lazy _ hi simple ih =>
    obtain ⟨n, hn, e⟩ := h.tails _ _ hi
    exact .lazy ih hn (e ▸ simple)
  | view _ ih => exact .view ih
  | pulled hc other =>
    obtain ⟨n, hn, e⟩ := h.cells _ _ hc
    exact .pulled hn (e ▸ other)

theorem Tail.Avoids.later (h : σ.Retains τ) {t : Tail W} (ht : t.Avoids it σ) : t.Avoids it τ := by
  cases t with
  | append a b => exact ⟨Value.Avoids.later h ht.1, Value.Avoids.later h ht.2⟩
  | parse p s => trivial
  | action a => trivial

theorem Iterator.Avoids.later (h : σ.Retains τ) {x : Iterator W} (hx : x.Avoids it σ) :
    x.Avoids it τ := by
  cases x with
  | caller answer n => exact fun n w v e => (hx n w v e).later h
  | items q i => exact fun k v e => (hx k v e).later h
  | walk s g => exact Value.Avoids.later h hx
  | spent => trivial

theorem Iterator.Avoids.moved {x : Iterator W} (hx : x.Avoids it σ) : x.moved.Avoids it σ := by
  cases x with
  | walk s g => exact Value.Avoids.nil
  | _ => exact hx

theorem Iterator.Avoids.onward {x : Iterator W} {s : Stream Value} (hx : x.Avoids it σ)
    (hs : s.Avoids it σ) : (x.onward s).Avoids it σ := by
  cases x with
  | walk t g => exact hs
  | _ => exact hx

/-- What the iterator answers does not lead to `it`. -/
theorem Iterator.Avoids.answer {x : Iterator W} (hx : x.Avoids it σ) {w : W}
    (h : (x.answer w).1 = .ok (some v)) : v.Avoids it σ := by
  cases x with
  | caller answer asked =>
    cases given : (answer asked w).1 with
    | item u =>
      simp only [Iterator.answer, given, Except.ok.injEq, Option.some.injEq] at h
      exact hx asked w v (h ▸ given)
    | _ => simp [Iterator.answer, given] at h
  | items q i => exact hx i v (by simpa [Iterator.answer] using h)
  | _ => simp [Iterator.answer] at h

namespace Store

theorem Untouched.refl (h : σ.Private it) : σ.Untouched it σ := ⟨h, .refl σ, .refl σ, rfl, rfl⟩

theorem Untouched.trans (h : σ.Untouched it τ) (h' : τ.Untouched it υ) : σ.Untouched it υ where
  alone := h'.alone
  retains := h.retains.trans h'.retains
  continues := h.continues.trans h'.continues
  view := h'.view.trans h.view
  same := h'.same.trans h.same

/-! ### Single changes -/

/-- What did not lead to the iterator before a change does not do so after it. -/
theorem Private.of_before (retains : σ.Retains τ)
    (tails : ∀ (i : Nat) (m : Memo (Tail W) (Option (Stream Value))), τ.tails[i]? = some m →
      m.thunk.Simple → m.thunk.Avoids it σ ∧ ∀ s, m.slot = .known (some s) → s.Avoids it σ)
    (cells : ∀ (i : Nat) (m : Memo IteratorId (Option (Value × Stream Value))) (v : Value)
      (s : Stream Value), τ.cells[i]? = some m → m.slot = .known (some (v, s)) →
      v.Avoids it σ ∧ (m.thunk ≠ it → s.Avoids it σ))
    (iterators : ∀ (i : Nat) (x : Iterator W), τ.iterators[i]? = some x → x.Avoids it σ) :
    τ.Private it where
  tails i m hm simple := by
    obtain ⟨thunk, slot⟩ := tails i m hm simple
    exact ⟨thunk.later retains, fun s hs => (slot s hs).later retains⟩
  cells i m v s hm hs := by
    obtain ⟨hv, hs⟩ := cells i m v s hm hs
    exact ⟨hv.later retains, fun other => (hs other).later retains⟩
  iterators i x hx := (iterators i x hx).later retains

/-- Nothing is done with tails, cells and iterators. -/
theorem Private.aside (h : σ.Private it) (ht : τ.tails = σ.tails) (hc : τ.cells = σ.cells)
    (hi : τ.iterators = σ.iterators) (continues : σ.Continues τ) : σ.Untouched it τ := by
  have retains : σ.Retains τ := ⟨fun _ m hm => ⟨m, ht ▸ hm, rfl⟩, fun _ m hm => ⟨m, hc ▸ hm, rfl⟩⟩
  refine ⟨.of_before retains ?_ ?_ ?_, retains, continues, ?_, by rw [hi]⟩
  · rw [ht]
    exact h.tails
  · rw [hc]
    exact h.cells
  · rw [hi]
    exact h.iterators
  · funext c
    rw [Store.over, Store.over, hc]

/-- A tail is made. -/
theorem Private.pushTail (h : σ.Private it) {t : Tail W} (ht : t.Simple → t.Avoids it σ) :
    σ.Untouched it { σ with tails := σ.tails.push ⟨t, .unset⟩ } := by
  have retains : σ.Retains { σ with tails := σ.tails.push ⟨t, .unset⟩ } :=
    (Adds.pushTail σ t).toGrows.retains
  refine ⟨.of_before retains (fun i m hm simple => ?_) h.cells h.iterators, retains,
    .refl σ, rfl, rfl⟩
  rw [Array.getElem?_push] at hm
  split at hm
  · cases hm
    refine ⟨ht simple, fun s hs => ?_⟩
    cases hs
  · exact h.tails i m hm simple

/-- Something else is known of a tail. -/
theorem Private.putTail (h : σ.Private it) (i : Nat) (slot : Slot (Option (Stream Value)))
    (hs : ∀ (m : Memo (Tail W) (Option (Stream Value))) s, σ.tails[i]? = some m → m.thunk.Simple →
      slot = .known (some s) → s.Avoids it σ) :
    σ.Untouched it (Shelf.tails.put i slot σ) := by
  have found (j : Nat) : (Shelf.tails.put i slot σ).tails[j]? =
      if i = j then σ.tails[j]?.map fun m => ⟨m.thunk, slot⟩ else σ.tails[j]? := by
    simp only [Shelf.tails, Memo.putSlot, Array.getElem?_modify]
  have retains : σ.Retains (Shelf.tails.put i slot σ) := by
    refine ⟨fun j m hm => ?_, fun _ m hm => ⟨m, hm, rfl⟩⟩
    rw [found, hm]
    split
    · exact ⟨_, rfl, rfl⟩
    · exact ⟨m, rfl, rfl⟩
  refine ⟨.of_before retains (fun j m hm simple => ?_) h.cells h.iterators, retains,
    .refl σ, rfl, rfl⟩
  rw [found] at hm
  split at hm
  · next e =>
    subst e
    obtain ⟨n, hn, rfl⟩ := Option.map_eq_some_iff.mp hm
    exact ⟨(h.tails i n hn simple).1, fun s known => hs n s hn simple known⟩
  · exact h.tails j m hm simple

/-- Something else is known of a tail for which a parser is run. -/
theorem Private.putParse (h : σ.Private it) {i : TailId} {m : Memo (Tail W) (Option (Stream Value))}
    {p : ParserId} {s : State Value} (found : σ.tails[i.index]? = some m)
    (hm : m.thunk = .parse p s)
    (slot : Slot (Option (Stream Value))) : σ.Untouched it (Shelf.tails.put i.index slot σ) := by
  refine h.putTail i.index slot fun n t hn simple _ => ?_
  cases found.symm.trans hn
  rw [hm] at simple
  exact simple.elim

/-- A cell is made. -/
theorem Private.pushCell (h : σ.Private it) (other : IteratorId) :
    Private it { σ with cells := σ.cells.push ⟨other, .unset⟩ } := by
  refine .of_before (Adds.pushCell σ other).toGrows.retains h.tails
    (fun i m v s hm hs => ?_) h.iterators
  rw [Array.getElem?_push] at hm
  split at hm
  · cases hm
    cases hs
  · exact h.cells i m v s hm hs

/-- A cell is made that is filled from another iterator. -/
theorem Private.untouched_pushCell (h : σ.Private it) {other : IteratorId} (ho : other ≠ it) :
    σ.Untouched it { σ with cells := σ.cells.push ⟨other, .unset⟩ } := by
  refine ⟨h.pushCell other, (Adds.pushCell σ other).toGrows.retains, .refl σ, ?_, rfl⟩
  funext c
  rw [Store.over, Store.over]
  -- The cell that is made is not one of the iterator, and the others are where they were.
  by_cases e : c.index = σ.cells.size
  · have last : (σ.cells.push ⟨other, .unset⟩)[c.index]? = some ⟨other, .unset⟩ := by
      rw [e, Array.getElem?_push_size]
    have beyond : σ.cells[c.index]? = none := Array.getElem?_eq_none (Nat.le_of_eq e.symm)
    simp only [last, beyond, if_neg ho]
  · rw [Array.getElem?_push, if_neg e]

theorem getElem?_putCell (σ : Store W) (c : CellId) (slot : CellSlot) (i : Nat) :
    (Shelf.cells.put c.index slot σ).cells[i]? =
      if c.index = i then σ.cells[i]?.map fun m => ⟨m.thunk, slot⟩ else σ.cells[i]? := by
  simp only [Shelf.cells, Memo.putSlot, Array.getElem?_modify]

theorem Retains.putCell (σ : Store W) (c : CellId) (slot : CellSlot) :
    σ.Retains (Shelf.cells.put c.index slot σ) := by
  refine ⟨fun _ n hn => ⟨n, hn, rfl⟩, fun i n hn => ?_⟩
  rw [getElem?_putCell, hn]
  split
  · exact ⟨_, rfl, rfl⟩
  · exact ⟨n, rfl, rfl⟩

/-- Something else is known of a cell. -/
theorem Private.putCell (h : σ.Private it) {c : CellId}
    {m : Memo IteratorId (Option (Value × Stream Value))} (hc : σ.cells[c.index]? = some m)
    (slot : CellSlot) (hs : ∀ v s, slot = .known (some (v, s)) →
      v.Avoids it σ ∧ (m.thunk ≠ it → s.Avoids it σ)) :
    Private it (Shelf.cells.put c.index slot σ) := by
  refine .of_before (.putCell σ c slot) h.tails (fun i n v s hn known => ?_) h.iterators
  rw [getElem?_putCell] at hn
  split at hn
  · next e =>
    subst e
    rw [hc] at hn
    cases hn
    exact hs v s known
  · exact h.cells i n v s hn known

/-- Something else is known of a cell that is filled from another iterator. -/
theorem Private.untouched_putCell (h : σ.Private it) {c : CellId}
    {m : Memo IteratorId (Option (Value × Stream Value))} (hc : σ.cells[c.index]? = some m)
    (other : m.thunk ≠ it) (slot : CellSlot)
    (hs : ∀ v s, slot = .known (some (v, s)) → v.Avoids it σ ∧ s.Avoids it σ) :
    σ.Untouched it (Shelf.cells.put c.index slot σ) := by
  have alone : Private it (Shelf.cells.put c.index slot σ) := h.putCell hc slot fun v s e =>
    ⟨(hs v s e).1, fun _ => (hs v s e).2⟩
  refine ⟨alone, .putCell σ c slot, .refl σ, ?_, rfl⟩
  funext d
  rw [Store.over, Store.over, getElem?_putCell]
  by_cases e : c.index = d.index
  · rw [if_pos e, ← e, hc]
    exact (if_neg other).trans (if_neg other).symm
  · rw [if_neg e]

/-- An iterator moves on. -/
theorem Private.alterIterator (h : σ.Private it) (other : IteratorId) {f : Iterator W → Iterator W}
    (hf : ∀ x, x.Avoids it σ → (f x).Avoids it σ) :
    Private it { σ with iterators := σ.iterators.modify other.index f } := by
  have retains : σ.Retains { σ with iterators := σ.iterators.modify other.index f } :=
    ⟨fun _ m hm => ⟨m, hm, rfl⟩, fun _ m hm => ⟨m, hm, rfl⟩⟩
  refine .of_before retains h.tails h.cells fun i x hx => ?_
  rw [Array.getElem?_modify] at hx
  split at hx
  · obtain ⟨y, hy, rfl⟩ := Option.map_eq_some_iff.mp hx
    exact hf y (h.iterators i y hy)
  · exact h.iterators i x hx

/-- Another iterator moves on. -/
theorem Private.untouched_alterIterator (h : σ.Private it) {other : IteratorId} (ho : other ≠ it)
    {f : Iterator W → Iterator W} (hf : ∀ x, x.Avoids it σ → (f x).Avoids it σ) :
    σ.Untouched it { σ with iterators := σ.iterators.modify other.index f } := by
  refine ⟨h.alterIterator other hf, ⟨fun _ m hm => ⟨m, hm, rfl⟩, fun _ m hm => ⟨m, hm, rfl⟩⟩,
    .refl σ, rfl, ?_⟩
  have apart : other.index ≠ it.index := fun e => ho (congrArg IteratorId.mk e)
  exact (Array.getElem?_modify ..).trans (if_neg apart)

end Store

end

/-! ## Computations -/

/-- The computation leaves the iterator alone, and what it gives has the property `Q`. -/
def IteratorId.Spared (it : IteratorId) (Q : Store W → α → Prop) (σ : Store W) :
    EStateM.Result Stop (Store W) α → Prop
  | .ok a τ => σ.Untouched it τ ∧ Q τ a
  | .error _ τ => σ.Untouched it τ

/-- What follows does not lead to the iterator. -/
def IteratorId.SparesRest (it : IteratorId) (σ : Store W) (o : Option (Stream Value)) : Prop :=
  ∀ s, o = some s → s.Avoids it σ

/-- Neither an element does so, nor what follows it. -/
def IteratorId.SparesPair (it : IteratorId) (σ : Store W) (o : Option (Value × Stream Value)) :
    Prop :=
  ∀ v s, o = some (v, s) → v.Avoids it σ ∧ s.Avoids it σ

/-- Deferred parts that do not lead to the iterator are computed without asking it. -/
structure Means.Spares (m : Means W) (it : IteratorId) : Prop where
  /-- Tails. -/
  tails : ∀ {σ : Store W} {i : TailId} {x : Memo (Tail W) (Option (Stream Value))}, σ.Private it →
    σ.tails[i.index]? = some x → x.thunk.Simple → it.Spared it.SparesRest σ (m.force (.tail i) σ)
  /-- Cells of other iterators. -/
  cells : ∀ {σ : Store W} {c : CellId} {x : Memo IteratorId (Option (Value × Stream Value))},
    σ.Private it → σ.cells[c.index]? = some x → x.thunk ≠ it →
    it.Spared it.SparesPair σ (m.force (.cell c) σ)

section

variable {it : IteratorId} {σ τ : Store W} {m : Means W} {Q R : Store W → α → Prop}
  {Q' : Store W → β → Prop} {v u : Value} {s t : Stream Value}

theorem spared_pure {a : α} (h : σ.Private it) (ha : Q σ a) :
    it.Spared Q σ ((pure a : Eval W α) m σ) := ⟨.refl h, ha⟩

theorem spared_throw (h : σ.Private it) (e : Stop) :
    it.Spared Q σ ((throw e : Eval W α) m σ) := .refl h

theorem spared_bind {x : Eval W α} {f : α → Eval W β} (hx : it.Spared Q σ (x m σ))
    (hf : ∀ a τ, σ.Untouched it τ → Q τ a → it.Spared Q' τ (f a m τ)) :
    it.Spared Q' σ ((x >>= f) m σ) := by
  rw [Eval.run_bind]
  cases h : x m σ with
  | error e τ =>
    rw [h] at hx
    exact hx
  | ok a τ =>
    rw [h] at hx
    obtain ⟨untouched, ha⟩ := hx
    have next := hf a τ untouched ha
    change it.Spared Q' σ (f a m τ)
    cases h' : f a m τ with
    | error e υ =>
      rw [h'] at next
      exact untouched.trans next
    | ok b υ =>
      rw [h'] at next
      exact ⟨untouched.trans next.1, next.2⟩

/-! ### Questions to streams -/

theorem spared_isEmpty (hm : m.Spares it) (h : σ.Private it) (hs : s.Avoids it σ) :
    it.Spared (fun _ _ => True) σ ((s.isEmpty : Eval W Bool) m σ) := by
  cases s with
  | pulled c =>
    cases hs with
    | pulled hc other =>
      refine spared_bind (x := Eval.force (.cell c)) (hm.cells h hc other) fun o τ untouched _ => ?_
      exact spared_pure untouched.alone trivial
  | _ => exact spared_pure h trivial

/-- The elements of a sequence are found from the front or from the end. -/
theorem Sequence.exists_get {q : Sequence Value} {i : Int} (h : q.get? i = some v) :
    ∃ k, q.items.get? k = some v := by
  rw [Sequence.get?] at h
  split at h
  · exact ⟨_, h⟩
  · split at h
    · exact ⟨_, h⟩
    · cases h

theorem spared_first (hm : m.Spares it) (h : σ.Private it) (hs : s.Avoids it σ) :
    it.Spared (fun τ v => v.Avoids it τ) σ ((s.first : Eval W Value) m σ) := by
  cases s with
  | nil => exact spared_throw h _
  | cons n v t =>
    cases hs with
    | cons hv _ => exact spared_pure h hv
  | lazy n v i =>
    cases hs with
    | lazy hv _ _ => exact spared_pure h hv
  | view q i handle =>
    cases hs with
    | view items =>
      rw [Stream.first]
      split
      · exact spared_throw h _
      · cases found : q.get? i with
        | none => exact spared_throw h _
        | some v =>
          obtain ⟨k, hk⟩ := Sequence.exists_get found
          exact spared_pure h (items k v hk)
  | pulled c =>
    cases hs with
    | pulled hc other =>
      refine spared_bind (x := Eval.force (.cell c)) (hm.cells h hc other)
        fun o τ untouched pair => ?_
      cases o with
      | none => exact spared_throw untouched.alone _
      | some o => exact spared_pure untouched.alone (pair o.1 o.2 rfl).1

theorem spared_rest (hm : m.Spares it) (h : σ.Private it) (hs : s.Avoids it σ) :
    it.Spared (fun τ t => t.Avoids it τ) σ ((s.rest : Eval W (Stream Value)) m σ) := by
  cases s with
  | nil => exact spared_pure h .nil
  | cons n v t =>
    cases hs with
    | cons _ ht => exact spared_pure h ht
  | lazy n v i =>
    cases hs with
    | lazy _ hi simple =>
      refine spared_bind (x := Eval.force (.tail i)) (hm.tails h hi simple)
        fun o τ untouched rest => ?_
      cases o with
      | none => exact spared_throw untouched.alone _
      | some t => exact spared_pure untouched.alone (rest t rfl)
  | view q i handle =>
    cases hs with
    | view items =>
      rw [Stream.rest]
      refine spared_pure h ?_
      split
      · exact .view items
      · exact .view items
  | pulled c =>
    cases hs with
    | pulled hc other =>
      refine spared_bind (x := Eval.force (.cell c)) (hm.cells h hc other)
        fun o τ untouched pair => ?_
      cases o with
      | none => exact spared_pure untouched.alone .nil
      | some o => exact spared_pure untouched.alone (pair o.1 o.2 rfl).2

/-! ### Making streams -/

theorem spared_serial (h : σ.Private it) :
    it.Spared (fun _ _ => True) σ ((Eval.serial : Eval W Nat) m σ) :=
  ⟨h.aside rfl rfl rfl (.refl _), trivial⟩

/-- A message to the log. -/
theorem spared_debug (h : σ.Private it) (message : Store W → String) :
    it.Spared (fun _ _ => True) σ (Eval.debug message m σ) := by
  rw [Eval.run_debug]
  split
  · exact ⟨h.aside rfl rfl rfl (.refl _), trivial⟩
  · exact ⟨.refl h, trivial⟩

theorem spared_consCell (h : σ.Private it) (hv : v.Avoids it σ) (hs : s.Avoids it σ) :
    it.Spared (fun τ t => t.Avoids it τ) σ ((Stream.consCell v s : Eval W (Stream Value)) m σ) :=
  spared_bind (spared_serial h) fun _ _ untouched _ =>
    spared_pure untouched.alone (.cons (hv.later untouched.retains) (hs.later untouched.retains))

theorem spared_lazyCell (h : σ.Private it) {x : Tail W} (hv : v.Avoids it σ) (simple : x.Simple)
    (hx : x.Avoids it σ) :
    it.Spared (fun τ t => t.Avoids it τ) σ ((Stream.lazyCell v x : Eval W (Stream Value)) m σ) := by
  refine spared_bind (spared_serial h) fun n τ untouched _ => ?_
  have pushed := untouched.alone.pushTail fun _ => hx.later untouched.retains
  exact ⟨pushed, .lazy ((hv.later untouched.retains).later pushed.retains)
    Array.getElem?_push_size simple⟩

theorem spared_append (hm : m.Spares it) (h : σ.Private it) (hs : s.Avoids it σ)
    (ht : t.Avoids it σ) :
    it.Spared (fun τ t => t.Avoids it τ) σ ((s.append t : Eval W (Stream Value)) m σ) := by
  refine spared_bind (spared_isEmpty hm h hs) fun empty τ untouched _ => ?_
  have hs := hs.later untouched.retains
  have ht := ht.later untouched.retains
  split
  · exact spared_pure untouched.alone ht
  · refine spared_bind (spared_first hm untouched.alone hs) fun v τ untouched hv => ?_
    exact spared_lazyCell untouched.alone hv trivial
      ⟨hs.later untouched.retains, ht.later untouched.retains⟩

theorem spared_ofValue (h : σ.Private it) (hv : v.Avoids it σ) :
    it.Spared (fun τ t => t.Avoids it τ) σ ((Stream.ofValue v : Eval W (Stream Value)) m σ) := by
  cases v with
  | stream s => exact spared_pure h hv
  | _ => exact spared_throw h _

/-! ### Reading many elements -/

theorem spared_toListFrom (hm : m.Spares it) (h : σ.Private it) {vs : List Value} (n : Nat)
    (hvs : ∀ v ∈ vs, v.Avoids it σ) (hs : s.Avoids it σ) :
    it.Spared (fun τ vs => ∀ v ∈ vs, v.Avoids it τ) σ
      ((Stream.toListFrom n vs s : Eval W (List Value)) m σ) := by
  induction n generalizing σ vs s with
  | zero => exact spared_throw h _
  | succ n ih =>
    refine spared_bind (spared_isEmpty hm h hs) fun empty τ k _ => ?_
    have hvs (v : Value) (hv : v ∈ vs) := (hvs v hv).later k.retains
    have hs := hs.later k.retains
    split
    · exact spared_pure k.alone fun v hv => hvs v (List.mem_reverse.mp hv)
    · refine spared_bind (spared_first hm k.alone hs) fun v υ k' hv => ?_
      refine spared_bind (spared_rest hm k'.alone (hs.later k'.retains)) fun t υ' k'' ht => ?_
      refine ih k''.alone (fun u hu => ?_) ht
      -- The elements that have been read did not lead to the iterator when they were read.
      rcases List.mem_cons.mp hu with rfl | hu
      · exact hv.later k''.retains
      · exact ((hvs u hu).later k'.retains).later k''.retains

theorem spared_toList (hm : m.Spares it) (h : σ.Private it) (hs : s.Avoids it σ) :
    it.Spared (fun τ vs => ∀ v ∈ vs, v.Avoids it τ) σ ((s.toList : Eval W (List Value)) m σ) :=
  spared_toListFrom hm h _ (by simp) hs

/-! ### Joining results -/

theorem Value.Avoids.ignore (h : v.Avoids it σ) : v.ignore.Avoids it σ := by
  cases v with
  | ignored v => exact h
  | _ => exact .ignored h

/-- Results that do not lead to the iterator are joined to such a result. -/
theorem spared_join (hm : m.Spares it) (h : σ.Private it) (c : Combine) (hv : v.Avoids it σ)
    (hu : u.Avoids it σ) :
    it.Spared (fun τ w => w.Avoids it τ) σ ((c.join v u : Eval W Value) m σ) := by
  have stream {σ : Store W} {x : Eval W (Stream Value)}
      (hx : it.Spared (fun τ t => t.Avoids it τ) σ (x m σ)) :
      it.Spared (fun τ w => w.Avoids it τ) σ ((do return .stream (← x) : Eval W Value) m σ) :=
    spared_bind hx fun _ _ untouched ht => spared_pure untouched.alone ht
  cases c with
  | first => exact spared_pure h hv
  | second => exact spared_pure h hu
  | group =>
    have pair : (Value.group [v, u]).Avoids it σ := by
      refine .group fun w hw => ?_
      obtain rfl | rfl : w = v ∨ w = u := by simpa using hw
      · exact hv
      · exact hu
    cases v with
    | group vs =>
      refine spared_pure h (.group fun w hw => ?_)
      rcases List.mem_append.mp hw with hw | hw
      · cases hv with
        | group each => exact each w hw
      · obtain rfl := List.mem_singleton.mp hw
        exact hu
    | _ => exact spared_pure h pair
  | cons =>
    cases u with
    | stream s => exact stream (spared_consCell h hv hu)
    -- The tail refuses what is no stream, without a look at it.
    | _ => exact stream (spared_lazyCell h hv ⟨_, rfl⟩ trivial)
  | append =>
    refine spared_bind (spared_ofValue h hv) fun s τ untouched hs => ?_
    refine spared_bind (spared_ofValue untouched.alone (hu.later untouched.retains))
      fun t τ untouched ht => ?_
    exact stream (spared_append hm untouched.alone (hs.later untouched.retains) ht)

/-- Reading a result into a list. -/
theorem spared_listOf (hm : m.Spares it) (h : σ.Private it) (hv : v.Avoids it σ) :
    it.Spared (fun τ w => w.Avoids it τ) σ ((Build.listOf v : Action W Value).run m σ) := by
  have each {vs : List Value} (hvs : ∀ v ∈ vs, v.Avoids it σ) :
      it.Spared (fun τ w => w.Avoids it τ) σ ((pure (.list vs) : Eval W Value) m σ) :=
    spared_pure h (.list hvs)
  have triple {x y z : Value} (hx : x.Avoids it σ) (hy : y.Avoids it σ) (hz : z.Avoids it σ) :
      ∀ w ∈ [x, y, z], w.Avoids it σ := by
    simp only [List.mem_cons, List.not_mem_nil, or_false, forall_eq_or_imp, forall_eq]
    exact ⟨hx, hy, hz⟩
  -- Only a stream has to be read; what else can be listed holds its elements.
  cases v with
  | stream s =>
    exact spared_bind (spared_toList hm h hv) fun _ _ k hvs => spared_pure k.alone (.list hvs)
  | text t => exact each (by simp [Value.Avoids.text])
  | list vs =>
    cases hv with
    | list hvs => exact each hvs
  | tuple vs =>
    cases hv with
    | tuple hvs => exact each hvs
  | group vs =>
    cases hv with
    | group hvs => exact each hvs
  | dict es =>
    cases hv with
    | dict keys _ =>
      refine each fun k hk => ?_
      obtain ⟨e, he, rfl⟩ := List.mem_map.mp hk
      exact keys e he
  | reply r =>
    cases hv with
    | ok hv hs => exact each (triple (.outcome _) hv hs)
    | err he hs => exact each (triple (.outcome _) he hs)
  | _ => exact spared_throw h _

/-! ### Deferred parts -/

theorem spared_compute (hm : m.Spares it) (h : σ.Private it) {x : Tail W} (simple : x.Simple)
    (hx : x.Avoids it σ) : it.Spared it.SparesRest σ (x.compute m σ) := by
  cases x with
  | append a b =>
    refine spared_bind (spared_rest hm h hx.1) fun s τ untouched hs => ?_
    have hb := Value.Avoids.later untouched.retains hx.2
    refine spared_bind (spared_append hm untouched.alone hs hb) fun t τ untouched ht => ?_
    exact spared_pure untouched.alone fun s e => Option.some.inj e ▸ ht
  -- A parser may read from the iterator, so such a tail is not asked.
  | parse p s => exact simple.elim
  | action a =>
    obtain ⟨f, rfl⟩ := simple
    exact spared_throw (m := m) h _

/-- Another iterator gives its next element. -/
theorem spared_next (hm : m.Spares it) (h : σ.Private it) {other : IteratorId} (ho : other ≠ it) :
    it.Spared (fun τ o => ∀ v, o = some v → v.Avoids it τ) σ
      ((other.next : Eval W (Option Value)) m σ) := by
  rw [IteratorId.next]
  refine spared_bind (Q := fun τ σ' => σ = τ ∧ σ = σ') ⟨.refl h, rfl, rfl⟩ ?_
  rintro _ _ _ ⟨rfl, rfl⟩
  cases found : σ.iterators[other.index]? with
  | none => exact spared_throw (m := m) h _
  | some now =>
    have avoids := h.iterators _ _ found
    have moved := h.untouched_alterIterator ho fun _ => Iterator.Avoids.moved
    refine spared_bind (spared_pure h (Q := fun τ x => σ = τ ∧ now = x) ⟨rfl, rfl⟩) ?_
    rintro _ _ _ ⟨rfl, rfl⟩
    refine spared_bind (Q := fun _ _ => True) ⟨moved, trivial⟩ fun _ τ k _ => ?_
    cases now with
    | spent => exact spared_pure k.alone fun v e => by cases e
    | items q i => exact spared_pure k.alone fun v e => (avoids i v e).later k.retains
    | caller answer asked =>
      have answered : τ.Untouched it { τ with world := (answer asked τ.world).2 } :=
        k.alone.aside rfl rfl rfl (.refl _)
      refine spared_bind (Q := fun τ p => ∀ v, p = Pull.item v → v.Avoids it τ)
        ⟨answered, fun v e => ?_⟩ fun p υ k' hp => ?_
      · exact ((avoids asked _ v e).later k.retains).later answered.retains
      · cases p with
        | item v => exact spared_pure k'.alone fun w e => Option.some.inj e ▸ hp v rfl
        | finished => exact spared_pure k'.alone fun w e => by cases e
        | failed f => exact spared_throw k'.alone _
    | walk s given =>
      have hs : s.Avoids it τ := Value.Avoids.later k.retains avoids
      -- A walk asks its stream, which does not lead to the iterator.
      have walked {s : Stream Value} {υ : Store W} (alone : υ.Private it) (hs : s.Avoids it υ) :
          it.Spared (fun τ o => ∀ v, o = some v → v.Avoids it τ) υ
            ((do if ← s.isEmpty then return none
                 else
                   let v ← s.first
                   other.alter (Iterator.onward s)
                   return some v : Eval W (Option Value)) m υ) := by
        refine spared_bind (spared_isEmpty hm alone hs) fun empty τ k _ => ?_
        have hs := hs.later k.retains
        split
        · exact spared_pure k.alone fun v e => by cases e
        · refine spared_bind (spared_first hm k.alone hs) fun v τ k hv => ?_
          have onward := k.alone.untouched_alterIterator ho fun _ hx =>
            Iterator.Avoids.onward hx (hs.later k.retains)
          refine spared_bind (Q := fun _ _ => True) ⟨onward, trivial⟩ fun _ τ k _ => ?_
          exact spared_pure k.alone fun w e => Option.some.inj e ▸ hv.later k.retains
      cases given with
      | true => exact spared_bind (spared_rest hm k.alone hs) fun t υ k ht => walked k.alone ht
      | false => exact spared_bind (spared_pure k.alone hs) fun t υ k ht => walked k.alone ht

theorem spared_pull (hm : m.Spares it) (h : σ.Private it) {other : IteratorId} (ho : other ≠ it) :
    it.Spared it.SparesPair σ ((other.pull : Eval W (Option (Value × Stream Value))) m σ) := by
  refine spared_bind (spared_next hm h ho) fun o τ k hv => ?_
  cases o with
  | none => exact spared_pure k.alone fun _ _ e => by cases e
  | some v =>
    -- The cell that is made is filled from the other iterator too.
    have made := k.alone.untouched_pushCell ho
    refine spared_bind (Q := fun τ t => Stream.Avoids it τ t) ⟨made, ?_⟩ fun t υ k' ht => ?_
    · exact .pulled Array.getElem?_push_size ho
    · refine spared_pure k'.alone fun u s e => ?_
      cases e
      exact ⟨(hv v rfl).later k'.retains, ht⟩

/-- The value of a part whose computation leaves the iterator alone, as does keeping what it gives.
-/
theorem spared_get {θ : Type} {shelf : Shelf W θ α} {i : Nat} {compute : θ → Change W α}
    {x : Memo θ α} (h : σ.Private it) (found : shelf.find i σ = some x)
    (known : ∀ a, x.slot = .known a → Q σ a)
    (computed : σ.Untouched it (shelf.put i .busy σ) →
      it.Spared Q (shelf.put i .busy σ) (compute x.thunk (shelf.put i .busy σ)))
    (put : ∀ {τ : Store W} (slot : Slot α), σ.Untouched it τ → (∀ a, slot = .known a → Q τ a) →
      τ.Untouched it (shelf.put i slot τ))
    (later : ∀ {τ υ : Store W} {a : α}, τ.Untouched it υ → Q τ a → Q υ a) :
    it.Spared Q σ (shelf.get i compute σ) := by
  obtain ⟨t, slot⟩ := x
  cases slot with
  | known a =>
    rw [Shelf.get_known found]
    exact ⟨.refl h, known a rfl⟩
  | busy =>
    rw [Shelf.get, found]
    exact .refl h
  | unset =>
    rw [Shelf.get_unset found]
    -- While the part is computed it is busy, and after a fault it is as it was before.
    have busy := put .busy (.refl h) fun a e => by cases e
    have result := computed busy
    cases e : compute t (shelf.put i .busy σ) with
    | ok a τ =>
      rw [e] at result
      obtain ⟨untouched, ha⟩ := result
      have so := busy.trans untouched
      have kept := put (.known a) so fun b e => by
        cases e
        exact ha
      exact ⟨so.trans kept, later kept ha⟩
    | error f τ =>
      rw [e] at result
      have so := busy.trans result
      have kept := put .unset so fun a e => by cases e
      exact so.trans kept

/-- Deferred parts that do not lead to the iterator are computed without asking it, however deeply
they are nested. -/
theorem spares_within (it : IteratorId) (n : Nat) : (Means.within n : Means W).Spares it := by
  -- The induction is on the depth: a part is computed with means that go one part less deep.
  induction n with
  | zero => exact ⟨fun h _ _ => .refl h, fun h _ _ => .refl h⟩
  | succ n ih =>
    constructor
    · intro σ i x h found simple
      obtain ⟨thunk, slot⟩ := h.tails _ x found simple
      change it.Spared it.SparesRest σ (Shelf.tails.get i.index (fun t => t.compute (.within n)) σ)
      apply spared_get h found
      · exact fun a known s e => slot s (e ▸ known)
      · exact fun busy => spared_compute ih busy.alone simple (thunk.later busy.retains)
      · exact fun slot k rest => k.alone.putTail i.index slot fun _ s _ _ e => rest _ e s rfl
      · exact fun k rest s e => (rest s e).later k.retains
    · intro σ c x h found other
      change it.Spared it.SparesPair σ (Shelf.cells.get c.index (fun j => j.pull (.within n)) σ)
      apply spared_get h found
      · intro a known v s e
        obtain ⟨hv, hs⟩ := h.cells _ x v s found (e ▸ known)
        exact ⟨hv, hs other⟩
      · exact fun busy => spared_pull ih busy.alone other
      · intro τ slot k pair
        -- The cell that was asked is still filled from the other iterator.
        obtain ⟨y, hy, same⟩ := k.retains.cells _ x found
        exact k.alone.untouched_putCell hy (same ▸ other) slot fun v s e => pair _ e v s rfl
      · intro τ υ a k pair v s e
        obtain ⟨hv, hs⟩ := pair v s e
        exact ⟨hv.later k.retains, hs.later k.retains⟩

end

end ResumableParsing
