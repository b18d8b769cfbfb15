import ResumableParsing.Stream.Reading

/-!
# Growth of the store

Nothing that a computation has found out is ever lost. Deferred parts that are known stay known,
parsers keep their run functions, the buffers of chunks only get longer and sessions stay what they
are.

* `Store.Dry`: cells in which no element will ever be found
* `Store.Continues`: parsers do what they did
* `Store.Grows`: what a later store still knows
* `Store.Adds`: the store grows, and no deferred part has been computed
* `Store.Alike`: stores that differ at most in what belongs to states, results and sessions
-/

namespace ResumableParsing

variable {W : Type}

/-! ## Later stores -/

/-- Each deferred part is still there and computed in the same way; if it was known or busy, it is
so still. -/
def Memo.Keep {θ α : Type} (a b : Array (Memo θ α)) : Prop :=
  ∀ (i : Nat) (x : Memo θ α), a[i]? = some x → ∃ y : Memo θ α, b[i]? = some y ∧
    y.thunk = x.thunk ∧ (x.slot = .unset ∨ y.slot = x.slot)

/-- The iterator will never give an element, whatever becomes of the world. Walks along streams are
left out. -/
def Iterator.Barren : Iterator W → Prop
  | .caller answer asked => ∀ k ≥ asked, ∀ w, (answer k w).1 = .finished
  | .items q i => ∀ k ≥ i, q.items.get? k = none
  | .walk .. => False
  | .spent => True

/-- No element is known of the cell, and none can be found, because its iterator has none. -/
def Store.Dry (σ : Store W) (c : Nat) : Prop :=
  ∃ (x : Memo IteratorId (Option (Value × Stream Value))) (it : Iterator W),
    σ.cells[c]? = some x ∧ (∀ v, x.slot ≠ .known (some v)) ∧
    σ.iterators[x.thunk.index]? = some it ∧ it.Barren

/-- Parsers do what they did. -/
def Store.Continues (σ τ : Store W) : Prop :=
  ∀ (i : Nat) (c : Cell W), σ.parsers[i]? = some c →
    ∃ d : Cell W, τ.parsers[i]? = some d ∧ d.direct = c.direct ∧ d.logged = c.logged

/-- What a later store still knows. -/
structure Store.Grows (σ τ : Store W) : Prop where
  /-- The caller is told of tokens in the same way. -/
  watch : τ.watch = σ.watch
  /-- Logging stays on or off. -/
  logging : τ.logging = σ.logging
  /-- Serial numbers are not drawn again. -/
  nextSerial : σ.nextSerial ≤ τ.nextSerial
  /-- Iterators stay. -/
  iterators : σ.iterators.size ≤ τ.iterators.size
  /-- Tails stay. -/
  tails : Memo.Keep σ.tails τ.tails
  /-- Cells stay. -/
  cells : Memo.Keep σ.cells τ.cells
  /-- Dry cells stay dry. -/
  dry : ∀ c, σ.Dry c → τ.Dry c
  /-- Results stay. -/
  results : Memo.Keep σ.results τ.results
  /-- Memories of states inside chunks stay. -/
  advances : σ.advances.size ≤ τ.advances.size
  /-- Parsers do what they did. -/
  parsers : ∀ (i : Nat) (c : Cell W), σ.parsers[i]? = some c → ∃ d : Cell W,
    τ.parsers[i]? = some d ∧ d.direct = c.direct ∧ d.logged = c.logged
  /-- Buffers get longer. -/
  buffers : ∀ (i : Nat) (b : Array (Stream Value)), σ.buffers[i]? = some b →
    ∃ c : Array (Stream Value), τ.buffers[i]? = some c ∧ b.toList <+: c.toList
  /-- Sessions stay. -/
  sessions : ∀ (i : Nat) (s : Session W), σ.sessions[i]? = some s → τ.sessions[i]? = some s

namespace Store.Continues

variable {σ τ υ : Store W}

theorem refl (σ : Store W) : σ.Continues σ := fun _ c h => ⟨c, h, rfl, rfl⟩

theorem trans (h : σ.Continues τ) (h' : τ.Continues υ) : σ.Continues υ := by
  intro i c hc
  obtain ⟨d, hd, h₁, h₂⟩ := h i c hc
  obtain ⟨e, he, h₃, h₄⟩ := h' i d hd
  exact ⟨e, he, h₃.trans h₁, h₄.trans h₂⟩

end Store.Continues

namespace Memo.Keep

variable {θ α : Type} {a b c : Array (Memo θ α)}

theorem refl (a : Array (Memo θ α)) : Keep a a := fun _ x h => ⟨x, h, rfl, .inr rfl⟩

theorem trans (h : Keep a b) (h' : Keep b c) : Keep a c := by
  intro i x hx
  obtain ⟨y, hy, ht, hk⟩ := h i x hx
  obtain ⟨z, hz, ht', hk'⟩ := h' i y hy
  refine ⟨z, hz, ht'.trans ht, ?_⟩
  rcases hk with hk | hk
  · exact .inl hk
  · rcases hk' with hk' | hk'
    · exact .inl (hk.symm.trans hk')
    · exact .inr (hk'.trans hk)

theorem push (a : Array (Memo θ α)) (x : Memo θ α) : Keep a (a.push x) := by
  intro i y h
  obtain ⟨hi, rfl⟩ := Array.getElem?_eq_some_iff.mp h
  exact ⟨a[i], by rw [Array.getElem?_push_lt hi], rfl, .inr rfl⟩

theorem size_le (h : Keep a b) : a.size ≤ b.size := by
  apply Nat.le_of_not_lt
  intro less
  obtain ⟨y, hy, _⟩ := h b.size _ (Array.getElem?_eq_getElem less)
  simp at hy

end Memo.Keep

namespace Store.Grows

variable {σ τ υ : Store W}

theorem refl (σ : Store W) : σ.Grows σ where
  watch := rfl
  logging := rfl
  nextSerial := Nat.le_refl _
  iterators := Nat.le_refl _
  tails := .refl _
  cells := .refl _
  dry _ h := h
  results := .refl _
  advances := Nat.le_refl _
  parsers _ c h := ⟨c, h, rfl, rfl⟩
  buffers _ b h := ⟨b, h, List.prefix_refl _⟩
  sessions _ _ h := h

theorem trans (h : σ.Grows τ) (h' : τ.Grows υ) : σ.Grows υ where
  watch := h'.watch.trans h.watch
  logging := h'.logging.trans h.logging
  nextSerial := Nat.le_trans h.nextSerial h'.nextSerial
  iterators := Nat.le_trans h.iterators h'.iterators
  tails := h.tails.trans h'.tails
  cells := h.cells.trans h'.cells
  dry c hc := h'.dry c (h.dry c hc)
  results := h.results.trans h'.results
  advances := Nat.le_trans h.advances h'.advances
  parsers i c hc := by
    obtain ⟨d, hd, h₁, h₂⟩ := h.parsers i c hc
    obtain ⟨e, he, h₃, h₄⟩ := h'.parsers i d hd
    exact ⟨e, he, h₃.trans h₁, h₄.trans h₂⟩
  buffers i b hb := by
    obtain ⟨c, hc, hp⟩ := h.buffers i b hb
    obtain ⟨d, hd, hp'⟩ := h'.buffers i c hc
    exact ⟨d, hd, hp.trans hp'⟩
  sessions i s hs := h'.sessions i s (h.sessions i s hs)

end Store.Grows

/-! ## Messages -/

/-- The store with a message in the log, if logging is on. -/
def Store.noted (message : String) (σ : Store W) : Store W :=
  if σ.logging then { σ with log := message :: σ.log } else σ

/-! ## Cells and iterators -/

/-- What may be left of an iterator when elements have been taken from it. Of a walk along a stream
nothing is said. -/
def Iterator.Leaves : Iterator W → Iterator W → Prop
  | .caller answer asked, .caller answer' asked' => answer' = answer ∧ asked ≤ asked'
  | .items q i, .items q' j => q' = q ∧ i ≤ j
  | .walk .., .walk .. => True
  | .spent, .spent => True
  | _, _ => False

namespace Iterator.Leaves

variable {x y : Iterator W}

theorem refl (x : Iterator W) : x.Leaves x := by
  cases x with
  | caller answer asked => exact ⟨rfl, Nat.le_refl _⟩
  | items q i => exact ⟨rfl, Nat.le_refl _⟩
  | walk s given => trivial
  | spent => trivial

theorem moved (x : Iterator W) : x.Leaves x.moved := by
  cases x with
  | caller answer asked => exact ⟨rfl, Nat.le_succ _⟩
  | items q i => exact ⟨rfl, Nat.le_succ _⟩
  | walk s given => trivial
  | spent => trivial

theorem onward (s : Stream Value) (x : Iterator W) : x.Leaves (x.onward s) := by
  cases x with
  | walk t given => trivial
  | _ => exact refl _

theorem barren (h : x.Leaves y) (hx : x.Barren) : y.Barren := by
  cases x with
  | caller answer asked =>
    cases y with
    | caller answer' asked' =>
      obtain ⟨rfl, le⟩ := h
      exact fun k hk => hx k (by omega)
    | _ => exact h.elim
  | items q i =>
    cases y with
    | items q' j =>
      obtain ⟨rfl, le⟩ := h
      exact fun k hk => hx k (by omega)
    | _ => exact h.elim
  | walk s given => exact hx.elim
  | spent =>
    cases y with
    | spent => trivial
    | _ => exact h.elim

end Iterator.Leaves

/-- The store grows, and no deferred part is computed: of those that were there already, each is as
it was. -/
structure Store.Adds (σ τ : Store W) : Prop extends σ.Grows τ where
  /-- Tails are as they were. -/
  sameTails : ∀ (i : Nat) (x : Memo (Tail W) (Option (Stream Value))),
    σ.tails[i]? = some x → τ.tails[i]? = some x
  /-- Cells are as they were. -/
  sameCells : ∀ (i : Nat) (x : Memo IteratorId (Option (Value × Stream Value))),
    σ.cells[i]? = some x → τ.cells[i]? = some x
  /-- Elements may have been taken from iterators. -/
  taken : ∀ (i : Nat) (x : Iterator W), σ.iterators[i]? = some x →
    ∃ y, τ.iterators[i]? = some y ∧ x.Leaves y

theorem getElem?_push_of_eq_some {α : Type} {a : Array α} {i : Nat} {x : α} (h : a[i]? = some x)
    (y : α) : (a.push y)[i]? = some x := by
  obtain ⟨hi, rfl⟩ := Array.getElem?_eq_some_iff.mp h
  exact Array.getElem?_push_lt hi

namespace Store.Adds

theorem refl (σ : Store W) : σ.Adds σ where
  toGrows := .refl σ
  sameTails _ _ h := h
  sameCells _ _ h := h
  taken _ x h := ⟨x, h, .refl x⟩

theorem pushTail (σ : Store W) (x : Tail W) :
    σ.Adds { σ with tails := σ.tails.push ⟨x, .unset⟩ } :=
  { refl σ with
    tails := .push _ _
    sameTails := fun _ _ h => getElem?_push_of_eq_some h _ }

theorem pushCell (σ : Store W) (it : IteratorId) :
    σ.Adds { σ with cells := σ.cells.push ⟨it, .unset⟩ } := by
  refine { refl σ with
    cells := .push _ _
    sameCells := fun _ _ h => getElem?_push_of_eq_some h _
    dry := fun c h => ?_ }
  obtain ⟨x, i, hx, hs, hi, hb⟩ := h
  exact ⟨x, i, getElem?_push_of_eq_some hx _, hs, hi, hb⟩

theorem pushIterator (σ : Store W) (it : Iterator W) :
    σ.Adds { σ with iterators := σ.iterators.push it } := by
  refine { refl σ with
    iterators := by simp
    taken := fun _ x h => ⟨x, getElem?_push_of_eq_some h _, .refl x⟩
    dry := fun c h => ?_ }
  obtain ⟨x, i, hx, hs, hi, hb⟩ := h
  exact ⟨x, i, hx, hs, getElem?_push_of_eq_some hi _, hb⟩

theorem alterIterator (σ : Store W) (it : IteratorId) {f : Iterator W → Iterator W}
    (hf : ∀ x : Iterator W, x.Leaves (f x)) :
    σ.Adds { σ with iterators := σ.iterators.modify it.index f } := by
  have found {i : Nat} {x : Iterator W} (h : σ.iterators[i]? = some x) :
      ∃ y, (σ.iterators.modify it.index f)[i]? = some y ∧ x.Leaves y := by
    rw [Array.getElem?_modify, h]
    split
    · exact ⟨f x, rfl, hf x⟩
    · exact ⟨x, rfl, .refl x⟩
  refine { refl σ with
    iterators := by simp
    taken := fun _ _ => found
    dry := fun c h => ?_ }
  obtain ⟨x, i, hx, hs, hi, hb⟩ := h
  obtain ⟨y, hy, leaves⟩ := found hi
  exact ⟨x, y, hx, hs, hy, leaves.barren hb⟩

end Store.Adds

/-! ## Stores that differ aside -/

/-- The stores differ at most in the log and in what belongs to states, results and sessions. -/
structure Store.Alike (σ τ : Store W) : Prop where
  /-- The world. -/
  world : σ.world = τ.world
  /-- What the caller does with watched tokens. -/
  watch : σ.watch = τ.watch
  /-- Whether logging is on. -/
  logging : σ.logging = τ.logging
  /-- Serial numbers. -/
  nextSerial : σ.nextSerial = τ.nextSerial
  /-- Iterators. -/
  iterators : σ.iterators = τ.iterators
  /-- Tails. -/
  tails : σ.tails = τ.tails
  /-- Cells. -/
  cells : σ.cells = τ.cells
  /-- Parsers. -/
  parsers : σ.parsers = τ.parsers

theorem Store.Alike.refl (σ : Store W) : σ.Alike σ := ⟨rfl, rfl, rfl, rfl, rfl, rfl, rfl, rfl⟩

theorem Store.Alike.symm {σ τ : Store W} (h : σ.Alike τ) : τ.Alike σ :=
  ⟨h.world.symm, h.watch.symm, h.logging.symm, h.nextSerial.symm, h.iterators.symm, h.tails.symm,
    h.cells.symm, h.parsers.symm⟩

theorem Store.Alike.trans {σ τ υ : Store W} (h : σ.Alike τ) (h' : τ.Alike υ) : σ.Alike υ :=
  ⟨h.world.trans h'.world, h.watch.trans h'.watch, h.logging.trans h'.logging,
    h.nextSerial.trans h'.nextSerial, h.iterators.trans h'.iterators, h.tails.trans h'.tails,
    h.cells.trans h'.cells, h.parsers.trans h'.parsers⟩

/-- A message to the log. -/
theorem Store.alike_log (σ : Store W) (m : String) :
    σ.Alike (if σ.logging then { σ with log := m :: σ.log } else σ) := by
  split
  · exact { Alike.refl σ with }
  · exact .refl σ

/-- The texts of what a store holds depend on its cells and on the names of its parsers. -/
theorem Store.names_congr {σ τ : Store W} (cells : σ.cells = τ.cells)
    (name : σ.parserName = τ.parserName) : σ.names = τ.names := by
  have text (fuel : Nat) : σ.cellText fuel = τ.cellText fuel := by
    induction fuel with
    | zero => rfl
    | succ fuel ih =>
      funext c
      simp only [Store.cellText, ih, name, cells]
  simp only [Store.names, text, name, cells]

theorem Store.Alike.names {σ τ : Store W} (h : σ.Alike τ) : σ.names = τ.names :=
  names_congr h.cells (funext fun p => by simp only [Store.parserName, h.parsers])

theorem Store.Alike.render {σ τ : Store W} (h : σ.Alike τ) (v : Value) :
    σ.render v = τ.render v := by
  rw [Store.render, Store.render, h.names]

end ResumableParsing
