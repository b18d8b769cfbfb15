import ResumableParsing.Proofs.Store.Composed

/-!
# Regular computations

A computation that is put together from small changes may add deferred parts of which nothing is
known yet, and touches those that are there only by asking for them. Whatever becomes of a deferred
part, then, has become of it where somebody asked for it.

* `Memo.Widens`, `Store.Widens`: parts are added, of which nothing is known
* `Regular`: the computations that are put together from such changes
* `Regular.composed`: what is known is kept by them
-/

namespace ResumableParsing

variable {W α β : Type}

/-! ## Wider stores -/

/-- Parts are added of which nothing is known; those that were there are as they were. -/
structure Memo.Widens {θ : Type} (a b : Array (Memo θ α)) : Prop where
  /-- Each part is as it was. -/
  same : ∀ (i : Nat) (x : Memo θ α), a[i]? = some x → b[i]? = some x
  /-- Of new parts nothing is known. -/
  new : ∀ (i : Nat) (x : Memo θ α), b[i]? = some x → a[i]? = some x ∨ x.slot = .unset

namespace Memo.Widens

variable {θ : Type} {a : Array (Memo θ α)}

theorem refl (a : Array (Memo θ α)) : Widens a a := ⟨fun _ _ h => h, fun _ _ h => .inl h⟩

theorem push (a : Array (Memo θ α)) (t : θ) : Widens a (a.push ⟨t, .unset⟩) where
  same _ _ h := getElem?_push_of_eq_some h _
  new i x h := by
    rw [Array.getElem?_push] at h
    split at h
    · cases h
      exact .inr rfl
    · exact .inl h

end Memo.Widens

/-- The store grows, and deferred parts may be added of which nothing is known. -/
structure Store.Widens (σ τ : Store W) : Prop extends σ.Grows τ where
  /-- Tails are added. -/
  moreTails : Memo.Widens σ.tails τ.tails
  /-- Cells are added. -/
  moreCells : Memo.Widens σ.cells τ.cells
  /-- Results are added. -/
  moreResults : Memo.Widens σ.results τ.results
  /-- Elements may have been taken from iterators. -/
  taken : ∀ (i : Nat) (x : Iterator W), σ.iterators[i]? = some x →
    ∃ y, τ.iterators[i]? = some y ∧ x.Leaves y

namespace Store.Widens

theorem refl (σ : Store W) : σ.Widens σ where
  toGrows := .refl σ
  moreTails := .refl _
  moreCells := .refl _
  moreResults := .refl _
  taken _ x h := ⟨x, h, .refl x⟩

theorem adds {σ τ : Store W} (h : σ.Widens τ) : σ.Adds τ where
  toGrows := h.toGrows
  sameTails := h.moreTails.same
  sameCells := h.moreCells.same
  taken := h.taken

theorem pushTail (σ : Store W) (x : Tail W) :
    σ.Widens { σ with tails := σ.tails.push ⟨x, .unset⟩ } :=
  { refl σ with toGrows := (Adds.pushTail σ x).toGrows, moreTails := .push _ _ }

theorem pushCell (σ : Store W) (it : IteratorId) :
    σ.Widens { σ with cells := σ.cells.push ⟨it, .unset⟩ } :=
  { refl σ with toGrows := (Adds.pushCell σ it).toGrows, moreCells := .push _ _ }

theorem pushResult (σ : Store W) (a : Action W Value) :
    σ.Widens { σ with results := σ.results.push ⟨a, .unset⟩ } :=
  { refl σ with results := .push _ _, moreResults := .push _ _ }

theorem pushIterator (σ : Store W) (it : Iterator W) :
    σ.Widens { σ with iterators := σ.iterators.push it } :=
  { refl σ with
    toGrows := (Adds.pushIterator σ it).toGrows
    taken := (Adds.pushIterator σ it).taken }

theorem alterIterator (σ : Store W) (it : IteratorId) {f : Iterator W → Iterator W}
    (hf : ∀ x : Iterator W, x.Leaves (f x)) :
    σ.Widens { σ with iterators := σ.iterators.modify it.index f } :=
  { refl σ with
    toGrows := (Adds.alterIterator σ it hf).toGrows
    taken := (Adds.alterIterator σ it hf).taken }

end Store.Widens

/-! ## Regular computations -/

/-- Computations that are put together from changes that add deferred parts at most, and from
requests for deferred parts. -/
inductive Regular : {α : Type} → Eval W α → Prop where
  /-- A change that succeeds. -/
  | change {α : Type} {x : Eval W α} (f : Store W → α × Store W) :
      (∀ m σ, x m σ = .ok (f σ).1 (f σ).2) → (∀ σ : Store W, σ.Widens (f σ).2) → Regular x
  /-- A computation breaks off. -/
  | stop {α : Type} (e : Stop) : Regular (throw e : Eval W α)
  /-- One computation after another. -/
  | bind {α β : Type} {x : Eval W α} {f : α → Eval W β} :
      Regular x → (∀ a, Regular (f a)) → Regular (x >>= f)
  /-- A deferred part. -/
  | force (d : Deferred) : Regular (Eval.force d)
  /-- A fault is looked at. -/
  | catching {α : Type} {x : Eval W α} : Regular x → Regular (Eval.catching x)
  /-- A loop, whose rounds are bounded. -/
  | loop {α : Type} {f : Nat → Eval W α} : (∀ n, Regular (f n)) →
      (∀ n m σ, Exhausted (f n m σ) ∨ f (n + 1) m σ = f n m σ) →
      Regular (do f (← read).steps)

theorem Regular.composed {x : Eval W α} (h : Regular x) : Composed x := by
  induction h with
  | change f hx hf => exact .change f hx fun σ => (hf σ).adds
  | stop e => exact .stop e
  | bind _ _ ihx ihf => exact .bind ihx ihf
  | force d => exact .force d
  | catching _ ih => exact .catching ih
  | loop _ hf ih => exact .loop ih hf

/-! ## Pieces -/

namespace Regular

theorem pure (a : α) : Regular (pure a : Eval W α) :=
  .change (fun σ => (a, σ)) (fun _ _ => rfl) .refl

theorem modifyGet {f : Store W → α × Store W} (h : ∀ σ : Store W, σ.Widens (f σ).2) :
    Regular (modifyGet f : Eval W α) := .change f (fun _ _ => rfl) h

theorem modify {f : Store W → Store W} (h : ∀ σ : Store W, σ.Widens (f σ)) :
    Regular (modify f : Eval W Unit) := .change (fun σ => ((), f σ)) (fun _ _ => rfl) h

theorem get : Regular (get : Eval W (Store W)) :=
  .change (fun σ => (σ, σ)) (fun _ _ => rfl) .refl

theorem fault (e : Fault) : Regular (Eval.fault e : Eval W α) := .stop _

theorem deref (a : Option α) : Regular (Eval.deref a : Eval W α) := by
  cases a with
  | some a => exact pure a
  | none => exact .stop _

theorem map {x : Eval W α} (h : Regular x) (f : α → β) : Regular (f <$> x) := by
  rw [map_eq_pure_bind]
  exact .bind h fun a => pure (f a)

theorem ite {c : Prop} [Decidable c] {x y : Eval W α} (hx : Regular x) (hy : Regular y) :
    Regular (if c then x else y) := by
  split
  · exact hx
  · exact hy

theorem debug (message : Store W → String) : Regular (Eval.debug message) := by
  refine .change (fun σ => ((), if σ.logging then { σ with log := message σ :: σ.log } else σ))
    (fun _ _ => rfl) fun σ => ?_
  dsimp only
  split
  · exact { Store.Widens.refl σ with }
  · exact .refl σ

theorem serial : Regular (Eval.serial : Eval W Nat) :=
  .change (fun σ => (σ.nextSerial, { σ with nextSerial := σ.nextSerial + 1 })) (fun _ _ => rfl)
    fun σ => { Store.Widens.refl σ with nextSerial := Nat.le_succ _ }

end Regular

end ResumableParsing
