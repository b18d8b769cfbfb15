import ResumableParsing.Proofs.Pairing.Stores

/-!
# Reading corresponding streams

Corresponding streams are read alike: there is an element in both or in none, the elements
correspond, and so do the streams behind them. A deferred tail is computed on both sides or on none.

* `Pairing.Shape`: what corresponding streams look like
* `Pairing.Like.isEmpty_eq`, `Pairing.Like.first_eq`: what is seen of them at once
* `Pairing.tied_lazyCell`, `Pairing.tied_append`: making streams
* `Pairing.tied_force`, `Pairing.tied_rest`: deferred tails that belong together
-/

namespace ResumableParsing

variable {W α β : Type}

namespace Pairing

variable {k l : Pairing} {m : Means W} {s t : Stream Value}

/-! ## Streams -/

/-- What corresponding streams look like. -/
inductive Shape (k : Pairing) : Stream Value → Stream Value → Prop where
  | nil : Shape k .nil .nil
  | cons {a b : Nat} {v w : Value} {s t : Stream Value} : k.Like v w → k.Streams s t →
      Shape k (.cons a v s) (.cons b w t)
  | lazy {a b : Nat} {v w : Value} {i j : TailId} : k.Like v w → k.tails i j →
      Shape k (.lazy a v i) (.lazy b w j)
  | view {p q : Sequence Value} {i : Int} {a b : Option Nat} : p.items = q.items →
      (∀ n v, p.items.get? n = some v → v.Settled) → Shape k (.view p i a) (.view q i b)

theorem Like.shape (h : k.Streams s t) : k.Shape s t := by
  cases h with
  | same h =>
    cases h with
    | nil => exact .nil
    | cons hv hs => exact .cons (.same hv) (.same hs)
    | view h => exact .view rfl h
  | nil => exact .nil
  | cons hv hs => exact .cons hv hs
  | lazy hv ht => exact .lazy hv ht
  | view items h =>
    cases h with
    | view h => exact .view items h

theorem streams_view {p q : Sequence Value} (items : p.items = q.items)
    (h : ∀ n v, p.items.get? n = some v → v.Settled) (i : Int) (a b : Option Nat) :
    k.Streams (.view p i a) (.view q i b) := .view items (.view h)

/-- The elements of the sequence are data. -/
theorem settled_get {q : Sequence Value} (h : ∀ n v, q.items.get? n = some v → v.Settled) {i : Int}
    {v : Value} (hv : q.get? i = some v) : v.Settled := by
  rw [Sequence.get?] at hv
  split at hv
  · exact h _ v hv
  · split at hv
    · exact h _ v hv
    · cases hv

theorem viewIsEmpty_congr {p q : Sequence Value} (items : p.items = q.items) (i : Int) :
    Stream.viewIsEmpty p i = Stream.viewIsEmpty q i := by
  rw [Stream.viewIsEmpty, Stream.viewIsEmpty, Sequence.size, Sequence.size, items]

/-- There is an element in both or in none. -/
theorem Like.isEmpty_eq (h : k.Streams s t) :
    ∃ b, (s.isEmpty : Eval W Bool) = pure b ∧ (t.isEmpty : Eval W Bool) = pure b := by
  cases h.shape with
  | nil => exact ⟨_, rfl, rfl⟩
  | cons _ _ => exact ⟨_, rfl, rfl⟩
  | lazy _ _ => exact ⟨_, rfl, rfl⟩
  | view items _ => exact ⟨_, rfl, congrArg pure (viewIsEmpty_congr items _).symm⟩

/-- The first elements correspond, or there is none for the same reason. -/
theorem Like.first_eq (h : k.Streams s t) :
    (∃ v w, (s.first : Eval W Value) = pure v ∧ (t.first : Eval W Value) = pure w ∧ k.Like v w) ∨
      ∃ f, (s.first : Eval W Value) = Eval.fault f ∧ (t.first : Eval W Value) = Eval.fault f := by
  cases h.shape with
  | nil => exact .inr ⟨_, rfl, rfl⟩
  | cons hv _ => exact .inl ⟨_, _, rfl, rfl, hv⟩
  | lazy hv _ => exact .inl ⟨_, _, rfl, rfl, hv⟩
  | @view p q i a b items settled =>
    have same : q.get? i = p.get? i := by
      rw [Sequence.get?, Sequence.get?, Sequence.size, Sequence.size, items]
    rw [Stream.first, Stream.first, ← viewIsEmpty_congr items, same]
    split
    · exact .inr ⟨_, rfl, rfl⟩
    · cases e : p.get? i with
      | none =>
        rw [items]
        exact .inr ⟨_, rfl, rfl⟩
      | some v => exact .inl ⟨v, v, rfl, rfl, .same (settled_get settled e)⟩

theorem tied_isEmpty (h : k.Streams s t) :
    k.Tied m (fun _ a b => a = b) s.isEmpty t.isEmpty := by
  obtain ⟨b, hs, ht⟩ := h.isEmpty_eq (W := W)
  rw [hs, ht]
  exact tied_pure fun _ _ => rfl

theorem tied_first (h : k.Streams s t) : k.Tied m Like s.first t.first := by
  rcases h.first_eq (W := W) with ⟨v, w, hs, ht, hv⟩ | ⟨f, hs, ht⟩
  · rw [hs, ht]
    exact tied_pure fun _ hle => hv.mono hle
  · rw [hs, ht]
    exact tied_fault f

/-! ## Making streams -/

/-- The tails are added to what belongs together. -/
def adjoin (k : Pairing) (i j : TailId) : Pairing where
  tails a b := k.tails a b ∨ (a = i ∧ b = j)
  parsers := k.parsers

theorem le_adjoin (k : Pairing) (i j : TailId) : k.Le (k.adjoin i j) :=
  ⟨fun _ _ h => .inl h, fun _ _ h => h⟩

/-- Tails that belong together are in the stores. -/
theorem Agree.sizes {σ τ : Store W} (h : k.Agree σ τ) {i j : TailId} (ht : k.tails i j) :
    i.index < σ.tails.size ∧ j.index < τ.tails.size := by
  obtain ⟨a, b, ha, hb, -⟩ := h.tails i j ht
  exact ⟨(Array.getElem?_eq_some_iff.mp ha).1, (Array.getElem?_eq_some_iff.mp hb).1⟩

/-- A new tail on both sides. -/
theorem reach_adjoin {σ τ : Store W} (agree : k.Agree σ τ) {x y : Tail W} (h : x.Paired k y) :
    k.Reach (k.adjoin ⟨σ.tails.size⟩ ⟨τ.tails.size⟩) σ τ
      { σ with tails := σ.tails.push ⟨x, .unset⟩ }
        { τ with tails := τ.tails.push ⟨y, .unset⟩ } := by
  have hle := k.le_adjoin ⟨σ.tails.size⟩ ⟨τ.tails.size⟩
  -- Tails that belong together are in the stores, so the new ones are not among them.
  have left (j : TailId) (ht : k.tails ⟨σ.tails.size⟩ j) : False :=
    Nat.lt_irrefl _ (agree.sizes ht).1
  have right (i : TailId) (ht : k.tails i ⟨τ.tails.size⟩) : False :=
    Nat.lt_irrefl _ (agree.sizes ht).2
  refine ⟨hle, ⟨?_, biUnique_adjoin agree.tailsUnique left right, ?_, agree.parsersUnique,
    agree.logging⟩, .pushTail ?_ _, .pushTail ?_ _⟩
  · rintro i j (ht | ⟨rfl, rfl⟩)
    · obtain ⟨a, b, ha, hb, thunk, slot⟩ := agree.tails i j ht
      exact ⟨a, b, getElem?_push_of_eq_some ha _, getElem?_push_of_eq_some hb _, thunk.mono hle,
        slot.mono hle⟩
    · exact ⟨_, _, Array.getElem?_push_size, Array.getElem?_push_size, h.mono hle, .unset⟩
  · intro p q hp
    obtain ⟨c, d, hc, hd, h⟩ := agree.parsers p q hp
    exact ⟨c, d, hc, hd, h.mono hle⟩
  · rintro i ⟨j, ht | ⟨rfl, rfl⟩⟩
    · exact .inl ⟨j, ht⟩
    · exact .inr rfl
  · rintro j ⟨i, ht | ⟨rfl, rfl⟩⟩
    · exact .inl ⟨i, ht⟩
    · exact .inr rfl

theorem tied_lazyCell {v w : Value} (hv : k.Like v w) {x y : Tail W} (h : x.Paired k y) :
    k.Tied m Streams (Stream.lazyCell v x) (Stream.lazyCell w y) := by
  refine tied_bind tied_serial fun l a b hle _ => ?_
  refine tied_bind (Q := tails) ?_ fun l' i j hle' ht => tied_pure fun l'' hle'' => ?_
  · intro l' σ τ hle' agree
    exact ⟨_, reach_adjoin agree (h.mono (hle.trans hle')), .inr ⟨rfl, rfl⟩⟩
  · exact .lazy (hv.mono ((hle.trans hle').trans hle'')) (hle''.tails _ _ ht)

theorem tied_append {a b c d : Stream Value} (h : k.Streams a c) (h' : k.Streams b d) :
    k.Tied m Streams (a.append b) (c.append d) := by
  refine tied_bind (tied_isEmpty h) ?_
  rintro l empty _ hle rfl
  split
  · exact tied_pure fun _ hle' => h'.mono (hle.trans hle')
  · refine tied_bind ((tied_first h).mono hle) fun l' v w hle' hv => ?_
    have hle := hle.trans hle'
    exact tied_lazyCell hv (.append (h.mono hle) (h'.mono hle))

/-! ## Deferred tails -/

/-- Both tails are there, and they correspond. -/
def Forced (k : Pairing) (a b : Option (Stream Value)) : Prop :=
  ∃ s t, a = some s ∧ b = some t ∧ k.Streams s t

/-- The same becomes known of two tails that belong together. -/
theorem reach_put {σ τ : Store W} (agree : k.Agree σ τ) {i j : TailId} (ht : k.tails i j)
    {a b : Slot (Option (Stream Value))} (h : a.Paired k b) :
    k.Reach k σ τ (Shelf.tails.put i.index a σ) (Shelf.tails.put j.index b τ) := by
  refine ⟨.refl k, { agree with tails := fun i' j' ht' => ?_ }, .put ⟨j, ht⟩ σ a, .put ⟨i, ht⟩ τ b⟩
  obtain ⟨x, y, hx, hy, thunk, slot⟩ := agree.tails i' j' ht'
  rw [find_put_tail, find_put_tail]
  -- Tails belong together one to one, so both of the pair are marked or neither is.
  by_cases e : i = i'
  · subst e
    cases agree.tailsUnique.2 ht ht'
    rw [if_pos rfl, if_pos rfl, hx, hy]
    exact ⟨_, _, rfl, rfl, thunk, h⟩
  · rw [if_neg e, if_neg]
    · exact ⟨x, y, hx, hy, thunk, slot⟩
    · rintro rfl
      exact e (agree.tailsUnique.1 ht ht')

theorem tied_rest_of_force
    (hf : ∀ (k : Pairing) (i j : TailId), k.tails i j →
      k.Tied m Forced (Eval.force (W := W) (.tail i)) (Eval.force (W := W) (.tail j)))
    (h : k.Streams s t) : k.Tied m Streams (s.rest : Eval W _) t.rest := by
  cases h.shape with
  | nil => exact tied_pure fun _ _ => .nil
  | cons _ hs => exact tied_pure fun _ hle => hs.mono hle
  | lazy _ ht =>
    refine tied_bind (hf k _ _ ht) ?_
    rintro l _ _ _ ⟨s, t, rfl, rfl, hs⟩
    exact tied_pure fun _ hle => hs.mono hle
  | @view p q i a b items settled =>
    refine tied_pure fun l _ => ?_
    rw [← viewIsEmpty_congr items]
    split
    · exact streams_view items settled i a b
    · exact streams_view items settled (i + 1) _ _

/-- Deferred tails that belong together come to corresponding ends. -/
theorem tied_force (n : Nat) (k : Pairing) (i j : TailId) (ht : k.tails i j) :
    k.Tied (.within n) Forced (Eval.force (W := W) (.tail i)) (Eval.force (W := W) (.tail j)) := by
  induction n generalizing k i j with
  | zero => exact fun l _ _ _ agree => ⟨rfl, l, .refl agree⟩
  | succ n ih =>
    intro l σ τ hle agree
    have ht := hle.tails _ _ ht
    obtain ⟨x, y, hx, hy, thunk, slot⟩ := agree.tails i j ht
    change l.Ends Forced σ τ (Shelf.tails.get i.index (fun t => t.compute (.within n)) σ)
      (Shelf.tails.get j.index (fun t => t.compute (.within n)) τ)
    rw [Shelf.get, Shelf.get, show Shelf.tails.find i.index σ = some x from hx,
      show Shelf.tails.find j.index τ = some y from hy]
    obtain ⟨tx, sx⟩ := x
    obtain ⟨ty, sy⟩ := y
    cases slot with
    | busy => exact ⟨rfl, l, .refl agree⟩
    | known h => exact ⟨l, .refl agree, _, _, rfl, rfl, h⟩
    | unset =>
      -- Both tails are marked as busy, computed and then put down.
      have compute : l.Tied (.within n) Forced tx.compute ty.compute := by
        cases thunk with
        | append ha hb =>
          refine tied_bind (tied_rest_of_force ih ha) fun l' s t hle hs => ?_
          refine tied_bind (tied_append hs (hb.mono hle)) fun l'' s t _ hs => ?_
          exact tied_pure fun _ hle => ⟨_, _, rfl, rfl, hs.mono hle⟩
        | refused f => exact tied_fault f
      have busy := reach_put agree ht .busy
      have ends := compute l _ _ (.refl l) busy.agree
      simp only
      cases ex : tx.compute (.within n) (Shelf.tails.put i.index .busy σ) with
      | ok a σ₁ =>
        cases ey : ty.compute (.within n) (Shelf.tails.put j.index .busy τ) with
        | error f τ₁ =>
          rw [ex, ey] at ends
          exact ends.elim
        | ok b τ₁ =>
          rw [ex, ey] at ends
          obtain ⟨l', reach, s, t, rfl, rfl, hs⟩ := ends
          have known := reach_put reach.agree (reach.le.tails _ _ ht) (.known hs)
          exact ⟨l', (busy.trans reach).trans known, s, t, rfl, rfl, hs⟩
      | error e σ₁ =>
        cases ey : ty.compute (.within n) (Shelf.tails.put j.index .busy τ) with
        | ok b τ₁ =>
          rw [ex, ey] at ends
          exact ends.elim
        | error f τ₁ =>
          rw [ex, ey] at ends
          obtain ⟨rfl, l', reach⟩ := ends
          have unset := reach_put reach.agree (reach.le.tails _ _ ht) .unset
          exact ⟨rfl, l', (busy.trans reach).trans unset⟩

theorem tied_rest (n : Nat) (h : k.Streams s t) :
    k.Tied (.within n) Streams (s.rest : Eval W _) t.rest :=
  tied_rest_of_force (tied_force n) h

/-! ## Results in sequence -/

theorem like_group {vs ws : List Value} (size : vs.length = ws.length)
    (h : ∀ p ∈ vs.zip ws, k.Like p.1 p.2) {v w : Value} (hv : k.Like v w) :
    k.Like (.group (vs ++ [v])) (.group (ws ++ [w])) :=
  .group (by simp [size]) (forall_zip_append size h hv)

/-- What is grouped corresponds. A group only grows if it is one on both sides; anything else is put
into a new group. -/
theorem Like.beside {v w v' w' : Value} (h : k.Like v w) (h' : k.Like v' w') :
    k.Like (v.beside v') (w.beside w') := by
  have pair : k.Like (.group [v, v']) (.group [w, w']) := by
    refine .group rfl fun p hp => ?_
    obtain rfl | rfl : p = (v, w) ∨ p = (v', w') := by simpa using hp
    · exact h
    · exact h'
  cases h with
  | group size each => exact like_group size each h'
  | same settled =>
    cases v with
    | group vs =>
      cases settled with
      | group each => exact like_group rfl (forall_zip_self fun v hv => .same (each v hv)) h'
    | _ => exact pair
  | _ => exact pair

theorem Like.ignore {v w : Value} (h : k.Like v w) : k.Like v.ignore w.ignore := by
  cases h with
  | ignored h => exact .ignored h
  | same settled =>
    cases v with
    | ignored v => exact .same settled
    | _ => exact .ignored (.same settled)
  | list size each => exact .ignored (.list size each)
  | tuple size each => exact .ignored (.tuple size each)
  | group size each => exact .ignored (.group size each)
  | dict size hk hv => exact .ignored (.dict size hk hv)
  | token hm hv => exact .ignored (.token hm hv)
  | nil => exact .ignored .nil
  | cons hv hs => exact .ignored (.cons hv hs)
  | lazy hv ht => exact .ignored (.lazy hv ht)
  | view items h => exact .ignored (.view items h)

end Pairing

end ResumableParsing
