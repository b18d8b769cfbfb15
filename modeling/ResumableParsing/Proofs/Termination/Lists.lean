import ResumableParsing.Proofs.Repetition.Unfolding
import ResumableParsing.Proofs.Store.Bookkeeping
import ResumableParsing.Proofs.Termination.Halting

/-!
# Results that can be read into lists

The counted repetitions give streams whose cells are all there, or two of them one after the other.
Reading such a stream into a list comes to an end.

* `Stream.Reads`: what the stream holds when it is read to its end
* `Stream.Spells.reads`, `reads_append`: streams that can be read
* `comes_append_join`: what the sequential combination of two repetitions makes of them
-/

namespace ResumableParsing

variable {W : Type}

/-! ## Reading to the end -/

/-- Reading the stream to its end gives these elements, whatever has been read before it, and
computes no tail before the `k`-th. -/
def Stream.Reads (k : Nat) (σ : Store W) (s : Stream Value) (vs : List Value) : Prop :=
  ∃ n, ∀ done, ∃ τ, (Stream.toListFrom n done s).Comes σ (.ok (done.reverse ++ vs) τ) ∧ σ.Filed k τ

section

variable {σ τ : Store W} {s t a b : Stream Value} {v : Value} {vs ws : List Value} {i j : TailId}
  {k n : Nat}

theorem Stream.Reads.stop (h : s.isEmpty.Comes σ (.ok true σ)) : s.Reads k σ [] := by
  refine ⟨1, fun done => ⟨σ, ?_, .refl k σ⟩⟩
  rw [List.append_nil]
  exact comes_bind_ok h (comes_pure _ σ)

theorem Stream.Reads.step (h : s.isEmpty.Comes σ (.ok false σ)) (hv : s.first.Comes σ (.ok v σ))
    (ht : s.rest.Comes σ (.ok t τ)) (filed : σ.Filed k τ) (hr : t.Reads k τ vs) :
    s.Reads k σ (v :: vs) := by
  obtain ⟨n, hr⟩ := hr
  refine ⟨n + 1, fun done => ?_⟩
  obtain ⟨υ, read, filed'⟩ := hr (v :: done)
  rw [List.reverse_cons, List.append_assoc] at read
  exact ⟨υ, comes_bind_ok h (comes_bind_ok hv (comes_bind_ok ht read)), filed.trans filed'⟩

/-- What can be read is read into a list. -/
theorem Stream.Reads.toList (h : s.Reads k σ vs) :
    ∃ τ, s.toList.Comes σ (.ok vs τ) ∧ σ.Filed k τ := by
  obtain ⟨n, h⟩ := h
  obtain ⟨τ, read, filed⟩ := h []
  refine ⟨τ, comes_loop (f := fun n => Stream.toListFrom n [] s) ?_ ?_ read, filed⟩
  · exact fun n => composed_toListFrom n [] s
  · exact fun n m σ => exhausted_or_toListFrom n [] s m σ

theorem Stream.Spells.comes_isEmpty (h : s.Spells vs) (σ : Store W) :
    s.isEmpty.Comes σ (.ok vs.isEmpty σ) :=
  comes_of_forall (fun n => h.isEmpty (.within n) σ) not_exhausted_ok

theorem Stream.Spells.comes_first (h : s.Spells (v :: vs)) (σ : Store W) :
    s.first.Comes σ (.ok v σ) :=
  comes_of_forall (fun n => h.first (.within n) σ) not_exhausted_ok

theorem Stream.Spells.comes_rest (h : s.Spells (v :: vs)) :
    ∃ t : Stream Value, t.Spells vs ∧ ∀ σ : Store W, s.rest.Comes σ (.ok t σ) := by
  obtain ⟨t, ht, rest, -⟩ := h.rest (W := W)
  exact ⟨t, ht, fun σ => comes_of_forall (fun n => rest (.within n) σ) not_exhausted_ok⟩

theorem Stream.Spells.reads (h : s.Spells vs) (k : Nat) (σ : Store W) : s.Reads k σ vs := by
  induction vs generalizing s with
  | nil => exact .stop (h.comes_isEmpty σ)
  | cons v vs ih =>
    obtain ⟨t, ht, rest⟩ := h.comes_rest
    exact .step (h.comes_isEmpty σ) (h.comes_first σ) (rest σ) (.refl k σ) (ih ht)

/-! ## Two streams one after the other -/

/-- A new lazy cell has a new tail. -/
theorem comes_lazyCell (v : Value) (x : Tail W) (σ : Store W) : ∃ n i τ,
    (Stream.lazyCell v x).Comes σ (.ok (.lazy n v i) τ) ∧ i.Is τ x .unset ∧
      i.index = σ.tails.size ∧ σ.Filed σ.tails.size τ := by
  refine ⟨σ.nextSerial, ⟨σ.tails.size⟩, { σ.drawn 1 with tails := σ.tails.push ⟨x, .unset⟩ }, ?_,
    Array.getElem?_push_size, rfl, .push (Nat.le_refl _) 1 _⟩
  exact comes_of_forall (fun _ => rfl) not_exhausted_ok

/-- The second stream stands for the whole where the first one is empty; otherwise its first cell
is lazy. -/
theorem Stream.Spells.comes_append (ha : a.Spells vs) (b : Stream Value) (σ : Store W) :
    vs = [] ∧ (a.append b).Comes σ (.ok b σ) ∨
      ∃ v ws n i τ, vs = v :: ws ∧ (a.append b).Comes σ (.ok (.lazy n v i) τ) ∧
        i.Is τ (.append a b) .unset ∧ i.index = σ.tails.size ∧ σ.Filed σ.tails.size τ := by
  have empty := ha.comes_isEmpty σ
  cases vs with
  | nil => exact .inl ⟨rfl, comes_bind_ok empty (comes_pure b σ)⟩
  | cons v ws =>
    obtain ⟨n, i, τ, cell, tail, new⟩ := comes_lazyCell v (.append a b) σ
    exact .inr ⟨v, ws, n, i, τ, rfl, comes_bind_ok empty (comes_bind_ok (ha.comes_first σ) cell),
      tail, new⟩

/-- The tails of such cells are computed one after the other, until the first stream is used up. -/
theorem reads_append (ha : a.Spells (v :: vs)) (hb : b.Spells ws)
    (hi : i.Is σ (.append a b) .unset) (hk : k ≤ i.index) :
    (Stream.lazy n v i).Reads k σ (v :: vs ++ ws) := by
  have busy := Store.Filed.put hk .busy σ
  induction vs generalizing a v i n σ with
  | nil =>
    obtain ⟨t, ht, rest⟩ := ha.comes_rest (W := W)
    obtain ⟨-, append⟩ | ⟨v, us, n', j, τ, h, -⟩ :=
      ht.comes_append b (Shelf.tails.put i.index .busy σ)
    · have tail := comes_rest_unset (n := n) (v := v) hi (comes_bind_ok (rest _)
        (comes_bind_ok append (comes_pure (some b) _)))
      exact .step (comes_pure _ σ) (comes_pure _ σ) tail (busy.trans (.put hk _ _)) (hb.reads k _)
    · cases h
  | cons w vs ih =>
    obtain ⟨t, ht, rest⟩ := ha.comes_rest (W := W)
    obtain ⟨h, -⟩ | ⟨_, us, n', j, τ, ⟨⟩, append, hj, new, filed⟩ :=
      ht.comes_append b (Shelf.tails.put i.index .busy σ)
    · cases h
    · have tail := comes_rest_unset (n := n) (v := v) hi (comes_bind_ok (rest _)
        (comes_bind_ok append (comes_pure (some (Stream.lazy n' w j)) _)))
      -- The tail of the first cell was there before the tail of the second one.
      have there : i.index < (Shelf.tails.put i.index .busy σ).tails.size :=
        (hi.put .busy).lt_size
      have known := (busy.trans (filed.less (by omega))).trans
        (.put hk (.known (some (Stream.lazy n' w j))) τ)
      exact .step (comes_pure _ σ) (comes_pure _ σ) tail known
        (ih ht (hj.put_other (by omega) _) (by omega) (.put (by omega) .busy _))

/-- One stream after another. -/
theorem comes_append_join (ha : a.Spells vs)
    (hb : b.Spells ws) (σ : Store W) : ∃ x τ,
      (Combine.append.join (.stream a) (.stream b)).Comes σ (.ok (.stream x) τ) ∧
      σ.Filed σ.tails.size τ ∧ x.Reads σ.tails.size τ (vs ++ ws) := by
  have joined {t : Stream Value} {τ : Store W} (h : (a.append b).Comes σ (.ok t τ)) :
      (Combine.append.join (.stream a) (.stream b)).Comes σ (.ok (.stream t) τ) :=
    comes_bind_ok (comes_pure a σ) (comes_bind_ok (comes_pure b σ)
      (comes_bind_ok h (comes_pure _ τ)))
  obtain ⟨rfl, append⟩ | ⟨v, us, n, i, τ, rfl, append, tail, new, filed⟩ := ha.comes_append b σ
  · exact ⟨b, σ, joined append, .refl _ σ, hb.reads _ σ⟩
  · exact ⟨_, τ, joined append, filed, reads_append ha hb tail (by omega)⟩

end

end ResumableParsing
