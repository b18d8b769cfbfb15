import Mathlib.Data.Seq.Basic
import ResumableParsing.Store

/-!
# What streams hold

The elements of a stream may have to be computed, and those of a one-shot iterator can be taken only
once. What such a stream holds is said by the contents of the deferred parts that it leads to. These
fit a store if whatever is known of a part is so, and if what computes an unknown part will give
what they say. Each part has a depth; computing it asks for parts of smaller depth only.

* `Elements`, `Contents`: finite or infinite sequences, and the deferred parts that hold them
* `Contents.Holds`: the stream holds the elements
* `Iterator.Gives`, `Contents.Makes`: iterators and computations of the caller that give them
* `Contents.Fits`: the contents fit the store
* `Stream.Supplies`: what a stream holds in a store
-/

namespace ResumableParsing

variable {W : Type}

/-- The elements of a stream, finitely or infinitely many. -/
abbrev Elements := Stream'.Seq Value

/-- The elements that deferred parts hold, and the depths of these parts. -/
structure Contents where
  /-- Tails of lazy cells. -/
  tails : TailId → Option (Elements × Nat)
  /-- Cells of streams that are read from iterators. -/
  cells : CellId → Option (Elements × Nat)

namespace Contents

/-- There may be more deferred parts. -/
structure Le (κ κ' : Contents) : Prop where
  /-- The tails stay. -/
  tails : ∀ i x, κ.tails i = some x → κ'.tails i = some x
  /-- The cells stay. -/
  cells : ∀ c x, κ.cells c = some x → κ'.cells c = some x

theorem Le.refl (κ : Contents) : κ.Le κ := ⟨fun _ _ h => h, fun _ _ h => h⟩

theorem Le.trans {κ κ' κ'' : Contents} (h : κ.Le κ') (h' : κ'.Le κ'') : κ.Le κ'' :=
  ⟨fun i x hx => h'.tails i x (h.tails i x hx), fun c x hx => h'.cells c x (h.cells c x hx)⟩

/-! ## Streams -/

/-- The stream holds the elements, and leads to deferred parts of depths below `r` only. -/
inductive Holds (κ : Contents) (r : Nat) : Stream Value → Elements → Prop where
  | nil : Holds κ r .nil .nil
  | cons {n : Nat} {v : Value} {s : Stream Value} {x : Elements} :
      Holds κ r s x → Holds κ r (.cons n v s) (.cons v x)
  | lazy {n : Nat} {v : Value} {i : TailId} {x : Elements} {d : Nat} :
      κ.tails i = some (x, d) → d < r → Holds κ r (.lazy n v i) (.cons v x)
  | view {q : Sequence Value} {i : Int} {h : Option Nat} {x : Elements} :
      0 ≤ i → (∀ n : Nat, x.get? n = q.get? (i + n)) → Holds κ r (.view q i h) x
  | pulled {c : CellId} {x : Elements} {d : Nat} :
      κ.cells c = some (x, d) → d < r → Holds κ r (.pulled c) x

theorem Holds.mono {κ κ' : Contents} {r r' : Nat} (hle : κ.Le κ') (hr : r ≤ r')
    {s : Stream Value} {x : Elements} (h : κ.Holds r s x) : κ'.Holds r' s x := by
  induction h with
  | nil => exact .nil
  | cons _ ih => exact .cons ih
  | lazy h hd => exact .lazy (hle.tails _ _ h) (Nat.lt_of_lt_of_le hd hr)
  | view hi h => exact .view hi h
  | pulled h hd => exact .pulled (hle.cells _ _ h) (Nat.lt_of_lt_of_le hd hr)

end Contents

/-! ## Iterators -/

/-- Whatever the world, the questions from number `asked` on are answered with the elements one by
one, and then with the end. -/
structure Provides (answer : Nat → W → Pull × W) (asked : Nat) (x : Elements) : Prop where
  /-- The elements. -/
  items : ∀ n v w, x.get? n = some v → (answer (asked + n) w).1 = .item v
  /-- The end. -/
  finished : ∀ n w, x.TerminatedAt n → (∀ m < n, ¬x.TerminatedAt m) →
    (answer (asked + n) w).1 = .finished

/-- The iterator gives the elements from now on. -/
inductive Iterator.Gives (κ : Contents) (d : Nat) : Iterator W → Elements → Prop where
  | spent : Gives κ d .spent .nil
  | items {q : Sequence Value} {i : Nat} {x : Elements} :
      (∀ n, x.get? n = q.items.get? (i + n)) → Gives κ d (.items q i) x
  | caller {answer : Nat → W → Pull × W} {asked : Nat} {x : Elements} :
      Provides answer asked x → Gives κ d (.caller answer asked) x
  | walk {s : Stream Value} {x : Elements} : κ.Holds d s x → Gives κ d (.walk s false) x
  | onward {s : Stream Value} {v : Value} {x : Elements} :
      κ.Holds d s (.cons v x) → Gives κ d (.walk s true) x

theorem Iterator.Gives.mono {κ κ' : Contents} (hle : κ.Le κ') {d : Nat} {i : Iterator W}
    {x : Elements} (h : i.Gives κ d x) : i.Gives κ' d x := by
  cases h with
  | spent => exact .spent
  | items h => exact .items h
  | caller h => exact .caller h
  | walk h => exact .walk (h.mono hle (Nat.le_refl d))
  | onward h => exact .onward (h.mono hle (Nat.le_refl d))

theorem Provides.first {answer : Nat → W → Pull × W} {asked : Nat} {v : Value} {x : Elements}
    (h : Provides answer asked (.cons v x)) (w : W) : (answer asked w).1 = .item v :=
  h.items 0 v w rfl

theorem Provides.last {answer : Nat → W → Pull × W} {asked : Nat}
    (h : Provides answer asked .nil) (w : W) : (answer asked w).1 = .finished :=
  h.finished 0 w rfl fun _ hm => absurd hm (Nat.not_lt_zero _)

theorem Provides.rest {answer : Nat → W → Pull × W} {asked : Nat} {v : Value} {x : Elements}
    (h : Provides answer asked (.cons v x)) : Provides answer (asked + 1) x where
  items n u w hn := by
    rw [Nat.add_assoc, Nat.add_comm 1 n]
    exact h.items (n + 1) u w (by rw [Stream'.Seq.get?_cons_succ, hn])
  finished n w hn hm := by
    rw [Nat.add_assoc, Nat.add_comm 1 n]
    refine h.finished (n + 1) w (Stream'.Seq.cons_terminatedAt_succ_iff.mpr hn) fun m hlt => ?_
    cases m with
    | zero => exact Stream'.Seq.cons_not_terminatedAt_zero
    | succ m => exact fun ht => hm m (by omega) (Stream'.Seq.cons_terminatedAt_succ_iff.mp ht)

/-! ## Computations of the caller -/

namespace Contents

/-- The computation gives a stream with the elements. On the way it may read streams whose parts lie
less deep than `d`, make streams, and look at the world and change it. -/
inductive Makes (d : Nat) : Contents → Action W (Stream Value) → Elements → Prop where
  | done {κ : Contents} {t : Stream Value} {x : Elements} :
      κ.Holds (d + 1) t x → Makes d κ (.done t) x
  | inspect {κ : Contents} {f : W → Action W (Stream Value)} {x : Elements} :
      (∀ w, Makes d κ (f w) x) → Makes d κ (.inspect f) x
  | update {κ : Contents} {g : W → W} {a : Action W (Stream Value)} {x : Elements} :
      Makes d κ a x → Makes d κ (.update g a) x
  | serial {κ : Contents} {f : Nat → Action W (Stream Value)} {x : Elements} :
      (∀ n, Makes d κ (f n) x) → Makes d κ (.serial f) x
  | empty {κ : Contents} {f : Stream Value → Action W (Stream Value)} {x : Elements} :
      Makes d κ (f .nil) x → Makes d κ (.asStream .none f) x
  | stream {κ : Contents} {s : Stream Value} {f : Stream Value → Action W (Stream Value)}
      {x : Elements} : Makes d κ (f s) x → Makes d κ (.asStream (.stream s) f) x
  | sequence {κ : Contents} {q : Sequence Value} {f : Stream Value → Action W (Stream Value)}
      {x : Elements} : (∀ h, Makes d κ (f (.view q 0 (some h))) x) →
      Makes d κ (.asStream (.sequence q) f) x
  /-- An iterator is made, and at once a stream of what it gives. -/
  | iterator {κ : Contents} {answer : Nat → W → Pull × W}
      {f : Stream Value → Action W (Stream Value)} {x y : Elements} : Provides answer 0 y →
      (∀ κ' t, κ.Le κ' → κ'.Holds 1 t y → Makes d κ' (f t) x) →
      Makes d κ (.iterator answer fun it => .asStream (.iterator it) f) x
  | isEmpty {κ : Contents} {s : Stream Value} {f : Bool → Action W (Stream Value)}
      {x y : Elements} : κ.Holds d s y → (∀ b : Bool, (b ↔ y = .nil) → Makes d κ (f b) x) →
      Makes d κ (.isEmpty s f) x
  | first {κ : Contents} {s : Stream Value} {f : Value → Action W (Stream Value)} {v : Value}
      {x y : Elements} : κ.Holds d s (.cons v y) → Makes d κ (f v) x → Makes d κ (.first s f) x
  | rest {κ : Contents} {s : Stream Value} {f : Stream Value → Action W (Stream Value)} {v : Value}
      {x y : Elements} : κ.Holds d s (.cons v y) →
      (∀ κ' t, κ.Le κ' → κ'.Holds d t y → Makes d κ' (f t) x) → Makes d κ (.rest s f) x
  | append {κ : Contents} {a b : Stream Value} {f : Stream Value → Action W (Stream Value)}
      {e : Nat} {x y z : Elements} : e ≤ d → κ.Holds e a y → κ.Holds (e + 1) b z →
      (∀ κ' t, κ.Le κ' → κ'.Holds (e + 1) t (y.append z) → Makes d κ' (f t) x) →
      Makes d κ (.append a b f) x

theorem Makes.mono {κ κ' : Contents} (hle : κ.Le κ') {d : Nat} {a : Action W (Stream Value)}
    {x : Elements} (h : κ.Makes d a x) : κ'.Makes d a x := by
  induction h generalizing κ' with
  | done h => exact .done (h.mono hle (Nat.le_refl _))
  | inspect _ ih => exact .inspect fun w => ih w hle
  | update _ ih => exact .update (ih hle)
  | serial _ ih => exact .serial fun n => ih n hle
  | empty _ ih => exact .empty (ih hle)
  | stream _ ih => exact .stream (ih hle)
  | sequence _ ih => exact .sequence fun h => ih h hle
  | iterator ha h _ => exact .iterator ha fun _ t hle' => h _ t (hle.trans hle')
  | isEmpty hs _ ih => exact .isEmpty (hs.mono hle (Nat.le_refl _)) fun b hb => ih b hb hle
  | first hs _ ih => exact .first (hs.mono hle (Nat.le_refl _)) (ih hle)
  | rest hs h _ => exact .rest (hs.mono hle (Nat.le_refl _)) fun _ t hle' => h _ t (hle.trans hle')
  | append he ha hb h _ =>
    exact .append he (ha.mono hle (Nat.le_refl _)) (hb.mono hle (Nat.le_refl _))
      fun _ t hle' => h _ t (hle.trans hle')

/-! ## Stores -/

/-- What is said of a tail of depth `d` is right: of its stream if that is known, otherwise of what
computes it. -/
inductive TailRight (κ : Contents) (d : Nat) :
    Elements → Memo (Tail W) (Option (Stream Value)) → Prop where
  | known {t : Tail W} {s : Stream Value} {x : Elements} :
      κ.Holds (d + 1) s x → TailRight κ d x ⟨t, .known (some s)⟩
  | append {a b : Stream Value} {v : Value} {y z : Elements} :
      κ.Holds d a (.cons v y) → κ.Holds (d + 1) b z →
      TailRight κ d (y.append z) ⟨.append a b, .unset⟩
  | action {a : Action W (Stream Value)} {x : Elements} :
      κ.Makes d a x → TailRight κ d x ⟨.action a, .unset⟩

/-- What is said of a cell of depth `d` is right, given the iterators. -/
inductive CellRight (κ : Contents) (d : Nat) (iterators : Array (Iterator W)) :
    Elements → Memo IteratorId (Option (Value × Stream Value)) → Prop where
  | ended {it : IteratorId} : CellRight κ d iterators .nil ⟨it, .known none⟩
  | found {it : IteratorId} {v : Value} {s : Stream Value} {x : Elements} :
      κ.Holds (d + 1) s x → CellRight κ d iterators (.cons v x) ⟨it, .known (some (v, s))⟩
  | unset {it : IteratorId} {i : Iterator W} {x : Elements} :
      iterators[it.index]? = some i → i.Gives κ d x → CellRight κ d iterators x ⟨it, .unset⟩

/-- The cell, which nobody has asked for yet, is to be read from the iterator. -/
structure Owns (κ : Contents) (busy : Deferred → Prop) (σ : Store W) (c : CellId)
    (it : IteratorId) : Prop where
  /-- The contents speak of the cell. -/
  spoken : (κ.cells c).isSome
  /-- It is not being read. -/
  idle : ¬busy (.cell c)
  /-- Nobody has asked for it. -/
  unset : σ.cells[c.index]? = some ⟨it, .unset⟩

/-- The contents fit the store, apart from parts that are being computed. -/
structure Fits (κ : Contents) (busy : Deferred → Prop) (σ : Store W) : Prop where
  /-- The tails are there, and what is said of them is right. -/
  tails : ∀ i x d, κ.tails i = some (x, d) → ∃ m, σ.tails[i.index]? = some m ∧
    (¬busy (.tail i) → κ.TailRight d x m)
  /-- So it is with the cells. -/
  cells : ∀ c x d, κ.cells c = some (x, d) → ∃ m, σ.cells[c.index]? = some m ∧
    (¬busy (.cell c) → κ.CellRight d σ.iterators x m)
  /-- No two cells are to be read from one iterator. -/
  alone : ∀ c c' it, κ.Owns busy σ c it → κ.Owns busy σ c' it → c = c'

theorem TailRight.mono {κ κ' : Contents} (hle : κ.Le κ') {d : Nat} {x : Elements}
    {m : Memo (Tail W) (Option (Stream Value))} (h : κ.TailRight d x m) : κ'.TailRight d x m := by
  cases h with
  | known h => exact .known (h.mono hle (Nat.le_refl _))
  | append ha hb => exact .append (ha.mono hle (Nat.le_refl _)) (hb.mono hle (Nat.le_refl _))
  | action h => exact .action (h.mono hle)

end Contents

/-- The stream holds the elements in the store, whether they are there, have to be computed, or are
still to be taken from an iterator. -/
def Stream.Supplies (s : Stream Value) (σ : Store W) (x : Elements) : Prop :=
  ∃ κ r, Contents.Fits κ (fun _ => False) σ ∧ κ.Holds r s x

end ResumableParsing
