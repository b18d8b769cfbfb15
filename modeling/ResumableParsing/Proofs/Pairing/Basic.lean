import Mathlib.Data.List.Forall2
import ResumableParsing.Proofs.Stream.Likeness
import ResumableParsing.Value.Rendering
import ResumableParsing.Parser.Basic

/-!
# What belongs together in two runs

Two runs of the same parsers make streams and parsers of their own. A pairing tells which deferred
tails and which parsers of the one run belong to which of the other one. Values correspond if they
are put together in the same way from data, in which nothing has to be computed, and from tails that
belong together.

* `Value.Settled`: data
* `Pairing`: the tails and the parsers that belong together
* `Pairing.Like`: corresponding values
* `Pairing.Like.render`: they have the same text
-/

namespace ResumableParsing

variable {W α β : Type}

/-! ## Data -/

/-- The value is data: it holds neither states nor replies, and nothing in it has to be computed. -/
inductive Value.Settled : Value → Prop where
  | none : Settled .none
  | bool (b : Bool) : Settled (.bool b)
  | int (n : Int) : Settled (.int n)
  | float (bits : UInt64) : Settled (.float bits)
  | nan (serial : Nat) (bits : UInt64) : Settled (.nan serial bits)
  | text (t : Text) : Settled (.text t)
  | outcome (o : Outcome) : Settled (.outcome o)
  | list {vs : List Value} : (∀ v ∈ vs, Settled v) → Settled (.list vs)
  | tuple {vs : List Value} : (∀ v ∈ vs, Settled v) → Settled (.tuple vs)
  | group {vs : List Value} : (∀ v ∈ vs, Settled v) → Settled (.group vs)
  | dict {es : List (Value × Value)} : (∀ e ∈ es, Settled e.1) → (∀ e ∈ es, Settled e.2) →
      Settled (.dict es)
  | ignored {v : Value} : Settled v → Settled (.ignored v)
  | token {m v : Value} : Settled m → Settled v → Settled (.token m v)
  | nil : Settled (.stream .nil)
  | cons {n : Nat} {v : Value} {s : Stream Value} : Settled v → Settled (.stream s) →
      Settled (.stream (.cons n v s))
  | view {q : Sequence Value} {i : Int} {h : Option Nat} :
      (∀ k v, q.items.get? k = some v → Settled v) → Settled (.stream (.view q i h))

/-! ## Texts -/

namespace Value

theorem renderAll_eq_map (names : Names) (vs : List Value) :
    renderAll names vs = vs.map (render names) := by
  induction vs with
  | nil => rfl
  | cons v vs ih => rw [renderAll, ih, List.map_cons]

theorem renderEntries_eq_map (names : Names) (es : List (Value × Value)) :
    renderEntries names es = es.map fun e => render names e.1 ++ ": " ++ render names e.2 := by
  induction es with
  | nil => rfl
  | cons e es ih =>
    obtain ⟨k, v⟩ := e
    rw [renderEntries, ih, List.map_cons]

theorem renderArray_eq_map (names : Names) (vs : Array Value) :
    renderArray names vs = vs.toList.map (render names) := by
  obtain ⟨vs⟩ := vs
  exact renderAll_eq_map names vs

theorem renderItems_congr {names names' : Names} {items : Items Value}
    (h : ∀ k (v : Value), items.get? k = some v → v.render names = v.render names') :
    renderItems names items = renderItems names' items := by
  have array (vs : Array Value)
      (h : ∀ (k : Nat) (v : Value), vs[k]? = some v → v.render names = v.render names') :
      renderArray names vs = renderArray names' vs := by
    rw [renderArray_eq_map, renderArray_eq_map]
    refine List.map_congr_left fun v hv => ?_
    obtain ⟨k, hk⟩ := List.getElem?_of_mem hv
    exact h k v (by rw [← hk, Array.getElem?_toList])
  cases items with
  | text ps => rfl
  | octets ns => rfl
  | range a b c => rfl
  | list vs => exact congrArg (bracketed "[" · "]") (array vs h)
  | tuple vs => exact congrArg parenthesized (array vs h)

/-- The text of data does not depend on the store. -/
theorem Settled.render {v : Value} (h : v.Settled) (names names' : Names) :
    v.render names = v.render names' := by
  have all {vs : List Value} (ih : ∀ v ∈ vs, v.render names = v.render names') :
      renderAll names vs = renderAll names' vs := by
    rw [renderAll_eq_map, renderAll_eq_map]
    exact List.map_congr_left ih
  induction h with
  | list _ ih => exact congrArg (bracketed "[" · "]") (all ih)
  | tuple _ ih => exact congrArg parenthesized (all ih)
  | group _ ih => exact congrArg parenthesized (all ih)
  | dict _ _ ihk ihv =>
    rw [Value.render, Value.render, renderEntries_eq_map, renderEntries_eq_map]
    congr 1
    exact List.map_congr_left fun e he => by rw [ihk e he, ihv e he]
  | ignored _ ih => rw [Value.render, Value.render, ih]
  | token _ _ ihm ihv => rw [Value.render, Value.render, ihm, ihv]
  | cons _ _ ih _ => rw [Value.render, Value.render, renderStream, renderStream, ih]
  | @view q i h _ ih =>
    obtain ⟨n, items⟩ := q
    rw [Value.render, Value.render, renderStream, renderStream, renderSequence, renderSequence,
      renderItems_congr ih]
  | _ => rfl

theorem Like.render {I : Value → Prop} {T : TailId → TailId → Prop} {v w : Value}
    {names names' : Names} (hI : ∀ v, I v → v.render names = v.render names') (h : v.Like I T w) :
    v.render names = w.render names' := by
  have zipped {α : Type} {f g : α → String} {xs ys : List α} (size : xs.length = ys.length)
      (h : ∀ p ∈ xs.zip ys, f p.1 = g p.2) : xs.map f = ys.map g := by
    rw [← List.forall₂_eq_eq_eq, List.forall₂_map_left_iff, List.forall₂_map_right_iff,
      List.forall₂_iff_zip]
    exact ⟨size, fun hp => h _ hp⟩
  have all {vs ws : List Value} (size : vs.length = ws.length)
      (ih : ∀ p ∈ vs.zip ws, p.1.render names = p.2.render names') :
      renderAll names vs = renderAll names' ws := by
    rw [renderAll_eq_map, renderAll_eq_map]
    exact zipped size ih
  induction h with
  | same h => exact hI _ h
  | list size _ ih => exact congrArg (bracketed "[" · "]") (all size ih)
  | tuple size _ ih => exact congrArg parenthesized (all size ih)
  | group size _ ih => exact congrArg parenthesized (all size ih)
  | dict size _ _ ihk ihv =>
    rw [Value.render, Value.render, renderEntries_eq_map, renderEntries_eq_map]
    congr 1
    exact zipped size fun p hp => by rw [ihk p hp, ihv p hp]
  | ignored _ ih => rw [Value.render, Value.render, ih]
  | token _ _ ihm ihv => rw [Value.render, Value.render, ihm, ihv]
  | nil => rfl
  | cons _ _ ih _ => rw [Value.render, Value.render, renderStream, renderStream, ih]
  | lazy _ _ ih => rw [Value.render, Value.render, renderStream, renderStream, ih]
  | @view p q i m n items h =>
    refine (hI _ h).trans ?_
    obtain ⟨a, xs⟩ := p
    obtain ⟨b, ys⟩ := q
    cases items
    rfl

end Value

/-! ## Pairings -/

/-- What belongs together in two runs. -/
structure Pairing where
  /-- Deferred tails. -/
  tails : TailId → TailId → Prop
  /-- Parsers. -/
  parsers : ParserId → ParserId → Prop

namespace Pairing

/-- The parsers of a set belong to themselves. -/
def only (P : ParserId → Prop) : Pairing where
  tails _ _ := False
  parsers p q := p = q ∧ P p

/-- The same tails, seen from the other side. Parsers are left out. -/
def turned (k : Pairing) : Pairing where
  tails i j := k.tails j i
  parsers _ _ := False

/-- More belongs together. -/
structure Le (k l : Pairing) : Prop where
  /-- The tails still do. -/
  tails : ∀ i j, k.tails i j → l.tails i j
  /-- The parsers still do. -/
  parsers : ∀ p q, k.parsers p q → l.parsers p q

theorem Le.refl (k : Pairing) : k.Le k := ⟨fun _ _ h => h, fun _ _ h => h⟩

theorem Le.trans {k l m : Pairing} (h : k.Le l) (h' : l.Le m) : k.Le m :=
  ⟨fun i j t => h'.tails i j (h.tails i j t), fun p q t => h'.parsers p q (h.parsers p q t)⟩

/-- The values are put together in the same way from data and from tails that belong together. -/
abbrev Like (k : Pairing) (v w : Value) : Prop := v.Like Value.Settled k.tails w

/-- The streams correspond. -/
abbrev Streams (k : Pairing) (s t : Stream Value) : Prop := k.Like (.stream s) (.stream t)

section

variable {k l : Pairing} {v w : Value}

theorem Like.mono (hle : k.Le l) (h : k.Like v w) : l.Like v w := by
  induction h with
  | same h => exact .same h
  | list size _ ih => exact .list size ih
  | tuple size _ ih => exact .tuple size ih
  | group size _ ih => exact .group size ih
  | dict size _ _ ihk ihv => exact .dict size ihk ihv
  | ignored _ ih => exact .ignored ih
  | token _ _ ihm ihv => exact .token ihm ihv
  | nil => exact .nil
  | cons _ _ ihv ihs => exact .cons ihv ihs
  | lazy _ hT ih => exact .lazy ih (hle.tails _ _ hT)
  | view items h => exact .view items h

/-- Only the tails of a pairing matter to values. -/
theorem Like.along (hle : ∀ i j, k.tails i j → l.tails i j) (h : k.Like v w) : l.Like v w :=
  Like.mono (k := ⟨k.tails, fun _ _ => False⟩) (l := ⟨l.tails, fun _ _ => False⟩)
    ⟨hle, fun _ _ hp => hp⟩ h

theorem Like.turned (h : k.Like v w) : k.turned.Like w v := by
  induction h with
  | same h => exact .same h
  | list size _ ih => exact .list size.symm (forall_zip_comm ih)
  | tuple size _ ih => exact .tuple size.symm (forall_zip_comm ih)
  | group size _ ih => exact .group size.symm (forall_zip_comm ih)
  | dict size _ _ ihk ihv =>
    exact .dict size.symm
      (forall_zip_comm (R := fun (d e : Value × Value) => k.turned.Like d.1 e.1) ihk)
      (forall_zip_comm (R := fun (d e : Value × Value) => k.turned.Like d.2 e.2) ihv)
  | ignored _ ih => exact .ignored ih
  | token _ _ ihm ihv => exact .token ihm ihv
  | nil => exact .nil
  | cons _ _ ihv ihs => exact .cons ihv ihs
  | lazy _ ht ih => exact .lazy ih ht
  | view items h =>
    cases h with
    | view h => exact .view items.symm (.view (items ▸ h))

/-- Corresponding values have the same text in any two stores. -/
theorem Like.render (h : k.Like v w) (names names' : Names) :
    v.render names = w.render names' := by
  apply Value.Like.render (fun v hv => hv.render names names') h

end

end Pairing

end ResumableParsing
