import Mathlib.Algebra.GroupWithZero.Nat
import Mathlib.Data.List.Forall2
import ResumableParsing.Proofs.Stream.Known

/-!
# Ways along chunks

The chunks of a session lie one behind another. A state inside one of them has a place on this way:
so many chunks are behind it, and so many tokens of its own chunk.

* `Stream.After`, `Stream.Measures`: what is known of the tokens of a stream
* `Passed`: the position behind some chunks
* `Way`, `Spot`: chunks behind one another, and places on such a way
* `Spot.Right`: the position of a place counts the tokens before it
-/

namespace ResumableParsing

variable {W : Type} {σ τ : Store W}

/-! ## Tokens of a stream -/

/-- `s.After σ k t`: behind the first `k` tokens of `s` comes `t`, as far as the store knows. -/
inductive Stream.After (σ : Store W) (s : Stream Value) : Nat → Stream Value → Prop where
  /-- The stream itself. -/
  | refl : After σ s 0 s
  /-- One more token. -/
  | step {k : Nat} {t u : Stream Value} :
      After σ s k t → t.Occupied σ → t.Next σ u → After σ s (k + 1) u

/-- The stream is known to have `k` tokens. -/
def Stream.Measures (σ : Store W) (s : Stream Value) (k : Nat) : Prop :=
  ∃ t, s.After σ k t ∧ t.Vacant σ

namespace Stream

variable {s t : Stream Value} {k : Nat}

theorem After.later (h : s.After σ k t) (g : σ.Knows τ) : s.After τ k t := by
  induction h with
  | refl => exact .refl
  | step _ ho hn ih => exact .step ih (ho.later g) (hn.later g)

/-- A stream with a token behind some others has a first token. -/
theorem After.occupied (h : s.After σ k t) (ht : t.Occupied σ) : s.Occupied σ := by
  induction h with
  | refl => exact ht
  | step _ ho _ ih => exact ih ho

theorem Measures.later (h : s.Measures σ k) (g : σ.Knows τ) : s.Measures τ k := by
  obtain ⟨t, ht, hv⟩ := h
  exact ⟨t, ht.later g, hv.later g⟩

end Stream

/-! ## Chunks behind one another -/

/-- The position `p` is the one behind the chunks, if the first of them begins at `origin`. None of
them is empty. -/
def Passed (σ : Store W) (origin : Int) (chunks : List (Stream Value)) (p : Int) : Prop :=
  ∃ lengths : List Nat,
    List.Forall₂ (fun c k => c.Occupied σ ∧ c.Measures σ k) chunks lengths ∧
    p = origin + lengths.sum

namespace Passed

variable {origin p : Int} {chunks : List (Stream Value)}

theorem nil (σ : Store W) (origin : Int) : Passed σ origin [] origin := ⟨[], .nil, by simp⟩

theorem snoc (h : Passed σ origin chunks p) {c : Stream Value} {k : Nat} (ho : c.Occupied σ)
    (hc : c.Measures σ k) : Passed σ origin (chunks ++ [c]) (p + k) := by
  obtain ⟨lengths, hl, rfl⟩ := h
  refine ⟨lengths ++ [k], List.rel_append hl (.cons ⟨ho, hc⟩ .nil), ?_⟩
  rw [List.sum_append, List.sum_singleton]
  push_cast
  omega

theorem later (h : Passed σ origin chunks p) (g : σ.Knows τ) : Passed τ origin chunks p := by
  obtain ⟨lengths, hl, hp⟩ := h
  exact ⟨lengths, hl.imp fun _ _ hc => ⟨hc.1.later g, hc.2.later g⟩, hp⟩

theorem occupied (h : Passed σ origin chunks p) {c : Stream Value} (hc : c ∈ chunks) :
    c.Occupied σ := by
  obtain ⟨lengths, hl, -⟩ := h
  induction hl with
  | nil => cases hc
  | cons hd _ ih =>
    cases hc with
    | head => exact hd.1
    | tail _ hc => exact ih hc

end Passed

/-! ## Places on a way -/

/-- The chunks that a parse reads, in order, and the position where the first of them begins. -/
structure Way where
  /-- The position of the first token. -/
  origin : Int
  /-- The chunks. -/
  chunks : List (Stream Value)

/-- The way goes on behind its last chunk. -/
structure Way.Le (w w' : Way) : Prop where
  /-- Both begin at the same position. -/
  origin : w'.origin = w.origin
  /-- The chunks stay. -/
  chunks : w.chunks <+: w'.chunks

/-- A place on a way: the chunks before the one that it lies in, that chunk, and the plain state
whose input is what is left of it. -/
structure Spot where
  /-- The position where the first chunk begins. -/
  origin : Int
  /-- The chunks before. -/
  before : List (Stream Value)
  /-- The chunk that the place lies in. -/
  chunk : Stream Value
  /-- The state there. -/
  inner : State Value

/-- The place lies on the way. -/
structure Spot.Lies (x : Spot) (w : Way) : Prop where
  /-- Positions are counted from the same origin. -/
  origin : x.origin = w.origin
  /-- The chunks are those of the way. -/
  chunks : x.before ++ [x.chunk] <+: w.chunks

/-- The position of the place counts the tokens before it, and there are tokens left in its chunk
unless the chunk was empty from the start. -/
def Spot.Right (σ : Store W) (x : Spot) : Prop :=
  ∃ (p : Int) (k : Nat) (i : Stream Value) (u : Value),
    x.inner = .plain false i (p + k) u ∧ Passed σ x.origin x.before p ∧ x.chunk.After σ k i ∧
    (k = 0 ∨ i.Occupied σ)

theorem Spot.Lies.mono {x : Spot} {w w' : Way} (h : x.Lies w) (hw : w.Le w') : x.Lies w' :=
  ⟨h.origin.trans hw.origin.symm, h.chunks.trans hw.chunks⟩

theorem Spot.Right.later {x : Spot} (h : x.Right σ) (g : σ.Knows τ) : x.Right τ := by
  obtain ⟨p, k, i, u, hi, hp, hk, ho⟩ := h
  exact ⟨p, k, i, u, hi, hp.later g, hk.later g, ho.imp_right fun ho => ho.later g⟩

/-- The place at the beginning of a chunk. -/
theorem Spot.right_start {origin p : Int} {before : List (Stream Value)}
    (h : Passed σ origin before p) (c : Stream Value) (u : Value) :
    Spot.Right σ ⟨origin, before, c, .plain false c p u⟩ :=
  ⟨p, 0, c, u, by simp, h, .refl, .inl rfl⟩

/-- The states at places are not watched. -/
theorem Spot.Right.watched {x : Spot} {w : Bool} {i : Stream Value} {p : Int} {u : Value}
    (h : x.Right σ) (hi : x.inner = .plain w i p u) : w = false := by
  obtain ⟨q, k, i', u', hx, -⟩ := h
  rw [hi] at hx
  cases hx
  rfl

/-- The place behind the first token of another one in the same chunk. -/
theorem Spot.Right.next {x : Spot} {w : Bool} {i j : Stream Value} {p : Int} {u : Value}
    (h : x.Right σ) (hi : x.inner = .plain w i p u) (ho : i.Occupied σ) (hn : i.Next σ j)
    (hj : j.Occupied σ) : Spot.Right σ { x with inner := .plain w j (p + 1) u } := by
  obtain ⟨q, k, i', u', hx, hp, hk, -⟩ := h
  rw [hi] at hx
  cases hx
  refine ⟨q, k + 1, j, u, ?_, hp, .step hk ho hn, .inr hj⟩
  simp only [State.plain.injEq, true_and, and_true]
  push_cast
  omega

/-- Behind the last token of a chunk lies the next chunk. -/
theorem Spot.Right.passed {x : Spot} {w : Bool} {i j : Stream Value} {p : Int} {u : Value}
    (h : x.Right σ) (hi : x.inner = .plain w i p u) (ho : i.Occupied σ) (hn : i.Next σ j)
    (hj : j.Vacant σ) : Passed σ x.origin (x.before ++ [x.chunk]) (p + 1) := by
  obtain ⟨q, k, i', u', hx, hp, hk, -⟩ := h
  rw [hi] at hx
  cases hx
  have passed := hp.snoc (k := k + 1) (hk.occupied ho) ⟨j, .step hk ho hn, hj⟩
  rwa [show q + ↑(k + 1) = q + ↑k + 1 by push_cast; omega] at passed

end ResumableParsing
