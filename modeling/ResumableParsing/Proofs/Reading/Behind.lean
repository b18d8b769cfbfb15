import ResumableParsing.Proofs.Stream.Known

/-!
# States behind one another

The input of a plain state is read token by token. The input of a state inside a chunk is what is
left of the chunk and then the later chunks: behind the last token of a chunk the next chunk comes
first.

* `State.Refilled`: a state with another input
* `State.Behind`: the state behind the first token of another one
* `State.Follows`: the state behind so many tokens of another one
* `Stream.restsAcross`: moving along the rest of a chunk and the chunks after it
-/

namespace ResumableParsing

variable {W : Type} {σ τ : Store W} {chunks : Int → Stream Value}

/-- The state with the given input instead of its own. States inside chunks get new memories. -/
def State.Refilled (input : Stream Value) : State Value → State Value → Prop
  | .plain w _ p u, t => t = .plain w input p u
  | .chunked _ c s, .chunked _ d t => d = c ∧ s.Refilled input t
  | .chunked .., .plain .. => False

/-- `s.Behind σ chunks t`: the state `t` is the one behind the first token of `s`, as far as the
store `σ` knows the inputs and if `chunks` are the chunks by their numbers. -/
inductive State.Behind (σ : Store W) (chunks : Int → Stream Value) :
    State Value → State Value → Prop where
  /-- The rest of the input. -/
  | plain {w : Bool} {i j : Stream Value} {p : Int} {u : Value} :
      i.Next σ j → Behind σ chunks (.plain w i p u) (.plain w j (p + 1) u)
  /-- There are more tokens in the chunk. -/
  | within {a b : AdvanceId} {c : Int} {s t : State Value} :
      Behind σ chunks s t → t.input.Occupied σ →
      Behind σ chunks (.chunked a c s) (.chunked b c t)
  /-- The token is the last one of the chunk. -/
  | across {a b : AdvanceId} {c : Int} {s t t' : State Value} :
      Behind σ chunks s t → t.input.Vacant σ → t.Refilled (chunks (c + 1)) t' →
      Behind σ chunks (.chunked a c s) (.chunked b (c + 1) t')

/-- `s.Follows σ chunks n t`: the state `t` is the one behind the first `n` tokens of `s`. -/
inductive State.Follows (σ : Store W) (chunks : Int → Stream Value) :
    Nat → State Value → State Value → Prop where
  /-- The state itself. -/
  | refl (s : State Value) : Follows σ chunks 0 s s
  /-- One more token. -/
  | step {n : Nat} {s t u : State Value} :
      Follows σ chunks n s t → t.Behind σ chunks u → Follows σ chunks (n + 1) s u

namespace State

variable {s t u : State Value} {i : Stream Value} {n k : Nat}

/-! ## Refilled states -/

theorem Refilled.position (h : s.Refilled i t) : t.position = s.position := by
  induction s generalizing t with
  | plain w i p u =>
    cases h
    rfl
  | chunked a c s ih =>
    cases t with
    | plain => exact h.elim
    | chunked b d t' => exact ih (t := t') h.2

theorem Refilled.user (h : s.Refilled i t) : t.user = s.user := by
  induction s generalizing t with
  | plain w i p u =>
    cases h
    rfl
  | chunked a c s ih =>
    cases t with
    | plain => exact h.elim
    | chunked b d t' => exact ih (t := t') h.2

theorem Refilled.input (h : s.Refilled i t) : t.input = i := by
  induction s generalizing t with
  | plain w j p u =>
    cases h
    rfl
  | chunked a c s ih =>
    cases t with
    | plain => exact h.elim
    | chunked b d t' => exact ih (t := t') h.2

/-! ## States behind a token -/

theorem Behind.later (h : s.Behind σ chunks t) (k : σ.Knows τ) : s.Behind τ chunks t := by
  induction h with
  | plain h => exact .plain (h.later k)
  | within _ h ih => exact .within ih (h.later k)
  | across _ h hr ih => exact .across ih (h.later k) hr

theorem Behind.position (h : s.Behind σ chunks t) : t.position = s.position + 1 := by
  induction h with
  | plain h => rfl
  | within _ _ ih => exact ih
  | across _ _ hr ih => exact hr.position.trans ih

theorem Behind.user (h : s.Behind σ chunks t) : t.user = s.user := by
  induction h with
  | plain h => rfl
  | within _ _ ih => exact ih
  | across _ _ hr ih => exact hr.user.trans ih

/-- What is left behind a token does not depend on how the state behind it was found. -/
theorem Behind.input_unique {t' : State Value} (h : s.Behind σ chunks t)
    (h' : s.Behind σ chunks t') : t.input = t'.input := by
  induction h generalizing t' with
  | plain h =>
    cases h' with
    | plain h' => exact h.unique h'
  | within _ ho ih =>
    cases h' with
    | @within _ _ _ _ t' h' _ => exact @ih t' h'
    | across h' hv _ => exact absurd (ih h' ▸ hv) ho.not_vacant
  | across _ hv hr ih =>
    cases h' with
    | within h' ho => exact absurd (ih h' ▸ hv) ho.not_vacant
    | across h' _ hr' => exact Eq.trans hr.input hr'.input.symm

/-! ## States behind many tokens -/

theorem Follows.later (h : s.Follows σ chunks n t) (k : σ.Knows τ) : s.Follows τ chunks n t := by
  induction h with
  | refl s => exact .refl s
  | step _ hb ih => exact .step ih (hb.later k)

theorem Follows.trans (h : s.Follows σ chunks n t) (h' : t.Follows σ chunks k u) :
    s.Follows σ chunks (n + k) u := by
  induction h' with
  | refl t => exact h
  | step _ hb ih => exact .step (ih h) hb

theorem Follows.position (h : s.Follows σ chunks n t) : t.position = s.position + n := by
  induction h with
  | refl s => simp
  | step _ hb ih =>
    rw [hb.position, ih]
    push_cast
    omega

theorem Follows.user (h : s.Follows σ chunks n t) : t.user = s.user := by
  induction h with
  | refl s => rfl
  | step _ hb ih => rw [hb.user, ih]

end State

/-! ## Moving along chunks -/

/-- What is left to read from a state on: the numbers of the chunks that it lies in, the outermost
first, and the rest of the innermost one. -/
def State.cursor : State Value → List Int × Stream Value
  | .plain _ i _ _ => ([], i)
  | .chunked _ c s => (c :: s.cursor.1, s.cursor.2)

/-- Moves past one token. Outside chunks that is the rest of the input. Behind the last token of a
chunk comes the next chunk. -/
def Stream.restAcross (chunks : Int → Stream Value) :
    List Int → Stream Value → Eval W (List Int × Stream Value)
  | [], i => return ([], ← i.rest)
  | c :: cs, i => do
    let (ds, j) ← Stream.restAcross chunks cs i
    if ← j.isEmpty then return ((c + 1) :: ds, chunks (c + 1)) else return (c :: ds, j)

/-- Moves past so many tokens. -/
def Stream.restsAcross (chunks : Int → Stream Value) :
    (tokens : Nat) → List Int × Stream Value → Eval W (List Int × Stream Value)
  | 0, x => return x
  | n + 1, x => do
    let (cs, i) ← Stream.restsAcross chunks n x
    Stream.restAcross chunks cs i

namespace State

variable {s t u : State Value} {i : Stream Value} {n k : Nat}

theorem Refilled.cursor (h : s.Refilled i t) : t.cursor = (s.cursor.1, i) := by
  induction s generalizing t with
  | plain w j p u =>
    cases h
    rfl
  | chunked a c s ih =>
    cases t with
    | plain => exact h.elim
    | chunked b d t' =>
      obtain ⟨rfl, h⟩ := h
      rw [State.cursor, ih h]
      rfl

theorem cursor_input (s : State Value) : s.cursor.2 = s.input := by
  induction s with
  | plain => rfl
  | chunked a c s ih => exact ih

/-- What is left behind a token is found without computing anything. -/
theorem Behind.restAcross (h : s.Behind σ chunks t) :
    Stream.restAcross chunks s.cursor.1 s.cursor.2 (.within (k + 1)) σ = .ok t.cursor σ := by
  induction h with
  | plain h => simp [State.cursor, Stream.restAcross, rest_of_next h]
  | @within a b c s t _ ho ih =>
    have ho : t.cursor.2.Occupied σ := by rwa [cursor_input]
    simp [State.cursor, Stream.restAcross, ih, isEmpty_of_occupied ho]
  | @across a b c s t t' _ hv hr ih =>
    have hv : t.cursor.2.Vacant σ := by rwa [cursor_input]
    simp [State.cursor, Stream.restAcross, ih, isEmpty_of_vacant hv, hr.cursor]

theorem Follows.restsAcross (h : s.Follows σ chunks n t) :
    Stream.restsAcross chunks n s.cursor (.within (k + 1)) σ = .ok t.cursor σ := by
  induction h with
  | refl s => rfl
  | step _ hb ih => simp [Stream.restsAcross, ih, hb.restAcross]

end State

end ResumableParsing
