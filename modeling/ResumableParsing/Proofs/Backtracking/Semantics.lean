import ResumableParsing.Proofs.Grammar.Core
import ResumableParsing.Proofs.Pairing.Purity

/-!
# Parsing expression grammars

The meaning of grammars with ordered choice and greedy repetition, where a parser succeeds or fails
and nothing is said about consuming: a choice tries its second part wherever the first one fails,
and a repetition goes on as long as its part succeeds. Parsers that have been declared stand for
the grammars that they are defined as. Predicates and functions of the caller are run where the
grammar says, in the store that the parts before have left; nothing else looks at it.

* `Grammar.Derives`: what a grammar makes of a list of tokens
* `Grammar.Backtracking`: grammars of pure functions in which every part that may be given up is an
  attempt
-/

namespace ResumableParsing

variable {W : Type}

/-! ## The meaning of grammars -/

/-- The parsers that have been declared, with the grammars that they are defined as. -/
abbrev Declarations (W : Type) := ParserId → Option (Grammar W)

/-- What a grammar makes of a list of tokens, from one store to the next: it succeeds with a value
after a number of tokens, or it fails, for which `none` stands. The numbers of cells are left open.
-/
inductive Grammar.Derives (known : Declarations W) :
    Grammar W → List Value → Store W → Option (Value × Nat) → Store W → Prop where
  /-- A parser that has been declared. -/
  | ref {q : ParserId} {g : Grammar W} {xs : List Value} {r : Option (Value × Nat)}
      {σ τ : Store W} :
      known q = .some g → Derives known g xs σ r τ → Derives known (.ref q) xs σ r τ
  /-- A token that satisfies the predicate. -/
  | accept {f : Value → Action W Bool} {x : Value} {xs : List Value} {σ τ : Store W} :
      (f x).run.Comes σ (.ok true τ) → Derives known (.some f) (x :: xs) σ (.some (x, 1)) τ
  /-- Another token. -/
  | reject {f : Value → Action W Bool} {x : Value} {xs : List Value} {σ τ : Store W} :
      (f x).run.Comes σ (.ok false τ) → Derives known (.some f) (x :: xs) σ none τ
  /-- No token. -/
  | lacking {f : Value → Action W Bool} {σ : Store W} : Derives known (.some f) [] σ none σ
  /-- A token that equals the value. -/
  | equal {v x : Value} {xs : List Value} {σ : Store W} :
      x.beq v = true → Derives known (.token v) (x :: xs) σ (.some (x, 1)) σ
  /-- Another token. -/
  | unequal {v x : Value} {xs : List Value} {σ : Store W} :
      x.beq v = false → Derives known (.token v) (x :: xs) σ none σ
  /-- No token. -/
  | missing {v : Value} {σ : Store W} : Derives known (.token v) [] σ none σ
  | pure {v : Value} {xs : List Value} {σ : Store W} : Derives known (.pure v) xs σ (.some (v, 0)) σ
  | fail {message : String} {xs : List Value} {σ : Store W} :
      Derives known (.fail message) xs σ none σ
  /-- The end of the input. -/
  | finished {σ : Store W} : Derives known .finished [] σ (.some (.none, 0)) σ
  /-- There is another token. -/
  | unfinished {x : Value} {xs : List Value} {σ : Store W} :
      Derives known .finished (x :: xs) σ none σ
  /-- One grammar after the other. -/
  | plus {p q : Grammar W} {xs : List Value} {v w : Value} {n k : Nat} {σ τ υ : Store W} :
      Derives known p xs σ (.some (v, n)) τ → Derives known q (xs.drop n) τ (.some (w, k)) υ →
      Derives known (.plus p q) xs σ (.some (v.beside w, n + k)) υ
  /-- The first one fails. -/
  | plusFirst {p q : Grammar W} {xs : List Value} {σ τ : Store W} :
      Derives known p xs σ none τ → Derives known (.plus p q) xs σ none τ
  /-- The second one fails. -/
  | plusSecond {p q : Grammar W} {xs : List Value} {v : Value} {n : Nat} {σ τ υ : Store W} :
      Derives known p xs σ (.some (v, n)) τ → Derives known q (xs.drop n) τ none υ →
      Derives known (.plus p q) xs σ none υ
  /-- A sequence without parts. -/
  | nothing {xs : List Value} {σ : Store W} :
      Derives known (.sequence []) xs σ (.some (.stream .nil, 0)) σ
  /-- The parts of a sequence, one after the other. -/
  | sequence {p : Grammar W} {ps : List (Grammar W)} {xs : List Value} {v : Value}
      {s : Stream Value} {m n k : Nat} {σ τ υ : Store W} :
      Derives known p xs σ (.some (v, n)) τ →
      Derives known (.sequence ps) (xs.drop n) τ (.some (.stream s, k)) υ →
      Derives known (.sequence (p :: ps)) xs σ (.some (.stream (.cons m v s), n + k)) υ
  /-- The first part fails. -/
  | sequenceFirst {p : Grammar W} {ps : List (Grammar W)} {xs : List Value} {σ τ : Store W} :
      Derives known p xs σ none τ → Derives known (.sequence (p :: ps)) xs σ none τ
  /-- A later part fails. -/
  | sequenceRest {p : Grammar W} {ps : List (Grammar W)} {xs : List Value} {v : Value} {n : Nat}
      {σ τ υ : Store W} :
      Derives known p xs σ (.some (v, n)) τ →
      Derives known (.sequence ps) (xs.drop n) τ none υ →
      Derives known (.sequence (p :: ps)) xs σ none υ
  /-- The result is transformed. -/
  | map {p : Grammar W} {f : Value → Action W Value} {xs : List Value} {v w : Value} {n : Nat}
      {σ τ υ : Store W} :
      Derives known p xs σ (.some (v, n)) τ → (f v).run.Comes τ (.ok w υ) →
      Derives known (.map p f) xs σ (.some (w, n)) υ
  /-- There is no result. -/
  | mapFails {p : Grammar W} {f : Value → Action W Value} {xs : List Value} {σ τ : Store W} :
      Derives known p xs σ none τ → Derives known (.map p f) xs σ none τ
  /-- The result is read into a list. -/
  | listed {p : Grammar W} {xs : List Value} {v w : Value} {n : Nat} {σ τ υ : Store W} :
      Derives known p xs σ (.some (v, n)) τ → (Build.listOf v).run.Comes τ (.ok w υ) →
      Derives known (.listed p) xs σ (.some (w, n)) υ
  /-- There is no result. -/
  | listedFails {p : Grammar W} {xs : List Value} {σ τ : Store W} :
      Derives known p xs σ none τ → Derives known (.listed p) xs σ none τ
  /-- The first part of a choice succeeds, and the second one is not looked at. -/
  | left {p q : Grammar W} {xs : List Value} {r : Value × Nat} {σ τ : Store W} :
      Derives known p xs σ (.some r) τ → Derives known (.or p q) xs σ (.some r) τ
  /-- The first part fails, and the second one decides. -/
  | right {p q : Grammar W} {xs : List Value} {r : Option (Value × Nat)} {σ τ υ : Store W} :
      Derives known p xs σ none τ → Derives known q xs τ r υ → Derives known (.or p q) xs σ r υ
  | present {p : Grammar W} {d : Value} {xs : List Value} {r : Value × Nat} {σ τ : Store W} :
      Derives known p xs σ (.some r) τ → Derives known (.optional p d) xs σ (.some r) τ
  | absent {p : Grammar W} {d : Value} {xs : List Value} {σ τ : Store W} :
      Derives known p xs σ none τ → Derives known (.optional p d) xs σ (.some (d, 0)) τ
  /-- A repetition ends where its part fails. -/
  | stop {p : Grammar W} {xs : List Value} {σ τ : Store W} :
      Derives known p xs σ none τ → Derives known (.many p) xs σ (.some (.stream .nil, 0)) τ
  /-- As long as its part succeeds, it goes on. -/
  | more {p : Grammar W} {xs : List Value} {v : Value} {s : Stream Value} {m n k : Nat}
      {σ τ υ : Store W} :
      Derives known p xs σ (.some (v, n)) τ →
      Derives known (.many p) (xs.drop n) τ (.some (.stream s, k)) υ →
      Derives known (.many p) xs σ (.some (.stream (.cons m v s), n + k)) υ
  /-- An attempt means the same as its part. -/
  | attempt {p : Grammar W} {xs : List Value} {r : Option (Value × Nat)} {σ τ : Store W} :
      Derives known p xs σ r τ → Derives known (.attempt p) xs σ r τ

/-! ## Grammars in which everything that is given up is an attempt -/

namespace Grammar

/-- The grammar is an attempt. -/
def IsAttempt : Grammar W → Prop
  | .attempt _ => True
  | _ => False

/-- The grammar stands for a parser that has been built before. -/
def IsRef : Grammar W → Prop
  | .ref _ => True
  | _ => False

/-- A part of a grammar of pure functions and data in which the first part of every choice, and what
is optional or repeated, is an attempt. -/
def Backtracking (known : Declarations W) : Grammar W → Prop
  | .ref q => (known q).isSome
  | .or p _ | .many p => p.IsAttempt
  | .optional p v => p.IsAttempt ∧ v.Settled
  | .some f => ∀ k : Pairing, k.Predicates f f
  | .map _ f => ∀ k : Pairing, k.Functions Pairing.Like f f
  | .pure v => v.Settled
  | .token _ | .fail _ | .finished | .plus .. | .attempt _ | .sequence _ | .listed _ => True
  | _ => False

/-- What holds of the parts of a sequence, behind the first of them. -/
theorem Each.rest {ok : Grammar W → Prop} {p : Grammar W} {ps : List (Grammar W)}
    (h : (Grammar.sequence (p :: ps)).Each ok) (hps : ok (.sequence ps)) :
    (Grammar.sequence ps).Each ok :=
  .node hps (fun q hq => h.operand (List.mem_cons_of_mem p hq)) (by simp [binder?])

end Grammar

/-! ## States behind tokens -/

/-- The state `t` is the state `s` moved past `n` tokens. -/
def State.Moved (s : State Value) (n : Nat) (t : State Value) : Prop :=
  ∃ w i j position u, s = .plain w i position u ∧ t = .plain w j (position + n) u

section

variable {r t u : State Value} {n k : Nat}

theorem State.Moved.trans (h : r.Moved n t) (h' : t.Moved k u) : r.Moved (n + k) u := by
  obtain ⟨w, i, j, p, user, rfl, rfl⟩ := h
  obtain ⟨_, _, l, _, _, ⟨⟩, rfl⟩ := h'
  refine ⟨w, i, l, p, user, rfl, ?_⟩
  congr 1
  push_cast
  omega

end

end ResumableParsing
