import ResumableParsing.Proofs.Correspondence.Even
import ResumableParsing.Proofs.Reading.Memory
import ResumableParsing.Proofs.Store.Blind
import ResumableParsing.Proofs.Stream.Tokens

/-!
# One input and its chunks

A plain run reads the whole input from one stream. A run inside chunks reads the same tokens from
several streams. A plain state and a state inside a chunk correspond if the tokens that are left of
the whole are the ones left of the chunk and then those of the later chunks.

* `Division`: the tokens in chunks
* `Division.Split`: corresponding states
* `Division.Stores`: the two stores, which differ only in what belongs to states and sessions
* `Division.correspondence`: what corresponds in the two runs
-/

namespace ResumableParsing

variable {W α : Type}

/-! ## Tokens in chunks -/

/-- A sequence of tokens in chunks, none of which is empty: the stream of each and its tokens. -/
structure Division where
  /-- The chunks. -/
  pieces : List (Stream Value × List Value)
  /-- Their tokens. -/
  spells : ∀ x ∈ pieces, x.1.Spells x.2
  /-- None is empty. -/
  nonempty : ∀ x ∈ pieces, x.2 ≠ []

namespace Division

variable (d : Division)

/-- The stream of a chunk; behind the last chunk the input is at its end. -/
def chunk (n : Int) : Stream Value :=
  match d.pieces[n.toNat]? with
  | some x => x.1
  | none => .nil

/-- The tokens of a chunk. -/
def part (n : Nat) : List Value :=
  match d.pieces[n]? with
  | some x => x.2
  | none => []

/-- The tokens behind a chunk. -/
def after (n : Nat) : List Value := ((d.pieces.drop (n + 1)).map Prod.snd).flatten

theorem chunk_spells (n : Nat) : (d.chunk n).Spells (d.part n) := by
  rw [chunk, part, Int.toNat_natCast]
  cases h : d.pieces[n]? with
  | none => exact .nil
  | some x => exact d.spells x (List.mem_of_getElem? h)

theorem after_eq (n : Nat) : d.after n = d.part (n + 1) ++ d.after (n + 1) := by
  rw [after, after, part]
  cases h : d.pieces[n + 1]? with
  | none =>
    have hn := List.getElem?_eq_none_iff.mp h
    rw [List.drop_eq_nil_of_le hn, List.drop_eq_nil_of_le (by omega)]
    rfl
  | some x =>
    obtain ⟨hn, rfl⟩ := List.getElem?_eq_some_iff.mp h
    rw [List.drop_eq_getElem_cons hn]
    rfl

/-- Only behind the last token a chunk is empty. -/
theorem length_le_of_part {n : Nat} (h : d.part n = []) : d.pieces.length ≤ n := by
  rw [part] at h
  cases e : d.pieces[n]? with
  | none => exact List.getElem?_eq_none_iff.mp e
  | some x =>
    rw [e] at h
    exact absurd h (d.nonempty x (List.mem_of_getElem? e))

/-- Behind the last chunk there are no tokens. -/
theorem after_eq_nil {n : Nat} (h : d.pieces.length ≤ n + 1) : d.after n = [] := by
  rw [after, List.drop_eq_nil_of_le h]
  rfl

/-! ## Corresponding states -/

/-- What is known of a plain run and a run inside chunks. -/
structure World where
  /-- The parsers of both runs. -/
  parsers : ParserId → Prop
  /-- The states inside chunks. -/
  ghost : Ghost
  /-- How many chunks there are so far. -/
  given : Nat

/-- More is known, and there may be more chunks. -/
structure World.Le (w w' : World) : Prop where
  /-- The parsers stay. -/
  parsers : ∀ p, w.parsers p → w'.parsers p
  /-- The states stay. -/
  ghost : w.ghost.Le w'.ghost
  /-- The chunks stay. -/
  given : w.given ≤ w'.given

theorem World.Le.refl (w : World) : w.Le w := ⟨fun _ h => h, .refl _, Nat.le_refl _⟩

theorem World.Le.trans {w w' w'' : World} (h : w.Le w') (h' : w'.Le w'') : w.Le w'' :=
  ⟨fun p hp => h'.parsers p (h.parsers p hp), h.ghost.trans h'.ghost, Nat.le_trans h.given h'.given⟩

/-- A plain state, and a state in a chunk of which the tokens `ys` are left. -/
inductive Split (w : World) (ys : List Value) : State Value → State Value → Prop where
  | intro {i j : Stream Value} {a : AdvanceId} {c : Nat} {position : Int} {user : Value} :
      i.Spells (ys ++ d.after c) → j.Spells ys → (ys = [] → d.pieces.length ≤ c) → c < w.given →
      w.ghost.owner a.index = some ((c : Int), .plain false j position user) →
      Split w ys (.plain false i position user) (.chunked a c (.plain false j position user))

/-- The plain state lies behind the token already. The one inside the chunk is about to move. -/
inductive Moves (w : World) : (Continuation W → Task W) → (Continuation W → Task W) → Prop where
  | intro {i j : Stream Value} {a : AdvanceId} {c : Nat} {position : Int} {user y : Value}
      {ys : List Value} :
      i.Spells (ys ++ d.after c) → j.Spells (y :: ys) → c < w.given →
      w.ghost.owner a.index = some ((c : Int), .plain false j position user) →
      Moves w (fun k => .settle (.plain false i (position + 1) user) k)
        (fun k => .cross a c (.plain false j position user) k)

/-- The plain run arrives behind the last token of a chunk, while the other one waits for the next
chunk. -/
inductive Pauses (w : World) :
    (Continuation W → Step (Task W) (Finish W)) → Int → State Value → Prop where
  | intro {i j : Stream Value} {c : Nat} {position : Int} {user : Value} :
      i.Spells (d.after c) → c < w.given →
      Pauses w (fun k => .tail (.arrive (.plain false i position user) k)) (c + 1 : Nat)
        (.plain false j position user)

/-! ## The stores -/

/-- The stores of a plain run and a run inside chunks. -/
structure Stores (w : World) (σ τ : Store W) : Prop where
  /-- They differ in what belongs to states, results and sessions. -/
  alike : σ.Alike τ
  /-- Nothing is parsed when streams are read. -/
  still : σ.Still
  /-- What states remember is true. -/
  holds : w.ghost.Holds True d.chunk τ
  /-- The parsers only start one another. -/
  closed : Closed (fun _ => False) w.parsers σ

/-- What corresponds in a plain run and a run inside chunks. -/
def correspondence (W : Type) : Correspondence W where
  World := World
  Le := World.Le
  During w w' := w.Le w' ∧ w.given = w'.given
  Stores := d.Stores
  Values _ v u := v = u
  Tokens _ v u := v = u
  Parsers w p q := p = q ∧ w.parsers p
  Binders w f g := f = g ∧ Correspondence.Binder w.parsers f
  States w s t := ∃ ys, d.Split w ys s t
  Occupied w s t := ∃ y ys, d.Split w (y :: ys) s t
  Moving := d.Moves
  Pausing := d.Pauses

end Division

end ResumableParsing
