import ResumableParsing.Proofs.Correspondence.Runs
import ResumableParsing.Proofs.Pairing.Programs

/-!
# Corresponding runs with streams and parsers of their own

Two runs in different stores make different streams and build different parsers. What they make
belongs together, and pure functions of the caller do not tell it apart. So all that is left to say
of two such runs is how states correspond and how their tokens are read.

* `Setting`: how the states of two runs correspond
* `Setting.correspondence`: the correspondence with streams and parsers that belong together
* `Setting.Lawful`: what has to be said of the states
* `Setting.Lawful.lawful`: then the two runs correspond
-/

namespace ResumableParsing

variable {W α β : Type}

/-- How the states of two runs correspond, given what is known in a world. -/
structure Setting (W : Type) where
  /-- What is known of the states. -/
  World : Type
  /-- More is known. -/
  Le : World → World → Prop
  /-- More is known, and nothing but the two runs has led to it. -/
  During : World → World → Prop
  /-- The parts of the stores where the states lie correspond. -/
  Stores : Pairing → World → Store W → Store W → Prop
  /-- The states correspond. -/
  States : World → State Value → State Value → Prop
  /-- The states correspond, and there is a token to read. -/
  Occupied : World → State Value → State Value → Prop
  /-- Tasks that move corresponding states past their tokens. -/
  Moving : World → (Continuation W → Task W) → (Continuation W → Task W) → Prop
  /-- The left run goes on with a step, or waits, while the right run waits for the chunk of a
  number behind a state. -/
  Pausing : World → (Continuation W → Step (Task W) (Finish W)) → Int → State Value → Prop

namespace Setting

/-- What corresponds in two runs that make streams and parsers of their own. -/
def correspondence (S : Setting W) : Correspondence W where
  World := Pairing × S.World
  Le w w' := w.1.Le w'.1 ∧ S.Le w.2 w'.2
  During w w' := w.1.Le w'.1 ∧ S.During w.2 w'.2
  Stores w σ τ := w.1.Agree σ τ ∧ S.Stores w.1 w.2 σ τ
  Values w := w.1.Like
  Tokens _ v u := v = u ∧ v.Settled
  Parsers w := w.1.parsers
  Binders w := w.1.Functions Grammar.Paired
  States w := S.States w.2
  Occupied w := S.Occupied w.2
  Moving w := S.Moving w.2
  Pausing w := S.Pausing w.2

/-- What the correspondence rests on. -/
structure Lawful (S : Setting W) : Prop where
  /-- A world knows what it knows. -/
  refl : ∀ w, S.During w w
  /-- Worlds grow step by step. -/
  trans : ∀ {w w' w''}, S.Le w w' → S.Le w' w'' → S.Le w w''
  /-- They do so during runs. -/
  during_trans : ∀ {w w' w''}, S.During w w' → S.During w' w'' → S.During w w''
  /-- More is known after a run. -/
  le : ∀ {w w'}, S.During w w' → S.Le w w'
  /-- States correspond for good. -/
  states_mono : ∀ {w w' s t}, S.Le w w' → S.States w s t → S.States w' s t
  /-- Tokens that are there stay there. -/
  occupied_mono : ∀ {w w' s t}, S.Le w w' → S.Occupied w s t → S.Occupied w' s t
  /-- Moving tasks correspond for good. -/
  moving_mono : ∀ {w w' m m'}, S.Le w w' → S.Moving w m m' → S.Moving w' m m'
  /-- Corresponding states have the same position. -/
  position : ∀ {w s t}, S.States w s t → s.position = t.position
  /-- What belongs together beside the states does not matter to them. -/
  aside : ∀ {k l w σ τ σ' τ'}, k.Agree σ τ → S.Stores k w σ τ → k.Reach l σ τ σ' τ' →
    S.Stores l w σ' τ'
  /-- There is a token on both sides or on none. -/
  isEmpty : ∀ {w s t}, S.States w.2 s t → S.correspondence.Runs w
    (fun w' a b => a = b ∧ (a = false → S.Occupied w'.2 s t)) s.input.isEmpty t.input.isEmpty
  /-- The first tokens are the same. -/
  first : ∀ {w s t}, S.Occupied w.2 s t →
    S.correspondence.Runs w S.correspondence.Tokens s.input.first t.input.first
  /-- Both sides begin to move past a token. -/
  next : ∀ {w s t}, S.Occupied w.2 s t → ∀ v u k l, S.correspondence.Runs w
    (fun w' x y => ∃ m m', S.Moving w'.2 m m' ∧ x = m k ∧ y = m' l) (s.next v k) (t.next u l)
  /-- Both sides arrive in corresponding states, or the right one waits for a chunk. -/
  moving : ∀ {w m m'}, S.Moving w.2 m m' → ∀ k l, S.correspondence.Runs w
    (fun w' x y => S.correspondence.Arrives w' k l x y) (m k).step (m' l).step

namespace Lawful

variable {S : Setting W} (hS : S.Lawful) {w w' : S.correspondence.World}

include hS

theorem ordered : S.correspondence.Ordered where
  refl w := ⟨.refl w.1, hS.refl w.2⟩
  trans h h' := ⟨h.1.trans h'.1, hS.trans h.2 h'.2⟩
  during_trans h h' := ⟨h.1.trans h'.1, hS.during_trans h.2 h'.2⟩
  le h := ⟨h.1, hS.le h.2⟩

/-- Computations that come to corresponding ends within every bound do so altogether. -/
theorem runs_of_tied {Q : Pairing → α → β → Prop} {x : Eval W α} {y : Eval W β} (hy : Composed y)
    (h : ∀ n, w.1.Tied (.within n) Q x y) :
    S.correspondence.Runs w (fun w' a b => Q w'.1 a b) x y := by
  rintro ⟨k, v⟩ σ τ r hle ⟨agree, hs⟩ ⟨he, n, hx⟩
  have ends := h n k σ τ hle.1 agree
  rw [show x (.within n) σ = r from hx n (Nat.le_refl n)] at ends
  -- Both ends are reached within one bound, so the right run is not exhausted: the left one would
  -- be so too.
  refine ⟨y (.within n) τ, hy.comes rfl ?_, ?_⟩
  · rintro ⟨τ', e⟩
    rw [show y (.within n) τ = _ from e] at ends
    cases r with
    | ok a σ' => exact ends.elim
    | error e σ' =>
      obtain ⟨rfl, -⟩ := ends
      exact he ⟨σ', rfl⟩
  · cases r with
    | ok a σ' =>
      cases e : y (.within n) τ with
      | error f τ' =>
        rw [e] at ends
        exact ends.elim
      | ok b τ' =>
        rw [e] at ends
        obtain ⟨l, reach, hq⟩ := ends
        exact ⟨(l, v), ⟨reach.le, hS.refl v⟩, ⟨reach.agree, hS.aside agree hs reach⟩, hq⟩
    | error f σ' =>
      cases e : y (.within n) τ with
      | ok b τ' =>
        rw [e] at ends
        exact ends.elim
      | error f' τ' =>
        rw [e] at ends
        obtain ⟨rfl, l, reach⟩ := ends
        exact ⟨rfl, (l, v), ⟨reach.le, hS.refl v⟩, ⟨reach.agree, hS.aside agree hs reach⟩⟩

/-! ## Streams and parsers -/

/-- Streams are read alike, and parsers are built alike. -/
theorem pairs : S.correspondence.Pairs Prod.fst where
  toOrdered := hS.ordered
  pairing_le hle := hle.1
  serial _ := hS.runs_of_tied .serial fun _ => Pairing.tied_serial
  rest h := hS.runs_of_tied (composed_rest _) fun n => Pairing.tied_rest n h
  lazyCell hv h := hS.runs_of_tied (composed_lazyCell _ _) fun _ => Pairing.tied_lazyCell hv h
  values := rfl
  tokens := rfl
  parsers := rfl
  functions := rfl
  defines hs := hs.1.defines
  made := by
    rintro ⟨k, w⟩ l σ τ σ' τ' ⟨agree, hs⟩ made
    have reach := made.reach agree
    exact ⟨(l, w), ⟨made.le, hS.refl w⟩, ⟨reach.agree, hS.aside agree hs reach⟩, rfl⟩

/-- The two runs correspond. -/
theorem lawful : S.correspondence.Lawful where
  toOrdered := hS.ordered
  values_mono hle h := h.mono hle.1
  tokens_mono _ h := h
  parsers_mono hle h := hle.1.parsers _ _ h
  binders_mono hle h := h.mono hle.1
  states_mono hle h := hS.states_mono hle.2 h
  occupied_mono hle h := hS.occupied_mono hle.2 h
  moving_mono hle h := hS.moving_mono hle.2 h
  tokens_values := by
    rintro w v _ ⟨rfl, settled⟩
    exact .same settled
  position h := hS.position h
  none _ := .same .none
  nil _ := .nil
  ignore h := h.ignore
  binders h := hS.pairs.binders h
  found hs h := hS.pairs.found hs h
  debug _ m m' := hS.runs_of_tied (.debug m') fun _ => Pairing.tied_debug m m'
  serial w := hS.pairs.serial w
  isEmpty h := hS.isEmpty h
  first h := hS.first h
  render := by
    rintro w σ τ v _ - ⟨rfl, settled⟩
    exact settled.render σ.names τ.names
  join c h h' := hS.pairs.join c h h'
  next h v u _ := hS.next h v u
  moving h := hS.moving h

end Lawful

end Setting

end ResumableParsing
