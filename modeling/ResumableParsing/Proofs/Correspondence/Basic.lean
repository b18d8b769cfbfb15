import Mathlib.Data.List.Forall2
import ResumableParsing.Proofs.Store.Comes

/-!
# Corresponding runs

Two runs of parsers can correspond although their states look different: the input of one may be in
one piece and that of the other in chunks, or one may find in the store what the other has to
compute. What corresponds to what is known in worlds, which grow while the runs go on.

* `Correspondence`: what corresponds in a world
* `Correspondence.Runs`: computations that come to corresponding ends
* `Correspondence.Codes`, `Frames`, `Tasks`: corresponding parsers and what they leave to do
* `Correspondence.Lawful`: what the simulation of one run by another one rests on
-/

namespace ResumableParsing

variable {W α β γ δ : Type}

/-- What corresponds in a left and a right run, given what is known in a world. -/
structure Correspondence (W : Type) where
  /-- What is known of the two runs. -/
  World : Type
  /-- More is known. -/
  Le : World → World → Prop
  /-- More is known, and nothing but the two runs has led to it. -/
  During : World → World → Prop
  /-- The stores correspond. -/
  Stores : World → Store W → Store W → Prop
  /-- The values correspond. -/
  Values : World → Value → Value → Prop
  /-- The tokens correspond. -/
  Tokens : World → Value → Value → Prop
  /-- The parsers correspond. -/
  Parsers : World → ParserId → ParserId → Prop
  /-- Functions of the caller that give corresponding grammars. -/
  Binders : World → (Value → Action W (Grammar W)) → (Value → Action W (Grammar W)) → Prop
  /-- The states correspond. -/
  States : World → State Value → State Value → Prop
  /-- The states correspond, and there is a token to read. -/
  Occupied : World → State Value → State Value → Prop
  /-- Tasks that move corresponding states past their tokens. -/
  Moving : World → (Continuation W → Task W) → (Continuation W → Task W) → Prop
  /-- The left run goes on with a step, or waits, while the right run waits for the chunk of a
  number behind a state. -/
  Pausing : World → (Continuation W → Step (Task W) (Finish W)) → Int → State Value → Prop

namespace Correspondence

variable (C : Correspondence W)

/-! ## Computations -/

/-- The ends of two computations correspond: the same fault, or results as `Q` says. -/
def Ends (w : C.World) (Q : C.World → α → β → Prop) :
    EStateM.Result Stop (Store W) α → EStateM.Result Stop (Store W) β → Prop
  | .ok a σ, .ok b τ => ∃ w', C.During w w' ∧ C.Stores w' σ τ ∧ Q w' a b
  | .error e σ, .error f τ => e = f ∧ ∃ w', C.During w w' ∧ C.Stores w' σ τ
  | _, _ => False

variable {C} in
/-- Results may correspond in another way as well. -/
theorem Ends.imp {w : C.World} {Q Q' : C.World → α → β → Prop}
    {r : EStateM.Result Stop (Store W) α} {r' : EStateM.Result Stop (Store W) β}
    (h : C.Ends w Q r r')
    (hQ : ∀ w' a b σ, C.During w w' → r = .ok a σ → Q w' a b → Q' w' a b) : C.Ends w Q' r r' := by
  cases r with
  | error e σ =>
    cases r' with
    | ok b τ => exact h
    | error f τ => exact h
  | ok a σ =>
    cases r' with
    | error f τ => exact h
    | ok b τ =>
      obtain ⟨w', hw, hs, hq⟩ := h
      exact ⟨w', hw, hs, hQ w' a b σ hw rfl hq⟩

variable {C} in
/-- If one side gives a result, so does the other. -/
theorem Ends.of_ok {w : C.World} {Q : C.World → α → β → Prop} {a : α} {σ : Store W}
    {r : EStateM.Result Stop (Store W) β} (h : C.Ends w Q (.ok a σ) r) :
    ∃ b τ w', r = .ok b τ ∧ C.During w w' ∧ C.Stores w' σ τ ∧ Q w' a b := by
  cases r with
  | error e τ => exact h.elim
  | ok b τ =>
    obtain ⟨w', hw, hs, hq⟩ := h
    exact ⟨b, τ, w', rfl, hw, hs, hq⟩

variable {C} in
/-- If one side breaks off, so does the other. -/
theorem Ends.of_error {w : C.World} {Q : C.World → α → β → Prop} {e : Stop} {σ : Store W}
    {r : EStateM.Result Stop (Store W) β} (h : C.Ends w Q (.error e σ) r) :
    ∃ τ w', r = .error e τ ∧ C.During w w' ∧ C.Stores w' σ τ := by
  cases r with
  | ok b τ => exact h.elim
  | error f τ =>
    obtain ⟨rfl, w', hw, hs⟩ := h
    exact ⟨τ, w', rfl, hw, hs⟩

/-- In corresponding stores, whatever the left computation comes to, the right one comes to a
corresponding end. -/
def Runs (w : C.World) (Q : C.World → α → β → Prop) (x : Eval W α) (y : Eval W β) : Prop :=
  ∀ w' σ τ r, C.Le w w' → C.Stores w' σ τ → x.Comes σ r → ∃ r', y.Comes τ r' ∧ C.Ends w' Q r r'

/-- Functions that treat corresponding values alike. -/
def Functions (w : C.World) (Q : C.World → α → β → Prop) (f : Value → Eval W α)
    (g : Value → Eval W β) : Prop :=
  ∀ w' v u, C.Le w w' → C.Values w' v u → C.Runs w' Q (f v) (g u)

/-! ## Parsers and what they leave to do -/

/-- A parser for the grammar that a function of the caller gives. -/
def built (a : Action W (Grammar W)) : Eval W ParserId := do
  let g ← a.run
  Eval.ofBuild g.build

/-- The run functions do corresponding things. -/
inductive Codes (w : C.World) : Code W → Code W → Prop where
  | some {p q : ParserId} {f g : Value → Action W Bool} :
      C.Parsers w p q →
      (∀ w' v u, C.Le w w' → C.Tokens w' v u → C.Runs w' (fun _ a b => a = b) (f v).run (g u).run) →
      Codes w (.body (.some p f)) (.body (.some q g))
  | pure {v u : Value} : C.Values w v u → Codes w (.body (.pure v)) (.body (.pure u))
  | fail (message : String) : Codes w (.body (.fail message)) (.body (.fail message))
  | finished {p q : ParserId} :
      C.Parsers w p q → Codes w (.body (.finished p)) (.body (.finished q))
  | undeclared : Codes w (.body .undeclared) (.body .undeclared)
  | seq {p q p' q' : ParserId} (c : Combine) : C.Parsers w p p' → C.Parsers w q q' →
      Codes w (.body (.seq p q c)) (.body (.seq p' q' c))
  | alt {p q p' q' : ParserId} : C.Parsers w p p' → C.Parsers w q q' →
      Codes w (.body (.alt p q)) (.body (.alt p' q'))
  | map {p q : ParserId} {f g : Value → Action W Value} : C.Parsers w p q →
      C.Functions w C.Values (fun v => (f v).run) (fun v => (g v).run) →
      Codes w (.body (.map p f)) (.body (.map q g))
  | bind {p q : ParserId} {f g : Value → Action W (Grammar W)} : C.Parsers w p q →
      C.Binders w f g → Codes w (.body (.bind p f)) (.body (.bind q g))
  | ignore {c d : Code W} : Codes w c d → Codes w (.body (.ignore c)) (.body (.ignore d))
  | attempt {p q : ParserId} : C.Parsers w p q →
      Codes w (.body (.attempt p)) (.body (.attempt q))
  | many {self p self' p' : ParserId} : C.Parsers w self self' → C.Parsers w p p' →
      Codes w (.body (.many self p)) (.body (.many self' p'))
  | method {p q : ParserId} : C.Parsers w p q → Codes w (.method p) (.method q)

/-- The errors have the same reason at corresponding states, where corresponding parsers were
expected. -/
structure Errors (w : C.World) (e f : ParseError Value) : Prop where
  /-- What went wrong. -/
  reason : e.reason = f.reason
  /-- Where it went wrong. -/
  state : C.States w e.state f.state
  /-- What could have stood there. -/
  expected : List.Forall₂ (C.Parsers w) e.expected f.expected
  /-- Whether it comes from a choice. -/
  merged : e.merged = f.merged

/-- The replies have the same outcome, and corresponding contents. -/
inductive Replies (w : C.World) : Reply Value → Reply Value → Prop where
  | ok {v u : Value} {s t : State Value} (d : Bool) :
      C.Values w v u → C.States w s t → Replies w (.ok d v s) (.ok d u t)
  | err {e f : ParseError Value} {s t : State Value} (d : Bool) :
      C.Errors w e f → C.States w s t → Replies w (.err d e s) (.err d f t)

/-- The frames do corresponding things with corresponding replies. -/
inductive Frames (w : C.World) : Frame W → Frame W → Prop where
  | seqFirst {p q : ParserId} (c : Combine) :
      C.Parsers w p q → Frames w (.seqFirst p c) (.seqFirst q c)
  | seqSecond {v u : Value} (d : Bool) (c : Combine) :
      C.Values w v u → Frames w (.seqSecond d v c) (.seqSecond d u c)
  | altFirst {p q : ParserId} {s t : State Value} :
      C.Parsers w p q → C.States w s t → Frames w (.altFirst p s) (.altFirst q t)
  | altSecond {e f : ParseError Value} :
      C.Errors w e f → Frames w (.altSecond e) (.altSecond f)
  | map {f g : Value → Action W Value} :
      C.Functions w C.Values (fun v => (f v).run) (fun v => (g v).run) →
      Frames w (.map f) (.map g)
  | bind {f g : Value → Action W (Grammar W)} : C.Binders w f g → Frames w (.bind f) (.bind g)
  | consume : Frames w .consume .consume
  | ignore : Frames w .ignore .ignore
  | attempt {s t : State Value} : C.States w s t → Frames w (.attempt s) (.attempt t)
  | manyItem {self p self' p' : ParserId} {s t : State Value} :
      C.Parsers w self self' → C.States w s t →
      Frames w (.manyItem self p s) (.manyItem self' p' t)
  | manyRest {v u : Value} : C.Values w v u → Frames w (.manyRest v) (.manyRest u)

/-- The tasks do corresponding things. Only the parser of a token waits for the state behind it. -/
inductive Tasks (w : C.World) : Task W → Task W → Prop where
  | run {p q : ParserId} {s t : State Value} {k l : Continuation W} :
      C.Parsers w p q → C.States w s t → List.Forall₂ (C.Frames w) k l →
      Tasks w (.run p s k) (.run q t l)
  | code {c d : Code W} {s t : State Value} {k l : Continuation W} :
      C.Codes w c d → C.States w s t → List.Forall₂ (C.Frames w) k l →
      Tasks w (.code c s k) (.code d t l)
  | deliver {r r' : Reply Value} {k l : Continuation W} :
      C.Replies w r r' → List.Forall₂ (C.Frames w) k l → Tasks w (.deliver r k) (.deliver r' l)
  | arrive {s t : State Value} {v u : Value} {k l : Continuation W} :
      C.States w s t → C.Values w v u → List.Forall₂ (C.Frames w) k l →
      Tasks w (.arrive s (.matched v :: k)) (.arrive t (.matched u :: l))
  | moving {m m' : Continuation W → Task W} {v u : Value} {k l : Continuation W} :
      C.Moving w m m' → C.Values w v u → List.Forall₂ (C.Frames w) k l →
      Tasks w (m (.matched v :: k)) (m' (.matched u :: l))

/-- Past their tokens both runs are in corresponding states, or the right one waits for a chunk. -/
def Arrives (w : C.World) (k l : Continuation W) (x y : Step (Task W) (Finish W)) : Prop :=
  (∃ s t, C.States w s t ∧ x = .tail (.arrive s k) ∧ y = .tail (.arrive t l)) ∨
  ∃ pause n s, C.Pausing w pause n s ∧ x = pause k ∧ y = .value (.request ⟨n, s, l⟩)

/-- The steps have left something that corresponds. -/
inductive Steps (w : C.World) :
    Step (Task W) (Finish W) → Step (Task W) (Finish W) → Prop where
  | tail {t t' : Task W} : C.Tasks w t t' → Steps w (.tail t) (.tail t')
  | reply {r r' : Reply Value} :
      C.Replies w r r' → Steps w (.value (.reply r)) (.value (.reply r'))
  | pause {x : Continuation W → Step (Task W) (Finish W)} {n : Int} {s : State Value}
      {v u : Value} {k l : Continuation W} :
      C.Pausing w x n s → C.Values w v u → List.Forall₂ (C.Frames w) k l →
      Steps w (x (.matched v :: k)) (.value (.request ⟨n, s, .matched u :: l⟩))

end Correspondence

end ResumableParsing
