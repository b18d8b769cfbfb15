import ResumableParsing.Proofs.Sessions.Book

/-!
# Computations that keep the book

Whether it succeeds or breaks off, a computation of the library leaves a store that is true to the
book. The same rules tell which computations stay aside from results and sessions: their outcome is
the same however those are computed.

* `forceAside`, `Means.aside`: results and sessions are computed in some other way
* `Book.Since`: how far the book and the store have come
* `Keeps`: computations that keep the book
* `Quiet.keeps`, `keeps_action`: quiet computations and functions of the caller do
-/

namespace ResumableParsing

variable {W α β : Type}

/-- Computes the parts of streams as `forceWithin` does, and leaves results and sessions to
`other`. -/
def forceAside (other : (d : Deferred) → Change W d.Content) :
    (depth : Nat) → (d : Deferred) → Change W d.Content
  | 0, .tail _ => throw .exhausted
  | 0, .cell _ => throw .exhausted
  | n + 1, .tail i => Shelf.tails.get i.index fun t => t.compute ⟨n, forceAside other n⟩
  | n + 1, .cell i => Shelf.cells.get i.index fun it => it.pull ⟨n, forceAside other n⟩
  | _, .result i => other (.result i)
  | _, .session i => other (.session i)

/-- The bounds of `Means.within`, where results and sessions are left to `other`. -/
def Means.aside (other : (d : Deferred) → Change W d.Content) (bound : Nat) : Means W :=
  ⟨bound, forceAside other bound⟩

/-- How far the book and the store have come: there may be more parsers and places, the store is
true to the book, and what was known is known. -/
structure Book.Since (R : Reach → Prop) (B : Nat → Prop) (b : Book) (σ : Store W) (b' : Book)
    (τ : Store W) : Prop where
  /-- There may be more parsers and places. -/
  le : b.Le b'
  /-- The store is true to the book. -/
  holds : b'.Holds R B τ
  /-- What was known is known. -/
  grows : σ.Grows τ

/-- Started in a store that is true to the book, the computation leaves one, and its result has the
property `Q`. If `S` holds, it stays aside from results and sessions. -/
structure Keeps (R : Reach → Prop) (S : Prop) (B : Nat → Prop) (n : Nat) (b : Book) (σ : Store W)
    (x : Eval W α) (Q : α → Book → Store W → Prop) : Prop where
  /-- What is left is true to the book. -/
  since : ∃ b', b.Since R B σ b' (left (x (.within n) σ)) ∧
    ∀ a τ, x (.within n) σ = .ok a τ → Q a b' τ
  /-- It does not matter how results and sessions are computed. -/
  aside : S → ∀ other, x (.aside other n) σ = x (.within n) σ

section

variable {R : Reach → Prop} {S : Prop} {B : Nat → Prop} {n : Nat} {b b' b'' : Book}
  {σ τ υ : Store W} {x y : Eval W α} {f : α → Eval W β} {Q Q₁ : α → Book → Store W → Prop}
  {Q' : β → Book → Store W → Prop}

theorem Book.Since.refl (h : b.Holds R B σ) : b.Since R B σ b σ := ⟨.refl b, h, .refl σ⟩

theorem Book.Since.trans (h : b.Since R B σ b' τ) (h' : b'.Since R B τ b'' υ) :
    b.Since R B σ b'' υ :=
  ⟨h.le.trans h'.le, h'.holds, h.grows.trans h'.grows⟩

/-! ## Rules -/

namespace Keeps

theorem of_eq (h : ∀ m, x m σ = y m σ) (hy : Keeps R S B n b σ y Q) : Keeps R S B n b σ x Q where
  since := by
    rw [h]
    exact hy.since
  aside s other := by
    rw [h, h]
    exact hy.aside s other

/-- A change that succeeds. -/
theorem change {a : α} (h : ∀ m, x m σ = .ok a τ) (s : b.Since R B σ b' τ) (q : Q a b' τ) :
    Keeps R S B n b σ x Q where
  since := by
    rw [h]
    refine ⟨b', s, fun c υ e => ?_⟩
    cases e
    exact q
  aside _ other := by rw [h, h]

theorem pure {a : α} (h : b.Holds R B σ) (q : Q a b σ) : Keeps R S B n b σ (pure a) Q :=
  change (fun _ => rfl) (.refl h) q

theorem throw {e : Stop} (h : b.Holds R B σ) : Keeps R S B n b σ (throw e : Eval W α) Q where
  since := ⟨b, .refl h, fun a τ e => by cases e⟩
  aside _ _ := rfl

/-- The bound does not suffice. -/
theorem exhausted (hx : x (.within n) σ = .error .exhausted σ)
    (ha : S → ∀ other, x (.aside other n) σ = .error .exhausted σ) (h : b.Holds R B σ) :
    Keeps R S B n b σ x Q where
  since := by
    rw [hx]
    exact ⟨b, .refl h, fun a τ e => by cases e⟩
  aside s other := by rw [hx, ha s]

theorem fault {e : Fault} (h : b.Holds R B σ) : Keeps R S B n b σ (Eval.fault e : Eval W α) Q :=
  throw h

theorem bind (hx : Keeps R S B n b σ x Q)
    (hf : ∀ a b' τ, b.Since R B σ b' τ → Q a b' τ → x (.within n) σ = .ok a τ →
      Keeps R S B n b' τ (f a) Q') : Keeps R S B n b σ (x >>= f) Q' := by
  obtain ⟨⟨b', hs, hq⟩, ha⟩ := hx
  cases e : x (.within n) σ with
  | error e' τ =>
    have run : (x >>= f) (.within n) σ = .error e' τ := by rw [Eval.run_bind, e]
    rw [e] at hs
    refine ⟨⟨b', run ▸ hs, fun c υ h => ?_⟩, fun s other => ?_⟩
    · rw [run] at h
      cases h
    · rw [run, Eval.run_bind, ha s other, e]
  | ok a τ =>
    rw [e] at hs
    obtain ⟨⟨b'', hs', hq'⟩, ha'⟩ := hf a b' τ hs (hq a τ e) e
    have run : (x >>= f) (.within n) σ = f a (.within n) τ := by rw [Eval.run_bind, e]
    refine ⟨⟨b'', run ▸ hs.trans hs', fun c υ h => hq' c υ (run ▸ h)⟩, fun s other => ?_⟩
    rw [run, Eval.run_bind, ha s other, e]
    exact ha' s other

theorem imp (hx : Keeps R S B n b σ x Q)
    (h : ∀ a b' τ, b.Since R B σ b' τ → Q a b' τ → Q₁ a b' τ) : Keeps R S B n b σ x Q₁ where
  since := by
    obtain ⟨b', hs, hq⟩ := hx.since
    refine ⟨b', hs, fun a τ e => ?_⟩
    rw [e] at hs
    exact h a b' τ hs (hq a τ e)
  aside := hx.aside

theorem map (hx : Keeps R S B n b σ x Q) (g : α → β)
    (h : ∀ a b' τ, b.Since R B σ b' τ → Q a b' τ → Q' (g a) b' τ) :
    Keeps R S B n b σ (g <$> x) Q' := by
  rw [map_eq_pure_bind]
  exact hx.bind fun a b' τ s q _ => pure s.holds (h a b' τ s q)

/-- The store is looked at. -/
theorem get {k : Store W → Eval W α} (h : Keeps R S B n b σ (k σ) Q) :
    Keeps R S B n b σ (MonadState.get >>= k) Q := of_eq (y := k σ) (fun _ => rfl) h

/-- A reference is followed. -/
theorem deref {a : Option α} {g : α → Eval W β} (h : b.Holds R B σ)
    (hg : ∀ v, a = some v → Keeps R S B n b σ (g v) Q') :
    Keeps R S B n b σ (Eval.deref a >>= g) Q' := by
  cases a with
  | none => exact throw h
  | some v => exact hg v rfl

/-- As many rounds as the bound allows. -/
theorem steps {g : Nat → Eval W α} (h : Keeps R S B n b σ (g n) Q) :
    Keeps R S B n b σ (do g (← read).steps) Q := ⟨h.since, h.aside⟩

theorem catching (hx : Keeps R S B n b σ x Q) :
    Keeps R S B n b σ (Eval.catching x) fun _ _ _ => True where
  since := by
    obtain ⟨b', hs, -⟩ := hx.since
    refine ⟨b', ?_, fun _ _ _ => trivial⟩
    simp only [Eval.catching]
    cases e : x (.within n) σ with
    | ok a τ =>
      rw [e] at hs
      exact hs
    | error e' τ =>
      rw [e] at hs
      cases e' <;> exact hs
  aside s other := by simp only [Eval.catching, hx.aside s other]

end Keeps

/-! ## Quiet computations -/

/-- Deferred parts are computed so that the book is kept. Results and sessions may be asked for
only by computations that need not stay aside from them. -/
structure Steady (W : Type) (R : Reach → Prop) (S : Prop) (n : Nat) : Prop where
  /-- Staying aside excludes what reaches results and sessions. -/
  aloof : S → ¬R .results ∧ ¬R .sessions
  /-- Tails. -/
  tail : ∀ (i : TailId) (B : Nat → Prop) (b : Book) (σ : Store W), b.Holds R B σ →
    Keeps R S B n b σ (Eval.force (.tail i)) fun _ _ _ => True
  /-- Cells. -/
  cell : ∀ (i : CellId) (B : Nat → Prop) (b : Book) (σ : Store W), b.Holds R B σ →
    Keeps R S B n b σ (Eval.force (.cell i)) fun _ _ _ => True
  /-- Results. -/
  result : ¬S → ∀ (i : ResultId) (B : Nat → Prop) (b : Book) (σ : Store W), b.Holds R B σ →
    Keeps R S B n b σ (Eval.force (.result i)) fun _ _ _ => True
  /-- Sessions. -/
  session : ¬S → ∀ (i : SessionId) (B : Nat → Prop) (b : Book) (σ : Store W), b.Holds R B σ →
    Keeps R S B n b σ (Eval.force (.session i)) fun _ _ _ => True

theorem Quiet.keeps (hF : Steady W R S n) (hx : Quiet x) (h : b.Holds R B σ) :
    Keeps R S B n b σ x fun _ _ _ => True := by
  induction hx generalizing b σ with
  | change f hf hq =>
    exact .change (fun m => hf m σ) ⟨.refl b, h.change hq, hq.grows σ⟩ trivial
  | stop e => exact .throw h
  | bind _ _ ihx ihf => exact (ihx h).bind fun a b' τ s _ _ => ihf a s.holds
  | tail i => exact hF.tail i B b σ h
  | cell i => exact hF.cell i B b σ h
  | loop _ _ ih => exact .steps (ih n h)

/-! ## Functions of the caller -/

theorem keeps_alterState (f : Bool → Stream Value → Int → Value → State Value) (s : State Value)
    (h : b.Holds R B σ) : Keeps R S B n b σ (s.alter f) fun _ _ _ => True := by
  induction s generalizing b σ with
  | plain w i p u => exact .pure h trivial
  | chunked a c s ih =>
    refine (ih h).bind fun t b' τ s _ _ => ?_
    -- The caller's state gets a memory that belongs to no place.
    exact .change (fun _ => rfl) ⟨.refl b', s.holds.pushAdvance, Book.Holds.grows_pushAdvance τ⟩
      trivial

/-- Functions of the caller may do what they want, as long as they stay aside from results and
sessions where that is asked for. -/
theorem keeps_action (hF : Steady W R S n) {a : Action W α} (ha : S → a.Reaches R)
    (h : b.Holds R B σ) : Keeps R S B n b σ a.run fun _ _ _ => True := by
  induction a generalizing b σ with
  | done a => exact .pure h trivial
  | raise f => exact .fault h
  | inspect k ih => exact .get (ih σ.world (fun s => ha s σ.world) h)
  | update f next ih =>
    exact ((Quiet.world fun w => ((), f w)).keeps hF h).bind fun _ _ _ s _ _ => ih ha s.holds
  | serial k ih =>
    exact (Quiet.serial.keeps hF h).bind fun i _ _ s _ _ => ih i (fun s => ha s i) s.holds
  | iterator answer k ih =>
    exact ((Quiet.make _).keeps hF h).bind fun it _ _ s _ _ => ih it (fun s => ha s it) s.holds
  | asStream s k ih =>
    exact ((quiet_asStream s).keeps hF h).bind fun t _ _ s _ _ => ih t (fun s => ha s t) s.holds
  | isEmpty s k ih =>
    exact ((quiet_isEmpty s).keeps hF h).bind fun v _ _ s _ _ => ih v (fun s => ha s v) s.holds
  | first s k ih =>
    exact ((quiet_first s).keeps hF h).bind fun v _ _ s _ _ => ih v (fun s => ha s v) s.holds
  | rest s k ih =>
    exact ((quiet_rest s).keeps hF h).bind fun t _ _ s _ _ => ih t (fun s => ha s t) s.holds
  | append s t k ih =>
    exact ((quiet_append s t).keeps hF h).bind fun u _ _ s _ _ => ih u (fun s => ha s u) s.holds
  | toList s k ih =>
    exact ((quiet_toList s).keeps hF h).bind fun vs _ _ s _ _ => ih vs (fun s => ha s vs) s.holds
  | render v k ih => exact .get (ih (σ.render v) (fun s => ha s _) h)
  | setInput s i k ih =>
    exact (keeps_alterState _ s h).bind fun t _ _ s _ _ => ih t (fun s => (ha s).2 t) s.holds
  | setPosition s p k ih =>
    exact (keeps_alterState _ s h).bind fun t _ _ s _ _ => ih t (fun s => (ha s).2 t) s.holds
  | setUser s u k ih =>
    exact (keeps_alterState _ s h).bind fun t _ _ s _ _ => ih t (fun s => (ha s).2 t) s.holds
  | peek r k ih => exact .get (ih _ _ (fun s => (ha s).2 _ _) h)
  | result r k ih =>
    have reached : ¬S := fun s => (hF.aloof s).1 (ha s).1
    exact (hF.result reached r B b σ h).catching.bind fun v _ _ s _ _ =>
      ih v (fun s => (ha s).2 v) s.holds
  | finish i k ih =>
    have reached : ¬S := fun s => (hF.aloof s).2 (ha s).1
    exact (hF.session reached i B b σ h).bind fun v _ _ s _ _ =>
      ih v (fun s => (ha s).2 v) s.holds

end

end ResumableParsing
