import ResumableParsing.Proofs.Deferred.Traces
import ResumableParsing.Proofs.Logging.Building

/-!
# Computations in stores that differ in logging

Once all parsers are defined, a computation has the same outcome in stores that differ in logging,
and leaves stores that differ in logging. This is shown for each operation of the library, given
that it holds of deferred parts.

* `Logging.Indifferent`: computations that take no notice of logging
* `Logging.indifferent_bind`, `Logging.indifferent_loop`, `Logging.indifferent_change`: how they are
  put together
* `Logging.indifferent_toList`, `Logging.indifferent_pull`: streams and iterators
* `Logging.indifferent_action`: programs of the caller
-/

namespace ResumableParsing.Logging

variable {W α β : Type} {M : Prop} {K : ParserId → Prop} {n : Nat}

/-! ## Outcomes -/

/-- All parsers are defined, and the stores differ in logging. -/
abbrev Abreast (M : Prop) (K : ParserId → Prop) (σ τ : Store W) : Prop :=
  Stores M K (fun _ => False) σ τ

/-- The outcomes are the same, and the stores differ in logging. No definition is found missing,
unless definitions may be missing. -/
inductive Ends (M : Prop) (K : ParserId → Prop) (R : α → Prop) :
    EStateM.Result Stop (Store W) α → EStateM.Result Stop (Store W) α → Prop where
  | ok {a : α} {σ τ : Store W} : R a → Abreast M K σ τ → Ends M K R (.ok a σ) (.ok a τ)
  | raised {f : Fault} {σ τ : Store W} : (f.Missing → M) → Abreast M K σ τ →
      Ends M K R (.error (.raised f) σ) (.error (.raised f) τ)
  | dangling {σ τ : Store W} : Abreast M K σ τ →
      Ends M K R (.error .dangling σ) (.error .dangling τ)

/-- Within the bound `n` the computation has an outcome on the left that it comes to on the right as
well, and `R` holds of its result. -/
def Indifferent (M : Prop) (K : ParserId → Prop) (n : Nat) (x : Eval W α) (R : α → Prop) : Prop :=
  ∀ σ τ : Store W, Abreast M K σ τ → ¬Exhausted (x.exec n σ) →
    ∃ r, x.Comes τ r ∧ Ends M K R (x.exec n σ) r

/-- Deferred parts take no notice of logging. -/
def Forces (W : Type) (M : Prop) (K : ParserId → Prop) (n : Nat) : Prop :=
  ∀ d, Indifferent (W := W) M K n (Eval.force d) fun _ => True

section

variable {x : Eval W α} {R R' : α → Prop}

/-! ## Putting computations together -/

theorem Ends.imp {y z : EStateM.Result Stop (Store W) α} (h : Ends M K R y z)
    (hR : ∀ a σ, y = .ok a σ → R a → R' a) : Ends M K R' y z := by
  cases h with
  | ok ha hs => exact .ok (hR _ _ rfl ha) hs
  | raised hf hs => exact .raised hf hs
  | dangling hs => exact .dangling hs

/-- What holds of every result is told of it. -/
theorem Indifferent.yields (h : Indifferent M K n x R)
    (hR : ∀ m σ a σ', x m σ = .ok a σ' → R' a) : Indifferent M K n x R' := by
  intro σ τ hs he
  obtain ⟨r, hr, ends⟩ := h σ τ hs he
  exact ⟨r, hr, ends.imp fun a σ' run _ => hR _ σ a σ' run⟩

theorem indifferent_pure {a : α} (h : R a) : Indifferent M K n (pure a : Eval W α) R :=
  fun _ τ hs _ => ⟨_, comes_pure a τ, .ok h hs⟩

theorem indifferent_fault {f : Fault} (h : f.Missing → M) :
    Indifferent M K n (Eval.fault f : Eval W α) R :=
  fun _ τ hs _ => ⟨_, comes_fault f τ, .raised h hs⟩

/-- What gives a result on the left gives the same on the right. -/
theorem Indifferent.of_ok {a : α} {σ σ₁ τ : Store W} (hx : Indifferent M K n x R)
    (hs : Abreast M K σ τ) (run : x (.within n) σ = .ok a σ₁) :
    ∃ τ₁, x.Comes τ (.ok a τ₁) ∧ R a ∧ Abreast M K σ₁ τ₁ := by
  obtain ⟨r, hr, ends⟩ := hx σ τ hs (by rw [Eval.exec, run]; exact not_exhausted_ok)
  rw [Eval.exec, run] at ends
  cases ends with
  | ok ha hs' => exact ⟨_, hr, ha, hs'⟩

/-- What breaks off on the left breaks off on the right, and so does what is put together from
it. -/
theorem Indifferent.of_error {e : Stop} {σ σ₁ τ : Store W} (hx : Indifferent M K n x R)
    (hs : Abreast M K σ τ) (run : x (.within n) σ = .error e σ₁) (he : e ≠ .exhausted) :
    ∃ τ₁, x.Comes τ (.error e τ₁) ∧
      ∀ (β : Type) (Q : β → Prop), Ends M K Q (.error e σ₁) (.error e τ₁) := by
  obtain ⟨r, hr, ends⟩ := hx σ τ hs (by rw [Eval.exec, run]; exact not_exhausted_error he)
  rw [Eval.exec, run] at ends
  cases ends with
  | raised hf hs' => exact ⟨_, hr, fun _ _ => .raised hf hs'⟩
  | dangling hs' => exact ⟨_, hr, fun _ _ => .dangling hs'⟩

theorem indifferent_bind {f : α → Eval W β} {Q : β → Prop} (hx : Indifferent M K n x R)
    (hf : ∀ a, R a → Indifferent M K n (f a) Q) : Indifferent M K n (x >>= f) Q := by
  intro σ τ hs he
  unfold Eval.exec at he ⊢
  rw [Eval.run_bind] at he ⊢
  cases run : x (.within n) σ with
  | ok a σ₁ =>
    rw [run] at he
    obtain ⟨τ₁, hr, ha, hs'⟩ := hx.of_ok hs run
    obtain ⟨r', hr', ends⟩ := hf a ha _ _ hs' he
    exact ⟨r', comes_bind_ok hr hr', ends⟩
  | error e σ₁ =>
    rw [run] at he
    obtain ⟨τ₁, hr, ends⟩ := hx.of_error hs run (mt exhausted_error.mpr he)
    exact ⟨_, comes_bind_error hr, ends _ _⟩

theorem indifferent_map {f : α → β} {Q : β → Prop} (hx : Indifferent M K n x R)
    (hf : ∀ a, R a → Q (f a)) : Indifferent M K n (f <$> x) Q := by
  rw [map_eq_pure_bind]
  exact indifferent_bind hx fun a ha => indifferent_pure (hf a ha)

theorem indifferent_ite {c : Prop} [Decidable c] {y : Eval W α}
    (hx : c → Indifferent M K n x R) (hy : ¬c → Indifferent M K n y R) :
    Indifferent M K n (if c then x else y) R := by
  split
  · next h => exact hx h
  · next h => exact hy h

/-- A reference leads to something on both sides, or on neither. -/
theorem indifferent_deref {o : Option α} (h : ∀ a, o = some a → R a) :
    Indifferent M K n (Eval.deref o : Eval W α) R := by
  cases o with
  | some a => exact indifferent_pure (h a rfl)
  | none =>
    exact fun _ τ hs _ => ⟨_, comes_of_forall (fun _ => rfl) (not_exhausted_error (by simp)),
      .dangling hs⟩

theorem indifferent_catching (hx : Indifferent M K n x R) :
    Indifferent M K n (Eval.catching x) fun _ => True := by
  intro σ τ hs he
  unfold Eval.exec Eval.catching at he ⊢
  cases run : x (.within n) σ with
  | ok a σ₁ =>
    obtain ⟨τ₁, hr, -, hs'⟩ := hx.of_ok hs run
    refine ⟨_, comes_catching hr not_exhausted_ok fun m run => ?_, .ok trivial hs'⟩
    simp [Eval.catching, run]
  | error e σ₁ =>
    rw [run] at he
    obtain ⟨τ₁, hr, ends⟩ := hx.of_error hs run (by
      rintro rfl
      exact he ⟨_, rfl⟩)
    -- A fault is caught on both sides, a dangling reference on neither.
    cases ends α R with
    | raised _ hs' =>
      refine ⟨_, comes_catching hr not_exhausted_ok fun m run => ?_, .ok trivial hs'⟩
      simp [Eval.catching, run]
    | dangling hs' =>
      refine ⟨_, comes_catching hr (not_exhausted_error (by simp)) fun m run => ?_, .dangling hs'⟩
      simp [Eval.catching, run]

/-- A loop takes no notice of logging if its rounds do not. -/
theorem indifferent_loop {f : Nat → Eval W α} (composed : ∀ k, Composed (f k))
    (more : ∀ k m σ, Exhausted (f k m σ) ∨ f (k + 1) m σ = f k m σ)
    (h : ∀ k, Indifferent M K n (f k) R) : Indifferent M K n (do f (← read).steps) R := by
  intro σ τ hs he
  obtain ⟨r, hr, ends⟩ := h n σ τ hs he
  exact ⟨r, comes_loop composed more hr, ends⟩

/-- A loop of which no round is left has no outcome. -/
theorem indifferent_exhausted : Indifferent M K n (throw .exhausted : Eval W α) R :=
  fun σ _ _ he => absurd ⟨σ, rfl⟩ he

/-! ### Looking at the store and changing it -/

/-- Changes that take no notice of parsers and of logging. -/
theorem indifferent_change (f : Store W → α × Store W)
    (hx : ∀ m σ, x m σ = .ok (f σ).1 (f σ).2) (hf : Impartial f)
    (h : ∀ σ, σ.Truthful M K → (f σ).2.Truthful M K ∧ R (f σ).1) : Indifferent M K n x R := by
  intro σ τ hs _
  have comes := comes_change hx τ
  obtain ⟨same, hs'⟩ := hs.change hf (h σ hs.truthful).1
  rw [same] at comes
  rw [Eval.exec, hx]
  exact ⟨_, comes, .ok (h σ hs.truthful).2 hs'⟩

theorem indifferent_modifyGet {f : Store W → α × Store W} (hf : Impartial f)
    (h : ∀ σ, σ.Truthful M K → (f σ).2.Truthful M K ∧ R (f σ).1) :
    Indifferent M K n (modifyGet f : Eval W α) R :=
  indifferent_change f (fun _ _ => rfl) hf h

theorem indifferent_modify {f : Store W → Store W} (hf : Impartial fun σ => ((), f σ))
    (h : ∀ σ, σ.Truthful M K → (f σ).Truthful M K) :
    Indifferent M K n (modify f : Eval W Unit) fun _ => True :=
  indifferent_change (fun σ => ((), f σ)) (fun _ _ => rfl) hf fun σ hσ => ⟨h σ hσ, trivial⟩

/-- Looking at what is the same in both stores, and going on with what is seen. -/
theorem indifferent_look {g : Store W → β} {f : β → Eval W α} {Q : β → Prop}
    (h : ∀ σ τ, Abreast M K σ τ → g τ = g σ ∧ Q (g σ))
    (hf : ∀ b, Q b → Indifferent M K n (f b) R) : Indifferent M K n (do f (g (← get))) R := by
  intro σ τ hs he
  obtain ⟨same, hQ⟩ := h σ τ hs
  obtain ⟨r, hr, ends⟩ := hf (g σ) hQ σ τ hs he
  refine ⟨r, ?_, ends⟩
  rw [← same] at hr
  exact hr

/-- Going on with something that is found in both stores. -/
theorem indifferent_find {g : Store W → Option β} {f : β → Eval W α} {Q : β → Prop}
    (h : ∀ σ τ, Abreast M K σ τ → g τ = g σ ∧ ∀ b, g σ = some b → Q b)
    (hf : ∀ b, Q b → Indifferent M K n (f b) R) :
    Indifferent M K n (do f (← Eval.deref (g (← get)))) R :=
  indifferent_look (f := fun o => Eval.deref o >>= f) h fun _ ho =>
    indifferent_bind (indifferent_deref ho) hf

/-- What is built the same is built at run time. -/
theorem indifferent_ofBuild {b : Build W α} {R : α → Prop} (h : ∀ σ τ, Abreast M K σ τ →
    Both b σ τ fun a σ' τ' => Abreast M K σ' τ' ∧ R a) : Indifferent M K n (Eval.ofBuild b) R := by
  intro σ τ hs _
  obtain ⟨same, hs', ha⟩ := h σ τ hs
  have comes := comes_change (fun m σ => Eval.run_ofBuild b m σ) τ
  rw [same] at comes
  exact ⟨_, comes, .ok ha hs'⟩

theorem indifferent_debug (message : Store W → String) :
    Indifferent M K n (Eval.debug message) fun _ => True := by
  intro σ τ hs _
  have noted (σ : Store W) :
      σ.Noted (if σ.logging then { σ with log := message σ :: σ.log } else σ) := by
    split
    · exact ⟨_, rfl⟩
    · exact .refl σ
  refine ⟨_, comes_change (g := fun σ => ((), _)) (fun _ _ => Eval.run_debug ..) τ, ?_⟩
  rw [Eval.exec, Eval.run_debug]
  exact .ok trivial ((hs.notedLeft (noted σ)).notedRight (noted τ))

theorem indifferent_serial : Indifferent M K n (Eval.serial : Eval W Nat) fun _ => True :=
  indifferent_modifyGet (fun _ _ _ _ => rfl) fun _ h => ⟨{ h with }, trivial⟩

/-- The text of a value is the same. -/
theorem indifferent_render {f : String → Eval W α} (v : Value)
    (hf : ∀ t, Indifferent M K n (f t) R) : Indifferent M K n (do f ((← get).render v)) R :=
  indifferent_look (g := fun σ => σ.render v) (Q := fun _ => True)
    (fun _ _ hs => ⟨hs.render v, trivial⟩) fun t _ => hf t

end

/-! ## Making streams, iterators and states -/

theorem indifferent_consCell (v : Value) (t : Stream Value) :
    Indifferent M K n (Stream.consCell v t : Eval W (Stream Value)) fun _ => True :=
  indifferent_bind indifferent_serial fun _ _ => indifferent_pure trivial

theorem indifferent_lazyCell (v : Value) {t : Tail W} (ht : t.Truthful M) :
    Indifferent M K n (Stream.lazyCell v t) fun _ => True := by
  refine indifferent_bind indifferent_serial fun _ _ =>
    indifferent_bind (R := fun _ => True) (indifferent_modifyGet (fun _ _ _ _ => rfl) ?_)
      fun _ _ => indifferent_pure trivial
  exact fun σ h => ⟨{ h with tails := each_push h.tails ht }, trivial⟩

theorem indifferent_ofSequence (q : Sequence Value) (i : Int) :
    Indifferent M K n (Stream.ofSequence q i : Eval W (Stream Value)) fun _ => True :=
  indifferent_bind indifferent_serial fun _ _ => indifferent_pure trivial

theorem indifferent_ofIterator (it : IteratorId) :
    Indifferent M K n (Stream.ofIterator it : Eval W (Stream Value)) fun _ => True :=
  indifferent_modifyGet (fun _ _ _ _ => rfl) fun _ h => ⟨{ h with }, trivial⟩

theorem indifferent_ofValue (v : Value) :
    Indifferent M K n (Stream.ofValue v : Eval W (Stream Value)) fun _ => True := by
  cases v with
  | stream s => exact indifferent_pure trivial
  | _ => exact indifferent_fault False.elim

theorem indifferent_asStream (s : Source) :
    Indifferent M K n (s.asStream : Eval W (Stream Value)) fun _ => True := by
  cases s with
  | none => exact indifferent_pure trivial
  | stream s => exact indifferent_pure trivial
  | sequence q => exact indifferent_ofSequence q 0
  | iterator it => exact indifferent_ofIterator it

theorem indifferent_makeIterator {it : Iterator W} (h : it.Truthful M) :
    Indifferent M K n (IteratorId.make it) fun _ => True :=
  indifferent_modifyGet (fun _ _ _ _ => rfl) fun _ hσ =>
    ⟨{ hσ with iterators := each_push hσ.iterators h }, trivial⟩

theorem indifferent_alterIterator (it : IteratorId) {f : Iterator W → Iterator W}
    (hf : ∀ x : Iterator W, x.Truthful M → (f x).Truthful M) :
    Indifferent M K n (it.alter f) fun _ => True :=
  indifferent_modify (fun _ _ _ _ => rfl) fun _ h =>
    { h with iterators := each_modify h.iterators hf it.index }

theorem indifferent_inChunk (i : Int) (s : State Value) :
    Indifferent M K n (State.inChunk i s : Eval W (State Value)) fun _ => True :=
  indifferent_modifyGet (fun _ _ _ _ => rfl) fun _ h => ⟨{ h with }, trivial⟩

theorem indifferent_alterState (f : Bool → Stream Value → Int → Value → State Value)
    (s : State Value) : Indifferent M K n (s.alter f : Eval W (State Value)) fun _ => True := by
  induction s with
  | plain w i p u => exact indifferent_pure trivial
  | chunked a c s ih => exact indifferent_bind ih fun s _ => indifferent_inChunk c s

theorem indifferent_memory (a : AdvanceId) {R : α → Prop} {f : Advance → Eval W α}
    (hf : ∀ m, Indifferent M K n (f m) R) : Indifferent M K n (a.memory >>= f) R := by
  unfold AdvanceId.memory
  rw [bind_assoc]
  exact indifferent_find (g := fun σ => σ.advances[a.index]?) (Q := fun _ => True)
    (fun σ τ hs => ⟨by rw [hs.rest], fun _ _ => trivial⟩) fun m _ => hf m

theorem indifferent_alter (a : AdvanceId) (f : Advance → Advance) :
    Indifferent M K n (a.alter f : Eval W Unit) fun _ => True :=
  indifferent_modify (fun _ _ _ _ => rfl) fun _ h => { h with }

/-! ## Streams -/

section

variable (forces : Forces W M K n)

include forces

theorem indifferent_isEmpty (s : Stream Value) :
    Indifferent M K n (s.isEmpty : Eval W Bool) fun _ => True := by
  cases s with
  | pulled c => exact indifferent_bind (forces _) fun found _ => indifferent_pure trivial
  | _ => exact indifferent_pure trivial

theorem indifferent_first (s : Stream Value) :
    Indifferent M K n (s.first : Eval W Value) fun _ => True := by
  cases s with
  | nil => exact indifferent_fault False.elim
  | cons m v t => exact indifferent_pure trivial
  | lazy m v t => exact indifferent_pure trivial
  | view q i h =>
    refine indifferent_ite (fun _ => indifferent_fault False.elim) fun _ => ?_
    cases q.get? i with
    | some v => exact indifferent_pure trivial
    | none => exact indifferent_fault False.elim
  | pulled c =>
    refine indifferent_bind (forces _) fun found _ => ?_
    cases found with
    | some v => exact indifferent_pure trivial
    | none => exact indifferent_fault False.elim

theorem indifferent_rest (s : Stream Value) :
    Indifferent M K n (s.rest : Eval W (Stream Value)) fun _ => True := by
  cases s with
  | lazy m v t =>
    refine indifferent_bind (forces _) fun found _ => ?_
    cases found with
    | some s => exact indifferent_pure trivial
    | none => exact indifferent_fault False.elim
  | pulled c =>
    refine indifferent_bind (forces _) fun found _ => ?_
    cases found with
    | some v => exact indifferent_pure trivial
    | none => exact indifferent_pure trivial
  | _ => exact indifferent_pure trivial

theorem indifferent_append (a b : Stream Value) :
    Indifferent M K n (a.append b : Eval W (Stream Value)) fun _ => True :=
  indifferent_bind (indifferent_isEmpty forces a) fun _ _ =>
    indifferent_ite (fun _ => indifferent_pure trivial) fun _ =>
      indifferent_bind (indifferent_first forces a) fun v _ => indifferent_lazyCell v trivial

theorem indifferent_toListFrom (k : Nat) (done : List Value) (s : Stream Value) :
    Indifferent M K n (Stream.toListFrom k done s : Eval W (List Value)) fun _ => True := by
  induction k generalizing done s with
  | zero => exact indifferent_exhausted
  | succ k ih =>
    exact indifferent_bind (indifferent_isEmpty forces s) fun _ _ =>
      indifferent_ite (fun _ => indifferent_pure trivial) fun _ =>
        indifferent_bind (indifferent_first forces s) fun v _ =>
          indifferent_bind (indifferent_rest forces s) fun t _ => ih (v :: done) t

theorem indifferent_toList (s : Stream Value) :
    Indifferent M K n (s.toList : Eval W (List Value)) fun _ => True :=
  indifferent_loop (fun k => (regular_toListFrom k [] s).composed)
    (fun k m σ => exhausted_or_toListFrom k [] s m σ) fun k => indifferent_toListFrom forces k [] s

/-! ## Iterators -/

theorem indifferent_next (it : IteratorId) :
    Indifferent M K n (it.next : Eval W (Option Value)) fun _ => True := by
  refine indifferent_find (g := fun σ => σ.iterators[it.index]?) (Q := fun now => now.Truthful M)
    (fun σ τ hs => ⟨by rw [hs.rest], fun i hi => hs.truthful.iterators _ i hi⟩) fun now hnow => ?_
  refine indifferent_bind (indifferent_alterIterator it fun _ h => h.moved) fun _ _ => ?_
  cases now with
  | spent => exact indifferent_pure trivial
  | items q i => exact indifferent_pure trivial
  | walk s given =>
    -- Whether the walk begins or goes on, it looks at the cell that it has come to.
    have found (s : Stream Value) : Indifferent M K n (do
        if ← s.isEmpty then return none
        else
          let v ← s.first
          it.alter (Iterator.onward s)
          return some v : Eval W (Option Value)) fun _ => True :=
      indifferent_bind (indifferent_isEmpty forces s) fun _ _ =>
        indifferent_ite (fun _ => indifferent_pure trivial) fun _ =>
          indifferent_bind (indifferent_first forces s) fun v _ =>
            indifferent_bind (indifferent_alterIterator it fun _ h => h.onward s) fun _ _ =>
              indifferent_pure trivial
    exact indifferent_ite (fun _ => indifferent_bind (indifferent_rest forces s) fun s _ => found s)
      fun _ => found s
  | caller answer asked =>
    refine indifferent_bind (R := fun p => p.Truthful M)
      (indifferent_modifyGet (fun _ _ _ _ => rfl) fun σ h => ⟨{ h with }, hnow asked σ.world⟩)
      fun p hp => ?_
    cases p with
    | item v => exact indifferent_pure trivial
    | finished => exact indifferent_pure trivial
    | failed f => exact indifferent_fault hp

theorem indifferent_pull (it : IteratorId) :
    Indifferent M K n (it.pull : Eval W (Option (Value × Stream Value))) fun _ => True := by
  refine indifferent_bind (indifferent_next forces it) fun v _ => ?_
  cases v with
  | none => exact indifferent_pure trivial
  | some v => exact indifferent_bind (indifferent_ofIterator it) fun _ _ => indifferent_pure trivial

/-! ## States -/

theorem indifferent_advance (s : State Value) :
    Indifferent M K n (s.advance : Eval W (State Value)) fun _ => True :=
  indifferent_bind (indifferent_rest forces _) fun _ _ => indifferent_alterState _ s

theorem indifferent_remember (a : AdvanceId) (i : Int) (inner : State Value) :
    Indifferent M K n (a.remember i inner : Eval W Unit) fun _ => True :=
  indifferent_bind (indifferent_isEmpty forces _) fun _ _ =>
    indifferent_ite (fun _ => indifferent_alter a _) fun _ =>
      indifferent_bind (indifferent_inChunk i inner) fun _ _ => indifferent_alter a _

/-! ## Actions of the caller -/

/-- Programs of the caller that claim no definition to be missing. -/
theorem indifferent_action {a : Action W α} (h : a.Truthful M) :
    Indifferent M K n a.run fun _ => True := by
  induction a with
  | done a => exact indifferent_pure trivial
  | raise f => exact indifferent_fault h
  | inspect k ih =>
    exact indifferent_look (g := fun σ => σ.world) (Q := fun _ => True)
      (fun σ τ hs => ⟨by rw [hs.rest], trivial⟩) fun w _ => ih w (h w)
  | update f next ih =>
    exact indifferent_bind (indifferent_modify (fun _ _ _ _ => rfl) fun _ hσ => { hσ with })
      fun _ _ => ih h
  | serial k ih => exact indifferent_bind indifferent_serial fun m _ => ih m (h m)
  | iterator answer k ih =>
    exact indifferent_bind (indifferent_makeIterator h.1) fun it _ => ih it (h.2 it)
  | asStream s k ih => exact indifferent_bind (indifferent_asStream s) fun t _ => ih t (h t)
  | isEmpty s k ih => exact indifferent_bind (indifferent_isEmpty forces s) fun b _ => ih b (h b)
  | first s k ih => exact indifferent_bind (indifferent_first forces s) fun v _ => ih v (h v)
  | rest s k ih => exact indifferent_bind (indifferent_rest forces s) fun t _ => ih t (h t)
  | append a b k ih => exact indifferent_bind (indifferent_append forces a b) fun t _ => ih t (h t)
  | toList s k ih => exact indifferent_bind (indifferent_toList forces s) fun vs _ => ih vs (h vs)
  | setInput s i k ih => exact indifferent_bind (indifferent_alterState _ s) fun t _ => ih t (h t)
  | setPosition s p k ih =>
    exact indifferent_bind (indifferent_alterState _ s) fun t _ => ih t (h t)
  | setUser s u k ih => exact indifferent_bind (indifferent_alterState _ s) fun t _ => ih t (h t)
  | render v k ih => exact indifferent_render v fun t => ih t (h t)
  | peek r k ih =>
    exact indifferent_look (g := fun σ => r.peek σ) (Q := fun _ => True)
      (f := fun x => (k x.1 x.2).run) (fun σ τ hs => ⟨hs.peek r, trivial⟩)
      fun x _ => ih x.1 x.2 (h x.1 x.2)
  | result r k ih =>
    exact indifferent_bind (indifferent_catching (forces _)) fun v _ => ih v (h v)
  | finish s k ih => exact indifferent_bind (forces _) fun v _ => ih v (h v)

end

end ResumableParsing.Logging
