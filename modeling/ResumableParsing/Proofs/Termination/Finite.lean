import ResumableParsing.Proofs.Direct.Replies
import ResumableParsing.Proofs.Stream.Questions
import ResumableParsing.Proofs.Stream.Tokens

/-!
# Finite inputs and total functions

A stream is finite if reading it comes to its end, in whatever order it is read and whatever else is
computed in between. A function of the caller is total on a kind of values if it comes to something
on each of them, in every later store.

* `Store.Evolves`: the stores that computations lead to
* `Values`: kinds of values, which may depend on the store
* `Stream.Finite`: at most so many elements can be read, and nothing goes wrong on the way
* `Stream.Finite.question`, `Stream.Finite.take`: reading a finite stream
* `Stream.Spells.finite`: streams whose elements are all there
* `Values.Total`: functions of the caller that are total on a kind of values
-/

namespace ResumableParsing

variable {W α : Type}

/-! ## Later stores -/

/-- Computations of the library lead from one store to the other. -/
inductive Store.Evolves (σ : Store W) : Store W → Prop where
  /-- Nothing has been computed. -/
  | refl : Evolves σ σ
  /-- One more computation, within some bound. -/
  | step {α : Type} {τ : Store W} {x : Eval W α} (n : Nat) :
      Evolves σ τ → Composed x → Evolves σ (left (x.exec n τ))

section

variable {σ τ υ : Store W}

theorem Store.Evolves.trans (h : σ.Evolves τ) (h' : τ.Evolves υ) : σ.Evolves υ := by
  induction h' with
  | refl => exact h
  | step n _ hx ih => exact .step n ih hx

theorem Store.Evolves.grows (h : σ.Evolves τ) : σ.Grows τ := by
  induction h with
  | refl => exact .refl σ
  | step n _ hx ih => exact ih.trans (hx.grows_within n _)

/-- What a computation comes to lies in a later store. -/
theorem Composed.evolves {x : Eval W α} (hx : Composed x) {y : EStateM.Result Stop (Store W) α}
    (h : x.Comes σ y) : σ.Evolves (left y) := by
  obtain ⟨-, n, h⟩ := h
  rw [← h n (Nat.le_refl n)]
  exact .step n .refl hx

theorem Store.Noted.evolves (h : σ.Noted τ) : σ.Evolves τ := by
  obtain ⟨log, rfl⟩ := h
  have change : Composed (modify fun σ => { σ with log := log } : Eval W Unit) :=
    .modify fun σ => { Store.Adds.refl σ with }
  exact .step 0 .refl change

/-- Building a grammar leads to a later store. -/
theorem Grammar.evolves_build (g : Grammar W) (σ : Store W) : σ.Evolves (g.build σ).2 := by
  have built : (Eval.ofBuild g.build).Comes σ (.ok (g.build σ).1 (g.build σ).2) :=
    comes_change (fun _ _ => rfl) σ
  exact (composed_build g).evolves built

end

/-! ## Kinds of values -/

/-- A property of values, which may depend on the store. -/
abbrev Values (W : Type) := Store W → Value → Prop

/-- Values of the kind stay so whatever is computed. -/
def Values.Stable (V : Values W) : Prop := ∀ σ τ v, V σ v → σ.Evolves τ → V τ v

/-! ## Finite streams -/

/-- In every later store, reading the stream comes to its end after at most `n` elements, which are
of the kind `V`. -/
def Stream.Finite (V : Values W) : (n : Nat) → Store W → Stream Value → Prop
  | 0, σ, s => ∀ τ, σ.Evolves τ → ∃ υ, s.isEmpty.Comes τ (.ok true υ)
  | n + 1, σ, s => ∀ τ, σ.Evolves τ →
      (∃ υ, s.isEmpty.Comes τ (.ok true υ)) ∨
      (∃ υ, s.isEmpty.Comes τ (.ok false υ)) ∧ (∃ v υ, s.first.Comes τ (.ok v υ) ∧ V υ v) ∧
        ∃ t υ, s.rest.Comes τ (.ok t υ) ∧ t.Finite V n υ

/-- A plain state whose input is finite. -/
def State.Bounded (V : Values W) (n : Nat) (σ : Store W) : State Value → Prop
  | .plain _ i _ _ => i.Finite V n σ
  | .chunked .. => False

section

variable {V : Values W} {n k : Nat} {σ τ : Store W} {s : Stream Value}

theorem Values.Stable.later {v : Value} (h : V.Stable) (hv : V σ v) (k : σ.Evolves τ) : V τ v :=
  h σ τ v hv k

theorem Stream.Finite.later (h : s.Finite V n σ) (k : σ.Evolves τ) : s.Finite V n τ := by
  cases n with
  | zero => exact fun υ k' => h υ (k.trans k')
  | succ n => exact fun υ k' => h υ (k.trans k')

theorem Stream.Finite.imp {V' : Values W} (h : s.Finite V n σ) (hV : ∀ τ v, V τ v → V' τ v) :
    s.Finite V' n σ := by
  induction n generalizing s σ with
  | zero => exact h
  | succ n ih =>
    intro τ k
    obtain empty | ⟨some, ⟨v, υ, first, hv⟩, t, υ', rest, ht⟩ := h τ k
    · exact .inl empty
    · exact .inr ⟨some, ⟨v, υ, first, hV υ v hv⟩, t, υ', rest, ih ht⟩

/-- It can be asked whether a finite stream is empty. -/
theorem Stream.Finite.question (h : s.Finite V n σ) :
    ∃ b υ, s.isEmpty.Comes σ (.ok b υ) ∧ (b = false → s.Occupied υ) := by
  cases n with
  | zero =>
    obtain ⟨υ, e⟩ := h σ .refl
    exact ⟨true, υ, e, by simp⟩
  | succ n =>
    rcases h σ .refl with ⟨υ, e⟩ | ⟨⟨υ, e⟩, -⟩
    · exact ⟨true, υ, e, by simp⟩
    · exact ⟨false, υ, e, fun _ => Stream.occupied_of_comes e⟩

/-- A finite stream that is not empty has a first element, and fewer elements behind it. -/
theorem Stream.Finite.take (h : s.Finite V n σ) (ho : s.Occupied σ) :
    (∃ v υ, s.first.Comes σ (.ok v υ) ∧ V υ v) ∧
      ∃ t υ k, s.rest.Comes σ (.ok t υ) ∧ t.Finite V k υ ∧ k < n := by
  have occupied : s.isEmpty.Comes σ (.ok false σ) :=
    (composed_isEmpty s).comes (n := 1) (isEmpty_of_occupied ho) not_exhausted_ok
  have never {υ : Store W} (e : s.isEmpty.Comes σ (.ok true υ)) : False := by
    cases occupied.unique e
  cases n with
  | zero =>
    obtain ⟨υ, e⟩ := h σ .refl
    exact (never e).elim
  | succ n =>
    rcases h σ .refl with ⟨υ, e⟩ | ⟨-, first, t, υ, rest, ht⟩
    · exact (never e).elim
    · exact ⟨first, t, υ, n, rest, ht, Nat.lt_succ_self n⟩

/-- Streams whose elements are all there are finite. -/
theorem Stream.Spells.finite {vs : List Value} (h : s.Spells vs) (stable : V.Stable)
    (hV : ∀ v ∈ vs, V σ v) : s.Finite V vs.length σ := by
  induction vs generalizing s σ with
  | nil => exact fun τ _ => ⟨τ, comes_of_forall (fun n => h.isEmpty (.within n) τ) not_exhausted_ok⟩
  | cons v vs ih =>
    intro τ k
    obtain ⟨t, ht, rest, -⟩ := h.rest (W := W)
    refine .inr ⟨⟨τ, ?_⟩, ⟨v, τ, ?_, stable.later (hV v List.mem_cons_self) k⟩, t, τ, ?_,
      (ih ht fun w hw => stable.later (hV w (List.mem_cons_of_mem v hw)) k)⟩
    · exact comes_of_forall (fun n => h.isEmpty (.within n) τ) not_exhausted_ok
    · exact comes_of_forall (fun n => h.first (.within n) τ) not_exhausted_ok
    · exact comes_of_forall (fun n => rest (.within n) τ) not_exhausted_ok

theorem State.Bounded.later {s : State Value} (h : s.Bounded V n σ) (k : σ.Evolves τ) :
    s.Bounded V n τ := by
  cases s with
  | plain w i p u => exact Stream.Finite.later h k
  | chunked a c s => exact h

/-- The input of such a state is finite. -/
theorem State.Bounded.input {s : State Value} (h : s.Bounded V n σ) : s.input.Finite V n σ := by
  cases s with
  | plain w i p u => exact h
  | chunked a c s => exact h.elim

end

/-! ## Total functions -/

/-- The computation comes to a result with the property `Q`, or raises a fault of the set `U`. -/
def Eval.Settles (U : Fault → Prop) (Q : Store W → α → Prop) (x : Eval W α) (σ : Store W) : Prop :=
  (∃ a τ, x.Comes σ (.ok a τ) ∧ Q τ a) ∨ ∃ f τ, x.Comes σ (.error (.raised f) τ) ∧ U f

/-- In every later store, the function comes to a result with the property `Q` on every value of the
kind `V`, or raises a fault of the set `U`. -/
def Values.Total (V : Values W) (U : Fault → Prop) (Q : Store W → α → Prop) (σ : Store W)
    (f : Value → Action W α) : Prop :=
  ∀ τ v, σ.Evolves τ → V τ v → (f v).run.Settles U Q τ

theorem Values.Total.later {V : Values W} {U : Fault → Prop} {Q : Store W → α → Prop}
    {σ τ : Store W} {f : Value → Action W α} (h : V.Total U Q σ f) (k : σ.Evolves τ) :
    V.Total U Q τ f :=
  fun υ v k' => h υ v (k.trans k')

end ResumableParsing
