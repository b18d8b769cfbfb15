import ResumableParsing.Proofs.Direct.Answers
import ResumableParsing.Proofs.Termination.Spliced

/-!
# Kinds of values

What a parser makes of values of a kind is of this kind again, if the kind is closed. All values are
such a kind. The values that can be read are another one: every stream in them comes to its end,
whatever is computed in between. Of these are the results of all repetitions.

* `Values.Closed`: kinds of values that the combinators keep to
* `joins_of_closed`, `joins_cons`, `joins_append`: what sequential combination makes of them
* `Value.Readable`, `Values.readable`: values that can be read
* `Stream.Finite.readable`: finite streams can be read
* `closed_readable`: what is made of values that can be read can be read
* `Value.Readable.comes_toList`: their streams can be read into lists
-/

namespace ResumableParsing

variable {W : Type}

/-! ## Closed kinds -/

/-- A kind of values that stay in it whatever is computed, and are combined to values of the kind.
-/
structure Values.Closed (V : Values W) : Prop where
  /-- They stay in it. -/
  stable : V.Stable
  /-- The value that stands for none. -/
  none : ∀ σ, V σ .none
  /-- Two values in a group. -/
  beside : ∀ {σ v w}, V σ v → V σ w → V σ (v.beside w)
  /-- A value that is left out. -/
  ignore : ∀ {σ v}, V σ v → V σ v.ignore
  /-- A stream whose elements are all there. -/
  stream : ∀ {σ : Store W} {s : Stream Value} {vs : List Value}, s.Spells vs →
    (∀ v ∈ vs, V σ v) → V σ (.stream s)
  /-- Two of them in one. -/
  append : ∀ {σ τ : Store W} {a b t : Stream Value} {vs ws : List Value}, a.Spells vs →
    b.Spells ws → (∀ v ∈ vs ++ ws, V σ v) → (a.append b).Comes σ (.ok t τ) → V τ (.stream t)

/-- A stream whose elements are all there and are of the kind. -/
def Values.strict (V : Values W) : Values W :=
  fun σ v => ∃ s vs, v = .stream s ∧ s.Spells vs ∧ ∀ w ∈ vs, V σ w

section

variable {V : Values W} {σ : Store W} {v : Value}

theorem Values.Stable.strict (h : V.Stable) : V.strict.Stable := by
  rintro σ τ _ ⟨s, vs, rfl, spells, each⟩ k
  exact ⟨s, vs, rfl, spells, fun w hw => h.later (each w hw) k⟩

theorem Values.strict_nil (V : Values W) (σ : Store W) : V.strict σ (.stream .nil) :=
  ⟨_, _, rfl, .nil, by simp⟩

theorem Values.Closed.of_strict (h : V.Closed) (hv : V.strict σ v) : V σ v := by
  obtain ⟨s, vs, rfl, spells, each⟩ := hv
  exact h.stream spells each

/-- Two results are joined unless they are those of repetitions. -/
theorem joins_of_closed (h : V.Closed) {c : Combine} (cons : c ≠ .cons) (append : c ≠ .append) :
    c.Joins V V V := by
  intro σ v w hv hw
  cases c with
  | first => exact ⟨v, σ, comes_pure v σ, hv⟩
  | second => exact ⟨w, σ, comes_pure w σ, hw⟩
  | group => exact ⟨_, σ, comes_join_group v w σ, h.beside hv hw⟩
  | cons => exact absurd rfl cons
  | append => exact absurd rfl append

/-- A value in front of a stream. -/
theorem joins_cons (stable : V.Stable) : Combine.cons.Joins V V.strict V.strict := by
  rintro σ v _ hv ⟨s, vs, rfl, spells, each⟩
  obtain ⟨τ, joined⟩ := comes_join_cons v s σ
  have k : σ.Evolves τ := (composed_join .cons v (.stream s)).evolves joined
  refine ⟨_, τ, joined, _, v :: vs, rfl, spells.cons, fun w hw => ?_⟩
  rcases List.mem_cons.mp hw with rfl | hw
  · exact stable.later hv k
  · exact stable.later (each w hw) k

/-- One stream after another. -/
theorem joins_append (h : V.Closed) : Combine.append.Joins V.strict V.strict V := by
  rintro σ _ _ ⟨a, vs, rfl, ha, va⟩ ⟨b, ws, rfl, hb, vb⟩
  obtain ⟨t, τ, put, -, -⟩ := append_spliced ha hb σ
  have put : (a.append b).Comes σ (.ok t τ) :=
    comes_of_forall (fun n => put (.within n)) not_exhausted_ok
  refine ⟨.stream t, τ, comes_bind_ok (comes_pure a σ) (comes_bind_ok (comes_pure b σ)
    (comes_bind_ok put (comes_pure _ τ))), h.append ha hb (fun w hw => ?_) put⟩
  exact (List.mem_append.mp hw).elim (va w) (vb w)

end

/-! ## Values that can be read -/

/-- What is inside a value that is not a stream. -/
def Value.parts : Value → List Value
  | .list vs | .tuple vs | .group vs => vs
  | .dict entries => entries.flatMap fun e => [e.1, e.2]
  | .ignored v => [v]
  | .token name v => [name, v]
  | .state s => [.stream s.input, s.user]
  | .failure e => [.state e.state]
  | .reply r => r.elements
  | _ => []

/-- The stream can be looked at: it is empty, or it has a first element and a rest. -/
def Stream.Serves (σ : Store W) (s : Stream Value) : Prop :=
  (∃ τ, s.isEmpty.Comes σ (.ok true τ)) ∨
    (∃ τ, s.isEmpty.Comes σ (.ok false τ)) ∧ (∃ v τ, s.first.Comes σ (.ok v τ)) ∧
      ∃ t τ, s.rest.Comes σ (.ok t τ)

/-- The value can be read: in every later store, whoever looks at the streams in it, and at what
they hold, comes to an end. -/
inductive Value.Readable : Store W → Value → Prop where
  /-- What is inside the value can be read. -/
  | whole {σ : Store W} {v : Value} : (∀ s, v ≠ .stream s) → (∀ w ∈ v.parts, Readable σ w) →
      Readable σ v
  /-- The stream can be looked at, and then its first element and its rest can be read. -/
  | stream {σ : Store W} {s : Stream Value} : (∀ τ, σ.Evolves τ → s.Serves τ) →
      (∀ τ υ v, σ.Evolves τ → s.first.Comes τ (.ok v υ) → Readable υ v) →
      (∀ τ τ' υ t, σ.Evolves τ → s.isEmpty.Comes τ (.ok false τ') → s.rest.Comes τ (.ok t υ) →
        Readable υ (.stream t)) → Readable σ (.stream s)

/-- Values that can be read. -/
abbrev Values.readable : Values W := Value.Readable

section

variable {σ τ υ : Store W} {v w : Value} {s : Stream Value} {vs : List Value} {n : Nat}

theorem Value.Readable.later (h : v.Readable σ) (k : σ.Evolves τ) : v.Readable τ := by
  induction h with
  | whole other _ ih => exact .whole other fun w hw => ih w hw k
  | stream serves first rest _ _ =>
    exact .stream (fun υ k' => serves υ (k.trans k')) (fun υ υ' v k' => first υ υ' v (k.trans k'))
      fun υ υ' χ t k' => rest υ υ' χ t (k.trans k')

theorem readable_stable : (Values.readable : Values W).Stable := fun _ _ _ h k => h.later k

theorem Value.Readable.part (h : v.Readable σ) (hw : w ∈ v.parts) : w.Readable σ := by
  cases h with
  | whole _ parts => exact parts w hw
  | stream _ _ _ => cases hw

/-- Values inside which there is nothing can be read. -/
theorem Value.readable_leaf (other : ∀ s, v ≠ .stream s) (h : v.parts = []) (σ : Store W) :
    v.Readable σ := .whole other (by simp [h])

/-- An empty stream has no first element. -/
theorem Stream.not_first_of_isEmpty (h : s.isEmpty.Comes σ (.ok true τ)) :
    ¬s.first.Comes σ (.ok v υ) := by
  intro first
  cases s with
  | nil => cases first.unique (comes_fault _ σ)
  | cons n x t => cases h.unique (comes_pure false σ)
  | lazy n x i => cases h.unique (comes_pure false σ)
  | view q i handle =>
    have same := h.unique (comes_pure (viewIsEmpty q i) σ)
    have empty : viewIsEmpty q i = true := (EStateM.Result.ok.inj same).1.symm
    have none : (Stream.view q i handle).first.Comes σ (.error (.raised .emptyStream) σ) := by
      rw [Stream.first, if_pos empty]
      exact comes_fault _ σ
    cases first.unique none
  | pulled c =>
    obtain ⟨a, σ₁, forced, run⟩ | ⟨e, σ₁, -, same⟩ := h.of_bind (.force (.cell c))
    · obtain ⟨a', σ₂, forced', run'⟩ | ⟨e, σ₂, -, same⟩ := first.of_bind (.force (.cell c))
      · cases forced.unique forced'
        cases a with
        | none => cases run'.unique (comes_fault _ σ₁)
        | some x => cases run.unique (comes_pure false σ₁)
      · cases same
    · cases same

/-- A finite stream of values that can be read can be read. -/
theorem Stream.Finite.readable (h : s.Finite Values.readable n σ) :
    (Value.stream s).Readable σ := by
  induction n generalizing σ s with
  | zero =>
    refine .stream (fun τ k => .inl (h τ k)) (fun τ υ v k first => ?_) fun τ τ' υ t k some _ => ?_
    · obtain ⟨χ, empty⟩ := h τ k
      exact absurd first (not_first_of_isEmpty empty)
    · obtain ⟨χ, empty⟩ := h τ k
      cases empty.unique some
  | succ n ih =>
    refine .stream (fun τ k => ?_) (fun τ υ v k first => ?_) fun τ τ' υ t k some rest => ?_
    · rcases h τ k with empty | ⟨some, ⟨v, υ, first, -⟩, t, υ', rest, -⟩
      · exact .inl empty
      · exact .inr ⟨some, ⟨v, υ, first⟩, t, υ', rest⟩
    · rcases h τ k with ⟨χ, empty⟩ | ⟨-, ⟨v', υ', first', hv⟩, -⟩
      · exact absurd first (not_first_of_isEmpty empty)
      · cases first.unique first'
        exact hv
    · rcases h τ k with ⟨χ, empty⟩ | ⟨-, -, t', υ', rest', ht⟩
      · cases empty.unique some
      · cases rest.unique rest'
        exact ih ht

/-- What is made of values that can be read can be read. -/
theorem closed_readable : (Values.readable : Values W).Closed where
  stable := readable_stable
  none σ := Value.readable_leaf (by simp) rfl σ
  beside := by
    intro σ v w hv hw
    have pair : (Value.group [v, w]).Readable σ := by
      refine .whole (by simp) fun x hx => ?_
      obtain rfl | rfl : x = v ∨ x = w := by simpa [Value.parts] using hx
      · exact hv
      · exact hw
    cases v with
    | group vs =>
      have group : (Value.group (vs ++ [w])).Readable σ := by
        refine .whole (by simp) fun x hx => ?_
        obtain hx | rfl : x ∈ vs ∨ x = w := by simpa [Value.parts] using hx
        · exact hv.part hx
        · exact hw
      exact group
    | _ => exact pair
  ignore := by
    intro σ v hv
    have marked : (Value.ignored v).Readable σ := by
      refine .whole (by simp) fun x hx => ?_
      obtain rfl : x = v := by simpa [Value.parts] using hx
      exact hv
    cases v with
    | ignored v => exact hv
    | _ => exact marked
  stream spells each := (spells.finite readable_stable each).readable
  append := by
    intro σ τ a b t vs ws ha hb each put
    have k : σ.Evolves τ := (composed_append a b).evolves put
    have later (v : Value) (hv : v ∈ vs ++ ws) : Values.readable τ v := (each v hv).later k
    exact ((spliced_of_append ha hb put).finite readable_stable later).readable

/-! ### Reading into lists -/

/-- A stream that can be read is read into a list of values that can be read. -/
theorem Value.Readable.comes_toList (h : (Value.stream s).Readable σ) :
    ∃ vs τ, s.toList.Comes σ (.ok vs τ) ∧ ∀ v ∈ vs, v.Readable τ := by
  -- By induction on why the stream can be read; the bound is the number of its elements.
  have read : ∃ n, ∀ done : List Value, (∀ v ∈ done, v.Readable σ) → ∃ vs τ,
      (Stream.toListFrom n done s).Comes σ (.ok vs τ) ∧ ∀ v ∈ vs, v.Readable τ := by
    generalize hv : Value.stream s = v at h
    induction h generalizing s with
    | whole other _ _ => exact absurd hv.symm (other s)
    | @stream σ s' serves first rest _ ih =>
      obtain rfl : s = s' := Value.stream.inj hv
      rcases serves σ .refl with ⟨σ₁, empty⟩ | ⟨⟨σ₁, some⟩, -⟩
      · have k := (composed_isEmpty s).evolves empty
        refine ⟨1, fun done hd => ⟨done.reverse, σ₁, comes_bind_ok empty (comes_pure _ σ₁), ?_⟩⟩
        exact fun v hv => (hd v (List.mem_reverse.mp hv)).later k
      · -- Once it is known that there is an element, it stays known.
        have k₁ := (composed_isEmpty s).evolves some
        have occupied : s.Occupied σ₁ := Stream.occupied_of_comes some
        obtain ⟨v, σ₂, found, k₂⟩ : ∃ v σ₂, s.first.Comes σ₁ (.ok v σ₂) ∧ σ₁.Evolves σ₂ := by
          rcases serves σ₁ k₁ with ⟨χ, empty⟩ | ⟨-, ⟨v, σ₂, found⟩, -⟩
          · cases occupied.comes.unique empty
          · exact ⟨v, σ₂, found, (composed_first s).evolves found⟩
        have occupied := occupied.later k₂.grows.knows
        obtain ⟨t, σ₃, behind, k₃⟩ : ∃ t σ₃, s.rest.Comes σ₂ (.ok t σ₃) ∧ σ₂.Evolves σ₃ := by
          rcases serves σ₂ (k₁.trans k₂) with ⟨χ, empty⟩ | ⟨-, -, t, σ₃, behind⟩
          · cases occupied.comes.unique empty
          · exact ⟨t, σ₃, behind, (composed_rest s).evolves behind⟩
        have hv : v.Readable σ₃ := (first σ₁ σ₂ v k₁ found).later k₃
        obtain ⟨n, read⟩ := ih σ₂ σ₂ σ₃ t (k₁.trans k₂) occupied.comes behind rfl
        refine ⟨n + 1, fun done hd => ?_⟩
        obtain ⟨vs, τ, read, each⟩ := read (v :: done) fun w hw => by
          rcases List.mem_cons.mp hw with rfl | hw
          · exact hv
          · exact (hd w hw).later ((k₁.trans k₂).trans k₃)
        exact ⟨vs, τ, comes_bind_ok some (comes_bind_ok found (comes_bind_ok behind read)), each⟩
  obtain ⟨n, read⟩ := read
  obtain ⟨vs, τ, read, each⟩ := read [] (by simp)
  -- A larger bound gives the same list.
  refine ⟨vs, τ, comes_loop (f := fun n => Stream.toListFrom n [] s) ?_ ?_ read, each⟩
  · exact fun n => composed_toListFrom n [] s
  · exact fun n m σ => exhausted_or_toListFrom n [] s m σ

/-- Reading into lists is total on values that can be read. -/
theorem total_listOf {U : Fault → Prop} (hU : U .notAStream) (σ : Store W) :
    Values.readable.Total U Values.readable σ Build.listOf := by
  intro τ v _ hv
  have done {vs : List Value} {υ : Store W} {x : Eval W (List Value)} (comes : x.Comes τ (.ok vs υ))
      (each : ∀ w ∈ vs, w.Readable υ) :
      (x >>= fun vs => (Action.done (.list vs) : Action W Value).run).Settles U Values.readable τ :=
    .inl ⟨_, υ, comes_bind_ok comes (comes_pure _ υ), .whole (by simp) each⟩
  have raised : (Action.raise .notAStream : Action W Value).run.Settles U Values.readable τ :=
    .inr ⟨_, τ, comes_fault _ τ, hU⟩
  cases v with
  | stream s =>
    obtain ⟨vs, υ, comes, each⟩ := hv.comes_toList
    exact done comes each
  | dict entries =>
    refine done (comes_pure (entries.map Prod.fst) τ) fun w hw => hv.part ?_
    obtain ⟨e, he, rfl⟩ := List.mem_map.mp hw
    exact List.mem_flatMap.mpr ⟨e, he, by simp⟩
  | text t =>
    refine done (comes_pure (t.points.map fun p => .text (.ofPoint p)) τ) fun w hw => ?_
    obtain ⟨p, -, rfl⟩ := List.mem_map.mp hw
    exact .whole (by simp) (by simp [Value.parts])
  | list vs => exact done (comes_pure vs τ) fun w hw => hv.part hw
  | tuple vs => exact done (comes_pure vs τ) fun w hw => hv.part hw
  | group vs => exact done (comes_pure vs τ) fun w hw => hv.part hw
  | reply r => exact done (comes_pure r.elements τ) fun w hw => hv.part hw
  | _ => exact raised

end

end ResumableParsing
