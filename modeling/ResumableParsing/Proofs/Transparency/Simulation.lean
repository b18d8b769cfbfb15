import ResumableParsing.Proofs.Correspondence.Runs
import ResumableParsing.Proofs.Reading.Consumption
import ResumableParsing.Proofs.Transparency.Division

/-!
# A run inside chunks does what a plain run does

The stores are alike, so functions of the caller and everything else that does not look at states
have the same outcome in both of them. What is left are the three questions that parsers ask of a
state: whether there is a token, which one it is, and where the state behind it lies. At the last
question the run inside chunks looks into the memory of its state, which is faithful.

* `Division.even`: values and parsers are the same on both sides
* `Division.runs_moving`: moving past a token leads to corresponding states
* `Division.lawful`: the two runs correspond
-/

namespace ResumableParsing

variable {W α β : Type}

namespace Division

variable {d : Division} {w w' : World} {σ σ' τ τ' : Store W}

/-! ## Stores -/

theorem Stores.later (h : d.Stores w σ τ) (alike : σ'.Alike τ') (still : σ'.Still)
    (k : σ.Grows σ') (k' : τ.Grows τ') (ha : τ'.advances = τ.advances) : d.Stores w σ' τ' where
  alike := alike
  still := still
  holds := by
    refine h.holds.later k' (fun _ i x hx => ?_) fun _ => ha
    rw [← alike.tails] at hx
    exact (still i x hx).fit
  closed := h.closed.later k

/-- Values and parsers are the same on both sides. -/
theorem even (d : Division) : (d.correspondence W).Even World.parsers where
  refl w := ⟨.refl w, rfl⟩
  trans h h' := World.Le.trans h h'
  during_trans h h' := ⟨h.1.trans h'.1, h.2.trans h'.2⟩
  le h := h.1
  values := Iff.rfl
  tokens := Iff.rfl
  parsers := Iff.rfl
  binders := Iff.rfl
  known_mono hle := hle.parsers _
  alike h := Stores.alike h
  still h := Stores.still h
  closed h := Stores.closed h
  later h alike still k k' _ clear := Stores.later h alike still k k' clear.advances
  learn := by
    intro w σ τ P hs hP closed
    have hs : d.Stores w σ τ := hs
    have hw : w.Le { w with parsers := P } := ⟨hP, .refl _, Nat.le_refl _⟩
    exact ⟨{ w with parsers := P }, ⟨hw, rfl⟩, ⟨hs.alike, hs.still, hs.holds, closed⟩, fun _ h => h⟩

/-- Messages are not looked at. -/
theorem Stores.log (h : d.Stores w σ τ) (m : String) :
    d.Stores w (if σ.logging then { σ with log := m :: σ.log } else σ) τ := d.even.log h m

theorem Stores.log_right (h : d.Stores w σ τ) (m : String) :
    d.Stores w σ (if τ.logging then { τ with log := m :: τ.log } else τ) := d.even.log_right h m

/-! ## Questions that parsers ask of states -/

variable {s t : State Value} {ys : List Value}

theorem Split.mono (h : d.Split w ys s t) (hle : w.Le w') : d.Split w' ys s t := by
  cases h with
  | intro hi hj ha hc ho =>
    exact .intro hi hj ha (Nat.lt_of_lt_of_le hc hle.given) (hle.ghost.owner _ _ ho)

theorem runs_isEmpty (h : d.Split w ys s t) :
    (d.correspondence W).Runs w
      (fun w' a b => a = b ∧ (a = false → (d.correspondence W).Occupied w' s t))
      s.input.isEmpty t.input.isEmpty := by
  have split := h
  cases h with
  | @intro i j a c position user hi hj ha hc ho =>
    have same : (ys ++ d.after c).isEmpty = ys.isEmpty := by
      cases ys with
      | nil =>
        rw [d.after_eq_nil (Nat.le_succ_of_le (ha rfl))]
        rfl
      | cons y ys => rfl
    refine d.even.runs_known (hi.isEmpty (W := W)) (hj.isEmpty (W := W))
      fun w' hle => ⟨same, fun he => ?_⟩
    cases ys with
    | nil => cases same.symm.trans he
    | cons y ys => exact ⟨y, ys, split.mono hle⟩

theorem runs_first {y : Value} (h : d.Split w (y :: ys) s t) :
    (d.correspondence W).Runs w (d.correspondence W).Tokens s.input.first t.input.first := by
  cases h with
  | intro hi hj ha hc ho =>
    exact d.even.runs_known (hi.first (W := W)) (hj.first (W := W)) fun _ _ => rfl

/-! ## Moving past a token -/

/-- The plain state moves at once. The other one notes the token. -/
theorem runs_next {y : Value} (h : d.Split w (y :: ys) s t) (v u : Value) (k l : Continuation W) :
    (d.correspondence W).Runs w
      (fun w' x x' => ∃ m m', d.Moves w' m m' ∧ x = m k ∧ x' = m' l) (s.next v k) (t.next u l) := by
  cases h with
  | @intro i j a c position user hi hj ha hc ho =>
    obtain ⟨i', hi', rest, -⟩ := hi.rest (W := W)
    intro w₁ σ τ r hle hs hr
    have hle : w.Le w₁ := hle
    have hs : d.Stores w₁ σ τ := hs
    have left : (State.next (.plain false i position user) v k).Comes σ
        (.ok (.settle (.plain false i' (position + 1) user) k) σ) := by
      refine comes_of_forall (fun n => ?_) not_exhausted_ok
      simp [Eval.exec, State.next, State.advance, State.input, State.alter, rest]
    cases hr.unique left
    let f : Advance → Advance := fun m => { m with token := m.token.orElse fun _ => some u }
    have right : (State.next (.chunked a c (.plain false j position user)) u l).Comes τ
        (.ok (.cross a c (.plain false j position user) l)
          { τ with advances := τ.advances.modify a.index f }) :=
      comes_of_forall (fun n => rfl) not_exhausted_ok
    have altered : a.alter f (.within 0) τ = .ok () _ := rfl
    refine ⟨_, right, w₁, ⟨.refl _, rfl⟩, ⟨{ hs.alike with }, hs.still, ?_, hs.closed⟩, _, _,
      .intro hi' hj (Nat.lt_of_lt_of_le hc hle.given) (hle.ghost.owner _ _ ho), rfl, rfl⟩
    -- A token alone does not change where memories lead.
    exact hs.holds.alter (f := f) (fun _ _ _ _ hf =>
      ⟨hf.unknown, hf.fit, hf.within, hf.across⟩) altered

/-- Looking at what is left of a chunk, and noting where the step leads, changes memories alone. -/
theorem remember_of_spells {j : Stream Value} (hj : j.Spells ys) (a : AdvanceId) (c position : Int)
    (user : Value) (τ : Store W) : ∃ τ' : Store W,
      (∀ n, a.remember c (.plain false j position user) (.within n) τ = .ok () τ') ∧
      τ' = { τ with advances := τ'.advances } ∧
      ∀ x, τ.advances[a.index]? = some x →
        ∃ x', τ'.advances[a.index]? = some x' ∧ x'.next.isSome = true := by
  have empty (n : Nat) : j.isEmpty (.within n) τ = .ok ys.isEmpty τ := hj.isEmpty _ τ
  let inner : State Value := .plain false j position user
  -- Where nothing is left of the chunk no new state is made.
  cases ys with
  | nil =>
    let f : Advance → Advance := fun m => { m with next := some inner, exhausted := true }
    refine ⟨{ τ with advances := τ.advances.modify a.index f }, fun n => ?_, rfl, fun x hx => ?_⟩
    · simp only [AdvanceId.remember, State.input, Eval.run_bind, empty]
      rfl
    · refine ⟨f x, ?_, rfl⟩
      simp [Array.getElem?_modify, hx]
  | cons y ys =>
    let s : State Value := .chunked ⟨τ.advances.size⟩ c inner
    let f : Advance → Advance := fun m => { m with next := some s }
    refine ⟨{ τ with advances := (τ.advances.push {}).modify a.index f }, fun n => ?_, rfl,
      fun x hx => ?_⟩
    · simp only [AdvanceId.remember, State.input, Eval.run_bind, empty]
      rfl
    · refine ⟨f x, ?_, rfl⟩
      obtain ⟨hlt, rfl⟩ := Array.getElem?_eq_some_iff.mp hx
      simp [Array.getElem?_modify, Array.getElem?_push_lt hlt]

/-- Where a faithful memory leads corresponds to the plain state behind the token. -/
theorem go_of_faithful {i j : Stream Value} {c : Nat} {position : Int} {user y : Value}
    (hi : i.Spells (ys ++ d.after c)) (hj : j.Spells (y :: ys)) (hc : c < w.given) {x : Advance}
    (hx : x.Faithful True w.ghost τ d.chunk c (.plain false j position user))
    (hn : x.next.isSome = true) (k l : Continuation W) :
    ∃ z, (∀ m, x.go c l m τ = .ok z τ) ∧ (d.correspondence W).Arrives w k l
      (.tail (.arrive (.plain false i (position + 1) user) k)) z := by
  obtain ⟨t, ht⟩ := Option.isSome_iff_exists.mp hn
  -- Behind the token there are more tokens of the chunk, or the chunk is exhausted.
  cases he : x.exhausted with
  | false =>
    have go (m : Means W) : x.go c l m τ = .ok (.tail (.arrive t l)) τ := by
      simp only [Advance.go, ht, he]
      rfl
    obtain ⟨b, t', rfl, hb, occupied⟩ := hx.within t ht he
    obtain ⟨-, owner, -⟩ := hx.fit _ ht
    cases hb with
    | plain next =>
      have hj' := hj.next next
      refine ⟨_, go, .inl ⟨_, _, ⟨ys, ?_⟩, rfl, rfl⟩⟩
      exact .intro hi hj' (fun h => absurd h (hj'.ne_nil_of_occupied occupied)) hc owner
  | true =>
    have go (m : Means W) : x.go c l m τ = .ok (.value (.request ⟨c + 1, t, l⟩)) τ := by
      simp only [Advance.go, ht, he]
      rfl
    obtain ⟨hb, vacant⟩ := hx.across t ht he
    cases hb with
    | plain next =>
      cases (hj.next next).nil_of_vacant vacant
      exact ⟨_, go, .inr ⟨_, _, _, .intro hi hc, rfl, rfl⟩⟩

/-- The plain run arrives behind the token. So does the other one, or it waits for the next chunk.
-/
theorem runs_moving {m m' : Continuation W → Task W} (h : d.Moves w m m') (k l : Continuation W) :
    (d.correspondence W).Runs w (fun w' x y => (d.correspondence W).Arrives w' k l x y)
      (m k).step (m' l).step := by
  cases h with
  | @intro i j a c position user y ys hi hj hc ho =>
    intro w₁ σ τ r hle hs hr
    have hle : w.Le w₁ := hle
    have hc := Nat.lt_of_lt_of_le hc hle.given
    have ho := hle.ghost.owner _ _ ho
    have hs : d.Stores w₁ σ τ := hs
    let here : Step (Task W) (Finish W) :=
      .tail (.arrive (.plain false i (position + 1) user) k)
    have left : (Task.step (.settle (.plain false i (position + 1) user) k)).Comes σ
        (.ok here _) := comes_of_forall (fun _ => rfl) not_exhausted_ok
    cases hr.unique left
    have hs := hs.log ("trying " ++ Task.settleName)
    obtain ⟨x, hx, faithful⟩ := hs.holds.memory trivial _ _ _ ho
    have memory (n : Nat) : a.memory (.within n) τ = .ok x τ := by
      simp [AdvanceId.memory, hx]
    cases hn : x.next.isSome with
    | true =>
      -- Somebody has moved past the token before.
      obtain ⟨z, go, arrives⟩ := go_of_faithful hi hj hc faithful hn k l
      refine ⟨.ok z τ, comes_of_forall (fun n => ?_) not_exhausted_ok, w₁, ⟨.refl _, rfl⟩, hs,
        arrives⟩
      simp [Eval.exec, Task.step, AdvanceId.cross, memory, hn, go]
    | false =>
      obtain ⟨j', hj', rest, next⟩ := hj.rest (W := W)
      obtain ⟨τ', remember, frame, known⟩ := remember_of_spells hj' a c (position + 1) user τ
      obtain ⟨x', hx', hn'⟩ := known x hx
      obtain ⟨g, hg, holds, -⟩ := hs.holds.remember (forces_within True d.chunk 0) trivial ho
        (.plain (next τ)) trivial (remember 0)
      let w₂ : World := { w₁ with ghost := g }
      have hw : w₁.Le w₂ := ⟨fun _ h => h, hg, Nat.le_refl _⟩
      have alike : τ.Alike τ' := by
        rw [frame]
        exact { Store.Alike.refl τ with }
      have hs' : d.Stores w₂ _ τ' := ⟨hs.alike.trans alike, hs.still, holds, hs.closed⟩
      have memory' (n : Nat) : a.memory (.within n) τ' = .ok x' τ' := by
        simp [AdvanceId.memory, hx']
      obtain ⟨-, faithful'⟩ := holds.faithful trivial (hg.owner _ _ ho) (memory' 0)
      obtain ⟨z, go, arrives⟩ := go_of_faithful (w := w₂) hi hj hc faithful' hn' k l
      have advance (n : Nat) : (State.plain false j position user).advance (.within n) τ =
          .ok (.plain false j' (position + 1) user) τ := by
        simp [State.advance, State.input, State.alter, rest]
      refine ⟨.ok z τ', comes_of_forall (fun n => ?_) not_exhausted_ok, w₂, ⟨hw, rfl⟩, hs', arrives⟩
      simp [Eval.exec, Task.step, AdvanceId.cross, memory, hn, advance, remember, memory', go]

/-- The two runs correspond. -/
theorem lawful : (d.correspondence W).Lawful where
  toOrdered := d.even.toOrdered
  values_mono _ h := h
  tokens_mono _ h := h
  parsers_mono hle h := ⟨h.1, hle.parsers _ h.2⟩
  binders_mono hle h := ⟨h.1, h.2.mono hle.parsers⟩
  states_mono hle h := by
    obtain ⟨ys, h⟩ := h
    exact ⟨ys, h.mono hle⟩
  occupied_mono hle h := by
    obtain ⟨y, ys, h⟩ := h
    exact ⟨y, ys, h.mono hle⟩
  moving_mono hle h := by
    cases h with
    | intro hi hj hc ho =>
      exact .intro hi hj (Nat.lt_of_lt_of_le hc hle.given) (hle.ghost.owner _ _ ho)
  tokens_values h := h
  position h := by
    obtain ⟨ys, h⟩ := h
    cases h
    rfl
  none _ := rfl
  nil _ := rfl
  ignore h := congrArg Value.ignore h
  binders := d.even.runs_built
  found := d.even.found
  debug _ := d.even.runs_debug
  serial _ := d.even.imp (d.even.runs_quiet .serial) fun _ _ _ _ _ => trivial
  isEmpty h := by
    obtain ⟨ys, h⟩ := h
    exact runs_isEmpty h
  first h := by
    obtain ⟨y, ys, h⟩ := h
    exact runs_first h
  render hs h := by
    cases h
    exact (Stores.alike hs).render _
  join := d.even.join
  next h v u _ := by
    obtain ⟨y, ys, h⟩ := h
    exact runs_next h v u
  moving := runs_moving

end Division

end ResumableParsing
