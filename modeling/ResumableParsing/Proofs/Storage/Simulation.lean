import ResumableParsing.Proofs.Pairing.Setting
import ResumableParsing.Proofs.Storage.Supplies

/-!
# Runs over streams with the same elements

Two plain states correspond if their streams hold the same elements. Both runs read them at the same
places, each in its own way, and what the parsers make lies beside what the streams lead to.

* `Storage.Same`: states whose streams hold the same elements
* `Storage.setting`: runs that start in such states
* `Storage.lawful`: they correspond
-/

namespace ResumableParsing

variable {W α β : Type}

/-! ## Changes beside the contents -/

namespace Contents

variable {κ : Contents} {busy : Deferred → Prop} {σ σ' : Store W}

/-- The contents fit while other tails are made and computed. -/
theorem Fits.aside {T T' : TailId → Prop} (h : κ.Fits busy σ) (apart : ∀ i, T i → κ.tails i = none)
    (aside : σ.Aside T T' σ') : κ.Fits busy σ' where
  tails i x d hi := by
    obtain ⟨m, hm, right⟩ := h.tails i x d hi
    have other : ¬T i := by
      intro hT
      rw [apart i hT] at hi
      cases hi
    have size := (Array.getElem?_eq_some_iff.mp hm).1
    exact ⟨m, (aside.tails i size other).2.trans hm, right⟩
  cells := by
    rw [aside.rest]
    exact h.cells
  alone := by
    have owns {c : CellId} {it : IteratorId} (ho : κ.Owns busy σ' c it) : κ.Owns busy σ c it := by
      refine ⟨ho.spoken, ho.idle, ?_⟩
      rw [← ho.unset, aside.rest]
    exact fun c c' it ho ho' => h.alone c c' it (owns ho) (owns ho')

/-- The tails beside the contents stay beside them. -/
theorem Fits.apart {T T' : TailId → Prop} (h : κ.Fits busy σ) (apart : ∀ i, T i → κ.tails i = none)
    (aside : σ.Aside T T' σ') (i : TailId) (hi : T' i) : κ.tails i = none := by
  cases e : κ.tails i with
  | none => rfl
  | some x =>
    obtain ⟨m, hm, -⟩ := h.tails i x.1 x.2 e
    have other : ¬T i := by
      intro hT
      rw [apart i hT] at e
      cases e
    exact absurd hi (aside.tails i (Array.getElem?_eq_some_iff.mp hm).1 other).1

/-- The state after the first token is found. -/
theorem finds_next {r : Nat} {b : Bool} {i : Stream Value} {v : Value} {y : Elements}
    (above : κ.Above busy r) (hi : κ.Holds r i (.cons v y)) (p : Int) (u token : Value)
    (k : Continuation W) : κ.Finds busy ((State.plain b i p u).next token k : Eval W (Task W))
      fun κ' t => ∃ j, t = .settle (.plain b j (p + 1) u) k ∧ κ'.Holds r j y := by
  have moved {κ : Contents} (above : κ.Above busy r) (hi : κ.Holds r i (.cons v y)) :
      κ.Finds busy (do return .settle (← (State.plain b i p u).advance) k : Eval W (Task W))
        fun κ' t => ∃ j, t = .settle (.plain b j (p + 1) u) k ∧ κ'.Holds r j y := by
    rw [State.advance, bind_assoc]
    refine finds_bind ((reads W r κ busy i _ above hi).rest v y rfl) fun κ₁ j _ hj => ?_
    exact finds_pure fun κ' hle => ⟨j, rfl, hj.mono hle (Nat.le_refl r)⟩
  rw [State.next]
  cases b with
  | false => exact moved above hi
  | true =>
    refine finds_bind (Q := fun _ _ => True) ?_ fun κ' _ hle _ =>
      moved (above.mono hle (Nat.le_refl r)) (hi.mono hle (Nat.le_refl r))
    exact finds_change (f := fun σ => ((), { σ with world := σ.watch token σ.world }))
      (fun _ _ => rfl) fun _ => rfl

/-- Nothing else changes where something is written into the log. -/
theorem finds_debug (m : Store W → String) : κ.Finds busy (Eval.debug m) fun _ _ => True := by
  refine finds_change (f := fun σ =>
    ((), if σ.logging then { σ with log := m σ :: σ.log } else σ)) (fun n σ => ?_) fun σ => ?_
  · exact Eval.run_debug m n σ
  · dsimp only
    split <;> rfl

end Contents

/-! ## States -/

namespace Storage

/-- What the streams of the two runs lead to. -/
structure World where
  /-- The contents on the left. -/
  left : Contents
  /-- The contents on the right. -/
  right : Contents

/-- There may be more deferred parts. -/
structure World.Le (w w' : World) : Prop where
  /-- The left contents stay. -/
  left : w.left.Le w'.left
  /-- The right contents stay. -/
  right : w.right.Le w'.right

theorem World.Le.refl (w : World) : w.Le w := ⟨.refl _, .refl _⟩

theorem World.Le.trans {w w' w'' : World} (h : w.Le w') (h' : w'.Le w'') : w.Le w'' :=
  ⟨h.left.trans h'.left, h.right.trans h'.right⟩

/-- The states differ in how the elements that are left are kept. The elements are data. -/
inductive Same (w : World) (x : Elements) : State Value → State Value → Prop where
  | plain {i j : Stream Value} {r r' : Nat} {watched : Bool} {position : Int} {user : Value} :
      w.left.Holds r i x → w.right.Holds r' j x → (∀ v ∈ x, v.Settled) →
      Same w x (.plain watched i position user) (.plain watched j position user)

/-- The contents fit the stores, and what belongs together lies beside them. -/
structure Stores (k : Pairing) (w : World) (σ τ : Store W) : Prop where
  /-- The left contents fit. -/
  left : w.left.Fits (fun _ => False) σ
  /-- The right contents fit. -/
  right : w.right.Fits (fun _ => False) τ
  /-- What belongs together lies beside the left contents. -/
  leftApart : ∀ i, k.left i → w.left.tails i = none
  /-- It lies beside the right contents. -/
  rightApart : ∀ j, k.right j → w.right.tails j = none

/-- Both states are about to move past their tokens. -/
inductive Moves (w : World) : (Continuation W → Task W) → (Continuation W → Task W) → Prop where
  | settle {x : Elements} {s t : State Value} : Same w x s t →
      Moves w (fun k => .settle s k) (fun k => .settle t k)

/-- Runs that start in states whose streams hold the same elements. -/
def setting (W : Type) : Setting W where
  World := World
  Le := World.Le
  During := World.Le
  Stores := Stores
  States w s t := ∃ x, Same w x s t
  Occupied w s t := ∃ v x, Same w (.cons v x) s t
  Moving := Moves
  Pausing _ _ _ _ := False

theorem Same.mono {w w' : World} {x : Elements} {s t : State Value} (hle : w.Le w')
    (h : Same w x s t) : Same w' x s t := by
  cases h with
  | plain hi hj hx =>
    exact .plain (hi.mono hle.left (Nat.le_refl _)) (hj.mono hle.right (Nat.le_refl _)) hx

/-! ## Reading side by side -/

/-- What belongs together is not touched where streams are read. -/
theorem agree_of_moves {k : Pairing} {w u : World} {σ σ' τ τ' : Store W} (agree : k.Agree σ τ)
    (hs : Stores k w σ τ)
    (left : Contents.Moves (fun _ => False) (fun _ => False) w.left σ u.left σ')
    (right : Contents.Moves (fun _ => False) (fun _ => False) w.right τ u.right τ') :
    k.Agree σ' τ' where
  tails i j hij := by
    obtain ⟨m, n, hm, hn, thunk, slot⟩ := agree.tails i j hij
    have hi := left.tails i (Array.getElem?_eq_some_iff.mp hm).1 (hs.leftApart i ⟨j, hij⟩)
    have hj := right.tails j (Array.getElem?_eq_some_iff.mp hn).1 (hs.rightApart j ⟨i, hij⟩)
    exact ⟨m, n, hi.2.trans hm, hj.2.trans hn, thunk, slot⟩
  tailsUnique := agree.tailsUnique
  parsers := by
    rw [left.rest, right.rest]
    exact agree.parsers
  parsersUnique := agree.parsersUnique
  logging := by
    rw [left.rest, right.rest]
    exact agree.logging

variable {w : (setting W).correspondence.World}

/-- Both sides find what their contents tell. -/
theorem runs_of_finds {A : Contents → α → Prop} {B : Contents → β → Prop}
    {Q : World → α → β → Prop} {x : Eval W α} {y : Eval W β}
    (hx : w.2.left.Finds (fun _ => False) x A) (hy : w.2.right.Finds (fun _ => False) y B)
    (hQ : ∀ w' a b, w.2.Le w' → A w'.left a → B w'.right b → Q w' a b) :
    (setting W).correspondence.Runs w (fun w' => Q w'.2) x y := by
  rintro ⟨k, v⟩ σ τ r ⟨-, hle⟩ ⟨agree, hs⟩ hr
  have hle : w.2.Le v := hle
  have hs : Stores k v σ τ := hs
  obtain ⟨a, κ, σ', hx, left, fits, ha⟩ := hx v.left σ hle.left hs.left
  obtain ⟨b, κ', τ', hy, right, fits', hb⟩ := hy v.right τ hle.right hs.right
  cases hr.unique hx
  let v' : World := ⟨κ, κ'⟩
  have grows : v.Le v' := ⟨left.le, right.le⟩
  have agree' : k.Agree σ' τ' := agree_of_moves (u := v') agree hs left right
  refine ⟨.ok b τ', hy, (k, v'), ⟨.refl k, grows⟩, ⟨agree', fits, fits', ?_, ?_⟩,
    hQ v' a b (hle.trans grows) ha hb⟩
  -- Tails that belong together are apart from what the contents speak of, and stay so.
  · rintro i ⟨j, hij⟩
    obtain ⟨m, n, hm, hn, -⟩ := agree.tails i j hij
    exact (left.tails i (Array.getElem?_eq_some_iff.mp hm).1 (hs.leftApart i ⟨j, hij⟩)).1
  · rintro j ⟨i, hij⟩
    obtain ⟨m, n, hm, hn, -⟩ := agree.tails i j hij
    exact (right.tails j (Array.getElem?_eq_some_iff.mp hn).1 (hs.rightApart j ⟨i, hij⟩)).1

/-- There is a token on both sides or on none. -/
theorem runs_isEmpty {x : Elements} {s t : State Value} (h : Same w.2 x s t) :
    (setting W).correspondence.Runs w
      (fun w' a b => a = b ∧ (a = false → (setting W).Occupied w'.2 s t))
      s.input.isEmpty t.input.isEmpty := by
  cases h with
  | plain hi hj hx =>
    refine runs_of_finds (Q := fun v a b => a = b ∧ (a = false → (setting W).Occupied v _ _))
      hi.readable.isEmpty hj.readable.isEmpty fun v a b hle ha hb => ?_
    refine ⟨Bool.eq_iff_iff.mpr (ha.trans hb.symm), ?_⟩
    rintro rfl
    cases x using Stream'.Seq.recOn with
    | nil => exact absurd (ha.mpr rfl) Bool.false_ne_true
    | cons u y => exact ⟨u, y, Same.mono hle (.plain hi hj hx)⟩

/-- The first tokens are the same. -/
theorem runs_first {v : Value} {x : Elements} {s t : State Value} (h : Same w.2 (.cons v x) s t) :
    (setting W).correspondence.Runs w (setting W).correspondence.Tokens s.input.first
      t.input.first := by
  cases h with
  | plain hi hj hx =>
    refine runs_of_finds (Q := fun _ (v u : Value) => v = u ∧ v.Settled)
      (hi.readable.first v x rfl)
      (hj.readable.first v x rfl) fun w' a b _ ha hb => ?_
    subst ha hb
    exact ⟨rfl, hx _ (Stream'.Seq.mem_cons _ _)⟩

/-- Both sides look up the state behind the token. -/
theorem runs_next {v : Value} {x : Elements} {s t : State Value} (h : Same w.2 (.cons v x) s t)
    (a b : Value) (k l : Continuation W) : (setting W).correspondence.Runs w
      (fun w' y z => ∃ m m', Moves w'.2 m m' ∧ y = m k ∧ z = m' l) (s.next a k) (t.next b l) := by
  cases h with
  | plain hi hj hx =>
    refine runs_of_finds (Q := fun w' y z => ∃ m m', Moves w' m m' ∧ y = m k ∧ z = m' l)
      (Contents.finds_next (Contents.above_none _ _) hi _ _ a k)
      (Contents.finds_next (Contents.above_none _ _) hj _ _ b l) fun w' y z hle hy hz => ?_
    obtain ⟨i', rfl, hi'⟩ := hy
    obtain ⟨j', rfl, hj'⟩ := hz
    refine ⟨_, _, .settle (x := x) (.plain hi' hj' fun u hu => ?_), rfl, rfl⟩
    exact hx u (Stream'.Seq.mem_cons_of_mem _ hu)

/-- Both sides arrive there. -/
theorem runs_moving {m m' : Continuation W → Task W} (h : Moves w.2 m m') (k l : Continuation W) :
    (setting W).correspondence.Runs w
      (fun w' y z => (setting W).correspondence.Arrives w' k l y z) (m k).step (m' l).step := by
  cases h with
  | @settle x s t h =>
    have step {κ : Contents} (s : State Value) (k : Continuation W) : κ.Finds (fun _ => False)
        (Task.step (.settle s k)) fun _ y => y = .tail (.arrive s k) :=
      Contents.finds_bind (Contents.finds_debug _) fun _ _ _ _ =>
        Contents.finds_pure fun _ _ => rfl
    have arrives := runs_of_finds (w := w) (Q := fun v y z => (∃ x, Same v x s t) ∧
      y = Step.tail (Task.arrive s k) ∧ z = Step.tail (Task.arrive t l)) (step s k) (step t l)
      fun v y z hle hy hz => ⟨⟨x, h.mono hle⟩, hy, hz⟩
    intro w₁ σ τ r hle hs hr
    obtain ⟨r', hr', ends⟩ := arrives w₁ σ τ r hle hs hr
    exact ⟨r', hr', ends.imp fun w' y z _ _ _ h => .inl ⟨s, t, h⟩⟩

/-- Runs over streams with the same elements correspond. -/
theorem lawful (W : Type) : (setting W).Lawful where
  refl w := .refl w
  trans h h' := h.trans h'
  during_trans h h' := h.trans h'
  le h := h
  states_mono := by
    rintro w w' s t hle ⟨x, h⟩
    exact ⟨x, h.mono hle⟩
  occupied_mono := by
    rintro w w' s t hle ⟨v, x, h⟩
    exact ⟨v, x, h.mono hle⟩
  moving_mono := by
    rintro w w' _ _ hle ⟨h⟩
    exact .settle (h.mono hle)
  position := by
    rintro w s t ⟨x, h⟩
    cases h
    rfl
  aside := by
    intro k l w σ τ σ' τ' _ hs reach
    have hs : Stores k w σ τ := hs
    exact ⟨hs.left.aside hs.leftApart reach.left, hs.right.aside hs.rightApart reach.right,
      hs.left.apart hs.leftApart reach.left, hs.right.apart hs.rightApart reach.right⟩
  isEmpty := by
    rintro w s t ⟨x, h⟩
    exact runs_isEmpty h
  first := by
    rintro w s t ⟨v, x, h⟩
    exact runs_first h
  next := by
    rintro w s t ⟨v, x, h⟩ a b k l
    exact runs_next h a b k l
  moving h k l := runs_moving h k l

end Storage

end ResumableParsing
