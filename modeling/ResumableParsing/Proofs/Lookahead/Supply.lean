import ResumableParsing.Proofs.Lookahead.Avoidance

/-!
# How far an iterator has been read

The cells of a stream that is read from an iterator are numbered. The iterator has been asked once
for each cell that is known, so it has been asked `k` times when the first `k` cells are known. To
look at the cell with the number `j` asks it at most once, and only if all cells before that one are
known.

* `Reached`, `Front`: the cells of the stream, and how many of them are known
* `Supply`, `Supply.Drawn`: an iterator, and how often it has been asked
* `Supply.Allows`: computations that look no further than a cell
* `Supply.Drawn.force`: looking at a cell
-/

namespace ResumableParsing

variable {W α β : Type}

/-! ## The cells of a stream -/

/-- The cell with the number `j`, counted from the first one. Here `view` says what is known of the
cells. -/
inductive Reached (view : CellId → Option CellSlot) (first : CellId) : Nat → CellId → Prop where
  | first : Reached view first 0 first
  | next {j : Nat} {c d : CellId} : Reached view first j c → Leads view c d →
      Reached view first (j + 1) d

/-- The cell with the number `k` has not been asked, and the cells before it are known; or one of
them is the end. -/
def Front (view : CellId → Option CellSlot) (first : CellId) (k : Nat) : Prop :=
  ∀ j c, Reached view first j c →
    view c = some .unset ∧ k = j ∨ view c = some (.known none) ∨ ∃ d, Leads view c d

section

variable {view : CellId → Option CellSlot} {first c d : CellId} {i j k : Nat} {v : Value}

theorem Leads.unique (h : Leads view c d) {e : CellId} (h' : Leads view c e) : d = e := by
  obtain ⟨v, hd⟩ := h
  obtain ⟨w, he⟩ := h'
  cases hd.symm.trans he
  rfl

/-- Cells have numbers of their own. -/
theorem Reached.unique (h : Reached view first j c) (h' : Reached view first j d) : c = d := by
  induction j generalizing c d with
  | zero =>
    cases h
    cases h'
    rfl
  | succ j ih =>
    cases h with
    | next h leads =>
      cases h' with
      | next h' leads' =>
        cases ih h h'
        exact leads.unique leads'

theorem Reached.mono {view' : CellId → Option CellSlot}
    (known : ∀ c o, view c = some (.known o) → view' c = some (.known o))
    (h : Reached view first j c) : Reached view' first j c := by
  induction h with
  | first => exact .first
  | next _ leads ih =>
    obtain ⟨v, hv⟩ := leads
    exact .next ih ⟨v, known _ _ hv⟩

/-- A new stream has one cell. -/
theorem front_new (h : view first = some .unset) : Front view first 0 := by
  -- Nothing is known of the first cell, so there is no other one.
  have only {j : Nat} {c : CellId} (reached : Reached view first j c) : c = first ∧ j = 0 := by
    induction reached with
    | first => exact ⟨rfl, rfl⟩
    | next _ leads ih =>
      obtain ⟨v, hv⟩ := leads
      rw [ih.1, h] at hv
      cases hv
  intro j c reached
  obtain ⟨rfl, rfl⟩ := only reached
  exact .inl ⟨h, rfl⟩

/-- A cell that has not been asked has the number `k`. -/
theorem Front.number (h : Front view first k) (hc : Reached view first j c)
    (unset : view c = some .unset) : k = j := by
  rcases h j c hc with ⟨-, eq⟩ | ended | ⟨d, v, leads⟩
  · exact eq
  · cases unset.symm.trans ended
  · cases unset.symm.trans leads

/-- There is at most one such cell. -/
theorem Front.single (h : Front view first k) (hc : Reached view first j c)
    (unset : view c = some .unset) (hd : Reached view first i d) (unset' : view d = some .unset) :
    d = c := by
  obtain rfl : i = j := (h.number hd unset').symm.trans (h.number hc unset)
  exact hd.unique hc

/-- Cells of the stream are there. -/
theorem Front.there (h : Front view first k) (hc : Reached view first j c) : view c ≠ none := by
  intro none
  rcases h j c hc with ⟨unset, -⟩ | ended | ⟨d, v, leads⟩
  · cases none.symm.trans unset
  · cases none.symm.trans ended
  · cases none.symm.trans leads

/-- The cell has taken an element, and another one has been made for what comes after it. -/
theorem Front.take (h : Front view first k) (hc : Reached view first j c)
    (unset : view c = some .unset) (hd : view d = none) (v : Value) :
    Front (Function.update (Function.update view c (some (.known (some (v, .pulled d))))) d
      (some .unset)) first (k + 1) := by
  generalize hview : Function.update (Function.update view c _) d _ = view'
  have ne : c ≠ d := by
    rintro rfl
    exact h.there hc hd
  have at_c : view' c = some (.known (some (v, .pulled d))) := by
    rw [← hview, Function.update_of_ne ne, Function.update_self]
  have at_d : view' d = some .unset := by rw [← hview, Function.update_self]
  have other {e : CellId} (hec : e ≠ c) (hed : e ≠ d) : view' e = view e := by
    rw [← hview, Function.update_of_ne hed, Function.update_of_ne hec]
  have inside {i : Nat} {e : CellId} (he : Reached view first i e) : e ≠ d := by
    rintro rfl
    exact h.there he hd
  -- The new cell is the only one that has come to the stream.
  have reached {i : Nat} {e : CellId} (he : Reached view' first i e) :
      Reached view first i e ∨ e = d ∧ i = k + 1 := by
    -- Cells before `c` lead where they led. Now `c` leads to the new cell, and that one nowhere.
    induction he with
    | first => exact .inl .first
    | @next i e e' _ leads ih =>
      obtain ⟨w, hw⟩ := leads
      rcases ih with he | ⟨rfl, -⟩
      · by_cases hec : e = c
        · subst hec
          cases at_c.symm.trans hw
          exact .inr ⟨rfl, by rw [h.number he unset]⟩
        · exact .inl (.next he ⟨w, (other hec (inside he)).symm.trans hw⟩)
      · cases at_d.symm.trans hw
  intro i e he
  rcases reached he with he | ⟨rfl, rfl⟩
  · by_cases hec : e = c
    · exact .inr (.inr ⟨d, v, hec ▸ at_c⟩)
    · rw [other hec (inside he)]
      rcases h i e he with ⟨unset', -⟩ | ended | ⟨e', w, hw⟩
      · exact absurd (h.single hc unset he unset') hec
      · exact .inr (.inl ended)
      · exact .inr (.inr ⟨e', w, (other hec (inside he)).trans hw⟩)
  · exact .inl ⟨at_d, rfl⟩

/-- The cell has found the end. -/
theorem Front.finish (h : Front view first k) (hc : Reached view first j c)
    (unset : view c = some .unset) (k' : Nat) :
    Front (Function.update view c (some (.known none))) first k' := by
  generalize hview : Function.update view c (some (.known none)) = view'
  have at_c : view' c = some (.known none) := by rw [← hview, Function.update_self]
  have other {e : CellId} (hec : e ≠ c) : view' e = view e := by
    rw [← hview, Function.update_of_ne hec]
  have back {i : Nat} {e : CellId} (he : Reached view' first i e) : Reached view first i e := by
    induction he with
    | first => exact .first
    | @next i e e' _ leads ih =>
      obtain ⟨w, hw⟩ := leads
      -- The end leads nowhere, so the way to `e` has not come past it.
      refine .next ih ⟨w, (other ?_).symm.trans hw⟩
      rintro rfl
      cases at_c.symm.trans hw
  intro i e he
  by_cases hec : e = c
  · exact .inr (.inl (hec ▸ at_c))
  · rw [other hec]
    rcases h i e (back he) with ⟨unset', -⟩ | ended | ⟨e', w, hw⟩
    · exact absurd (h.single hc unset (back he) unset') hec
    · exact .inr (.inl ended)
    · exact .inr (.inr ⟨e', w, (other hec).trans hw⟩)

end

/-! ## Iterators -/

/-- An iterator that does not walk along a stream, and a stream that is read from it. -/
structure Supply (W : Type) where
  /-- The iterator. -/
  source : IteratorId
  /-- What it is when the stream is made. -/
  start : Iterator W
  /-- It is not a walk. -/
  plain : start.Plain
  /-- The first cell of the stream. -/
  first : CellId
  /-- The position of a state before the first cell. -/
  position : Int

/-- What has been found out goes on to be so. -/
structure Store.Onward (it : IteratorId) (σ τ : Store W) : Prop where
  /-- Deferred parts are computed in the same way. -/
  retains : σ.Retains τ
  /-- Parsers do what they did. -/
  continues : σ.Continues τ
  /-- Of the cells of the iterator no less is known. -/
  known : ∀ c o, σ.over it c = some (.known o) → τ.over it c = some (.known o)

namespace Supply

variable (S : Supply W)

/-- The cell of the stream with the number `j`. -/
abbrev At (σ : Store W) (j : Nat) (c : CellId) : Prop := Reached (σ.over S.source) S.first j c

/-- The iterator after `k` questions. -/
def after (k : Nat) : Iterator W := Iterator.moved^[k] S.start

/-- The iterator has been asked `k` times. -/
def Asked (k : Nat) (σ : Store W) : Prop := σ.iterators[S.source.index]? = some (S.after k)

/-- It has been asked `k` times, once for each cell that is known, and nobody else can ask it. -/
structure Drawn (k : Nat) (σ : Store W) : Prop where
  /-- Nothing else leads to it. -/
  alone : σ.Private S.source
  /-- It has been asked. -/
  asked : S.Asked k σ
  /-- So many cells are known. -/
  front : Front (σ.over S.source) S.first k

/-- It raises no faults. -/
def Reliable : Prop := ∀ k w e, ((S.after k).answer w).1 ≠ .error e

/-- The computation starts when the iterator has been asked `k` times. It looks no further than the
cell with the number `j`, and what it gives has the property `Q`. -/
def Allows (j k : Nat) (Q : Store W → α → Prop) (σ : Store W) :
    EStateM.Result Stop (Store W) α → Prop
  | .ok a τ => σ.Onward S.source τ ∧ (∃ k' ≤ max k (j + 1), S.Drawn k' τ) ∧ Q τ a
  | .error _ τ => σ.Onward S.source τ ∧
      ∃ k' ≤ max k (j + 1), S.Asked k' τ ∧ (S.Reliable → S.Drawn k' τ)

end Supply

section

variable {it : IteratorId} {σ τ υ : Store W} {S : Supply W} {j k : Nat} {c : CellId}
  {m : Means W} {Q R : Store W → α → Prop} {Q' : Store W → β → Prop}

theorem Store.Onward.refl (it : IteratorId) (σ : Store W) : σ.Onward it σ :=
  ⟨.refl σ, .refl σ, fun _ _ h => h⟩

theorem Store.Onward.trans (h : σ.Onward it τ) (h' : τ.Onward it υ) : σ.Onward it υ where
  retains := h.retains.trans h'.retains
  continues := h.continues.trans h'.continues
  known c o hc := h'.known c o (h.known c o hc)

theorem Store.Grows.onward (h : σ.Grows τ) : σ.Onward it τ :=
  ⟨h.retains, h.parsers, fun _ _ hc => h.over hc⟩

theorem Store.Untouched.onward (h : σ.Untouched it τ) : σ.Onward it τ :=
  ⟨h.retains, h.continues, fun c _ hc => (congrFun h.view c).trans hc⟩

namespace Supply

theorem At.later (h : S.At σ j c) (k : σ.Onward S.source τ) : S.At τ j c := h.mono k.known

theorem Drawn.untouched (h : S.Drawn k σ) (k' : σ.Untouched S.source τ) : S.Drawn k τ where
  alone := k'.alone
  asked := k'.same.trans h.asked
  front := k'.view ▸ h.front

/-! ### Computations -/

theorem allows_pure {a : α} (h : S.Drawn k σ) (ha : Q σ a) :
    S.Allows j k Q σ ((pure a : Eval W α) m σ) :=
  ⟨.refl _ σ, ⟨k, Nat.le_max_left .., h⟩, ha⟩

theorem allows_get (h : S.Drawn k σ) :
    S.Allows j k (fun τ σ' => σ' = τ) σ ((get : Eval W (Store W)) m σ) :=
  ⟨.refl _ σ, ⟨k, Nat.le_max_left .., h⟩, rfl⟩

theorem allows_throw (h : S.Drawn k σ) (e : Stop) :
    S.Allows j k Q σ ((throw e : Eval W α) m σ) :=
  ⟨.refl _ σ, k, Nat.le_max_left .., h.asked, fun _ => h⟩

theorem allows_bind {x : Eval W α} {f : α → Eval W β} (hx : S.Allows j k Q σ (x m σ))
    (hf : ∀ a τ k', k' ≤ max k (j + 1) → σ.Onward S.source τ → S.Drawn k' τ → Q τ a →
      S.Allows j k' Q' τ (f a m τ)) : S.Allows j k Q' σ ((x >>= f) m σ) := by
  rw [Eval.run_bind]
  -- A fault keeps what has been asked so far.
  cases h : x m σ with
  | error e τ =>
    rw [h] at hx
    exact hx
  | ok a τ =>
    rw [h] at hx
    obtain ⟨onward, ⟨k₁, le₁, drawn⟩, ha⟩ := hx
    have next := hf a τ k₁ le₁ onward drawn ha
    change S.Allows j k Q' σ (f a m τ)
    cases h' : f a m τ with
    | error e υ =>
      rw [h'] at next
      obtain ⟨onward', k₂, le₂, asked⟩ := next
      exact ⟨onward.trans onward', k₂, by omega, asked⟩
    | ok b υ =>
      rw [h'] at next
      obtain ⟨onward', ⟨k₂, le₂, drawn'⟩, hb⟩ := next
      exact ⟨onward.trans onward', ⟨k₂, by omega, drawn'⟩, hb⟩

theorem Allows.imp {y : EStateM.Result Stop (Store W) α} (h : S.Allows j k Q σ y)
    (hQ : ∀ τ a, σ.Onward S.source τ → Q τ a → R τ a) : S.Allows j k R σ y := by
  cases y with
  | ok a τ => exact ⟨h.1, h.2.1, hQ τ a h.1 h.2.2⟩
  | error e τ => exact h

/-- A computation that leaves the iterator alone looks at none of its cells. -/
theorem Drawn.allows (h : S.Drawn k σ) {y : EStateM.Result Stop (Store W) α}
    (hy : S.source.Spared Q σ y) : S.Allows j k Q σ y := by
  cases y with
  | ok a τ => exact ⟨hy.1.onward, ⟨k, Nat.le_max_left .., h.untouched hy.1⟩, hy.2⟩
  | error e τ =>
    have drawn := h.untouched hy
    exact ⟨hy.onward, k, Nat.le_max_left .., drawn.asked, fun _ => drawn⟩

/-! ### Looking at a cell -/

theorem after_succ (S : Supply W) (k : Nat) : S.after (k + 1) = (S.after k).moved :=
  Function.iterate_succ_apply' ..

theorem plain_after (S : Supply W) (k : Nat) : (S.after k).Plain := by
  induction k with
  | zero => exact S.plain
  | succ k ih =>
    rw [S.after_succ]
    exact ih.moved

/-- The iterator is asked while a cell is filled. -/
theorem Drawn.respond (h : S.Drawn k σ) (unset : σ.over S.source c = some .unset) (n : Nat) :
    ∃ a υ, S.source.next.exec n (c.busy σ) = answered a υ ∧ υ.Private S.source ∧
      S.Asked (k + 1) υ ∧ υ.over S.source = Function.update (σ.over S.source) c (some .busy) ∧
      (∀ v, a = .ok (some v) → v.Avoids S.source υ) ∧ ∀ e, a = .error e → ¬S.Reliable := by
  have found : σ.cells[c.index]? = some ⟨S.source, .unset⟩ := Store.over_eq_some.mp unset
  have busy : (c.busy σ).Private S.source := h.alone.putCell found .busy fun _ _ e => by cases e
  -- The iterator is plain, so it moves before it answers, and no other one is asked.
  have asked : S.Asked k (c.busy σ) := h.asked
  let υ : Store W := { c.busy σ with
    iterators := (c.busy σ).iterators.modify S.source.index Iterator.moved
    world := ((S.after k).answer (c.busy σ).world).2 }
  have moved := busy.alterIterator S.source fun _ => Iterator.Avoids.moved
  have alone : υ.Private S.source := (moved.aside (τ := υ) rfl rfl rfl (.refl _)).alone
  have asked' : S.Asked (k + 1) υ := by
    change ((c.busy σ).iterators.modify S.source.index Iterator.moved)[S.source.index]? = _
    rw [Array.getElem?_modify, if_pos rfl, asked, S.after_succ]
    rfl
  refine ⟨_, υ, exec_next asked (S.plain_after k) n, alone, asked', Store.over_busy unset,
    fun v e => ?_, fun e failed reliable => reliable k _ e failed⟩
  have retains : (c.busy σ).Retains υ := ⟨fun _ m hm => ⟨m, hm, rfl⟩, fun _ m hm => ⟨m, hm, rfl⟩⟩
  exact ((busy.iterators _ _ asked).answer e).later retains

/-- The cell with the number `k` is filled. -/
theorem Drawn.fill (h : S.Drawn k σ) (hc : S.At σ k c) (unset : σ.over S.source c = some .unset)
    (n : Nat) :
    match Shelf.cells.settle c.index ((S.source.pull : Eval W _).exec n (c.busy σ)) with
    | .ok o τ => S.Drawn (k + 1) τ ∧ τ.over S.source c = some (.known o)
    | .error _ τ => S.Asked (k + 1) τ ∧ ¬S.Reliable := by
  obtain ⟨a, υ, next, alone, asked, view, avoids, fails⟩ := h.respond unset n
  have at_c : υ.over S.source c = some .busy := by rw [view, Function.update_self]
  have found : υ.cells[c.index]? = some ⟨S.source, .busy⟩ := Store.over_eq_some.mp at_c
  rw [Eval.exec] at next ⊢
  rw [IteratorId.pull, Eval.run_bind, next]
  cases a with
  | error e => exact ⟨asked, fails e rfl⟩
  | ok o =>
    cases o with
    | none =>
      have view' : (Shelf.cells.put c.index (.known none) υ).over S.source =
          Function.update (σ.over S.source) c (some (.known none)) := by
        rw [Store.over_put at_c, view, Function.update_idem]
      have ended := alone.putCell found (.known none) fun _ _ e => by cases e
      change S.Drawn (k + 1) (Shelf.cells.put c.index (.known none) υ) ∧
        (Shelf.cells.put c.index (.known none) υ).over S.source c = _
      refine ⟨⟨ended, asked, ?_⟩, ?_⟩
      · rw [view']
        exact h.front.finish hc unset _
      · rw [view', Function.update_self]
    | some v =>
      -- A cell is made for what comes after the element.
      let d : CellId := ⟨υ.cells.size⟩
      let pushed : Store W := { υ with cells := υ.cells.push ⟨S.source, .unset⟩ }
      have fresh : υ.over S.source d = none := υ.over_size S.source
      have ne : c ≠ d := by
        rintro e
        rw [← e, at_c] at fresh
        cases fresh
      have later : pushed.over S.source c = some .busy := by
        rw [Store.over_push, Function.update_of_ne ne, at_c]
      have view' : (Shelf.cells.put c.index (.known (some (v, .pulled d))) pushed).over S.source =
          Function.update (Function.update (σ.over S.source) c
            (some (.known (some (v, .pulled d))))) d (some .unset) := by
        rw [Store.over_put later, Store.over_push, view, Function.update_comm ne,
          Function.update_idem, Function.update_comm ne.symm]
      have before : σ.over S.source d = none := by
        rw [view, Function.update_of_ne ne.symm] at fresh
        exact fresh
      have grown : υ.Retains pushed := (Store.Adds.pushCell υ S.source).toGrows.retains
      have filled := (alone.pushCell S.source).putCell (Store.over_eq_some.mp later)
        (.known (some (v, .pulled d))) fun u t e => by
          cases e
          exact ⟨(avoids v rfl).later grown, fun other => absurd rfl other⟩
      change S.Drawn (k + 1) (Shelf.cells.put c.index (.known (some (v, .pulled d))) pushed) ∧
        (Shelf.cells.put c.index (.known (some (v, .pulled d))) pushed).over S.source c = _
      refine ⟨⟨filled, asked, ?_⟩, ?_⟩
      · rw [view']
        exact h.front.take hc unset before v
      · rw [view', Function.update_of_ne ne, Function.update_self]

/-- Looking at the cell with the number `j` asks the iterator at most once, and only if all cells
before it are known. -/
theorem Drawn.force (h : S.Drawn k σ) (hc : S.At σ j c) (n : Nat) :
    S.Allows j k (fun τ o => τ.over S.source c = some (.known o)) σ
    (forceWithin n (.cell c) σ) := by
  cases n with
  | zero => exact allows_throw (m := .within 0) h _
  | succ n =>
    have onward : σ.Onward S.source (left (forceWithin (n + 1) (.cell c) σ)) :=
      (force_grow (n + 1) (.cell c) σ).onward
    have known {o : Option (Value × Stream Value)} (hk : σ.over S.source c = some (.known o)) :
        S.Allows j k (fun τ o => τ.over S.source c = some (.known o)) σ
          (forceWithin (n + 1) (.cell c) σ) := by
      have run : forceWithin (n + 1) (.cell c) σ = .ok o σ :=
        Shelf.get_known (Store.over_eq_some.mp hk)
      rw [run]
      exact ⟨.refl _ σ, ⟨k, Nat.le_max_left .., h⟩, hk⟩
    rcases h.front j c hc with ⟨unset, rfl⟩ | ended | ⟨d, v, leads⟩
    · -- All cells before this one are known, so the iterator has been asked once for each of them.
      have filled := h.fill hc unset n
      have run : forceWithin (n + 1) (.cell c) σ =
          Shelf.cells.settle c.index ((S.source.pull : Eval W _).exec n (c.busy σ)) :=
        Shelf.get_unset (Store.over_eq_some.mp unset)
      have le : k + 1 ≤ max k (k + 1) := Nat.le_max_right ..
      rw [run] at onward ⊢
      cases e : Shelf.cells.settle c.index ((S.source.pull : Eval W _).exec n (c.busy σ)) with
      | ok o τ =>
        rw [e] at filled onward
        exact ⟨onward, ⟨k + 1, le, filled.1⟩, filled.2⟩
      | error f τ =>
        rw [e] at filled onward
        exact ⟨onward, k + 1, le, filled.1, fun reliable => absurd reliable filled.2⟩
    · exact known ended
    · exact known leads

end Supply

end

end ResumableParsing
