import ResumableParsing.Proofs.Store.Operations

/-!
# The computations of the library

Every computation of the library is put together from changes that keep what is known. So the
store only grows, and larger bounds change no outcome that is there; both hold of deferred parts,
however deeply they are nested, and then of everything else.

* `composed_step`, `composed_action`, `composed_finish` and so on: the computations
* `within_grow`, `within_le`: deferred parts
* `Composed.grows_within`, `Composed.patient_within`: all computations
-/

namespace ResumableParsing

variable {W α : Type}

/-! ## Streams -/

theorem composed_isEmpty (s : Stream Value) : Composed (s.isEmpty : Eval W Bool) :=
  (regular_isEmpty s).composed

theorem composed_first (s : Stream Value) : Composed (s.first : Eval W Value) :=
  (regular_first s).composed

theorem composed_rest (s : Stream Value) : Composed (s.rest : Eval W (Stream Value)) :=
  (regular_rest s).composed

theorem composed_consCell (v : Value) (t : Stream Value) :
    Composed (Stream.consCell v t : Eval W (Stream Value)) :=
  (regular_consCell v t).composed

theorem composed_lazyCell (v : Value) (t : Tail W) : Composed (Stream.lazyCell v t) :=
  (regular_lazyCell v t).composed

theorem composed_append (a b : Stream Value) : Composed (a.append b : Eval W (Stream Value)) :=
  (regular_append a b).composed

theorem composed_ofIterator (it : IteratorId) :
    Composed (Stream.ofIterator it : Eval W (Stream Value)) :=
  (regular_ofIterator it).composed

theorem composed_ofValue (v : Value) : Composed (Stream.ofValue v : Eval W (Stream Value)) :=
  (regular_ofValue v).composed

theorem composed_asStream (s : Source) : Composed (s.asStream : Eval W (Stream Value)) :=
  (regular_asStream s).composed

theorem composed_toListFrom (n : Nat) (done : List Value) (s : Stream Value) :
    Composed (Stream.toListFrom n done s : Eval W (List Value)) :=
  (regular_toListFrom n done s).composed

theorem composed_toList (s : Stream Value) : Composed (s.toList : Eval W (List Value)) :=
  (regular_toList s).composed

/-! ## Iterators -/

theorem composed_next (it : IteratorId) : Composed (it.next : Eval W (Option Value)) :=
  (regular_next it).composed

theorem composed_pull (it : IteratorId) :
    Composed (it.pull : Eval W (Option (Value × Stream Value))) :=
  (regular_pull it).composed

/-! ## States -/

theorem composed_inChunk (n : Int) (s : State Value) :
    Composed (State.inChunk n s : Eval W (State Value)) :=
  (regular_inChunk n s).composed

theorem composed_alterState (f : Bool → Stream Value → Int → Value → State Value)
    (s : State Value) : Composed (s.alter f : Eval W (State Value)) :=
  (regular_alterState f s).composed

theorem composed_advance (s : State Value) : Composed (s.advance : Eval W (State Value)) :=
  (regular_advance s).composed

theorem composed_memory (a : AdvanceId) : Composed (a.memory : Eval W Advance) :=
  (regular_memory a).composed

theorem composed_alter (a : AdvanceId) (f : Advance → Advance) :
    Composed (a.alter f : Eval W Unit) :=
  (regular_alter a f).composed

theorem composed_remember (a : AdvanceId) (n : Int) (inner : State Value) :
    Composed (a.remember n inner : Eval W Unit) :=
  (regular_remember a n inner).composed

/-! ## Actions of the caller -/

theorem composed_action (a : Action W α) : Composed a.run :=
  (regular_action a).composed

/-! ## Steps of a parse -/

theorem composed_build (g : Grammar W) : Composed (Eval.ofBuild g.build) :=
  (regular_build g).composed

theorem composed_go (m : Advance) (n : Int) (k : Continuation W) : Composed (m.go n k) :=
  (regular_go m n k).composed

theorem composed_enter (b : Body W) (s : State Value) (k : Continuation W) :
    Composed (b.enter s k) :=
  (regular_enter b s k).composed

theorem composed_join (c : Combine) (v w : Value) : Composed (c.join v w : Eval W Value) :=
  (regular_join c v w).composed

theorem composed_startLogged (p : ParserId) (s : State Value) (k : Continuation W) :
    Composed (Task.startLogged p s k) :=
  (regular_startLogged p s k).composed

theorem composed_step (t : Task W) : Composed t.step :=
  (regular_step t).composed

/-! ## Runs -/

theorem composed_complete (t : Task W) : Composed t.complete :=
  (regular_complete t).composed

theorem composed_resumed (r : Request W) (chunk : Stream Value) : Composed (r.resume chunk) :=
  (regular_resumed r chunk).composed

theorem composed_parseState (p : ParserId) (s : State Value) :
    Composed (p.parseState s : Eval W (Except (Request W) Value)) :=
  (regular_parseState p s).composed

/-! ## Sessions -/

theorem composed_session (i : SessionId) : Composed (i.session : Eval W (Session W)) :=
  (regular_session i).composed

theorem composed_contents (h : History) : Composed (h.contents : Eval W _) :=
  (regular_contents h).composed

theorem composed_appendChunk (h : History) (chunk : Stream Value) :
    Composed (h.append chunk : Eval W History) :=
  (regular_appendChunk h chunk).composed

theorem composed_chunk (h : History) (i : Int) :
    Composed (h.chunk i : Eval W (Stream Value)) :=
  (regular_chunk h i).composed

theorem composed_replayFor (chunks : History) (n : Nat) (f : Finish W) :
    Composed (Finish.replay chunks n f) :=
  (regular_replayFor chunks n f).composed

theorem composed_replay (chunks : History) (f : Finish W) :
    Composed (do Finish.replay chunks (← read).steps f) :=
  (regular_replay chunks f).composed

theorem composed_makeResult (a : Action W Value) : Composed (ResultId.make a) :=
  (regular_makeResult a).composed

theorem composed_stage (handlers : Handlers W) (chunks : History) (f : Finish W) :
    Composed (f.stage handlers chunks) :=
  (regular_stage handlers chunks f).composed

theorem composed_makeSession (s : Session W) : Composed (SessionId.make s) :=
  (regular_makeSession s).composed

theorem composed_forceProvide (chunk : Source) (i : SessionId) :
    Composed (i.forceProvide chunk : Eval W SessionId) :=
  (regular_forceProvide chunk i).composed

theorem composed_provide (chunk : Source) (i : SessionId) :
    Composed (i.provide chunk : Eval W SessionId) :=
  (regular_provide chunk i).composed

theorem composed_completeFor (n : Nat) (i : SessionId) :
    Composed (i.completeFor n : Eval W ResultId) :=
  (regular_completeFor n i).composed

theorem composed_finish (i : SessionId) : Composed (i.finish : Eval W Value) :=
  (regular_finish i).composed

theorem composed_compute (t : Tail W) : Composed t.compute :=
  (regular_compute t).composed

/-! ## Deferred parts -/

/-! ### Marks -/

section

variable {θ : Type} {memos : Array (Memo θ α)} {i j : Nat} {slot : Slot α}

theorem Memo.putSlot_self (memos : Array (Memo θ α)) (i : Nat) (slot : Slot α) :
    (Memo.putSlot memos i slot)[i]? = memos[i]?.map fun m => { m with slot := slot } := by
  rw [Memo.putSlot, Array.getElem?_modify, if_pos rfl]

theorem Memo.putSlot_other (memos : Array (Memo θ α)) (h : i ≠ j) (slot : Slot α) :
    (Memo.putSlot memos i slot)[j]? = memos[j]? := by
  rw [Memo.putSlot, Array.getElem?_modify, if_neg h]

/-- What is known of a deferred part is replaced, not how it is computed. -/
theorem Memo.thunk_putSlot {m : Memo θ α} (h : (Memo.putSlot memos i slot)[j]? = some m) :
    ∃ m', memos[j]? = some m' ∧ m.thunk = m'.thunk := by
  rw [Memo.putSlot, Array.getElem?_modify] at h
  split at h
  · obtain ⟨m', hm', rfl⟩ := Option.map_eq_some_iff.mp h
    exact ⟨m', hm', rfl⟩
  · exact ⟨m, h, rfl⟩

end

theorem find_put_tail (σ : Store W) (i j : TailId) (slot : Slot (Option (Stream Value))) :
    (Shelf.tails.put i.index slot σ).tails[j.index]? =
      if i = j then (σ.tails[j.index]?).map fun m => { m with slot := slot }
      else σ.tails[j.index]? := by
  split
  · next e => exact e ▸ Memo.putSlot_self σ.tails i.index slot
  · next e => exact Memo.putSlot_other σ.tails (fun e' => e (congrArg TailId.mk e')) slot

theorem find_put_cell (σ : Store W) (c d : CellId) (slot : Slot (Option (Value × Stream Value))) :
    (Shelf.cells.put c.index slot σ).cells[d.index]? =
      if c = d then (σ.cells[d.index]?).map fun m => { m with slot := slot }
      else σ.cells[d.index]? := by
  split
  · next e => exact e ▸ Memo.putSlot_self σ.cells c.index slot
  · next e => exact Memo.putSlot_other σ.cells (fun e' => e (congrArg CellId.mk e')) slot

/-! ### Shelves -/

theorem Memo.Keep.putSlot {θ : Type} {a b : Array (Memo θ α)} {i : Nat} (h : Keep a b)
    (hi : ∀ x, a[i]? = some x → x.slot = .unset) (slot : Slot α) :
    Keep a (Memo.putSlot b i slot) := by
  intro j x hx
  obtain ⟨y, hy, ht, hk⟩ := h j x hx
  by_cases hij : i = j
  · subst hij
    rw [Memo.putSlot_self, hy]
    exact ⟨_, rfl, ht, .inl (hi x hx)⟩
  · rw [Memo.putSlot_other b hij]
    exact ⟨y, hy, ht, hk⟩

namespace Shelf

variable {θ : Type}

/-- The parts of a shelf are parts of the store. -/
structure Lawful (shelf : Shelf W θ α) : Prop where
  /-- A part stays where it is; if it was known or busy, it is so still. -/
  find : ∀ {σ τ : Store W} {i : Nat} {x : Memo θ α}, σ.Grows τ → shelf.find i σ = some x →
    ∃ y, shelf.find i τ = some y ∧ (x.slot = .unset ∨ y.slot = x.slot)
  /-- What is put at a place is found there. -/
  find_put : ∀ (i : Nat) (slot : Slot α) (σ : Store W),
    shelf.find i (shelf.put i slot σ) = (shelf.find i σ).map fun x => { x with slot := slot }
  /-- A part that was neither known nor busy may be marked in any way, as long as no element is put
  into a dry cell. -/
  grows_put : ∀ {σ τ : Store W} {i : Nat} (slot : Slot α), σ.Grows τ →
    (∀ x, shelf.find i σ = some x → x.slot = .unset) →
    (∀ c, σ.Dry c → (shelf.put i slot τ).Dry c) → σ.Grows (shelf.put i slot τ)
  /-- Where no value is put, dry cells stay dry. -/
  dry_put : ∀ {σ : Store W} {i c : Nat} {slot : Slot α}, (∀ a, slot ≠ .known a) → σ.Dry c →
    (shelf.put i slot σ).Dry c

theorem lawful_tails : (tails : Shelf W _ _).Lawful where
  find h hx := by
    obtain ⟨y, hy, -, hs⟩ := h.tails _ _ hx
    exact ⟨y, hy, hs⟩
  find_put i slot σ := Memo.putSlot_self σ.tails i slot
  grows_put slot h hi hd := { h with tails := h.tails.putSlot hi slot, dry := hd }
  dry_put _ h := h

/-- A dry cell stays dry if no element is put into it. -/
theorem dry_putCell {σ : Store W} {i c : Nat} {slot : Slot (Option (Value × Stream Value))}
    (hs : i = c → ∀ v, slot ≠ .known (some v)) (h : σ.Dry c) : (cells.put i slot σ).Dry c := by
  obtain ⟨x, it, hx, hn, hit, hb⟩ := h
  have found : (Memo.putSlot σ.cells i slot)[c]? =
      some (if i = c then { x with slot := slot } else x) := by
    rw [Memo.putSlot, Array.getElem?_modify, hx]
    split <;> rfl
  refine ⟨_, it, found, ?_, ?_, hb⟩
  · split
    · next h => exact hs h
    · exact hn
  · rw [← hit]
    split <;> rfl

theorem lawful_cells : (cells : Shelf W _ _).Lawful where
  find h hx := by
    obtain ⟨y, hy, -, hs⟩ := h.cells _ _ hx
    exact ⟨y, hy, hs⟩
  find_put i slot σ := Memo.putSlot_self σ.cells i slot
  grows_put slot h hi hd := { h with cells := h.cells.putSlot hi slot, dry := hd }
  dry_put hs h := dry_putCell (fun _ v => hs (some v)) h

theorem lawful_results : (results : Shelf W _ _).Lawful where
  find h hx := by
    obtain ⟨y, hy, -, hs⟩ := h.results _ _ hx
    exact ⟨y, hy, hs⟩
  find_put i slot σ := Memo.putSlot_self σ.results i slot
  grows_put slot h hi hd := { h with results := h.results.putSlot hi slot, dry := hd }
  dry_put _ h := h

theorem Lawful.grows_busy {shelf : Shelf W θ α} (h : shelf.Lawful) {i : Nat} {σ : Store W}
    (hi : ∀ x, shelf.find i σ = some x → x.slot = .unset) : σ.Grows (shelf.put i .busy σ) :=
  h.grows_put .busy (.refl σ) hi fun _ hc => h.dry_put (by simp) hc

theorem unset_of_find {shelf : Shelf W θ α} {i : Nat} {σ : Store W} {x : Memo θ α}
    (hx : shelf.find i σ = some x) (hs : x.slot = .unset) :
    ∀ y, shelf.find i σ = some y → y.slot = .unset := by
  intro y hy
  rw [hx] at hy
  cases hy
  exact hs

theorem Lawful.grows_get {shelf : Shelf W θ α} (h : shelf.Lawful) {compute : θ → Change W α}
    (hc : ∀ (t : θ) (σ : Store W), σ.Grows (left (compute t σ))) (i : Nat) (σ : Store W)
    (hd : ∀ x a τ, shelf.find i σ = some x → compute x.thunk (shelf.put i .busy σ) = .ok a τ →
      ∀ c, σ.Dry c → τ.Dry c → (shelf.put i (.known a) τ).Dry c) :
    σ.Grows (left (shelf.get i compute σ)) := by
  rw [Shelf.get]
  cases hx : shelf.find i σ with
  | none => exact .refl σ
  | some x =>
    simp only
    cases hs : x.slot with
    | known a => exact .refl σ
    | busy => exact .refl σ
    | unset =>
      have unset := unset_of_find hx hs
      -- The part is marked as busy, and then it is computed.
      have hg := (h.grows_busy unset).trans (hc x.thunk _)
      simp only
      cases hr : compute x.thunk (shelf.put i .busy σ) with
      | ok a τ =>
        rw [hr] at hg
        exact h.grows_put (.known a) hg unset fun c hσ => hd x a τ hx hr c hσ (hg.dry c hσ)
      | error e τ =>
        rw [hr] at hg
        exact h.grows_put .unset hg unset fun c hσ => h.dry_put (by simp) (hg.dry c hσ)

/-- A part that has been computed is known. -/
theorem Lawful.known_get {shelf : Shelf W θ α} (h : shelf.Lawful) {compute : θ → Change W α}
    (hc : ∀ (t : θ) (σ : Store W), σ.Grows (left (compute t σ))) {i : Nat} {σ σ' : Store W}
    {a : α} (hr : shelf.get i compute σ = .ok a σ') :
    ∃ x, shelf.find i σ' = some x ∧ x.slot = .known a := by
  rw [Shelf.get] at hr
  cases hx : shelf.find i σ with
  | none => simp [hx] at hr
  | some x =>
    simp only [hx] at hr
    cases hs : x.slot with
    | known b =>
      rw [hs] at hr
      cases hr
      exact ⟨x, hx, hs⟩
    | busy => simp [hs] at hr
    | unset =>
      simp only [hs] at hr
      have unset := unset_of_find hx hs
      have hg := (h.grows_busy unset).trans (hc x.thunk _)
      cases hc' : compute x.thunk (shelf.put i .busy σ) with
      | error e τ => simp [hc'] at hr
      | ok b τ =>
        rw [hc'] at hr hg
        change σ.Grows τ at hg
        cases hr
        obtain ⟨y, hy, -⟩ := h.find hg hx
        exact ⟨_, by rw [h.find_put, hy]; rfl, rfl⟩

theorem exhausted_or_get (shelf : Shelf W θ α) {compute compute' : θ → Change W α}
    (hc : ∀ t σ, Exhausted (compute t σ) ∨ compute' t σ = compute t σ) (i : Nat) (σ : Store W) :
    Exhausted (shelf.get i compute σ) ∨ shelf.get i compute' σ = shelf.get i compute σ := by
  rw [Shelf.get, Shelf.get]
  cases shelf.find i σ with
  | none => exact .inr rfl
  | some x =>
    simp only
    cases x.slot with
    | known a => exact .inr rfl
    | busy => exact .inr rfl
    | unset =>
      rcases hc x.thunk (shelf.put i .busy σ) with ⟨τ, h⟩ | h
      · exact .inl ⟨shelf.put i .unset τ, by simp only [h]⟩
      · exact .inr (by simp only [h])

end Shelf

/-- An iterator that has no elements gives none. -/
theorem next_of_barren {it : IteratorId} {i : Iterator W} {m : Means W} {σ τ : Store W}
    {a : Option Value} (hi : σ.iterators[it.index]? = some i) (hb : i.Barren)
    (h : it.next m σ = .ok a τ) : a = none := by
  simp only [IteratorId.next, IteratorId.alter, Eval.run_bind, Eval.run_get, hi, Eval.deref_some,
    Eval.run_pure, Eval.run_modify] at h
  cases i with
  | spent =>
    cases h
    rfl
  | items q k =>
    simp only [hb k (Nat.le_refl k)] at h
    cases h
    rfl
  | walk s given => exact hb.elim
  | caller answer asked =>
    simp only [Eval.run_bind, Eval.run_modifyGet, hb asked (Nat.le_refl asked)] at h
    cases h
    rfl

theorem pull_of_barren {it : IteratorId} {i : Iterator W} {m : Means W} {σ τ : Store W}
    {a : Option (Value × Stream Value)} (hi : σ.iterators[it.index]? = some i) (hb : i.Barren)
    (h : it.pull m σ = .ok a τ) : a = none := by
  rw [IteratorId.pull, Eval.run_bind] at h
  split at h
  · next v σ₁ e =>
    rw [next_of_barren hi hb e] at h
    cases h
    rfl
  · cases h

theorem force_grow (n : Nat) (d : Deferred) (σ : Store W) :
    σ.Grows (left (forceWithin n d σ)) := by
  induction n generalizing d σ with
  | zero => exact .refl σ
  | succ n ih =>
    have hm : Means.Grow (⟨n, forceWithin n⟩ : Means W) := ih
    cases d with
    | tail i =>
      exact Shelf.lawful_tails.grows_get (fun t => (composed_compute t).grows hm) _ σ
        fun _ _ _ _ _ _ _ h => h
    | cell i =>
      refine Shelf.lawful_cells.grows_get (fun it => (composed_pull it).grows hm) _ σ
        fun x a τ hx h c hσ hτ => Shelf.dry_putCell ?_ hτ
      -- A dry cell gets no element, as its iterator has none.
      rintro rfl v ha
      cases ha
      obtain ⟨y, it, hy, -, hit, hb⟩ := hσ
      rw [show σ.cells[i.index]? = some x from hx] at hy
      cases hy
      cases pull_of_barren (σ := Shelf.cells.put i.index .busy σ) hit hb h
    | result i =>
      exact Shelf.lawful_results.grows_get (fun a => (composed_action a).grows hm) _ σ
        fun _ _ _ _ _ _ _ h => h
    | session i => exact (composed_finish i).grows hm σ

theorem exhausted_or_force (n : Nat) (d : Deferred) (σ : Store W) :
    Exhausted (forceWithin n d σ) ∨ forceWithin (n + 1) d σ = forceWithin n d σ := by
  induction n generalizing d σ with
  | zero => exact .inl ⟨σ, rfl⟩
  | succ n ih =>
    have hm : Means.Le (⟨n, forceWithin n⟩ : Means W) ⟨n + 1, forceWithin (n + 1)⟩ :=
      ⟨Nat.le_succ n, ih⟩
    cases d with
    | tail i => exact Shelf.exhausted_or_get _ (fun t => (composed_compute t).patient hm) _ σ
    | cell i => exact Shelf.exhausted_or_get _ (fun it => (composed_pull it).patient hm) _ σ
    | result i => exact Shelf.exhausted_or_get _ (fun a => (composed_action a).patient hm) _ σ
    | session i => exact (composed_finish i).patient hm σ

/-- Computations of deferred parts keep what is known, within every bound. -/
theorem within_grow (n : Nat) : (Means.within n : Means W).Grow := force_grow n

/-- A larger bound gives larger means. -/
theorem within_le {n n' : Nat} (h : n ≤ n') : (Means.within n : Means W).Le (Means.within n') := by
  induction h with
  | refl => exact ⟨Nat.le_refl n, fun _ _ => .inr rfl⟩
  | @step k _ ih =>
    refine ⟨Nat.le_succ_of_le ih.steps, fun d σ => ?_⟩
    rcases ih.force d σ with h | h
    · exact .inl h
    · rcases exhausted_or_force k d σ with h' | h'
      · exact .inl (h ▸ h')
      · exact .inr (h'.trans h)

/-! ## All computations -/

/-- What is known stays known. -/
theorem Composed.grows_within {x : Eval W α} (h : Composed x) (n : Nat) (σ : Store W) :
    σ.Grows (left (x.exec n σ)) := h.grows (within_grow n) σ

theorem Composed.grows_of_ok {x : Eval W α} (h : Composed x) {n : Nat} {σ τ : Store W} {a : α}
    (e : x (.within n) σ = .ok a τ) : σ.Grows τ := by
  have k := h.grows (within_grow n) σ
  rwa [e] at k

/-- A larger bound changes no outcome that is there. -/
theorem Composed.patient_within {x : Eval W α} (h : Composed x) {n n' : Nat} (hn : n ≤ n')
    (σ : Store W) : Exhausted (x.exec n σ) ∨ x.exec n' σ = x.exec n σ :=
  h.patient (within_le hn) σ

end ResumableParsing
