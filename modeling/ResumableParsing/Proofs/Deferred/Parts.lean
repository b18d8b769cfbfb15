import ResumableParsing.Proofs.Store.Comes

/-!
# Deferred parts of all kinds

The tails of lazy cells, the cells that are read from iterators and the results of sessions are
deferred parts alike: each has a function that computes it, and something is known of it or not.
Finishing a session is no such part. It is computed each time, up to the result that is one.

* `Store.part?`, `Store.mark`: a deferred part, and what is noted of it
* `Store.slot`: what is known of a deferred part
* `forceWithin_known`, `forceWithin_busy`, `forceWithin_unset`: how a part answers
-/

namespace ResumableParsing

deriving instance DecidableEq for Deferred

variable {W : Type}

/-! ## Parts -/

namespace Store

/-- A deferred part: the function that computes it, and what is known of it. -/
def part? (σ : Store W) : (d : Deferred) → Option (Memo (Eval W d.Content) d.Content)
  | .tail i => σ.tails[i.index]?.map fun m => ⟨m.thunk.compute, m.slot⟩
  | .cell i => σ.cells[i.index]?.map fun m => ⟨m.thunk.pull, m.slot⟩
  | .result i => σ.results[i.index]?.map fun m => ⟨m.thunk.run, m.slot⟩
  | .session _ => none

/-- The store with something else known of a deferred part. -/
def mark (σ : Store W) : (d : Deferred) → Slot d.Content → Store W
  | .tail i, slot => Shelf.tails.put i.index slot σ
  | .cell i, slot => Shelf.cells.put i.index slot σ
  | .result i, slot => Shelf.results.put i.index slot σ
  | .session _, _ => σ

/-- What is known of a deferred part; nothing if there is no such part. -/
def slot (σ : Store W) (d : Deferred) : Slot d.Content :=
  match σ.part? d with
  | some m => m.slot
  | none => .unset

/-- No deferred part is being computed. -/
def Quiescent (σ : Store W) : Prop := ∀ d, σ.slot d ≠ .busy

end Store

section

variable {σ τ : Store W} {d e : Deferred} {x : Eval W d.Content} {s : Slot d.Content}

theorem Store.slot_of_part (h : σ.part? d = some ⟨x, s⟩) : σ.slot d = s := by
  simp [slot, h]

/-- Something is known only of parts that are there. -/
theorem Store.part_of_slot (h : σ.slot d = s) (hs : s ≠ .unset) : ∃ x, σ.part? d = some ⟨x, s⟩ := by
  unfold slot at h
  cases found : σ.part? d with
  | none =>
    rw [found] at h
    exact absurd h.symm hs
  | some m =>
    rw [found] at h
    subst h
    exact ⟨m.thunk, rfl⟩

/-- The functions of deferred parts are computations of the library. -/
theorem Store.regular_part (h : σ.part? d = some ⟨x, s⟩) : Regular x := by
  cases d with
  | tail i =>
    obtain ⟨m, -, e⟩ := Option.map_eq_some_iff.mp h
    cases e
    exact regular_compute m.thunk
  | cell i =>
    obtain ⟨m, -, e⟩ := Option.map_eq_some_iff.mp h
    cases e
    exact regular_pull m.thunk
  | result i =>
    obtain ⟨m, -, e⟩ := Option.map_eq_some_iff.mp h
    cases e
    exact regular_action m.thunk
  | session i => cases h

/-! ### Marks -/

@[simp] theorem Store.part_mark_self (σ : Store W) (d : Deferred) (s : Slot d.Content) :
    (σ.mark d s).part? d = (σ.part? d).map fun m => { m with slot := s } := by
  cases d with
  | session i => rfl
  | _ =>
    simp only [part?, mark, Shelf.tails, Shelf.cells, Shelf.results, Memo.putSlot_self,
      Option.map_map]
    rfl

theorem Store.part_mark_other (σ : Store W) (s : Slot d.Content) (h : d ≠ e) :
    (σ.mark d s).part? e = σ.part? e := by
  -- Parts of different kinds are kept apart, so only parts of one kind can be the same.
  cases d with
  | session i => rfl
  | tail i =>
    cases e with
    | tail j =>
      have ne : i.index ≠ j.index := fun same => h (congrArg (Deferred.tail ⟨·⟩) same)
      simp only [part?, mark, Shelf.tails, Memo.putSlot_other _ ne]
    | _ => rfl
  | cell i =>
    cases e with
    | cell j =>
      have ne : i.index ≠ j.index := fun same => h (congrArg (Deferred.cell ⟨·⟩) same)
      simp only [part?, mark, Shelf.cells, Memo.putSlot_other _ ne]
    | _ => rfl
  | result i =>
    cases e with
    | result j =>
      have ne : i.index ≠ j.index := fun same => h (congrArg (Deferred.result ⟨·⟩) same)
      simp only [part?, mark, Shelf.results, Memo.putSlot_other _ ne]
    | _ => rfl

theorem Store.slot_mark_self (h : (σ.part? d).isSome) (s : Slot d.Content) :
    (σ.mark d s).slot d = s := by
  obtain ⟨m, found⟩ := Option.isSome_iff_exists.mp h
  simp [slot, found]

theorem Store.busy_mark {x : Eval W d.Content} (found : σ.part? d = some ⟨x, .unset⟩) :
    (σ.mark d .busy).slot d = .busy :=
  slot_mark_self (by simp [found]) _

theorem Store.slot_mark_other (σ : Store W) (s : Slot d.Content) (h : d ≠ e) :
    (σ.mark d s).slot e = σ.slot e := by
  unfold slot
  rw [part_mark_other σ s h]

/-- Marks on other parts leave a tail as it is. -/
theorem Store.tails_mark_other {i : TailId} (σ : Store W) (s : Slot d.Content) (h : d ≠ .tail i) :
    (σ.mark d s).tails[i.index]? = σ.tails[i.index]? := by
  cases d with
  | tail j =>
    have ne : j.index ≠ i.index := fun same => h (congrArg (Deferred.tail ⟨·⟩) same)
    exact Memo.putSlot_other _ ne s
  | _ => rfl

/-- Marks on other parts leave a cell as it is. -/
theorem Store.cells_mark_other {c : CellId} (σ : Store W) (s : Slot d.Content) (h : d ≠ .cell c) :
    (σ.mark d s).cells[c.index]? = σ.cells[c.index]? := by
  cases d with
  | cell j =>
    have ne : j.index ≠ c.index := fun same => h (congrArg (Deferred.cell ⟨·⟩) same)
    exact Memo.putSlot_other _ ne s
  | _ => rfl

/-! ### Wider stores -/

theorem Memo.Widens.map {θ α β : Type} {a b : Array (Memo θ α)} (h : Widens a b) {i : Nat}
    (f : Memo θ α → β) (y : β) (hy : a[i]?.map f = some y) : b[i]?.map f = some y := by
  obtain ⟨m, found, e⟩ := Option.map_eq_some_iff.mp hy
  exact Option.map_eq_some_iff.mpr ⟨m, h.same i m found, e⟩

theorem Store.Widens.part (h : σ.Widens τ) (found : σ.part? d = some ⟨x, s⟩) :
    τ.part? d = some ⟨x, s⟩ := by
  cases d with
  | tail i => exact h.moreTails.map _ _ found
  | cell i => exact h.moreCells.map _ _ found
  | result i => exact h.moreResults.map _ _ found
  | session i => cases found

/-- Of a part that is new nothing is known. -/
theorem Store.Widens.new (h : σ.Widens τ) (missing : σ.part? d = none)
    (found : τ.part? d = some ⟨x, s⟩) : s = .unset := by
  have fresh {θ α : Type} {a b : Array (Memo θ α)} {i : Nat} {m : Memo θ α} (w : Memo.Widens a b)
      (none : a[i]? = none) (some : b[i]? = some m) : m.slot = .unset := by
    rcases w.new i m some with old | unset
    · rw [none] at old
      cases old
    · exact unset
  cases d with
  | tail i =>
    obtain ⟨m, there, e⟩ := Option.map_eq_some_iff.mp found
    cases e
    exact fresh h.moreTails (Option.map_eq_none_iff.mp missing) there
  | cell i =>
    obtain ⟨m, there, e⟩ := Option.map_eq_some_iff.mp found
    cases e
    exact fresh h.moreCells (Option.map_eq_none_iff.mp missing) there
  | result i =>
    obtain ⟨m, there, e⟩ := Option.map_eq_some_iff.mp found
    cases e
    exact fresh h.moreResults (Option.map_eq_none_iff.mp missing) there
  | session i => cases found

/-- A change leaves what is known of each part as it is. -/
theorem Store.Widens.slot (h : σ.Widens τ) (d : Deferred) : τ.slot d = σ.slot d := by
  cases before : σ.part? d with
  | some m => rw [slot_of_part before, slot_of_part (h.part before)]
  | none =>
    unfold Store.slot
    rw [before]
    cases after : τ.part? d with
    | none => rfl
    | some m => exact h.new before after

end

/-! ## Asking for a part -/

/-- What is noted when the function of a part has ended: its value is kept, and after a fault
nothing is known again. -/
def Deferred.settle (d : Deferred) : EStateM.Result Stop (Store W) d.Content →
    EStateM.Result Stop (Store W) d.Content
  | .ok a σ => .ok a (σ.mark d (.known a))
  | .error e σ => .error e (σ.mark d .unset)

section

variable {σ τ : Store W} {d : Deferred} {x : Eval W d.Content} {a : d.Content} {n : Nat}

/-- A part whose value is known answers with it, and nothing changes. -/
theorem forceWithin_known (h : σ.part? d = some ⟨x, .known a⟩) :
    forceWithin (n + 1) d σ = .ok a σ := by
  cases d with
  | session i => cases h
  | _ =>
    obtain ⟨m, found, e⟩ := Option.map_eq_some_iff.mp h
    have slot : m.slot = .known a := (Memo.mk.injEq .. ▸ e).2
    simp [forceWithin, Shelf.get, Shelf.tails, Shelf.cells, Shelf.results, found, slot]

/-- A part that is being computed refuses. -/
theorem forceWithin_busy (h : σ.part? d = some ⟨x, .busy⟩) :
    forceWithin (n + 1) d σ = .error (.raised .reentrant) σ := by
  cases d with
  | session i => cases h
  | _ =>
    obtain ⟨m, found, e⟩ := Option.map_eq_some_iff.mp h
    have slot : m.slot = .busy := (Memo.mk.injEq .. ▸ e).2
    simp [forceWithin, Shelf.get, Shelf.tails, Shelf.cells, Shelf.results, found, slot]

/-- A part of which nothing is known calls its function, and is marked as busy until that ends. -/
theorem forceWithin_unset (h : σ.part? d = some ⟨x, .unset⟩) :
    forceWithin (n + 1) d σ = d.settle (x ⟨n, forceWithin n⟩ (σ.mark d .busy)) := by
  cases d with
  | session i => cases h
  | _ =>
    obtain ⟨⟨t, s⟩, found, e⟩ := Option.map_eq_some_iff.mp h
    cases e
    simp only [forceWithin, Shelf.get, Shelf.tails, Shelf.cells, Shelf.results, found, Store.mark]
    split
    · next run => simp only [Deferred.settle, run]; rfl
    · next run => simp only [Deferred.settle, run]; rfl

/-- A part that is not there leads nowhere. -/
theorem forceWithin_missing (h : σ.part? d = none) (hd : ∀ i, d ≠ .session i) :
    forceWithin (n + 1) d σ = .error .dangling σ := by
  cases d with
  | session i => exact absurd rfl (hd i)
  | _ =>
    have missing := Option.map_eq_none_iff.mp h
    simp [forceWithin, Shelf.get, Shelf.tails, Shelf.cells, Shelf.results, missing]

end

end ResumableParsing
