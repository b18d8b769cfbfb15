import ResumableParsing.Proofs.Grammar.Library
import ResumableParsing.Proofs.Store.Computations

/-!
# Quiet computations

Detached functions of the caller, and everything that the library does with streams and values on
the way, stay clear of what belongs to states, results and sessions: they neither look at it nor
change it.

* `Quiet`: computations that stay clear of that part
* `quiet_action`, `quiet_join`, `quiet_pull` and so on: the quiet computations of the library
-/

namespace ResumableParsing

variable {W α β : Type}

/-! ## Quiet changes -/

/-- The tail is no parse, and what it asks of the caller is detached. -/
def Tail.Quiet : Tail W → Prop
  | .append .. => True
  | .parse .. => False
  | .action a => a.Detached

/-- A change that stays clear of states, results and sessions. -/
structure QuietChange (f : Store W → α × Store W) : Prop where
  /-- Its result and what it does to the rest depend on the rest. -/
  alike : ∀ {σ τ : Store W}, σ.Alike τ → (f σ).1 = (f τ).1 ∧ (f σ).2.Alike (f τ).2
  /-- No deferred part is computed. -/
  adds : ∀ σ : Store W, σ.Adds (f σ).2
  /-- New tails are quiet. -/
  tails : ∀ (σ : Store W) (i : Nat) (x : Memo (Tail W) (Option (Stream Value))),
    (f σ).2.tails[i]? = some x → σ.tails[i]? = some x ∨ x.thunk.Quiet := by intros; left; assumption
  /-- The parsers are the same. -/
  parsers : ∀ σ, (f σ).2.parsers = σ.parsers := by intro; rfl
  /-- The memories of states inside chunks are the same. -/
  advances : ∀ σ, (f σ).2.advances = σ.advances := by intro; rfl
  /-- The results are the same. -/
  results : ∀ σ, (f σ).2.results = σ.results := by intro; rfl
  /-- The buffers are the same. -/
  buffers : ∀ σ, (f σ).2.buffers = σ.buffers := by intro; rfl
  /-- The sessions are the same. -/
  sessions : ∀ σ, (f σ).2.sessions = σ.sessions := by intro; rfl

/-- What is known stays known. -/
theorem QuietChange.grows {f : Store W → α × Store W} (h : QuietChange f) (σ : Store W) :
    σ.Grows (f σ).2 := (h.adds σ).toGrows

/-- Computations that stay clear of states, results and sessions. -/
inductive Quiet : {α : Type} → Eval W α → Prop where
  /-- A quiet change. -/
  | change {α : Type} {x : Eval W α} (f : Store W → α × Store W) :
      (∀ m σ, x m σ = .ok (f σ).1 (f σ).2) → QuietChange f → Quiet x
  /-- A computation breaks off. -/
  | stop {α : Type} (e : Stop) : Quiet (throw e : Eval W α)
  /-- One computation after another. -/
  | bind {α β : Type} {x : Eval W α} {f : α → Eval W β} :
      Quiet x → (∀ a, Quiet (f a)) → Quiet (x >>= f)
  /-- A tail. -/
  | tail (i : TailId) : Quiet (Eval.force (.tail i))
  /-- A cell. -/
  | cell (i : CellId) : Quiet (Eval.force (.cell i))
  /-- A loop, whose rounds are bounded. -/
  | loop {α : Type} {f : Nat → Eval W α} : (∀ n, Quiet (f n)) →
      (∀ n m σ, Exhausted (f n m σ) ∨ f (n + 1) m σ = f n m σ) →
      Quiet (do f (← read).steps)

theorem Quiet.composed {x : Eval W α} (h : Quiet x) : Composed x := by
  induction h with
  | change f hx hf => exact .change f hx hf.adds
  | stop e => exact .stop e
  | bind _ _ ihx ihf => exact .bind ihx ihf
  | tail i => exact .force _
  | cell i => exact .force _
  | loop _ hf ih => exact .loop ih hf

/-! ## Pieces -/

namespace Quiet

/-- Looking at the rest. -/
theorem look {f : Store W → α} (h : ∀ {σ τ : Store W}, σ.Alike τ → f σ = f τ) :
    Quiet (do return f (← get)) :=
  .change (fun σ => (f σ, σ)) (fun _ _ => rfl)
    { alike := fun h' => ⟨h h', h'⟩
      adds := .refl }

theorem pure (a : α) : Quiet (pure a : Eval W α) := look (f := fun _ => a) fun _ => rfl

theorem bind_look {f : Store W → α} {k : α → Eval W β}
    (h : ∀ {σ τ : Store W}, σ.Alike τ → f σ = f τ) (hk : ∀ a, Quiet (k a)) :
    Quiet (do k (f (← get))) := by
  have hb := Quiet.bind (look h) hk
  rwa [bind_assoc] at hb

theorem fault (e : Fault) : Quiet (Eval.fault e : Eval W α) := .stop _

theorem deref (a : Option α) : Quiet (Eval.deref a : Eval W α) := by
  cases a with
  | some a => exact pure a
  | none => exact .stop _

theorem ite {c : Prop} [Decidable c] {x y : Eval W α} (hx : Quiet x) (hy : Quiet y) :
    Quiet (if c then x else y) := by
  split
  · exact hx
  · exact hy

theorem map {x : Eval W α} (h : Quiet x) (f : α → β) : Quiet (f <$> x) := by
  rw [map_eq_pure_bind]
  exact .bind h fun a => pure (f a)

theorem serial : Quiet (Eval.serial : Eval W Nat) :=
  .change (fun σ => (σ.nextSerial, { σ with nextSerial := σ.nextSerial + 1 })) (fun _ _ => rfl)
    { alike := fun h => ⟨h.nextSerial, { h with nextSerial := by simp [h.nextSerial] }⟩
      adds := fun σ => { Store.Adds.refl σ with nextSerial := Nat.le_succ _ } }

theorem debug (message : Store W → String) : Quiet (Eval.debug message) := by
  refine .change (fun σ => ((), { σ with
    log := if σ.logging then message σ :: σ.log else σ.log })) (fun m σ => ?_)
    { alike := fun h => ⟨rfl, { h with }⟩
      adds := fun σ => { Store.Adds.refl σ with } }
  rw [Eval.run_debug]
  split <;> rfl

/-- The world is changed. -/
theorem world (f : W → α × W) :
    Quiet (modifyGet fun σ => ((f σ.world).1, { σ with world := (f σ.world).2 }) : Eval W α) :=
  .change (fun σ => ((f σ.world).1, { σ with world := (f σ.world).2 })) (fun _ _ => rfl)
    { alike := fun h => ⟨by simp [h.world], { h with world := by simp [h.world] }⟩
      adds := fun σ => { Store.Adds.refl σ with } }

/-- The caller is told of a token. -/
theorem watch (token : Value) :
    Quiet (modify fun σ => { σ with world := σ.watch token σ.world } : Eval W Unit) :=
  .change (fun σ => ((), { σ with world := σ.watch token σ.world })) (fun _ _ => rfl)
    { alike := fun h => ⟨rfl, { h with world := by simp [h.watch, h.world] }⟩
      adds := fun σ => { Store.Adds.refl σ with } }

theorem lazyCell (v : Value) {t : Tail W} (ht : t.Quiet) : Quiet (Stream.lazyCell v t) := by
  refine .bind serial fun n => .bind (.change
    (fun σ => (⟨σ.tails.size⟩, { σ with tails := σ.tails.push ⟨t, .unset⟩ })) (fun _ _ => rfl)
    { alike := fun h => ⟨by simp [h.tails], { h with tails := by simp [h.tails] }⟩
      adds := fun σ => .pushTail σ t
      tails := fun σ i x hx => ?_ }) fun i => pure _
  rw [Array.getElem?_push] at hx
  split at hx
  · cases hx
    exact .inr ht
  · exact .inl hx

theorem ofIterator (it : IteratorId) : Quiet (Stream.ofIterator it : Eval W (Stream Value)) :=
  .change (fun σ => (.pulled ⟨σ.cells.size⟩, { σ with cells := σ.cells.push ⟨it, .unset⟩ }))
    (fun _ _ => rfl)
    { alike := fun h => ⟨by simp [h.cells], { h with cells := by simp [h.cells] }⟩
      adds := fun σ => .pushCell σ it }

theorem make (it : Iterator W) : Quiet (IteratorId.make it) :=
  .change (fun σ => (⟨σ.iterators.size⟩, { σ with iterators := σ.iterators.push it }))
    (fun _ _ => rfl)
    { alike := fun h => ⟨by simp [h.iterators], { h with iterators := by simp [h.iterators] }⟩
      adds := fun σ => .pushIterator σ it }

theorem alterIterator (it : IteratorId) {f : Iterator W → Iterator W}
    (hf : ∀ x : Iterator W, x.Leaves (f x)) : Quiet (it.alter f) :=
  .change (fun σ => ((), { σ with iterators := σ.iterators.modify it.index f }))
    (fun _ _ => rfl)
    { alike := fun h => ⟨rfl, { h with iterators := by simp [h.iterators] }⟩
      adds := fun σ => .alterIterator σ it hf }

theorem iterator (it : IteratorId) :
    Quiet (do Eval.deref (← get).iterators[it.index]? : Eval W (Iterator W)) :=
  bind_look (f := fun σ => σ.iterators[it.index]?) (fun h => by rw [h.iterators]) deref

end Quiet

/-! ## Streams -/

theorem quiet_isEmpty (s : Stream Value) : Quiet (s.isEmpty : Eval W Bool) := by
  cases s with
  | pulled c => exact .bind (.cell c) fun found => .pure _
  | _ => exact .pure _

theorem quiet_first (s : Stream Value) : Quiet (s.first : Eval W Value) := by
  cases s with
  | nil => exact .fault _
  | cons n v t => exact .pure _
  | lazy n v t => exact .pure _
  | view q i h =>
    refine .ite (.fault _) ?_
    cases q.get? i with
    | some v => exact .pure v
    | none => exact .fault _
  | pulled c =>
    refine .bind (.cell c) fun found => ?_
    cases found with
    | some v => exact .pure _
    | none => exact .fault _

theorem quiet_rest (s : Stream Value) : Quiet (s.rest : Eval W (Stream Value)) := by
  cases s with
  | lazy n v t =>
    refine .bind (.tail t) fun found => ?_
    cases found with
    | some s => exact .pure s
    | none => exact .fault _
  | pulled c =>
    refine .bind (.cell c) fun found => ?_
    cases found with
    | some v => exact .pure _
    | none => exact .pure _
  | _ => exact .pure _

theorem quiet_append (a b : Stream Value) : Quiet (a.append b : Eval W (Stream Value)) :=
  .bind (quiet_isEmpty a) fun _ =>
    .ite (.pure b) (.bind (quiet_first a) fun v => .lazyCell v trivial)

theorem quiet_ofValue (v : Value) : Quiet (Stream.ofValue v : Eval W (Stream Value)) := by
  cases v with
  | stream s => exact .pure s
  | _ => exact .fault _

theorem quiet_asStream (s : Source) : Quiet (s.asStream : Eval W (Stream Value)) := by
  cases s with
  | none => exact .pure _
  | stream s => exact .pure s
  | sequence q => exact .bind .serial fun _ => .pure _
  | iterator it => exact .ofIterator it

theorem quiet_toListFrom (n : Nat) (done : List Value) (s : Stream Value) :
    Quiet (Stream.toListFrom n done s : Eval W (List Value)) := by
  induction n generalizing done s with
  | zero => exact .stop _
  | succ n ih =>
    exact .bind (quiet_isEmpty s) fun _ => .ite (.pure _) <|
      .bind (quiet_first s) fun v => .bind (quiet_rest s) fun t => ih (v :: done) t

theorem quiet_toList (s : Stream Value) : Quiet (s.toList : Eval W (List Value)) :=
  .loop (fun n => quiet_toListFrom n [] s) fun n m σ => exhausted_or_toListFrom n [] s m σ

theorem quiet_advance (w : Bool) (i : Stream Value) (p : Int) (u : Value) :
    Quiet ((State.plain w i p u).advance : Eval W (State Value)) :=
  .bind (quiet_rest i) fun _ => .pure _

/-! ## Iterators -/

theorem quiet_next (it : IteratorId) : Quiet (it.next : Eval W (Option Value)) := by
  unfold IteratorId.next
  rw [← bind_assoc]
  refine .bind (.iterator it) fun i => .bind (.alterIterator it .moved) fun _ => ?_
  cases i with
  | spent => exact .pure _
  | items q i => exact .pure _
  | walk s given =>
    refine .ite (.bind (quiet_rest s) fun s => ?_) (.bind (.pure s) fun s => ?_) <;>
    exact .bind (quiet_isEmpty s) fun _ => .ite (.pure _) <|
      .bind (quiet_first s) fun v => .bind (.alterIterator it (.onward s)) fun _ => .pure _
  | caller answer asked =>
    refine .bind (.world fun w => answer asked w) fun p => ?_
    cases p with
    | item v => exact .pure _
    | finished => exact .pure _
    | failed f => exact .fault _

theorem quiet_pull (it : IteratorId) :
    Quiet (it.pull : Eval W (Option (Value × Stream Value))) := by
  refine .bind (quiet_next it) fun v => ?_
  cases v with
  | none => exact .pure _
  | some v => exact .bind (.ofIterator it) fun _ => .pure _

/-! ## Functions of the caller, and what the library does with their results -/

theorem quiet_action {a : Action W α} (h : a.Detached) : Quiet a.run := by
  induction a with
  | done a => exact .pure a
  | raise f => exact .fault f
  | inspect k ih =>
    exact .bind_look (f := Store.world) (k := fun w => (k w).run) Store.Alike.world
      fun w => ih w (h w)
  | update f next ih => exact .bind (.world fun w => ((), f w)) fun _ => ih h
  | serial k ih => exact .bind .serial fun n => ih n (h n)
  | iterator answer k ih => exact .bind (.make _) fun it => ih it (h it)
  | asStream s k ih => exact .bind (quiet_asStream s) fun t => ih t (h t)
  | isEmpty s k ih => exact .bind (quiet_isEmpty s) fun b => ih b (h b)
  | first s k ih => exact .bind (quiet_first s) fun v => ih v (h v)
  | rest s k ih => exact .bind (quiet_rest s) fun t => ih t (h t)
  | append a b k ih => exact .bind (quiet_append a b) fun t => ih t (h t)
  | toList s k ih => exact .bind (quiet_toList s) fun vs => ih vs (h vs)
  | render v k ih =>
    exact .bind_look (f := fun σ => σ.render v) (k := fun t => (k t).run) (fun h => h.render v)
      fun t => ih t (h t)
  | setInput => exact h.1.elim
  | setPosition => exact h.1.elim
  | setUser => exact h.1.elim
  | peek => exact h.1.elim
  | result => exact h.1.elim
  | finish => exact h.1.elim

theorem quiet_join (c : Combine) (v w : Value) : Quiet (c.join v w : Eval W Value) := by
  cases c with
  | first => exact .pure v
  | second => exact .pure w
  | group => cases v <;> exact .pure _
  | cons =>
    cases w with
    | stream s => exact .bind (.bind .serial fun _ => .pure _) fun _ => .pure _
    | _ => exact .bind (.lazyCell v trivial) fun _ => .pure _
  | append =>
    exact .bind (quiet_ofValue v) fun s => .bind (quiet_ofValue w) fun t =>
      .bind (quiet_append s t) fun _ => .pure _

/-- A quiet tail is computed quietly. -/
theorem quiet_compute {t : Tail W} (h : t.Quiet) : Quiet t.compute := by
  cases t with
  | append a b =>
    exact .bind (quiet_rest a) fun s => .bind (quiet_append s b) fun _ => .pure _
  | parse p s => exact h.elim
  | action a => exact (quiet_action h).map _

end ResumableParsing
