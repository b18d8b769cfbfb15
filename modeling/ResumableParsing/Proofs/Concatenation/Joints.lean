import ResumableParsing.Proofs.Deferred.Discipline
import ResumableParsing.Proofs.Repetition.Unfolding
import ResumableParsing.Proofs.Stream.Questions

/-!
# Streams that are put one after another

Putting one stream after another makes a lazy cell that holds the first element of the first stream.
When its tail is computed, the rest of the first stream is put before the second one in the same
way; behind the last element of the first stream stands the second stream itself. Whatever else is
computed in between, and in whatever order, the tails that are known are known to be just that.

* `TailId.Appends`: a tail is the rest of one stream followed by another one
* `Stream.Joined`: a stream is one stream followed by another one
* `Store.Faithful`: each tail that appends, and is known, is what it should be
* `joined_of_append`, `joined_of_compute`: what is put together is joined
* `Eval.Traced.faithful`: every computation keeps faithful stores faithful
* `Store.Later`: the stores that computations have left
-/

namespace ResumableParsing

variable {W : Type}

/-! ## Joined streams -/

/-- The tail is the rest of `a`, followed by `b`. -/
def TailId.Appends (i : TailId) (σ : Store W) (a b : Stream Value) : Prop :=
  ∃ slot, i.Is σ (.append a b) slot

/-- The third stream is the first one followed by the second one: the second one itself, if the
first one is empty, and otherwise a cell with a tail of its own. The tail is none of the first `k`.
-/
inductive Stream.Joined (k : Nat) (σ : Store W) (a b : Stream Value) : Stream Value → Prop where
  /-- The first stream is at its end. -/
  | ended : a.Vacant σ → Joined k σ a b b
  /-- The first stream has elements. -/
  | cell {n : Nat} {v : Value} {i : TailId} :
      a.Head σ v → k ≤ i.index → i.Appends σ a b → Joined k σ a b (.lazy n v i)

/-- From the `k`-th tail on, each tail that appends and is known is the rest of the first stream
followed by the second stream. -/
def Store.Faithful (k : Nat) (σ : Store W) : Prop :=
  ∀ (i : TailId) (a b : Stream Value) (o : Option (Stream Value)), k ≤ i.index →
    i.Is σ (.append a b) (.known o) → ∃ a' c, o = some c ∧ a.Next σ a' ∧ Stream.Joined k σ a' b c

/-- Nothing that is known of streams gets lost, and tails that append go on appending the same. -/
structure Store.Secures (σ τ : Store W) : Prop extends σ.Knows τ where
  /-- Tails append what they did. -/
  appends : ∀ {i : TailId} {a b : Stream Value}, i.Appends σ a b → i.Appends τ a b

section

variable {σ τ υ : Store W} {a b c : Stream Value} {i : TailId} {k : Nat}

theorem Store.Grows.secures (g : σ.Grows τ) : σ.Secures τ where
  toKnows := g.knows
  appends := by
    intro i a b there
    obtain ⟨slot, h⟩ := there
    obtain ⟨slot', h', _⟩ := h.later g
    exact ⟨slot', h'⟩

theorem Store.Secures.refl (σ : Store W) : σ.Secures σ := (Store.Grows.refl σ).secures

theorem Store.Secures.trans (h : σ.Secures τ) (h' : τ.Secures υ) : σ.Secures υ where
  tails known := h'.tails (h.tails known)
  cells known := h'.cells (h.cells known)
  appends joined := h'.appends (h.appends joined)

theorem Stream.Joined.later (h : Joined k σ a b c) (r : σ.Secures τ) : Joined k τ a b c := by
  cases h with
  | ended vacant => exact .ended (vacant.later r.toKnows)
  | cell head le appends => exact .cell (head.later r.toKnows) le (r.appends appends)

/-- If the first stream has elements, a cell of its own has been made. -/
theorem Stream.Joined.cell_of_occupied (h : Joined k σ a b c) (occupied : a.Occupied σ) :
    ∃ n v i, c = .lazy n v i ∧ a.Head σ v ∧ k ≤ i.index ∧ i.Appends σ a b := by
  cases h with
  | ended vacant => exact absurd vacant occupied.not_vacant
  | @cell n v i head le appends => exact ⟨n, v, i, rfl, head, le, appends⟩

theorem Stream.Joined.eq_of_vacant (h : Joined k σ a b c) (vacant : a.Vacant σ) : c = b := by
  cases h with
  | ended _ => rfl
  | cell head _ _ => exact absurd vacant head.occupied.not_vacant

/-- What is known behind a cell is the rest of the first stream, followed by the second one. -/
theorem Store.Faithful.next {n : Nat} {v : Value} {t : Stream Value} (h : σ.Faithful k)
    (le : k ≤ i.index) (appends : i.Appends σ a b) (next : (Stream.lazy n v i).Next σ t) :
    ∃ a', a.Next σ a' ∧ Stream.Joined k σ a' b t := by
  obtain ⟨slot, is⟩ := appends
  obtain ⟨m, found, known⟩ := next
  have same : m = ⟨.append a b, slot⟩ := Option.some.inj (found.symm.trans is)
  subst same
  obtain rfl : slot = .known (some t) := known
  obtain ⟨a', c, same, behind, joined⟩ := h i a b _ le is
  cases same
  exact ⟨a', behind, joined⟩

/-! ### Putting streams together -/

theorem Eval.Comes.of_bind_ok {α β : Type} {x : Eval W α} {f : α → Eval W β} {y : β}
    (hx : Composed x) (h : (x >>= f).Comes σ (.ok y τ)) :
    ∃ z υ, x.Comes σ (.ok z υ) ∧ (f z).Comes υ (.ok y τ) := by
  rcases h.of_bind hx with h | ⟨e, υ, _, same⟩
  · exact h
  · cases same

theorem comes_newTail (v : Value) (t : Tail W) (σ : Store W) :
    (Stream.lazyCell v t).Comes σ (.ok (.lazy σ.nextSerial v ⟨σ.tails.size⟩)
      { σ with nextSerial := σ.nextSerial + 1, tails := σ.tails.push ⟨t, .unset⟩ }) :=
  comes_of_forall (fun _ => rfl) not_exhausted_ok

/-- A new tail. -/
theorem TailId.is_push (t : Tail W) (n : Nat) (σ : Store W) : (⟨σ.tails.size⟩ : TailId).Is
    { σ with nextSerial := n, tails := σ.tails.push ⟨t, .unset⟩ } t .unset := by
  simp [TailId.Is]

/-- A computation that looks at the first cell of a stream finds the end there, or an element. -/
theorem comes_cell {α : Type} {x : Eval W α} {f : Value → Eval W α} {y : α}
    (run : (a.isEmpty >>= fun e => if e = true then x else a.first >>= f).Comes σ (.ok y τ)) :
    (∃ υ, a.isEmpty.Comes σ (.ok true υ) ∧ x.Comes υ (.ok y τ)) ∨
      ∃ v υ φ, a.isEmpty.Comes σ (.ok false υ) ∧ a.first.Comes υ (.ok v φ) ∧
        (f v).Comes φ (.ok y τ) := by
  obtain ⟨e, υ, asked, run⟩ := Eval.Comes.of_bind_ok (composed_isEmpty a) run
  cases e with
  | true => exact .inl ⟨υ, asked, run⟩
  | false =>
    obtain ⟨v, φ, found, run⟩ := Eval.Comes.of_bind_ok (composed_first a) run
    exact .inr ⟨v, υ, φ, asked, found, run⟩

/-- Two streams that are put together are joined. -/
theorem joined_of_append (run : (a.append b).Comes σ (.ok c τ)) (le : k ≤ σ.tails.size) :
    Stream.Joined k τ a b c := by
  rcases comes_cell run with ⟨υ, asked, run⟩ | ⟨v, υ, φ, asked, found, run⟩
  · cases run.unique (comes_pure b υ)
    exact .ended (Stream.vacant_of_comes asked)
  · have grows := (composed_isEmpty a).grows_of_comes asked
    have grows' := (composed_first a).grows_of_comes found
    have made := comes_newTail v (.append a b) φ
    have more := (composed_lazyCell v (.append a b)).grows_of_comes made
    cases run.unique made
    refine .cell ((Stream.head_of_comes found).later more.knows) ?_ ⟨.unset, TailId.is_push _ _ φ⟩
    exact Nat.le_trans le (Nat.le_trans grows.tails.size_le grows'.tails.size_le)

/-- What the tail comes to is the rest of the first stream, followed by the second one. -/
theorem joined_of_compute {o : Option (Stream Value)}
    (run : (Tail.append a b).compute.Comes σ (.ok o τ)) (le : k ≤ σ.tails.size) :
    ∃ a' c, o = some c ∧ a.Next τ a' ∧ Stream.Joined k τ a' b c := by
  obtain ⟨a', υ, asked, run⟩ := Eval.Comes.of_bind_ok (composed_rest a) run
  obtain ⟨c, φ, put, run⟩ := Eval.Comes.of_bind_ok (composed_append a' b) run
  cases run.unique (comes_pure _ φ)
  have grows := (composed_rest a).grows_of_comes asked
  have grows' := (composed_append a' b).grows_of_comes put
  refine ⟨a', c, rfl, (Stream.next_of_comes asked).later grows'.knows, joined_of_append put ?_⟩
  exact Nat.le_trans le grows.tails.size_le

end

/-! ## Stores that keep the tails -/

section

variable {σ τ : Store W} {d : Deferred} {i : TailId} {k : Nat}

/-! ### Marks -/

theorem TailId.Is.part {x : Tail W} {slot : Slot (Option (Stream Value))} (h : i.Is σ x slot) :
    σ.part? (.tail i) = some ⟨x.compute, slot⟩ := by
  simp [Store.part?, show σ.tails[i.index]? = _ from h]

/-- While a tail is being computed it stays busy. -/
theorem TailId.Is.busy_later {x : Tail W} (h : i.Is σ x .unset)
    (g : (σ.mark (.tail i) .busy).Grows τ) : i.Is τ x .busy := by
  obtain ⟨slot, is, unset | rfl⟩ := (h.put .busy).later g
  · cases unset
  · exact is

theorem TailId.Is.unknown {x : Tail W} {slot : Slot (Option (Stream Value))} (h : i.Is σ x slot)
    (hs : ∀ o, slot ≠ .known o) (o : Option (Stream Value)) : σ.slot (.tail i) ≠ .known o := by
  rw [Store.slot_of_part h.part]
  exact hs o

/-- Where a part is not known, a mark makes nothing unknown. -/
theorem Store.secures_mark (h : ∀ a, σ.slot d ≠ .known a) (s : Slot d.Content) :
    σ.Secures (σ.mark d s) where
  tails := by
    intro i t known
    obtain ⟨m, found, known⟩ := known
    have other : d ≠ .tail ⟨i⟩ := by
      intro same
      subst same
      apply h t
      simp [slot, part?, found, known]
    exact ⟨m, (σ.tails_mark_other s other).trans found, known⟩
  cells := by
    intro i c known
    obtain ⟨m, found, known⟩ := known
    have other : d ≠ .cell ⟨i⟩ := by
      intro same
      subst same
      apply h c
      simp [slot, part?, found, known]
    exact ⟨m, (σ.cells_mark_other s other).trans found, known⟩
  appends := by
    intro i a b there
    obtain ⟨slot, found⟩ := there
    by_cases same : d = .tail i
    · subst same
      exact ⟨s, found.put s⟩
    · exact ⟨slot, (σ.tails_mark_other s same).trans found⟩

/-- A faithful store stays so if the value that is noted of a tail is what it should be. -/
theorem Store.Faithful.mark (h : σ.Faithful k) (hd : ∀ a, σ.slot d ≠ .known a) (s : Slot d.Content)
    (hs : ∀ (i : TailId) (a b : Stream Value) (o : Option (Stream Value)), d = .tail i →
      k ≤ i.index → i.Is (σ.mark d s) (.append a b) (.known o) →
      ∃ a' c, o = some c ∧ a.Next σ a' ∧ Stream.Joined k σ a' b c) : (σ.mark d s).Faithful k := by
  intro i a b o le is
  have secures := Store.secures_mark hd s
  -- The tail is the one that is marked, or it is as it was.
  have right : ∃ a' c, o = some c ∧ a.Next σ a' ∧ Stream.Joined k σ a' b c := by
    by_cases same : d = .tail i
    · exact hs i a b o same le is
    · exact h i a b o le ((σ.tails_mark_other s same).symm.trans is)
  obtain ⟨a', c, rfl, next, joined⟩ := right
  exact ⟨a', c, rfl, next.later secures.toKnows, joined.later secures⟩

/-- Marking a part of which nothing is known. -/
theorem Store.Faithful.mark_busy {x : Eval W d.Content} (h : σ.Faithful k)
    (found : σ.part? d = some ⟨x, .unset⟩) : (σ.mark d .busy).Faithful k := by
  apply h.mark
  · intro a known
    cases (Store.slot_of_part found).symm.trans known
  · intro i a b o same le is
    have busy := Store.busy_mark found
    subst same
    cases (Store.slot_of_part is.part).symm.trans busy

/-! ### Computations -/

theorem Store.Faithful.widens (h : σ.Faithful k) (w : σ.Widens τ) : τ.Faithful k := by
  intro i a b o le is
  rcases w.moreTails.new _ _ is with old | unset
  · obtain ⟨a', c, rfl, next, joined⟩ := h i a b o le old
    exact ⟨a', c, rfl, next.later w.toGrows.knows, joined.later w.toGrows.secures⟩
  · cases unset

/-- Every computation keeps faithful stores faithful, whether it succeeds or breaks off. -/
theorem Eval.Traced.faithful {α : Type} {x : Eval W α} {es : List Incident}
    {y : EStateM.Result Stop (Store W) α} (h : x.Traced σ es y) (faithful : σ.Faithful k) :
    (left y).Faithful k := by
  induction h with
  | change f σ _ hf => exact faithful.widens (hf σ)
  | bind _ _ ih ih' => exact ih' (ih faithful)
  | @computed d x σ es y found traced ih =>
    have busy := traced.busy_stays (Store.busy_mark found)
    rw [left_settle]
    apply (ih (faithful.mark_busy found)).mark
    · intro a known
      cases busy.symm.trans known
    · -- A tail that has just been computed is right because its function has come to it.
      intro i a b o same le is
      subst same
      obtain ⟨⟨t, _⟩, there, e⟩ := Option.map_eq_some_iff.mp found
      cases e
      have unset : i.Is σ t .unset := there
      have kept := unset.busy_later ((composed_compute t).grows_of_comes traced.comes)
      cases y with
      | error e υ => cases is.symm.trans (kept.put .unset)
      | ok o' υ =>
        cases is.symm.trans (kept.put (.known o'))
        refine joined_of_compute traced.comes (Nat.le_trans le (Nat.le_of_lt ?_))
        exact (unset.put .busy).lt_size
  | stop => exact faithful
  | broken _ ih => exact ih faithful
  | quiet _ ih => exact ih faithful
  | caught _ ih => exact ih faithful
  | lost _ ih => exact ih faithful
  | loop n _ _ _ ih => exact ih faithful
  | kept => exact faithful
  | reentered => exact faithful
  | missing => exact faithful
  | session _ ih => exact ih faithful

/-- No tail has been computed that is not there. -/
theorem Store.faithful_start (σ : Store W) : σ.Faithful σ.tails.size := by
  intro i a b o le is
  exact absurd is.lt_size (Nat.not_lt_of_le le)

end

/-! ## Later stores -/

/-- None of the tails that append is being computed, from the `k`-th tail on. -/
def Store.Free (k : Nat) (σ : Store W) : Prop :=
  ∀ (i : TailId) (a b : Stream Value), k ≤ i.index → i.Appends σ a b → σ.slot (.tail i) ≠ .busy

/-- A store at a later moment. Computations of the library have been run one after another, and each
has come to an end; functions of deferred parts may have been called that are still running, but
none of a tail that appends. -/
inductive Store.Later (σ : Store W) : Store W → Prop where
  | refl : Later σ σ
  /-- A computation has been run. -/
  | next {α : Type} {x : Eval W α} {τ : Store W} {y : EStateM.Result Stop (Store W) α} :
      Later σ τ → Regular x → x.Comes τ y → Later σ (left y)
  /-- A function has been called, which is still running. -/
  | call {d : Deferred} {x : Eval W d.Content} {τ : Store W} :
      Later σ τ → τ.part? d = some ⟨x, .unset⟩ → (∀ i a b, d = .tail i → ¬i.Appends τ a b) →
      Later σ (τ.mark d .busy)

section

variable {σ τ υ : Store W} {d : Deferred} {k : Nat}

theorem Store.grows_mark_busy {x : Eval W d.Content} (h : σ.part? d = some ⟨x, .unset⟩) :
    σ.Grows (σ.mark d .busy) := by
  have unset {θ α : Type} {f : Memo θ α → Memo (Eval W d.Content) d.Content} {m : Memo θ α}
      {o : Option (Memo θ α)} (found : o.map f = some ⟨x, .unset⟩) (there : o = some m) :
      f m = ⟨x, .unset⟩ := by
    subst there
    exact Option.some.inj found
  cases d with
  | tail i =>
    apply Shelf.lawful_tails.grows_busy
    intro m found
    exact congrArg Memo.slot (unset h found)
  | cell i =>
    apply Shelf.lawful_cells.grows_busy
    intro m found
    exact congrArg Memo.slot (unset h found)
  | result i =>
    apply Shelf.lawful_results.grows_busy
    intro m found
    exact congrArg Memo.slot (unset h found)
  | session i => cases h

theorem Store.free_start (σ : Store W) : σ.Free σ.tails.size := by
  intro i a b le appends
  obtain ⟨slot, is⟩ := appends
  exact absurd is.lt_size (Nat.not_lt_of_le le)

/-- When a computation has ended, no tail is being computed that was not before. -/
theorem Store.Free.left {α : Type} {x : Eval W α} {es : List Incident}
    {y : EStateM.Result Stop (Store W) α} (h : σ.Free k) (traced : x.Traced σ es y)
    (g : σ.Grows (left y)) : (ResumableParsing.left y).Free k := by
  intro i a b le appends busy
  obtain ⟨slot, is⟩ := appends
  -- A tail that is busy now has been busy before, and has appended the same streams then.
  have before := traced.busy_before busy
  obtain ⟨x', found⟩ := Store.part_of_slot before (by simp)
  obtain ⟨⟨t, s⟩, there, _⟩ := Option.map_eq_some_iff.mp found
  have tail : i.Is σ t s := there
  obtain ⟨s', kept, _⟩ := tail.later g
  cases is.symm.trans kept
  exact h i a b le ⟨s, tail⟩ before

end

namespace Store.Later

variable {σ τ υ : Store W} {k : Nat}

theorem single {α : Type} {x : Eval W α} {y : EStateM.Result Stop (Store W) α} (hx : Regular x)
    (run : x.Comes σ y) : σ.Later (left y) := .next .refl hx run

theorem trans (h : σ.Later τ) (h' : τ.Later υ) : σ.Later υ := by
  induction h' with
  | refl => exact h
  | next _ hx run ih => exact .next ih hx run
  | call _ found other ih => exact .call ih found other

theorem grows (h : σ.Later τ) : σ.Grows τ := by
  induction h with
  | refl => exact .refl σ
  | next _ hx run ih => exact ih.trans (hx.composed.grows_of_comes run)
  | call _ found _ ih => exact ih.trans (Store.grows_mark_busy found)

theorem faithful (h : σ.Later τ) (faithful : σ.Faithful k) : τ.Faithful k := by
  induction h with
  | refl => exact faithful
  | next _ hx run ih =>
    obtain ⟨es, traced⟩ := hx.traced run
    exact traced.faithful ih
  | call _ found _ ih => exact ih.mark_busy found

theorem free (h : σ.Later τ) (free : σ.Free k) : τ.Free k := by
  induction h with
  | refl => exact free
  | next _ hx run ih =>
    obtain ⟨es, traced⟩ := hx.traced run
    exact ih.left traced (hx.composed.grows_of_comes run)
  | @call d x τ _ found other ih =>
    intro i a b le appends busy
    obtain ⟨slot, is⟩ := appends
    by_cases same : d = .tail i
    · subst same
      obtain ⟨⟨t, s⟩, there, _⟩ := Option.map_eq_some_iff.mp found
      have tail : i.Is τ t s := there
      cases is.symm.trans (tail.put .busy)
      exact other i a b rfl ⟨s, tail⟩
    · rw [Store.slot_mark_other τ _ same] at busy
      exact ih i a b le ⟨slot, (τ.tails_mark_other _ same).symm.trans is⟩ busy

end Store.Later

end ResumableParsing
