import ResumableParsing.Proofs.Concatenation.Elements
import ResumableParsing.Proofs.Concatenation.Inspection

/-!
# Concatenation is lazy

Two streams that are put one after the other are read like one stream, as far as their elements are
found, and they are looked at only where they are read. This holds however many readers there are,
in whatever order they ask, and whatever else is computed in between; it holds for streams of all
kinds, concatenations among them; and it goes on to hold when computations have broken off.

* `Stream.Behind`, `Stream.Due`: cells of a stream, and what may be asked to reach a cell
* `Stream.Place`: where the cells of joined streams stand
* `Stream.Concatenates`: what joined streams are to their readers
* `append_is_lazy_concatenation`: putting streams together, reading them, and associativity
-/

namespace ResumableParsing

variable {W : Type}

/-! ## Cells -/

/-- It is known that `t` is what is left of `s` behind its first `k` elements. -/
inductive Stream.Behind (σ : Store W) (s : Stream Value) : Nat → Stream Value → Prop where
  | refl : Behind σ s 0 s
  | next {k : Nat} {t u : Stream Value} :
      Behind σ s k t → t.Occupied σ → t.Next σ u → Behind σ s (k + 1) u

/-- It is known that asking `s` for the rest leads to `t` when it is done `k` times, whether or not
there are so many elements. -/
inductive Stream.Onward (σ : Store W) (s : Stream Value) : Nat → Stream Value → Prop where
  | refl : Onward σ s 0 s
  | next {k : Nat} {t u : Stream Value} :
      Onward σ s k t → t.Next σ u → Onward σ s (k + 1) u

/-- What may be asked to reach the `k`-th cell of `a` followed by `b`. -/
inductive Stream.Due (a b : Stream Value) (k : Nat) (σ : Store W) :
    Stream Value → Stream.Question → Prop where
  /-- Anything of the first cells of `a`, and of the `k`-th one whether it is empty and what it
  holds. -/
  | first {j : Nat} {s : Stream Value} {q : Stream.Question} :
      a.Behind σ j s → j ≤ k → (q = .rest → j < k) → Due a b k σ s q
  /-- If `a` has ended before, what follows the first cells of `b`. -/
  | second {j l : Nat} {a' s : Stream Value} :
      a.Behind σ j a' → a'.Vacant σ → b.Onward σ l s → j + l < k → Due a b k σ s .rest

/-- Where the `k`-th cell stands of `a` followed by `b`. -/
inductive Stream.Place (base : Nat) (σ : Store W) (a b : Stream Value) :
    Nat → Stream Value → Prop where
  /-- It is put together from what is left of `a`, and `b`. -/
  | before {k : Nat} {a' t : Stream Value} :
      a.Behind σ k a' → Joined base σ a' b t → Place base σ a b k t
  /-- It is a cell of `b`. -/
  | beyond {j k l : Nat} {a' t : Stream Value} :
      a.Behind σ j a' → a'.Vacant σ → b.Onward σ l t → j + l = k → Place base σ a b k t

section

variable {σ τ : Store W} {a b c s t u : Stream Value} {q : Stream.Question} {base j k : Nat}

theorem Stream.Behind.later (h : s.Behind σ k t) (r : σ.Knows τ) : s.Behind τ k t := by
  induction h with
  | refl => exact .refl
  | next _ occupied next ih => exact .next ih (occupied.later r) (next.later r)

theorem Stream.Onward.later (h : s.Onward σ k t) (r : σ.Knows τ) : s.Onward τ k t := by
  induction h with
  | refl => exact .refl
  | next _ next ih => exact .next ih (next.later r)

theorem Stream.Behind.unique (h : s.Behind σ k t) (h' : s.Behind σ k u) : t = u := by
  induction h generalizing u with
  | refl =>
    cases h'
    rfl
  | next _ _ next ih =>
    cases h' with
    | next behind _ next' =>
      cases ih behind
      exact next.unique next'

/-- Elements are passed only where there are elements. -/
theorem Stream.Behind.occupied (h : s.Behind σ k u) (h' : s.Behind σ j t) (less : j < k) :
    t.Occupied σ := by
  induction h with
  | refl => omega
  | @next k u w behind occupied _ ih =>
    rcases Nat.lt_succ_iff_lt_or_eq.mp less with less | rfl
    · exact ih less
    · exact behind.unique h' ▸ occupied

theorem Stream.Due.succ (h : a.Due b k σ s q) : a.Due b (k + 1) σ s q := by
  cases h with
  | first behind le rest => exact .first behind (by omega) fun h => Nat.lt_succ_of_lt (rest h)
  | second behind vacant onward less => exact .second behind vacant onward (by omega)

/-- What follows a cell is the next cell. -/
theorem Stream.Place.next (h : Place base σ a b k t) (faithful : τ.Faithful base)
    (run : t.rest.Comes σ (.ok u τ)) : Place base τ a b (k + 1) u := by
  have grows := (composed_rest t).grows_of_comes run
  have next := Stream.next_of_comes run
  cases h with
  | before behind joined =>
    have behind := behind.later grows.knows
    cases joined.later grows.secures with
    -- The first stream has ended, so the cell is the second stream itself.
    | ended vacant => exact .beyond behind vacant (.next .refl next) rfl
    | cell head le appends =>
      obtain ⟨a'', behind', joined⟩ := faithful.next le appends next
      exact .before (.next behind head.occupied behind') joined
  | beyond behind vacant onward place =>
    exact .beyond (behind.later grows.knows) (vacant.later grows.knows)
      (.next (onward.later grows.knows) next) (by omega)

/-- What follows a cell is found by questions that are due. -/
theorem Stream.Place.course (h : Place base σ a b k t) (faithful : σ.Faithful base)
    (free : σ.Free base) : t.rest.Course b (a.Due b (k + 1)) σ := by
  cases h with
  | before behind joined =>
    cases joined with
    | ended vacant => exact .rest (.second behind vacant .refl (Nat.lt_succ_self k))
    | cell head le appends =>
      apply course_rest faithful le appends free
      · intro υ more
        exact .first (behind.later more.toKnows) (Nat.le_succ k) fun _ => Nat.lt_succ_self k
      · intro υ a'' q more next hq
        have behind' := behind.later more.toKnows
        have occupied := head.occupied.later more.toKnows
        exact .first (.next behind' occupied next) (Nat.le_refl _) fun h => absurd h hq
  | beyond behind vacant onward place =>
    exact .rest (.second behind vacant onward (by omega))

/-- The cell that is reached. -/
theorem Stream.Joined.place (joined : Joined base σ a b c) (faithful : σ.Faithful base)
    (run : (c.rests k).Comes σ (.ok t τ)) : Place base τ a b k t := by
  induction k generalizing t τ with
  | zero =>
    cases run.unique (comes_pure c σ)
    exact .before .refl joined
  | succ k ih =>
    obtain ⟨t', υ, reached, run⟩ := Eval.Comes.of_bind_ok (regular_rests k c).composed run
    have later := (Store.Later.single (regular_rests k c) reached).next (regular_rest t') run
    exact (ih reached).next (later.faithful faithful) run

/-- A cell is reached by questions that are due. -/
theorem Stream.Joined.course (joined : Joined base σ a b c) (faithful : σ.Faithful base)
    (free : σ.Free base) (k : Nat) : (c.rests k).Course b (a.Due b k) σ := by
  induction k with
  | zero => exact .pure c σ
  | succ k ih =>
    apply Eval.Course.bind (regular_rests k c).composed
    · exact ih.imp fun υ s q _ due => due.succ
    · intro t υ reached
      have later := Store.Later.single (regular_rests k c) reached
      exact (joined.place faithful reached).course (later.faithful faithful) (later.free free)

/-- As long as the first stream has not ended, the cells are put together from what is left. -/
theorem Stream.Place.joined {a' : Stream Value} (h : Place base σ a b k t)
    (behind : a.Behind σ k a') (occupied : a'.Occupied σ) : Joined base σ a' b t := by
  cases h with
  | before behind' joined =>
    cases behind'.unique behind
    exact joined
  | @beyond j k l a'' _ behind' vacant _ place =>
    have other : a''.Occupied σ := by
      rcases Nat.lt_or_eq_of_le (show j ≤ k by omega) with less | rfl
      · exact behind.occupied behind' less
      · exact behind.unique behind' ▸ occupied
    exact absurd vacant other.not_vacant

/-- From the end of the first stream on, the cells are those of the second one. -/
theorem Stream.Place.shared {l : Nat} {a' : Stream Value} (h : Place base σ a b (k + l) t)
    (behind : a.Behind σ k a') (vacant : a'.Vacant σ) : b.Onward σ l t := by
  -- No cell of the first stream is known behind its end.
  have reached {j : Nat} {s : Stream Value} (behind' : a.Behind σ j s) : j ≤ k := by
    apply Nat.le_of_not_lt
    intro less
    exact (behind'.occupied behind less).not_vacant vacant
  cases h with
  | before behind' joined =>
    obtain rfl : l = 0 := by
      have := reached behind'
      omega
    cases behind'.unique behind
    rw [joined.eq_of_vacant vacant]
    exact .refl
  | @beyond j _ l' _ _ behind' vacant' onward place =>
    obtain rfl : l' = l := by
      have le := reached behind'
      have ge : k ≤ j := by
        apply Nat.le_of_not_lt
        intro less
        exact (behind.occupied behind' less).not_vacant vacant'
      omega
    exact onward

end

/-! ## Readers -/

/-- What `c` is in the store `τ` to those who read it: `a` followed by `b`. -/
structure Stream.Concatenates (τ : Store W) (a b c : Stream Value) : Prop where
  /-- To reach its `k`-th cell, nothing is asked of cells of `a` beyond the `k`-th one, and nothing
  of `b` before `a` has ended. -/
  asks : ∀ k, (c.rests k).Course b (a.Due b k) τ
  /-- As long as `a` has not ended the `k`-th cell holds the `k`-th element of `a`. -/
  first : ∀ k t υ a', (c.rests k).Comes τ (.ok t υ) → a.Behind υ k a' → a'.Occupied υ →
    ∃ v, a'.Head υ v ∧ t.Head υ v
  /-- From the end of `a` on, the cells are `b` and what follows it. -/
  shares : ∀ k l t υ a', (c.rests (k + l)).Comes τ (.ok t υ) → a.Behind υ k a' →
    a'.Vacant υ → b.Onward υ l t
  /-- The first elements are those of `a`, and if there are not enough, then those of `b`. -/
  taken : ∀ k xs υ, (c.take k).Comes τ (.ok xs υ) → ∃ as bs, xs = as ++ bs ∧
    (a.take k).Comes υ (.ok as υ) ∧ (b.take (k - as.length)).Comes υ (.ok bs υ)
  /-- If they are known of `a` and `b`, they are found. -/
  takes : ∀ k as bs, (a.take k).Comes τ (.ok as τ) →
    (b.take (k - as.length)).Comes τ (.ok bs τ) → ∃ υ, (c.take k).Comes τ (.ok (as ++ bs) υ)
  /-- All elements are those of `a` and then those of `b`. -/
  listed : ∀ xs υ, c.toList.Comes τ (.ok xs υ) → ∃ as bs, xs = as ++ bs ∧
    a.toList.Comes υ (.ok as υ) ∧ b.toList.Comes υ (.ok bs υ)
  /-- If they are known of `a` and `b`, they are found. -/
  lists : ∀ as bs, a.toList.Comes τ (.ok as τ) → b.toList.Comes τ (.ok bs τ) →
    ∃ υ, c.toList.Comes τ (.ok (as ++ bs) υ)
  /-- If the computation of a tail breaks off, the tail is as it was before: it has still to be
  computed from the rest of the same cell of `a`. -/
  retries : ∀ k t υ a' e φ, (c.rests k).Comes τ (.ok t υ) → a.Behind υ k a' → a'.Occupied υ →
    t.rest.Comes υ (.error e φ) → ∃ n v i, t = .lazy n v i ∧ i.Is φ (.append a' b) .unset

/-- What is read of the first stream, as far as one likes or to the end, can from then on be read of
the second one. -/
def Stream.ReadAs (τ : Store W) (s t : Stream Value) : Prop :=
  (∀ k xs υ, (s.take k).Comes τ (.ok xs υ) →
    ∀ φ, υ.Later φ → ∃ ψ, (t.take k).Comes φ (.ok xs ψ)) ∧
  ∀ xs υ, s.toList.Comes τ (.ok xs υ) → ∀ φ, υ.Later φ → ∃ ψ, t.toList.Comes φ (.ok xs ψ)

section

variable {σ τ : Store W} {a b c d e l r s t : Stream Value} {base k : Nat}

/-- What is taken from joined streams, and what can be taken. -/
theorem Stream.Joined.concatenates (joined : Joined base τ a b c) (faithful : τ.Faithful base)
    (free : τ.Free base) : Concatenates τ a b c where
  asks k := joined.course faithful free k
  first k t υ a' run behind occupied := by
    have joined' := (joined.place faithful run).joined behind occupied
    obtain ⟨n, v, i, rfl, head, _, _⟩ := joined'.cell_of_occupied occupied
    exact ⟨v, head, rfl⟩
  shares k l t υ a' run behind vacant := (joined.place faithful run).shared behind vacant
  taken k xs υ run := by
    have later := Store.Later.single (regular_take c k) run
    obtain ⟨as, bs, rfl, first, second⟩ :=
      (joined.later later.grows.secures).splits (later.faithful faithful) (holds_of_take run)
    exact ⟨as, bs, rfl, first.comes_take, second.comes_take⟩
  takes k as bs run run' := by
    have first : a.Offers base τ k as := .holds (holds_of_take run)
    have second : b.Offers base τ (k - as.length) bs := .holds (holds_of_take run')
    exact (joined.offers first second).comes_take faithful free
  listed xs υ run := by
    have later := Store.Later.single (regular_toList c) run
    -- A stream is at its end if one more element has been asked for than there are.
    have holds := holds_of_toList run (Nat.lt_succ_self _)
    obtain ⟨as, bs, rfl, first, second⟩ :=
      (joined.later later.grows.secures).splits (later.faithful faithful) holds
    rw [List.length_append] at first second
    exact ⟨as, bs, rfl, first.comes_toList (by omega), second.comes_toList (by omega)⟩
  lists as bs run run' := by
    have first : a.Offers base τ (as.length + bs.length + 1) as :=
      .holds (holds_of_toList run (by omega))
    have second : b.Offers base τ (as.length + bs.length + 1 - as.length) bs :=
      .holds (holds_of_toList run' (by omega))
    obtain ⟨υ, run⟩ := (joined.offers first second).comes_take faithful free
    exact ⟨υ, comes_toList_iff.mpr ⟨_, by simp, run⟩⟩
  retries k t υ a' e φ reached behind occupied run := by
    have later := Store.Later.single (regular_rests k c) reached
    have joined' := (joined.place faithful reached).joined behind occupied
    obtain ⟨n, v, i, rfl, _, le, appends⟩ := joined'.cell_of_occupied occupied
    exact ⟨n, v, i, rfl, unset_of_rest_error (later.faithful faithful) le appends
      (later.free free) run⟩

/-- What has been taken from the one stream can be taken from the other one, if that offers it. -/
theorem Stream.ReadAs.of_offers (faithful : τ.Faithful base) (free : τ.Free base)
    (offers : ∀ k xs υ, τ.Later υ → s.Holds υ k xs → t.Offers base υ k xs) : ReadAs τ s t := by
  have takes {k : Nat} {xs : List Value} {υ φ : Store W} (later : τ.Later υ) (more : υ.Later φ)
      (holds : s.Holds υ k xs) : ∃ ψ, (t.take k).Comes φ (.ok xs ψ) :=
    ((offers k xs υ later holds).later more.grows.secures).comes_take
      ((later.trans more).faithful faithful) ((later.trans more).free free)
  constructor
  · intro k xs υ run φ more
    exact takes (.single (regular_take s k) run) more (holds_of_take run)
  · intro xs υ run φ more
    have holds := holds_of_toList run (Nat.lt_succ_self _)
    obtain ⟨ψ, run'⟩ := takes (.single (regular_toList s) run) more holds
    exact ⟨ψ, comes_toList_iff.mpr ⟨_, Nat.lt_succ_self _, run'⟩⟩

/-- The brackets may be moved to the right. -/
theorem Stream.Joined.assoc_right (faithful : τ.Faithful base) (free : τ.Free base)
    (he : Joined base τ a b e) (hl : Joined base τ e c l) (hd : Joined base τ b c d)
    (hr : Joined base τ a d r) : ReadAs τ l r := by
  apply ReadAs.of_offers faithful free
  intro k xs υ later holds
  have secures := later.grows.secures
  have faithful := later.faithful faithful
  obtain ⟨es, cs, rfl, first, third⟩ := (hl.later secures).splits faithful holds
  obtain ⟨as, bs, rfl, first, second⟩ := (he.later secures).splits faithful first
  rw [List.length_append, ← Nat.sub_sub] at third
  rw [List.append_assoc]
  exact (hr.later secures).offers (.holds first)
    ((hd.later secures).offers (.holds second) (.holds third))

/-- And to the left. -/
theorem Stream.Joined.assoc_left (faithful : τ.Faithful base) (free : τ.Free base)
    (he : Joined base τ a b e) (hl : Joined base τ e c l) (hd : Joined base τ b c d)
    (hr : Joined base τ a d r) : ReadAs τ r l := by
  apply ReadAs.of_offers faithful free
  intro k xs υ later holds
  have secures := later.grows.secures
  have faithful := later.faithful faithful
  obtain ⟨as, ds, rfl, first, second⟩ := (hr.later secures).splits faithful holds
  obtain ⟨bs, cs, rfl, second, third⟩ := (hd.later secures).splits faithful second
  rw [Nat.sub_sub, ← List.length_append] at third
  rw [← List.append_assoc]
  exact (hl.later secures).offers ((he.later secures).offers (.holds first) (.holds second))
    (.holds third)

end

/-- Putting one stream after another is lazy concatenation. Making it asks the first stream whether
it is empty and what comes first, and nothing else. What has been put together since a store `σ` is,
at every later moment, the one stream followed by the other one, whatever has been computed or has
broken off in between and in whatever order. Three streams may be put together in either order. -/
theorem append_is_lazy_concatenation {σ τ : Store W} (later : σ.Later τ) :
    (∀ a b : Stream Value, (a.append b).Course b (fun _ s q => s = a ∧ q ≠ .rest) τ ∧
      ∀ c υ, (a.append b).Comes τ (.ok c υ) →
        ∀ φ, υ.Later φ → Stream.Joined σ.tails.size φ a b c) ∧
    (∀ a b c, Stream.Joined σ.tails.size τ a b c → ∀ φ, τ.Later φ → Stream.Concatenates φ a b c) ∧
    ∀ a b c d e l r, Stream.Joined σ.tails.size τ a b e → Stream.Joined σ.tails.size τ e c l →
      Stream.Joined σ.tails.size τ b c d → Stream.Joined σ.tails.size τ a d r →
      Stream.ReadAs τ l r ∧ Stream.ReadAs τ r l := by
  have faithful := later.faithful σ.faithful_start
  have free := later.free σ.free_start
  refine ⟨fun a b => ⟨?_, ?_⟩, ?_, ?_⟩
  · exact course_append fun υ q _ hq => ⟨rfl, hq⟩
  · intro c υ run φ more
    exact (joined_of_append run later.grows.tails.size_le).later more.grows.secures
  · intro a b c joined φ more
    exact (joined.later more.grows.secures).concatenates (more.faithful faithful) (more.free free)
  · intro a b c d e l r he hl hd hr
    exact ⟨Stream.Joined.assoc_right faithful free he hl hd hr,
      Stream.Joined.assoc_left faithful free he hl hd hr⟩

/-- A stream over an iterator that raises a fault between its two elements, before anything has been
asked. -/
def faultyStore : Store Unit :=
  { Store.initial () fun _ w => w with
    iterators := #[.caller (fun n w => (match n with
      | 0 => .item (.int 1)
      | 1 => .failed .waitingTail
      | 2 => .item (.int 2)
      | _ => .finished, w)) 0]
    cells := #[⟨⟨0⟩, .unset⟩] }

/-- The fault comes through when the second element is asked for, and no element is missing when the
stream is read after that. -/
theorem append_is_lazy_concatenation_faulty : ∃ c f τ₁ τ₂ τ₃ xs,
    (Stream.append (.pulled ⟨0⟩) (.cons 0 (.int 3) .nil)).Comes faultyStore (.ok c τ₁) ∧
      c.rest.Comes τ₁ (.error (.raised f) τ₂) ∧ faultyStore.Later τ₂ ∧
      Stream.Concatenates τ₂ (.pulled ⟨0⟩) (.cons 0 (.int 3) .nil) c ∧
      c.toList.Comes τ₂ (.ok xs τ₃) ∧ xs.map Value.integer? = [some 1, some 2, some 3] := by
  let a : Stream Value := .pulled ⟨0⟩
  let b : Stream Value := .cons 0 (.int 3) .nil
  have script : succeeded ((do
      let c ← a.append b
      let r ← Eval.catching c.rest
      let xs ← c.toList
      unless r.toOption.isNone ∧ xs.map Value.integer? = [some 1, some 2, some 3] do
        Eval.fault .notAStream
      : Eval Unit Unit).exec 10 faultyStore) = true := by
    decide +kernel
  obtain ⟨_, _, script⟩ := exists_of_succeeded script
  obtain ⟨c, τ₁, made, script⟩ := ok_of_bind script
  obtain ⟨r, τ₂, asked, script⟩ := ok_of_bind script
  obtain ⟨xs, τ₃, read, script⟩ := ok_of_bind script
  have checked : r.toOption.isNone ∧ xs.map Value.integer? = [some 1, some 2, some 3] := by
    by_contra h
    simp only [if_neg h] at script
    cases script
  have made := (composed_append a b).comes made not_exhausted_ok
  have read := (regular_toList c).composed.comes read not_exhausted_ok
  cases r with
  | ok => cases checked.1
  | error f =>
    have fails : c.rest.Comes τ₁ (.error (.raised f) τ₂) := by
      apply (composed_rest c).comes (n := 10) ?_ (not_exhausted_error (by simp))
      unfold Eval.catching at asked
      unfold Eval.exec
      split at asked <;> cases asked
      assumption
    have onward : τ₁.Later τ₂ := .single (regular_rest c) fails
    have later := (Store.Later.single (regular_append a b) made).trans onward
    -- The stream has been joined when it was made, and it still is after the fault.
    obtain ⟨making, _, _⟩ := append_is_lazy_concatenation (.refl (σ := faultyStore))
    obtain ⟨_, readers, _⟩ := append_is_lazy_concatenation later
    have joined := (making a b).2 c τ₁ made τ₂ onward
    exact ⟨c, f, τ₁, τ₂, τ₃, xs, made, fails, later, readers a b c joined τ₂ .refl, read, checked.2⟩

end ResumableParsing
