import ResumableParsing.Proofs.Concatenation.Joints

/-!
# The elements of joined streams

What has been read from a stream is known, and is found again. A stream that is put together from
streams of which enough is known can be read as well, to any depth of nesting, although its own
tails have still to be computed.

* `Stream.Holds`: the first elements of a stream are known
* `holds_of_take`, `Stream.Holds.comes_take`: what has been taken is known
* `Stream.Offers`: the first elements can be found, by computing tails that append at most
* `Stream.Offers.comes_take`: what a stream offers can be taken
* `Stream.Joined.splits`: what is known of joined streams is known of their parts
-/

namespace ResumableParsing

variable {W : Type}

/-! ## Known elements -/

/-- It is known that these are the first `k` elements; if there are fewer, it is known that there
are no more. -/
inductive Stream.Holds (σ : Store W) : Nat → Stream Value → List Value → Prop where
  /-- Nothing is said. -/
  | none (s : Stream Value) : Holds σ 0 s []
  /-- The end is known. -/
  | ended {k : Nat} {s : Stream Value} : s.Vacant σ → Holds σ (k + 1) s []
  /-- The last of the elements is known; what comes behind it need not be. -/
  | last {s : Stream Value} {v : Value} : s.Head σ v → Holds σ 1 s [v]
  /-- An element is known, and what comes behind it. -/
  | more {k : Nat} {s t : Stream Value} {v : Value} {vs : List Value} :
      s.Head σ v → s.Next σ t → Holds σ (k + 1) t vs → Holds σ (k + 2) s (v :: vs)

section

variable {σ τ : Store W} {s t : Stream Value} {v : Value} {vs xs done : List Value} {k : Nat}

theorem Stream.Head.unique {w : Value} (h : s.Head σ v) (h' : s.Head σ w) : v = w :=
  (EStateM.Result.ok.inj (h.comes.unique h'.comes)).1

namespace Stream.Holds

theorem later (h : s.Holds σ k vs) (r : σ.Knows τ) : s.Holds τ k vs := by
  induction h with
  | none s => exact .none s
  | ended vacant => exact .ended (vacant.later r)
  | last head => exact .last (head.later r)
  | more head next _ ih => exact .more (head.later r) (next.later r) ih

theorem next (h : s.Holds σ (k + 2) (v :: vs)) (ht : s.Next σ t) : t.Holds σ (k + 1) vs := by
  cases h with
  | more _ next rest => exact ht.unique next ▸ rest

/-- If the stream has fewer elements, more of them can be asked for. -/
theorem enough {l : Nat} (h : s.Holds σ k vs) (hk : vs.length < k) (hl : vs.length < l) :
    s.Holds σ l vs := by
  induction h generalizing l with
  | none s => simp at hk
  | ended vacant =>
    obtain ⟨l, rfl⟩ : ∃ m, l = m + 1 := ⟨l - 1, by omega⟩
    exact .ended vacant
  | last head => simp at hk
  | more head next _ ih =>
    simp only [List.length_cons] at hk hl
    obtain ⟨l, rfl⟩ : ∃ m, l = m + 2 := ⟨l - 2, by omega⟩
    exact .more head next (ih (by omega) (by omega))

/-- Known elements are found, and nothing changes. -/
theorem comes_takeFrom (h : s.Holds σ k vs) (done : List Value) :
    (takeFrom k done s).Comes σ (.ok (done.reverse ++ vs) σ) := by
  induction h generalizing done with
  | none s =>
    rw [List.append_nil]
    exact comes_pure _ σ
  | ended vacant =>
    rw [List.append_nil]
    exact comes_bind_ok vacant.comes (comes_pure _ σ)
  | last head =>
    rw [← List.reverse_cons]
    exact comes_bind_ok head.occupied.comes (comes_bind_ok head.comes (comes_pure _ σ))
  | @more k s t v vs head next _ ih =>
    have rest := ih (v :: done)
    rw [List.reverse_cons, List.append_assoc, List.singleton_append] at rest
    exact comes_bind_ok head.occupied.comes (comes_bind_ok head.comes
      (comes_bind_ok next.comes rest))

theorem comes_take (h : s.Holds σ k vs) : (s.take k).Comes σ (.ok vs σ) := h.comes_takeFrom []

end Stream.Holds

/-- What has been found is known. -/
theorem holds_of_takeFrom (run : (Stream.takeFrom k done s).Comes σ (.ok xs τ)) :
    ∃ vs, xs = done.reverse ++ vs ∧ s.Holds τ k vs := by
  induction k generalizing done s σ with
  | zero =>
    cases run.unique (comes_pure _ σ)
    exact ⟨[], by simp, .none s⟩
  | succ k ih =>
    rcases comes_cell run with ⟨σ₁, asked, run⟩ | ⟨v, σ₁, σ₂, asked, found, run⟩
    · cases run.unique (comes_pure _ σ₁)
      exact ⟨[], by simp, .ended (Stream.vacant_of_comes asked)⟩
    · have head := Stream.head_of_comes found
      cases k with
      | zero =>
        cases run.unique (comes_pure _ σ₂)
        exact ⟨[v], by simp, .last head⟩
      | succ k =>
        obtain ⟨t, σ₃, behind, run⟩ := Eval.Comes.of_bind_ok (composed_rest s) run
        obtain ⟨vs, rfl, holds⟩ := ih run
        have behind_grows := (composed_rest s).grows_of_comes behind
        have grows := (regular_takeFrom _ _ t).composed.grows_of_comes run
        refine ⟨v :: vs, by simp, .more ?_ ?_ holds⟩
        · exact (head.later behind_grows.knows).later grows.knows
        · exact (Stream.next_of_comes behind).later grows.knows

theorem holds_of_take (run : (s.take k).Comes σ (.ok xs τ)) : s.Holds τ k xs := by
  obtain ⟨vs, rfl, holds⟩ := holds_of_takeFrom run
  exact holds

/-! ### All elements -/

/-- A stream that has been read to its end shows the same elements if more of them are asked for
than there are. -/
theorem comes_takeFrom_of_toListFrom {n : Nat}
    (run : (Stream.toListFrom n done s).Comes σ (.ok xs τ)) : ∃ vs, xs = done.reverse ++ vs ∧
      ∀ k, vs.length < k → (Stream.takeFrom k done s).Comes σ (.ok xs τ) := by
  induction n generalizing done s σ with
  | zero =>
    obtain ⟨_, n, run⟩ := run
    cases run n (Nat.le_refl n)
  | succ n ih =>
    rcases comes_cell run with ⟨σ₁, asked, run⟩ | ⟨v, σ₁, σ₂, asked, found, run⟩
    · cases run.unique (comes_pure _ σ₁)
      refine ⟨[], by simp, fun k hk => ?_⟩
      obtain ⟨k, rfl⟩ : ∃ m, k = m + 1 := ⟨k - 1, by simp at hk; omega⟩
      exact comes_bind_ok asked (comes_pure _ _)
    · obtain ⟨t, σ₃, behind, run⟩ := Eval.Comes.of_bind_ok (composed_rest s) run
      obtain ⟨vs, rfl, takes⟩ := ih run
      refine ⟨v :: vs, by simp, fun k hk => ?_⟩
      rw [List.length_cons] at hk
      obtain ⟨k, rfl⟩ : ∃ m, k = m + 2 := ⟨k - 2, by omega⟩
      exact comes_bind_ok asked (comes_bind_ok found (comes_bind_ok behind
        (takes (k + 1) (by omega))))

/-- A stream of which fewer elements have been taken than have been asked for has been read to its
end. -/
theorem comes_toListFrom_of_takeFrom (run : (Stream.takeFrom k done s).Comes σ (.ok xs τ)) :
    ∃ vs, xs = done.reverse ++ vs ∧
      (vs.length < k → ∃ n, (Stream.toListFrom n done s).Comes σ (.ok xs τ)) := by
  induction k generalizing done s σ with
  | zero =>
    cases run.unique (comes_pure _ σ)
    exact ⟨[], by simp, by simp⟩
  | succ k ih =>
    rcases comes_cell run with ⟨σ₁, asked, run⟩ | ⟨v, σ₁, σ₂, asked, found, run⟩
    · cases run.unique (comes_pure _ σ₁)
      exact ⟨[], by simp, fun _ => ⟨1, comes_bind_ok asked (comes_pure _ _)⟩⟩
    · cases k with
      | zero =>
        cases run.unique (comes_pure _ σ₂)
        exact ⟨[v], by simp, by simp⟩
      | succ k =>
        obtain ⟨t, σ₃, behind, run⟩ := Eval.Comes.of_bind_ok (composed_rest s) run
        obtain ⟨vs, rfl, lists⟩ := ih run
        refine ⟨v :: vs, by simp, fun hk => ?_⟩
        rw [List.length_cons] at hk
        obtain ⟨n, onward⟩ := lists (by omega)
        exact ⟨n + 1, comes_bind_ok asked (comes_bind_ok found (comes_bind_ok behind onward))⟩

/-- Reading a stream to its end is asking it for more elements than there are. -/
theorem comes_toList_iff : s.toList.Comes σ (.ok xs τ) ↔
    ∃ k, xs.length < k ∧ (s.take k).Comes σ (.ok xs τ) := by
  have rounds (n : Nat) := (regular_toListFrom n [] s : Regular (W := W) _).composed
  constructor
  · intro run
    obtain ⟨n, run⟩ := of_comes_loop rounds run
    obtain ⟨vs, rfl, takes⟩ := comes_takeFrom_of_toListFrom run
    exact ⟨_, Nat.lt_succ_self _, takes _ (Nat.lt_succ_self _)⟩
  · intro ⟨k, hk, run⟩
    obtain ⟨vs, rfl, lists⟩ := comes_toListFrom_of_takeFrom run
    obtain ⟨n, run⟩ := lists hk
    exact comes_loop rounds (fun n m σ => exhausted_or_toListFrom n [] s m σ) run

/-- A stream that has been read to its end shows as many elements as are asked for. -/
theorem holds_of_toList (run : s.toList.Comes σ (.ok xs τ)) (hk : xs.length < k) :
    s.Holds τ k xs := by
  obtain ⟨l, hl, run⟩ := comes_toList_iff.mp run
  exact (holds_of_take run).enough hl hk

theorem Stream.Holds.comes_toList (h : s.Holds σ k vs) (hk : vs.length < k) :
    s.toList.Comes σ (.ok vs σ) := comes_toList_iff.mpr ⟨k, hk, h.comes_take⟩

/-! ## The elements of both streams -/

/-- What is known of joined streams is known of the one and then of the other. -/
theorem Stream.Joined.splits {base : Nat} {a b c : Stream Value} (joined : Joined base σ a b c)
    (faithful : σ.Faithful base) (holds : c.Holds σ k xs) :
    ∃ as bs, xs = as ++ bs ∧ a.Holds σ k as ∧ b.Holds σ (k - as.length) bs := by
  induction holds generalizing a with
  | none s => exact ⟨[], [], rfl, .none a, .none b⟩
  | @ended k s vacant =>
    cases joined with
    | ended first => exact ⟨[], [], rfl, .ended first, .ended vacant⟩
    | cell _ _ _ => exact vacant.elim
  | @last s v head =>
    cases joined with
    | ended first => exact ⟨[], [v], rfl, .ended first, .last head⟩
    | cell first _ _ =>
      obtain rfl : v = _ := head
      exact ⟨[v], [], rfl, .last first, .none b⟩
  | @more k s t v vs head next rest ih =>
    cases joined with
    | ended first => exact ⟨[], v :: vs, rfl, .ended first, .more head next rest⟩
    | cell first le appends =>
      obtain rfl : v = _ := head
      -- The tail of a joined cell is joined again, as the store is faithful.
      obtain ⟨a', behind, joined⟩ := faithful.next le appends next
      obtain ⟨as, bs, rfl, hold, hold'⟩ := ih joined
      refine ⟨v :: as, bs, rfl, .more first behind hold, ?_⟩
      show b.Holds σ (k + 1 + 1 - (as.length + 1)) bs
      rwa [Nat.add_sub_add_right]

end

/-! ## Elements that can be found -/

/-- The first `k` elements can be found, or all of them, if there are fewer: they are known, or the
stream is put together from streams whose elements can be found. Its own tails need not be known. -/
inductive Stream.Offers (base : Nat) (σ : Store W) : Nat → Stream Value → List Value → Prop where
  /-- The elements are known. -/
  | holds {k : Nat} {s : Stream Value} {vs : List Value} : s.Holds σ k vs → Offers base σ k s vs
  /-- The elements of the first stream can be found, and then those of the second one. -/
  | joined {k n : Nat} {v : Value} {i : TailId} {a b : Stream Value} {vs ws : List Value} :
      a.Head σ v → base ≤ i.index → i.Appends σ a b → Offers base σ (k + 1) a (v :: vs) →
      Offers base σ (k - vs.length) b ws → Offers base σ (k + 1) (.lazy n v i) (v :: (vs ++ ws))

section

variable {base : Nat} {σ τ : Store W} {a b c s t : Stream Value} {i : TailId} {v : Value}
  {vs as bs : List Value} {k : Nat}

namespace Stream.Offers

theorem later (h : s.Offers base σ k vs) (r : σ.Secures τ) : s.Offers base τ k vs := by
  induction h with
  | holds h => exact .holds (h.later r.toKnows)
  | joined head le appends _ _ ih ih' =>
    exact .joined (head.later r.toKnows) le (r.appends appends) ih ih'

theorem nil_of_zero (h : s.Offers base σ 0 vs) : vs = [] := by
  cases h with
  | holds h =>
    cases h
    rfl

theorem length_le (h : s.Offers base σ k vs) : vs.length ≤ k := by
  induction h with
  | holds h =>
    induction h with
    | none s => simp
    | ended _ => simp
    | last _ => simp
    | more _ _ _ ih =>
      rw [List.length_cons]
      omega
  | joined _ _ _ _ _ ih ih' =>
    rw [List.length_cons] at ih ⊢
    rw [List.length_append]
    omega

theorem vacant (h : s.Offers base σ (k + 1) []) : s.Vacant σ := by
  cases h with
  | holds h =>
    cases h with
    | ended vacant => exact vacant

theorem head (h : s.Offers base σ k (v :: vs)) : s.Head σ v := by
  cases h with
  | holds h =>
    cases h with
    | last head => exact head
    | more head _ _ => exact head
  | joined _ _ _ _ _ => rfl

end Stream.Offers

/-- What two streams offer, their concatenation offers. -/
theorem Stream.Joined.offers (joined : Joined base σ a b c) (ha : a.Offers base σ k as)
    (hb : b.Offers base σ (k - as.length) bs) : c.Offers base σ k (as ++ bs) := by
  cases joined with
  | ended vacant =>
    cases as with
    | nil => exact hb
    | cons v as => exact absurd vacant ha.head.occupied.not_vacant
  | @cell n v i head le appends =>
    cases k with
    | zero =>
      obtain rfl := ha.nil_of_zero
      obtain rfl := hb.nil_of_zero
      exact .holds (.none _)
    | succ k =>
      cases as with
      | nil => exact absurd ha.vacant head.occupied.not_vacant
      | cons w as =>
        obtain rfl := head.unique ha.head
        rw [List.length_cons, Nat.add_sub_add_right] at hb
        exact .joined head le appends ha hb

/-- What is known behind the first element offers the elements behind it. -/
theorem Stream.Offers.next (h : s.Offers base σ (k + 1) (v :: vs)) (hk : 0 < k)
    (faithful : σ.Faithful base) (next : s.Next σ t) : t.Offers base σ k vs := by
  -- Behind a cell that is put together comes the rest of the first stream, so the induction is on
  -- the way in which the elements are offered.
  generalize hl : k + 1 = l at h
  generalize hw : v :: vs = ws at h
  induction h generalizing v vs t with
  | holds h =>
    subst hl hw
    obtain ⟨k, rfl⟩ : ∃ m, k = m + 1 := ⟨k - 1, by omega⟩
    exact .holds (h.next next)
  | joined head le appends _ second ih _ =>
    cases hw
    cases hl
    obtain ⟨a', behind, joined⟩ := faithful.next le appends next
    exact joined.offers (ih behind rfl rfl) second

/-! ### Asking for the rest

When a tail that appends is computed, it asks for the rest of the first stream, whose tail may
append as well, and so on. This comes to an end, so it does not come back to a tail that is being
computed. -/

/-- The rest of the stream can be asked for: after so many tails that append comes a stream whose
rest is known. -/
inductive Stream.Ready (σ : Store W) : Nat → Stream Value → Prop where
  /-- The rest is known. -/
  | known {s t : Stream Value} : s.Next σ t → Ready σ 0 s
  /-- The tail has to be computed, and asks for the rest of another stream. -/
  | deeper {d n : Nat} {v : Value} {i : TailId} {a b : Stream Value} :
      i.Is σ (.append a b) .unset → Ready σ d a → Ready σ (d + 1) (.lazy n v i)

theorem TailId.Is.not_next {x : Tail W} {n : Nat} (h : i.Is σ x .unset) :
    ¬(Stream.lazy n v i).Next σ t := by
  intro ⟨m, found, known⟩
  cases h.symm.trans found
  cases known

/-- The number of tails on the way is determined, so none of them is met twice. -/
theorem Stream.Ready.unique {d e : Nat} (h : s.Ready σ d) (h' : s.Ready σ e) : d = e := by
  induction h generalizing e with
  | known next =>
    cases h' with
    | known _ => rfl
    | deeper unset _ => exact absurd next unset.not_next
  | deeper unset _ ih =>
    cases h' with
    | known next => exact absurd next unset.not_next
    | deeper unset' ready =>
      cases unset.symm.trans unset'
      rw [ih ready]

/-- It depends on the tail of a cell only. -/
theorem Stream.Ready.cell {d m n : Nat} {w : Value} (h : (Stream.lazy n v i).Ready σ d) :
    (Stream.lazy m w i).Ready σ d := by
  cases h with
  | known next => exact .known (show (Stream.lazy m w i).Next σ _ from next)
  | deeper unset ready => exact .deeper unset ready

/-- While a tail is being computed, the rest of a stream can be asked for that does not depend on
this tail. -/
theorem Stream.Ready.mark {x : Tail W} {d : Nat} (h : s.Ready σ d) (unset : i.Is σ x .unset)
    (apart : ∀ n v e, e ≤ d → ¬(Stream.lazy n v i).Ready σ e) :
    s.Ready (σ.mark (.tail i) .busy) d := by
  induction h with
  | known next =>
    exact .known (next.later (Store.secures_mark (unset.unknown (by simp)) _).toKnows)
  | @deeper d n v j a b unset' ready ih =>
    have other : (Deferred.tail i) ≠ .tail j := by
      intro same
      cases same
      exact apart n v (d + 1) (Nat.le_refl _) (.deeper unset' ready)
    refine .deeper ((σ.tails_mark_other _ other).trans unset') (ih ?_)
    exact fun n v e le => apart n v e (Nat.le_succ_of_le le)

/-- If none of the tails is being computed, the rest of a stream that offers elements can be asked
for. -/
theorem Stream.Offers.ready (h : s.Offers base σ k vs) (hk : 1 < k) (some : vs ≠ [])
    (faithful : σ.Faithful base) (free : σ.Free base) : ∃ d, s.Ready σ d := by
  induction h with
  | holds h =>
    cases h with
    | none s => exact absurd rfl some
    | ended _ => exact absurd rfl some
    | last _ => omega
    | more _ next _ => exact ⟨0, .known next⟩
  | @joined k n v i a b vs ws head le appends _ _ ih _ =>
    obtain ⟨slot, is⟩ := id appends
    cases slot with
    | unset =>
      obtain ⟨d, ready⟩ := ih hk (by simp)
      exact ⟨d + 1, .deeper is ready⟩
    | busy => exact absurd (Store.slot_of_part is.part) (free i a b le appends)
    | known o =>
      obtain ⟨a', c, rfl, _, _⟩ := faithful i a b o le is
      exact ⟨0, .known ⟨_, is, rfl⟩⟩

/-- Two streams are put together if enough is known of the first one. -/
theorem Stream.Offers.comes_append (h : a.Offers base σ (k + 1) as) (b : Stream Value) :
    ∃ c τ, (a.append b).Comes σ (.ok c τ) := by
  cases as with
  | nil => exact ⟨b, σ, comes_bind_ok h.vacant.comes (comes_pure b σ)⟩
  | cons v as =>
    exact ⟨_, _, comes_bind_ok h.head.occupied.comes
      (comes_bind_ok h.head.comes (comes_newTail v _ σ))⟩

/-- Where the rest of the first stream is found, and offers elements, so is the rest of a cell that
is put together, whose tail has to be computed. -/
theorem TailId.Is.comes_rest {n : Nat} {ws : List Value} (unset : i.Is σ (.append a b) .unset)
    (le : base ≤ i.index) (hk : 0 < k)
    (asked : a.rest.Comes (σ.mark (.tail i) .busy) (.ok s τ)) (first : s.Offers base τ k vs)
    (second : b.Offers base σ (k - vs.length) ws) :
    ∃ t υ, (Stream.lazy n v i).rest.Comes σ (.ok t υ) ∧ t.Offers base υ k (vs ++ ws) := by
  obtain ⟨l, rfl⟩ : ∃ l, k = l + 1 := ⟨k - 1, by omega⟩
  obtain ⟨c, υ, put⟩ := first.comes_append b
  have computed : (Tail.append a b).compute.Comes (σ.mark (.tail i) .busy) (.ok (some c) υ) :=
    comes_bind_ok asked (comes_bind_ok put (comes_pure _ υ))
  have grows := (composed_rest a).grows_of_comes asked
  have grows' := (composed_append s b).grows_of_comes put
  have more := unset.grows_busy.secures.trans (grows.trans grows').secures
  have size : base ≤ τ.tails.size := by
    have there := (unset.put .busy).lt_size
    exact Nat.le_trans le (Nat.le_trans (Nat.le_of_lt there) grows.tails.size_le)
  have joined := joined_of_append (k := base) put size
  have found := joined.offers (first.later grows'.secures) (second.later more)
  -- The value is noted, and what the streams offer does not change by that.
  have busy := unset.busy_later (grows.trans grows')
  refine ⟨c, _, comes_rest_unset unset computed, found.later ?_⟩
  exact Store.secures_mark (d := .tail i) (busy.unknown (by simp)) _

/-- The rest is found, and offers the other elements. -/
theorem Stream.Offers.comes_rest {d : Nat} (h : s.Offers base σ (k + 1) (v :: vs)) (hk : 0 < k)
    (faithful : σ.Faithful base) (ready : s.Ready σ d) :
    ∃ t τ, s.rest.Comes σ (.ok t τ) ∧ t.Offers base τ k vs := by
  induction d generalizing σ s v vs with
  | zero =>
    cases ready with
    | known next => exact ⟨_, σ, next.comes, h.next hk faithful next⟩
  | succ d ih =>
    have whole := ready
    cases ready with
    | @deeper _ n w i a b unset ready =>
      cases h with
      | holds h =>
        cases h with
        | last _ => omega
        | more _ next _ => exact absurd next unset.not_next
      | joined head le appends first second =>
        obtain ⟨slot, is⟩ := appends
        cases unset.symm.trans is
        -- The mark is not in the way of the first stream, whose rest is fewer tails away.
        have apart (m : Nat) (u : Value) (e : Nat) (less : e ≤ d) :
            ¬(Stream.lazy m u i).Ready σ e := by
          intro again
          have := whole.unique again.cell
          omega
        obtain ⟨a', υ, asked, offers⟩ := ih (first.later unset.grows_busy.secures)
          (faithful.mark_busy unset.part) (ready.mark unset apart)
        exact unset.comes_rest le hk asked offers second

/-- If none of the tails is being computed, the elements that a stream offers can be taken. -/
theorem Stream.Offers.comes_takeFrom (h : s.Offers base σ k vs) (done : List Value)
    (faithful : σ.Faithful base) (free : σ.Free base) :
    ∃ τ, (takeFrom k done s).Comes σ (.ok (done.reverse ++ vs) τ) := by
  induction k generalizing σ s vs done with
  | zero =>
    obtain rfl := h.nil_of_zero
    rw [List.append_nil]
    exact ⟨σ, comes_pure _ σ⟩
  | succ k ih =>
    cases vs with
    | nil =>
      rw [List.append_nil]
      exact ⟨σ, comes_bind_ok h.vacant.comes (comes_pure _ σ)⟩
    | cons v vs =>
      have occupied := h.head.occupied.comes
      have first := h.head.comes
      cases k with
      | zero =>
        -- Behind the last element nothing is asked for.
        have short := h.length_le
        obtain rfl : vs = [] := List.eq_nil_of_length_eq_zero (by simpa using short)
        rw [← List.reverse_cons]
        exact ⟨σ, comes_bind_ok occupied (comes_bind_ok first (comes_pure _ σ))⟩
      | succ k =>
        obtain ⟨d, ready⟩ := h.ready (by omega) (by simp) faithful free
        obtain ⟨t, υ, asked, offers⟩ := h.comes_rest (Nat.succ_pos k) faithful ready
        have later := Store.Later.single (regular_rest s) asked
        obtain ⟨τ, run⟩ := ih offers (v :: done) (later.faithful faithful) (later.free free)
        rw [List.reverse_cons, List.append_assoc, List.singleton_append] at run
        exact ⟨τ, comes_bind_ok occupied (comes_bind_ok first (comes_bind_ok asked run))⟩

theorem Stream.Offers.comes_take (h : s.Offers base σ k vs) (faithful : σ.Faithful base)
    (free : σ.Free base) : ∃ τ, (s.take k).Comes σ (.ok vs τ) :=
  h.comes_takeFrom [] faithful free

end

end ResumableParsing
