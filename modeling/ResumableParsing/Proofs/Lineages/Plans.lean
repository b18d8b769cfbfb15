import ResumableParsing.Proofs.Pairing.Stores
import ResumableParsing.Proofs.Stream.Questions

/-!
# What lazy cells will turn out to be

The tail of a lazy cell is one stream after another, or it is refused. What it will turn out to be
can be told from what it is made of, whether or not somebody has computed it already. So a stream
has a plan, and computing a tail gives a stream with the plan behind the first element.

* `Plan`, `Plan.rest`: what is found in a stream, and what is found behind its first element
* `Stream.Planned`: the plan of a stream
* `Store.Sound`: tails that are known are as planned
* `Stream.comes_plannedRest`: so are those that are computed
-/

namespace ResumableParsing

variable {W : Type}

/-! ## Plans -/

/-- What is found in a stream: its elements, and how they are kept. -/
inductive Plan where
  /-- Nothing. -/
  | nil
  /-- A cell with a known tail. -/
  | cons (v : Value) (p : Plan)
  /-- The elements of a sequence from an index on. -/
  | view (q : Sequence Value) (i : Int)
  /-- A lazy cell. Behind its head comes what is behind the first element of one plan, and then
  another one. -/
  | append (v : Value) (p q : Plan)
  /-- A lazy cell whose tail is refused. -/
  | refused (v : Value) (f : Fault)

namespace Plan

/-- There are no elements. -/
def isEmpty : Plan → Bool
  | nil => true
  | view q i => Stream.viewIsEmpty q i
  | _ => false

/-- The first element. -/
def first : Plan → Except Fault Value
  | nil => .error .emptyStream
  | cons v _ => .ok v
  | append v _ _ => .ok v
  | refused v _ => .ok v
  | view q i =>
    if Stream.viewIsEmpty q i then .error .emptyStream
    else
      match q.get? i with
      | some v => .ok v
      | none => .error (.indexOutOfRange q.items.kind)

/-- One plan after another. -/
def join (p q : Plan) : Except Fault Plan :=
  if p.isEmpty then .ok q
  else
    match p.first with
    | .ok v => .ok (append v p q)
    | .error f => .error f

/-- What is found behind the first element. -/
def rest : Plan → Except Fault Plan
  | nil => .ok nil
  | cons _ p => .ok p
  | view q i => .ok (if Stream.viewIsEmpty q i then view q i else view q (i + 1))
  | append _ p q =>
    match p.rest with
    | .ok p' => p'.join q
    | .error f => .error f
  | refused _ f => .error f

end Plan

/-! ## The plan of a stream -/

/-- What computes a tail. -/
def Store.thunk (σ : Store W) (i : TailId) : Option (Tail W) := σ.tails[i.index]?.map Memo.thunk

/-- What computes the tails of the set `T` is still the same. -/
def Store.Thunks (T : TailId → Prop) (σ τ : Store W) : Prop :=
  ∀ i t, T i → σ.thunk i = some t → τ.thunk i = some t

/-- The stream has a plan. It leads only to tails of the set `T`, and of those only to the first `n`
ones. -/
inductive Stream.Planned (T : TailId → Prop) (σ : Store W) : Nat → Stream Value → Plan → Prop where
  | nil {n : Nat} : Planned T σ n .nil .nil
  | cons {n k : Nat} {v : Value} {s : Stream Value} {p : Plan} :
      Planned T σ n s p → Planned T σ n (.cons k v s) (.cons v p)
  | view {n : Nat} {q : Sequence Value} {i : Int} {h : Option Nat} :
      Planned T σ n (.view q i h) (.view q i)
  | append {n k : Nat} {v : Value} {i : TailId} {a b : Stream Value} {p q : Plan} :
      i.index < n → T i → σ.thunk i = some (.append a b) → Planned T σ i.index a p →
      Planned T σ i.index b q → Planned T σ n (.lazy k v i) (.append v p q)
  | refused {n k : Nat} {v : Value} {i : TailId} {f : Fault} :
      i.index < n → T i → σ.thunk i = some (.action (.raise f)) →
      Planned T σ n (.lazy k v i) (.refused v f)

/-- Tails of the set `T` that are known are as planned, and only those in `B` are being computed. -/
structure Store.Sound (T B : TailId → Prop) (σ : Store W) : Prop where
  /-- Tails that are known are as planned. -/
  known : ∀ (i : TailId) (m : Memo (Tail W) (Option (Stream Value))) (c : Option (Stream Value))
    (n k : Nat) (v : Value) (p : Plan), σ.tails[i.index]? = some m → m.slot = .known c →
      Stream.Planned T σ n (.lazy k v i) p →
        ∃ s q n', c = some s ∧ p.rest = .ok q ∧ Stream.Planned T σ n' s q
  /-- No others are being computed. -/
  busy : ∀ (i : TailId) (m : Memo (Tail W) (Option (Stream Value))), T i →
    σ.tails[i.index]? = some m → m.slot = .busy → B i
  /-- The tails are there. -/
  there : ∀ i, T i → i.index < σ.tails.size

section

variable {T T' B : TailId → Prop} {σ σ' σ'' τ : Store W} {s : Stream Value} {p q : Plan}
  {n n' : Nat}

theorem Store.Thunks.refl (T : TailId → Prop) (σ : Store W) : σ.Thunks T σ := fun _ _ _ h => h

theorem Store.Thunks.trans (h : σ.Thunks T σ') (hT : ∀ i, T i → T' i) (h' : σ'.Thunks T' σ'') :
    σ.Thunks T σ'' :=
  fun i t hi ht => h' i t (hT i hi) (h i t hi ht)

theorem Store.Grows.thunks (k : σ.Grows τ) (T : TailId → Prop) : σ.Thunks T τ := by
  intro i t _ ht
  obtain ⟨m, hm, rfl⟩ := Option.map_eq_some_iff.mp ht
  obtain ⟨m', hm', same, -⟩ := k.tails _ _ hm
  simp [Store.thunk, hm', same]

theorem Store.thunks_of_tails (h : ∀ i, T i → τ.tails[i.index]? = σ.tails[i.index]?) :
    σ.Thunks T τ := by
  intro i t hi ht
  rwa [Store.thunk, h i hi]

namespace Stream.Planned

theorem mono (hT : ∀ i, T i → T' i) (hσ : σ.Thunks T τ) (hn : n ≤ n') (h : s.Planned T σ n p) :
    s.Planned T' τ n' p := by
  induction h generalizing n' with
  | nil => exact .nil
  | cons _ ih => exact .cons (ih hn)
  | view => exact .view
  | append hi ht he _ _ iha ihb =>
    exact .append (Nat.lt_of_lt_of_le hi hn) (hT _ ht) (hσ _ _ ht he) (iha (Nat.le_refl _))
      (ihb (Nat.le_refl _))
  | refused hi ht he => exact .refused (Nat.lt_of_lt_of_le hi hn) (hT _ ht) (hσ _ _ ht he)

/-- A stream has one plan only. -/
theorem unique (h : s.Planned T σ n p) (h' : s.Planned T' σ n' q) : p = q := by
  induction h generalizing n' q with
  | nil =>
    cases h'
    rfl
  | cons _ ih =>
    cases h' with
    | cons h' => rw [ih h']
  | view =>
    cases h'
    rfl
  | append _ _ he _ _ iha ihb =>
    cases h' with
    | append _ _ he' ha' hb' =>
      cases he.symm.trans he'
      rw [iha ha', ihb hb']
    | refused _ _ he' => cases he.symm.trans he'
  | refused _ _ he =>
    cases h' with
    | append _ _ he' _ _ => cases he.symm.trans he'
    | refused _ _ he' =>
      cases he.symm.trans he'
      rfl

/-- What is planned behind a head does not depend on the head. -/
theorem rest_eq {k k' : Nat} {v v' : Value} {i : TailId}
    (h : Stream.Planned T σ n (.lazy k v i) p) (h' : Stream.Planned T' σ n' (.lazy k' v' i) q) :
    p.rest = q.rest := by
  cases h with
  | append _ _ he ha hb =>
    cases h' with
    | append _ _ he' ha' hb' =>
      cases he.symm.trans he'
      rw [Plan.rest, Plan.rest, ha.unique ha', hb.unique hb']
    | refused _ _ he' => cases he.symm.trans he'
  | refused _ _ he =>
    cases h' with
    | append _ _ he' _ _ => cases he.symm.trans he'
    | refused _ _ he' =>
      cases he.symm.trans he'
      rfl

/-- All tails that a stream leads to are there. -/
theorem here (h : s.Planned T σ n p) : s.Planned T σ σ.tails.size p := by
  have inside {i : TailId} {t : Tail W} (h : σ.thunk i = some t) : i.index < σ.tails.size := by
    obtain ⟨m, hm, -⟩ := Option.map_eq_some_iff.mp h
    exact (Array.getElem?_eq_some_iff.mp hm).1
  induction h with
  | nil => exact .nil
  | cons _ ih => exact .cons ih
  | view => exact .view
  | append _ ht he ha hb _ _ => exact .append (inside he) ht he ha hb
  | refused _ ht he => exact .refused (inside he) ht he

/-! ## The three questions -/

theorem isEmpty_eq (h : s.Planned T σ n p) : (s.isEmpty : Eval W Bool) = pure p.isEmpty := by
  cases h <;> rfl

/-- A value, or the fault that stands in its place. -/
theorem first_eq (h : s.Planned T σ n p) : (s.first : Eval W Value) =
    match p.first with
    | .ok v => pure v
    | .error f => Eval.fault f := by
  cases h with
  | @view n q i h =>
    rw [Stream.first, Plan.first]
    split
    · rfl
    · cases q.get? i <;> rfl
  | _ => rfl

end Stream.Planned

/-! ## Computing tails -/

/-- Tails have been computed, and tails have been made, all of which are as planned. -/
structure Store.Forces (B T : TailId → Prop) (σ : Store W) (T' : TailId → Prop) (σ' : Store W) :
    Prop where
  /-- The tails stay. -/
  tails : ∀ i, T i → T' i
  /-- They are computed as before. -/
  thunks : σ.Thunks T σ'
  /-- Nothing else has changed but serial numbers and the log. -/
  aside : σ.Aside T T' σ'
  /-- So the parsers have not. -/
  parsers : σ'.parsers = σ.parsers
  /-- What is known is as planned. -/
  sound : σ'.Sound T' B

theorem Store.Forces.trans {T'' : TailId → Prop} (h : σ.Forces B T T' σ')
    (h' : σ'.Forces B T' T'' σ'') : σ.Forces B T T'' σ'' :=
  ⟨fun i hi => h'.tails i (h.tails i hi), h.thunks.trans h.tails h'.thunks,
    h.aside.trans h'.aside, h'.parsers.trans h.parsers, h'.sound⟩

/-- A stream with the plan is found, or the fault that stands in its place is raised. -/
def Plan.Ends (B T : TailId → Prop) (σ : Store W) (x : Except Fault Plan) :
    EStateM.Result Stop (Store W) (Stream Value) → Prop
  | .ok s σ' => ∃ T' p, x = .ok p ∧ σ.Forces B T T' σ' ∧ s.Planned T' σ' σ'.tails.size p
  | .error e σ' => ∃ T' f, x = .error f ∧ e = .raised f ∧ σ.Forces B T T' σ'

theorem Plan.Ends.trans {x : Except Fault Plan} {r : EStateM.Result Stop (Store W) (Stream Value)}
    (h : σ.Forces B T T' σ') (hr : Plan.Ends B T' σ' x r) : Plan.Ends B T σ x r := by
  cases r with
  | ok s σ'' =>
    obtain ⟨T'', p, hx, forces, planned⟩ := hr
    exact ⟨T'', p, hx, h.trans forces, planned⟩
  | error e σ'' =>
    obtain ⟨T'', f, hx, he, forces⟩ := hr
    exact ⟨T'', f, hx, he, h.trans forces⟩

theorem Store.thunk_put (σ : Store W) (i : TailId) (slot : Slot (Option (Stream Value))) :
    (Shelf.tails.put i.index slot σ).thunk = σ.thunk := by
  funext j
  rw [Store.thunk, Store.thunk, find_put_tail]
  split
  · rw [Option.map_map]
    rfl
  · rfl

theorem Store.thunks_put (σ : Store W) (i : TailId) (slot : Slot (Option (Stream Value))) :
    σ.Thunks T (Shelf.tails.put i.index slot σ) := by
  intro j t _ ht
  rwa [Store.thunk_put]

/-- What a tail holds after it has been marked. -/
theorem Store.tails_put {i j : TailId} {slot : Slot (Option (Stream Value))}
    {m : Memo (Tail W) (Option (Stream Value))}
    (h : (Shelf.tails.put i.index slot σ).tails[j.index]? = some m) :
    (i = j ∧ m.slot = slot) ∨ (i ≠ j ∧ σ.tails[j.index]? = some m) := by
  rw [find_put_tail] at h
  split at h
  · next e =>
    obtain ⟨m', -, rfl⟩ := Option.map_eq_some_iff.mp h
    exact .inl ⟨e, rfl⟩
  · next e => exact .inr ⟨e, h⟩

/-- A tail is marked as busy, as unset again, or as known to be what was planned. -/
theorem Store.Sound.put {B' : TailId → Prop} (h : σ.Sound T B) {i : TailId}
    {slot : Slot (Option (Stream Value))} (hB : ∀ j, B j → j = i ∨ B' j)
    (busy : slot = .busy → B' i)
    (known : ∀ c n k v p, slot = .known c → Stream.Planned T σ n (.lazy k v i) p →
      ∃ s q n', c = some s ∧ p.rest = .ok q ∧ s.Planned T σ n' q) :
    (Shelf.tails.put i.index slot σ).Sound T B' where
  known j m c n k v p hm hc hp := by
    -- A mark changes no computation, so what is planned now has been planned before.
    have back : (Shelf.tails.put i.index slot σ).Thunks T σ := by
      intro j t _ ht
      rwa [Store.thunk_put] at ht
    have before := hp.mono (fun _ h => h) back (Nat.le_refl _)
    have found : ∃ s q n', c = some s ∧ p.rest = .ok q ∧ s.Planned T σ n' q := by
      rcases tails_put hm with ⟨rfl, rfl⟩ | ⟨-, hm⟩
      · exact known c n k v p hc before
      · exact h.known j m c n k v p hm hc before
    obtain ⟨s, q, n', hs, hq, planned⟩ := found
    exact ⟨s, q, n', hs, hq, planned.mono (fun _ h => h) (σ.thunks_put i slot) (Nat.le_refl _)⟩
  busy j m hj hm hb := by
    rcases tails_put hm with ⟨rfl, rfl⟩ | ⟨hne, hm⟩
    · exact busy hb
    · exact (hB j (h.busy j m hj hm hb)).resolve_left fun e => hne e.symm
  there j hj := by
    have hlt := h.there j hj
    simpa [Shelf.tails, Memo.putSlot] using hlt

/-! ### New tails -/

/-- The set with one more tail. -/
def TailId.also (T : TailId → Prop) (i : TailId) : TailId → Prop := fun j => T j ∨ j = i

/-- A tail is made. -/
theorem Store.Sound.push (h : σ.Sound T B) {t : Tail W} :
    let σ' : Store W := { σ with tails := σ.tails.push ⟨t, .unset⟩ }
    σ.Forces B T (TailId.also T ⟨σ.tails.size⟩) σ' := by
  intro σ'
  let new : TailId := ⟨σ.tails.size⟩
  have thunks : σ.Thunks T σ' := by
    intro i x _ hx
    obtain ⟨m, hm, rfl⟩ := Option.map_eq_some_iff.mp hx
    simp only [Store.thunk, σ', getElem?_push_of_eq_some hm]
    rfl
  have old {i : TailId} {m : Memo (Tail W) (Option (Stream Value))}
      (hm : σ'.tails[i.index]? = some m) (hs : m.slot ≠ .unset) : σ.tails[i.index]? = some m := by
    change (σ.tails.push _)[i.index]? = some m at hm
    rw [Array.getElem?_push] at hm
    split at hm
    · cases hm
      exact absurd rfl hs
    · exact hm
  -- A stream that leads only to tails which were there has had its plan before.
  have before {n : Nat} {s : Stream Value} {p : Plan}
      (hp : s.Planned (TailId.also T new) σ' n p) (hn : n ≤ σ.tails.size) : s.Planned T σ n p := by
    have same {i : TailId} (hi : i.index < σ.tails.size) : σ'.thunk i = σ.thunk i := by
      simp only [Store.thunk, σ', Array.getElem?_push_lt hi, Array.getElem?_eq_getElem hi]
    have member {i : TailId} (hi : i.index < σ.tails.size) (ht : TailId.also T new i) : T i := by
      rcases ht with ht | rfl
      · exact ht
      · exact absurd hi (Nat.lt_irrefl _)
    induction hp with
    | nil => exact .nil
    | cons _ ih => exact .cons (ih hn)
    | view => exact .view
    | append hi ht he _ _ iha ihb =>
      have hlt := Nat.lt_of_lt_of_le hi hn
      exact .append hi (member hlt ht) (same hlt ▸ he) (iha (Nat.le_of_lt hlt))
        (ihb (Nat.le_of_lt hlt))
    | refused hi ht he =>
      have hlt := Nat.lt_of_lt_of_le hi hn
      exact .refused hi (member hlt ht) (same hlt ▸ he)
  refine ⟨fun _ hi => .inl hi, thunks, ⟨rfl, fun i hi hT => ⟨?_, ?_⟩, by simp [σ']⟩,
    rfl, ?_, ?_, ?_⟩
  · rintro (hi' | rfl)
    · exact hT hi'
    · exact absurd hi (Nat.lt_irrefl _)
  · simp only [σ', Array.getElem?_push_lt hi, Array.getElem?_eq_getElem hi]
  · intro i m c n k v p hm hc hp
    have hm := old hm (by simp [hc])
    have hlt := (Array.getElem?_eq_some_iff.mp hm).1
    have hp : Stream.Planned T σ σ.tails.size (.lazy k v i) p := by
      apply before ?_ (Nat.le_refl _)
      cases hp with
      | append _ ht he ha hb => exact .append hlt ht he ha hb
      | refused _ ht he => exact .refused hlt ht he
    obtain ⟨s, q, n', hs, hq, planned⟩ := h.known i m c _ k v p hm hc hp
    exact ⟨s, q, n', hs, hq, planned.mono (fun _ hi => .inl hi) thunks (Nat.le_refl _)⟩
  · intro i m ht hm hb
    have hm := old hm (by simp [hb])
    rcases ht with ht | rfl
    · exact h.busy i m ht hm hb
    · exact absurd (Array.getElem?_eq_some_iff.mp hm).1 (Nat.lt_irrefl _)
  · rintro i (ht | rfl)
    · exact Nat.lt_of_lt_of_le (h.there i ht) (by simp [σ'])
    · simp [σ']

/-! ### The tail of a lazy cell -/

/-- Tails of the set are as planned in every store that holds the same of them. -/
theorem Store.Sound.congr (h : σ.Sound T B) (size : σ.tails.size ≤ τ.tails.size)
    (same : ∀ i, T i → τ.tails[i.index]? = σ.tails[i.index]?) : τ.Sound T B where
  known i m c n k v p hm hc hp := by
    have hi : T i := by
      cases hp with
      | append _ hi _ _ _ => exact hi
      | refused _ hi _ => exact hi
    have back : τ.Thunks T σ := Store.thunks_of_tails fun i hi => (same i hi).symm
    obtain ⟨s, q, n', hs, hq, planned⟩ := h.known i m c n k v p ((same i hi).symm.trans hm) hc
      (hp.mono (fun _ h => h) back (Nat.le_refl _))
    exact ⟨s, q, n', hs, hq,
      planned.mono (fun _ h => h) (Store.thunks_of_tails same) (Nat.le_refl _)⟩
  busy i m hi hm := h.busy i m hi ((same i hi).symm.trans hm)
  there i hi := Nat.lt_of_lt_of_le (h.there i hi) size

theorem Store.Sound.forces (h : σ.Sound T B) : σ.Forces B T T σ :=
  ⟨fun _ h => h, .refl T σ, .refl T σ, rfl, h⟩

/-- A serial number is drawn, and a tail is made. -/
theorem Store.Sound.pushCell (h : σ.Sound T B) (t : Tail W) :
    σ.Forces B T (TailId.also T ⟨σ.tails.size⟩)
      { σ with nextSerial := σ.nextSerial + 1, tails := σ.tails.push ⟨t, .unset⟩ } := by
  let σ₁ : Store W := { σ with nextSerial := σ.nextSerial + 1 }
  have drawn : σ.Forces B T T σ₁ :=
    ⟨fun _ h => h, Store.thunks_of_tails fun _ _ => rfl,
      ⟨rfl, fun _ _ h => ⟨h, rfl⟩, Nat.le_refl _⟩, rfl, h.congr (Nat.le_refl _) fun _ _ => rfl⟩
  exact drawn.trans (drawn.sound.push (t := t))

/-- One planned stream after another. -/
theorem Stream.comes_plannedJoin (hs : σ.Sound T B) {a b : Stream Value}
    (ha : a.Planned T σ n p) (hb : b.Planned T σ n' q) :
    ∃ r, (a.append b).Comes σ r ∧ Plan.Ends B T σ (p.join q) r := by
  rw [Stream.append, ha.isEmpty_eq, pure_bind, ha.first_eq, Plan.join]
  cases p.isEmpty with
  | true => exact ⟨_, comes_pure b σ, T, q, rfl, hs.forces, hb.here⟩
  | false =>
    cases p.first with
    | error f => exact ⟨_, comes_bind_error (comes_fault f σ), T, f, rfl, rfl, hs.forces⟩
    | ok v =>
      have made : (Stream.lazyCell v (.append a b)).Comes σ
          (.ok (.lazy σ.nextSerial v ⟨σ.tails.size⟩) _) :=
        comes_of_forall (fun _ => rfl) not_exhausted_ok
      have forces := hs.pushCell (.append a b)
      refine ⟨_, made, _, _, rfl, forces, .append (by simp) (.inr rfl) (a := a) (b := b) ?_ ?_ ?_⟩
      · simp [Store.thunk]
      · exact ha.here.mono forces.tails forces.thunks (Nat.le_refl _)
      · exact hb.here.mono forces.tails forces.thunks (Nat.le_refl _)

/-- A tail is known, or it is marked as busy, computed and then put down. -/
theorem Stream.comes_plannedTail (hs : σ.Sound T B) {k : Nat} {v : Value} {i : TailId} {t : Tail W}
    {x : Eval W (Stream Value)} (hp : Stream.Planned T σ n (.lazy k v i) p) (hi : T i)
    (ht : σ.thunk i = some t) (idle : ¬B i) (hx : t.compute = some <$> x)
    (compute : (Shelf.tails.put i.index .busy σ).Sound T (TailId.also B i) →
      ∃ r, x.Comes (Shelf.tails.put i.index .busy σ) r ∧
        Plan.Ends (TailId.also B i) T (Shelf.tails.put i.index .busy σ) p.rest r) :
    ∃ r, (Stream.lazy k v i).rest.Comes σ r ∧ Plan.Ends B T σ p.rest r := by
  obtain ⟨⟨_, slot⟩, hm, rfl⟩ := Option.map_eq_some_iff.mp ht
  cases slot with
  | busy => exact absurd (hs.busy i _ hi hm rfl) idle
  | known c =>
    obtain ⟨s, q, n', rfl, hq, planned⟩ := hs.known i _ c n k v p hm rfl hp
    have force := Shelf.comes_get_known (force_tail i) hm
    exact ⟨_, comes_bind_ok force (comes_pure s σ), T, q, hq, hs.forces, planned.here⟩
  | unset =>
    let σ₁ : Store W := Shelf.tails.put i.index .busy σ
    have marked : σ₁.Sound T (TailId.also B i) :=
      hs.put (fun _ hj => .inr (.inl hj)) (fun _ => .inr rfl) fun _ _ _ _ _ hc => by cases hc
    have released (j : TailId) (hj : TailId.also B i j) : j = i ∨ B j := hj.symm
    obtain ⟨r, comes, ends⟩ := compute marked
    cases r with
    | error e σ₂ =>
      obtain ⟨T', f, hq, rfl, forces⟩ := ends
      have computed : (some <$> x).Comes σ₁ (.error (.raised f) σ₂) := by
        rw [map_eq_pure_bind]
        exact comes_bind_error comes
      have force := Shelf.comes_get_unset (force_tail i) hm (by rw [hx]; exact computed)
      refine ⟨_, comes_bind_error force, T', f, hq, rfl, forces.tails, ?_, ?_, forces.parsers, ?_⟩
      · exact ((σ.thunks_put i _).trans (fun _ h => h) forces.thunks).trans forces.tails
          (σ₂.thunks_put i _)
      · exact ((Store.Aside.put hi σ _).trans forces.aside).trans (.put (forces.tails i hi) σ₂ _)
      · exact forces.sound.put released (fun h => by cases h) fun _ _ _ _ _ hc => by cases hc
    | ok s σ₂ =>
      obtain ⟨T', q, hq, forces, planned⟩ := ends
      have computed : (some <$> x).Comes σ₁ (.ok (some s) σ₂) := by
        rw [map_eq_pure_bind]
        exact comes_bind_ok comes (comes_pure _ _)
      have force := Shelf.comes_get_unset (force_tail i) hm (by rw [hx]; exact computed)
      have thunks := (σ.thunks_put i .busy).trans (fun _ h => h) forces.thunks
      refine ⟨_, comes_bind_ok force (comes_pure s _), T', q, hq,
        ⟨forces.tails, ?_, ?_, forces.parsers, ?_⟩, ?_⟩
      · exact thunks.trans forces.tails (σ₂.thunks_put i _)
      · exact ((Store.Aside.put hi σ _).trans forces.aside).trans (.put (forces.tails i hi) σ₂ _)
      · -- What is put down is what was planned, because a tail has one plan only.
        refine forces.sound.put released (fun h => by cases h) fun c n' k' v' p' hc hp' => ?_
        cases hc
        have same := (hp.mono forces.tails thunks (Nat.le_refl _)).rest_eq hp'
        exact ⟨s, q, _, rfl, same.symm.trans hq, planned⟩
      · exact (planned.mono (fun _ h => h) (σ₂.thunks_put i _) (Nat.le_refl _)).here

/-- What is behind the first element of a planned stream is as planned, whether it is known already
or has to be computed. -/
theorem Stream.comes_plannedRest (h : s.Planned T σ n p) (hs : σ.Sound T B)
    (above : ∀ i, B i → n ≤ i.index) : ∃ r, s.rest.Comes σ r ∧ Plan.Ends B T σ p.rest r := by
  induction p generalizing s n σ B with
  | nil =>
    cases h
    exact ⟨_, comes_pure _ σ, T, _, rfl, hs.forces, .nil⟩
  | cons v p _ =>
    cases h with
    | cons h => exact ⟨_, comes_pure _ σ, T, _, rfl, hs.forces, h.here⟩
  | view q i =>
    cases h
    refine ⟨_, comes_pure _ σ, T, _, rfl, hs.forces, ?_⟩
    split <;> exact .view
  | refused v f =>
    cases h with
    | refused hi ht he =>
      have idle {i : TailId} (hi : i.index < n) (hB : B i) : False :=
        Nat.lt_irrefl _ (Nat.lt_of_lt_of_le hi (above i hB))
      refine comes_plannedTail hs (.refused hi ht he) ht he (idle hi) rfl fun marked => ?_
      exact ⟨_, comes_fault f _, T, f, rfl, rfl, marked.forces⟩
  | append v p q ihp _ =>
    cases h with
    | @append n k v i a b _ _ hi ht he ha hb =>
      have idle (hB : B i) : False := Nat.lt_irrefl _ (Nat.lt_of_lt_of_le hi (above i hB))
      refine comes_plannedTail (x := do (← a.rest).append b) hs (.append hi ht he ha hb) ht he idle
        ?_ fun marked => ?_
      · rw [Tail.compute, map_eq_pure_bind, bind_assoc]
      have thunks : σ.Thunks T (Shelf.tails.put i.index .busy σ) := σ.thunks_put i .busy
      have ha := ha.mono (fun _ h => h) thunks (Nat.le_refl _)
      have hb := hb.mono (fun _ h => h) thunks (Nat.le_refl _)
      -- The parts of the tail lie below it, and it is the lowest one that is being computed.
      obtain ⟨r, comes, ends⟩ := ihp ha marked (by
        rintro j (hj | rfl)
        · exact Nat.le_of_lt (Nat.lt_of_lt_of_le hi (above j hj))
        · exact Nat.le_refl _)
      rw [Plan.rest]
      cases r with
      | error e σ₂ =>
        obtain ⟨T', f, hq, rfl, forces⟩ := ends
        rw [hq]
        exact ⟨_, comes_bind_error comes, T', f, rfl, rfl, forces⟩
      | ok a' σ₂ =>
        obtain ⟨T', p', hq, forces, planned⟩ := ends
        rw [hq]
        obtain ⟨r, comes', ends⟩ := comes_plannedJoin forces.sound planned
          (hb.mono forces.tails forces.thunks (Nat.le_refl _))
        exact ⟨r, comes_bind_ok comes comes', ends.trans forces⟩

end

end ResumableParsing
