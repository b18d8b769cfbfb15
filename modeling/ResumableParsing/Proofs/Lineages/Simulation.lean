import ResumableParsing.Proofs.Correspondence.Runs
import ResumableParsing.Proofs.Lineages.Sides
import ResumableParsing.Proofs.Pairing.Programs

/-!
# Runs in a shared store and in a store of their own

The same session can live in two stores: in one that it shares with others, and in one of its own.
The others may have moved past its tokens already, and may have computed the tails of its lazy
cells. What is found is the same, because both stores hold what their sides tell, and the tails that
belong together are planned alike.

* `Plan.Alike`: corresponding plans
* `Lineages.World`, `Lineages.Stores`: what is known of two stores, and when they are so
* `Lineages.correspondence`: what corresponds in the runs of one session in two stores
* `Lineages.pairs`, `Lineages.lawful`: the runs correspond
* `Lineages.runs_complete`: they end alike, or wait for the same chunk
-/

namespace ResumableParsing

variable {W α β : Type}

/-! ## Corresponding plans -/

namespace Plan

/-- The plans are put together in the same way from corresponding values. -/
inductive Alike (k : Pairing) : Plan → Plan → Prop where
  | nil : Alike k .nil .nil
  | cons {v u : Value} {p q : Plan} : k.Like v u → Alike k p q → Alike k (.cons v p) (.cons u q)
  | view {a b : Sequence Value} {i : Int} : a.items = b.items →
      (∀ n v, a.items.get? n = some v → v.Settled) → Alike k (.view a i) (.view b i)
  | append {v u : Value} {p p' q q' : Plan} : k.Like v u → Alike k p p' → Alike k q q' →
      Alike k (.append v p q) (.append u p' q')
  | refused {v u : Value} {f : Fault} : k.Like v u → Alike k (.refused v f) (.refused u f)

/-- Corresponding plans, or the same fault. -/
inductive Matches (k : Pairing) : Except Fault Plan → Except Fault Plan → Prop where
  | ok {p q : Plan} : p.Alike k q → Matches k (.ok p) (.ok q)
  | error (f : Fault) : Matches k (.error f) (.error f)

section

variable {k l : Pairing} {p p' q q' : Plan}

theorem Alike.mono (hle : k.Le l) (h : p.Alike k q) : p.Alike l q := by
  induction h with
  | nil => exact .nil
  | cons hv _ ih => exact .cons (hv.mono hle) ih
  | view items settled => exact .view items settled
  | append hv _ _ ih ih' => exact .append (hv.mono hle) ih ih'
  | refused hv => exact .refused (hv.mono hle)

theorem Alike.isEmpty_eq (h : p.Alike k q) : p.isEmpty = q.isEmpty := by
  cases h with
  | view items _ => exact Pairing.viewIsEmpty_congr items _
  | _ => rfl

theorem Alike.first_eq (h : p.Alike k q) :
    (∃ v u, p.first = .ok v ∧ q.first = .ok u ∧ k.Like v u) ∨
      ∃ f, p.first = .error f ∧ q.first = .error f := by
  cases h with
  | nil => exact .inr ⟨_, rfl, rfl⟩
  | cons hv _ => exact .inl ⟨_, _, rfl, rfl, hv⟩
  | append hv _ _ => exact .inl ⟨_, _, rfl, rfl, hv⟩
  | refused hv => exact .inl ⟨_, _, rfl, rfl, hv⟩
  | @view a b i items settled =>
    have same : b.get? i = a.get? i := by
      rw [Sequence.get?, Sequence.get?, Sequence.size, Sequence.size, items]
    rw [Plan.first, Plan.first, ← Pairing.viewIsEmpty_congr items, same, ← items]
    split
    · exact .inr ⟨_, rfl, rfl⟩
    · cases e : a.get? i with
      | none => exact .inr ⟨_, rfl, rfl⟩
      | some v => exact .inl ⟨v, v, rfl, rfl, .same (Pairing.settled_get settled e)⟩

theorem Alike.join (h : p.Alike k p') (h' : q.Alike k q') : Matches k (p.join q) (p'.join q') := by
  rw [Plan.join, Plan.join, h.isEmpty_eq]
  split
  · exact .ok h'
  · rcases h.first_eq with ⟨v, u, e, e', hv⟩ | ⟨f, e, e'⟩
    · rw [e, e']
      exact .ok (.append hv h h')
    · rw [e, e']
      exact .error f

/-- What is found behind the first element corresponds. -/
theorem Alike.rest (h : p.Alike k q) : Matches k p.rest q.rest := by
  induction h with
  | nil => exact .ok .nil
  | cons _ h _ => exact .ok h
  | @view a b i items settled =>
    rw [Plan.rest, Plan.rest, Pairing.viewIsEmpty_congr items]
    refine .ok ?_
    split
    · exact .view items settled
    · exact .view items settled
  | refused _ => exact .error _
  | @append v u p p' q q' _ _ h' ih _ =>
    rw [Plan.rest, Plan.rest]
    generalize p.rest = x at ih
    generalize p'.rest = y at ih
    cases ih with
    | ok h => exact h.join h'
    | error f => exact .error f

end

end Plan

/-! ## Two stores -/

namespace Lineages

/-- What is known of two stores. -/
structure World where
  /-- The tails and the parsers that belong together. -/
  pairing : Pairing
  /-- What is known of the left store. -/
  left : Side
  /-- What is known of the right store. -/
  right : Side
  /-- The user state of the parse, which is the same in both. -/
  user : Value

/-- More is known. -/
structure World.Le (w w' : World) : Prop where
  /-- More belongs together. -/
  pairing : w.pairing.Le w'.pairing
  /-- More is known on the left. -/
  left : w.left.Le w'.left
  /-- More is known on the right. -/
  right : w.right.Le w'.right
  /-- The user state is the same. -/
  user : w'.user = w.user

theorem World.Le.refl (w : World) : w.Le w := ⟨.refl _, .refl _, .refl _, rfl⟩

theorem World.Le.trans {w w' w'' : World} (h : w.Le w') (h' : w'.Le w'') : w.Le w'' :=
  ⟨h.pairing.trans h'.pairing, h.left.trans h'.left, h.right.trans h'.right, h'.user.trans h.user⟩

/-- More is known, and no handler has been called. -/
structure World.During (w w' : World) : Prop extends Le w w' where
  /-- The results on the left are as they were. -/
  leftSlots : w'.left.slots = w.left.slots
  /-- So are those on the right. -/
  rightSlots : w'.right.slots = w.right.slots

theorem World.During.refl (w : World) : w.During w := ⟨.refl w, rfl, rfl⟩

theorem World.During.trans {w w' w'' : World} (h : w.During w') (h' : w'.During w'') :
    w.During w'' :=
  ⟨h.toLe.trans h'.toLe, h'.leftSlots.trans h.leftSlots, h'.rightSlots.trans h.rightSlots⟩

/-- The tails are computed from streams that are planned alike, or refused for the same reason. -/
inductive Tails (w : World) (σ τ : Store W) (i j : TailId) : Prop where
  | append {a b c d : Stream Value} {p q p' q' : Plan} :
      w.left.outputs i → σ.thunk i = some (.append a b) →
      a.Planned w.left.outputs σ i.index p → b.Planned w.left.outputs σ i.index q →
      w.right.outputs j → τ.thunk j = some (.append c d) →
      c.Planned w.right.outputs τ j.index p' → d.Planned w.right.outputs τ j.index q' →
      p.Alike w.pairing p' → q.Alike w.pairing q' → Tails w σ τ i j
  | refused {f : Fault} :
      w.left.outputs i → σ.thunk i = some (.action (.raise f)) →
      w.right.outputs j → τ.thunk j = some (.action (.raise f)) → Tails w σ τ i j

/-- The stores are as the world tells. -/
structure Stores (w : World) (σ τ : Store W) : Prop where
  /-- Parsers that belong together do corresponding things. -/
  defines : w.pairing.Defines σ τ
  /-- Tails that belong together are computed alike. -/
  tails : ∀ i j, w.pairing.tails i j → Tails w σ τ i j
  /-- The left store is as its side tells. -/
  left : w.left.Holds σ
  /-- So is the right store. -/
  right : w.right.Holds τ

section

variable {w w' : World} {σ σ' τ τ' : Store W} {s t : Stream Value} {p q : Plan} {m n : Nat}

theorem Tails.mono (hle : w.Le w') (hσ : σ.Thunks w.left.outputs σ')
    (hτ : τ.Thunks w.right.outputs τ') {i j : TailId} (h : Tails w σ τ i j) :
    Tails w' σ' τ' i j := by
  cases h with
  | append hi e ha hb hj e' hc hd hp hq =>
    exact .append (hle.left.outputs i hi) (hσ i _ hi e)
      (ha.mono hle.left.outputs hσ (Nat.le_refl _)) (hb.mono hle.left.outputs hσ (Nat.le_refl _))
      (hle.right.outputs j hj) (hτ j _ hj e')
      (hc.mono hle.right.outputs hτ (Nat.le_refl _)) (hd.mono hle.right.outputs hτ (Nat.le_refl _))
      (hp.mono hle.pairing) (hq.mono hle.pairing)
  | refused hi e hj e' =>
    exact .refused (hle.left.outputs i hi) (hσ i _ hi e) (hle.right.outputs j hj) (hτ j _ hj e')

/-- Both stores have changed, in ways that leave alone what belongs together. -/
theorem Stores.later (h : Stores w σ τ) {S R : Side} (left : w.left.Le S) (hS : S.Holds σ')
    (spares : σ.Spares w.left.outputs σ') (right : w.right.Le R) (hR : R.Holds τ')
    (spares' : τ.Spares w.right.outputs τ') : Stores ⟨w.pairing, S, R, w.user⟩ σ' τ' where
  defines := by
    refine ⟨fun p q hp => ?_, h.defines.parsersUnique, ?_⟩
    · obtain ⟨c, d, hc, hd, paired⟩ := h.defines.parsers p q hp
      exact ⟨c, d, spares.parsers _ c hc, spares'.parsers _ d hd, paired⟩
    · rw [spares.logging, spares'.logging]
      exact h.defines.logging
  tails i j hij := by
    have hle : w.Le ⟨w.pairing, S, R, w.user⟩ := ⟨.refl _, left, right, rfl⟩
    exact (h.tails i j hij).mono hle spares.thunks spares'.thunks
  left := hS
  right := hR

/-! ### Streams that are planned alike -/

/-- Corresponding streams are planned alike. -/
theorem Stores.plans (h : Stores w σ τ) (hs : w.pairing.Streams s t) :
    ∃ p q, s.Planned w.left.outputs σ σ.tails.size p ∧
      t.Planned w.right.outputs τ τ.tails.size q ∧ p.Alike w.pairing q := by
  induction s generalizing t with
  | nil =>
    cases hs.shape
    exact ⟨_, _, .nil, .nil, .nil⟩
  | cons n v s ih =>
    cases hs.shape with
    | cons hv ht =>
      obtain ⟨p, q, hp, hq, alike⟩ := ih ht
      exact ⟨_, _, .cons hp, .cons hq, .cons hv alike⟩
  | lazy n v i =>
    cases hs.shape with
    | lazy hv hij =>
      cases h.tails _ _ hij with
      | append hi e ha hb hj e' hc hd hp hq =>
        exact ⟨_, _, (Stream.Planned.append (Nat.lt_succ_self _) hi e ha hb).here,
          (Stream.Planned.append (Nat.lt_succ_self _) hj e' hc hd).here, .append hv hp hq⟩
      | refused hi e hj e' =>
        exact ⟨_, _, (Stream.Planned.refused (Nat.lt_succ_self _) hi e).here,
          (Stream.Planned.refused (Nat.lt_succ_self _) hj e').here, .refused hv⟩
  | view q i n =>
    cases hs.shape with
    | view items each => exact ⟨_, _, .view, .view, .view items each⟩
  | pulled c => cases hs.shape

/-- All tails that are computed alike belong together. -/
def World.saturate (w : World) (σ τ : Store W) : World :=
  { w with pairing := { w.pairing with tails := Tails w σ τ } }

theorem Stores.during_saturate (h : Stores w σ τ) : w.During (w.saturate σ τ) :=
  ⟨⟨⟨h.tails, fun _ _ h => h⟩, .refl _, .refl _, rfl⟩, rfl, rfl⟩

theorem Stores.le_saturate (h : Stores w σ τ) : w.Le (w.saturate σ τ) := h.during_saturate.toLe

theorem Stores.saturate (h : Stores w σ τ) : Stores (w.saturate σ τ) σ τ where
  defines := by
    refine ⟨fun p q hp => ?_, h.defines.parsersUnique, h.defines.logging⟩
    obtain ⟨c, d, hc, hd, paired⟩ := h.defines.parsers p q hp
    exact ⟨c, d, hc, hd, paired.mono h.le_saturate.pairing⟩
  tails _ _ hij := Tails.mono h.le_saturate (.refl _ σ) (.refl _ τ) hij
  left := h.left
  right := h.right

/-- Then streams that are planned alike correspond. -/
theorem Stores.streams (h : Stores w σ τ) (hs : s.Planned w.left.outputs σ m p)
    (ht : t.Planned w.right.outputs τ n q) (alike : p.Alike w.pairing q) :
    (w.saturate σ τ).pairing.Streams s t := by
  have hle := h.le_saturate.pairing
  induction alike generalizing s t m n with
  | nil =>
    cases hs
    cases ht
    exact .nil
  | cons hv _ ih =>
    cases hs with
    | cons hs =>
      cases ht with
      | cons ht => exact .cons (hv.mono hle) (ih hs ht)
  | view items each =>
    cases hs
    cases ht
    exact .view items (.view each)
  | append hv hp hq _ _ =>
    cases hs with
    | append _ hi e ha hb =>
      cases ht with
      | append _ hj e' hc hd =>
        exact .lazy (hv.mono hle) (.append hi e ha hb hj e' hc hd hp hq)
  | refused hv =>
    cases hs with
    | refused _ hi e =>
      cases ht with
      | refused _ hj e' => exact .lazy (hv.mono hle) (.refused hi e hj e')

end

/-! ## What corresponds -/

/-- Both states are about to move past the first token of the same place. -/
inductive Moving (w : World) : (Continuation W → Task W) → (Continuation W → Task W) → Prop where
  | cross {a b : AdvanceId} {x : Place} {i j : State Value} {v : Value} {y : Elements} :
      x.tokens = .cons v y → x.user = w.user → w.left.Sits (.chunked a x.chunk i) x →
      w.right.Sits (.chunked b x.chunk j) x →
      Moving w (fun k => .cross a x.chunk i k) (fun k => .cross b x.chunk j k)

/-- Both runs wait for the chunk of the same number, at the same position. -/
inductive Pausing (w : World) :
    (Continuation W → Step (Task W) (Finish W)) → Int → State Value → Prop where
  | request {n p : Int} {i j : Stream Value} :
      Pausing w (fun k => .value (.request ⟨n, .plain false i p w.user, k⟩)) n
        (.plain false j p w.user)

/-- What corresponds in the runs of one session in two stores. -/
def correspondence (W : Type) : Correspondence W where
  World := World
  Le := World.Le
  During := World.During
  Stores := Stores
  Values w := w.pairing.Like
  Tokens _ v u := v = u ∧ v.Settled
  Parsers w := w.pairing.parsers
  Binders w := w.pairing.Functions Grammar.Paired
  States w s t := ∃ x, x.user = w.user ∧ w.left.Sits s x ∧ w.right.Sits t x
  Occupied w s t := ∃ x v y, x.tokens = .cons v y ∧ x.user = w.user ∧ w.left.Sits s x ∧
    w.right.Sits t x
  Moving := Moving
  Pausing := Pausing

theorem ordered (W : Type) : (correspondence W).Ordered where
  refl := World.During.refl
  trans h h' := World.Le.trans h h'
  during_trans h h' := World.During.trans h h'
  le h := World.During.toLe h

section

variable {w : World} {σ τ : Store W} {s t : State Value} {x : Place}

/-- Both sides find what they tell. -/
theorem runs_of_finds {A : Side → α → Prop} {B : Side → β → Prop} {Q : World → α → β → Prop}
    {x : Eval W α} {y : Eval W β} (hx : w.left.Finds x A) (hy : w.right.Finds y B)
    (hQ : ∀ w' a b, w.Le w' → A w'.left a → B w'.right b → Q w' a b) :
    (correspondence W).Runs w Q x y := by
  intro w₁ σ τ r hle hs hr
  have hle : w.Le w₁ := hle
  have hs : Stores w₁ σ τ := hs
  obtain ⟨a, S, σ', hx, left, holds, spares, ha⟩ := hx w₁.left σ hle.left hs.left
  obtain ⟨b, R, τ', hy, right, holds', spares', hb⟩ := hy w₁.right τ hle.right hs.right
  cases hr.unique hx
  have grows : w₁.Le ⟨w₁.pairing, S, R, w₁.user⟩ := ⟨.refl _, left.toLe, right.toLe, rfl⟩
  exact ⟨.ok b τ', hy, _, ⟨grows, left.slots, right.slots⟩,
    hs.later left.toLe holds spares right.toLe holds' spares', hQ _ a b (hle.trans grows) ha hb⟩

/-! ### Streams and parsers -/

/-- Tails have been computed and made on both sides. -/
theorem Stores.forces {σ' τ' : Store W} {T U : TailId → Prop} (h : Stores w σ τ)
    (left : σ.Forces (fun _ => False) w.left.outputs T σ')
    (right : τ.Forces (fun _ => False) w.right.outputs U τ') :
    let w' : World :=
      ⟨w.pairing, { w.left with outputs := T }, { w.right with outputs := U }, w.user⟩
    w.During w' ∧ Stores w' σ' τ' := by
  have hl : w.left.Le { w.left with outputs := T } := ⟨.refl _, left.tails, fun _ _ h => h⟩
  have hr : w.right.Le { w.right with outputs := U } := ⟨.refl _, right.tails, fun _ _ h => h⟩
  exact ⟨⟨⟨.refl _, hl, hr, rfl⟩, rfl, rfl⟩,
    h.later hl (h.left.forces left) left.spares hr (h.right.forces right) right.spares⟩

/-- The rests of corresponding streams correspond, whichever of them are known already. -/
theorem runs_rest {a b : Stream Value} (h : w.pairing.Streams a b) :
    (correspondence W).Runs w (fun w' => w'.pairing.Streams) a.rest b.rest := by
  intro w₁ σ τ r hle hs hr
  have hle : w.Le w₁ := hle
  have hs : Stores w₁ σ τ := hs
  obtain ⟨p, q, hp, hq, alike⟩ := hs.plans (h.mono hle.pairing)
  obtain ⟨x, hx, ends⟩ := Stream.comes_plannedRest hp hs.left.sound fun _ h => h.elim
  obtain ⟨y, hy, ends'⟩ := Stream.comes_plannedRest hq hs.right.sound fun _ h => h.elim
  -- Both sides come to what is planned for them, and the plans are alike.
  cases hr.unique hx
  have rests := alike.rest
  refine ⟨y, hy, ?_⟩
  cases r with
  | error e σ' =>
    obtain ⟨T, f, hf, rfl, left⟩ := ends
    rw [hf] at rests
    cases y with
    | ok b' τ' =>
      obtain ⟨U, q', hq', -⟩ := ends'
      rw [hq'] at rests
      cases rests
    | error e' τ' =>
      obtain ⟨U, f', hf', rfl, right⟩ := ends'
      rw [hf'] at rests
      cases rests
      obtain ⟨grows, stores⟩ := hs.forces left right
      exact ⟨rfl, _, grows, stores⟩
  | ok a' σ' =>
    obtain ⟨T, p', hp', left, planned⟩ := ends
    rw [hp'] at rests
    cases y with
    | error e' τ' =>
      obtain ⟨U, f', hf', -⟩ := ends'
      rw [hf'] at rests
      cases rests
    | ok b' τ' =>
      obtain ⟨U, q', hq', right, planned'⟩ := ends'
      rw [hq'] at rests
      cases rests with
      | ok alike' =>
        obtain ⟨grows, stores⟩ := hs.forces left right
        exact ⟨_, grows.trans stores.during_saturate, stores.saturate,
          stores.streams planned planned' alike'⟩

/-- New lazy cells correspond. -/
theorem runs_lazyCell {v u : Value} {x y : Tail W} (hv : w.pairing.Like v u)
    (h : x.Paired w.pairing y) : (correspondence W).Runs w (fun w' => w'.pairing.Streams)
      (Stream.lazyCell v x) (Stream.lazyCell u y) := by
  intro w₁ σ τ r hle hs hr
  have hle : w.Le w₁ := hle
  have hs : Stores w₁ σ τ := hs
  have hx : (Stream.lazyCell v x).Comes σ (.ok (.lazy σ.nextSerial v ⟨σ.tails.size⟩) _) :=
    comes_of_forall (fun _ => rfl) not_exhausted_ok
  have hy : (Stream.lazyCell u y).Comes τ (.ok (.lazy τ.nextSerial u ⟨τ.tails.size⟩) _) :=
    comes_of_forall (fun _ => rfl) not_exhausted_ok
  cases hr.unique hx
  have left := hs.left.sound.pushCell x
  have right := hs.right.sound.pushCell y
  obtain ⟨grows, stores⟩ := hs.forces left right
  have hv := (hv.mono hle.pairing).mono stores.le_saturate.pairing
  refine ⟨_, hy, _, grows.trans stores.during_saturate, stores.saturate, .lazy hv ?_⟩
  cases h with
  | append ha hb =>
    obtain ⟨p, p', hp, hp', alike⟩ := hs.plans (ha.mono hle.pairing)
    obtain ⟨q, q', hq, hq', alike'⟩ := hs.plans (hb.mono hle.pairing)
    -- The new tails are planned as the streams that they append.
    refine .append (.inr rfl) ?_ (hp.mono left.tails left.thunks (Nat.le_refl _))
      (hq.mono left.tails left.thunks (Nat.le_refl _)) (.inr rfl) ?_
      (hp'.mono right.tails right.thunks (Nat.le_refl _))
      (hq'.mono right.tails right.thunks (Nat.le_refl _)) alike alike'
    · simp [Store.thunk]
    · simp [Store.thunk]
  | refused f =>
    refine .refused (f := f) (.inr rfl) ?_ (.inr rfl) ?_
    · simp [Store.thunk]
    · simp [Store.thunk]

/-- Streams are read alike, and parsers are built alike. -/
theorem pairs (W : Type) : (correspondence W).Pairs World.pairing where
  toOrdered := ordered W
  pairing_le hle := hle.pairing
  serial _ := runs_of_finds (Side.finds_contents Contents.finds_serial)
    (Side.finds_contents Contents.finds_serial) fun _ _ _ _ _ _ => trivial
  rest := runs_rest
  lazyCell := runs_lazyCell
  values := rfl
  tokens := rfl
  parsers := rfl
  functions := rfl
  defines hs := hs.defines
  made := by
    intro w l σ τ σ' τ' hs made
    have hs : Stores w σ τ := hs
    have hle : World.Le w { w with pairing := l } := ⟨made.le, .refl _, .refl _, rfl⟩
    -- Building touches parsers only, so streams and results are as they have been.
    have left : w.left.Holds σ' := by
      rw [made.left]
      exact hs.left.congr rfl rfl rfl rfl rfl
    have right : w.right.Holds τ' := by
      rw [made.right]
      exact hs.right.congr rfl rfl rfl rfl rfl
    refine ⟨{ w with pairing := l }, ⟨hle, rfl, rfl⟩,
      ⟨made.defines, fun i j hij => ?_, left, right⟩, rfl⟩
    rw [made.tails] at hij
    refine (hs.tails i j hij).mono hle (Store.thunks_of_tails fun i _ => ?_)
      (Store.thunks_of_tails fun j _ => ?_)
    · rw [made.left]
    · rw [made.right]

/-! ### States -/

/-- There is a token on both sides or on none. -/
theorem runs_isEmpty (hu : x.user = w.user) (hs : w.left.Sits s x) (ht : w.right.Sits t x) :
    (correspondence W).Runs w
      (fun w' a b => a = b ∧ (a = false → (correspondence W).Occupied w' s t))
      s.input.isEmpty t.input.isEmpty := by
  obtain ⟨_, i, rfl, -, ⟨r, hi⟩, -⟩ := hs.here
  obtain ⟨_, j, rfl, -, ⟨r', hj⟩, -⟩ := ht.here
  refine runs_of_finds (Side.finds_contents hi.readable.isEmpty)
    (Side.finds_contents hj.readable.isEmpty) fun w' a b hle ha hb => ?_
  refine ⟨Bool.eq_iff_iff.mpr (ha.trans hb.symm), ?_⟩
  rintro rfl
  cases e : x.tokens using Stream'.Seq.recOn with
  | nil => exact absurd (ha.mpr e) Bool.false_ne_true
  | cons v y => exact ⟨x, v, y, e, hu.trans hle.user.symm, hs.mono hle.left, ht.mono hle.right⟩

/-- The first tokens are the same. -/
theorem runs_first {v : Value} {y : Elements} (hx : x.tokens = .cons v y) (hs : w.left.Sits s x)
    (ht : w.right.Sits t x) :
    (correspondence W).Runs w (correspondence W).Tokens s.input.first t.input.first := by
  obtain ⟨_, i, rfl, -, ⟨r, hi⟩, data⟩ := hs.here
  obtain ⟨_, j, rfl, -, ⟨r', hj⟩, -⟩ := ht.here
  refine runs_of_finds (Side.finds_contents (hi.readable.first v y hx))
    (Side.finds_contents (hj.readable.first v y hx)) fun w' a b _ ha hb => ?_
  subst ha hb
  refine ⟨rfl, data _ ?_⟩
  rw [hx]
  exact Stream'.Seq.mem_cons _ _

/-- Both sides begin to move past a token. -/
theorem runs_next {v : Value} {y : Elements} (hx : x.tokens = .cons v y) (hu : x.user = w.user)
    (hs : w.left.Sits s x) (ht : w.right.Sits t x) (a b : Value) (k l : Continuation W) :
    (correspondence W).Runs w (fun w' y z => ∃ m m', Moving w' m m' ∧ y = m k ∧ z = m' l)
      (s.next a k) (t.next b l) := by
  refine runs_of_finds (Side.finds_next hs a k) (Side.finds_next ht b l) fun w' y z hle hy hz => ?_
  obtain ⟨_, i, rfl, hi⟩ := hy
  obtain ⟨_, j, rfl, hj⟩ := hz
  exact ⟨_, _, .cross hx (hu.trans hle.user.symm) hi hj, rfl, rfl⟩

/-- Both sides arrive behind it, or wait for the next chunk. -/
theorem runs_moving {m m' : Continuation W → Task W} (h : Moving w m m') (k l : Continuation W) :
    (correspondence W).Runs w (fun w' y z => (correspondence W).Arrives w' k l y z)
      (m k).step (m' l).step := by
  cases h with
  | @cross _ _ x _ _ _ _ hx hu hs ht =>
    refine runs_of_finds (Side.finds_cross hs hx k) (Side.finds_cross ht hx l)
      fun w' y z hle hy hz => ?_
    have hu : x.user = w'.user := hu.trans hle.user.symm
    cases hy with
    | within ne hs =>
      cases hz with
      | within _ ht => exact .inl ⟨_, _, ⟨x.next _, hu, hs, ht⟩, rfl, rfl⟩
      | across e => exact absurd e ne
    | across e =>
      cases hz with
      | within ne _ => exact absurd e ne
      | across _ =>
        rw [hu]
        exact .inr ⟨_, _, _, .request, rfl, rfl⟩

/-- The runs of one session in two stores correspond. -/
theorem lawful (W : Type) : (correspondence W).Lawful where
  toOrdered := ordered W
  values_mono hle h := h.mono hle.pairing
  tokens_mono _ h := h
  parsers_mono hle h := hle.pairing.parsers _ _ h
  binders_mono hle h := h.mono hle.pairing
  states_mono := by
    rintro w w' s t hle ⟨x, hu, hs, ht⟩
    exact ⟨x, hu.trans hle.user.symm, hs.mono hle.left, ht.mono hle.right⟩
  occupied_mono := by
    rintro w w' s t hle ⟨x, v, y, hx, hu, hs, ht⟩
    exact ⟨x, v, y, hx, hu.trans hle.user.symm, hs.mono hle.left, ht.mono hle.right⟩
  moving_mono := by
    rintro w w' _ _ hle ⟨hx, hu, hs, ht⟩
    exact .cross hx (hu.trans hle.user.symm) (hs.mono hle.left) (ht.mono hle.right)
  tokens_values := by
    rintro w v _ ⟨rfl, settled⟩
    exact .same settled
  position := by
    rintro w s t ⟨x, -, hs, ht⟩
    cases hs
    cases ht
    rfl
  none _ := .same .none
  nil _ := .nil
  ignore h := h.ignore
  binders h := (pairs W).binders h
  found hs h := (pairs W).found hs h
  debug _ m m' := runs_of_finds (Side.finds_contents (Contents.finds_debug m))
    (Side.finds_contents (Contents.finds_debug m')) fun _ _ _ _ _ _ => trivial
  serial w := (pairs W).serial w
  isEmpty := by
    rintro w s t ⟨x, hu, hs, ht⟩
    exact runs_isEmpty hu hs ht
  first := by
    rintro w s t ⟨x, v, y, hx, -, hs, ht⟩
    exact runs_first hx hs ht
  render := by
    rintro w σ τ v _ - ⟨rfl, settled⟩
    exact settled.render σ.names τ.names
  join c h h' := (pairs W).join c h h'
  next := by
    rintro w s t ⟨x, v, y, hx, hu, hs, ht⟩ a b - k l
    exact runs_next hx hu hs ht a b k l
  moving h k l := runs_moving h k l

/-! ## Whole runs -/

/-- The parses have ended with corresponding replies, or they wait for the chunk of the same number
behind corresponding tokens. -/
inductive Finishes (w : World) : Finish W → Finish W → Prop where
  | reply {r r' : Reply Value} :
      (correspondence W).Replies w r r' → Finishes w (.reply r) (.reply r')
  | request {n p : Int} {i j : Stream Value} {v v' : Value} {k l : Continuation W} :
      w.pairing.Like v v' → List.Forall₂ ((correspondence W).Frames w) k l →
      Finishes w (.request ⟨n, .plain false i p w.user, .matched v :: k⟩)
        (.request ⟨n, .plain false j p w.user, .matched v' :: l⟩)

/-- Corresponding tasks end alike. -/
theorem runs_complete {t u : Task W} (h : (correspondence W).Tasks w t u) :
    (correspondence W).Runs w Finishes t.complete u.complete := by
  intro w₁ σ τ r hle hs hr
  have hC := lawful W
  obtain ⟨n, reaches⟩ := comes_complete.mp hr
  rcases hC.reaches (fun _ _ _ _ _ h => h) (hC.tasks_mono hle h) hs (Aim.at_plain reaches) with
    ⟨m, _, r', reaches', ⟨rfl, -⟩, ends⟩ | ⟨m, q, τ', w₂, n', σ', reaches', hle₂, hs₂, -, paused⟩
  · refine ⟨r', comes_complete.mpr ⟨m, reaches'⟩, ends.imp fun w' f f' _ _ _ h => ?_⟩
    cases h with
    | reply h => exact .reply h
  · refine ⟨_, comes_complete.mpr ⟨m, reaches'⟩, ?_⟩
    obtain ⟨⟨⟩, hv, hk, leads⟩ := paused
    cases leads with
    | value ended =>
      obtain rfl := ended.result
      exact ⟨w₂, hle₂, hs₂, .request hv hk⟩

end

end Lineages

end ResumableParsing
