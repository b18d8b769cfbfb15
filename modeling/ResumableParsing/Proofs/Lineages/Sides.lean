import ResumableParsing.Proofs.Lineages.Plans
import ResumableParsing.Proofs.Storage.Simulation

/-!
# What is known of a store that sessions share

Sessions share the streams of their chunks, the tails of lazy cells, and what states inside chunks
remember. A side tells what all of these hold. Whatever is done with one session, the store goes on
to hold what the side tells, and perhaps more.

* `Side`, `Side.Holds`: what is known of a store
* `Side.Sits`: states inside chunks
* `Side.Finds`: computations that succeed, and leave a store of which no less is known
* `Side.finds_cross`: moving past a token, whether or not somebody has moved past it before
-/

namespace ResumableParsing

variable {W α β : Type}

/-! ## Sides -/

/-- A place inside a chunk. -/
structure Place where
  /-- The number of the chunk. -/
  chunk : Int
  /-- The tokens that are left of it. -/
  tokens : Elements
  /-- The position. -/
  position : Int
  /-- The user state. -/
  user : Value

/-- The place behind the first token, where other tokens are left. -/
def Place.next (x : Place) (left : Elements) : Place :=
  { x with tokens := left, position := x.position + 1 }

/-- What is known of a store. -/
structure Side where
  /-- The elements of the streams of chunks. -/
  contents : Contents
  /-- The tails that parsers and functions of the caller have made. -/
  outputs : TailId → Prop
  /-- The places that memories belong to. -/
  places : Nat → Option Place
  /-- What has become of the results of sessions. -/
  slots : Nat → Slot Value

/-- What has become of the results of sessions. Of those that are still to be made nothing is
known. -/
def Store.slots (σ : Store W) (i : Nat) : Slot Value :=
  match σ.results[i]? with
  | some m => m.slot
  | none => .unset

theorem Store.slots_of_some {σ : Store W} {i : Nat} {m : Memo (Action W Value) Value}
    (h : σ.results[i]? = some m) : σ.slots i = m.slot := by
  rw [slots, h]

/-- A new result is not known yet, just as it was before it was made. -/
theorem Store.slots_push (σ : Store W) (a : Action W Value) :
    ({ σ with results := σ.results.push ⟨a, .unset⟩ } : Store W).slots = σ.slots := by
  funext i
  rw [slots, slots, Array.getElem?_push]
  by_cases e : i = σ.results.size
  · simp [e]
  · rw [if_neg e]

/-- The parsers that are there stay as they are, and so does what computes the tails of the set. -/
structure Store.Spares (T : TailId → Prop) (σ τ : Store W) : Prop where
  /-- The parsers. -/
  parsers : ∀ (i : Nat) (c : Cell W), σ.parsers[i]? = some c → τ.parsers[i]? = some c
  /-- Logging stays on or off. -/
  logging : τ.logging = σ.logging
  /-- The tails. -/
  thunks : σ.Thunks T τ

theorem Store.Spares.refl (T : TailId → Prop) (σ : Store W) : σ.Spares T σ :=
  ⟨fun _ _ h => h, rfl, .refl T σ⟩

theorem Store.Spares.trans {T T' : TailId → Prop} {σ σ' σ'' : Store W} (h : σ.Spares T σ')
    (hT : ∀ i, T i → T' i) (h' : σ'.Spares T' σ'') : σ.Spares T σ'' where
  parsers i c hc := h'.parsers i c (h.parsers i c hc)
  logging := h'.logging.trans h.logging
  thunks := h.thunks.trans hT h'.thunks

theorem Store.Forces.spares {B T T' : TailId → Prop} {σ σ' : Store W} (h : σ.Forces B T T' σ') :
    σ.Spares T σ' where
  parsers _ _ hc := h.parsers ▸ hc
  logging := by rw [h.aside.rest]
  thunks := h.thunks

namespace Side

/-- More is known of streams and states. -/
structure Le (S S' : Side) : Prop where
  /-- The contents stay. -/
  contents : S.contents.Le S'.contents
  /-- The tails stay. -/
  outputs : ∀ i, S.outputs i → S'.outputs i
  /-- The places stay. -/
  places : ∀ a x, S.places a = some x → S'.places a = some x

theorem Le.refl (S : Side) : S.Le S := ⟨.refl _, fun _ h => h, fun _ _ h => h⟩

theorem Le.trans {S S' S'' : Side} (h : S.Le S') (h' : S'.Le S'') : S.Le S'' where
  contents := h.contents.trans h'.contents
  outputs i hi := h'.outputs i (h.outputs i hi)
  places a x hx := h'.places a x (h.places a x hx)

/-- Whatever has become of results, as much is known. -/
theorem Le.noted (S : Side) (slots : Nat → Slot Value) : S.Le { S with slots := slots } :=
  ⟨.refl _, fun _ h => h, fun _ _ h => h⟩

/-- More is known of streams and states, and no handler has been called. -/
structure During (S S' : Side) : Prop extends Le S S' where
  /-- The results are as they were. -/
  slots : S'.slots = S.slots

theorem During.refl (S : Side) : S.During S := ⟨.refl S, rfl⟩

theorem During.trans {S S' S'' : Side} (h : S.During S') (h' : S'.During S'') : S.During S'' :=
  ⟨h.toLe.trans h'.toLe, h'.slots.trans h.slots⟩

/-! ### States inside chunks -/

/-- The stream holds the elements of a chunk, which are data. -/
def Chunk (S : Side) (s : Stream Value) (x : Elements) : Prop :=
  (∃ r, S.contents.Holds r s x) ∧ ∀ v ∈ x, v.Settled

/-- The state is at the place. -/
inductive Sits (S : Side) : State Value → Place → Prop where
  | intro {a : AdvanceId} {i : Stream Value} {x : Place} :
      S.places a.index = some x → S.Chunk i x.tokens →
      Sits S (.chunked a x.chunk (.plain false i x.position x.user)) x

/-- What is remembered of the step past the first token of a place is true. -/
inductive Remembers (S : Side) (x : Place) : Advance → Prop where
  /-- Nobody has moved past the token. -/
  | unknown {token : Option Value} : Remembers S x ⟨token, none, false⟩
  /-- There are more tokens in the chunk. -/
  | within {token : Option Value} {t : State Value} {v : Value} {y : Elements} :
      x.tokens = .cons v y → y ≠ .nil → S.Sits t (x.next y) → Remembers S x ⟨token, some t, false⟩
  /-- The chunk is exhausted. -/
  | across {token : Option Value} {i : Stream Value} {v : Value} : x.tokens = .cons v .nil →
      Remembers S x ⟨token, some (.plain false i (x.position + 1) x.user), true⟩

/-- The store is as the side tells. -/
structure Holds (S : Side) (σ : Store W) : Prop where
  /-- The streams of chunks have their elements. -/
  fits : S.contents.Fits (fun _ => False) σ
  /-- What is made lies beside them. -/
  apart : ∀ i, S.outputs i → S.contents.tails i = none
  /-- Tails that have been made are as planned. -/
  sound : σ.Sound S.outputs fun _ => False
  /-- Memories remember what is true. -/
  memory : ∀ a x, S.places a = some x → ∃ m, σ.advances[a]? = some m ∧ S.Remembers x m
  /-- The results are as the side tells. -/
  slots : σ.slots = S.slots

section

variable {S S' : Side} {s : State Value} {x : Place} {σ τ : Store W}

theorem Chunk.mono (hle : S.Le S') {c : Stream Value} {y : Elements} (h : S.Chunk c y) :
    S'.Chunk c y := by
  obtain ⟨⟨r, hc⟩, data⟩ := h
  exact ⟨⟨r, hc.mono hle.contents (Nat.le_refl r)⟩, data⟩

theorem Sits.mono (hle : S.Le S') (h : S.Sits s x) : S'.Sits s x := by
  cases h with
  | intro hx hi => exact .intro (hle.places _ _ hx) (hi.mono hle)

/-- Where the state lies, and what it reads. -/
theorem Sits.here (h : S.Sits s x) :
    ∃ a i, s = .chunked a x.chunk (.plain false i x.position x.user) ∧
    S.places a.index = some x ∧ S.Chunk i x.tokens := by
  cases h with
  | intro hx hi => exact ⟨_, _, rfl, hx, hi⟩

theorem Remembers.mono (hle : S.Le S') {m : Advance} (h : S.Remembers x m) : S'.Remembers x m := by
  cases h with
  | unknown => exact .unknown
  | within hx hy hs => exact .within hx hy (hs.mono hle)
  | across hx => exact .across hx

/-- A side tells nothing of buffers and sessions, of parsers, and of the log. -/
theorem Holds.congr (h : S.Holds σ) (tails : τ.tails = σ.tails) (cells : τ.cells = σ.cells)
    (iterators : τ.iterators = σ.iterators) (advances : τ.advances = σ.advances)
    (slots : τ.slots = σ.slots) : S.Holds τ where
  fits := h.fits.congr tails cells iterators
  apart := h.apart
  sound := h.sound.congr (by rw [tails]) fun _ _ => by rw [tails]
  memory := by
    rw [advances]
    exact h.memory
  slots := slots.trans h.slots

/-- Something has become of a result. -/
theorem Holds.put (h : S.Holds σ) (i : ResultId) (slot : Slot Value) :
    let τ : Store W := Shelf.results.put i.index slot σ
    Holds { S with slots := τ.slots } τ where
  fits := h.fits.congr rfl rfl rfl
  apart := h.apart
  sound := h.sound.congr (Nat.le_refl _) fun _ _ => rfl
  memory a x hx := by
    obtain ⟨m, hm, remembers⟩ := h.memory a x hx
    exact ⟨m, hm, remembers.mono (.noted S _)⟩
  slots := rfl

/-- Tails have been computed and made. -/
theorem Holds.forces {T : TailId → Prop} (h : S.Holds σ)
    (forces : σ.Forces (fun _ => False) S.outputs T τ) : Holds { S with outputs := T } τ where
  fits := h.fits.aside h.apart forces.aside
  apart := h.fits.apart h.apart forces.aside
  sound := forces.sound
  memory a x hx := by
    obtain ⟨m, hm, remembers⟩ := h.memory a x hx
    have hle : S.Le { S with outputs := T } := ⟨.refl _, forces.tails, fun _ _ hx => hx⟩
    refine ⟨m, ?_, remembers.mono hle⟩
    rw [forces.aside.rest]
    exact hm
  slots := by
    rw [← h.slots, forces.aside.rest]
    rfl

end

/-! ## Computations that succeed -/

/-- In every store of which so much is known, the computation has a result with the property `Q`,
and leaves a store of which no less is known. -/
def Finds (S : Side) (x : Eval W α) (Q : Side → α → Prop) : Prop :=
  ∀ S₁ σ, S.Le S₁ → S₁.Holds σ → ∃ a S' σ', x.Comes σ (.ok a σ') ∧ S₁.During S' ∧ S'.Holds σ' ∧
    σ.Spares S₁.outputs σ' ∧ Q S' a

section

variable {S S' : Side} {x : Eval W α} {Q Q' : Side → α → Prop} {R : Side → β → Prop}

theorem Finds.imp (h : S.Finds x Q) (hQ : ∀ S' a, S.Le S' → Q S' a → Q' S' a) : S.Finds x Q' := by
  intro S₁ σ hle holds
  obtain ⟨a, S', σ', hx, hle', holds', spares, hq⟩ := h S₁ σ hle holds
  exact ⟨a, S', σ', hx, hle', holds', spares, hQ S' a (hle.trans hle'.toLe) hq⟩

theorem finds_pure {a : α} (h : ∀ S', S.Le S' → Q S' a) : S.Finds (pure a : Eval W α) Q :=
  fun S₁ σ hle holds => ⟨a, S₁, σ, comes_pure a σ, .refl S₁, holds, .refl _ σ, h S₁ hle⟩

theorem finds_bind {f : α → Eval W β} (h : S.Finds x Q)
    (hf : ∀ S' a, S.Le S' → Q S' a → S'.Finds (f a) R) : S.Finds (x >>= f) R := by
  intro S₁ σ hle holds
  obtain ⟨a, S₂, σ₂, hx, hle₂, holds₂, spares, hq⟩ := h S₁ σ hle holds
  obtain ⟨b, S₃, σ₃, hy, hle₃, holds₃, spares', hr⟩ :=
    hf S₂ a (hle.trans hle₂.toLe) hq S₂ σ₂ (.refl S₂) holds₂
  exact ⟨b, S₃, σ₃, comes_bind_ok hx hy, hle₂.trans hle₃, holds₃,
    spares.trans hle₂.outputs spares', hr⟩

/-- Reading the streams of chunks leaves everything else alone. -/
theorem finds_contents {Q : Contents → α → Prop}
    (h : S.contents.Finds (fun _ => False) x Q) : S.Finds x fun S' a => Q S'.contents a := by
  intro S₁ σ hle holds
  obtain ⟨a, κ, σ', hx, moves, fits, hq⟩ := h S₁.contents σ hle.contents holds.fits
  -- Tails that parsers have made are not those of chunks, so nothing happens to them.
  have beside {i : TailId} (hi : S₁.outputs i) :=
    moves.tails i (holds.sound.there i hi) (holds.apart i hi)
  have hle' : S₁.Le { S₁ with contents := κ } := ⟨moves.le, fun _ h => h, fun _ _ h => h⟩
  refine ⟨a, { S₁ with contents := κ }, σ', hx, ⟨hle', rfl⟩,
    ⟨fits, fun i hi => (beside hi).1, ?_, ?_, ?_⟩, ⟨?_, ?_, ?_⟩, hq⟩
  · exact holds.sound.congr moves.tailsSize fun i hi => (beside hi).2
  · intro b y hy
    obtain ⟨m, hm, remembers⟩ := holds.memory b y hy
    refine ⟨m, ?_, remembers.mono hle'⟩
    rw [moves.rest]
    exact hm
  · rw [← holds.slots, moves.rest]
    rfl
  · intro i c hc
    rw [moves.rest]
    exact hc
  · rw [moves.rest]
  · exact Store.thunks_of_tails fun i hi => (beside hi).2

end

/-! ## Moving past tokens -/

section

variable {S : Side} {x : Place} {s : State Value} {a : AdvanceId} {v : Value} {y : Elements}

/-- A state inside a chunk is made. -/
theorem finds_inChunk {i : Stream Value} (hi : S.Chunk i x.tokens) :
    S.Finds (W := W) (State.inChunk x.chunk (.plain false i x.position x.user))
      fun S' s => S'.Sits s x := by
  intro S₁ σ hle holds
  have unused : S₁.places σ.advances.size = none := by
    cases e : S₁.places σ.advances.size with
    | none => rfl
    | some z =>
      obtain ⟨m, hm, -⟩ := holds.memory _ z e
      exact absurd (Array.getElem?_eq_some_iff.mp hm).1 (Nat.lt_irrefl _)
  -- The new memory belongs to the place, and nobody has moved past its token.
  let S' : Side :=
    { S₁ with places := fun b => if b = σ.advances.size then some x else S₁.places b }
  have new : S'.places σ.advances.size = some x := if_pos rfl
  have hle' : S₁.Le S' := by
    refine ⟨.refl _, fun _ h => h, fun b z hz => ?_⟩
    refine (if_neg ?_).trans hz
    rintro rfl
    rw [unused] at hz
    cases hz
  refine ⟨_, S', { σ with advances := σ.advances.push {} },
    comes_of_forall (fun _ => rfl) not_exhausted_ok, ⟨hle', rfl⟩, ?_,
    ⟨fun _ _ h => h, rfl, .refl _ _⟩, .intro new ((hi.mono hle).mono hle')⟩
  refine ⟨holds.fits.congr rfl rfl rfl, holds.apart, holds.sound.congr (Nat.le_refl _)
    fun _ _ => rfl,
    fun b z hz => ?_, holds.slots⟩
  by_cases e : b = σ.advances.size
  · subst e
    cases new.symm.trans hz
    exact ⟨{}, Array.getElem?_push_size, .unknown⟩
  · obtain ⟨m, hm, remembers⟩ := holds.memory b z ((if_neg e).symm.trans hz)
    exact ⟨m, getElem?_push_of_eq_some hm _, remembers.mono hle'⟩

/-- Something else that is true is remembered. -/
theorem Holds.alter {σ : Store W} (h : S.Holds σ) (ha : S.places a.index = some x)
    {f : Advance → Advance} (hf : ∀ m, S.Remembers x m → S.Remembers x (f m)) :
    ∃ m, σ.advances[a.index]? = some m ∧ S.Remembers x m ∧
      S.Holds { σ with advances := σ.advances.modify a.index f } := by
  obtain ⟨m, hm, remembers⟩ := h.memory a.index x ha
  refine ⟨m, hm, remembers, h.fits.congr rfl rfl rfl, h.apart,
    h.sound.congr (Nat.le_refl _) fun _ _ => rfl, fun b z hz => ?_, h.slots⟩
  by_cases e : a.index = b
  · subst e
    cases ha.symm.trans hz
    refine ⟨f m, ?_, hf m remembers⟩
    simp [Array.getElem?_modify, hm]
  · obtain ⟨m, hm, remembers⟩ := h.memory b z hz
    refine ⟨m, ?_, remembers⟩
    simp only [Array.getElem?_modify, if_neg e, hm]

theorem finds_alter {f : Advance → Advance} (ha : S.places a.index = some x)
    (hf : ∀ S' m, S.Le S' → S'.Remembers x m → S'.Remembers x (f m)) :
    S.Finds (W := W) (a.alter f) fun _ _ => True := by
  intro S₁ σ hle holds
  obtain ⟨m, -, -, holds'⟩ := holds.alter (hle.places _ _ ha) fun m => hf S₁ m hle
  exact ⟨(), S₁, _, comes_of_forall (fun _ => rfl) not_exhausted_ok, .refl S₁, holds',
    ⟨fun _ _ h => h, rfl, .refl _ _⟩, trivial⟩

/-- What has been altered is found there. -/
theorem finds_altered {f : Advance → Advance} (ha : S.places a.index = some x)
    (hf : ∀ S' m, S.Le S' → S'.Remembers x m → S'.Remembers x (f m)) :
    S.Finds (W := W) (do a.alter f; a.memory) fun S' m => ∃ m₀, S'.Remembers x m₀ ∧ m = f m₀ := by
  intro S₁ σ hle holds
  obtain ⟨m, hm, remembers, holds'⟩ := holds.alter (hle.places _ _ ha) fun m => hf S₁ m hle
  refine ⟨f m, S₁, _, ?_, .refl S₁, holds', ⟨fun _ _ h => h, rfl, .refl _ _⟩, m, remembers, rfl⟩
  have altered : (σ.advances.modify a.index f)[a.index]? = some (f m) := by
    simp [Array.getElem?_modify, hm]
  refine comes_of_forall (fun n => ?_) not_exhausted_ok
  simp only [Eval.exec, AdvanceId.alter, AdvanceId.memory, Eval.run_bind, Eval.run_modify,
    Eval.run_get, altered, Eval.deref_some, Eval.run_pure]

/-- What is remembered is true. -/
theorem finds_memory (ha : S.places a.index = some x) :
    S.Finds (W := W) a.memory fun S' m => S'.Remembers x m := by
  intro S₁ σ hle holds
  obtain ⟨m, hm, remembers⟩ := holds.memory a.index x (hle.places _ _ ha)
  refine ⟨m, S₁, σ, ?_, .refl S₁, holds, .refl _ σ, remembers⟩
  refine comes_of_forall (fun n => ?_) not_exhausted_ok
  simp [Eval.exec, AdvanceId.memory, hm]

/-- A state inside a chunk notes the token that it is asked to move past. -/
theorem finds_next (h : S.Sits s x) (token : Value) (k : Continuation W) :
    S.Finds (s.next token k) fun S' t => ∃ b i, t = .cross b x.chunk i k ∧
      S'.Sits (.chunked b x.chunk i) x := by
  have here := h
  cases h with
  | @intro b i _ hx hi =>
    refine finds_bind (finds_alter hx fun S' m _ remembers => ?_) fun S' _ hle _ =>
      finds_pure fun S'' hle' => ⟨b, _, rfl, here.mono (hle.trans hle')⟩
    cases remembers with
    | unknown => exact .unknown
    | within hy ne ht => exact .within hy ne ht
    | across hy => exact .across hy

/-- Behind its first token a state arrives at the next place of its chunk, or asks for the next
chunk. -/
inductive Crosses (S : Side) (x : Place) (y : Elements) (k : Continuation W) :
    Step (Task W) (Finish W) → Prop where
  | within {t : State Value} : y ≠ .nil → S.Sits t (x.next y) →
    Crosses S x y k (.tail (.arrive t k))
  | across {i : Stream Value} : y = .nil → Crosses S x y k
      (.value (.request ⟨x.chunk + 1, .plain false i (x.position + 1) x.user, k⟩))

/-- What is remembered of the step leads there. -/
theorem finds_go (hx : x.tokens = .cons v y) {m : Advance} (hm : S.Remembers x m)
    (known : m.next.isSome) (k : Continuation W) :
    S.Finds (m.go x.chunk k) fun S' z => S'.Crosses x y k z := by
  cases hm with
  | unknown => cases known
  | within hy ne ht =>
    obtain ⟨-, rfl⟩ := Stream'.Seq.cons_eq_cons.mp (hx.symm.trans hy)
    exact finds_pure fun S' hle => .within ne (ht.mono hle)
  | across hy =>
    obtain ⟨-, rfl⟩ := Stream'.Seq.cons_eq_cons.mp (hx.symm.trans hy)
    exact finds_pure fun S' _ => .across rfl

/-- The way past a token is found, and it is remembered. -/
theorem finds_remember (ha : S.places a.index = some x) (hx : x.tokens = .cons v y)
    {i : Stream Value} (hi : S.Chunk i y) (k : Continuation W) :
    S.Finds (do
      a.remember x.chunk (.plain false i (x.position + 1) x.user)
      (← a.memory).go x.chunk k) fun S' z => S'.Crosses x y k z := by
  -- The look at what is left decides what is remembered.
  have split : (do
      a.remember x.chunk (.plain false i (x.position + 1) x.user)
      (← a.memory).go x.chunk k : Eval W _) = (do
      let empty ← i.isEmpty
      let m ← (if empty then do
          a.alter fun m =>
            { m with next := some (.plain false i (x.position + 1) x.user), exhausted := true }
          a.memory
        else do
          let s ← State.inChunk x.chunk (.plain false i (x.position + 1) x.user)
          a.alter fun m => { m with next := some s }
          a.memory : Eval W Advance)
      m.go x.chunk k) := by
    rw [AdvanceId.remember, bind_assoc]
    congr 1
    funext empty
    cases empty <;> simp
  rw [split]
  obtain ⟨r, holds⟩ := hi.1
  refine finds_bind (finds_contents holds.readable.isEmpty) fun S₁ empty h₁ hempty => ?_
  have ha := h₁.places _ _ ha
  refine finds_bind (Q := fun S' m => S'.Remembers x m ∧ m.next.isSome) ?_ fun S₂ m _ hm =>
    finds_go hx hm.1 hm.2 k
  split
  · next h =>
    have hy : y = .nil := hempty.mp h
    subst hy
    refine (finds_altered ha fun S' m _ _ => .across hx).imp ?_
    rintro S' _ - ⟨m, -, rfl⟩
    exact ⟨.across hx, rfl⟩
  · next h =>
    have ne : y ≠ .nil := fun e => h (hempty.mpr e)
    refine finds_bind (finds_inChunk (x := x.next y) (hi.mono h₁)) fun S₂ s h₂ hs => ?_
    have truly {S' : Side} {m : Advance} (hle : S₂.Le S') (hm : S'.Remembers x m) :
        S'.Remembers x { m with next := some s } := by
      cases hm with
      | unknown => exact .within hx ne (hs.mono hle)
      | within => exact .within hx ne (hs.mono hle)
      | across hy =>
        obtain ⟨-, rfl⟩ := Stream'.Seq.cons_eq_cons.mp (hx.symm.trans hy)
        exact absurd rfl ne
    refine (finds_altered (h₂.places _ _ ha) fun S' m hle hm => truly hle hm).imp ?_
    rintro S' _ hle ⟨m, hm, rfl⟩
    exact ⟨truly hle hm, rfl⟩

/-- A state moves past the first token of its chunk, whether or not somebody has done so before. -/
theorem finds_cross {i : State Value} (h : S.Sits (.chunked a x.chunk i) x)
    (hx : x.tokens = .cons v y) (k : Continuation W) :
    S.Finds (a.cross x.chunk i k) fun S' z => S'.Crosses x y k z := by
  obtain ⟨b, j, e, ha, hi⟩ := h.here
  cases e
  rw [AdvanceId.cross]
  refine finds_bind (finds_memory ha) fun S₁ m h₁ hm => ?_
  split
  -- Somebody has moved past the token before.
  · next known => exact finds_go hx hm known k
  · rw [State.advance, bind_assoc]
    obtain ⟨⟨r, holds⟩, data⟩ := hi.mono h₁
    rw [hx] at holds data
    refine finds_bind (finds_contents (holds.readable.rest v y rfl)) fun S₂ j h₂ hj => ?_
    refine finds_remember (h₂.places _ _ (h₁.places _ _ ha)) hx ⟨⟨r, hj⟩, fun u hu => ?_⟩ k
    exact data u (Stream'.Seq.mem_cons_of_mem _ hu)

end

end Side

end ResumableParsing
