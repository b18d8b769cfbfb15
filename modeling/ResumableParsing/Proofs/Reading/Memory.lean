import ResumableParsing.Proofs.Grammar.Scope
import ResumableParsing.Proofs.Reading.Behind
import ResumableParsing.Proofs.Store.Quiet

/-!
# What memories remember is true

A state inside a chunk remembers where the step past its first token leads. Each memory belongs to
one state, and what it remembers is the state behind the first token of that state. This holds of
all states of a run as long as functions of the caller and deferred parts leave states alone; a
tail may still be a parse of its own, from a state of the run.

* `Ghost`: the parsers and the states of a run
* `State.Fit`: a state is one of them
* `Ghost.Holds`: what is true of the store during a run
* `Calm`: computations through which it stays true
* `Ghost.Holds.inChunk`, `Ghost.Holds.remember`: making states, and remembering
-/

namespace ResumableParsing

variable {W α : Type}

/-! ## The states of a run -/

/-- The parsers of a run, and which states inside chunks its memories belong to. -/
structure Ghost where
  /-- The parsers. -/
  parsers : ParserId → Prop
  /-- The chunk and the inner state of the state with this memory. -/
  owner : Nat → Option (Int × State Value)

/-- More parsers and more states. -/
structure Ghost.Le (g g' : Ghost) : Prop where
  /-- The parsers stay. -/
  parsers : ∀ p, g.parsers p → g'.parsers p
  /-- The owners stay. -/
  owner : ∀ a x, g.owner a = some x → g'.owner a = some x

theorem Ghost.Le.refl (g : Ghost) : g.Le g := ⟨fun _ h => h, fun _ _ h => h⟩

theorem Ghost.Le.trans {g g' g'' : Ghost} (h : g.Le g') (h' : g'.Le g'') : g.Le g'' :=
  ⟨fun p hp => h'.parsers p (h.parsers p hp), fun a x hx => h'.owner a x (h.owner a x hx)⟩

/-- With `inc`, runs inside chunks are looked at as well, and functions of the caller ask for no
results and leave sessions alone. Without it, states are plain and functions of the caller do what
they want. -/
def reach (inc : Prop) (r : Reach) : Prop := inc → r = .states ∨ r = .parses

/-- The state belongs to the run. -/
def State.Fit (inc : Prop) (g : Ghost) : State Value → Prop
  | .plain .. => True
  | .chunked a c s => inc ∧ g.owner a.index = some (c, s) ∧ s.Fit inc g

theorem State.Fit.mono {inc : Prop} {g g' : Ghost} (h : g.Le g') {s : State Value}
    (hs : s.Fit inc g) : s.Fit inc g' := by
  induction s with
  | plain => trivial
  | chunked a c s ih => exact ⟨hs.1, h.owner _ _ hs.2.1, ih hs.2.2⟩

/-- A tail is not a parse, or a parse of the run. -/
def Tail.Fit (inc : Prop) (g : Ghost) : Tail W → Prop
  | .append .. => True
  | .parse p s => g.parsers p ∧ s.Fit inc g
  | .action a => a.Reaches (reach True)

/-- What is remembered of the step past the first token of a state inside the chunk `c`, with the
inner state `s`, is true. -/
structure Advance.Faithful (inc : Prop) (g : Ghost) (σ : Store W) (chunks : Int → Stream Value)
    (c : Int) (s : State Value) (m : Advance) : Prop where
  /-- Nobody finds the chunk exhausted before somebody has moved. -/
  unknown : m.next = none → m.exhausted = false
  /-- The state belongs to the run. -/
  fit : ∀ t, m.next = some t → t.Fit inc g
  /-- There are more tokens in the chunk. -/
  within : ∀ t, m.next = some t → m.exhausted = false →
    ∃ b t', t = .chunked b c t' ∧ s.Behind σ chunks t' ∧ t'.input.Occupied σ
  /-- The chunk is exhausted. -/
  across : ∀ t, m.next = some t → m.exhausted = true →
    s.Behind σ chunks t ∧ t.input.Vacant σ

/-- What is true of the store during a run: its parsers are parsers of the library, deferred tails
leave its states alone or parse from them, and its memories remember what is true. -/
structure Ghost.Holds (inc : Prop) (chunks : Int → Stream Value) (g : Ghost) (σ : Store W) :
    Prop where
  /-- The parsers only start one another. -/
  closed : Closed (reach inc) g.parsers σ
  /-- Tails fit. -/
  tails : inc → ∀ (i : Nat) (x : Memo (Tail W) (Option (Stream Value))),
    σ.tails[i]? = some x → x.thunk.Fit inc g
  /-- Memories are faithful. -/
  memory : inc → ∀ a c s, g.owner a = some (c, s) →
    ∃ m : Advance, σ.advances[a]? = some m ∧ m.Faithful inc g σ chunks c s

section

variable {inc : Prop} {chunks : Int → Stream Value} {g g' : Ghost} {σ τ : Store W}

theorem Advance.Faithful.later {c : Int} {s : State Value} {m : Advance}
    (h : m.Faithful inc g σ chunks c s) (hg : g.Le g') (k : σ.Knows τ) :
    m.Faithful inc g' τ chunks c s where
  unknown := h.unknown
  fit t ht := (h.fit t ht).mono hg
  within t ht he := by
    obtain ⟨b, t', rfl, hb, ho⟩ := h.within t ht he
    exact ⟨b, t', rfl, hb.later k, ho.later k⟩
  across t ht he := by
    obtain ⟨hb, hv⟩ := h.across t ht he
    exact ⟨hb.later k, hv.later k⟩

theorem Tail.Fit.mono (h : g.Le g') {t : Tail W} (ht : t.Fit inc g) : t.Fit inc g' := by
  cases t with
  | parse p s => exact ⟨h.parsers p ht.1, ht.2.mono h⟩
  | append a b => exact ht
  | action a => exact ht

theorem Tail.Quiet.fit {t : Tail W} (h : t.Quiet) : t.Fit inc g := by
  cases t with
  | parse p s => exact h.elim
  | append a b => exact h
  | action a => exact Action.Reaches.mono (fun _ h => h.elim) h

namespace Ghost.Holds

/-- A later store, with fitting tails and the same memories. -/
theorem later (h : g.Holds inc chunks σ) (k : σ.Grows τ)
    (ht : inc → ∀ (i : Nat) (x : Memo (Tail W) (Option (Stream Value))),
      τ.tails[i]? = some x → x.thunk.Fit inc g)
    (ha : inc → τ.advances = σ.advances) : g.Holds inc chunks τ where
  closed := h.closed.later k
  tails := ht
  memory hi a c s hs := by
    obtain ⟨m, hm, hf⟩ := h.memory hi a c s hs
    exact ⟨m, by rw [ha hi, hm], hf.later (.refl g) k.knows⟩

theorem change (h : g.Holds inc chunks σ) {f : Store W → α × Store W} (hf : QuietChange f) :
    g.Holds inc chunks (f σ).2 := by
  refine h.later (hf.grows σ) (fun hi i x hx => ?_) fun _ => hf.advances σ
  rcases hf.tails σ i x hx with hx | hx
  · exact h.tails hi i x hx
  · exact hx.fit

theorem size_unowned (h : g.Holds inc chunks σ) (hi : inc) : g.owner σ.advances.size = none := by
  cases ho : g.owner σ.advances.size with
  | none => rfl
  | some x =>
    obtain ⟨m, hm, -⟩ := h.memory hi _ x.1 x.2 ho
    simp at hm

/-- A memory that belongs to no state of the run is made. -/
theorem pushAdvance (h : g.Holds inc chunks σ) :
    g.Holds inc chunks { σ with advances := σ.advances.push {} } := by
  have k : σ.Grows { σ with advances := σ.advances.push {} } :=
    { Store.Grows.refl σ with advances := by simp }
  refine ⟨h.closed.later k, h.tails, fun hi a c s hs => ?_⟩
  obtain ⟨m, hm, hf⟩ := h.memory hi a c s hs
  refine ⟨m, ?_, hf.later (.refl g) k.knows⟩
  obtain ⟨hlt, rfl⟩ := Array.getElem?_eq_some_iff.mp hm
  exact Array.getElem?_push_lt hlt

/-- A state inside a chunk is made. -/
theorem inChunk (h : g.Holds inc chunks σ) (hi : inc) {c : Int} {s t : State Value}
    (hs : s.Fit inc g) {m : Means W} (e : State.inChunk c s m σ = .ok t τ) :
    ∃ g' a, g.Le g' ∧ g'.Holds inc chunks τ ∧ t = .chunked a c s ∧ t.Fit inc g' := by
  cases e
  let g' : Ghost := { g with
    owner := fun a => if a = σ.advances.size then some (c, s) else g.owner a }
  have hle : g.Le g' := by
    refine ⟨fun _ hp => hp, fun a x hx => ?_⟩
    have ha : a ≠ σ.advances.size := by
      rintro rfl
      rw [h.size_unowned hi] at hx
      cases hx
    simp only [g', if_neg ha, hx]
  have hk : σ.Grows { σ with advances := σ.advances.push {} } :=
    { Store.Grows.refl σ with advances := by simp }
  refine ⟨g', ⟨σ.advances.size⟩, hle, ⟨h.closed.later hk, fun hi i x hx => ?_, ?_⟩, rfl, hi, ?_,
    hs.mono hle⟩
  · exact (h.tails hi i x hx).mono hle
  · intro _ a d u hu
    -- The memory of the new state is empty, and the others are as they were.
    by_cases ha : a = σ.advances.size
    · simp only [g', if_pos ha, Option.some.injEq, Prod.mk.injEq] at hu
      subst ha
      refine ⟨{}, Array.getElem?_push_size, fun _ => rfl, ?_, ?_, ?_⟩ <;> simp
    · simp only [g', if_neg ha] at hu
      obtain ⟨m, hm, hf⟩ := h.memory hi a d u hu
      refine ⟨m, ?_, hf.later hle hk.knows⟩
      obtain ⟨hlt, rfl⟩ := Array.getElem?_eq_some_iff.mp hm
      exact Array.getElem?_push_lt hlt
  · simp [g']

/-- A state gets another input. -/
theorem setInput (h : g.Holds inc chunks σ) {s t : State Value} {i : Stream Value}
    (hs : s.Fit inc g) {m : Means W} (e : s.setInput i m σ = .ok t τ) :
    ∃ g', g.Le g' ∧ g'.Holds inc chunks τ ∧ t.Fit inc g' ∧ s.Refilled i t := by
  induction s generalizing t τ with
  | plain w j p u =>
    cases e
    exact ⟨g, .refl g, h, trivial, rfl⟩
  | chunked a c s ih =>
    obtain ⟨hi, -, hs⟩ := hs
    simp only [State.setInput, State.alter, Eval.run_bind] at e
    split at e
    · next t' σ₁ e₁ =>
      obtain ⟨g₁, hle, h₁, ht', hr⟩ := ih hs e₁
      obtain ⟨g₂, b, hle', h₂, rfl, ht⟩ := h₁.inChunk hi ht' e
      exact ⟨g₂, hle.trans hle', h₂, ht, rfl, hr⟩
    · cases e

/-- A memory is changed so that it stays faithful. -/
theorem alter (h : g.Holds inc chunks σ) {a : AdvanceId} {f : Advance → Advance} {m : Means W}
    (hf : ∀ c s x, g.owner a.index = some (c, s) → x.Faithful inc g σ chunks c s →
      (f x).Faithful inc g σ chunks c s)
    (e : a.alter f m σ = .ok () τ) : g.Holds inc chunks τ := by
  cases e
  have hk : σ.Grows { σ with advances := σ.advances.modify a.index f } :=
    { Store.Grows.refl σ with advances := by simp }
  refine ⟨h.closed.later hk, h.tails, fun hi b c s hs => ?_⟩
  obtain ⟨x, hx, hx'⟩ := h.memory hi b c s hs
  change ∃ y, (σ.advances.modify a.index f)[b]? = some y ∧ _
  rw [Array.getElem?_modify, hx]
  split
  · next hb =>
    subst hb
    exact ⟨f x, rfl, (hf c s x hs hx').later (.refl g) hk.knows⟩
  · exact ⟨x, rfl, hx'.later (.refl g) hk.knows⟩

end Ghost.Holds

/-! ## Computations that keep what is true -/

/-- What is true of the store stays true through the computation, if runs inside chunks are looked
at. -/
def Calm (inc : Prop) (chunks : Int → Stream Value) (n : Nat) (x : Eval W α) : Prop :=
  inc → ∀ {g : Ghost} {σ τ : Store W} {a : α}, g.Holds inc chunks σ →
    x (.within n) σ = .ok a τ → ∃ g', g.Le g' ∧ g'.Holds inc chunks τ

/-- Deferred parts of streams are computed calmly. -/
structure Forces (W : Type) (inc : Prop) (chunks : Int → Stream Value) (n : Nat) : Prop where
  /-- Tails. -/
  tail : ∀ i, Calm inc chunks n (Eval.force (.tail i) : Eval W _)
  /-- Cells. -/
  cell : ∀ i, Calm inc chunks n (Eval.force (.cell i) : Eval W _)

variable {n : Nat} {β : Type}

theorem Calm.bind {x : Eval W α} {f : α → Eval W β} (hx : Calm inc chunks n x)
    (hf : ∀ a, Calm inc chunks n (f a)) : Calm inc chunks n (x >>= f) := by
  intro hi g σ τ b h e
  rw [Eval.run_bind] at e
  split at e
  · next a σ₁ e₁ =>
    obtain ⟨g₁, hle, h₁⟩ := hx hi h e₁
    obtain ⟨g₂, hle', h₂⟩ := hf a hi h₁ e
    exact ⟨g₂, hle.trans hle', h₂⟩
  · cases e

theorem Quiet.calm (hF : Forces W inc chunks n) {x : Eval W α} (hx : Quiet x) :
    Calm inc chunks n x := by
  induction hx with
  | change f hf hq =>
    intro hi g σ τ a h e
    rw [hf] at e
    cases e
    exact ⟨g, .refl g, h.change hq⟩
  | stop s =>
    intro hi g σ τ a h e
    cases e
  | bind _ _ ihx ihf => exact ihx.bind ihf
  | tail i => exact hF.tail i
  | cell i => exact hF.cell i
  | loop _ _ ih => exact ih n

theorem calm_alterState (f : Bool → Stream Value → Int → Value → State Value) (s : State Value) :
    Calm inc chunks n (s.alter f : Eval W (State Value)) := by
  induction s with
  | plain w i p u =>
    intro hi g σ τ a h e
    cases e
    exact ⟨g, .refl g, h⟩
  | chunked a c s ih =>
    refine ih.bind fun t hi g σ τ a h e => ?_
    cases e
    exact ⟨g, .refl g, h.pushAdvance⟩

/-- Functions of the caller may make states as they like; they get new memories. -/
theorem calm_action (hF : Forces W inc chunks n) {a : Action W α} (ha : a.Reaches (reach inc)) :
    Calm inc chunks n a.run := by
  induction a with
  | done a => exact (Quiet.pure a).calm hF
  | raise f => exact (Quiet.fault f).calm hF
  | inspect k ih => exact fun hi g σ τ b h e => ih σ.world (ha σ.world) hi h e
  | update f next ih => exact ((Quiet.world fun w => ((), f w)).calm hF).bind fun _ => ih ha
  | serial k ih => exact (Quiet.serial.calm hF).bind fun n => ih n (ha n)
  | iterator answer k ih => exact ((Quiet.make _).calm hF).bind fun it => ih it (ha it)
  | asStream s k ih => exact ((quiet_asStream s).calm hF).bind fun t => ih t (ha t)
  | isEmpty s k ih => exact ((quiet_isEmpty s).calm hF).bind fun b => ih b (ha b)
  | first s k ih => exact ((quiet_first s).calm hF).bind fun v => ih v (ha v)
  | rest s k ih => exact ((quiet_rest s).calm hF).bind fun t => ih t (ha t)
  | append a b k ih => exact ((quiet_append a b).calm hF).bind fun t => ih t (ha t)
  | toList s k ih => exact ((quiet_toList s).calm hF).bind fun vs => ih vs (ha vs)
  | render v k ih => exact fun hi g σ τ b h e => ih (σ.render v) (ha _) hi h e
  | setInput s i k ih => exact (calm_alterState _ s).bind fun t => ih t (ha.2 t)
  | setPosition s p k ih => exact (calm_alterState _ s).bind fun t => ih t (ha.2 t)
  | setUser s u k ih => exact (calm_alterState _ s).bind fun t => ih t (ha.2 t)
  | peek r k ih => exact fun hi => absurd (ha.1 hi) (by simp)
  | result r k ih => exact fun hi => absurd (ha.1 hi) (by simp)
  | finish s k ih => exact fun hi => absurd (ha.1 hi) (by simp)

/-- A calm computation leaves a store of which the same is true. -/
theorem Ghost.Holds.run (h : g.Holds inc chunks σ) {x : Eval W α} (hc : Composed x)
    (hx : Calm inc chunks n x) {a : α} (e : x (.within n) σ = .ok a τ) :
    ∃ g', g.Le g' ∧ g'.Holds inc chunks τ ∧ σ.Grows τ := by
  have k : σ.Grows τ := hc.grows_of_ok e
  by_cases hi : inc
  · obtain ⟨g', hle, h'⟩ := hx hi h e
    exact ⟨g', hle, h', k⟩
  · exact ⟨g, .refl g, h.later k (absurd · hi) (absurd · hi), k⟩

/-- Building a grammar of the library adds parsers to the run. -/
theorem Ghost.Holds.build (h : g.Holds inc chunks σ) {gr : Grammar W}
    (hg : gr.Library (reach inc) g.parsers) :
    ∃ g', g.Le g' ∧ g'.Holds inc chunks (gr.build σ).2 ∧ g'.parsers (gr.build σ).1 := by
  obtain ⟨P, hP, hclosed, hq⟩ := hg.scoped σ h.closed
  have hframe := gr.build_grows.frame σ
  have hle : g.Le { g with parsers := P } := ⟨hP, fun _ _ h => h⟩
  refine ⟨_, hle, ⟨hclosed, fun hi i x hx => ?_, fun hi a c s hs => ?_⟩, hq⟩
  · rw [hframe] at hx
    exact (h.tails hi i x hx).mono hle
  · obtain ⟨m, hm, hf⟩ := h.memory hi a c s hs
    exact ⟨m, by rw [hframe, hm], hf.later hle (gr.build_grows.grows σ).knows⟩

/-- What is remembered of a state of the run is true. -/
theorem Ghost.Holds.faithful (h : g.Holds inc chunks σ) (hi : inc) {a : AdvanceId} {c : Int}
    {s : State Value} (ha : g.owner a.index = some (c, s)) {m : Means W} {x : Advance}
    (e : a.memory m σ = .ok x τ) : τ = σ ∧ x.Faithful inc g σ chunks c s := by
  obtain ⟨y, hy, hf⟩ := h.memory hi _ _ _ ha
  simp only [AdvanceId.memory, Eval.run_bind, Eval.run_get, hy, Eval.deref_some,
    Eval.run_pure] at e
  cases e
  exact ⟨rfl, hf⟩

/-- The step past the first token of a state inside a chunk is remembered. -/
theorem Ghost.Holds.remember (h : g.Holds inc chunks σ) (hF : Forces W inc chunks n)
    (hi : inc) {a : AdvanceId} {c : Int} {s t : State Value}
    (ha : g.owner a.index = some (c, s)) (hb : s.Behind σ chunks t) (ht : t.Fit inc g)
    (e : a.remember c t (.within n) σ = .ok () τ) :
    ∃ g', g.Le g' ∧ g'.Holds inc chunks τ ∧ σ.Grows τ := by
  have k : σ.Grows τ := (composed_remember a c t).grows_of_ok e
  simp only [AdvanceId.remember, Eval.run_bind] at e
  split at e
  · next empty σ₁ e₁ =>
    obtain ⟨g₁, hle, h₁, k₁⟩ := h.run (composed_isEmpty _) ((quiet_isEmpty _).calm hF) e₁
    have known := known_of_isEmpty e₁
    have hb := hb.later k₁.knows
    cases empty with
    | true =>
      refine ⟨g₁, hle, h₁.alter (fun c' s' x hx hf => ?_) e, k⟩
      rw [hle.owner _ _ ha] at hx
      cases hx
      exact ⟨by simp, by rintro _ ⟨⟩; exact ht.mono hle, by simp,
        by rintro _ ⟨⟩ _; exact ⟨hb, known⟩⟩
    | false =>
      simp only [Bool.false_eq_true, if_false, Eval.run_bind] at e
      split at e
      · next u σ₂ e₂ =>
        have k₂ := ((composed_inChunk c t).grows_of_ok e₂).knows
        obtain ⟨g₂, b, hle', h₂, rfl, hu⟩ := h₁.inChunk hi (ht.mono hle) e₂
        have hle := hle.trans hle'
        refine ⟨g₂, hle, h₂.alter (fun c' s' x hx hf => ?_) e, k⟩
        rw [hle.owner _ _ ha] at hx
        cases hx
        have hb := hb.later k₂
        have known := known.later k₂
        refine ⟨by simp, ?_, ?_, ?_⟩
        · rintro _ ⟨⟩
          exact hu
        · rintro _ ⟨⟩ _
          exact ⟨b, t, rfl, hb, known⟩
        · rintro _ ⟨⟩ he
          -- An earlier look found the chunk exhausted, and it looked at the same rest.
          cases hn : x.next with
          | none => cases (hf.unknown hn).symm.trans he
          | some t' =>
            obtain ⟨hb', hv⟩ := hf.across t' hn he
            exact absurd (hb'.input_unique hb ▸ hv) known.not_vacant
      · cases e
  · cases e

end

end ResumableParsing
