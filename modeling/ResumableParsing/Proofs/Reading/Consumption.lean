import ResumableParsing.Proofs.Direct.Answered
import ResumableParsing.Proofs.Reading.Bodies

/-!
# Consumption

Outcomes tell the truth about consumption: the state of a reply is so many tokens behind the state
that the parser was started in, and the reply says that input was consumed exactly if there are
any.

* `readingSpec_sound`: the program of every job does what is said of it
* `forces_within`: so deferred parts keep what is true of the store
* `Finish.answer`, `evaluates_of_answered`: runs whose requests for chunks are answered
* `Stream.restsAcross`: moving along the rest of a chunk and the chunks after it
* `outcomes_tell_consumption`: what replies say about consumption is true
-/

namespace ResumableParsing

variable {W α : Type}

section

variable {inc : Prop} {chunks : Int → Stream Value} {n : Nat} {g g' : Ghost} {σ τ : Store W}

/-! ## Jobs -/

/-- A parser that is looked up is one of the library. -/
theorem Ghost.Holds.found (h : g.Holds inc chunks σ) {p : ParserId} (hp : g.parsers p)
    {m : Means W} {c : Cell W} (e : p.found m σ = .ok c τ) :
    τ = σ ∧ (∀ code, c.direct = some code → code.Library (reach inc) g.parsers) ∧
      ∀ code, c.logged = some code → code.Library (reach inc) g.parsers := by
  obtain ⟨d, hd, h₁, h₂⟩ := h.closed p hp
  simp only [ParserId.found, Eval.run_bind, Eval.run_get, hd, Eval.deref_some, Eval.run_pure] at e
  cases e
  exact ⟨rfl, h₁, h₂⟩

/-- The job does what a run function does. -/
theorem meets_code {j : Job W} {s : State Value}
    (hj : ∀ υ r, s.Reads υ chunks r → j.Reads υ chunks r) (h : Since inc chunks g σ g' τ)
    {c : Code W} (hc : c.Library (reach inc) g'.parsers) (hs : s.Fit inc g') :
    MeetsFor inc chunks n g j σ (Direct.reply (.code c s)) τ :=
  meets_call h ⟨hc, hs⟩ fun _ _ _ h' hf hr => meets_done (h.trans h') hf (hj _ _ hr)

/-- The job does what the definition behind the logging method does. -/
theorem logged_meets (hF : Forces W inc chunks n) {j : Job W} {s : State Value}
    (hj : ∀ υ r, s.Reads υ chunks r → j.Reads υ chunks r) (h : g.Holds inc chunks σ)
    {p : ParserId} (hp : g.parsers p) (hs : s.Fit inc g) :
    MeetsFor inc chunks n g j σ (p.directLogged s) σ := by
  refine meets_act (.refl h) (.debug _) ((Quiet.debug _).calm hF) fun _ g₁ τ₁ h₁ _ => ?_
  refine .act fun c υ e => ?_
  obtain ⟨rfl, -, hl⟩ := h₁.holds.found (h₁.le.parsers p hp) e
  rw [Direct.done_bind]
  cases hc : c.logged with
  | some code => exact meets_code hj h₁ (hl code hc) (hs.mono h₁.le)
  | none => exact meets_fault

/-- What is specified of all jobs is what their programs do. -/
theorem readingSpec_sound (hF : Forces W inc chunks n) :
    (readingSpec inc chunks).Sound (.within n : Means W) chunks := by
  rintro g j σ ⟨h, hj⟩
  cases j with
  | parser p s =>
    refine .act fun c υ e => ?_
    obtain ⟨rfl, hd, -⟩ := h.found hj.1 e
    rw [Direct.done_bind]
    cases hc : c.direct with
    | some code =>
      exact meets_code (j := .parser p s) (fun _ _ hr => hr) (.refl h) (hd code hc) hj.2
    | none => exact logged_meets (j := .parser p s) hF (fun _ _ hr => hr) h hj.1 hj.2
  | code c s =>
    cases c with
    | body b => exact body_meets hF h hj.1 hj.2
    | method p =>
      exact logged_meets (j := .code (.method p) s) hF (fun _ _ hr => hr) h hj.1 hj.2
  | past s token => exact past_meets hF h hj token

end

/-! ## Deferred parts -/

section

variable {inc : Prop} {chunks : Int → Stream Value} {n : Nat} {g : Ghost} {σ τ : Store W}

/-- What a run leaves, with its requests answered or not, is a store of which the same is true. -/
theorem Ghost.Holds.runWith (h : g.Holds inc chunks σ) (hF : Forces W inc chunks n) {p : ParserId}
    {s : State Value} (hp : g.parsers p) (hs : s.Fit inc g) {k : Nat} {f : Finish W}
    (e : p.runWith chunks k s (.within n) σ = .ok f τ) :
    ∃ g', g.Le g' ∧ g'.Holds inc chunks τ ∧ ∀ r, f = .reply r → s.Reads τ chunks r := by
  obtain ⟨cs, ends, hcs⟩ := evaluates_of_answered e
  have hx := (readingSpec_sound hF).evaluates ends hcs g ⟨h, hp, hs⟩
  cases f with
  | reply r =>
    obtain ⟨g', hle, h', -, -, hr⟩ := hx
    exact ⟨g', hle, h', by rintro _ ⟨⟩; exact hr⟩
  | request q =>
    obtain ⟨g', hle, h'⟩ := hx
    exact ⟨g', hle, h', by rintro r ⟨⟩⟩

theorem calm_compute (hF : Forces W inc chunks n) (h : g.Holds inc chunks σ) {t : Tail W}
    (ht : t.Fit inc g) {a : Option (Stream Value)} (hi : inc)
    (e : t.compute (.within n) σ = .ok a τ) : ∃ g', g.Le g' ∧ g'.Holds inc chunks τ := by
  cases t with
  | append s u => exact (quiet_compute (t := .append s u) trivial).calm hF hi h e
  | action a =>
    have ha : a.Reaches (reach inc) := Action.Reaches.mono (fun _ hr _ => hr trivial) ht
    rw [Tail.compute, map_eq_pure_bind] at e
    exact ((calm_action hF ha).bind fun _ => (Quiet.pure _).calm hF) hi h e
  | parse p s =>
    rw [Tail.compute, ParserId.parseState, bind_assoc, Eval.run_bind] at e
    split at e
    · next f υ e₁ =>
      have e₂ : p.runWith chunks 0 s (.within n) σ = .ok f υ := by
        rw [ParserId.runWith, Eval.run_bind, e₁]
        rfl
      obtain ⟨g', hle, h', -⟩ := h.runWith hF ht.1 ht.2 e₂
      -- What is made of the end of the parse leaves the store alone.
      have hυ : τ = υ := by
        rcases f with (⟨d, v, t⟩ | ⟨d, e', t⟩) | q
        · cases v with
          | stream u =>
            cases e
            rfl
          | _ => cases e
        · cases e
        · cases e
          rfl
      exact ⟨g', hle, hυ ▸ h'⟩
    · cases e

/-- What is known of a part stays known where another slot is filled. -/
theorem Memo.KnownAs.putSlot {θ α : Type} {a : Array (Memo θ α)} {i j : Nat} {slot : Slot α} {v : α}
    (h : KnownAs a j v) (hi : ∀ x, a[i]? = some x → ∀ w, x.slot ≠ .known w) :
    KnownAs (Memo.putSlot a i slot) j v := by
  obtain ⟨x, hx, hv⟩ := h
  refine ⟨x, (Memo.putSlot_other a ?_ slot).trans hx, hv⟩
  rintro rfl
  exact hi x hx v hv

theorem Ghost.Holds.putTail (h : g.Holds inc chunks σ)
    {i : Nat} {slot : Slot (Option (Stream Value))}
    (hi : ∀ x, σ.tails[i]? = some x → ∀ w, x.slot ≠ .known w) :
    g.Holds inc chunks (Shelf.tails.put i slot σ) where
  closed := h.closed
  tails hi j x hx := by
    obtain ⟨y, hy, same⟩ := Memo.thunk_putSlot hx
    rw [same]
    exact h.tails hi j y hy
  memory hi' a c s hs := by
    obtain ⟨m, hm, hf⟩ := h.memory hi' a c s hs
    exact ⟨m, hm, hf.later (.refl g) ⟨fun k => k.putSlot hi, fun k => k⟩⟩

theorem Ghost.Holds.putCell (h : g.Holds inc chunks σ) {i : Nat}
    {slot : Slot (Option (Value × Stream Value))}
    (hi : ∀ x, σ.cells[i]? = some x → ∀ w, x.slot ≠ .known w) :
    g.Holds inc chunks (Shelf.cells.put i slot σ) where
  closed := h.closed
  tails := h.tails
  memory hi' a c s hs := by
    obtain ⟨m, hm, hf⟩ := h.memory hi' a c s hs
    exact ⟨m, hm, hf.later (.refl g) ⟨fun k => k, fun k => k.putSlot hi⟩⟩

/-- A part is computed calmly if the computation behind it is calm. -/
theorem calm_get {θ : Type} {shelf : Shelf W θ α} (hl : shelf.Lawful) {x : θ → Eval W α}
    (hx : ∀ t, Composed (x t))
    (hput : ∀ {g : Ghost} {σ : Store W} {i : Nat} {slot : Slot α}, g.Holds inc chunks σ →
      (∀ y, shelf.find i σ = some y → ∀ w, y.slot ≠ .known w) →
      g.Holds inc chunks (shelf.put i slot σ))
    (hcalm : inc → ∀ {g : Ghost} {σ τ : Store W} {i : Nat} {y : Memo θ α} {a : α},
      g.Holds inc chunks σ → shelf.find i σ = some y → x y.thunk (.within n) σ = .ok a τ →
      ∃ g', g.Le g' ∧ g'.Holds inc chunks τ) (i : Nat) :
    Calm inc chunks n (fun _ => shelf.get i fun t => x t (.within n)) := by
  intro hi g σ τ a h e
  simp only [Shelf.get] at e
  cases hy : shelf.find i σ with
  | none => simp [hy] at e
  | some y =>
    simp only [hy] at e
    cases hs : y.slot with
    | known b =>
      rw [hs] at e
      cases e
      exact ⟨g, .refl g, h⟩
    | busy => simp [hs] at e
    | unset =>
      simp only [hs] at e
      split at e
      · next b υ e₁ =>
        cases e
        have h₀ : g.Holds inc chunks (shelf.put i .busy σ) := hput h fun z hz w hw => by
          rw [hy] at hz
          cases hz
          rw [hs] at hw
          cases hw
        have busy : shelf.find i (shelf.put i .busy σ) = some { y with slot := .busy } := by
          rw [hl.find_put, hy]
          rfl
        obtain ⟨g', hle, h'⟩ := hcalm hi h₀ busy e₁
        refine ⟨g', hle, hput h' fun z hz w hw => ?_⟩
        -- The mark stays until it is taken away here.
        obtain ⟨z', hz', hs'⟩ := hl.find ((hx y.thunk).grows_of_ok e₁) busy
        rw [hz] at hz'
        cases hz'
        rcases hs' with hs' | hs'
        · cases hs'
        · rw [hw] at hs'
          cases hs'
      · cases e

end

/-- Deferred parts keep what is true of the store, however deeply their computations are nested. -/
theorem forces_within (inc : Prop) (chunks : Int → Stream Value) (n : Nat) :
    Forces W inc chunks n := by
  induction n with
  | zero =>
    refine ⟨fun i hi g σ τ a h e => ?_, fun i hi g σ τ a h e => ?_⟩
    · cases e
    · cases e
  | succ n ih =>
    constructor
    · intro i
      exact calm_get (x := Tail.compute) Shelf.lawful_tails composed_compute
        (fun h hi => h.putTail hi)
        (fun hi _ _ _ _ _ _ h hy e => calm_compute ih h (h.tails hi _ _ hy) hi e) i.index
    · intro i
      exact calm_get (x := IteratorId.pull) Shelf.lawful_cells composed_pull
        (fun h hi => h.putCell hi)
        (fun hi _ _ _ _ _ _ h _ e => (quiet_pull _).calm ih hi h e) i.index

/-! ## Replies -/

/-- The reply tells the truth about the `n` tokens between the state that the parser was started in
and the state of the reply: it lies so many positions and rests further, with the same user state,
and it counts as consumed exactly if there are any. -/
structure Reply.Truthful (chunks : Int → Stream Value) (s : State Value) (r : Reply Value)
    (n : Nat) (σ : Store W) : Prop where
  /-- The position has moved past the tokens. -/
  position : r.state.position = s.position + n
  /-- The user state is the same. -/
  user : r.state.user = s.user
  /-- The input has moved past the tokens. -/
  input : ∀ bound, (Stream.restsAcross chunks n s.cursor).exec (bound + 1) σ = .ok r.state.cursor σ
  /-- The reply is consumed exactly if there are tokens. -/
  consumed : r.outcome.isConsumed = true ↔ 0 < n

theorem State.Reads.truthful {chunks : Int → Stream Value} {s : State Value} {r : Reply Value}
    {σ : Store W} (h : s.Reads σ chunks r) : ∃ n, r.Truthful chunks s n σ := by
  obtain ⟨n, hf, hn⟩ := h
  exact ⟨n, hf.position, hf.user, fun bound => hf.restsAcross, hn⟩

/-- At the start of a run nothing is remembered that could be false: states may only be plain. -/
theorem Ghost.holds_start {P : ParserId → Prop} {chunks : Int → Stream Value} {σ : Store W}
    (hP : Closed (reach True) P σ)
    (ht : ∀ (i : Nat) (x : Memo (Tail W) (Option (Stream Value))), σ.tails[i]? = some x →
      x.thunk.Fit True ⟨P, fun _ => none⟩) :
    Ghost.Holds True chunks ⟨P, fun _ => none⟩ σ :=
  ⟨hP, fun _ => ht, fun _ _ _ _ h => by cases h⟩

/-- What the reply of a parser of the library says about consumption is true. In a plain run
functions of the caller may do what they want. A run inside chunks may start in any state whose
memories are true so far; functions of the caller leave results and sessions alone, and `chunks`
are the chunks that requests are answered with. -/
theorem outcomes_tell_consumption (chunks : Int → Stream Value) {p : ParserId}
    {r : Reply Value} {σ τ : Store W} {bound : Nat} :
    (∀ (P : ParserId → Prop) (w : Bool) (i : Stream Value) (position : Int) (u : Value),
      Closed (fun _ => True) P σ → P p →
      (p.run (.plain w i position u)).exec bound σ = .ok (.reply r) τ →
      ∃ n, r.Truthful chunks (.plain w i position u) n τ) ∧
    (∀ (g : Ghost) (s : State Value) (requests : Nat),
      g.Holds True chunks σ → g.parsers p → s.Fit True g →
      (p.runWith chunks requests s).exec bound σ = .ok (.reply r) τ →
      ∃ n, r.Truthful chunks s n τ) := by
  constructor
  · intro P w i position u hP hp e
    have hP : Closed (reach False) P σ := by
      rwa [show reach False = fun _ => True by funext r; simp [reach]]
    have hg : Ghost.Holds False chunks ⟨P, fun _ => none⟩ σ := ⟨hP, False.elim, False.elim⟩
    have e : (p.runWith chunks 0 (.plain w i position u)).exec bound σ = .ok (.reply r) τ := by
      rw [Eval.exec, ParserId.runWith, Eval.run_bind, show p.run _ (.within bound) σ = _ from e]
      rfl
    obtain ⟨g', -, -, hr⟩ :=
      hg.runWith (s := .plain w i position u) (forces_within _ _ _) hp trivial e
    exact (hr r rfl).truthful
  · intro g s requests hg hp hs e
    obtain ⟨g', -, -, hr⟩ := hg.runWith (forces_within _ _ _) hp hs e
    exact (hr r rfl).truthful

/-- Reading one token, and reading the only token of a chunk. -/
theorem outcomes_tell_consumption_one_token :
    let made := (Grammar.some fun _ => .done true).build (Store.initial () fun _ _ => ())
    let start : State Value := .plain false (.cons 0 (.int 7) .nil) 0 .none
    let chunks : Int → Stream Value := fun _ => .nil
    (∃ r τ, (made.1.run start).exec 9 made.2 = .ok (.reply r) τ ∧
      ∃ n, r.Truthful chunks start n τ) ∧
    ∃ s σ r τ, State.inChunk 0 start (.within 9) made.2 = .ok s σ ∧
      (made.1.runWith chunks 1 s).exec 9 σ = .ok (.reply r) τ ∧ ∃ n, r.Truthful chunks s n τ := by
  intro made start chunks
  have closed (R : Reach → Prop) : ∃ P, Closed R P made.2 ∧ P made.1 := by
    have library : (Grammar.some fun _ => .done true : Grammar Unit).Library R
        fun p => p = .finished := .some fun _ => trivial
    obtain ⟨P, -, hP, hp⟩ := library.scoped _ (closed_initial () fun _ _ => ())
    exact ⟨P, hP, hp⟩
  refine ⟨⟨_, _, rfl, ?_⟩, _, _, _, _, rfl, rfl, ?_⟩
  · obtain ⟨P, hP, hp⟩ := closed fun _ => True
    have e : (made.1.run start).exec 9 made.2 = _ := rfl
    exact (outcomes_tell_consumption chunks).1 P _ _ _ _ hP hp e
  · obtain ⟨P, hP, hp⟩ := closed (reach True)
    have holds : Ghost.Holds True chunks ⟨P, fun _ => none⟩ made.2 :=
      Ghost.holds_start hP (by rintro i x ⟨⟩)
    have made_state : State.inChunk 0 start (.within 9) made.2 = _ := rfl
    obtain ⟨g, a, hle, hg, hs, hf⟩ := holds.inChunk trivial (s := start) trivial made_state
    have e : (made.1.runWith chunks 1 (.chunked ⟨0⟩ 0 start)).exec 9
      { made.2 with advances := made.2.advances.push {} } = _ := rfl
    exact (outcomes_tell_consumption chunks).2 g _ 1 hg (hle.parsers _ hp) hf e

end ResumableParsing
