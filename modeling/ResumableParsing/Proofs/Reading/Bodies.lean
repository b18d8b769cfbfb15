import ResumableParsing.Proofs.Direct.Spec
import ResumableParsing.Proofs.Reading.Memory

/-!
# What parsers read

Every parser of the library replies in a state that is some tokens behind the one it was started
in: at least one token if the reply says that input was consumed, and none otherwise. Moving past a
token leads to the state behind it.

* `State.Reads`: what a reply says about consumption is true
* `readingSpec`: the specification of all jobs
* `readingSpec_sound`: the program of every job meets it
* `forces_within`: deferred parts keep what is true
-/

namespace ResumableParsing

variable {W : Type}

/-! ## The specification -/

/-- The reply lies behind tokens of the state, and it says truly whether there are any. -/
def State.Reads (σ : Store W) (chunks : Int → Stream Value) (s : State Value)
    (r : Reply Value) : Prop :=
  ∃ n, s.Follows σ chunks n r.state ∧ (r.outcome.isConsumed = true ↔ 0 < n)

/-- The job belongs to the run. -/
def Job.Fit (inc : Prop) (g : Ghost) : Job W → Prop
  | .parser p s => g.parsers p ∧ s.Fit inc g
  | .code c s => c.Library (reach inc) g.parsers ∧ s.Fit inc g
  | .past s _ => s.Fit inc g

/-- The reply is one that the job may give. -/
def Job.Reads (σ : Store W) (chunks : Int → Stream Value) : Job W → Reply Value → Prop
  | .parser _ s, r => s.Reads σ chunks r
  | .code _ s, r => s.Reads σ chunks r
  | .past s _, r => ∃ t, r = .arrival t ∧ s.Behind σ chunks t

/-- The specification of all jobs of a run. -/
def readingSpec (inc : Prop) (chunks : Int → Stream Value) : Spec W Ghost where
  Pre g j σ := g.Holds inc chunks σ ∧ j.Fit inc g
  Post g j σ r σ' := ∃ g', g.Le g' ∧ g'.Holds inc chunks σ' ∧ σ.Grows σ' ∧
    r.state.Fit inc g' ∧ j.Reads σ' chunks r
  Wait g _ _ σ' := ∃ g', g.Le g' ∧ g'.Holds inc chunks σ'

section

variable {inc : Prop} {chunks : Int → Stream Value} {n : Nat} {g g' : Ghost} {σ τ υ : Store W}

/-- A program meets the postconditions of a job that was started before. -/
abbrev MeetsFor (inc : Prop) (chunks : Int → Stream Value) (n : Nat) (g : Ghost) (j : Job W)
    (σ : Store W) : Direct W (Reply Value) → Store W → Prop :=
  (readingSpec inc chunks).Meets (.within n) chunks ((readingSpec inc chunks).Post g j σ)
    ((readingSpec inc chunks).Wait g j σ)

/-- How far a run has come since a job was started. -/
structure Since (inc : Prop) (chunks : Int → Stream Value) (g : Ghost) (σ : Store W) (g' : Ghost)
    (τ : Store W) : Prop where
  /-- There may be more parsers and states. -/
  le : g.Le g'
  /-- What is true of the store is still true. -/
  holds : g'.Holds inc chunks τ
  /-- What was known is known. -/
  grows : σ.Grows τ

theorem Since.refl (h : g.Holds inc chunks σ) : Since inc chunks g σ g σ := ⟨.refl g, h, .refl σ⟩

theorem Since.trans {g'' : Ghost} (h : Since inc chunks g σ g' τ)
    (h' : Since inc chunks g' τ g'' υ) : Since inc chunks g σ g'' υ :=
  ⟨h.le.trans h'.le, h'.holds, h.grows.trans h'.grows⟩

/-- A computation that is quiet if runs inside chunks are looked at. -/
theorem meets_act {j : Job W} {β : Type} {x : Eval W β} {k : β → Direct W (Reply Value)}
    (h : Since inc chunks g σ g' τ) (hc : Composed x) (hx : Calm inc chunks n x)
    (hk : ∀ b g'' υ, Since inc chunks g' τ g'' υ → x (.within n) τ = .ok b υ →
      MeetsFor inc chunks n g j σ (k b) υ) :
    MeetsFor inc chunks n g j σ (.act x k) τ := by
  refine .act fun b υ e => ?_
  obtain ⟨g'', hle, h', hg⟩ := h.holds.run hc hx e
  exact hk b g'' υ ⟨hle, h', hg⟩ e

theorem meets_fault {j : Job W} {e : Fault} {k : Reply Value → Direct W (Reply Value)} :
    MeetsFor inc chunks n g j σ (.act (Eval.fault e) k) τ := .act fun _ _ h => by cases h

/-- A job is started. -/
theorem meets_call {j j' : Job W} {k : Reply Value → Direct W (Reply Value)}
    (h : Since inc chunks g σ g' τ) (hj : j'.Fit inc g')
    (hk : ∀ r g'' υ, Since inc chunks g' τ g'' υ → r.state.Fit inc g'' → j'.Reads υ chunks r →
      MeetsFor inc chunks n g j σ (k r) υ) :
    MeetsFor inc chunks n g j σ (.call j' k) τ := by
  refine .call g' ⟨h.holds, hj⟩ ?_ ?_
  · rintro r υ ⟨g'', hle, h', hg, hf, hr⟩
    exact hk r g'' υ ⟨hle, h', hg⟩ hf hr
  · rintro υ ⟨g'', hle, h'⟩
    exact ⟨g'', h.le.trans hle, h'⟩

/-- A reply is given. -/
theorem meets_done {j : Job W} {r : Reply Value} (h : Since inc chunks g σ g' τ)
    (hf : r.state.Fit inc g') (hr : j.Reads τ chunks r) :
    MeetsFor inc chunks n g j σ (.done r) τ :=
  .done ⟨g', h.le, h.holds, h.grows, hf, hr⟩

/-! ## Replies -/

theorem State.Reads.here {r : Reply Value} {s : State Value} (hs : r.state = s)
    (hr : r.outcome.isConsumed = false) : s.Reads σ chunks r := by
  refine ⟨0, hs ▸ .refl _, ?_⟩
  simp [hr]

/-- The reply of a parser that goes on where another one has stopped. -/
theorem State.Reads.trans {s : State Value} {r r' r'' : Reply Value} (h : s.Reads τ chunks r)
    (k : τ.Grows υ) (h' : r.state.Reads υ chunks r') (hs : r''.state = r'.state)
    (hr : r''.outcome.isConsumed = (r.outcome.isConsumed || r'.outcome.isConsumed)) :
    s.Reads υ chunks r'' := by
  obtain ⟨a, hf, ha⟩ := h
  obtain ⟨b, hf', hb⟩ := h'
  refine ⟨a + b, hs ▸ (hf.later k.knows).trans hf', ?_⟩
  rw [hr, Bool.or_eq_true, ha, hb]
  omega

/-- The reply of a parser that only replaces the result. -/
theorem State.Reads.alike {s : State Value} {r r' : Reply Value} (h : s.Reads τ chunks r)
    (k : τ.Grows υ) (hs : r'.state = r.state)
    (hr : r'.outcome.isConsumed = r.outcome.isConsumed) : s.Reads υ chunks r' := by
  obtain ⟨a, hf, ha⟩ := h
  exact ⟨a, hs ▸ hf.later k.knows, hr ▸ ha⟩

/-! ## Programs -/

variable {s : State Value}

theorem meets_refuse {c : Code W} (hF : Forces W inc chunks n)
    (h : Since inc chunks g σ g' τ) (hs : s.Fit inc g') (reason : Reason)
    (expected : List ParserId) :
    MeetsFor inc chunks n g (.code c s) σ (Direct.refuse reason expected s) τ := by
  refine meets_act h .serial (Quiet.serial.calm hF) fun number g'' υ h' _ => ?_
  exact meets_done (h.trans h') (hs.mono h'.le) (.here rfl rfl)

/-- The store is looked at. -/
theorem meets_get {j : Job W} {k : Store W → Direct W (Reply Value)}
    (hk : MeetsFor inc chunks n g j σ (k τ) τ) :
    MeetsFor inc chunks n g j σ (.act get k) τ :=
  .act fun _ _ e => by
    cases e
    exact hk

/-- A grammar of the library is built. -/
theorem meets_build {j : Job W} {gr : Grammar W} {k : ParserId → Direct W (Reply Value)}
    (h : Since inc chunks g σ g' τ) (hg : gr.Library (reach inc) g'.parsers)
    (hk : ∀ q g'' υ, Since inc chunks g' τ g'' υ → g''.parsers q →
      MeetsFor inc chunks n g j σ (k q) υ) :
    MeetsFor inc chunks n g j σ (.act (Eval.ofBuild gr.build) k) τ := by
  refine .act fun q υ e => ?_
  cases e
  obtain ⟨g₁, hle, h₁, hq⟩ := h.holds.build hg
  exact hk _ _ _ ⟨hle, h₁, gr.build_grows.grows τ⟩ hq

/-- A cell is made whose tail runs a parser again. -/
theorem meets_cell {v : Value} {again : ParserId} {c : Code W} (h : Since inc chunks g σ g' τ)
    (hp : g'.parsers again) (hs : s.Fit inc g') :
    MeetsFor inc chunks n g (.code c s) σ ((Body.cell v again : Body W).direct s) τ := by
  refine .act fun cell υ e => ?_
  have k : τ.Grows υ := (composed_lazyCell v _).grows_of_ok e
  cases e
  have since : Since inc chunks g σ g' { τ with
      nextSerial := τ.nextSerial + 1, tails := τ.tails.push ⟨.parse again s, .unset⟩ } := by
    refine ⟨h.le, h.holds.later k (fun hi i x hx => ?_) fun _ => rfl, h.grows.trans k⟩
    change (τ.tails.push _)[i]? = some x at hx
    rw [Array.getElem?_push] at hx
    split at hx
    · cases hx
      exact ⟨hp, hs⟩
    · exact h.holds.tails hi i x hx
  exact meets_done since hs (.here rfl rfl)

theorem body_meets (hF : Forces W inc chunks n) (h : g.Holds inc chunks σ) {b : Body W}
    (hb : b.Library (reach inc) g.parsers) (hs : s.Fit inc g) :
    MeetsFor inc chunks n g (.code (.body b) s) σ (b.direct s) σ := by
  have h₀ := Since.refl h
  cases b with
  | some self accepts =>
    refine meets_act h₀ (composed_isEmpty _) ((quiet_isEmpty _).calm hF) fun empty g₁ σ₁ h₁ _ => ?_
    rw [Direct.done_bind]
    cases empty with
    | true => exact meets_refuse hF h₁ (hs.mono h₁.le) _ _
    | false =>
      simp only [Bool.false_eq_true, if_false]
      refine meets_act h₁ (composed_first _) ((quiet_first _).calm hF) fun token g₂ σ₂ h₂ _ => ?_
      refine meets_act (h₁.trans h₂) (composed_action _)
        (calm_action hF (hb.2 token)) fun ok g₃ σ₃ h₃ _ => ?_
      rw [Direct.done_bind]
      have h₃ := h₁.trans (h₂.trans h₃)
      cases ok with
      | true =>
        -- An accepted token is consumed: the state of the reply lies one token behind.
        refine meets_call h₃ (hs.mono h₃.le) fun r g₄ σ₄ h₄ hf hr => ?_
        refine meets_act (h₃.trans h₄) (.debug _) ((Quiet.debug _).calm hF) fun _ g₅ σ₅ h₅ _ => ?_
        refine meets_done (h₃.trans (h₄.trans h₅)) (hf.mono h₅.le) ?_
        obtain ⟨t, rfl, hb⟩ := hr
        exact ⟨1, .step (.refl s) (hb.later h₅.grows.knows), by simp [Reply.outcome]⟩
      | false =>
        refine meets_act h₃ (.debug _) ((Quiet.debug _).calm hF) fun _ g₄ σ₄ h₄ _ => ?_
        have h₄ := h₃.trans h₄
        exact meets_get (meets_refuse hF h₄ (hs.mono h₄.le) _ _)
  | pure v => exact meets_done h₀ hs (.here rfl rfl)
  | fail m => exact meets_refuse hF h₀ hs _ _
  | finished self =>
    refine meets_act h₀ (composed_isEmpty _) ((quiet_isEmpty _).calm hF) fun empty g₁ σ₁ h₁ _ => ?_
    rw [Direct.done_bind]
    cases empty with
    | true => exact meets_done h₁ (hs.mono h₁.le) (.here rfl rfl)
    | false =>
      simp only [Bool.false_eq_true, if_false]
      refine meets_act h₁ (composed_first _) ((quiet_first _).calm hF) fun token g₂ σ₂ h₂ _ => ?_
      have h₂ := h₁.trans h₂
      exact meets_get (meets_refuse hF h₂ (hs.mono h₂.le) _ _)
  | undeclared => exact meets_fault
  | seq p q c =>
    refine meets_call h₀ ⟨hb.1, hs⟩ fun r g₁ σ₁ h₁ hf hr => ?_
    cases r with
    | err d e t => exact meets_done h₁ hf hr
    | ok d v t =>
      refine meets_call h₁ ⟨h₁.le.parsers _ hb.2, hf⟩ fun r' g₂ σ₂ h₂ hf' hr' => ?_
      have h₂' := h₁.trans h₂
      cases r' with
      | err d' e u => exact meets_done h₂' hf' (hr.trans h₂.grows hr' rfl (by simp [Reply.outcome]))
      | ok d' w u =>
        refine meets_act h₂' (composed_join c v w) ((quiet_join c v w).calm hF)
          fun x g₃ σ₃ h₃ _ => ?_
        refine meets_done (h₂'.trans h₃) (hf'.mono h₃.le) ?_
        exact hr.trans (h₂.grows.trans h₃.grows) (hr'.alike h₃.grows rfl rfl)
          (by rfl) (by simp [Reply.outcome])
  | alt p q =>
    refine meets_call h₀ ⟨hb.1, hs⟩ fun r g₁ σ₁ h₁ hf hr => ?_
    rcases r with ⟨d, v, t⟩ | ⟨_ | _, e, t⟩
    · exact meets_done h₁ hf hr
    · refine meets_call h₁ ⟨h₁.le.parsers _ hb.2, hs.mono h₁.le⟩ fun r' g₂ σ₂ h₂ hf' hr' => ?_
      rcases r' with ⟨d, v, t⟩ | ⟨_ | _, e', t⟩
      · exact meets_done (h₁.trans h₂) hf' hr'
      · refine meets_act (h₁.trans h₂) .serial (Quiet.serial.calm hF) fun number g₃ σ₃ h₃ _ => ?_
        exact meets_done (h₁.trans (h₂.trans h₃)) (hf'.mono h₃.le) (hr'.alike h₃.grows rfl rfl)
      · exact meets_done (h₁.trans h₂) hf' hr'
    · exact meets_done h₁ hf hr
  | map p f =>
    refine meets_call h₀ ⟨hb.1, hs⟩ fun r g₁ σ₁ h₁ hf hr => ?_
    cases r with
    | err d e t => exact meets_done h₁ hf hr
    | ok d v t =>
      refine meets_act h₁ (composed_action _) (calm_action hF (hb.2 v))
        fun w g₂ σ₂ h₂ _ => ?_
      exact meets_done (h₁.trans h₂) (hf.mono h₂.le) (hr.alike h₂.grows rfl rfl)
  | bind p f =>
    refine meets_call h₀ ⟨hb.1, hs⟩ fun r g₁ σ₁ h₁ hf hr => ?_
    cases r with
    | err d e t => exact meets_done h₁ hf hr
    | ok d v t =>
      refine meets_act h₁ (composed_action _) (calm_action hF (hb.2.1 v))
        fun gr g₂ σ₂ h₂ e => ?_
      have hgr := (hb.2.2 v _ _ _ _ e).mono (fun _ h => h) (h₁.trans h₂).le.parsers
      refine meets_build (h₁.trans h₂) hgr fun q g₃ σ₃ h₃ hq => ?_
      have h₃' := h₁.trans (h₂.trans h₃)
      have hf := hf.mono (h₂.le.trans h₃.le)
      refine meets_call h₃' ⟨hq, hf⟩ fun r' g₄ σ₄ h₄ hf' hr' => ?_
      have k := h₂.grows.trans (h₃.grows.trans h₄.grows)
      -- Input has been consumed if either parser has consumed some, and the reply says so.
      cases d with
      | true =>
        refine meets_done (h₃'.trans h₄) (by simpa using hf') (hr.trans k hr' (by simp) ?_)
        rw [if_pos rfl, Reply.outcome_consume, Outcome.isConsumed_consume]
        rfl
      | false => exact meets_done (h₃'.trans h₄) hf' (hr.trans k hr' rfl rfl)
  | ignore inner =>
    refine meets_call h₀ ⟨hb, hs⟩ fun r g₁ σ₁ h₁ hf hr => ?_
    cases r with
    | ok d v t => exact meets_done h₁ hf (hr.alike (.refl _) rfl rfl)
    | err d e t => exact meets_done h₁ hf hr
  | attempt p =>
    refine meets_call h₀ ⟨hb, hs⟩ fun r g₁ σ₁ h₁ hf hr => ?_
    rcases r with ⟨d, v, t⟩ | ⟨_ | _, e, t⟩
    · exact meets_done h₁ hf hr
    · exact meets_done h₁ hf hr
    -- A failed attempt is back where it was started.
    · exact meets_done h₁ (hs.mono h₁.le) (.here rfl rfl)
  | many self p =>
    refine meets_call h₀ ⟨hb.2, hs⟩ fun r g₁ σ₁ h₁ hf hr => ?_
    rcases r with ⟨_ | _, v, t⟩ | ⟨_ | _, e, t⟩
    -- A success that has consumed nothing could be repeated for ever, so it is a fault.
    · exact meets_get meets_fault
    · refine meets_call h₁ ⟨h₁.le.parsers _ hb.1, hf⟩ fun r' g₂ σ₂ h₂ hf' hr' => ?_
      have h₂' := h₁.trans h₂
      cases r' with
      | ok d w u =>
        refine meets_act h₂' (composed_join .cons v w) ((quiet_join .cons v w).calm hF)
          fun x g₃ σ₃ h₃ _ => ?_
        refine meets_done (h₂'.trans h₃) (hf'.mono h₃.le) ?_
        exact hr.trans (h₂.grows.trans h₃.grows) (hr'.alike h₃.grows rfl rfl) (by rfl)
          (by simp [Reply.outcome])
      | err d e u =>
        exact meets_done h₂' hf' (hr.trans h₂.grows hr' rfl (by simp [Reply.outcome]))
    · exact meets_done h₁ (hs.mono h₁.le) (.here rfl rfl)
    · exact meets_done h₁ hf hr
  | cell v again => exact meets_cell h₀ hb.2 hs
  | native run => exact hb.elim
  | after p run => exact hb.elim

/-- Going where the step past the first token leads. -/
theorem go_meets {a : AdvanceId} {c : Int} {token : Value} {m : Advance}
    (h : Since inc chunks g σ g' τ) (hi : inc)
    (hm : m.Faithful inc g' τ chunks c s) :
    MeetsFor inc chunks n g (.past (.chunked a c s) token) σ (m.direct c) τ := by
  refine .act fun t υ e => ?_
  cases hn : m.next with
  | none =>
    rw [hn] at e
    cases e
  | some t' =>
    rw [hn] at e
    cases e
    cases he : m.exhausted with
    | false =>
      obtain ⟨b, t', rfl, hb, ho⟩ := hm.within t hn he
      exact meets_done h (hm.fit _ hn) ⟨_, rfl, .within hb ho⟩
    | true =>
      -- The token was the last one of its chunk, so the next chunk is asked for.
      obtain ⟨hb, hv⟩ := hm.across t hn he
      refine .ask ⟨g', h.le, h.holds⟩ (.act fun u ω e => ?_)
      have k := (Composed.bind (composed_alterState _ t)
        fun s => composed_inChunk (c + 1) s).grows_of_ok e
      rw [Eval.run_bind] at e
      split at e
      · next t₁ υ₁ e₁ =>
        obtain ⟨g₁, hle, h₁, hf₁, hr⟩ := h.holds.setInput (hm.fit t hn) e₁
        obtain ⟨g₂, b, hle', h₂, rfl, hf₂⟩ := h₁.inChunk hi hf₁ e
        have since : Since inc chunks g σ g₂ ω :=
          ⟨h.le.trans (hle.trans hle'), h₂, h.grows.trans k⟩
        refine meets_done since hf₂ ?_
        exact ⟨_, rfl, .across (hb.later k.knows) (hv.later k.knows) hr⟩
      · cases e

/-- The state behind the first token of a plain state. -/
theorem advance_meets (hF : Forces W inc chunks n) (h : Since inc chunks g σ g' τ)
    {w : Bool} {i : Stream Value} {p : Int} {u token : Value} :
    MeetsFor inc chunks n g (.past (.plain w i p u) token) σ (do
      let t ← Direct.eval (State.plain w i p u).advance
      Direct.eval (Eval.debug fun _ => "trying " ++ Task.settleName)
      return .arrival t) τ := by
  refine meets_act h (composed_advance _) ((quiet_advance ..).calm hF) fun t g₁ τ₁ h₁ e => ?_
  obtain ⟨j, rfl, hj⟩ := next_of_advance e
  refine meets_act (h.trans h₁) (.debug _) ((Quiet.debug _).calm hF) fun _ g₂ τ₂ h₂ _ => ?_
  exact meets_done (h.trans (h₁.trans h₂)) trivial ⟨_, rfl, .plain (hj.later h₂.grows.knows)⟩

/-- Once the state behind the first token of the inner state is remembered, the way leads on. -/
theorem remembered_meets (hF : Forces W inc chunks n) (h : Since inc chunks g σ g' τ)
    (hi : inc) {a : AdvanceId} {c : Int} {t : State Value} {token : Value}
    (ha : g'.owner a.index = some (c, s)) (hb : s.Behind τ chunks t) (ht : t.Fit inc g')
    (e : a.remember c t (.within n) τ = .ok () υ) :
    MeetsFor inc chunks n g (.past (.chunked a c s) token) σ (do
      (← Direct.eval a.memory).direct c) υ := by
  obtain ⟨g₁, hle, h₁, k⟩ := h.holds.remember hF hi ha hb ht e
  have h₁ : Since inc chunks g σ g₁ υ := ⟨h.le.trans hle, h₁, h.grows.trans k⟩
  refine .act fun m υ₁ e => ?_
  obtain ⟨rfl, hm⟩ := h₁.holds.faithful hi (hle.owner _ _ ha) e
  exact go_meets h₁ hi hm

/-- Moving past the first token leads to the state behind it. -/
theorem past_meets (hF : Forces W inc chunks n) (h : g.Holds inc chunks σ)
    (hs : s.Fit inc g) (token : Value) :
    MeetsFor inc chunks n g (.past s token) σ (s.directNext token) σ := by
  have h₀ := Since.refl h
  cases s with
  | plain w i p u =>
    cases w with
    | true =>
      refine meets_act h₀ (.modify fun σ => { Store.Adds.refl σ with })
        ((Quiet.watch token).calm hF) fun _ g₁ σ₁ h₁ _ => ?_
      exact advance_meets hF h₁
    | false => exact advance_meets hF h₀
  | chunked a c s =>
    obtain ⟨hi, ha, hs⟩ := hs
    refine .act fun _ σ₁ e => ?_
    have k := (composed_alter a _).grows_of_ok e
    have h₁ : Since inc chunks g σ g σ₁ := by
      refine ⟨.refl g, h.alter ?_ e, k⟩
      exact fun c s x _ hf => ⟨hf.unknown, hf.fit, hf.within, hf.across⟩
    refine .act fun m σ₂ e => ?_
    obtain ⟨rfl, hm⟩ := h₁.holds.faithful hi ha e
    rw [Direct.done_bind]
    -- The memory of the chunk holds the step, or it is made now: in the state itself or in the
    -- state that lies inside.
    split
    · exact go_meets h₁ hi hm
    · split
      · next i p u =>
        refine .act fun _ σ₂ e => ?_
        rw [Eval.run_bind] at e
        split at e
        · next t τ e₁ =>
          obtain ⟨j, rfl, hj⟩ := next_of_advance e₁
          obtain ⟨g₂, hle, h₂, k⟩ := h₁.holds.run (composed_advance _)
            ((quiet_advance ..).calm hF) e₁
          exact remembered_meets hF (h₁.trans ⟨hle, h₂, k⟩) hi (hle.owner _ _ ha) (.plain hj)
            trivial e
        · cases e
      · refine meets_call h₁ hs fun r g₂ σ₂ h₂ hf hr => ?_
        obtain ⟨t, rfl, hb⟩ := hr
        exact .act fun _ σ₃ e =>
          remembered_meets hF (h₁.trans h₂) hi (h₂.le.owner _ _ ha) hb hf e

end

end ResumableParsing
