import ResumableParsing.Proofs.Correspondence.Basic
import ResumableParsing.Proofs.Direct.Combinators

/-!
# Parsers as processes

With requests answered, what a parser arrives at depends on the state and on the store. So do other
processes, which are put together from parsers and from computations that only change the store. A
process goes on with another one where it succeeds, and the outcome of both tells whether one of
them has consumed. In this the laws of a monad hold as equations.

* `Finish.behind`: the outcome of a process behind another one
* `Process`, `Process.bind`: what processes arrive at
* `Process.bind_assoc`, `Process.pure_bind`, `ParserId.process_bind_pure`: the laws
* `Process.given`, `arrives_bind`: the grammar that a function of the caller gives, built and run
* `mapArrives_iff_bind`: a value that a function of the caller gives
-/

namespace ResumableParsing

variable {W α β : Type}

/-! ## Outcomes behind one another -/

namespace Finish

/-- What a process arrives at, as seen behind another one that has consumed or not. -/
def behind (d : Bool) : EStateM.Result Stop (Store W) (Finish W) →
    EStateM.Result Stop (Store W) (Finish W)
  | .ok (.reply r) τ => .ok (.reply (if d then r.consume else r)) τ
  | y => y

variable {c d : Bool} {v : Value} {e : ParseError Value} {s : State Value} {τ : Store W}
  {y : EStateM.Result Stop (Store W) (Finish W)}

@[simp] theorem behind_ok :
    behind d (.ok (.reply (.ok c v s)) τ) = .ok (.reply (.ok (d || c) v s)) τ := by
  cases d <;> rfl

@[simp] theorem behind_err :
    behind d (.ok (.reply (.err c e s)) τ) = .ok (.reply (.err (d || c) e s)) τ := by
  cases d <;> rfl

@[simp] theorem behind_stop (e : Stop) : behind d (.error e τ) = .error e τ := rfl

@[simp] theorem behind_false : behind false y = y := by
  rcases y with ⟨r | q, τ⟩ | ⟨e, τ⟩ <;> rfl

/-- A process has consumed behind two others if it has done so behind one of them. -/
@[simp] theorem behind_behind : behind c (behind d y) = behind (c || d) y := by
  rcases y with ⟨(⟨b, v, s⟩ | ⟨b, e, s⟩) | q, τ⟩ | ⟨e, τ⟩
  · simp [Bool.or_assoc]
  · simp [Bool.or_assoc]
  · rfl
  · rfl

/-- Whether a process succeeds does not depend on what is before it. -/
theorem of_behind_ok (h : behind d y = .ok (.reply (.ok c v s)) τ) :
    ∃ b, y = .ok (.reply (.ok b v s)) τ ∧ (d || b) = c := by
  rcases y with ⟨(⟨b, v', s'⟩ | ⟨b, e, s'⟩) | q, τ'⟩ | ⟨e, τ'⟩
  · rw [behind_ok] at h
    cases h
    exact ⟨b, rfl, rfl⟩
  · rw [behind_err] at h
    cases h
  · cases h
  · cases h

end Finish

/-! ## Processes -/

/-- What something arrives at in a state and in a store. -/
abbrev Process (W : Type) :=
  State Value → Store W → EStateM.Result Stop (Store W) (Finish W) → Prop

/-- What a parser arrives at, with requests answered by the chunks of their numbers. -/
def ParserId.process (chunks : Int → Stream Value) (p : ParserId) : Process W := p.Arrives chunks

namespace Process

/-- The value, without consuming. -/
def pure (v : Value) : Process W := fun s σ y => y = .ok (.reply (.ok false v s)) σ

/-- Something is done to the store first. -/
def after (f : Store W → Store W) (A : Process W) : Process W := fun s σ y => A s (f σ) y

/-- A process that goes on where another one succeeds. -/
inductive bind (A : Process W) (B : Value → Process W) : Process W where
  /-- The first one fails. -/
  | failed {d : Bool} {e : ParseError Value} {s t : State Value} {σ τ : Store W} :
      A s σ (.ok (.reply (.err d e t)) τ) → bind A B s σ (.ok (.reply (.err d e t)) τ)
  /-- The first one breaks off. -/
  | stop {e : Stop} {s : State Value} {σ τ : Store W} :
      A s σ (.error e τ) → bind A B s σ (.error e τ)
  /-- The first one succeeds. -/
  | next {d : Bool} {v : Value} {s t : State Value} {σ σ₁ : Store W}
      {y : EStateM.Result Stop (Store W) (Finish W)} :
      A s σ (.ok (.reply (.ok d v t)) σ₁) → B v t σ₁ y → bind A B s σ (Finish.behind d y)

/-- A process that goes on from what a computation comes to. -/
inductive act (x : Eval W α) (B : α → Process W) : Process W where
  /-- The computation comes to a result. -/
  | next {a : α} {s : State Value} {σ σ₁ : Store W}
      {y : EStateM.Result Stop (Store W) (Finish W)} :
      x.Comes σ (.ok a σ₁) → B a s σ₁ y → act x B s σ y
  /-- The computation breaks off. -/
  | stop {e : Stop} {s : State Value} {σ τ : Store W} :
      x.Comes σ (.error e τ) → act x B s σ (.error e τ)

variable {A A' : Process W} {B C : Value → Process W}

theorem ext (h : ∀ s σ y, A s σ y ↔ A' s σ y) : A = A' :=
  funext fun s => funext fun σ => funext fun y => propext (h s σ y)

/-- What is bound matters only in the state and the store in which it runs. -/
theorem bind_congr {s s' : State Value} {σ σ' : Store W}
    {y : EStateM.Result Stop (Store W) (Finish W)} (h : ∀ z, A s σ z ↔ A' s' σ' z) :
    A.bind B s σ y ↔ A'.bind B s' σ' y := by
  have onward {A A' : Process W} {s s' : State Value} {σ σ' : Store W}
      (h : ∀ z, A s σ z → A' s' σ' z) (run : A.bind B s σ y) : A'.bind B s' σ' y := by
    cases run with
    | failed first => exact .failed (h _ first)
    | stop first => exact .stop (h _ first)
    | next first second => exact .next (h _ first) second
  exact ⟨onward fun z => (h z).mp, onward fun z => (h z).mpr⟩

/-- What it is bound to matters only for the values that it gives. -/
theorem bind_iff (h : ∀ v, B v = C v) {s : State Value} {σ : Store W}
    {y : EStateM.Result Stop (Store W) (Finish W)} : A.bind B s σ y ↔ A.bind C s σ y := by
  rw [funext h]

/-! ### Laws -/

theorem pure_bind (v : Value) : (pure v).bind B = B v := by
  refine ext fun s σ y => ⟨fun h => ?_, fun h => ?_⟩
  · generalize hA : pure v = A at h
    cases h with
    | failed first =>
      rw [← hA] at first
      cases first
    | stop first =>
      rw [← hA] at first
      cases first
    | next first second =>
      rw [← hA] at first
      cases first
      rwa [Finish.behind_false]
  · have both : (pure v).bind B s σ (Finish.behind false y) := .next rfl h
    rwa [Finish.behind_false] at both

theorem bind_assoc : (A.bind B).bind C = A.bind fun v => (B v).bind C := by
  refine ext fun s σ y => ⟨fun h => ?_, fun h => ?_⟩
  · cases h with
    | failed h =>
      generalize hz : EStateM.Result.ok _ _ = z at h
      cases h with
      | failed first =>
        cases hz
        exact .failed first
      | stop first => cases hz
      | @next d _ _ _ _ _ z first second =>
        -- The second one fails, and so do the second and the third one together.
        rcases z with ⟨(⟨c, w, u⟩ | ⟨c, e, u⟩) | q, τ⟩ | ⟨e, τ⟩
        · rw [Finish.behind_ok] at hz
          cases hz
        · exact .next first (.failed second)
        · cases hz
        · cases hz
    | stop h =>
      generalize hz : EStateM.Result.error _ _ = z at h
      cases h with
      | failed first => cases hz
      | stop first =>
        cases hz
        exact .stop first
      | @next d _ _ _ _ _ z first second =>
        rcases z with ⟨(⟨c, w, u⟩ | ⟨c, e, u⟩) | q, τ⟩ | ⟨e, τ⟩
        · rw [Finish.behind_ok] at hz
          cases hz
        · rw [Finish.behind_err] at hz
          cases hz
        · cases hz
        · cases hz
          exact .next first (.stop second)
    | next h third =>
      generalize hz : EStateM.Result.ok _ _ = z at h
      cases h with
      | failed first => cases hz
      | stop first => cases hz
      | next first second =>
        obtain ⟨b, rfl, rfl⟩ := Finish.of_behind_ok hz.symm
        rw [← Finish.behind_behind]
        exact .next first (.next second third)
  · cases h with
    | failed first => exact .failed (.failed first)
    | stop first => exact .stop (.stop first)
    | @next d _ _ _ _ _ _ first rest =>
      have onward {z : EStateM.Result Stop (Store W) (Finish W)} (second : B _ _ _ z) :=
        bind.next first second
      cases rest with
      | failed second =>
        have both := onward second
        rw [Finish.behind_err] at both ⊢
        exact .failed both
      | stop second => exact .stop (onward second)
      | next second third =>
        have both := onward second
        rw [Finish.behind_ok] at both
        rw [Finish.behind_behind]
        exact .next both third

/-- A computation takes no part in the outcome. -/
theorem act_bind {x : Eval W α} {D : α → Process W} :
    (act x D).bind B = act x fun a => (D a).bind B := by
  refine ext fun s σ y => ⟨fun h => ?_, fun h => ?_⟩
  · cases h with
    | failed h =>
      cases h with
      | next first rest => exact .next first (.failed rest)
    | stop h =>
      cases h with
      | next first rest => exact .next first (.stop rest)
      | stop first => exact .stop first
    | next h more =>
      cases h with
      | next first rest => exact .next first (.next rest more)
  · cases h with
    | stop first => exact .stop (.stop first)
    | next first rest =>
      cases rest with
      | failed rest => exact .failed (.next first rest)
      | stop rest => exact .stop (.next first rest)
      | next rest more => exact .next (.next first rest) more

/-- Two computations one after the other. -/
theorem act_act {x : Eval W α} (hx : Composed x) {f : α → Eval W β} {D : β → Process W} :
    act (x >>= f) D = act x fun a => act (f a) D := by
  refine ext fun s σ y => ⟨fun h => ?_, fun h => ?_⟩
  · cases h with
    | next first rest =>
      rcases first.of_bind hx with ⟨a, σ₁, ha, hb⟩ | ⟨e, σ₁, -, ⟨⟩⟩
      exact .next ha (.next hb rest)
    | stop first =>
      rcases first.of_bind hx with ⟨a, σ₁, ha, he⟩ | ⟨e, σ₁, he, ⟨⟩⟩
      · exact .next ha (.stop he)
      · exact .stop he
  · cases h with
    | stop first => exact .stop (comes_bind_error first)
    | next first h =>
      cases h with
      | next second rest => exact .next (comes_bind_ok first second) rest
      | stop second => exact .stop (comes_bind_ok first second)

/-- A computation that just changes the store. -/
theorem act_change {x : Eval W α} {g : Store W → α × Store W} {D : α → Process W}
    {s : State Value} {σ : Store W} {y : EStateM.Result Stop (Store W) (Finish W)}
    (h : ∀ σ, x.Comes σ (.ok (g σ).1 (g σ).2)) : act x D s σ y ↔ D (g σ).1 s (g σ).2 y := by
  constructor
  · intro run
    cases run with
    | next first rest =>
      cases first.unique (h σ)
      exact rest
    | stop first => cases first.unique (h σ)
  · exact fun rest => .next (h σ) rest

theorem act_pure (a : α) {D : α → Process W} : act (Pure.pure a) D = D a :=
  ext fun _ _ _ => act_change (g := fun σ => (a, σ)) fun σ => comes_pure a σ

end Process

/-! ## Parsers -/

section

variable {chunks : Int → Stream Value} {p q : ParserId} {s : State Value} {σ : Store W}
  {y : EStateM.Result Stop (Store W) (Finish W)} {a : Action W (Grammar W)}
  {f : Value → Action W (Grammar W)}

/-- A parser that only hands on the value of another one. A parser that has arrived does not wait.
-/
theorem ParserId.process_bind_pure :
    (p.process chunks : Process W).bind .pure = p.process chunks := by
  refine Process.ext fun s σ y => ⟨fun h => ?_, fun h => ?_⟩
  · cases h with
    | failed h => exact h
    | stop h => exact h
    | next first second =>
      cases second
      rwa [Finish.behind_ok, Bool.or_false]
  · rcases y with ⟨(⟨c, v, t⟩ | ⟨c, e, t⟩) | q, τ⟩ | ⟨e, τ⟩
    · have both : (p.process chunks).bind .pure s σ _ := .next h rfl
      rwa [Finish.behind_ok, Bool.or_false] at both
    · exact .failed h
    · exact absurd rfl (h.1 q τ)
    · exact .stop h

/-- The grammar that a program of the caller gives is built and run. -/
def Process.given (chunks : Int → Stream Value) (a : Action W (Grammar W)) : Process W :=
  .act (Correspondence.built a) fun q => q.process chunks

theorem composed_built (a : Action W (Grammar W)) : Composed (Correspondence.built a) :=
  .bind (composed_action a) fun g => composed_build g

/-- A parser, and then the grammar that depends on its result. -/
theorem arrives_bind (h : q.Performs σ (.bind p f)) : q.Arrives chunks s σ y ↔
    (p.process chunks).bind (fun v => .given chunks (f v)) s (q.tried σ) y := by
  have patient := Direct.Patient.body (.bind p f : Body W) s
  have patient₁ (d v t) := (patient (.ok d v t)).2
  rw [h.arrives_iff]
  constructor
  · have onward {d : Bool} {v : Value} {t : State Value} {σ₁ : Store W}
        {y : EStateM.Result Stop (Store W) (Finish W)}
        (first : (p.process chunks) s (q.tried σ) (.ok (.reply (.ok d v t)) σ₁))
        (second : Process.given chunks (f v) t σ₁ y) :
        (p.process chunks).bind (fun v => .given chunks (f v)) s (q.tried σ) (Finish.behind d y) :=
      .next first second
    intro h
    -- The parser runs, the function is applied, the grammar is built, and its parser runs.
    rcases (lands_run patient).mp h with ⟨r, σ₁, first, h⟩ | ⟨e, τ, first, rfl⟩
    · cases r with
      | err d e t =>
        cases lands_done.mp h
        exact .failed first
      | ok d v t =>
        rcases (lands_act (composed_action _) (patient₁ d v t)).mp h with
          ⟨g, σ₂, gives, h⟩ | ⟨e, τ, gives, rfl⟩
        · rcases (lands_act (composed_build g) (patient₁ d v t g).2).mp h with
            ⟨b, σ₃, builds, h⟩ | ⟨e, τ, builds, rfl⟩
          · have built : (Correspondence.built (f v)).Comes σ₁ (.ok b σ₃) :=
              comes_bind_ok gives builds
            rcases (lands_run ((patient₁ d v t g).2 b)).mp h with
              ⟨r, τ, second, h⟩ | ⟨e, τ, second, rfl⟩
            · cases lands_done.mp h
              exact onward first (Process.act.next built second)
            · exact onward first (Process.act.next built second)
          · exact onward first (Process.act.stop (comes_bind_ok gives builds))
        · exact onward first (Process.act.stop (comes_bind_error gives))
    · exact .stop first
  · intro h
    cases h with
    | failed first => exact (lands_run patient).mpr (.inl ⟨_, _, first, lands_done.mpr rfl⟩)
    | stop first => exact (lands_run patient).mpr (.inr ⟨_, _, first, rfl⟩)
    | @next d v _ t _ σ₁ y first second =>
      refine (lands_run patient).mpr (.inl ⟨_, _, first, ?_⟩)
      refine (lands_act (composed_action _) (patient₁ d v t)).mpr ?_
      cases second with
      | stop built =>
        rcases built.of_bind (composed_action _) with ⟨g, σ₂, gives, builds⟩ | ⟨e, τ, gives, ⟨⟩⟩
        · refine .inl ⟨g, σ₂, gives, ?_⟩
          exact (lands_act (composed_build g) (patient₁ d v t g).2).mpr (.inr ⟨_, _, builds, rfl⟩)
        · exact .inr ⟨_, _, gives, rfl⟩
      | @next b _ _ σ₃ _ built second =>
        rcases built.of_bind (composed_action _) with ⟨g, σ₂, gives, builds⟩ | ⟨e, τ, gives, ⟨⟩⟩
        refine .inl ⟨g, σ₂, gives, ?_⟩
        refine (lands_act (composed_build g) (patient₁ d v t g).2).mpr (.inl ⟨b, σ₃, builds, ?_⟩)
        refine (lands_run ((patient₁ d v t g).2 b)).mpr ?_
        rcases y with ⟨r | q, τ⟩ | ⟨e, τ⟩
        · exact .inl ⟨r, τ, second, lands_done.mpr rfl⟩
        · exact absurd rfl (second.1 q τ)
        · exact .inr ⟨e, τ, second, rfl⟩

/-- A parser whose result is transformed by a function of the caller. -/
theorem mapArrives_iff_bind {h : Value → Action W Value} : MapArrives chunks p h s σ y ↔
    (p.process chunks).bind (fun v => .act (h v).run .pure) s σ y := by
  constructor
  · intro run
    cases run with
    | failed first => exact .failed first
    | stop first => exact .stop first
    | @mapped d v x t σ₁ τ first mapped =>
      have both : (p.process chunks).bind (fun v => .act (h v).run .pure) s σ _ :=
        .next first (.next mapped rfl)
      rwa [Finish.behind_ok, Bool.or_false] at both
    | mapStop first mapped =>
      have both : (p.process chunks).bind (fun v => .act (h v).run .pure) s σ _ :=
        .next first (.stop mapped)
      rwa [Finish.behind_stop] at both
  · intro run
    cases run with
    | failed first => exact .failed first
    | stop first => exact .stop first
    | next first rest =>
      cases rest with
      | stop mapped => exact .mapStop first mapped
      | next mapped value =>
        cases value
        rw [Finish.behind_ok, Bool.or_false]
        exact .mapped first mapped

end

end ResumableParsing
