import ResumableParsing.Proofs.Direct.Program

/-!
# Specifications of programs in direct style

What jobs do is specified by what holds before them, what holds of their replies, and what holds
where they wait. If the program of each job meets the specification of the job, given the
specifications of the jobs that it starts, then whatever a job comes to is as specified.

* `Spec`: a specification of all jobs
* `Spec.Meets`: a program meets a postcondition, given the specification of the jobs it starts
* `Spec.Sound`: the program of every job does
* `Spec.Sound.ends`: whatever a program comes to is as the postcondition says
-/

namespace ResumableParsing

variable {W ι : Type}

/-- A specification of all jobs. An index stands for what is known before the job. -/
structure Spec (W ι : Type) where
  /-- What holds before the job. -/
  Pre : ι → Job W → Store W → Prop
  /-- What holds of the reply, and of the store with it. -/
  Post : ι → Job W → Store W → Reply Value → Store W → Prop
  /-- What holds of the store where the job waits for a chunk. -/
  Wait : ι → Job W → Store W → Store W → Prop

variable (S : Spec W ι) (m : Means W) (chunks : Int → Stream Value)

/-- The program meets the postconditions, `Q` for replies and `R` where it waits, if jobs are as
specified and chunks are answered by their numbers. -/
inductive Spec.Meets (Q : Reply Value → Store W → Prop) (R : Store W → Prop) :
    Direct W (Reply Value) → Store W → Prop where
  /-- The reply is there. -/
  | done {r : Reply Value} {σ : Store W} : Q r σ → Meets Q R (.done r) σ
  /-- The store is changed. -/
  | act {β : Type} {x : Eval W β} {k : β → Direct W (Reply Value)} {σ : Store W} :
      (∀ b σ', x m σ = .ok b σ' → Meets Q R (k b) σ') → Meets Q R (.act x k) σ
  /-- A job is started. -/
  | call {j : Job W} {k : Reply Value → Direct W (Reply Value)} {σ : Store W} (i : ι) :
      S.Pre i j σ → (∀ r σ', S.Post i j σ r σ' → Meets Q R (k r) σ') →
      (∀ σ', S.Wait i j σ σ' → R σ') → Meets Q R (.call j k) σ
  /-- A chunk is asked for. -/
  | ask {n : Int} {k : Stream Value → Direct W (Reply Value)} {σ : Store W} :
      R σ → Meets Q R (k (chunks n)) σ → Meets Q R (.ask n k) σ

/-- The program of every job is as specified. -/
def Spec.Sound : Prop :=
  ∀ i j σ, S.Pre i j σ → S.Meets m chunks (S.Post i j σ) (S.Wait i j σ) j.direct σ

/-- The postconditions hold of what a program comes to. -/
def Upshot.Satisfies (Q : Reply Value → Store W → Prop) (R : Store W → Prop) (σ : Store W) :
    Upshot → Prop
  | .reply r => Q r σ
  | .stop _ => True
  | .waits _ => R σ

variable {S m chunks}

/-- A program that meets a postcondition meets weaker ones. -/
theorem Spec.Meets.imp {Q Q' : Reply Value → Store W → Prop} {R : Store W → Prop}
    {x : Direct W (Reply Value)} {σ : Store W} (h : S.Meets m chunks Q R x σ)
    (hQ : ∀ r τ, Q r τ → Q' r τ) : S.Meets m chunks Q' R x σ := by
  induction h with
  | done h => exact .done (hQ _ _ h)
  | act _ ih => exact .act ih
  | call i pre _ wait ih => exact .call i pre ih wait
  | ask h _ ih => exact .ask h ih

/-- Whatever a program comes to is as the postconditions say. -/
theorem Spec.Sound.ends (hS : S.Sound m chunks) {x : Direct W (Reply Value)} {σ σ' : Store W}
    {cs : Answers} {u : Upshot} (h : x.Ends m σ cs u σ') (hcs : ∀ a ∈ cs, a.2 = chunks a.1)
    {Q : Reply Value → Store W → Prop} {R : Store W → Prop} (hx : S.Meets m chunks Q R x σ) :
    u.Satisfies Q R σ' := by
  induction h generalizing Q R with
  | done =>
    cases hx with
    | done h => exact h
  | act e h ih =>
    cases hx with
    | act hx => exact ih hcs (hx _ _ e)
  | actStop e => trivial
  | @call j k r σ σ₁ σ' cs ds u h h' ih ih' =>
    cases hx with
    | call i pre post wait =>
      have hr := ih (fun a ha => hcs a (List.mem_append_left ds ha)) (hS i j σ pre)
      exact ih' (fun a ha => hcs a (List.mem_append_right cs ha)) (post r σ₁ hr)
  | callStop h ih => trivial
  | @callWaits j k n σ σ' cs h ih =>
    cases hx with
    | call i pre post wait => exact wait σ' (ih hcs (hS i j σ pre))
  | @ask n c k σ σ' cs u h ih =>
    cases hx with
    | ask _ hx =>
      have hc : c = chunks n := hcs (n, c) List.mem_cons_self
      subst hc
      exact ih (fun a ha => hcs a (List.mem_cons_of_mem _ ha)) hx
  | askWaits =>
    cases hx with
    | ask h _ => exact h

/-- What a job comes to is as specified. -/
theorem Spec.Sound.evaluates (hS : S.Sound m chunks) {j : Job W} {σ σ' : Store W} {cs : Answers}
    {u : Upshot} (h : Evaluates m j σ cs u σ') (hcs : ∀ a ∈ cs, a.2 = chunks a.1) (i : ι)
    (pre : S.Pre i j σ) : u.Satisfies (S.Post i j σ) (S.Wait i j σ) σ' :=
  hS.ends h hcs (hS i j σ pre)

end ResumableParsing
