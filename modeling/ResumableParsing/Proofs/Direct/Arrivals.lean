import ResumableParsing.Proofs.Direct.Comes

/-!
# What programs arrive at

If every request is answered with the chunk of its number, and the bounds are large enough, a
program arrives at a reply or breaks off, unless it goes on for ever. A program that starts a job
arrives where the job does, and goes on from there.

* `Direct.Patient`: larger bounds change no outcome that is there
* `Direct.EndsIn`: the big-step relation, with the depth to which jobs start one another
* `Direct.ArrivesIn`, `Job.Arrives`: what programs and jobs arrive at
* `Direct.ArrivesIn.of_act`, `Direct.ArrivesIn.of_call`: one step after another
* `ParserId.Performs.arrives`: a parser arrives where its body does
* `ParserId.arrives_iff`: runs whose requests are answered
-/

namespace ResumableParsing

variable {W α β : Type}

/-! ## Larger bounds -/

/-- The program uses the store by computations of the library, whose outcomes larger bounds do not
change. -/
def Direct.Patient : Direct W α → Prop
  | .done _ => True
  | .act x k => Composed x ∧ ∀ b, (k b).Patient
  | .call _ k => ∀ r, (k r).Patient
  | .ask _ k => ∀ c, (k c).Patient

namespace Direct.Patient

theorem bind {x : Direct W α} {f : α → Direct W β} (hx : x.Patient)
    (hf : ∀ a, (f a).Patient) : (x.bind f).Patient := by
  induction x with
  | done a => exact hf a
  | act x k ih => exact ⟨hx.1, fun b => ih b (hx.2 b)⟩
  | call j k ih => exact fun r => ih r (hx r)
  | ask n k ih => exact fun c => ih c (hx c)

theorem eval {x : Eval W α} (hx : Composed x) : (Direct.eval x).Patient :=
  ⟨hx, fun _ => trivial⟩

theorem reply (j : Job W) : (Direct.reply j).Patient := fun _ => trivial

theorem refuse (reason : Reason) (expected : List ParserId) (s : State Value) :
    (Direct.refuse reason expected s : Direct W (Reply Value)).Patient :=
  bind (eval .serial) fun _ => trivial

theorem ite {c : Prop} [Decidable c] {x y : Direct W α} (hx : x.Patient) (hy : y.Patient) :
    (if c then x else y).Patient := by
  split
  · exact hx
  · exact hy

theorem logged (p : ParserId) (s : State Value) :
    (p.directLogged s : Direct W (Reply Value)).Patient := by
  refine bind (eval (.debug _)) fun _ => bind (eval (composed_found p)) fun c => ?_
  cases c.logged with
  | some code => exact reply _
  | none => exact eval (.fault _)

theorem advance (m : Advance) (n : Int) : (m.direct n : Direct W (Reply Value)).Patient := by
  refine bind (eval (.deref _)) fun s => ite ?_ trivial
  refine bind (fun _ => trivial) fun c => bind (eval ?_) fun _ => trivial
  exact .bind (composed_alterState _ s) fun _ => composed_inChunk _ _

theorem past (s : State Value) (token : Value) :
    (s.directNext token : Direct W (Reply Value)).Patient := by
  cases s with
  | plain w i p u =>
    have moved : (do
        let t ← Direct.eval (State.plain w i p u).advance
        Direct.eval (Eval.debug fun _ => "trying " ++ Task.settleName)
        return .arrival t : Direct W (Reply Value)).Patient :=
      bind (eval (composed_advance _)) fun _ => bind (eval (.debug _)) fun _ => trivial
    cases w with
    | false => exact moved
    | true =>
      exact bind (eval (.modify fun σ => { Store.Adds.refl σ with })) fun _ => moved
  | chunked a c inner =>
    refine bind (eval (composed_alter a _)) fun _ => bind (eval (composed_memory a)) fun m => ?_
    refine ite (advance m c) ?_
    have again : ∀ _ : Unit, (do (← Direct.eval a.memory).direct c :
        Direct W (Reply Value)).Patient :=
      fun _ => bind (eval (composed_memory a)) fun m => advance m c
    have waits : (do
        let r ← Direct.reply (.past inner (m.token.getD .none))
        Direct.eval (a.remember c r.state)
        (← Direct.eval a.memory).direct c : Direct W (Reply Value)).Patient :=
      bind (reply _) fun r => bind (eval (composed_remember a c _)) again
    cases inner with
    | chunked b d inner => exact waits
    | plain w i p u =>
      cases w with
      | true => exact waits
      | false =>
        exact bind (eval (.bind (composed_advance _) fun _ => composed_remember a c _)) again

theorem body (b : Body W) (s : State Value) : (b.direct s).Patient := by
  cases b with
  | some self accepts =>
    refine bind (eval (composed_isEmpty _)) fun empty => ite (refuse _ _ _) ?_
    refine bind (eval (composed_first _)) fun token => bind (eval (composed_action _)) fun ok => ?_
    refine ite ?_ ?_
    · exact bind (reply _) fun r => bind (eval (.debug _)) fun _ => trivial
    · exact bind (eval (.debug _)) fun _ => bind (eval .get) fun _ => refuse _ _ _
  | pure v => trivial
  | fail m => exact refuse _ _ _
  | finished self =>
    refine bind (eval (composed_isEmpty _)) fun empty => ite trivial ?_
    exact bind (eval (composed_first _)) fun token => bind (eval .get) fun _ => refuse _ _ _
  | undeclared => exact eval (.fault _)
  | seq p q c =>
    refine bind (reply _) fun r => ?_
    cases r with
    | err d e t => trivial
    | ok d v t =>
      refine bind (reply _) fun r => ?_
      cases r with
      | err d' e u => trivial
      | ok d' w u => exact bind (eval (composed_join c v w)) fun _ => trivial
  | alt p q =>
    refine bind (reply _) fun r => ?_
    split
    · refine bind (reply _) fun r => ?_
      split
      · exact bind (eval .serial) fun _ => trivial
      · trivial
    · trivial
  | map p f =>
    refine bind (reply _) fun r => ?_
    cases r with
    | err d e t => trivial
    | ok d v t => exact bind (eval (composed_action _)) fun _ => trivial
  | bind p f =>
    refine bind (reply _) fun r => ?_
    cases r with
    | err d e t => trivial
    | ok d v t =>
      refine bind (eval (composed_action _)) fun g => bind (eval (composed_build g)) fun q => ?_
      exact bind (reply _) fun _ => trivial
  | ignore inner =>
    refine bind (reply _) fun r => ?_
    cases r <;> trivial
  | attempt p =>
    refine bind (reply _) fun r => ?_
    split <;> trivial
  | many self p =>
    refine bind (reply _) fun r => ?_
    split
    · trivial
    · trivial
    · exact bind (eval .get) fun _ => eval (.fault _)
    · refine bind (reply _) fun r => ?_
      split
      · exact bind (eval (composed_join _ _ _)) fun _ => trivial
      · trivial
  | cell v again => exact bind (eval (composed_lazyCell _ _)) fun _ => trivial
  | native run => exact eval (composed_action _)
  | after p run => exact bind (reply _) fun r => eval (composed_action _)

theorem job (j : Job W) : j.direct.Patient := by
  cases j with
  | parser p s =>
    refine bind (eval (composed_found p)) fun c => ?_
    cases c.direct with
    | some code => exact reply _
    | none => exact logged p s
  | code c s =>
    cases c with
    | body b => exact body b s
    | method p => exact logged p s
  | past s token => exact past s token

end Direct.Patient

/-- Larger bounds change no outcome that is there. -/
theorem Direct.Ends.later {x : Direct W (Reply Value)} (hx : x.Patient) {n n' : Nat}
    (hn : n ≤ n') {σ τ : Store W} {cs : Answers} {u : Upshot}
    (h : x.Ends (.within n) σ cs u τ) (hu : u ≠ .stop .exhausted) :
    x.Ends (.within n') σ cs u τ := by
  have kept {γ : Type} {y : Eval W γ} (hy : Composed y) {σ : Store W}
      {r : EStateM.Result Stop (Store W) γ} (e : y (.within n) σ = r) (hr : ¬Exhausted r) :
      y (.within n') σ = r := by
    rcases hy.patient (within_le hn) σ with h | h
    · exact absurd (e ▸ h) hr
    · exact h.trans e
  induction h with
  | done => exact .done
  | act e _ ih => exact .act (kept hx.1 e not_exhausted_ok) (ih (hx.2 _) hu)
  | actStop e =>
    refine .actStop (kept hx.1 e ?_)
    rintro ⟨τ, h⟩
    cases h
    exact hu rfl
  | call _ _ ih ih' => exact .call (ih (.job _) (by simp)) (ih' (hx _) hu)
  | callStop _ ih => exact .callStop (ih (.job _) hu)
  | callWaits _ ih => exact .callWaits (ih (.job _) hu)
  | ask _ ih => exact .ask (ih (hx _) hu)
  | askWaits => exact .askWaits

/-! ## Depth -/

/-- `x.EndsIn m d σ cs u τ`: the program `x` comes to `u` as `x.Ends m σ cs u τ` says, and jobs
start one another less than `d` deep. -/
inductive Direct.EndsIn (m : Means W) :
    Nat → Direct W (Reply Value) → Store W → Answers → Upshot → Store W → Prop where
  /-- The reply is there. -/
  | done {d : Nat} {r : Reply Value} {σ : Store W} : EndsIn m d (.done r) σ [] (.reply r) σ
  /-- The store is changed, and the program goes on. -/
  | act {d : Nat} {β : Type} {x : Eval W β} {k : β → Direct W (Reply Value)} {b : β}
      {σ σ₁ τ : Store W} {cs : Answers} {u : Upshot} :
      x m σ = .ok b σ₁ → EndsIn m d (k b) σ₁ cs u τ → EndsIn m d (.act x k) σ cs u τ
  /-- The change of the store breaks off. -/
  | actStop {d : Nat} {β : Type} {x : Eval W β} {k : β → Direct W (Reply Value)} {e : Stop}
      {σ τ : Store W} : x m σ = .error e τ → EndsIn m d (.act x k) σ [] (.stop e) τ
  /-- A job replies, and the program goes on. -/
  | call {d : Nat} {j : Job W} {k : Reply Value → Direct W (Reply Value)} {r : Reply Value}
      {σ σ₁ τ : Store W} {cs ds : Answers} {u : Upshot} :
      EndsIn m d j.direct σ cs (.reply r) σ₁ → EndsIn m (d + 1) (k r) σ₁ ds u τ →
      EndsIn m (d + 1) (.call j k) σ (cs ++ ds) u τ
  /-- A job breaks off, and the program with it. -/
  | callStop {d : Nat} {j : Job W} {k : Reply Value → Direct W (Reply Value)} {e : Stop}
      {σ τ : Store W} {cs : Answers} :
      EndsIn m d j.direct σ cs (.stop e) τ → EndsIn m (d + 1) (.call j k) σ cs (.stop e) τ
  /-- A job waits for a chunk, and the program with it. -/
  | callWaits {d : Nat} {j : Job W} {k : Reply Value → Direct W (Reply Value)} {n : Int}
      {σ τ : Store W} {cs : Answers} :
      EndsIn m d j.direct σ cs (.waits n) τ → EndsIn m (d + 1) (.call j k) σ cs (.waits n) τ
  /-- A request is answered. -/
  | ask {d : Nat} {n : Int} {c : Stream Value} {k : Stream Value → Direct W (Reply Value)}
      {σ τ : Store W} {cs : Answers} {u : Upshot} :
      EndsIn m d (k c) σ cs u τ → EndsIn m d (.ask n k) σ ((n, c) :: cs) u τ
  /-- A request has no answer yet. -/
  | askWaits {d : Nat} {n : Int} {k : Stream Value → Direct W (Reply Value)} {σ : Store W} :
      EndsIn m d (.ask n k) σ [] (.waits n) σ

section

variable {m : Means W} {d d' : Nat} {x : Direct W (Reply Value)} {σ τ : Store W} {cs : Answers}
  {u : Upshot}

theorem Direct.EndsIn.ends (h : x.EndsIn m d σ cs u τ) : x.Ends m σ cs u τ := by
  induction h with
  | done => exact .done
  | act e _ ih => exact .act e ih
  | actStop e => exact .actStop e
  | call _ _ ih ih' => exact .call ih ih'
  | callStop _ ih => exact .callStop ih
  | callWaits _ ih => exact .callWaits ih
  | ask _ ih => exact .ask ih
  | askWaits => exact .askWaits

theorem Direct.EndsIn.deeper (h : x.EndsIn m d σ cs u τ) (hd : d ≤ d') :
    x.EndsIn m d' σ cs u τ := by
  induction h generalizing d' with
  | done => exact .done
  | act e _ ih => exact .act e (ih hd)
  | actStop e => exact .actStop e
  | ask _ ih => exact .ask (ih hd)
  | askWaits => exact .askWaits
  | call _ _ ih ih' =>
    obtain ⟨k, rfl⟩ : ∃ k, d' = k + 1 := ⟨d' - 1, by omega⟩
    exact .call (ih (by omega)) (ih' hd)
  | callStop _ ih =>
    obtain ⟨k, rfl⟩ : ∃ k, d' = k + 1 := ⟨d' - 1, by omega⟩
    exact .callStop (ih (by omega))
  | callWaits _ ih =>
    obtain ⟨k, rfl⟩ : ∃ k, d' = k + 1 := ⟨d' - 1, by omega⟩
    exact .callWaits (ih (by omega))

theorem Direct.Ends.depth (h : x.Ends m σ cs u τ) : ∃ d, x.EndsIn m d σ cs u τ := by
  induction h with
  | done => exact ⟨0, .done⟩
  | act e _ ih => exact ih.imp fun _ h => .act e h
  | actStop e => exact ⟨0, .actStop e⟩
  | ask _ ih => exact ih.imp fun _ h => .ask h
  | askWaits => exact ⟨0, .askWaits⟩
  | call _ _ ih ih' =>
    obtain ⟨d, h⟩ := ih
    obtain ⟨d', h'⟩ := ih'
    exact ⟨max d d' + 1, .call (h.deeper (by omega)) (h'.deeper (by omega))⟩
  | callStop _ ih =>
    obtain ⟨d, h⟩ := ih
    exact ⟨d + 1, .callStop h⟩
  | callWaits _ ih =>
    obtain ⟨d, h⟩ := ih
    exact ⟨d + 1, .callWaits h⟩

end

/-! ## Arrivals -/

/-- The program is not kept waiting, and the bounds have not kept it from its end. -/
def Upshot.IsFinal : Upshot → Prop
  | .reply _ => True
  | .stop e => e ≠ .exhausted
  | .waits _ => False

/-- With requests answered by the chunks of their numbers, and within large enough bounds, the
program comes to `u`, and jobs start one another less than `d` deep. -/
def Direct.ArrivesIn (chunks : Int → Stream Value) (d : Nat) (x : Direct W (Reply Value))
    (σ : Store W) (u : Upshot) (τ : Store W) : Prop :=
  u.IsFinal ∧ ∃ n cs, x.EndsIn (.within n) d σ cs u τ ∧ ∀ a ∈ cs, a.2 = chunks a.1

/-- With requests answered by the chunks of their numbers, and within large enough bounds, the
program comes to `u`. -/
def Direct.Arrives (chunks : Int → Stream Value) (x : Direct W (Reply Value)) (σ : Store W)
    (u : Upshot) (τ : Store W) : Prop :=
  u.IsFinal ∧ ∃ n cs, x.Ends (.within n) σ cs u τ ∧ ∀ a ∈ cs, a.2 = chunks a.1

section

variable {chunks : Int → Stream Value} {d : Nat} {x : Direct W (Reply Value)}
  {σ σ₁ τ : Store W} {u : Upshot} {r : Reply Value} {e : Stop}

theorem Direct.Arrives.depth (h : x.Arrives chunks σ u τ) : ∃ d, x.ArrivesIn chunks d σ u τ := by
  obtain ⟨hu, n, cs, h, hcs⟩ := h
  obtain ⟨d, h⟩ := h.depth
  exact ⟨d, hu, n, cs, h, hcs⟩

theorem Direct.ArrivesIn.arrives (h : x.ArrivesIn chunks d σ u τ) : x.Arrives chunks σ u τ := by
  obtain ⟨hu, n, cs, h, hcs⟩ := h
  exact ⟨hu, n, cs, h.ends, hcs⟩

theorem Upshot.IsFinal.ne (hu : u.IsFinal) : u ≠ .stop .exhausted := by
  rintro rfl
  exact hu rfl

namespace Direct.ArrivesIn

theorem of_done (h : (Direct.done r).ArrivesIn chunks d σ u τ) : u = .reply r ∧ τ = σ := by
  obtain ⟨-, n, cs, h, -⟩ := h
  cases h
  exact ⟨rfl, rfl⟩

theorem of_act {y : Eval W β} {k : β → Direct W (Reply Value)} (hy : Composed y)
    (h : (Direct.act y k).ArrivesIn chunks d σ u τ) :
    (∃ b σ₁, y.Comes σ (.ok b σ₁) ∧ (k b).ArrivesIn chunks d σ₁ u τ) ∨
      ∃ e, u = .stop e ∧ y.Comes σ (.error e τ) := by
  obtain ⟨hu, n, cs, h, hcs⟩ := h
  cases h with
  | act e h => exact .inl ⟨_, _, hy.comes e not_exhausted_ok, hu, n, cs, h, hcs⟩
  | actStop e =>
    refine .inr ⟨_, rfl, hy.comes e ?_⟩
    rintro ⟨τ, h⟩
    cases h
    exact hu rfl

theorem of_call {j : Job W} {k : Reply Value → Direct W (Reply Value)}
    (h : (Direct.call j k).ArrivesIn chunks d σ u τ) : ∃ d' < d,
    (∃ r σ₁, j.direct.ArrivesIn chunks d' σ (.reply r) σ₁ ∧ (k r).ArrivesIn chunks d σ₁ u τ) ∨
      ∃ e, u = .stop e ∧ j.direct.ArrivesIn chunks d' σ u τ := by
  obtain ⟨hu, n, cs, h, hcs⟩ := h
  cases h with
  | @call d _ _ r _ σ₁ _ cs ds _ h h' =>
    refine ⟨d, d.lt_succ_self, .inl ⟨r, σ₁, ⟨trivial, n, cs, h, ?_⟩, hu, n, ds, h', ?_⟩⟩
    · exact fun a ha => hcs a (List.mem_append_left ds ha)
    · exact fun a ha => hcs a (List.mem_append_right cs ha)
  | @callStop d _ _ e _ _ _ h => exact ⟨d, d.lt_succ_self, .inr ⟨e, rfl, hu, n, cs, h, hcs⟩⟩
  | callWaits => exact hu.elim

end Direct.ArrivesIn

namespace Direct.Arrives

theorem done (r : Reply Value) (σ : Store W) :
    (Direct.done r : Direct W _).Arrives chunks σ (.reply r) σ :=
  ⟨trivial, 0, [], .done, by simp⟩

theorem act {y : Eval W β} {k : β → Direct W (Reply Value)} {b : β} (hk : (k b).Patient)
    (hy : y.Comes σ (.ok b σ₁)) (h : (k b).Arrives chunks σ₁ u τ) :
    (Direct.act y k).Arrives chunks σ u τ := by
  obtain ⟨-, n, hy⟩ := hy
  obtain ⟨hu, n', cs, h, hcs⟩ := h
  refine ⟨hu, max n n', cs, .act (hy _ (by omega)) (h.later hk (by omega) hu.ne), hcs⟩

theorem actStop {y : Eval W β} {k : β → Direct W (Reply Value)} (hy : y.Comes σ (.error e τ)) :
    (Direct.act y k).Arrives chunks σ (.stop e) τ := by
  obtain ⟨he, n, hy⟩ := hy
  refine ⟨fun h => he ⟨τ, by rw [h]⟩, n, [], .actStop (hy n (Nat.le_refl n)), by simp⟩

theorem call {j : Job W} {k : Reply Value → Direct W (Reply Value)} (hk : (k r).Patient)
    (hj : j.direct.Arrives chunks σ (.reply r) σ₁) (h : (k r).Arrives chunks σ₁ u τ) :
    (Direct.call j k).Arrives chunks σ u τ := by
  obtain ⟨hr, n, cs, hj, hcs⟩ := hj
  obtain ⟨hu, n', ds, h, hds⟩ := h
  refine ⟨hu, max n n', cs ++ ds,
    .call (hj.later (.job j) (by omega) hr.ne) (h.later hk (by omega) hu.ne), fun a ha => ?_⟩
  rcases List.mem_append.mp ha with ha | ha
  · exact hcs a ha
  · exact hds a ha

theorem callStop {j : Job W} {k : Reply Value → Direct W (Reply Value)}
    (hj : j.direct.Arrives chunks σ (.stop e) τ) :
    (Direct.call j k).Arrives chunks σ (.stop e) τ := by
  obtain ⟨he, n, cs, hj, hcs⟩ := hj
  exact ⟨he, n, cs, .callStop hj, hcs⟩

end Direct.Arrives

end

/-! ## Parsers -/

/-- The store after the attempt to run a parser has been logged, if its logging method does that. -/
def ParserId.tried (p : ParserId) (σ : Store W) : Store W :=
  match σ.parsers[p.index]? with
  | some c => if c.direct.isSome then σ else σ.noted ("trying " ++ σ.parserName p)
  | none => σ

section

variable {chunks : Int → Stream Value} {d : Nat} {σ τ : Store W} {u : Upshot} {p : ParserId}
  {s : State Value} {b : Body W} {j : Job W}

theorem ParserId.tried_direct {c : Cell W} {code : Code W} (hc : σ.parsers[p.index]? = some c)
    (h : c.direct = some code) : p.tried σ = σ := by
  simp [tried, hc, h]

theorem ParserId.tried_logged {c : Cell W} (hc : σ.parsers[p.index]? = some c)
    (h : c.direct = none) : p.tried σ = σ.noted ("trying " ++ σ.parserName p) := by
  simp [tried, hc, h]

theorem ParserId.noted_tried (p : ParserId) (σ : Store W) : σ.Noted (p.tried σ) := by
  rw [tried]
  split
  · split
    · exact .refl σ
    · exact .noted _ σ
  · exact .refl σ

/-- A job whose reply is the reply of the program. -/
theorem Direct.ArrivesIn.of_reply (h : (Direct.reply j).ArrivesIn chunks d σ u τ) :
    ∃ d' < d, j.direct.ArrivesIn chunks d' σ u τ := by
  obtain ⟨d', hd, ⟨r, σ₁, h, h'⟩ | ⟨e, -, h⟩⟩ := h.of_call
  · obtain ⟨rfl, rfl⟩ := h'.of_done
    exact ⟨d', hd, h⟩
  · exact ⟨d', hd, h⟩

theorem Direct.Arrives.reply (h : j.direct.Arrives chunks σ u τ) :
    (Direct.reply j).Arrives chunks σ u τ := by
  cases u with
  | reply r => exact .call trivial h (.done r τ)
  | stop e => exact .callStop h
  | waits n => exact h.1.elim

/-- What comes after a step that is known. -/
theorem Direct.ArrivesIn.after {y : Eval W β} {k : β → Direct W (Reply Value)} {a : β}
    {σ₁ : Store W} (hy : Composed y) (e : y.Comes σ (.ok a σ₁))
    (h : (Direct.act y k).ArrivesIn chunks d σ u τ) : (k a).ArrivesIn chunks d σ₁ u τ := by
  rcases h.of_act hy with ⟨a', σ', e', h⟩ | ⟨_, -, e'⟩
  · cases e.unique e'
    exact h
  · cases e.unique e'

theorem comes_noted (message : Store W → String) (σ : Store W) :
    (Eval.debug message).Comes σ (.ok () (σ.noted (message σ))) :=
  comes_of_forall (fun n => Eval.run_debug message (.within n) σ) not_exhausted_ok

/-- A parser arrives where its body does. -/
theorem ParserId.Performs.of_arrivesIn (hp : p.Performs σ b)
    (h : (Job.parser p s).direct.ArrivesIn chunks d σ u τ) :
    ∃ d' < d, (b.direct s).ArrivesIn chunks d' (p.tried σ) u τ := by
  obtain ⟨c, hc, hb⟩ := hp
  have rest := h.after (composed_found p) (comes_found hc)
  rw [Direct.done_bind] at rest
  rcases hb with ⟨direct, -⟩ | ⟨direct, logged⟩
  · rw [direct] at rest
    rw [tried_direct hc direct]
    exact rest.of_reply
  · rw [direct] at rest
    rw [tried_logged hc direct]
    have noted := Store.Noted.noted ("trying " ++ σ.parserName p) σ
    have rest := rest.after (.debug _) (comes_noted _ σ)
    have rest := Direct.ArrivesIn.after (composed_found p) (comes_found (noted.parsers ▸ hc)) rest
    rw [Direct.done_bind, logged] at rest
    exact rest.of_reply

theorem ParserId.Performs.arrives (hp : p.Performs σ b)
    (h : (b.direct s).Arrives chunks (p.tried σ) u τ) :
    (Job.parser p s).direct.Arrives chunks σ u τ := by
  obtain ⟨c, hc, hb⟩ := hp
  refine .act ((Direct.Patient.job (.parser p s)).2 c) (comes_found hc) ?_
  rcases hb with ⟨direct, -⟩ | ⟨direct, logged⟩
  · rw [tried_direct hc direct] at h
    rw [Direct.done_bind, direct]
    exact .reply h
  · rw [tried_logged hc direct] at h
    rw [Direct.done_bind, direct]
    have noted := Store.Noted.noted ("trying " ++ σ.parserName p) σ
    have patient := (Direct.Patient.logged (W := W) p s).2 ()
    refine .act patient (comes_noted _ σ) (.act (patient.2 _) (comes_found (noted.parsers ▸ hc)) ?_)
    rw [Direct.done_bind, logged]
    exact .reply h

end

/-! ## Runs with answered requests -/

/-- With requests answered by the chunks of their numbers, the run of the parser comes to `y`, and
is not kept waiting. -/
def ParserId.Arrives (chunks : Int → Stream Value) (p : ParserId) (s : State Value) (σ : Store W)
    (y : EStateM.Result Stop (Store W) (Finish W)) : Prop :=
  (∀ q τ, y ≠ .ok (.request q) τ) ∧ ∃ k, (p.runWith chunks k s).Comes σ y

/-- The rest of a parse. -/
def Step.onward : Step (Task W) (Finish W) → Eval W (Finish W)
  | .tail t => t.complete
  | .value f => return f

section

variable {chunks : Int → Stream Value} {σ τ : Store W} {u : Upshot} {p : ParserId}
  {s : State Value} {y : EStateM.Result Stop (Store W) (Finish W)}

theorem comes_onward {t : Task W} (h : (t.step >>= Step.onward).Comes σ y) :
    t.complete.Comes σ y := by
  rcases h.of_bind (composed_step t) with ⟨x, σ₁, hx, h⟩ | ⟨e, σ₁, he, rfl⟩
  · cases x with
    | tail t' =>
      obtain ⟨n, h⟩ := comes_complete.mp h
      exact comes_complete.mpr ⟨n + 1, .tail hx h⟩
    | value f =>
      cases h.unique (comes_pure f σ₁)
      exact comes_complete.mpr ⟨0, .value hx⟩
  · exact comes_complete.mpr ⟨0, .error he⟩

/-- What follows a step, with requests answered. -/
theorem Passes.answered {n N : Nat} {x : Eval W (Step (Task W) (Finish W))} {cs : Answers}
    (h : Passes (.within n) [] N x σ cs u τ) (hx : Composed x) (hu : u.IsFinal)
    (hcs : ∀ a ∈ cs, a.2 = chunks a.1) :
    ∃ k y, ((x >>= Step.onward) >>= Finish.answer chunks k).Comes σ y ∧
      (∀ q τ, y ≠ .ok (.request q) τ) ∧ Upshot.of y = u ∧ left y = τ := by
  induction h with
  | @hands _ r σ σ' e =>
    have delivers : (Task.deliver r [] : Task W).complete.Comes σ' (.ok (.reply r) σ') :=
      comes_complete.mpr ⟨0, .value (comes_pure _ σ')⟩
    have first := comes_bind_ok (f := Step.onward) (hx.comes e not_exhausted_ok) delivers
    exact ⟨0, _, comes_bind_ok first (comes_pure _ σ'), by rintro q τ ⟨⟩, rfl, rfl⟩
  | @stop _ e σ τ he =>
    have broken := hx.comes he (not_exhausted_error fun same => hu (same ▸ rfl))
    have first := comes_bind_error (f := Step.onward) broken
    exact ⟨0, _, comes_bind_error first, by rintro q τ ⟨⟩, rfl, rfl⟩
  | @tail _ t N σ σ₁ τ cs u e above _ ih =>
    obtain ⟨k, y, hy, rest⟩ := ih (composed_step t) hu hcs
    refine ⟨k, y, ?_, rest⟩
    refine hy.bind_congr (.bind (composed_step t) fun x => ?_) fun z hz => ?_
    · cases x with
      | tail t => exact composed_complete t
      | value f => exact .pure f
    · exact comes_bind_ok (hx.comes e not_exhausted_ok) (comes_onward hz)
  | waits => exact hu.elim
  | @answer _ q c N σ σ₁ τ cs u e _ ih =>
    obtain ⟨k, y, hy, rest⟩ := ih (.bind (composed_arrive q c) fun _ => .pure _) hu
      fun a ha => hcs a (List.mem_cons_of_mem _ ha)
    have hc : c = chunks q.chunk := hcs (q.chunk, c) List.mem_cons_self
    refine ⟨k + 1, y, ?_, rest⟩
    have first := comes_bind_ok (f := Step.onward) (hx.comes e not_exhausted_ok) (comes_pure _ σ₁)
    refine comes_bind_ok first ?_
    change (q.resume (chunks q.chunk) >>= Finish.answer chunks k).Comes σ₁ y
    -- To resume is to arrive in the chunk, and to go on from there.
    have resumed : (Task.next (q.arrive c) >>= Step.onward) = q.resume c := by
      rw [resume_eq_arrive, Task.next, bind_assoc]
      rfl
    rwa [← hc, ← resumed]

/-- Where no chunk is missing, an outcome is known by its upshot and the store. -/
theorem Upshot.of_injective {y z : EStateM.Result Stop (Store W) (Finish W)}
    (hy : ∀ q τ, y ≠ .ok (.request q) τ) (hz : ∀ q τ, z ≠ .ok (.request q) τ)
    (same : Upshot.of y = Upshot.of z) (stores : left y = left z) : y = z := by
  rcases y with ⟨r | q, σ⟩ | ⟨e, σ⟩
  · rcases z with ⟨r' | q', τ⟩ | ⟨e', τ⟩
    · cases same
      cases stores
      rfl
    · exact absurd rfl (hz q' τ)
    · cases same
  · exact absurd rfl (hy q σ)
  · rcases z with ⟨r' | q', τ⟩ | ⟨e', τ⟩
    · cases same
    · cases same
    · cases same
      cases stores
      rfl

/-- The run of a parser, with its requests answered, comes to what its program arrives at. -/
theorem ParserId.arrives_iff (hy : ∀ q τ, y ≠ .ok (.request q) τ) :
    p.Arrives chunks s σ y ↔ (Job.parser p s).direct.Arrives chunks σ (.of y) (left y) := by
  constructor
  · rintro ⟨-, k, he, n, h⟩
    obtain ⟨cs, ends, hcs⟩ := evaluates_of_runWith (h n (Nat.le_refl n)) he
    refine ⟨?_, n, cs, ends, hcs⟩
    cases y with
    | error e τ =>
      rintro rfl
      exact he ⟨τ, rfl⟩
    | ok f τ =>
      cases f with
      | reply r => trivial
      | request q => exact absurd rfl (hy q τ)
  · rintro ⟨hu, n, cs, h, hcs⟩
    obtain ⟨N, passes⟩ := (evaluates_iff_passes (k := [])).mp h
    obtain ⟨k, z, hz, hz', hof, hleft⟩ := passes.answered (composed_step _) hu hcs
    obtain rfl := Upshot.of_injective hz' hy hof hleft
    refine ⟨hy, k, hz.bind_congr (.bind (composed_step _) fun x => ?_) fun w hw => comes_onward hw⟩
    cases x with
    | tail t => exact composed_complete t
    | value f => exact .pure f

end

end ResumableParsing
