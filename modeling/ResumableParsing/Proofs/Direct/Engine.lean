import ResumableParsing.Proofs.Direct.Frames

/-!
# The engine and the semantics in direct style

The engine passes continuations and takes one step after the other. Each job takes the steps of its
program in direct style: a step that starts another job leaves exactly one frame, which does with
the reply what the program does with it.

* `Implements`: a step begins what a program does
* `implements_job`: the first step of every job begins its program
* `Passes`: runs up to the moment when a continuation gets its reply, with their number of steps
* `Direct.Ends.passes`, `evaluates_of_passes`: what a program comes to, the steps come to, and back
* `run_agrees_with_direct`: the engine runs parsers as the semantics says
-/

namespace ResumableParsing

variable {W : Type}

/-! ## Jobs as tasks -/

/-- The task that starts a job. -/
def Job.start : Job W → Continuation W → Eval W (Task W)
  | .parser p s, k => return .run p s k
  | .code c s, k => return .code c s k
  | .past s token, k => s.next token k

/-- The task that goes on with a request, given its chunk. -/
def Request.arrive (q : Request W) (c : Stream Value) : Eval W (Task W) := do
  return .arrive (← State.inChunk q.chunk (← q.state.setInput c)) q.continuation

/-- A request that is gone on with in a new chunk arrives there. -/
theorem resume_eq_arrive (q : Request W) (c : Stream Value) :
    q.resume c = q.arrive c >>= Task.complete := by
  simp [Request.resume, Request.arrive]

theorem start_over (j : Job W) (k K : Continuation W) :
    j.start (k ++ K) = Task.over K <$> j.start k := by
  cases j with
  | parser p s => simp [Job.start, Task.over]
  | code c s => simp [Job.start, Task.over]
  | past s token => exact next_over s token k K

theorem arrive_over (q : Request W) (c : Stream Value) (K : Continuation W) :
    (q.over K).arrive c = Task.over K <$> q.arrive c := by
  simp [Request.arrive, Request.over, Task.over, Task.arrive]

/-- A step that leaves a task. -/
def Task.next (x : Eval W (Task W)) : Eval W (Step (Task W) (Finish W)) := do return .tail (← x)

@[simp] theorem next_bind {β : Type} (x : Eval W β) (f : β → Eval W (Task W)) :
    Task.next (x >>= f) = x >>= fun b => Task.next (f b) := by
  simp [Task.next]

@[simp] theorem next_fault (e : Fault) :
    Task.next (Eval.fault e : Eval W (Task W)) = Eval.fault e :=
  rfl

/-- `Implements x mv`: the step `mv`, with no frames behind it, begins what the program `x` does. -/
inductive Implements : Direct W (Reply Value) → Eval W (Step (Task W) (Finish W)) → Prop where
  /-- The reply is handed over. -/
  | done (r : Reply Value) : Implements (.done r) (Task.next (return .deliver r []))
  /-- A change of the store. -/
  | act {β : Type} {x : Eval W β} {k : β → Direct W (Reply Value)}
      {mv : β → Eval W (Step (Task W) (Finish W))} :
      (∀ b, Implements (k b) (mv b)) → Implements (.act x k) (x >>= mv)
  /-- A job is started, and a frame waits for its reply. -/
  | call {j : Job W} {k : Reply Value → Direct W (Reply Value)} (f : Frame W) :
      (∀ r, Implements (k r) (f.resume r [])) → Implements (.call j k) (Task.next (j.start [f]))
  /-- A job is started whose reply is the reply. -/
  | tail {j : Job W} : Implements (.call j .done) (Task.next (j.start []))
  /-- A chunk is asked for. -/
  | ask {n : Int} {s : State Value} {k : Stream Value → Direct W (Reply Value)} :
      (∀ c, Implements (k c) (Task.next (Request.arrive ⟨n, s, []⟩ c))) →
      Implements (.ask n k) (return .value (.request ⟨n, s, []⟩))

theorem implements_refuse (reason : Reason) (expected : List ParserId) (s : State Value) :
    Implements (Direct.refuse reason expected s : Direct W _)
      (Task.next (Task.refuse reason expected s [])) := by
  rw [Task.refuse, next_bind]
  exact .act fun n => .done _

theorem implements_fault (e : Fault) :
    Implements (Direct.eval (Eval.fault e) : Direct W _) (Eval.fault e) :=
  .act fun r => .done r

theorem implements_onward (m : Advance) (n : Int) :
    Implements (m.direct n : Direct W _) (m.go n []) := by
  refine .act fun s => ?_
  cases m.exhausted with
  | true =>
    refine .ask fun c => ?_
    simp only [Request.arrive, next_bind]
    rw [← bind_assoc]
    exact .act fun t => .done _
  | false => exact .done _

theorem implements_enter (b : Body W) (s : State Value) :
    Implements (b.direct s) (Task.next (b.enter s [])) := by
  cases b with
  | some self accepts =>
    simp only [Body.enter, next_bind]
    refine .act fun empty => ?_
    cases empty with
    | true => exact implements_refuse ..
    | false =>
      simp only [Bool.false_eq_true, if_false, next_bind]
      refine .act fun token => .act fun ok => ?_
      cases ok with
      | true =>
        refine .call (.matched token) fun r => ?_
        exact .act fun _ => .done _
      | false =>
        simp only [Bool.false_eq_true, if_false, next_bind]
        exact .act fun _ => .act fun σ => implements_refuse ..
  | pure v => exact .done _
  | fail m => exact implements_refuse ..
  | finished self =>
    simp only [Body.enter, next_bind]
    refine .act fun empty => ?_
    cases empty with
    | true => exact .done _
    | false =>
      simp only [Bool.false_eq_true, if_false, next_bind]
      exact .act fun token => .act fun σ => implements_refuse ..
  | undeclared => exact implements_fault _
  | seq p q c =>
    refine .call (.seqFirst q c) fun r => ?_
    cases r with
    | err d e t => exact .done _
    | ok d v t =>
      refine .call (.seqSecond d v c) fun r => ?_
      cases r with
      | err d' e u => exact .done _
      | ok d' w u => exact .act fun x => .done _
  | alt p q =>
    refine .call (.altFirst q s) fun r => ?_
    rcases r with ⟨d, v, t⟩ | ⟨_ | _, e, t⟩
    · exact .done _
    · refine .call (.altSecond e) fun r => ?_
      rcases r with ⟨d, v, t⟩ | ⟨_ | _, e', t⟩
      · exact .done _
      · exact .act fun _ => .done _
      · exact .done _
    · exact .done _
  | map p f =>
    refine .call (.map f) fun r => ?_
    cases r with
    | ok d v t => exact .act fun _ => .done _
    | err d e t => exact .done _
  | bind p f =>
    refine .call (.bind f) fun r => ?_
    cases r with
    | err d e t => exact .done _
    | ok d v t =>
      refine .act fun g => .act fun q => ?_
      cases d with
      -- After consuming, the parser runs below a frame that marks its reply.
      | true => exact .call .consume fun r => .done _
      | false => exact .tail
  | ignore inner =>
    refine .call .ignore fun r => ?_
    cases r <;> exact .done _
  | attempt p =>
    refine .call (.attempt s) fun r => ?_
    rcases r with ⟨d, v, t⟩ | ⟨_ | _, e, t⟩ <;> exact .done _
  | many self p =>
    refine .call (.manyItem self p s) fun r => ?_
    rcases r with ⟨_ | _, v, t⟩ | ⟨_ | _, e, t⟩
    · exact .act fun σ => implements_fault _
    · refine .call (.manyRest v) fun r => ?_
      cases r with
      | ok d w u => exact .act fun _ => .done _
      | err d e u => exact .done _
    · exact .done _
    · exact .done _
  | cell v again => exact .act fun _ => .done _
  | native run =>
    simp only [Body.enter, next_bind]
    exact .act fun _ => .done _
  | after p run =>
    refine .call (.after s run) fun r => ?_
    exact .act fun _ => .done _

theorem implements_logged (p : ParserId) (s : State Value) :
    Implements (p.directLogged s : Direct W _) (Task.next (Task.startLogged p s [])) := by
  simp only [Task.startLogged, next_bind]
  refine .act fun _ => ?_
  rw [← bind_assoc]
  refine .act fun c => ?_
  rw [Direct.done_bind]
  cases c.logged with
  | some c => exact .tail
  | none => exact implements_fault _

theorem implements_next (s : State Value) (token : Value) :
    Implements (s.directNext token : Direct W _) (s.next token [] >>= Task.step) := by
  cases s with
  | plain watched i p u =>
    cases watched with
    | true =>
      simp only [State.next, if_true, bind_assoc, pure_bind]
      exact .act fun _ => .act fun _ => .act fun _ => .done _
    | false =>
      simp only [State.next, Bool.false_eq_true, if_false, bind_assoc, pure_bind]
      exact .act fun _ => .act fun _ => .done _
  | chunked a c inner =>
    -- A state that is no plain one is moved by a task of its own, below the frame.
    have crossed (j : State Value) (token : Value) :
        Implements (do
            let r ← Direct.reply (.past j token)
            Direct.eval (a.remember c r.state)
            (← Direct.eval a.memory).direct c : Direct W _)
          (Task.next (j.next token [.crossed a c])) :=
      .call (.crossed a c) fun r => .act fun _ => .act fun m => implements_onward m c
    rw [State.next, bind_assoc]
    simp only [pure_bind, Task.step, AdvanceId.cross]
    refine .act fun _ => .act fun m => ?_
    simp only [Direct.done_bind]
    cases m.next.isSome with
    | true =>
      simp only [if_true]
      exact implements_onward m c
    | false =>
      simp only [Bool.false_eq_true, if_false]
      rcases inner with ⟨_ | _, i, p, u⟩ | ⟨_, _, _⟩
      · rw [← bind_assoc]
        exact .act fun _ => .act fun m => implements_onward m c
      · exact crossed ..
      · exact crossed ..

theorem implements_job (j : Job W) : Implements j.direct (j.start [] >>= Task.step) := by
  cases j with
  | parser p s =>
    simp only [Job.start, pure_bind, Task.step]
    rw [← bind_assoc]
    refine .act fun c => ?_
    rw [Direct.done_bind]
    cases c.direct with
    | some c => exact .tail
    | none => exact implements_logged p s
  | code c s =>
    cases c with
    | body b => exact implements_enter b s
    | method p => exact implements_logged p s
  | past s token => exact implements_next s token

/-! ## Runs up to a hand-over -/

/-- `Passes m k n x σ cs u σ'`: after the step `x` and `n` further steps, with its requests for
chunks answered by `cs`, a parse comes to `u`. A reply is the one that `k` gets; before that the
parse stays above `k`. -/
inductive Passes (m : Means W) (k : Continuation W) :
    Nat → Eval W (Step (Task W) (Finish W)) → Store W → Answers → Upshot → Store W → Prop where
  /-- The reply is handed to the continuation. -/
  | hands {x : Eval W (Step (Task W) (Finish W))} {r : Reply Value} {σ σ' : Store W} :
      x m σ = .ok (.tail (.deliver r k)) σ' → Passes m k 0 x σ [] (.reply r) σ'
  /-- The step breaks off. -/
  | stop {x : Eval W (Step (Task W) (Finish W))} {e : Stop} {σ σ' : Store W} :
      x m σ = .error e σ' → Passes m k 0 x σ [] (.stop e) σ'
  /-- There is another step. -/
  | tail {x : Eval W (Step (Task W) (Finish W))} {t : Task W} {n : Nat} {σ σ₁ σ' : Store W}
      {cs : Answers} {u : Upshot} :
      x m σ = .ok (.tail t) σ₁ → t.Above k → Passes m k n t.step σ₁ cs u σ' →
      Passes m k (n + 1) x σ cs u σ'
  /-- A request has no answer yet. -/
  | waits {x : Eval W (Step (Task W) (Finish W))} {q : Request W} {σ σ' : Store W} :
      x m σ = .ok (.value (.request q)) σ' → Passes m k 0 x σ [] (.waits q.chunk) σ'
  /-- A request is answered. -/
  | answer {x : Eval W (Step (Task W) (Finish W))} {q : Request W} {c : Stream Value} {n : Nat}
      {σ σ₁ σ' : Store W} {cs : Answers} {u : Upshot} :
      x m σ = .ok (.value (.request q)) σ₁ →
      Passes m k n (Task.next (q.arrive c)) σ₁ cs u σ' →
      Passes m k (n + 1) x σ ((q.chunk, c) :: cs) u σ'

section

variable {m : Means W} {σ σ₁ σ₂ σ' : Store W} {cs ds : Answers} {u : Upshot} {n n' : Nat}

theorem run_next (x : Eval W (Task W)) :
    Task.next x m σ = match x m σ with
      | .ok t σ' => .ok (.tail t) σ'
      | .error e σ' => .error e σ' := by
  rw [Task.next, Eval.run_bind]
  cases x m σ <;> rfl

theorem next_over_map (x : Eval W (Task W)) (K : Continuation W) :
    Task.next (Task.over K <$> x) = Task.overStep K <$> Task.next x := by
  simp [Task.next, Task.overStep]

/-- A job that is started above a frame. -/
theorem next_start (j : Job W) (f : Frame W) :
    Task.next (j.start [f]) = Task.overStep [f] <$> Task.next (j.start []) := by
  rw [← List.nil_append [f], start_over, next_over_map, List.nil_append]

/-- Only the outcome of the first step counts. -/
theorem passes_congr {x y : Eval W (Step (Task W) (Finish W))} {k : Continuation W}
    (h : x m σ = y m σ₁) (p : Passes m k n x σ cs u σ') : Passes m k n y σ₁ cs u σ' := by
  cases p with
  | hands e => exact .hands (h ▸ e)
  | stop e => exact .stop (h ▸ e)
  | tail e a p => exact .tail (h ▸ e) a p
  | waits e => exact .waits (h ▸ e)
  | answer e p => exact .answer (h ▸ e) p

/-- A first step that breaks off is all there is. -/
theorem Passes.of_error {x : Eval W (Step (Task W) (Finish W))} {k : Continuation W} {e : Stop}
    (p : Passes m k n x σ cs u σ') (h : x m σ = .error e σ₁) :
    cs = [] ∧ u = .stop e ∧ σ' = σ₁ := by
  cases p with
  | stop e =>
    rw [h] at e
    cases e
    exact ⟨rfl, rfl, rfl⟩
  | hands e => cases h ▸ e
  | tail e a p => cases h ▸ e
  | waits e => cases h ▸ e
  | answer e p => cases h ▸ e

/-- More frames behind the continuation: the same steps, and the same reply. -/
theorem Passes.over {x : Eval W (Step (Task W) (Finish W))} {k : Continuation W}
    (K : Continuation W) (p : Passes m k n x σ cs u σ') :
    Passes m (k ++ K) n (Task.overStep K <$> x) σ cs u σ' := by
  induction p with
  | hands e => exact .hands (by rw [Eval.run_map, e]; rfl)
  | stop e => exact .stop (by rw [Eval.run_map, e])
  | @tail x t n σ σ₁ σ' cs u e a p ih =>
    refine .tail (t := t.over K) (by rw [Eval.run_map, e]; rfl) (a.over K) ?_
    rwa [step_over t K a.ne_deliver]
  | @waits x q σ σ' e =>
    exact .waits (q := q.over K) (by rw [Eval.run_map, e]; rfl)
  | @answer x q c n σ σ₁ σ' cs u e p ih =>
    refine .answer (q := q.over K) (by rw [Eval.run_map, e]; rfl) ?_
    rwa [arrive_over, next_over_map]

/-- A run that ends before the frames in front get a reply does not hand one to those behind. -/
theorem Passes.drop {x : Eval W (Step (Task W) (Finish W))} {k K : Continuation W}
    (p : Passes m (k ++ K) n x σ cs u σ') (hu : ∀ r, u ≠ .reply r) : Passes m K n x σ cs u σ' := by
  generalize hk : k ++ K = k' at p
  induction p with
  | @hands x r σ σ' e => exact absurd rfl (hu r)
  | stop e => exact .stop e
  | tail e a p ih =>
    subst hk
    exact .tail e a.drop (ih hu)
  | waits e => exact .waits e
  | answer e p ih => exact .answer e (ih hu)

/-- A run up to a frame, and then what the frame does with the reply. -/
theorem Passes.trans {x : Eval W (Step (Task W) (Finish W))} {f : Frame W} {k : Continuation W}
    {r : Reply Value} (p : Passes m (f :: k) n x σ cs (.reply r) σ₁)
    (p' : Passes m k n' (f.resume r k) σ₁ ds u σ') :
    Passes m k (n + n' + 1) x σ (cs ++ ds) u σ' := by
  generalize hk : f :: k = k' at p
  generalize hv : Upshot.reply r = v at p
  induction p with
  | @hands x r' σ σ₁ e =>
    cases hk
    cases hv
    rw [Nat.zero_add]
    exact .tail e ⟨.deliver r [f], rfl, by simp⟩ p'
  | stop e => cases hv
  | @tail x t n σ σ₀ σ₁ cs v e a p ih =>
    rw [Nat.add_right_comm n 1 n']
    subst hk
    exact .tail e (Task.Above.drop (k := [f]) a) (ih p' hv)
  | waits e => cases hv
  | @answer x q c n σ σ₀ σ₁ cs v e p ih =>
    rw [Nat.add_right_comm n 1 n']
    exact .answer e (ih p' hv)

theorem map_overStep_ok {y : Eval W (Step (Task W) (Finish W))} {K : Continuation W}
    {s : Step (Task W) (Finish W)} (h : (Task.overStep K <$> y) m σ = .ok s σ₁) :
    ∃ s', y m σ = .ok s' σ₁ ∧ s = Task.overStep K s' := by
  rw [Eval.run_map] at h
  cases hy : y m σ with
  | ok s' σ' =>
    rw [hy] at h
    cases h
    exact ⟨s', rfl, rfl⟩
  | error e σ' =>
    rw [hy] at h
    cases h

theorem map_overStep_error {y : Eval W (Step (Task W) (Finish W))} {K : Continuation W} {e : Stop}
    (h : (Task.overStep K <$> y) m σ = .error e σ₁) : y m σ = .error e σ₁ := by
  rw [Eval.run_map] at h
  cases hy : y m σ with
  | ok s' σ' =>
    rw [hy] at h
    cases h
  | error e' σ' =>
    rw [hy] at h
    exact h

theorem map_overStep_tail {y : Eval W (Step (Task W) (Finish W))} {K : Continuation W}
    {t : Task W} (h : (Task.overStep K <$> y) m σ = .ok (.tail t) σ₁) :
    ∃ t', y m σ = .ok (.tail t') σ₁ ∧ t = t'.over K := by
  obtain ⟨s, hy, hs⟩ := map_overStep_ok h
  rcases s with t' | r | q
  · cases hs
    exact ⟨t', hy, rfl⟩
  · cases hs
  · cases hs

theorem map_overStep_request {y : Eval W (Step (Task W) (Finish W))} {K : Continuation W}
    {q : Request W} (h : (Task.overStep K <$> y) m σ = .ok (.value (.request q)) σ₁) :
    ∃ q' : Request W, y m σ = .ok (.value (.request q')) σ₁ ∧
      q = q'.over K := by
  obtain ⟨s, hy, hs⟩ := map_overStep_ok h
  rcases s with t' | r | q'
  · cases hs
  · cases hs
  · cases hs
    exact ⟨q', hy, rfl⟩

/-- Frames behind the continuation do not matter before they get a reply. -/
theorem Passes.of_over {y : Eval W (Step (Task W) (Finish W))} {K : Continuation W}
    (p : Passes m K n (Task.overStep K <$> y) σ cs u σ') : Passes m [] n y σ cs u σ' := by
  generalize hx : Task.overStep K <$> y = x at p
  induction p generalizing y with
  | @hands x r σ σ' e =>
    subst hx
    obtain ⟨t, hy, ht⟩ := map_overStep_tail e
    rw [over_eq_deliver ht.symm] at hy
    exact .hands hy
  | stop e =>
    subst hx
    exact .stop (map_overStep_error e)
  | @tail x t n σ σ₁ σ' cs u e a p ih =>
    subst hx
    obtain ⟨t', hy, rfl⟩ := map_overStep_tail e
    have ht := above_over.mp a
    refine .tail hy ⟨t', (over_nil t').symm, ht⟩ (ih (step_over t' K ht).symm)
  | @waits x q σ σ' e =>
    subst hx
    obtain ⟨q', hy, rfl⟩ := map_overStep_request e
    exact .waits (q := q') hy
  | @answer x q c n σ σ₁ σ' cs u e p ih =>
    subst hx
    obtain ⟨q', hy, rfl⟩ := map_overStep_request e
    refine .answer (q := q') hy (ih ?_)
    rw [arrive_over, next_over_map]

/-- A run above a frame either hands it a reply and goes on from there, or ends before that. -/
theorem Passes.split {y : Eval W (Step (Task W) (Finish W))} {f : Frame W}
    (p : Passes m [] n (Task.overStep [f] <$> y) σ cs u σ') :
    (∃ n₁ n₂ r σ₁ cs₁ cs₂, n = n₁ + n₂ + 1 ∧ cs = cs₁ ++ cs₂ ∧
      Passes m [] n₁ y σ cs₁ (.reply r) σ₁ ∧ Passes m [] n₂ (f.resume r []) σ₁ cs₂ u σ') ∨
    ((∀ r, u ≠ .reply r) ∧ Passes m [] n y σ cs u σ') := by
  generalize hx : Task.overStep [f] <$> y = x at p
  induction p generalizing y with
  | @hands x r σ σ' e =>
    subst hx
    obtain ⟨t, -, ht⟩ := map_overStep_tail e
    cases t <;> simp [Task.over] at ht
  | stop e =>
    subst hx
    exact .inr ⟨by simp, .stop (map_overStep_error e)⟩
  | @tail x t n σ σ₁ σ' cs u e a p ih =>
    subst hx
    obtain ⟨t', hy, rfl⟩ := map_overStep_tail e
    -- Either the frame gets a reply now, or the run is still above it.
    by_cases ht : ∃ r, t' = .deliver r []
    · obtain ⟨r, rfl⟩ := ht
      exact .inl ⟨0, n, r, σ₁, [], cs, by omega, rfl, .hands hy, p⟩
    · have ht : ∀ r, t' ≠ .deliver r [] := fun r h => ht ⟨r, h⟩
      have above : t'.Above [] := ⟨t', (over_nil t').symm, ht⟩
      rcases ih (step_over t' [f] ht).symm with
        ⟨n₁, n₂, r, σ₂, cs₁, cs₂, rfl, rfl, p₁, p₂⟩ | ⟨hu, p⟩
      · exact .inl ⟨n₁ + 1, n₂, r, σ₂, cs₁, cs₂, by omega, rfl, .tail hy above p₁, p₂⟩
      · exact .inr ⟨hu, .tail hy above p⟩
  | @waits x q σ σ' e =>
    subst hx
    obtain ⟨q', hy, rfl⟩ := map_overStep_request e
    exact .inr ⟨by simp, .waits (q := q') hy⟩
  | @answer x q c n σ σ₁ σ' cs u e p ih =>
    subst hx
    obtain ⟨q', hy, rfl⟩ := map_overStep_request e
    rcases ih (by rw [arrive_over, next_over_map]) with
      ⟨n₁, n₂, r, σ₂, cs₁, cs₂, rfl, rfl, p₁, p₂⟩ | ⟨hu, p⟩
    · exact .inl ⟨n₁ + 1, n₂, r, σ₂, (q'.chunk, c) :: cs₁, cs₂, by omega,
        rfl, .answer (q := q') hy p₁, p₂⟩
    · exact .inr ⟨hu, .answer (q := q') hy p⟩

/-! ## Programs and steps -/

theorem start_ne_deliver {j : Job W} {t : Task W} (h : j.start [] m σ = .ok t σ₁)
    (r : Reply Value) : t ≠ .deliver r [] := by
  rintro rfl
  cases j with
  | parser p s => cases h
  | code c s => cases h
  | past s token =>
    rcases s with ⟨_ | _, i, p, u⟩ | ⟨a, c, inner⟩
    · simp only [Job.start, State.next, Bool.false_eq_true, if_false, Eval.run_bind] at h
      split at h <;> cases h
    · simp only [Job.start, State.next, if_true, Eval.run_bind, Eval.run_modify] at h
      split at h <;> cases h
    · cases h

/-- A job that breaks off before its first step breaks off. -/
theorem evaluates_of_start_error {j : Job W} {e : Stop} (h : j.start [] m σ = .error e σ') :
    Evaluates m j σ [] (.stop e) σ' := by
  cases j with
  | parser p s => cases h
  | code c s => cases h
  | past s token =>
    rcases s with ⟨_ | _, i, p, u⟩ | ⟨a, c, inner⟩
    · simp only [Job.start, State.next, Bool.false_eq_true, if_false, Eval.run_bind] at h
      split at h
      · cases h
      · next hs =>
        cases h
        exact .actStop hs
    · simp only [Job.start, State.next, if_true, Eval.run_bind, Eval.run_modify] at h
      split at h
      · cases h
      · next hs =>
        cases h
        exact .act rfl (.actStop hs)
    · cases h

/-- A started job, one step before. -/
theorem passes_start {j : Job W} (p : Passes m [] n (j.start [] >>= Task.step) σ cs u σ') :
    ∃ n', Passes m [] n' (Task.next (j.start [])) σ cs u σ' := by
  cases h : j.start [] m σ with
  | ok t σ₁ =>
    have h₁ : Task.next (j.start []) m σ = .ok (.tail t) σ₁ := by rw [run_next, h]
    have h₂ : (j.start [] >>= Task.step) m σ = t.step m σ₁ := by rw [Eval.run_bind, h]
    exact ⟨n + 1, .tail h₁ ⟨t, (over_nil t).symm, start_ne_deliver h⟩ (passes_congr h₂ p)⟩
  | error e σ₁ =>
    have h₁ : (j.start [] >>= Task.step) m σ = Task.next (j.start []) m σ := by
      rw [run_next, Eval.run_bind, h]
    exact ⟨n, passes_congr h₁ p⟩

/-- A step that begins a program takes it to its end. -/
theorem Direct.Ends.passes {x : Direct W (Reply Value)} (h : x.Ends m σ cs u σ')
    {mv : Eval W (Step (Task W) (Finish W))} (i : Implements x mv) :
    ∃ n, Passes m [] n mv σ cs u σ' := by
  induction h generalizing mv with
  | done =>
    cases i
    exact ⟨0, .hands rfl⟩
  | act e h ih =>
    cases i with
    | act i =>
      obtain ⟨n, p⟩ := ih (i _)
      exact ⟨n, passes_congr (by rw [Eval.run_bind, e]) p⟩
  | actStop e =>
    cases i with
    | act i => exact ⟨0, .stop (by rw [Eval.run_bind, e])⟩
  | @call j k r σ σ₁ σ' cs ds u h h' ih ih' =>
    -- The job passes to its reply above the frame, and then the frame goes on.
    obtain ⟨n, p⟩ := ih (implements_job j)
    obtain ⟨n, p⟩ := passes_start p
    cases i with
    | call f i =>
      obtain ⟨n', p'⟩ := ih' (i r)
      refine ⟨n + n' + 1, .trans (f := f) ?_ p'⟩
      rw [next_start]
      exact p.over [f]
    | tail =>
      cases h'
      rw [List.append_nil]
      exact ⟨n, p⟩
  | @callStop j k e σ σ' cs h ih =>
    obtain ⟨n, p⟩ := ih (implements_job j)
    obtain ⟨n, p⟩ := passes_start p
    cases i with
    | call f i =>
      refine ⟨n, .drop (k := [f]) ?_ (by simp)⟩
      rw [next_start]
      exact p.over [f]
    | tail => exact ⟨n, p⟩
  | @callWaits j k _ σ σ' cs h ih =>
    obtain ⟨n, p⟩ := ih (implements_job j)
    obtain ⟨n, p⟩ := passes_start p
    cases i with
    | call f i =>
      refine ⟨n, .drop (k := [f]) ?_ (by simp)⟩
      rw [next_start]
      exact p.over [f]
    | tail => exact ⟨n, p⟩
  | @ask _ c k σ σ' cs u h ih =>
    cases i with
    | ask i =>
      obtain ⟨n, p⟩ := ih (i c)
      exact ⟨n + 1, .answer rfl p⟩
  | askWaits =>
    cases i with
    | @ask _ s _ i => exact ⟨0, .waits (q := ⟨_, s, []⟩) rfl⟩

/-- The end of a started job, given the ends of all jobs that take fewer steps. -/
theorem evaluates_of_passes_next {j : Job W}
    (ih : ∀ n' < n, ∀ σ cs u σ', Passes m [] n' (j.start [] >>= Task.step) σ cs u σ' →
      Evaluates m j σ cs u σ')
    (p : Passes m [] n' (Task.next (j.start [])) σ cs u σ') (hn : n' ≤ n) :
    Evaluates m j σ cs u σ' := by
  cases h : j.start [] m σ with
  | error e σ₁ =>
    have h₁ : Task.next (j.start []) m σ = .error e σ₁ := by rw [run_next, h]
    obtain ⟨rfl, rfl, rfl⟩ := p.of_error h₁
    exact evaluates_of_start_error h
  | ok t σ₁ =>
    have h₁ : Task.next (j.start []) m σ = .ok (.tail t) σ₁ := by rw [run_next, h]
    have h₂ : t.step m σ₁ = (j.start [] >>= Task.step) m σ := by rw [Eval.run_bind, h]
    cases p with
    | @tail _ t' n' _ σ₂ _ _ _ e a p =>
      rw [h₁] at e
      cases e
      exact ih n' (by omega) _ _ _ _ (passes_congr h₂ p)
    | @hands _ r _ _ e =>
      rw [h₁] at e
      cases e
      exact absurd rfl (start_ne_deliver h r)
    | stop e => simp [h₁] at e
    | waits e => simp [h₁] at e
    | answer e p => simp [h₁] at e

/-- A program whose first step ends within `n` steps ends, given the ends of all jobs that take
fewer steps. -/
theorem Implements.ends {x : Direct W (Reply Value)} {mv : Eval W (Step (Task W) (Finish W))}
    (i : Implements x mv)
    (ih : ∀ n' < n, ∀ (j : Job W) σ cs u σ', Passes m [] n' (j.start [] >>= Task.step) σ cs u σ' →
      Evaluates m j σ cs u σ')
    (p : Passes m [] n' mv σ cs u σ') (hn : n' ≤ n) : x.Ends m σ cs u σ' := by
  induction i generalizing n' σ cs u σ' with
  | done r =>
    cases p with
    | hands e =>
      cases e
      exact .done
    | tail e a p =>
      cases e
      exact absurd rfl (a.ne_deliver r)
    | _ e => cases e
  | @act β x k mv i ihx =>
    cases h : x m σ with
    | ok b σ₁ =>
      have hx : (x >>= mv) m σ = mv b m σ₁ := by rw [Eval.run_bind, h]
      exact .act h (ihx b (passes_congr hx p) hn)
    | error e σ₁ =>
      have hx : (x >>= mv) m σ = .error e σ₁ := by rw [Eval.run_bind, h]
      obtain ⟨rfl, rfl, rfl⟩ := p.of_error hx
      exact .actStop h
  | @call j k f i ihx =>
    rw [next_start] at p
    -- The run is cut where the frame gets its reply.
    rcases p.split with ⟨n₁, n₂, r, σ₁, cs₁, cs₂, rfl, rfl, p₁, p₂⟩ | ⟨hu, p⟩
    · exact .call (evaluates_of_passes_next (fun n' h => ih n' h j) p₁ (by omega))
        (ihx r p₂ (by omega))
    · have h := evaluates_of_passes_next (fun n' h => ih n' h j) p hn
      cases u with
      | reply r => exact absurd rfl (hu r)
      | stop e => exact .callStop h
      | waits n => exact .callWaits h
  | @tail j =>
    have h := evaluates_of_passes_next (fun n' h => ih n' h j) p hn
    cases u with
    | reply r => exact cs.append_nil ▸ .call h .done
    | stop e => exact .callStop h
    | waits n => exact .callWaits h
  | @ask c s k i ihx =>
    cases p with
    | waits e =>
      cases e
      exact .askWaits
    | answer e p =>
      cases e
      exact .ask (ihx _ p (by omega))
    | _ e => cases e

theorem evaluates_of_passes {j : Job W} (p : Passes m [] n (j.start [] >>= Task.step) σ cs u σ') :
    Evaluates m j σ cs u σ' := by
  induction n using Nat.strongRecOn generalizing j σ cs u σ' with
  | _ n ih => exact (implements_job j).ends (fun n' h j σ cs u σ' => ih n' h) p (Nat.le_refl n)

/-- A parser comes to what the steps of its task come to, whatever gets its reply. -/
theorem evaluates_iff_passes {p : ParserId} {s : State Value} {k : Continuation W} :
    Evaluates m (.parser p s) σ cs u σ' ↔ ∃ n, Passes m k n (Task.run p s k).step σ cs u σ' := by
  have h : (Task.run p s k).step = Task.overStep k <$> (Task.run p s []).step :=
    step_over (.run p s []) k (by simp)
  constructor
  · intro e
    obtain ⟨n, p⟩ := e.passes (implements_job (.parser p s))
    exact ⟨n, h ▸ p.over k⟩
  · rintro ⟨n, p⟩
    rw [h] at p
    exact evaluates_of_passes p.of_over

/-- A run comes to one end. -/
theorem Passes.unique {x : Eval W (Step (Task W) (Finish W))} {k : Continuation W} {v : Upshot}
    (p : Passes m k n x σ cs u σ') (p' : Passes m k n' x σ cs v σ₂) : u = v ∧ σ' = σ₂ := by
  -- A step has one outcome, so the second run takes the same rule as the first one.
  induction p generalizing n' with
  | @hands x r σ σ' e =>
    cases p' with
    | hands e' =>
      cases e ▸ e'
      exact ⟨rfl, rfl⟩
    | tail e' a p' =>
      cases e ▸ e'
      exact absurd a (Task.Above.not_deliver r)
    | stop e' => cases e ▸ e'
    | waits e' => cases e ▸ e'
  | stop e =>
    obtain ⟨-, rfl, rfl⟩ := p'.of_error e
    exact ⟨rfl, rfl⟩
  | tail e a p ih =>
    cases p' with
    | @hands _ r _ _ e' =>
      cases e ▸ e'
      exact absurd a (Task.Above.not_deliver r)
    | tail e' a' p' =>
      cases e ▸ e'
      exact ih p'
    | stop e' => cases e ▸ e'
    | waits e' => cases e ▸ e'
    | answer e' p' => cases e ▸ e'
  | waits e =>
    cases p' with
    | hands e' => cases e ▸ e'
    | tail e' a p' => cases e ▸ e'
    | stop e' => cases e ▸ e'
    | waits e' =>
      cases e ▸ e'
      exact ⟨rfl, rfl⟩
  | @answer x q c n σ σ₁ σ' cs u e p ih =>
    generalize hc : (q.chunk, c) :: cs = cs' at p'
    cases p' with
    | hands e' => cases hc
    | tail e' a p' => cases e ▸ e'
    | stop e' => cases hc
    | waits e' => cases hc
    | answer e' p' =>
      cases e ▸ e'
      cases hc
      exact ih p'

/-! ## Whole runs -/

theorem runFor_succ (t : Task W) (N : Nat) :
    t.runFor (N + 1) m σ = match t.step m σ with
      | .ok (.tail t') σ' => t'.runFor N m σ'
      | .ok (.value f) σ' => .ok f σ'
      | .error e σ' => .error e σ' := by
  rw [Task.runFor, Eval.run_bind]
  cases t.step m σ with
  | error e σ' => rfl
  | ok s σ' => cases s <;> rfl

/-- What a run gives once it has come to an end above a continuation, where `N` further steps are
allowed. -/
def Upshot.Given (m : Means W) (k : Continuation W) (N : Nat) (σ : Store W) :
    Upshot → EStateM.Result Stop (Store W) (Finish W) → Prop
  | .reply r, y => y = (Task.deliver r k).runFor N m σ
  | .stop e, y => y = .error e σ
  | .waits n, y => ∃ q : Request W, q.chunk = n ∧ y = .ok (.request q) σ

theorem Passes.given {t : Task W} {k : Continuation W} (p : Passes m k n t.step σ [] u σ')
    (N : Nat) : u.Given m k N σ' (t.runFor (N + n + 1) m σ) := by
  rw [runFor_succ]
  generalize hx : t.step = x at p
  generalize hc : [] = cs at p
  induction p generalizing t with
  | hands e =>
    rw [e]
    rfl
  | stop e =>
    rw [e]
    rfl
  | tail e a p ih =>
    simp only [e]
    rw [← Nat.add_assoc, runFor_succ]
    exact ih rfl hc
  | @waits _ q _ _ e =>
    rw [e]
    exact ⟨q, rfl, rfl⟩
  | answer e p ih => cases hc

/-- The computation does not leave a reply. -/
def Unfinished (x : Eval W (Step (Task W) (Finish W))) : Prop :=
  ∀ m σ r σ', x m σ ≠ .ok (.value (.reply r)) σ'

@[simp] theorem unfinished_tail (t : Task W) : Unfinished (pure (.tail t)) := by
  intro m σ r σ' h
  cases h

@[simp] theorem unfinished_request (q : Request W) :
    Unfinished (pure (.value (.request q))) := by
  intro m σ r σ' h
  cases h

@[simp] theorem unfinished_fault (e : Fault) :
    Unfinished (Eval.fault e : Eval W (Step (Task W) (Finish W))) := by
  intro m σ r σ' h
  cases h

@[simp] theorem unfinished_bind {β : Type} {x : Eval W β}
    {f : β → Eval W (Step (Task W) (Finish W))} (h : ∀ b, Unfinished (f b)) :
    Unfinished (x >>= f) := by
  intro m σ r σ' e
  rw [Eval.run_bind] at e
  cases hx : x m σ with
  | ok b σ₁ =>
    rw [hx] at e
    exact h b m σ₁ r σ' e
  | error e' σ₁ =>
    rw [hx] at e
    cases e

@[simp] theorem unfinished_map {β : Type} {x : Eval W β} {f : β → Step (Task W) (Finish W)}
    (h : ∀ b r, f b ≠ .value (.reply r)) : Unfinished (f <$> x) := by
  rw [map_eq_pure_bind]
  refine unfinished_bind fun b m σ r σ' e => h b r ?_
  rw [Eval.run_pure] at e
  injection e

theorem unfinished_go (a : Advance) (n : Int) (k : Continuation W) : Unfinished (a.go n k) := by
  refine unfinished_bind fun s => ?_
  split <;> simp

theorem unfinished_cross (a : AdvanceId) (n : Int) (inner : State Value) (k : Continuation W) :
    Unfinished (a.cross n inner k) := by
  refine unfinished_bind fun memory => ?_
  split
  · exact unfinished_go memory n k
  · split
    · exact unfinished_bind fun _ => unfinished_bind fun _ => unfinished_bind fun m =>
        unfinished_go m n k
    · simp

theorem unfinished_resume (f : Frame W) (r : Reply Value) (k : Continuation W) :
    Unfinished (f.resume r k) := by
  cases f with
  | manyItem self p start =>
    rcases r with ⟨_ | _, v, t⟩ | ⟨_ | _, e, t⟩ <;> simp [Frame.resume]
  | altFirst q start => rcases r with ⟨_, v, t⟩ | ⟨_ | _, e, t⟩ <;> simp [Frame.resume]
  | altSecond e => rcases r with ⟨_, v, t⟩ | ⟨_ | _, e, t⟩ <;> simp [Frame.resume]
  | attempt start => rcases r with ⟨_, v, t⟩ | ⟨_ | _, e, t⟩ <;> simp [Frame.resume]
  | crossed a n => simp [Frame.resume, unfinished_go]
  | _ => cases r <;> simp [Frame.resume]

/-- A parse replies only where no frame is left. -/
theorem unfinished_step {t : Task W} (h : ∀ r, t ≠ .deliver r []) : Unfinished t.step := by
  cases t with
  | run p s k =>
    refine unfinished_bind fun _ => unfinished_bind fun c => ?_
    split <;> simp
  | code c s k => cases c <;> simp [Task.step]
  | settle s k => simp [Task.step]
  | cross a n inner k => exact unfinished_cross a n inner k
  | deliver r k =>
    cases k with
    | nil => exact absurd rfl (h r)
    | cons f k => exact unfinished_resume f r k

/-- A run that is given enough steps comes to an end above its continuation. -/
theorem passes_or_exhausted {t : Task W} {k : Continuation W} (a : t.Above k) (N : Nat) :
    (∃ n < N, ∃ u σ', Passes m k n t.step σ [] u σ') ∨
    ∃ σ', t.runFor N m σ = .error .exhausted σ' := by
  induction N generalizing t σ with
  | zero => exact .inr ⟨σ, rfl⟩
  | succ N ih =>
    rw [runFor_succ]
    cases e : t.step m σ with
    | error e' σ₁ => exact .inl ⟨0, by omega, _, _, .stop e⟩
    | ok s σ₁ =>
      rcases s with t' | r | q
      · obtain ⟨t₀, rfl, h⟩ := a
        rw [step_over t₀ k h] at e
        obtain ⟨t₁, -, rfl⟩ := map_overStep_tail e
        by_cases hr : ∃ r, t₁ = .deliver r []
        · obtain ⟨r, rfl⟩ := hr
          refine .inl ⟨0, by omega, .reply r, σ₁, .hands ?_⟩
          rwa [step_over t₀ k h]
        · have hr : t₁.over k |>.Above k := above_over.mpr fun r h => hr ⟨r, h⟩
          rcases ih hr with ⟨n, hn, u, σ', p⟩ | ⟨σ', h'⟩
          · refine .inl ⟨n + 1, by omega, u, σ', .tail ?_ hr p⟩
            rwa [step_over t₀ k h]
          · exact .inr ⟨σ', h'⟩
      · exact absurd e (unfinished_step a.ne_deliver m σ r σ₁)
      · exact .inl ⟨0, by omega, _, _, .waits e⟩

theorem runFor_of_evaluates {p : ParserId} {s : State Value} (k : Continuation W)
    (h : Evaluates m (.parser p s) σ [] u σ') :
    ∃ n, ∀ N, u.Given m k N σ' ((Task.run p s k).runFor (N + n) m σ) := by
  obtain ⟨n, h⟩ := evaluates_iff_passes.mp h
  exact ⟨n + 1, h.given⟩

/-- An end that is not the end of patience is the one of the semantics, seen by the continuation. -/
theorem evaluates_of_runFor {p : ParserId} {s : State Value} {k : Continuation W} {N : Nat}
    {y : EStateM.Result Stop (Store W) (Finish W)} (h : (Task.run p s k).runFor N m σ = y)
    (hy : ∀ σ', y ≠ .error .exhausted σ') :
    ∃ u σ₁ N', Evaluates m (.parser p s) σ [] u σ₁ ∧ u.Given m k N' σ₁ y := by
  have above : (Task.run p s k).Above k := ⟨.run p s [], rfl, by simp⟩
  rcases passes_or_exhausted (m := m) (σ := σ) above N with ⟨n, hn, u, σ', p⟩ | ⟨σ', h'⟩
  · refine ⟨u, σ', N - (n + 1), evaluates_iff_passes.mpr ⟨n, p⟩, ?_⟩
    have given := p.given (N - (n + 1))
    rwa [show N - (n + 1) + n + 1 = N by omega, h] at given
  · exact absurd (h ▸ h') (hy σ')

end

/-- The engine runs a parser as the semantics in direct style says. Along every sequence of chunks
that answers its requests it hands the one reply of the semantics to the continuation, and before
that hands nothing to it. A run without requests goes on as the continuation does with that reply;
it raises a fault, or ends with a reply, exactly where the semantics raises the fault, or where the
continuation does so with the reply of the semantics. -/
theorem run_agrees_with_direct (m : Means W) (p : ParserId) (s : State Value)
    (k : Continuation W) (σ : Store W) :
    (∀ cs u σ', Evaluates m (.parser p s) σ cs u σ' ↔
      ∃ n, Passes m k n (Task.run p s k).step σ cs u σ') ∧
    (∀ cs u v σ₁ σ₂, Evaluates m (.parser p s) σ cs u σ₁ → Evaluates m (.parser p s) σ cs v σ₂ →
      u = v ∧ σ₁ = σ₂) ∧
    (∀ u σ', Evaluates m (.parser p s) σ [] u σ' →
      ∃ n, ∀ N, u.Given m k N σ' ((Task.run p s k).runFor (N + n) m σ)) ∧
    (∀ f σ', (∃ N, (Task.run p s k).runFor N m σ = .error (.raised f) σ') ↔
      Evaluates m (.parser p s) σ [] (.stop (.raised f)) σ' ∨
      ∃ r σ₁, Evaluates m (.parser p s) σ [] (.reply r) σ₁ ∧
        ∃ N, (Task.deliver r k).runFor N m σ₁ = .error (.raised f) σ') ∧
    (∀ r' σ', (∃ N, (Task.run p s k).runFor N m σ = .ok (.reply r') σ') ↔
      ∃ r σ₁, Evaluates m (.parser p s) σ [] (.reply r) σ₁ ∧
        ∃ N, (Task.deliver r k).runFor N m σ₁ = .ok (.reply r') σ') := by
  refine ⟨fun cs u σ' => evaluates_iff_passes, ?_, fun u σ' => runFor_of_evaluates k, ?_, ?_⟩
  · intro cs u v σ₁ σ₂ h h'
    obtain ⟨n, h⟩ := (evaluates_iff_passes (k := k)).mp h
    obtain ⟨n', h'⟩ := (evaluates_iff_passes (k := k)).mp h'
    exact h.unique h'
  · intro f σ'
    constructor
    · rintro ⟨N, h⟩
      obtain ⟨u, σ₁, N', e, given⟩ := evaluates_of_runFor h (by simp)
      cases u with
      | reply r => exact .inr ⟨r, σ₁, e, N', given.symm⟩
      | stop e' =>
        cases given
        exact .inl e
      | waits n =>
        obtain ⟨q, -, hq⟩ := given
        cases hq
    · rintro (e | ⟨r, σ₁, e, N, h⟩)
      · obtain ⟨n, h⟩ := runFor_of_evaluates k e
        exact ⟨0 + n, h 0⟩
      · obtain ⟨n, h'⟩ := runFor_of_evaluates k e
        exact ⟨N + n, (h' N).trans h⟩
  · intro r' σ'
    constructor
    · rintro ⟨N, h⟩
      obtain ⟨u, σ₁, N', e, given⟩ := evaluates_of_runFor h (by simp)
      cases u with
      | reply r => exact ⟨r, σ₁, e, N', given.symm⟩
      | stop e' => cases given
      | waits n =>
        obtain ⟨q, -, hq⟩ := given
        cases hq
    · rintro ⟨r, σ₁, e, N, h⟩
      obtain ⟨n, h'⟩ := runFor_of_evaluates k e
      exact ⟨N + n, (h' N).trans h⟩

end ResumableParsing
