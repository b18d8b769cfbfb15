import ResumableParsing.Proofs.Direct.Program

/-!
# Frames behind a continuation

No step of a parse looks past the frame that it hands a reply to. So the steps of a task are the
same whatever stands behind its continuation, up to the moment when its own frames are used up.

* `Task.over`: a task with more frames behind its continuation
* `step_over`: it takes the same steps
* `Task.Above`: the tasks that have not handed a reply to the frames behind them
-/

namespace ResumableParsing

variable {W : Type}

@[simp] theorem Eval.map_fault {α β : Type} (f : α → β) (e : Fault) :
    f <$> (Eval.fault e : Eval W α) = Eval.fault e := rfl

/-- The task with more frames behind its continuation. -/
def Task.over (K : Continuation W) : Task W → Task W
  | .run p s k => .run p s (k ++ K)
  | .code c s k => .code c s (k ++ K)
  | .settle s k => .settle s (k ++ K)
  | .cross a c inner k => .cross a c inner (k ++ K)
  | .deliver r k => .deliver r (k ++ K)

/-- The request with more frames behind its continuation. -/
def Request.over (K : Continuation W) (q : Request W) : Request W :=
  { q with continuation := q.continuation ++ K }

/-- What a step leaves, with more frames behind the continuation. -/
def Task.overStep (K : Continuation W) : Step (Task W) (Finish W) → Step (Task W) (Finish W)
  | .tail t => .tail (t.over K)
  | .value (.reply r) => .value (.reply r)
  | .value (.request q) => .value (.request (q.over K))

theorem refuse_over (reason : Reason) (expected : List ParserId) (s : State Value)
    (k K : Continuation W) :
    Task.refuse reason expected s (k ++ K) = Task.over K <$> Task.refuse reason expected s k := by
  simp [Task.refuse, Task.over]

theorem next_over (s : State Value) (token : Value) (k K : Continuation W) :
    s.next token (k ++ K) = Task.over K <$> s.next token k := by
  cases s with
  | plain watched i p u => cases watched <;> simp [State.next, Task.over]
  | chunked a c inner => simp [State.next, Task.over]

theorem go_over (m : Advance) (n : Int) (k K : Continuation W) :
    m.go n (k ++ K) = Task.overStep K <$> m.go n k := by
  simp only [Advance.go, map_bind]
  congr 1
  funext s
  split <;> simp [Task.overStep, Task.over, Request.over, Task.arrive]

theorem cross_over (a : AdvanceId) (n : Int) (inner : State Value) (k K : Continuation W) :
    a.cross n inner (k ++ K) = Task.overStep K <$> a.cross n inner k := by
  simp only [AdvanceId.cross, map_bind]
  congr 1
  funext m
  split
  · exact go_over m n k K
  · split
    · simp [go_over]
    · rw [← List.cons_append, next_over]
      simp [Task.overStep]

theorem enter_over (b : Body W) (s : State Value) (k K : Continuation W) :
    b.enter s (k ++ K) = Task.over K <$> b.enter s k := by
  cases b with
  | some self accepts =>
    simp only [Body.enter, map_bind]
    congr 1
    funext empty
    split
    · exact refuse_over ..
    · simp only [map_bind]
      congr 1
      funext token
      congr 1
      funext ok
      split
      · rw [← List.cons_append, next_over]
      · simp [refuse_over]
  | finished self =>
    simp only [Body.enter, map_bind]
    congr 1
    funext empty
    split <;> simp [refuse_over, Task.over]
  | _ => simp [Body.enter, Task.over, refuse_over]

theorem resume_over (f : Frame W) (r : Reply Value) (k K : Continuation W) :
    f.resume r (k ++ K) = Task.overStep K <$> f.resume r k := by
  cases f with
  | seqFirst q c => cases r <;> simp [Frame.resume, Task.overStep, Task.over]
  | seqSecond d v c => cases r <;> simp [Frame.resume, Task.overStep, Task.over]
  | altFirst q s => rcases r with ⟨_, _, _⟩ | ⟨_ | _, _, _⟩ <;>
      simp [Frame.resume, Task.overStep, Task.over]
  | altSecond e => rcases r with ⟨_, _, _⟩ | ⟨_ | _, _, _⟩ <;>
      simp [Frame.resume, Task.overStep, Task.over]
  | map f => cases r <;> simp [Frame.resume, Task.overStep, Task.over]
  | bind f =>
    rcases r with ⟨_ | _, _, _⟩ | ⟨_, _, _⟩ <;> simp [Frame.resume, Task.overStep, Task.over]
  | ignore => cases r <;> simp [Frame.resume, Task.overStep, Task.over]
  | attempt s => rcases r with ⟨_, _, _⟩ | ⟨_ | _, _, _⟩ <;>
      simp [Frame.resume, Task.overStep, Task.over]
  | manyItem self p s =>
    rcases r with ⟨_ | _, _, _⟩ | ⟨_ | _, _, _⟩ <;> simp [Frame.resume, Task.overStep, Task.over]
  | manyRest v => cases r <;> simp [Frame.resume, Task.overStep, Task.over]
  | crossed a n => simp [Frame.resume, go_over]
  | _ => simp [Frame.resume, Task.overStep, Task.over]

theorem startLogged_over (p : ParserId) (s : State Value) (k K : Continuation W) :
    Task.startLogged p s (k ++ K) = Task.over K <$> Task.startLogged p s k := by
  simp only [Task.startLogged, map_bind]
  congr 1
  funext _
  congr 1
  funext σ
  congr 1
  funext c
  split <;> simp [Task.over]

theorem step_over (t : Task W) (K : Continuation W) (h : ∀ r, t ≠ .deliver r []) :
    (t.over K).step = Task.overStep K <$> t.step := by
  cases t with
  | run p s k =>
    simp only [Task.over, Task.step, map_bind]
    congr 1
    funext σ
    congr 1
    funext c
    split <;> simp [Task.overStep, Task.over, startLogged_over]
  | code c s k =>
    cases c with
    | body b => simp [Task.over, Task.step, Task.overStep, enter_over]
    | method p => simp [Task.over, Task.step, Task.overStep, startLogged_over]
  | settle s k => simp [Task.over, Task.step, Task.overStep, Task.arrive]
  | cross a n inner k => simp [Task.over, Task.step, cross_over]
  | deliver r k =>
    cases k with
    | nil => exact absurd rfl (h r)
    | cons f k => simp [Task.over, Task.step, resume_over]

@[simp] theorem over_nil (t : Task W) : t.over [] = t := by
  cases t <;> simp [Task.over]

theorem over_append (t : Task W) (k K : Continuation W) : (t.over k).over K = t.over (k ++ K) := by
  cases t <;> simp [Task.over]

theorem over_injective (K : Continuation W) : Function.Injective (Task.over K) := by
  intro t t' h
  cases t <;> cases t' <;> simp_all [Task.over]

theorem over_eq_deliver {t : Task W} {K : Continuation W} {r : Reply Value}
    (h : t.over K = .deliver r K) : t = .deliver r [] :=
  over_injective K (by simpa [Task.over] using h)

/-- The task still has something to do before the continuation `K` gets a reply. -/
def Task.Above (K : Continuation W) (t : Task W) : Prop :=
  ∃ t' : Task W, t = t'.over K ∧ ∀ r, t' ≠ .deliver r []

theorem above_over {t : Task W} {K : Continuation W} :
    (t.over K).Above K ↔ ∀ r, t ≠ .deliver r [] := by
  constructor
  · rintro ⟨t', ht, h⟩
    rwa [over_injective K ht]
  · exact fun h => ⟨t, rfl, h⟩

namespace Task

variable {t : Task W} {k K : Continuation W}

theorem Above.over (h : t.Above k) (K : Continuation W) : (t.over K).Above (k ++ K) := by
  obtain ⟨t', rfl, h⟩ := h
  exact ⟨t', over_append t' k K, h⟩

theorem Above.drop (h : t.Above (k ++ K)) : t.Above K := by
  obtain ⟨t', rfl, h⟩ := h
  refine ⟨t'.over k, (over_append t' k K).symm, fun r hr => h r ?_⟩
  cases t' <;> simp_all [Task.over]

theorem Above.ne_deliver (h : t.Above k) (r : Reply Value) : t ≠ .deliver r [] := by
  obtain ⟨t', rfl, h⟩ := h
  intro hr
  refine h r ?_
  cases t' <;> simp_all [Task.over]

/-- A task that hands its reply to a continuation is not above it. -/
theorem Above.not_deliver (r : Reply Value) : ¬(Task.deliver r K).Above K := by
  rintro ⟨t', ht, h⟩
  exact h r (over_eq_deliver ht.symm)

end Task

end ResumableParsing
