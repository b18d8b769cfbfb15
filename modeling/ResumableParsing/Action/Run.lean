import ResumableParsing.Parser.State

/-!
# Running actions

What each request of the caller's programs does.
-/

namespace ResumableParsing

variable {W α : Type}

/-- Whether a deferred result is known, and its text. -/
def ResultId.peek (r : ResultId) (σ : Store W) : Bool × String :=
  match σ.results[r.index]? with
  | some m => (m.known?.isSome, Store.memoText σ.render m.known?)
  | none => (false, "")

/-- Adds a deferred result to the store. -/
def ResultId.make (a : Action W Value) : Eval W ResultId :=
  modifyGet fun σ => (⟨σ.results.size⟩, { σ with results := σ.results.push ⟨a, .unset⟩ })

/-- Runs a program of the caller. -/
def Action.run : Action W α → Eval W α
  | .done a => pure a
  | .raise f => Eval.fault f
  | .inspect k => do (k (← get).world).run
  | .update f next => do
    modify fun σ => { σ with world := f σ.world }
    next.run
  | .serial k => do (k (← Eval.serial)).run
  | .iterator answer k => do (k (← IteratorId.make (.caller answer 0))).run
  | .asStream s k => do (k (← s.asStream)).run
  | .isEmpty s k => do (k (← s.isEmpty)).run
  | .first s k => do (k (← s.first)).run
  | .rest s k => do (k (← s.rest)).run
  | .append a b k => do (k (← a.append b)).run
  | .toList s k => do (k (← s.toList)).run
  | .setInput s i k => do (k (← s.setInput i)).run
  | .setPosition s p k => do (k (← s.setPosition p)).run
  | .setUser s u k => do (k (← s.setUser u)).run
  | .render v k => do (k ((← get).render v)).run
  | .peek r k => do
    let (known, text) := r.peek (← get)
    (k known text).run
  | .result r k => do (k (← Eval.catching (Eval.force (.result r)))).run
  | .finish s k => do (k (← Eval.force (.session s))).run

namespace Action

variable {β : Type}

@[simp] theorem run_done (a : α) : (done a : Action W α).run = pure a := rfl

@[simp] theorem run_raise (f : Fault) : (raise f : Action W α).run = Eval.fault f := rfl

/-- A program that goes on with another one runs the one and then the other. -/
theorem run_bind (a : Action W α) (f : α → Action W β) :
    (a.bind f).run = a.run >>= fun x => (f x).run := by
  induction a with
  | done a => rfl
  | raise e => rfl
  | update g next ih => simp [bind, run, ih]
  | _ => simp [bind, run, *]

end Action

end ResumableParsing
