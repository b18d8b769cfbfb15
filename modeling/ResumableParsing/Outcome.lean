/-!
# Outcomes

The four ways in which a parser can finish: it succeeds or fails, and it has consumed input or
not. Choice and repetition decide by the outcome alone.
-/

namespace ResumableParsing

/-- How a parser finished. -/
inductive Outcome where
  /-- Success after consuming input. -/
  | consumedOk
  /-- Success without consuming input. -/
  | emptyOk
  /-- Failure after consuming input. -/
  | consumedErr
  /-- Failure without consuming input. -/
  | emptyErr
deriving DecidableEq, Inhabited, Repr

namespace Outcome

/-- The parser succeeded. -/
def isOk : Outcome → Bool
  | consumedOk | emptyOk => true
  | consumedErr | emptyErr => false

/-- The parser consumed input. -/
def isConsumed : Outcome → Bool
  | consumedOk | consumedErr => true
  | emptyOk | emptyErr => false

/-- The outcome of given success and consumption. -/
def ofFlags (ok consumed : Bool) : Outcome :=
  match ok, consumed with
  | true, true => consumedOk
  | true, false => emptyOk
  | false, true => consumedErr
  | false, false => emptyErr

/-- The outcome as seen by a parser that has consumed input before. -/
def consume : Outcome → Outcome
  | emptyOk => consumedOk
  | emptyErr => consumedErr
  | o => o

/-- The choice among four alternatives that belongs to the outcome. -/
def select {α : Type} (consumedOk emptyOk consumedErr emptyErr : α) : Outcome → α
  | .consumedOk => consumedOk
  | .emptyOk => emptyOk
  | .consumedErr => consumedErr
  | .emptyErr => emptyErr

/-- The written form of an outcome. -/
def text : Outcome → String
  | consumedOk => "consumed-ok"
  | emptyOk => "empty-ok"
  | consumedErr => "consumed-err"
  | emptyErr => "empty-err"

/-- The outcome of a written form. -/
def ofText? (s : String) : Option Outcome :=
  [consumedOk, emptyOk, consumedErr, emptyErr].find? fun o => o.text == s

/-- The name under which an outcome is known to programs. -/
def constantName : Outcome → String
  | consumedOk => "CONSUMED_OK"
  | emptyOk => "EMPTY_OK"
  | consumedErr => "CONSUMED_ERR"
  | emptyErr => "EMPTY_ERR"

@[simp] theorem ofText?_text (o : Outcome) : ofText? o.text = some o := by cases o <;> rfl

@[simp] theorem isOk_ofFlags (ok consumed : Bool) : (ofFlags ok consumed).isOk = ok := by
  cases ok <;> cases consumed <;> rfl

@[simp] theorem isConsumed_ofFlags (ok consumed : Bool) :
    (ofFlags ok consumed).isConsumed = consumed := by
  cases ok <;> cases consumed <;> rfl

@[simp] theorem isOk_consume (o : Outcome) : o.consume.isOk = o.isOk := by cases o <;> rfl

@[simp] theorem isConsumed_consume (o : Outcome) : o.consume.isConsumed = true := by
  cases o <;> rfl

end Outcome

end ResumableParsing
