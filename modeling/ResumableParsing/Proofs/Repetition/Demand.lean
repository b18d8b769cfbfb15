import Mathlib.Logic.Relation
import ResumableParsing.Proofs.Repetition.Openings
import ResumableParsing.Proofs.Stream.Questions

/-!
# Results on demand

The cells of a lazy repetition may be kept, and asked in any order and as often as one likes. The
parser is applied once to make the stream, and once more whenever the tail of the last cell is asked
for; what it has found is kept, and where it has raised an error it is applied again from the same
state. Nothing else happens outside of the library.

* `Turn`: an application of the repeated parser
* `ParserId.Answer`, `comes_ask_parse`: a tail that has not been computed applies the parser once
* `Turn.Unrolls`: the cells that the applications have made
* `Turn.Chain`: between the applications nothing happens outside of the library
* `Unrolling`, `Unrolling.Step`: the cells that somebody keeps, and questions to them
* `results_are_computed_on_demand`: what every history leaves
-/

namespace ResumableParsing

variable {W : Type}

/-! ## Applications -/

/-- One application of the repeated parser. -/
structure Turn (W : Type) where
  /-- The tail that has asked for it; nobody asks for the first one. -/
  tail : Option TailId
  /-- The state in which the parser has been applied. -/
  state : State Value
  /-- The store before. -/
  before : Store W
  /-- What the parser has come to. -/
  outcome : EStateM.Result Stop (Store W) (Finish W)

/-- The store after the application. -/
def Turn.after (t : Turn W) : Store W := left t.outcome

/-- The application has raised an error: the parser has failed after consuming, or a fault has
broken it off. -/
def Turn.Raised (t : Turn W) : Prop :=
  match t.outcome with
  | .ok (.reply (.err true _ _)) _ => True
  | .error _ _ => True
  | _ => False

/-- The application was asked for by this tail, and starts in its state. -/
def Turn.For (t : Turn W) (i : TailId) (s : State Value) : Prop := t.tail = some i ∧ t.state = s

/-- What a question for the rest of a cell comes to, given what the application comes to that its
tail has asked for: a success or the end is kept, an error is not. -/
inductive ParserId.Answer (all : ParserId) (i : TailId) (s : State Value) :
    EStateM.Result Stop (Store W) (Finish W) → EStateM.Result Stop (Store W) Stream.Finding →
    Prop where
  /-- Another cell. -/
  | cell {d : Bool} {v : Value} {t : State Value} {n : Nat} {j : TailId} {σ τ : Store W} :
      σ.Inward τ → i.Is τ (.parse all s) (.known (some (.lazy n v j))) →
      j.Is τ (.parse all t) .unset →
      Answer all i s (.ok (.reply (.ok d v t)) σ) (.ok (.onward (.lazy n v j)) τ)
  /-- The end. -/
  | ended {e : ParseError Value} {t : State Value} {σ τ : Store W} :
      σ.Inward τ → i.Is τ (.parse all s) (.known (some .nil)) →
      Answer all i s (.ok (.reply (.err false e t)) σ) (.ok (.onward .nil) τ)
  /-- The parser waits for a chunk; that is kept as well. -/
  | waits {q : Request W} {σ τ : Store W} :
      σ.Inward τ → i.Is τ (.parse all s) (.known none) →
      Answer all i s (.ok (.request q) σ) (.error (.raised .waitingTail) τ)
  /-- A failure after consuming. -/
  | failed {e : ParseError Value} {t : State Value} {σ τ : Store W} :
      σ.Inward τ → i.Is τ (.parse all s) .unset →
      Answer all i s (.ok (.reply (.err true e t)) σ) (.error (.raised (.noParse e)) τ)
  /-- A fault. -/
  | stop {e : Stop} {σ τ : Store W} : σ.Inward τ → i.Is τ (.parse all s) .unset →
      Answer all i s (.error e σ) (.error e τ)

/-! ### Asking for a tail -/

/-- What a question for the rest of a cell comes to, given what the computation of its tail has come
to. -/
def TailId.filled (i : TailId) : EStateM.Result Stop (Store W) (Option (Stream Value)) →
    EStateM.Result Stop (Store W) Stream.Finding
  | .ok (some t) σ => .ok (.onward t) (Shelf.tails.put i.index (.known (some t)) σ)
  | .ok none σ => .error (.raised .waitingTail) (Shelf.tails.put i.index (.known none) σ)
  | .error e σ => .error e (Shelf.tails.put i.index .unset σ)

section

variable {σ τ : Store W} {p all : ParserId} {i j : TailId} {x : Tail W} {s : State Value}
  {y : EStateM.Result Stop (Store W) Stream.Finding}
  {z : EStateM.Result Stop (Store W) (Option (Stream Value))}

/-- What is found once the tail has been looked at. -/
def Stream.onward (o : Option (Stream Value)) : Eval W Stream.Finding :=
  match o with
  | some t => return .onward t
  | none => Eval.fault .waitingTail

theorem ask_rest (n : Nat) (v : Value) (i : TailId) :
    (Stream.lazy n v i).ask .rest = (Eval.force (.tail i) : Eval W _) >>= Stream.onward := by
  simp only [Stream.ask, Stream.rest, bind_assoc]
  refine congrArg _ (funext fun o => ?_)
  cases o <;> rfl

/-- A tail that has not been computed is computed, once. -/
theorem comes_ask_rest (unset : i.Is σ x .unset) (n : Nat) (v : Value) :
    ((Stream.lazy n v i).ask .rest).Comes σ y ↔
      ∃ z, x.compute.Comes (Shelf.tails.put i.index .busy σ) z ∧ y = i.filled z := by
  have answers {z : EStateM.Result Stop (Store W) (Option (Stream Value))}
      (hz : x.compute.Comes (Shelf.tails.put i.index .busy σ) z) :
      ((Stream.lazy n v i).ask .rest).Comes σ (i.filled z) := by
    have force := Shelf.comes_get_unset (force_tail i) unset hz
    rw [ask_rest]
    rcases z with ⟨_ | t, τ⟩ | ⟨e, τ⟩
    · exact comes_bind_ok force (comes_fault _ _)
    · exact comes_bind_ok force (comes_pure _ _)
    · exact comes_bind_error force
  constructor
  · intro run
    -- The question has an outcome, so the computation of the tail has one.
    have computed : ∃ z, x.compute.Comes (Shelf.tails.put i.index .busy σ) z := by
      rw [ask_rest] at run
      obtain ⟨z, force⟩ := run.first_of_bind (.force _)
      obtain ⟨z', run, -⟩ := Shelf.of_comes_get (force_tail i) (composed_compute x) unset force
      exact ⟨z', run⟩
    obtain ⟨z, hz⟩ := computed
    exact ⟨z, hz, run.unique (answers hz)⟩
  · rintro ⟨z, hz, rfl⟩
    exact answers hz

/-- A tail that is known answers, and nothing changes. -/
theorem comes_ask_kept {o : Option (Stream Value)} (h : i.Is σ x (.known o)) (n : Nat) (v : Value) :
    ((Stream.lazy n v i).ask .rest).Comes σ (match o with
      | some t => .ok (.onward t) σ
      | none => .error (.raised .waitingTail) σ) := by
  rw [ask_rest]
  refine comes_bind_ok (Shelf.comes_get_known (force_tail i) h) ?_
  cases o with
  | some t => exact comes_pure _ σ
  | none => exact comes_fault _ σ

/-- What the computation of a tail comes to that opens the repetition. -/
theorem ParserId.Opening.answer {z : EStateM.Result Stop (Store W) (Finish W)}
    {y : EStateM.Result Stop (Store W) (Except (Request W) Value)} (h : all.Opening z y)
    (run : (all.parseState s).Comes σ y) (busy : i.Is (left y) (.parse all s) .busy) :
    ∃ w, (Tail.parse all s : Tail W).compute.Comes σ w ∧ all.Answer i s z (i.filled w) := by
  have put (slot : Slot (Option (Stream Value))) (σ : Store W) := Store.Inward.put i.index slot σ
  cases h with
  | @cell d v t n j σ' τ inward unset =>
    have ne : i.index ≠ j.index := TailId.Is.ne busy unset (by simp)
    refine ⟨_, comes_bind_ok run (comes_pure _ τ), ?_⟩
    exact .cell (inward.trans (put _ τ)) (busy.put _) (unset.put_other ne _)
  | @ended e t σ' τ inward =>
    exact ⟨_, comes_bind_ok run (comes_pure _ τ), .ended (inward.trans (put _ τ)) (busy.put _)⟩
  | @failed e t σ' => exact ⟨_, comes_bind_error run, .failed (put _ σ') (busy.put _)⟩
  | @waits q q' σ' =>
    exact ⟨_, comes_bind_ok run (comes_pure _ σ'), .waits (put _ σ') (busy.put _)⟩
  | @stop e σ' => exact ⟨_, comes_bind_error run, .stop (put _ σ') (busy.put _)⟩

/-- A tail that has not been computed applies the parser once, in its own state. -/
theorem comes_ask_parse (h : p.Repetition σ all) (unset : i.Is σ (.parse all s) .unset) :
    ∃ υ, (Shelf.tails.put i.index .busy σ).Noted υ ∧ ∀ n v,
      (∀ z, (p.run s).Comes υ z → ∃ y, ((Stream.lazy n v i).ask .rest).Comes σ y ∧
        all.Answer i s z y) ∧
      ∀ y, ((Stream.lazy n v i).ask .rest).Comes σ y →
        ∃ z, (p.run s).Comes υ z ∧ all.Answer i s z y := by
  obtain ⟨υ, noted, onward, back⟩ := (h.later unset.grows_busy).comes_parseState s
  have busy {y : EStateM.Result Stop (Store W) (Except (Request W) Value)}
      (run : (all.parseState s).Comes (Shelf.tails.put i.index .busy σ) y) :
      i.Is (left y) (.parse all s) .busy := by
    obtain ⟨slot, found, hs | rfl⟩ :=
      (unset.put .busy).later ((composed_parseState all s).grows_of_comes run)
    · cases hs
    · exact found
  refine ⟨υ, noted, fun n v => ⟨fun z hz => ?_, fun y hy => ?_⟩⟩
  · obtain ⟨y, run, opening⟩ := onward z hz
    obtain ⟨w, compute, answer⟩ := opening.answer run (busy run)
    exact ⟨_, (comes_ask_rest unset n v).mpr ⟨w, compute, rfl⟩, answer⟩
  · obtain ⟨w, compute, rfl⟩ := (comes_ask_rest unset n v).mp hy
    obtain ⟨y, run⟩ := compute.first_of_bind (composed_parseState all s)
    obtain ⟨z, hz, opening⟩ := back y run
    obtain ⟨w', compute', answer⟩ := opening.answer run (busy run)
    cases compute.unique compute'
    exact ⟨z, hz, answer⟩

end

/-! ## The cells that have been made -/

/-- `t.Unrolls all σ s ts cs`: the application `t` has made the stream `s`, and the later
applications `ts` have made, one behind the other, the cells `cs`. The application behind a cell
starts in the state of the reply that has made the cell. If it raises an error the next one starts
there again, until one does not: that has made the next cell, or found the end, and is not followed
by another one. -/
inductive Turn.Unrolls (all : ParserId) (σ : Store W) :
    Turn W → Stream Value → List (Turn W) → List (Stream Value) → Prop where
  /-- The end of the results. -/
  | ended {t : Turn W} {e : ParseError Value} {u : State Value} {τ : Store W} :
      t.outcome = .ok (.reply (.err false e u)) τ → Unrolls all σ t .nil [] [.nil]
  /-- The last cell so far. -/
  | last {t : Turn W} {d : Bool} {v : Value} {u : State Value} {τ : Store W} {n : Nat} {i : TailId}
      {ts : List (Turn W)} : t.outcome = .ok (.reply (.ok d v u)) τ →
      i.Is σ (.parse all u) .unset → (∀ f ∈ ts, f.For i u ∧ f.Raised) →
      Unrolls all σ t (.lazy n v i) ts [.lazy n v i]
  /-- The application behind the last cell waits for a chunk. -/
  | waits {t w : Turn W} {d : Bool} {v : Value} {u : State Value} {τ τ' : Store W} {n : Nat}
      {i : TailId} {q : Request W} {ts : List (Turn W)} : t.outcome = .ok (.reply (.ok d v u)) τ →
      i.Is σ (.parse all u) (.known none) → (∀ f ∈ ts, f.For i u ∧ f.Raised) →
      w.For i u → w.outcome = .ok (.request q) τ' →
      Unrolls all σ t (.lazy n v i) (ts ++ [w]) [.lazy n v i]
  /-- A cell, and what comes behind it. -/
  | more {t t' : Turn W} {d : Bool} {v : Value} {u : State Value} {τ : Store W} {n : Nat}
      {i : TailId} {s : Stream Value} {ts ts' : List (Turn W)} {cs : List (Stream Value)} :
      t.outcome = .ok (.reply (.ok d v u)) τ → i.Is σ (.parse all u) (.known (some s)) →
      (∀ f ∈ ts, f.For i u ∧ f.Raised) → t'.For i u → Unrolls all σ t' s ts' cs →
      Unrolls all σ t (.lazy n v i) (ts ++ t' :: ts') (.lazy n v i :: cs)

/-- What is found at a stream that needs no application to answer. -/
inductive Stream.Finds (σ : Store W) : Stream Value → Stream.Question →
    EStateM.Result Stop (Store W) Stream.Finding → Prop where
  /-- The end answers at once. -/
  | nil (q : Stream.Question) : Finds σ .nil q (q.found none σ)
  /-- A cell is not empty. -/
  | isEmpty {n : Nat} {v : Value} {i : TailId} :
      Finds σ (.lazy n v i) .isEmpty (.ok (.empty false) σ)
  /-- A cell holds its first element. -/
  | first {n : Nat} {v : Value} {i : TailId} : Finds σ (.lazy n v i) .first (.ok (.element v) σ)
  /-- The tail is known. -/
  | rest {n : Nat} {v : Value} {i : TailId} {x : Tail W} {t : Stream Value} :
      i.Is σ x (.known (some t)) → Finds σ (.lazy n v i) .rest (.ok (.onward t) σ)
  /-- The tail is known to wait. -/
  | waiting {n : Nat} {v : Value} {i : TailId} {x : Tail W} : i.Is σ x (.known none) →
      Finds σ (.lazy n v i) .rest (.error (.raised .waitingTail) σ)

section

variable {σ τ : Store W} {all : ParserId} {i : TailId} {x : Tail W} {s c : Stream Value}
  {q : Stream.Question} {y : EStateM.Result Stop (Store W) Stream.Finding} {t turn : Turn W}
  {ts : List (Turn W)} {cs : List (Stream Value)} {n : Nat} {v : Value} {u : State Value}

theorem Stream.Finds.comes (h : s.Finds σ q y) : (s.ask q).Comes σ y := by
  cases h with
  | nil => exact comes_ask_nil
  | isEmpty => exact comes_bind_ok (comes_pure _ σ) (comes_pure _ σ)
  | first => exact comes_bind_ok (comes_pure _ σ) (comes_pure _ σ)
  | rest known => exact comes_ask_kept known _ _
  | waiting known => exact comes_ask_kept known _ _

/-- Such an answer changes nothing. -/
theorem Stream.Finds.left (h : s.Finds σ q y) : left y = σ := by
  cases h with
  | nil => exact q.left_found none σ
  | _ => rfl

namespace Turn.Unrolls

theorem mem_self (h : t.Unrolls all σ s ts cs) : s ∈ cs := by
  cases h with
  | _ => exact List.mem_cons_self

/-- What is found at a cell that has been made is a cell that has been made. -/
theorem holds (h : t.Unrolls all σ s ts cs) (mem : c ∈ cs) (found : c.Finds σ q y) :
    ∀ c' ∈ Stream.holds [] y, c' ∈ cs := by
  induction h with
  | ended =>
    cases List.mem_singleton.mp mem
    cases found with
    | nil q => cases q <;> simp [Stream.holds, Stream.Question.found]
  | last _ unset =>
    cases List.mem_singleton.mp mem
    cases found with
    | rest known => cases (unset.unique known).2
    | _ => simp [Stream.holds]
  | waits _ waiting =>
    cases List.mem_singleton.mp mem
    cases found with
    | rest known => cases (waiting.unique known).2
    | _ => simp [Stream.holds]
  | more _ known _ _ behind ih =>
    rcases List.mem_cons.mp mem with rfl | mem
    · cases found with
      | rest known' =>
        cases (known.unique known').2
        simp [Stream.holds, behind.mem_self]
      | _ => simp [Stream.holds]
    · exact fun c' h => List.mem_cons_of_mem _ (ih mem c' h)

/-- A question to a cell that has been made is answered from what is known, or it asks for a tail
that is not known. -/
theorem answered (h : t.Unrolls all σ s ts cs) (mem : c ∈ cs) (q : Stream.Question) :
    (∃ y, c.Finds σ q y) ∨
      ∃ n v i u, c = .lazy n v i ∧ q = .rest ∧ i.Is σ (.parse all u) .unset := by
  have cell {n : Nat} {v : Value} {i : TailId} {u : State Value}
      {slot : Slot (Option (Stream Value))} (is : i.Is σ (.parse all u) slot)
        (idle : slot ≠ .busy) :
      (∃ y, (Stream.lazy n v i).Finds σ q y) ∨ ∃ n' v' i' u, Stream.lazy n v i = .lazy n' v' i' ∧
        q = .rest ∧ i'.Is σ (.parse all u) .unset := by
    cases q with
    | isEmpty => exact .inl ⟨_, .isEmpty⟩
    | first => exact .inl ⟨_, .first⟩
    | rest =>
      rcases slot with _ | _ | _ | t
      · exact .inr ⟨n, v, i, u, rfl, rfl, is⟩
      · exact absurd rfl idle
      · exact .inl ⟨_, .waiting is⟩
      · exact .inl ⟨_, .rest is⟩
  induction h with
  | ended =>
    cases List.mem_singleton.mp mem
    exact .inl ⟨_, .nil q⟩
  | last _ unset =>
    cases List.mem_singleton.mp mem
    exact cell unset (by simp)
  | waits _ waiting =>
    cases List.mem_singleton.mp mem
    exact cell waiting (by simp)
  | more _ known _ _ _ ih =>
    rcases List.mem_cons.mp mem with rfl | mem
    · exact cell known (by simp)
    · exact ih mem

/-- The next application, behind the last cell. -/
theorem apply (h : t.Unrolls all σ s ts cs) (mem : .lazy n v i ∈ cs)
    (unset : i.Is σ (.parse all u) .unset) (next : turn.For i u)
    (answer : all.Answer i u turn.outcome y) (g : σ.Grows (left y)) :
    t.Unrolls all (left y) s (ts ++ [turn]) (cs ++ Stream.holds [] y) := by
  induction h with
  | ended => cases List.mem_singleton.mp mem
  | waits _ waiting =>
    cases List.mem_singleton.mp mem
    cases (unset.unique waiting).2
  | more made known raised first behind ih =>
    rcases List.mem_cons.mp mem with same | mem
    · cases same
      cases (unset.unique known).2
    · rw [List.append_assoc, List.cons_append, List.cons_append]
      exact .more made (known.known_later g) raised first (ih mem)
  -- This is the last cell, and its tail is the one that is asked for.
  | @last t d v' u' τ' n' i' ts made unset' raised =>
    cases List.mem_singleton.mp mem
    cases (unset.unique unset').1
    generalize hz : turn.outcome = z at answer
    -- After an error the tail can be asked for again.
    have again (is : i.Is (left y) (.parse all u) .unset) (failed : turn.Raised) :
        t.Unrolls all (left y) (.lazy n v i) (ts ++ [turn]) [.lazy n v i] := by
      refine .last made is fun f hf => ?_
      rcases List.mem_append.mp hf with hf | hf
      · exact raised f hf
      · cases List.mem_singleton.mp hf
        exact ⟨next, failed⟩
    cases answer with
    | cell _ known fresh => exact .more made known raised next (.last hz fresh (by simp))
    | ended _ known => exact .more made known raised next (.ended hz)
    | waits _ waiting => exact .waits made waiting raised next hz
    | failed _ unset => exact again unset (by rw [Raised, hz]; trivial)
    | stop _ unset => exact again unset (by rw [Raised, hz]; trivial)

end Turn.Unrolls

end

/-! ## Between the applications -/

/-- From the first store to the last one these applications have been run, one after another, and
nothing else has happened outside of the library. -/
inductive Turn.Chain (p : ParserId) : Store W → List (Turn W) → Store W → Prop where
  /-- There are no more applications. -/
  | done {σ τ : Store W} : σ.Inward τ → Chain p σ [] τ
  /-- The next application. -/
  | turn {σ τ : Store W} {t : Turn W} {ts : List (Turn W)} : σ.Inward t.before →
      (p.run t.state).Comes t.before t.outcome → Chain p t.after ts τ → Chain p σ (t :: ts) τ

section

variable {σ τ υ : Store W} {p : ParserId} {t : Turn W} {ts : List (Turn W)}

theorem Turn.Chain.snoc (h : Chain p σ ts τ) (before : τ.Inward t.before)
    (run : (p.run t.state).Comes t.before t.outcome) (after : t.after.Inward υ) :
    Chain p σ (ts ++ [t]) υ := by
  induction h with
  | done inward => exact .turn (inward.trans before) run (.done after)
  | turn inward genuine _ ih => exact .turn inward genuine (ih before)

theorem Turn.Chain.run (h : Chain p σ ts τ) (mem : t ∈ ts) :
    (p.run t.state).Comes t.before t.outcome := by
  induction h with
  | done => cases mem
  | turn _ genuine _ ih =>
    rcases List.mem_cons.mp mem with rfl | mem
    · exact genuine
    · exact ih mem

/-- What the library does on its own changes nothing of this, so if it has changed, one of the
applications has changed it. -/
theorem Turn.Chain.changed {α : Type} (f : Store W → α)
    (same : ∀ σ τ : Store W, σ.Inward τ → f τ = f σ) (h : Chain p σ ts τ) :
    f τ = f σ ∨ ∃ t ∈ ts, f t.after ≠ f t.before := by
  induction h with
  | done inward => exact .inl (same _ _ inward)
  | @turn σ τ t ts inward _ _ ih =>
    by_cases changed : f t.after = f t.before
    · rcases ih with ih | ⟨t', mem, changed'⟩
      · exact .inl (ih.trans (changed.trans (same _ _ inward)))
      · exact .inr ⟨t', List.mem_cons_of_mem t mem, changed'⟩
    · exact .inr ⟨t, List.mem_cons_self, changed⟩

end

/-! ## Keeping cells and asking them -/

/-- The cells of a lazy repetition that somebody keeps, and what has been done. -/
structure Unrolling (W : Type) where
  /-- The store. -/
  store : Store W
  /-- The cells that are kept, or the end of the stream. -/
  kept : List (Stream Value)
  /-- The applications of the parser, the latest last. -/
  turns : List (Turn W)

/-- One of the cells is asked. -/
inductive Unrolling.Step (p all : ParserId) : Unrolling W → Unrolling W → Prop where
  /-- It answers from what is known. -/
  | look {r : Unrolling W} {s : Stream Value} {q : Stream.Question}
      {y : EStateM.Result Stop (Store W) Stream.Finding} : s ∈ r.kept → (s.ask q).Comes r.store y →
      s.Finds r.store q y →
      Step p all r { r with store := left y, kept := Stream.holds r.kept y }
  /-- Its tail is not known, and applies the parser. -/
  | apply {r : Unrolling W} {n : Nat} {v : Value} {i : TailId} {t : Turn W}
      {y : EStateM.Result Stop (Store W) Stream.Finding} : .lazy n v i ∈ r.kept →
      ((Stream.lazy n v i).ask .rest).Comes r.store y → i.Is r.store (.parse all t.state) .unset →
      t.tail = some i → (Shelf.tails.put i.index .busy r.store).Noted t.before →
      (p.run t.state).Comes t.before t.outcome → all.Answer i t.state t.outcome y →
      Step p all r ⟨left y, Stream.holds r.kept y, r.turns ++ [t]⟩

/-- What is kept by every step. -/
structure Unrolling.Kept (p all : ParserId) (σ : Store W) (first : Turn W) (s : Stream Value)
    (ts : List (Turn W)) (cs : List (Stream Value)) (r : Unrolling W) : Prop where
  /-- The parser of all results is there. -/
  repetition : p.Repetition r.store all
  /-- The applications. -/
  turns : r.turns = first :: ts
  /-- They have made the cells. -/
  unrolls : first.Unrolls all r.store s ts cs
  /-- The cells that are kept are among them. -/
  kept : ∀ c ∈ r.kept, c ∈ cs
  /-- An application that some tail has asked for has started in the state of the tail. If it has
  not raised an error the tail is known. -/
  settled : ∀ t ∈ r.turns, ∀ i, t.tail = some i → ∃ slot,
    i.Is r.store (.parse all t.state) slot ∧ (t.Raised ∨ ∃ o, slot = .known o)
  /-- A tail asks for another application only if the earlier ones have raised errors, and then from
  the same state. -/
  once : r.turns.Pairwise fun t t' => ∀ i, t.tail = some i → t'.tail = some i →
    t.Raised ∧ t'.state = t.state
  /-- Between the applications nothing has happened. -/
  chain : Turn.Chain p σ r.turns r.store

section

variable {σ : Store W} {p all : ParserId} {first : Turn W} {s : Stream Value} {ts : List (Turn W)}
  {cs : List (Stream Value)} {r r' : Unrolling W}

theorem Stream.mem_holds {kept : List (Stream Value)}
    {y : EStateM.Result Stop (Store W) Stream.Finding} {c : Stream Value}
    (h : c ∈ Stream.holds kept y) : c ∈ Stream.holds [] y ∨ c ∈ kept := by
  rcases y with ⟨_ | _ | s, τ⟩ | ⟨e, τ⟩
  · exact .inr h
  · exact .inr h
  · simpa [holds] using h
  · exact .inr h

theorem ParserId.Answer.after {i : TailId} {u : State Value}
    {z : EStateM.Result Stop (Store W) (Finish W)}
    {y : EStateM.Result Stop (Store W) Stream.Finding} (h : all.Answer i u z y) :
    (left z).Inward (left y) := by
  cases h <;> assumption

/-- The tail is known after an application that has not raised an error. -/
theorem ParserId.Answer.settled {i : TailId} {t : Turn W}
    {y : EStateM.Result Stop (Store W) Stream.Finding} (h : all.Answer i t.state t.outcome y) :
    ∃ slot, i.Is (left y) (.parse all t.state) slot ∧ (t.Raised ∨ ∃ o, slot = .known o) := by
  generalize hz : t.outcome = z at h
  cases h with
  | cell _ known => exact ⟨_, known, .inr ⟨_, rfl⟩⟩
  | ended _ known => exact ⟨_, known, .inr ⟨_, rfl⟩⟩
  | waits _ known => exact ⟨_, known, .inr ⟨_, rfl⟩⟩
  | failed _ unset => exact ⟨_, unset, .inl (by rw [Turn.Raised, hz]; trivial)⟩
  | stop _ unset => exact ⟨_, unset, .inl (by rw [Turn.Raised, hz]; trivial)⟩

/-- Every step keeps it. -/
theorem Unrolling.Step.kept (step : Unrolling.Step p all r r') (h : r.Kept p all σ first s ts cs) :
    ∃ ts' cs', r'.Kept p all σ first s (ts ++ ts') (cs ++ cs') := by
  cases step with
  | @look c q y mem run found =>
    refine ⟨[], [], ?_⟩
    rw [List.append_nil, List.append_nil, found.left]
    refine { h with kept := fun c' hc' => ?_ }
    rcases Stream.mem_holds hc' with hc' | hc'
    · exact h.unrolls.holds (h.kept c mem) found c' hc'
    · exact h.kept c' hc'
  | @apply n v i t y mem run unset asked noted genuine answer =>
    have g : r.store.Grows (left y) := (Stream.composed_ask _ _).grows_of_comes run
    refine ⟨[t], Stream.holds [] y, ?_⟩
    constructor
    case repetition => exact h.repetition.later g
    case turns => simp [h.turns]
    case unrolls => exact h.unrolls.apply (h.kept _ mem) unset ⟨asked, rfl⟩ answer g
    case kept =>
      intro c hc
      rcases Stream.mem_holds hc with hc | hc
      · exact List.mem_append_right cs hc
      · exact List.mem_append_left _ (h.kept c hc)
    case settled =>
      intro t' mem' j hj
      rcases List.mem_append.mp mem' with mem' | mem'
      · obtain ⟨slot, is, raised | ⟨o, rfl⟩⟩ := h.settled t' mem' j hj
        · obtain ⟨slot', is, -⟩ := is.later g
          exact ⟨slot', is, .inl raised⟩
        · exact ⟨_, is.known_later g, .inr ⟨o, rfl⟩⟩
      · cases List.mem_singleton.mp mem'
        cases asked.symm.trans hj
        exact answer.settled
    -- A tail that was asked for before is known by now, or it has raised an error each time.
    case once =>
      refine List.pairwise_append.mpr ⟨h.once, List.pairwise_singleton _ _, ?_⟩
      intro t' mem' t'' mem'' j hj hj'
      cases List.mem_singleton.mp mem''
      cases asked.symm.trans hj'
      obtain ⟨slot, is, done⟩ := h.settled t' mem' i hj
      obtain ⟨same, rfl⟩ := is.unique unset
      injection same with _ same
      exact ⟨done.resolve_right (by simp), same.symm⟩
    case chain =>
      exact h.chain.snoc ((Store.Inward.put _ _ _).trans noted.inward) genuine answer.after

/-- Whatever is asked of a cell that is kept is a step. -/
theorem Unrolling.Kept.step (h : r.Kept p all σ first s ts cs) {c : Stream Value}
    (mem : c ∈ r.kept) {q : Stream.Question} {y : EStateM.Result Stop (Store W) Stream.Finding}
    (run : (c.ask q).Comes r.store y) :
    ∃ r', Step p all r r' ∧ r'.store = left y ∧ r'.kept = Stream.holds r.kept y := by
  rcases h.unrolls.answered (h.kept c mem) q with ⟨y', found⟩ | ⟨n, v, i, u, rfl, rfl, unset⟩
  · cases run.unique found.comes
    exact ⟨_, .look mem run found, rfl, rfl⟩
  · obtain ⟨υ, noted, asks⟩ := comes_ask_parse h.repetition unset
    obtain ⟨z, genuine, answer⟩ := (asks n v).2 y run
    let t : Turn W := ⟨some i, u, υ, z⟩
    have step : Step p all r ⟨left y, Stream.holds r.kept y, r.turns ++ [t]⟩ :=
      .apply mem run unset rfl noted genuine answer
    exact ⟨_, step, rfl, rfl⟩

/-- So is a series of questions. -/
theorem Unrolling.Kept.inquiry (h : r.Kept p all σ first s ts cs) {held : List (Stream Value)}
    {τ : Store W} (inquiry : Stream.Inquiry r.kept r.store held τ) :
    ∃ r', Relation.ReflTransGen (Step p all) r r' ∧ r'.store = τ ∧ r'.kept = held := by
  generalize hh : r.kept = held₀ at inquiry
  generalize hs : r.store = σ₀ at inquiry
  induction inquiry generalizing r ts cs with
  | done => exact ⟨r, .refl, hs, hh⟩
  | ask mem run _ ih =>
    subst hh hs
    obtain ⟨r₁, step, hs, hh⟩ := h.step mem run
    obtain ⟨ts₁, cs₁, h₁⟩ := step.kept h
    obtain ⟨r₂, steps, rest⟩ := ih h₁ hh hs
    exact ⟨r₂, .head step steps, rest⟩

/-- What is known stays, and so do the applications that have been run. -/
theorem Unrolling.Step.later (step : Step p all r r') :
    r.turns <+: r'.turns ∧ r.store.Grows r'.store := by
  cases step with
  | look _ run _ => exact ⟨List.prefix_rfl, (Stream.composed_ask _ _).grows_of_comes run⟩
  | apply _ run => exact ⟨List.prefix_append _ _, (Stream.composed_ask _ _).grows_of_comes run⟩

/-! ### Histories -/

theorem Unrolling.history_kept (h : r.Kept p all σ first s ts cs)
    (history : Relation.ReflTransGen (Step p all) r r') :
    ∃ ts' cs', r'.Kept p all σ first s (ts ++ ts') (cs ++ cs') := by
  induction history with
  | refl => exact ⟨[], [], by simpa using h⟩
  | tail _ step ih =>
    obtain ⟨ts₁, cs₁, h₁⟩ := ih
    obtain ⟨ts₂, cs₂, h₂⟩ := step.kept h₁
    exact ⟨ts₁ ++ ts₂, cs₁ ++ cs₂, by simpa using h₂⟩

theorem Unrolling.history_later (history : Relation.ReflTransGen (Step p all) r r') :
    r.turns <+: r'.turns ∧ r.store.Grows r'.store := by
  induction history with
  | refl => exact ⟨List.prefix_rfl, .refl _⟩
  | tail _ step ih => exact ⟨ih.1.trans step.later.1, ih.2.trans step.later.2⟩

/-- Building the repetition and applying the parser once. -/
theorem comes_runMany {u : State Value} {y : EStateM.Result Stop (Store W)
    (Except (Request W) Value)}
    (run : (p.runMany u).Comes σ y) : ∃ all, ∃ first : Turn W, first.tail = none ∧ first.state = u ∧
      σ.Inward first.before ∧ (p.run u).Comes first.before first.outcome ∧
      all.Opening first.outcome y ∧ p.Repetition (left y) all := by
  obtain ⟨-, -, repetition⟩ := repetition_repeatedly p σ
  have built : σ.Inward (p.repeatedly σ).2 :=
    ⟨(p.repeatedly σ).2.log, (p.repeatedly σ).2.nextSerial, (p.repeatedly σ).2.tails,
      (p.repeatedly σ).2.parsers, rfl⟩
  have opens : ((p.repeatedly σ).1.parseState u).Comes (p.repeatedly σ).2 y := run
  obtain ⟨υ, noted, -, back⟩ := repetition.comes_parseState u
  obtain ⟨z, genuine, opening⟩ := back y opens
  refine ⟨_, ⟨none, u, υ, z⟩, rfl, rfl, built.trans noted.inward, genuine, opening, ?_⟩
  exact repetition.later ((composed_parseState _ u).grows_of_comes opens)

end

/-- How the cells of a lazy repetition answer that somebody keeps, and what has happened since the
store `σ`, in which the stream was made. -/
structure Unrolling.OnDemand (p all : ParserId) (σ : Store W) (r : Unrolling W) : Prop where
  /-- What is known is found, and nothing changes. -/
  known : ∀ (c : Stream Value) q y, c.Finds r.store q y →
    (c.ask q).Comes r.store y ∧ left y = r.store
  /-- A tail that is not known applies the parser once, in the state behind its cell: the question
  comes to something if and only if the application does, and to what is made of that. -/
  unset : ∀ (i : TailId) s, i.Is r.store (.parse all s) .unset →
    ∃ υ, (Shelf.tails.put i.index .busy r.store).Noted υ ∧ ∀ n v,
      (∀ z, (p.run s).Comes υ z →
        ∃ y, ((Stream.lazy n v i).ask .rest).Comes r.store y ∧ all.Answer i s z y) ∧
      ∀ y, ((Stream.lazy n v i).ask .rest).Comes r.store y →
        ∃ z, (p.run s).Comes υ z ∧ all.Answer i s z y
  /-- Whatever is asked of a cell that is kept is a step. -/
  asked : ∀ c ∈ r.kept, ∀ q y, (c.ask q).Comes r.store y →
    ∃ r', Step p all r r' ∧ r'.store = left y ∧ r'.kept = Stream.holds r.kept y
  /-- Iterating over the stream from such a cell is a series of steps. -/
  walked : ∀ c ∈ r.kept, ∀ n done y, (c.walkFrom n done).Comes r.store y →
    ∃ r', Relation.ReflTransGen (Step p all) r r' ∧ r'.store = left y
  /-- The applications that have been run, and the tails that are known, stay what they are. -/
  later : ∀ r', Relation.ReflTransGen (Step p all) r r' → r.turns <+: r'.turns ∧
    ∀ (i : TailId) x o, i.Is r.store x (.known o) → i.Is r'.store x (.known o)
  /-- Elements have been taken from iterators by the applications alone. -/
  iterators : ∀ i : Nat, r.store.iterators[i]? = σ.iterators[i]? ∨
    ∃ t ∈ r.turns, t.after.iterators[i]? ≠ t.before.iterators[i]?
  /-- They stand in cells of the input into which one of the applications has looked. -/
  inspected : ∀ c : Nat, r.store.cells[c]? = σ.cells[c]? ∨
    ∃ t ∈ r.turns, t.after.cells[c]? ≠ t.before.cells[c]?

/-- The results of a lazy repetition are computed on demand and once. Making the stream applies the
parser once. Its cells may be kept, and asked in any order and as often as one likes, by single
questions or by walks. Then the parser is applied once more when the tail of the last cell is asked
for, in the state of the reply that has made the cell, and at no other time. If it succeeds or finds
the end, that is kept, is never computed again, and is the same for all walks. If it raises an error
the cells stay as they are, and the next question for that tail applies it again in the same state.
Between the applications nothing happens outside of the library, so elements of iterators have been
taken only where these applications have looked. -/
theorem results_are_computed_on_demand {p : ParserId} {s : State Value} {σ : Store W}
    {y : EStateM.Result Stop (Store W) (Except (Request W) Value)} (run : (p.runMany s).Comes σ y) :
    ∃ all, ∃ first : Turn W, first.tail = none ∧ first.state = s ∧ σ.Inward first.before ∧
      (p.run s).Comes first.before first.outcome ∧ all.Opening first.outcome y ∧
      ∀ c τ, y = .ok (.ok (.stream c)) τ → ∀ r,
        Relation.ReflTransGen (Unrolling.Step p all) ⟨τ, [c], [first]⟩ r →
          ∃ ts cs, r.Kept p all σ first c ts cs ∧ r.OnDemand p all σ := by
  obtain ⟨all, first, asked, state, before, genuine, opening, repetition⟩ := comes_runMany run
  refine ⟨all, first, asked, state, before, genuine, opening, ?_⟩
  rintro c τ rfl r history
  -- The stream has been opened, and nothing behind its first cell has been asked for.
  have start : ∃ cs, Unrolling.Kept p all σ first c [] cs ⟨τ, [c], [first]⟩ := by
    have chain (after : first.after.Inward τ) : Turn.Chain p σ [first] τ :=
      .turn before (state ▸ genuine) (.done after)
    have settled : ∀ t ∈ [first], ∀ i, t.tail = some i → ∃ slot,
        i.Is τ (.parse all t.state) slot ∧ (t.Raised ∨ ∃ o, slot = .known o) := by
      intro t mem i hi
      cases List.mem_singleton.mp mem
      cases asked.symm.trans hi
    generalize hz : first.outcome = z at opening
    cases opening with
    | cell inward unset =>
      exact ⟨_, repetition, rfl, .last hz unset (by simp), by simp, settled,
        List.pairwise_singleton _ _, chain (by rwa [Turn.after, hz])⟩
    | ended inward =>
      exact ⟨_, repetition, rfl, .ended hz, by simp, settled,
        List.pairwise_singleton _ _, chain (by rwa [Turn.after, hz])⟩
  obtain ⟨cs, start⟩ := start
  obtain ⟨ts, cs', kept⟩ := Unrolling.history_kept start history
  refine ⟨_, _, kept, ?_⟩
  constructor
  case known => exact fun c q y found => ⟨found.comes, found.left⟩
  case unset => exact fun i s unset => comes_ask_parse kept.repetition unset
  case asked => exact fun c mem q y run => kept.step mem run
  case walked =>
    intro c mem n done y run
    obtain ⟨held, inquiry⟩ := Stream.Inquiry.walk mem run
    obtain ⟨r', steps, store, -⟩ := kept.inquiry inquiry
    exact ⟨r', steps, store⟩
  case later =>
    intro r' onward
    obtain ⟨turns, g⟩ := Unrolling.history_later onward
    exact ⟨turns, fun i x o known => known.known_later g⟩
  case iterators =>
    intro i
    apply kept.chain.changed fun τ => τ.iterators[i]?
    rintro σ _ ⟨log, n, tails, parsers, rfl⟩
    rfl
  case inspected =>
    intro c
    apply kept.chain.changed fun τ => τ.cells[c]?
    rintro σ _ ⟨log, n, tails, parsers, rfl⟩
    rfl

/-- The parser of one token, applied to an iterator. One element has been taken when the stream is
made, and a second one when the rest of its first cell is asked for. -/
theorem results_are_computed_on_demand_from_iterator :
    let token : Cell Unit := { direct := some (.body (.some ⟨0⟩ fun _ => .done true)) }
    let σ : Store Unit :=
      { world := (), watch := fun _ _ => (),
        iterators := #[.caller (fun n w => (.item (.int n), w)) 0],
        cells := #[⟨⟨0⟩, .unset⟩], parsers := #[token] }
    let p : ParserId := ⟨0⟩
    let taken (τ : Store Unit) : Option Nat := τ.iterators[0]?.map fun
      | .caller _ n => n
      | _ => 0
    ∃ c τ, (p.runMany (.plain false (.pulled ⟨0⟩) 0 .none)).Comes σ (.ok (.ok (.stream c)) τ) ∧
      taken τ = some 1 ∧ ∃ all first r,
        Relation.ReflTransGen (Unrolling.Step p all) ⟨τ, [c], [first]⟩ r ∧ r.OnDemand p all σ ∧
        taken r.store = some 2 := by
  intro token σ p taken
  let s : State Value := .plain false (.pulled ⟨0⟩) 0 .none
  -- The run is evaluated, with the number of elements that have been taken at each point.
  have script : succeeded ((do
      let v ← Eval.deref (← (p.repeatedly σ).1.parseState s).toOption
      let c ← Stream.ofValue v
      let once := taken (← get)
      discard (c.ask .rest)
      unless once = some 1 ∧ taken (← get) = some 2 do Eval.fault .notAStream
      : Eval Unit Unit).exec 15 (p.repeatedly σ).2) = true := by decide +kernel
  obtain ⟨_, _, script⟩ := exists_of_succeeded script
  obtain ⟨made, τ, parsed, script⟩ := ok_of_bind script
  obtain ⟨v, _, found, script⟩ := ok_of_bind script
  obtain ⟨c, _, stream, script⟩ := ok_of_bind script
  rcases made with q | v
  · cases found
  cases found
  cases v with
  | stream s' =>
    cases stream
    have run : (p.runMany s).Comes σ (.ok (.ok (.stream c)) τ) :=
      comes_bind_ok (comes_of_forall (fun _ => rfl) not_exhausted_ok)
        ((composed_parseState _ s).comes parsed not_exhausted_ok)
    obtain ⟨_, τ', asked, script⟩ := ok_of_bind (x := discard (c.ask .rest)) (f := fun _ => do
      unless taken τ = some 1 ∧ taken (← get) = some 2 do Eval.fault .notAStream) script
    obtain ⟨found, _, asked, e⟩ := ok_of_bind (x := c.ask .rest) (f := fun _ => pure ()) asked
    cases e
    have asked := (Stream.composed_ask .rest c).comes asked not_exhausted_ok
    have counts : taken τ = some 1 ∧ taken τ' = some 2 := by
      by_contra h
      rw [Eval.run_bind, Eval.run_get] at script
      simp only [if_neg h] at script
      cases script
    obtain ⟨all, first, -, -, -, -, -, histories⟩ := results_are_computed_on_demand run
    obtain ⟨ts, cs, kept, onDemand⟩ := histories c τ rfl _ .refl
    obtain ⟨r, step, store, -⟩ := onDemand.asked c List.mem_cons_self .rest _ asked
    obtain ⟨ts', cs', kept', onDemand'⟩ := histories c τ rfl r (.single step)
    exact ⟨c, τ, run, counts.1, all, first, r, .single step, onDemand',
      by rw [store]; exact counts.2⟩
  | _ => cases stream

end ResumableParsing
