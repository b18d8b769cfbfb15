import ResumableParsing.Proofs.Lookahead.Steps
import ResumableParsing.Proofs.Repetition.Cells

/-!
# Tokens are not taken ahead

A stream is read from an iterator, and parsers of the library are run on it. At every moment the
iterator has been asked at most once more than tokens have been consumed on some path that has been
tried. It does not matter how the runs end, and whether they belong to a stream of results.

* `ParserId.Offered`: what the caller runs
* `Supply.Tried`: histories of runs
* `Supply.Tried.kept`: what every history keeps
* `Supply.Tried.reaches`, `Supply.Tried.rest`: runs, and streams of results, are histories
* `tokens_are_not_taken_ahead`: so the iterator is asked no more often
-/

namespace ResumableParsing

variable {W : Type}

/-- The parser is one of the set, or the lazy repetition of one of them. -/
def ParserId.Offered (P : ParserId → Prop) (σ : Store W) (p : ParserId) : Prop :=
  P p ∨ ∃ q, P q ∧ q.Repetition σ p

namespace Supply

/-- Parsers of the set `P` have been run, the first one in the state `s₀`. The states of the list
have been tried, the latest one first, and the last run has come to a task. -/
inductive Tried (S : Supply W) (P : ParserId → Prop) (σ₀ : Store W) (s₀ : State Value) :
    List (State Value) → Task W → Store W → Prop where
  /-- A parser is started. -/
  | start {p : ParserId} : p.Offered P σ₀ → Tried S P σ₀ s₀ [s₀] (.run p s₀ []) σ₀
  /-- The run takes a step. -/
  | step {tried : List (State Value)} {t t' : Task W} {σ τ : Store W} :
      Tried S P σ₀ s₀ tried t σ → t.step.Comes σ (.ok (.tail t') τ) →
      Tried S P σ₀ s₀ (t'.state :: tried) t' τ
  /-- The run is over, and a parser is started in a state that has been tried: the tail of a stream
  of results is asked for, say. What else is done on the way leaves the iterator alone. -/
  | again {tried : List (State Value)} {t : Task W} {f : Finish W} {σ τ υ : Store W} {p : ParserId}
      {s : State Value} : Tried S P σ₀ s₀ tried t σ → t.step.Comes σ (.ok (.value f) τ) →
      τ.Untouched S.source υ → s ∈ tried → p.Offered P υ →
      Tried S P σ₀ s₀ (s :: tried) (.run p s []) υ
  /-- So it may be after a fault, if it was not the iterator that raised it. -/
  | retry {tried : List (State Value)} {t : Task W} {e : Stop} {σ τ υ : Store W} {p : ParserId}
      {s : State Value} : Tried S P σ₀ s₀ tried t σ → t.step.Comes σ (.error e τ) → S.Reliable →
      τ.Untouched S.source υ → s ∈ tried → p.Offered P υ →
      Tried S P σ₀ s₀ (s :: tried) (.run p s []) υ

/-- The iterator has been asked `k` times, and some state that has been tried is at most one token
behind. -/
def Covers (S : Supply W) (tried : List (State Value)) (k : Nat) : Prop :=
  ∃ s ∈ tried, (k : Int) ≤ s.position - S.position + 1

/-- What a history of runs keeps. -/
structure Kept (S : Supply W) (σ₀ : Store W) (tried : List (State Value)) (t : Task W)
    (σ : Store W) :
    Prop where
  /-- What has been found out is still so. -/
  onward : σ₀.Onward S.source σ
  /-- Not too many tokens have been taken. -/
  drawn : ∃ k, S.Drawn k σ ∧ S.Covers tried k
  /-- The run can go on. -/
  ready : S.Left σ (.tail t)
  /-- All states that have been tried are at places of the stream. -/
  stand : ∀ s ∈ tried, ∃ j, S.Stands σ j s

end Supply

section

variable {S : Supply W} {P : ParserId → Prop} {σ₀ σ τ υ : Store W} {s₀ s : State Value}
  {tried : List (State Value)} {t : Task W} {p : ParserId} {r : Reply Value} {j k k' : Nat}

/-- Whatever parser the caller runs, its results have an audience. -/
theorem ParserId.Offered.serves (h : p.Offered P σ) : ∃ a, p.Serves P σ a := by
  rcases h with hp | ⟨q, hq, cells, stop, all, bind, nil⟩
  · exact ⟨.someone, hp⟩
  · exact ⟨.nobody, _, all, .alt bind (.cells hq) nil (.pure _)⟩

namespace Supply

theorem Stands.position_eq (h : S.Stands σ j s) : s.position = S.position + j := by
  obtain ⟨w, c, u, rfl, -⟩ := h
  rfl

theorem Covers.mono (h : S.Covers tried k) (hk : k' ≤ k) : S.Covers tried k' := by
  obtain ⟨s, hs, le⟩ := h
  exact ⟨s, hs, by omega⟩

theorem Covers.cons (h : S.Covers tried k) (s : State Value) : S.Covers (s :: tried) k := by
  obtain ⟨s', hs, le⟩ := h
  exact ⟨s', List.mem_cons_of_mem s hs, le⟩

/-- A state at the place `j` allows a look at the cell with that number. -/
theorem Covers.look (h : S.Covers tried k) (hs : S.Stands σ j s) (mem : s ∈ tried)
    (hk : k' ≤ max k (j + 1)) : S.Covers tried k' := by
  rcases Nat.le_total (j + 1) k with le | le
  · exact h.mono (by omega)
  · exact ⟨s, mem, by rw [hs.position_eq]; omega⟩

/-- What a step of such a history comes to, whether it breaks off or not. -/
theorem Kept.step (h : S.Kept σ₀ tried t σ) (mem : t.state ∈ tried) (n : Nat) :
    match t.step.exec n σ with
    | .ok r τ => σ.Onward S.source τ ∧ (∃ k, S.Drawn k τ ∧ S.Covers tried k) ∧ S.Left τ r
    | .error _ τ => σ.Onward S.source τ ∧
        ∃ k, S.Asked k τ ∧ S.Covers tried k ∧ (S.Reliable → S.Drawn k τ) := by
  obtain ⟨k, drawn, covers⟩ := h.drawn
  -- A step looks at no cell beyond the place of its state, which has been tried.
  obtain ⟨P', all, j, ready⟩ := h.ready
  have allows := ready.step drawn all n
  have covered {k' : Nat} (hk : k' ≤ max k (j + 1)) : S.Covers tried k' :=
    covers.look ready.stands mem hk
  cases e : t.step.exec n σ with
  | ok r τ =>
    rw [e] at allows
    obtain ⟨onward, ⟨k', hk, drawn⟩, left⟩ := allows
    exact ⟨onward, ⟨k', drawn, covered hk⟩, left⟩
  | error f τ =>
    rw [e] at allows
    obtain ⟨onward, k', hk, asked, drawn⟩ := allows
    exact ⟨onward, k', asked, covered hk, drawn⟩

/-- A parser is started in a state that has been tried, after a run that has taken `k` tokens. -/
theorem Kept.restart (h : S.Kept σ₀ tried t σ) (all : AllDiscreet S.source P σ₀)
    (onward : σ.Onward S.source τ) (drawn : S.Drawn k τ) (covers : S.Covers tried k)
    (untouched : τ.Untouched S.source υ) (mem : s ∈ tried) (offered : p.Offered P υ) :
    S.Kept σ₀ (s :: tried) (.run p s []) υ := by
  have onward := onward.trans untouched.onward
  have since := h.onward.trans onward
  obtain ⟨j, stands⟩ := h.stand s mem
  obtain ⟨a, serves⟩ := offered.serves
  constructor
  · exact since
  · exact ⟨k, drawn.untouched untouched, covers.cons s⟩
  · exact ⟨P, all.later since.retains since.continues, j, stands.later onward, a, serves, .done a⟩
  · intro s' hs'
    obtain ⟨i, stands⟩ := h.stand s' (by
      rcases List.mem_cons.mp hs' with rfl | hs'
      · exact mem
      · exact hs')
    exact ⟨i, stands.later onward⟩

/-- The state that a task is about has been tried. -/
theorem Tried.mem (h : S.Tried P σ₀ s₀ tried t σ) : t.state ∈ tried := by
  cases h <;> exact List.mem_cons_self

/-- Every history keeps that much. -/
theorem Tried.kept (h : S.Tried P σ₀ s₀ tried t σ) (drawn : S.Drawn 0 σ₀)
    (all : AllDiscreet S.source P σ₀) (stands : S.Stands σ₀ 0 s₀) : S.Kept σ₀ tried t σ := by
  -- The induction is on the history. Each step takes tokens on behalf of the state it is about.
  induction h with
  | start offered =>
    obtain ⟨a, serves⟩ := offered.serves
    constructor
    · exact .refl _ σ₀
    · exact ⟨0, drawn, s₀, List.mem_cons_self, by rw [stands.position_eq]; omega⟩
    · exact ⟨P, all, 0, stands, a, serves, .done a⟩
    · intro s hs
      obtain rfl := List.mem_singleton.mp hs
      exact ⟨0, stands⟩
  | @step tried t t' σ τ h comes ih =>
    obtain ⟨-, n, e⟩ := comes
    have stepped := ih.step h.mem n
    rw [e n (Nat.le_refl n)] at stepped
    obtain ⟨onward, ⟨k, drawn, covers⟩, left⟩ := stepped
    constructor
    · exact ih.onward.trans onward
    · exact ⟨k, drawn, covers.cons _⟩
    · exact left
    · intro s hs
      rcases List.mem_cons.mp hs with rfl | hs
      · obtain ⟨P', -, j, ready⟩ := left
        exact ⟨j, ready.stands⟩
      · obtain ⟨j, stands⟩ := ih.stand s hs
        exact ⟨j, stands.later onward⟩
  | again h comes untouched mem offered ih =>
    obtain ⟨-, n, e⟩ := comes
    have stepped := ih.step h.mem n
    rw [e n (Nat.le_refl n)] at stepped
    obtain ⟨onward, ⟨k, drawn, covers⟩, -⟩ := stepped
    exact ih.restart all onward drawn covers untouched mem offered
  | retry h comes reliable untouched mem offered ih =>
    obtain ⟨-, n, e⟩ := comes
    have stepped := ih.step h.mem n
    rw [e n (Nat.le_refl n)] at stepped
    -- Had the iterator itself failed, the cell would be asked once more for the same token.
    obtain ⟨onward, k, -, covers, drawn⟩ := stepped
    exact ih.restart all onward (drawn reliable) covers untouched mem offered

/-- A run is a history, up to its last step. -/
theorem Tried.reaches (h : S.Tried P σ₀ s₀ tried t σ) {n : Nat}
    {y : EStateM.Result Stop (Store W) (Finish W)} (run : t.Reaches n σ y) :
    ∃ tried' t' σ' z, S.Tried P σ₀ s₀ tried' t' σ' ∧ t'.step.Comes σ' z ∧ left z = left y := by
  -- The last step is left out: it comes to the end of the run, and not to a task.
  induction run generalizing tried with
  | value comes => exact ⟨tried, _, _, _, h, comes, rfl⟩
  | error comes => exact ⟨tried, _, _, _, h, comes, rfl⟩
  | tail comes _ ih => exact ih (h.step comes)

/-- A result of a lazy repetition has a tail that runs the repetition again in the state of the
reply. To ask for that tail later is to go on with the history. -/
theorem Tried.rest (h : S.Tried P σ₀ s₀ tried (.deliver r []) σ) (since : σ.Untouched S.source τ)
    {i : TailId} (found : τ.tails[i.index]? = some ⟨.parse p r.state, .unset⟩)
    (offered : p.Offered P τ) :
    S.Tried P σ₀ s₀ (r.state :: tried) (.run p r.state []) (Shelf.tails.put i.index .busy τ) := by
  have ended : (Task.deliver r []).step.Comes σ (.ok (.value (.reply r)) σ) := comes_pure _ σ
  exact h.again ended (since.trans (since.alone.putParse found rfl .busy)) h.mem offered

/-- A new stream is read from the iterator. -/
theorem drawn_new (alone : σ.Private S.source) (asked : S.Asked 0 σ) {n : Nat}
    (made : (Source.iterator S.source).fromIterable.exec n σ = .ok (.pulled S.first) σ₀) :
    S.Drawn 0 σ₀ := by
  obtain ⟨first, rfl⟩ : ⟨σ.cells.size⟩ = S.first ∧
      { σ with cells := σ.cells.push ⟨S.source, .unset⟩ } = σ₀ := by
    change EStateM.Result.ok _ _ = _ at made
    simpa using made
  refine ⟨alone.pushCell S.source, asked, ?_⟩
  apply front_new
  rw [Store.over_push, ← first, Function.update_self]

end Supply

/-- A stream is read from an iterator, which nothing else leads to, and later parsers of the library
are run on it, in which the functions of the caller leave the iterator alone. At every moment, and
whatever comes of the runs, the number of questions to the iterator is at most by one greater than
the number of tokens that have been consumed in some state that has been tried. -/
theorem tokens_are_not_taken_ahead {w : Bool} {u : Value} {n : Nat} (alone : σ.Private S.source)
    (asked : S.Asked 0 σ)
    (made : (Source.iterator S.source).fromIterable.exec n σ = .ok (.pulled S.first) υ)
    (later : υ.Untouched S.source σ₀) (all : AllDiscreet S.source P σ₀)
    (h : S.Tried P σ₀ (.plain w (.pulled S.first) S.position u) tried t τ) (n' : Nat) :
    ∃ k, S.Asked k (left (t.step.exec n' τ)) ∧
      ∃ s ∈ tried, (k : Int) ≤ s.position - S.position + 1 := by
  have drawn := (Supply.drawn_new alone asked made).untouched later
  have stands : S.Stands σ₀ 0 (.plain w (.pulled S.first) S.position u) :=
    ⟨w, S.first, u, by simp, .first⟩
  have stepped := (h.kept drawn all stands).step h.mem n'
  cases e : t.step.exec n' τ with
  | ok r τ' =>
    rw [e] at stepped
    obtain ⟨-, ⟨k, drawn, covers⟩, -⟩ := stepped
    exact ⟨k, drawn.asked, covers⟩
  | error f τ' =>
    rw [e] at stepped
    obtain ⟨-, k, asked, covers, -⟩ := stepped
    exact ⟨k, asked, covers⟩

end

/-- A repetition runs over an iterator of two tokens, to the end. -/
theorem tokens_are_not_taken_ahead_two_tokens :
    let answer : Nat → Unit → Pull × Unit := fun n w =>
      (if n < 2 then .item (.int n) else .finished, w)
    let made := (Grammar.many (.some fun _ => .done true) : Grammar Unit).build
      { Store.initial () fun _ _ => () with iterators := #[.caller answer 0] }
    let start : State Value := .plain false (.pulled ⟨0⟩) 0 .none
    let S : Supply Unit := ⟨⟨0⟩, .caller answer 0, trivial, ⟨0⟩, 0⟩
    ∃ P σ r τ tried t υ k, (Source.iterator ⟨0⟩).fromIterable.exec 9 made.2 = .ok (.pulled ⟨0⟩) σ ∧
      (made.1.run start).exec 99 σ = .ok r τ ∧ S.Tried P σ start tried t υ ∧ S.Asked k τ ∧
      ∃ s ∈ tried, (k : Int) ≤ s.position - S.position + 1 := by
  intro answer made start S
  have base : Store.Private ⟨0⟩
      { Store.initial () fun _ _ => () with iterators := #[Iterator.caller answer 0] } := by
    refine ⟨fun i m hm => by simp [Store.initial] at hm,
      fun i m v s hm => by simp [Store.initial] at hm, fun i x hx => ?_⟩
    obtain ⟨_, rfl⟩ : ∃ h : i < 1, #[Iterator.caller answer 0][i] = x :=
      Array.getElem?_eq_some_iff.mp hx
    obtain rfl : i = 0 := by omega
    intro n w v e
    simp only [answer] at e
    split at e
    · cases e
      exact .int _
    · cases e
  have first : AllDiscreet ⟨0⟩ (fun p => p = .finished)
      { Store.initial () fun _ _ => () with iterators := #[Iterator.caller answer 0] } :=
    (allDiscreet_initial ⟨0⟩ () fun _ _ => ()).later
      ⟨fun _ m hm => ⟨m, hm, rfl⟩, fun _ m hm => ⟨m, hm, rfl⟩⟩ (.refl _)
  have library : (Grammar.many (.some fun _ => .done true) : Grammar Unit).Library
      (fun _ => True) fun p => p = .finished := .many (.some fun _ => trivial)
  have discreet : (Grammar.many (.some fun _ => .done true) : Grammar Unit).Discreet ⟨0⟩
      { Store.initial () fun _ _ => () with iterators := #[Iterator.caller answer 0] } :=
    .many (.some (discreet_done fun _ _ _ => trivial))
  obtain ⟨P, -, all, hp⟩ := first.build library discreet
  have alone : made.2.Private ⟨0⟩ :=
    (spared_build (m := .within 0) base (.many (.some fun _ => .done true))).1.alone
  let σ : Store Unit := { made.2 with cells := made.2.cells.push ⟨⟨0⟩, .unset⟩ }
  have opened : (Source.iterator ⟨0⟩).fromIterable.exec 9 made.2 = .ok (.pulled ⟨0⟩) σ := rfl
  have drawn := Supply.drawn_new (S := S) alone rfl opened
  have onward : made.2.Onward ⟨0⟩ σ := (Store.Adds.pushCell made.2 ⟨0⟩).toGrows.onward
  -- The run is evaluated; how often the iterator has been asked follows from the theorem.
  have script : succeeded ((made.1.run start).exec 99 σ) = true := by decide +kernel
  obtain ⟨r, τ, run⟩ := exists_of_succeeded script
  obtain ⟨n, reaches⟩ := comes_complete.mp
    ((composed_complete (.run made.1 start [])).comes run not_exhausted_ok)
  have started : S.Tried P σ start [start] (.run made.1 start []) σ := .start (.inl hp)
  obtain ⟨tried, t, υ, z, h, comes, last⟩ := started.reaches reaches
  obtain ⟨-, n', e⟩ := comes
  obtain ⟨k, asked, s, mem, le⟩ := tokens_are_not_taken_ahead (S := S) alone rfl opened
    (.refl drawn.alone) (all.later onward.retains onward.continues) h n'
  rw [e n' (Nat.le_refl n'), last] at asked
  exact ⟨P, σ, r, τ, tried, t, υ, k, opened, run, h, asked, s, mem, le⟩

end ResumableParsing
