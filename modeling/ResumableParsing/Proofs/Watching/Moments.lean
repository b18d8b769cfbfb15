import ResumableParsing.Proofs.Watching.Ledger

/-!
# Asking once

A parser that accepts a token asks the state inside the chunk to move on. If somebody has moved on
from there before, the way is known. Otherwise nobody has asked there yet: the parse has come by the
latest state or has gone back to one that it kept, and their ways are known up to states where
nobody has asked.

* `Task.Moment`: a run at its next step
* `audited_reach`: the state behind a token is remembered
* `audited_enter`: a parser that reads a token is started
* `audited_cross`: a state is moved past its first token
* `audited_step`, `audited_complete`: a step, and a run
-/

namespace ResumableParsing

variable {W α : Type}

/-! ## The moments of a run -/

/-- The state is going to ask with its first token, for the first time. -/
structure AdvanceId.Asks (σ : Store W) (asked : List Ask) (a : AdvanceId) (input : Stream Value)
    (token : Option Value) : Prop where
  /-- It is not in the ledger. -/
  new : ∀ x ∈ asked, x.state ≠ a
  /-- The token is its first one. -/
  head : ∃ v, token = some v ∧ input.Head σ v

/-- A run at its next step, after the calls `asked`. -/
inductive Task.Moment (P : ParserId → Prop) (σ : Store W) (asked : List Ask) : Task W → Prop where
  /-- It is between two tokens. -/
  | going {t : Task W} {a : AdvanceId} {l : List AdvanceId} :
      t.Holds P a l → Trail σ (fun _ => False) (a :: l) → Moment P σ asked t
  /-- It moves past a token. If nobody has moved on from there, the state is going to ask. -/
  | crossing {a : AdvanceId} {l : List AdvanceId} {k : Continuation W} (chunk : Int)
      (watched : Bool) (input : Stream Value) (position : Int) (user : Value) :
      Continuation.Holds P k l → Trail σ (· = a) (a :: l) →
      (∀ m, σ.advances[a.index]? = some m → m.next = none → a.Asks σ asked input m.token) →
      Moment P σ asked (.cross a chunk (.plain watched input position user) k)
  /-- The parser of a watched state is run. -/
  | settling {a : AdvanceId} {l : List AdvanceId} {k : Continuation W} (chunk : Int)
      (watched : Bool) (input : Stream Value) (position : Int) (user : Value) :
      Continuation.Holds P k l → Trail σ (· = a) (a :: l) → a.Open σ →
      Moment P σ asked (.settle (.plain watched input position user) (.crossed a chunk :: k))
  /-- It has replied with the state behind the token. -/
  | noting {a : AdvanceId} {l : List AdvanceId} {k : Continuation W} (chunk : Int)
      (watched : Bool) (input : Stream Value) (position : Int) (user : Value) :
      Continuation.Holds P k l → Trail σ (· = a) (a :: l) → a.Open σ →
      Moment P σ asked (.arrive (.plain watched input position user) (.crossed a chunk :: k))

/-- What a step leads to: the next moment of the run, or its end. -/
inductive Step.Goes (P : ParserId → Prop) (σ : Store W) (asked : List Ask) :
    Step (Task W) (Finish W) → Prop where
  | tail {t : Task W} : t.Moment P σ asked → Goes P σ asked (.tail t)
  | value {f : Finish W} : f.AtRest P σ → Goes P σ asked (.value f)

section

variable {P : ParserId → Prop} {n : Nat} {σ τ : Store W} {asked : List Ask} {a : AdvanceId}
  {chunk position : Int} {watched : Bool} {input : Stream Value} {user token : Value}
  {k : Continuation W} {l : List AdvanceId} {s : State Value} {m : Advance} {t : Task W}

/-- A task that goes on in the latest state or in one that was kept. -/
theorem Task.Stays.moment (h : t.Stays P a l) (trail : Trail σ (fun _ => False) (a :: l)) :
    t.Moment P σ asked := by
  obtain ⟨b, l', holds, sub⟩ := h
  exact .going holds (trail.twice.sublist sub)

theorem AdvanceId.Open.congr (h : a.Open σ) (same : τ.advances = σ.advances) : a.Open τ := by
  rwa [AdvanceId.Open, same]

/-- A state from which nobody has moved on. -/
theorem Store.Remembers.open_of_unknown (h : σ.Remembers) (found : σ.advances[a.index]? = some m)
    (unknown : m.next = none) : a.Open σ := by
  cases h _ _ found with
  | unknown token => exact ⟨token, found⟩
  | within => cases unknown
  | across => cases unknown

/-! ## Behind a token -/

/-- Behind the token the chunk is exhausted. -/
theorem audited_note_end (audit : Audit P σ asked) (hk : Continuation.Holds P k l)
    (trail : Trail σ (· = a) (a :: l)) (open_ : a.Open σ) :
    Audited P n σ asked (a.note chunk k (.plain watched input position user) true) []
      fun P' s τ => Step.Goes P' τ asked s := by
  obtain ⟨token, found⟩ := id open_
  let s : State Value := .plain watched input position user
  let τ : Store W := { σ with advances := σ.advances.modify a.index (Advance.goes true s) }
  have e : a.note chunk k s true (.within n) σ = .ok _ τ := note_end found _
  have grows : σ.Grows τ := (composed_note true).grows_of_ok e
  have recalls : σ.Recalls τ := .goes open_ rfl
  have trail : Trail τ (fun _ => False) (a :: l) := trail.across open_ rfl
  have full : a.Full τ := full_across open_ rfl
  refine .of_ok e ⟨fun _ hp => hp, grows, recalls⟩ (audit.recalled grows recalls ?_)
    (.value (.request ?_))
  · refine audit.remembers.modify rfl fun m hm => ?_
    cases found.symm.trans hm
    exact .across ..
  · exact .intro _ _ _ _ _ hk (trail.full full)

/-- There are more tokens in the chunk. -/
theorem audited_note_more (audit : Audit P σ asked) (hk : Continuation.Holds P k l)
    (trail : Trail σ (· = a) (a :: l)) (open_ : a.Open σ) :
    Audited P n σ asked (a.note chunk k (.plain watched input position user) false) []
      fun P' s τ => Step.Goes P' τ asked s := by
  obtain ⟨token, found⟩ := id open_
  let s : State Value := .plain watched input position user
  -- The memory of the next state is made first.
  let made : Store W := { σ with advances := σ.advances.push {} }
  let b : AdvanceId := ⟨σ.advances.size⟩
  let τ : Store W := { σ with
    advances := made.advances.modify a.index (Advance.goes false (.chunked b chunk s)) }
  have e : a.note chunk k s false (.within n) σ = .ok _ τ := note_more found _
  have grows : σ.Grows τ := (composed_note false).grows_of_ok e
  have found' : made.advances[a.index]? = some _ := getElem?_push_of_eq_some found {}
  have open' : a.Open made := ⟨_, found'⟩
  have fresh : b.Fresh made := Array.getElem?_push_size
  have other : b ≠ a := by
    rintro rfl
    cases fresh.symm.trans found'
    simp [b] at found
  have pushed : σ.Recalls made := .push rfl
  have recalls : σ.Recalls τ := pushed.trans (.goes open' rfl)
  have trail : Trail made (· = a) (a :: l) := trail.push rfl
  have trail : Trail τ (fun _ => False) (a :: l) := trail.within open' fresh other rfl
  have leads : a.Leads τ b := leads_within open' rfl
  refine .of_ok e ⟨fun _ hp => hp, grows, recalls⟩ (audit.recalled grows recalls ?_)
    (.tail (.going (.deliver (.intro ..) hk) (trail.onward leads)))
  have remembers : made.Remembers := audit.remembers.push rfl
  refine remembers.modify rfl fun m hm => ?_
  cases found'.symm.trans hm
  exact .within _ (.intro ..)

/-- The state behind the token is remembered, and the run goes there. -/
theorem audited_reach (audit : Audit P σ asked) (hk : Continuation.Holds P k l)
    (trail : Trail σ (· = a) (a :: l)) (open_ : a.Open σ) :
    Audited P n σ asked (a.reach chunk k (.plain watched input position user)) []
      fun P' s τ => Step.Goes P' τ asked s := by
  rw [reach_eq]
  refine .after audit ((quiet_isEmpty input).idles audit.refl) ?_
  rintro _ empty τ idle audit₁ rfl -
  have trail := trail.congr idle.clear.advances
  have open_ := open_.congr idle.clear.advances
  cases empty with
  | true => exact audited_note_end audit₁ hk trail open_
  | false => exact audited_note_more audit₁ hk trail open_

/-- The way past the token is known. -/
theorem audited_go (audit : Audit P σ asked) (hk : Continuation.Holds P k l)
    (trail : Trail σ (· = a) (a :: l)) (found : σ.advances[a.index]? = some m)
    (known : m.next.isSome) :
    Audited P n σ asked (m.go chunk k) [] fun P' s τ => Step.Goes P' τ asked s := by
  have trail : Trail σ (fun _ => False) (a :: l) := by
    refine trail.unexcept ?_
    rintro ⟨token, open_⟩
    cases found.symm.trans open_
    cases known
  cases audit.remembers _ _ found with
  | unknown => cases known
  | @within token s t hst =>
    cases hst with
    | intro b c w w' i p u =>
      have leads : a.Leads σ b := .single ⟨token, c, _, found⟩
      exact .pure audit (.tail (.going (.deliver (.intro ..) hk) (trail.onward leads)))
  | across token w w' i p u =>
    have full : a.Full σ := ⟨a, token, _, .refl, found⟩
    exact .pure audit (.value (.request (.intro _ _ _ _ _ hk (trail.full full))))

/-! ## Moving past a token -/

/-- What a state is told to become. -/
theorem told_plain {n : Nat} (e : State.told watched token input position user (.within n) σ =
    .ok s τ) :
    ∃ rest, s = .plain watched rest (position + 1) user := by
  cases watched with
  | false =>
    obtain ⟨rest, rfl, -⟩ := next_of_advance e
    exact ⟨rest, rfl⟩
  | true =>
    obtain ⟨_, σ₁, -, e⟩ := ok_of_bind e
    obtain ⟨rest, rfl, -⟩ := next_of_advance e
    exact ⟨rest, rfl⟩

/-- An unwatched state is moved past its token. -/
theorem audited_unwatched (audit : Audit P σ asked) (hk : Continuation.Holds P k l)
    (trail : Trail σ (· = a) (a :: l)) (open_ : a.Open σ) :
    Audited P n σ asked (Task.cross a chunk (.plain false input position user) k).step []
      fun P' s τ => Step.Goes P' τ asked s := by
  obtain ⟨token, found⟩ := id open_
  have step (m : Means W) : (Task.cross a chunk (.plain false input position user) k).step m σ =
      (State.told false (token.getD .none) input position user >>= a.reach chunk k) m σ := by
    rw [step_unwatched]
    simp [AdvanceId.crossing, AdvanceId.memory, State.behind, found]
  refine .of_eq (step _) (.after audit (quiet_told.idles audit.refl) ?_)
  rintro _ s τ idle audit₁ rfl e
  obtain ⟨rest, rfl⟩ := told_plain e
  exact audited_reach audit₁ hk (trail.congr idle.clear.advances) (open_.congr idle.clear.advances)

/-- A watched state asks for its parser. -/
theorem audited_watched (audit : Audit P σ asked) (hk : Continuation.Holds P k l)
    (trail : Trail σ (· = a) (a :: l)) {v : Value}
    (found : σ.advances[a.index]? = some ⟨some v, none, false⟩)
    (asks : a.Asks σ asked input (some v)) :
    Audited P n σ asked (Task.cross a chunk (.plain true input position user) k).step
      [⟨a, .plain true input position user, v⟩]
      fun P' s τ => Step.Goes P' τ (asked ++ [⟨a, .plain true input position user, v⟩]) s := by
  have step (m : Means W) : (Task.cross a chunk (.plain true input position user) k).step m σ =
      (do return .tail (.settle (← State.told true v input position user)
        (.crossed a chunk :: k)) : Eval W _) m σ := by
    rw [step_watched]
    simp [AdvanceId.memory, found]
  obtain ⟨_, same, head⟩ := asks.head
  cases same
  have spent : a.Spent σ := ⟨_, v, found, rfl⟩
  -- The call is entered before the parser is run.
  have audit : Audit P σ (asked ++ [⟨a, .plain true input position user, v⟩]) :=
    { audit with toLedger := audit.toLedger.add asks.new spent head }
  refine .of_eq (step _) (.of_idles audit ((quiet_told.idles audit.refl).along.bind ?_))
  rintro _ s τ - ⟨idle, rfl⟩ e
  obtain ⟨rest, rfl⟩ := told_plain e
  have open_ : a.Open σ := ⟨some v, found⟩
  exact .pure (.refl idle.closed idle.still) (.tail (.settling _ _ _ _ _ hk
    (trail.congr idle.clear.advances) (open_.congr idle.clear.advances)))

/-- A state is moved past its first token. -/
theorem audited_cross (audit : Audit P σ asked) (hk : Continuation.Holds P k l)
    (trail : Trail σ (· = a) (a :: l))
    (asks : ∀ m, σ.advances[a.index]? = some m → m.next = none → a.Asks σ asked input m.token) :
    let t : Task W := .cross a chunk (.plain watched input position user) k
    Audited P n σ asked t.step (t.asks σ) fun P' s τ => Step.Goes P' τ (asked ++ t.asks σ) s := by
  intro t
  have silent {Q : (ParserId → Prop) → Step (Task W) (Finish W) → Store W → Prop}
      (none : t.asks σ = []) (h : Audited P n σ asked t.step [] Q) :
      Audited P n σ asked t.step (t.asks σ) Q := none ▸ h
  cases found : σ.advances[a.index]? with
  | none =>
    have none : t.asks σ = [] := by cases watched <;> simp [t, Task.asks, found]
    refine silent none (.of_eq (y := throw .dangling) ?_ (.throw audit))
    simp [t, Task.step, AdvanceId.cross, AdvanceId.memory, found]
  | some m =>
    -- If somebody has moved on from there before, nobody is asked.
    cases known : m.next.isSome with
    | true =>
      have none : t.asks σ = [] := by
        obtain ⟨_, _ | s, _⟩ := m
        · cases known
        · cases watched <;> simp [t, Task.asks, found]
      refine silent none (.of_eq (y := m.go chunk k) ?_ ?_)
      · simp [t, Task.step, AdvanceId.cross, AdvanceId.memory, found, known]
      · rw [none, List.append_nil]
        exact audited_go audit hk trail found known
    | false =>
      have unknown : m.next = none := by simpa using known
      have asks := asks m found unknown
      have open_ : a.Open σ := audit.remembers.open_of_unknown found unknown
      obtain ⟨token, found'⟩ := id open_
      cases found.symm.trans found'
      obtain ⟨v, rfl, -⟩ := asks.head
      cases watched with
      | false =>
        have none : t.asks σ = [] := rfl
        refine silent none ?_
        rw [none, List.append_nil]
        exact audited_unwatched audit hk trail open_
      | true =>
        have one : t.asks σ = [⟨a, .plain true input position user, v⟩] := by
          simp [t, Task.asks, found]
        rw [one]
        exact audited_watched audit hk trail found asks

/-! ## Reading a token -/

/-- The state is asked to move past its first token. -/
theorem audited_next (audit : Audit P σ asked) (hs : s.Lies a) (hk : Continuation.Holds P k l)
    (trail : Trail σ (fun _ => False) (a :: l)) (head : s.input.Head σ token) :
    Audited P n σ asked (s.next token k) [] fun P' t τ => t.Moment P' τ asked := by
  cases hs with
  | intro chunk watched input position user =>
    let τ : Store W := { σ with advances := σ.advances.modify a.index (Advance.ask token) }
    have e : (State.chunked a chunk (.plain watched input position user)).next token k
        (.within n) σ =
        .ok (.cross a chunk (.plain watched input position user) k) τ := rfl
    have grows : σ.Grows τ := (composed_alter a (Advance.ask token)).grows_within 0 σ
    have recalls : σ.Recalls τ := .ask rfl
    have remembers : τ.Remembers := audit.remembers.ask rfl
    refine .of_ok e ⟨fun _ hp => hp, grows, recalls⟩ (audit.recalled grows recalls remembers)
      (.crossing _ _ _ _ _ hk (trail.ask rfl) fun m found unknown => ?_)
    -- If nobody has moved on from there, then nobody has asked there.
    have found : (σ.advances.modify a.index (Advance.ask token))[a.index]? = some m := found
    rw [lookup_modify, if_pos rfl] at found
    obtain ⟨m₀, found₀, rfl⟩ := Option.map_eq_some_iff.mp found
    have open_ : a.Open σ := audit.remembers.open_of_unknown found₀ unknown
    have fresh : a.Fresh σ := trail.fresh a List.mem_cons_self a .refl open_ not_false
    cases found₀.symm.trans fresh
    exact ⟨audit.toLedger.not_asked fresh, token, rfl, head.later grows.knows⟩

/-- A parser that reads a token is started. -/
theorem audited_enter {self : ParserId} {accepts : Value → Action W Bool}
    (audit : Audit P σ asked) (hf : ∀ v, (accepts v).Detached) (hs : s.Lies a)
    (hk : Continuation.Holds P k l) (trail : Trail σ (fun _ => False) (a :: l)) :
    Audited P n σ asked (Body.enter (.some self accepts) s k) []
      fun P' t τ => t.Moment P' τ asked := by
  have refuse {σ' : Store W} (audit : Audit P σ' asked)
      (trail : Trail σ' (fun _ => False) (a :: l)) (reason : Reason) :
      Audited P n σ' asked (Task.refuse reason [self] s k) []
        fun P' t τ => t.Moment P' τ asked := by
    refine (Audited.silent audit (idles_refuse audit.refl hs hk reason [self]).along).imp ?_
    rintro _ t τ ⟨idle, rfl, stays⟩
    exact stays.moment (trail.congr idle.clear.advances)
  refine .after audit ((quiet_isEmpty s.input).idles audit.refl) ?_
  rintro _ empty σ₁ idle₁ audit₁ rfl -
  have trail₁ := trail.congr idle₁.clear.advances
  cases empty with
  | true => exact refuse audit₁ trail₁ _
  | false =>
    refine .after audit₁ ((quiet_first s.input).idles audit₁.refl) ?_
    rintro _ token σ₂ idle₂ audit₂ rfl first
    have trail₂ := trail₁.congr idle₂.clear.advances
    refine .after audit₂ ((quiet_action (hf token)).idles audit₂.refl) ?_
    rintro _ accepted σ₃ idle₃ audit₃ rfl -
    have trail₃ := trail₂.congr idle₃.clear.advances
    cases accepted with
    | true =>
      have head : s.input.Head σ₃ token := (head_of_first first).later idle₃.grows.knows
      exact audited_next audit₃ hs (.cons (.matched token) hk) trail₃ head
    | false =>
      refine .after audit₃ ((Quiet.debug _).idles audit₃.refl) ?_
      rintro _ _ σ₄ idle₄ audit₄ rfl -
      exact .get (refuse audit₄ (trail₃.congr idle₄.clear.advances) _)

/-! ## Steps and runs -/

/-- A step between two tokens. -/
theorem audited_going (audit : Audit P σ asked) (ht : t.Holds P a l)
    (trail : Trail σ (fun _ => False) (a :: l)) :
    Audited P n σ asked t.step [] fun P' s τ => Step.Goes P' τ asked s := by
  by_cases reads : t.Reads
  · cases ht with
    | run => exact reads.elim
    | deliver => exact reads.elim
    | @code c _ _ _ _ hc hs hk =>
      cases c with
      | method p => exact reads.elim
      | body b =>
        cases b with
        | some self accepts =>
          refine (audited_enter audit hc.2 hs hk trail).follow fun P' t τ _ audit moment _ => ?_
          exact .pure audit (.tail moment)
        | _ => exact reads.elim
  · refine (Audited.silent audit (idles_step audit.refl ht reads).along).imp ?_
    rintro P' s τ ⟨idle, stays⟩
    cases stays with
    | tail ht => exact .tail (ht.moment (trail.congr idle.clear.advances))
    | reply r => exact .value (.reply r)

/-- A step asks at most once, and only where nobody has asked before. -/
theorem audited_step (audit : Audit P σ asked) (ht : t.Moment P σ asked) :
    Audited P n σ asked t.step (t.asks σ) fun P' s τ => Step.Goes P' τ (asked ++ t.asks σ) s := by
  cases ht with
  | going holds trail =>
    have none : t.asks σ = [] := by cases holds <;> rfl
    rw [none, List.append_nil]
    exact audited_going audit holds trail
  | crossing _ _ _ _ _ hk trail asks => exact audited_cross audit hk trail asks
  | @settling a _ k chunk w i p u hk trail open_ =>
    have none : (Task.settle (.plain w i p u) (.crossed a chunk :: k)).asks σ = [] := rfl
    rw [none, List.append_nil]
    refine .after audit ((Quiet.debug _).idles audit.refl) ?_
    rintro _ _ τ idle audit₁ rfl -
    refine .pure audit₁ (.tail (.noting _ _ _ _ _ hk ?_ ?_))
    · exact trail.congr idle.clear.advances
    · exact open_.congr idle.clear.advances
  | @noting a _ k chunk w i p u hk trail open_ =>
    have none : (Task.arrive (.plain w i p u) (.crossed a chunk :: k)).asks σ = [] := rfl
    rw [none, List.append_nil]
    exact audited_reach audit hk trail open_

/-- The steps of a run. -/
theorem audited_runFor (audit : Audit P σ asked) (ht : t.Moment P σ asked) (i : Nat) :
    Audited P n σ asked (t.runFor i) (t.asked (.within n) i σ) fun P' f τ => f.AtRest P' τ := by
  induction i generalizing P σ asked t with
  | zero => exact .throw audit
  | succ i ih =>
    refine (audited_step audit ht).bind fun P' s τ _ audit goes _ => ?_
    cases goes with
    | tail moment => exact ih audit moment
    | value rests => exact .pure audit rests

/-- A run up to its end. -/
theorem audited_complete (audit : Audit P σ asked) (ht : t.Moment P σ asked) :
    Audited P n σ asked t.complete (t.asked (.within n) n σ) fun P' f τ => f.AtRest P' τ :=
  .of_eq (y := t.runFor n) rfl (audited_runFor audit ht n)

end

end ResumableParsing
