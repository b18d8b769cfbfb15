import ResumableParsing.Proofs.Storage.Simulation

/-!
# How tokens are stored does not matter

A parser reads its input by three questions, and streams with the same elements answer them alike.
So a run on one of them comes to what a run on the other one comes to: the same outcome, the same
value or error, the same position and user state, and the same elements left.

* `Value.Corresponds`: values that are the same in two stores
* `State.Corresponds`, `ParseError.Corresponds`, `Reply.Corresponds`: so are states, errors, replies
* `storage_does_not_matter`: runs on streams with the same elements
-/

namespace ResumableParsing

variable {W α : Type}

/-! ## What is the same in two stores -/

/-- The values are the same, each in its own store: they are put together in the same way from data
and from deferred tails, and what belongs together is computed alike. -/
def Value.Corresponds (σ τ : Store W) (v w : Value) : Prop :=
  ∃ k : Pairing, k.Agree σ τ ∧ k.Like v w

/-- The states are at the same position with the same user state, and the same elements are left. -/
structure State.Corresponds (σ τ : Store W) (s t : State Value) : Prop where
  /-- The position. -/
  position : s.position = t.position
  /-- The user state. -/
  user : s.user = t.user
  /-- The elements that are left. -/
  input : ∃ x, s.input.Supplies σ x ∧ t.input.Supplies τ x

/-- The errors have the same message and expected names, and they are about the same place. -/
structure ParseError.Corresponds (σ τ : Store W) (e f : ParseError Value) : Prop where
  /-- What went wrong. -/
  message : e.message = f.message
  /-- The names of what could have stood there. -/
  names : e.expectedNames σ.names = f.expectedNames τ.names
  /-- Where it went wrong. -/
  state : e.state.Corresponds σ τ f.state

/-- The replies have the same outcome and the same contents. -/
inductive Reply.Corresponds (σ τ : Store W) : Reply Value → Reply Value → Prop where
  | ok {v w : Value} {s t : State Value} (d : Bool) : v.Corresponds σ τ w →
      s.Corresponds σ τ t → Corresponds σ τ (.ok d v s) (.ok d w t)
  | err {e f : ParseError Value} {s t : State Value} (d : Bool) : e.Corresponds σ τ f →
      s.Corresponds σ τ t → Corresponds σ τ (.err d e s) (.err d f t)

/-- Both runs end with the same reply, or break off for the same reason. -/
inductive Finish.Corresponds : EStateM.Result Stop (Store W) (Finish W) →
    EStateM.Result Stop (Store W) (Finish W) → Prop where
  | reply {r r' : Reply Value} {σ τ : Store W} :
      r.Corresponds σ τ r' → Corresponds (.ok (.reply r) σ) (.ok (.reply r') τ)
  | stop (e : Stop) (σ τ : Store W) : Corresponds (.error e σ) (.error e τ)

/-- A pure function of the caller does not tell values apart that are the same: it breaks off for
the same reason, or gives results that are the same. -/
theorem Value.Corresponds.observed {σ τ : Store W} {v w : Value} (h : v.Corresponds σ τ w)
    {f : Value → Action W Value} (pure : ∀ k : Pairing, k.Functions Pairing.Like f f) {a : Value}
    {σ' : Store W} (run : (f v).run.Comes σ (.ok a σ')) :
    ∃ b τ', (f w).run.Comes τ (.ok b τ') ∧ a.Corresponds σ' τ' b := by
  obtain ⟨k, agree, like⟩ := h
  -- Nothing else is known of the stores.
  let u : (Storage.setting W).correspondence.World := (k, ⟨.empty, .empty⟩)
  have stores : (Storage.setting W).correspondence.Stores u σ τ :=
    ⟨agree, .empty σ, .empty τ, fun _ _ => rfl, fun _ _ => rfl⟩
  have setting := (Storage.lawful W).pairs
  obtain ⟨r, run', ends⟩ := setting.action (fun _ _ _ _ hle h => h.mono hle)
    (pure k k v w (.refl k) like) u σ τ _ (setting.le (setting.refl u)) stores run
  obtain ⟨b, τ', u', rfl, -, ⟨agree', -⟩, hab⟩ := ends.of_ok
  exact ⟨b, τ', run', u'.1, agree', hab⟩

/-! ## Runs -/

namespace Storage

variable {w : (setting W).correspondence.World} {σ τ : Store W}

theorem corresponds_state (hs : Stores w.1 w.2 σ τ) {s t : State Value}
    (h : (setting W).States w.2 s t) : s.Corresponds σ τ t := by
  obtain ⟨x, h⟩ := h
  cases h with
  | plain hi hj _ => exact ⟨rfl, rfl, x, ⟨_, _, hs.left, hi⟩, ⟨_, _, hs.right, hj⟩⟩

theorem corresponds_error (agree : w.1.Agree σ τ) (hs : Stores w.1 w.2 σ τ)
    {e f : ParseError Value} (h : (setting W).correspondence.Errors w e f) :
    e.Corresponds σ τ f :=
  ⟨congrArg Reason.message h.reason, agree.defines.expectedNames_eq h.expected,
    corresponds_state hs h.state⟩

theorem corresponds_reply (agree : w.1.Agree σ τ) (hs : Stores w.1 w.2 σ τ) {r r' : Reply Value}
    (h : (setting W).correspondence.Replies w r r') : r.Corresponds σ τ r' := by
  cases h with
  | ok d hv ht => exact .ok d ⟨w.1, agree, hv⟩ (corresponds_state hs ht)
  | err d he ht => exact .err d (corresponds_error agree hs he) (corresponds_state hs ht)

/-- Two runs of pure parsers over streams with the same elements can begin. No tails belong together
yet, so none of them is among the contents. -/
theorem begins {P : ParserId → Prop} (agree : (Pairing.only P).Agree σ τ) {i j : Stream Value}
    {x : Elements} (hi : i.Supplies σ x) (hj : j.Supplies τ x) (data : ∀ v ∈ x, v.Settled)
    (watched : Bool) (position : Int) (user : Value) : ∃ w : (setting W).correspondence.World,
      (setting W).correspondence.Stores w σ τ ∧
      Same w.2 x (.plain watched i position user) (.plain watched j position user) ∧
      ∀ p, P p → (setting W).correspondence.Parsers w p p := by
  obtain ⟨κ, r, left, holds⟩ := hi
  obtain ⟨κ', r', right, holds'⟩ := hj
  refine ⟨(.only P, ⟨κ, κ'⟩), ⟨agree, left, right, ?_, ?_⟩, .plain holds holds' data,
    fun p hp => ⟨rfl, hp⟩⟩
  · rintro i ⟨j, ⟨⟩⟩
  · rintro j ⟨i, ⟨⟩⟩

/-- Where the left run comes to an end, the right one comes to a corresponding one: neither of them
waits for a chunk. -/
theorem comes {p p' : ParserId} {s t : State Value}
    (hs : (setting W).correspondence.Stores w σ τ) (ht : (setting W).correspondence.States w s t)
    (hp : (setting W).correspondence.Parsers w p p')
    {y : EStateM.Result Stop (Store W) (Finish W)} (hy : (p.run s).Comes σ y) :
    ∃ y', (p'.run t).Comes τ y' ∧
      (setting W).correspondence.Ends w (setting W).correspondence.Finishes y y' := by
  have lawful : (setting W).correspondence.Lawful := (Storage.lawful W).lawful
  obtain ⟨n, reaches⟩ := comes_complete.mp hy
  rcases lawful.reaches (fun _ _ _ _ _ h => h) (.run hp ht .nil) hs (Aim.at_plain reaches) with
    ⟨m, _, y', reaches', ⟨rfl, -⟩, ends⟩ | ⟨_, _, _, _, _, _, -, -, -, -, paused⟩
  · exact ⟨y', comes_complete.mpr ⟨m, reaches'⟩, ends⟩
  · obtain ⟨pausing, -⟩ := paused
    exact pausing.elim

/-- Ends that correspond are the same, each in its own store. -/
theorem corresponds_ends {y y' : EStateM.Result Stop (Store W) (Finish W)}
    (h : (setting W).correspondence.Ends w (setting W).correspondence.Finishes y y') :
    Finish.Corresponds y y' := by
  cases y with
  | error e σ' =>
    cases y' with
    | ok f τ' => exact h.elim
    | error e' τ' =>
      obtain ⟨rfl, -⟩ := h
      exact .stop e σ' τ'
  | ok f σ' =>
    cases y' with
    | error e τ' => exact h.elim
    | ok f' τ' =>
      obtain ⟨w', -, ⟨agree, hs⟩, finishes⟩ := h
      cases finishes with
      | reply hr => exact .reply (corresponds_reply agree hs hr)

/-- A run on the one stream comes to what a run on the other one comes to. -/
theorem finishes {P : ParserId → Prop} {p : ParserId} (pure : σ.Pure P) (hp : P p)
    {i j : Stream Value} {x : Elements} (hi : i.Supplies σ x) (hj : j.Supplies σ x)
    (data : ∀ v ∈ x, v.Settled) (watched : Bool) (position : Int) (user : Value)
    {y : EStateM.Result Stop (Store W) (Finish W)}
    (hy : (p.run (.plain watched i position user)).Comes σ y) :
    ∃ y', (p.run (.plain watched j position user)).Comes σ y' ∧ Finish.Corresponds y y' := by
  obtain ⟨w, stores, same, parsers⟩ := begins pure.agree hi hj data watched position user
  obtain ⟨y', hy', ends⟩ := comes stores ⟨x, same⟩ (parsers p hp) hy
  exact ⟨y', hy', corresponds_ends ends⟩

end Storage

/-- Parsing depends only on the tokens, not on how they are stored.

The parser is put together from the primitives and combinators of the library, recursive ones
included, with pure functions of the caller. Both streams supply the same elements, which are data:
they are views of sequences, cells whose tails are known or computed, one stream after another, or
what a one-shot iterator gives, or any mixture of these. At any position and with any user state, a
run on the one stream ends just where a run on the other one does, with the same outcome, the same
value or the same message and expected names at the same position, the same final position and user
state and the same elements left, or it breaks off for the same reason. -/
theorem storage_does_not_matter {P : ParserId → Prop} {p : ParserId} {σ : Store W}
    (pure : σ.Pure P) (hp : P p) {i j : Stream Value} {x : Elements} (hi : i.Supplies σ x)
    (hj : j.Supplies σ x) (data : ∀ v ∈ x, v.Settled) (watched : Bool) (position : Int)
    (user : Value) :
    (∀ y, (p.run (.plain watched i position user)).Comes σ y →
      ∃ y', (p.run (.plain watched j position user)).Comes σ y' ∧ Finish.Corresponds y y') ∧
    ∀ y', (p.run (.plain watched j position user)).Comes σ y' →
      ∃ y, (p.run (.plain watched i position user)).Comes σ y := by
  constructor
  · exact fun y hy => Storage.finishes pure hp hi hj data watched position user hy
  · intro y' hy'
    obtain ⟨y, hy, -⟩ := Storage.finishes pure hp hj hi data watched position user hy'
    exact ⟨y, hy⟩

/-- The elements of a one-shot iterator, which are taken only once: the second one is refused, and
the parser goes back to the first one. -/
theorem storage_does_not_matter_one_shot :
    let one : Cell Unit := { direct := some (.body (.some ⟨0⟩ fun v => .done (v.beq (.int 1)))) }
    let two : Cell Unit := { direct := some (.body (.seq ⟨0⟩ ⟨0⟩ .group)) }
    let attempt : Cell Unit := { direct := some (.body (.attempt ⟨1⟩)) }
    let either : Cell Unit := { direct := some (.body (.alt ⟨2⟩ ⟨0⟩)) }
    let answer (n : Nat) (w : Unit) : Pull × Unit :=
      (match ([.int 1, .int 2] : List Value)[n]? with
        | some v => .item v
        | none => .finished, w)
    let σ : Store Unit :=
      { world := (), watch := fun _ _ => (), parsers := #[one, two, attempt, either]
        iterators := #[.caller answer 0], cells := #[⟨⟨0⟩, .unset⟩] }
    ∃ t τ, ((⟨3⟩ : ParserId).run (.plain false (.pulled ⟨0⟩) 0 .none)).Comes σ
      (.ok (.reply (.ok true (.int 1) t)) τ) ∧ t.position = 1 ∧
      t.input.Supplies τ (.cons (.int 2) .nil) := by
  intro one two attempt either answer σ
  let P : ParserId → Prop := fun p => p.index < 4
  have pure : σ.Pure P := by
    have start (n : Nat) (h : n < 4) : (Pairing.only P).parsers ⟨n⟩ ⟨n⟩ := ⟨rfl, h⟩
    rintro ⟨_ | _ | _ | _ | n⟩ hp
    · exact ⟨one, rfl, rfl, rfl, .some (.some (start 0 (by decide)) fun _ _ _ _ => .done rfl),
        .none⟩
    · exact ⟨two, rfl, rfl, rfl,
        .some (.seq .group (start 0 (by decide)) (start 0 (by decide))), .none⟩
    · exact ⟨attempt, rfl, rfl, rfl, .some (.attempt (start 1 (by decide))), .none⟩
    · exact ⟨either, rfl, rfl, rfl,
        .some (.alt (start 2 (by decide)) (start 0 (by decide))), .none⟩
    · exact absurd (show n + 4 < 4 from hp) (by omega)
  let x : Elements := .cons (.int 1) (.cons (.int 2) .nil)
  let i : Stream Value := .cons 0 (.int 1) (.cons 0 (.int 2) .nil)
  have hi : i.Supplies σ x := ⟨.empty, 0, .empty σ, .cons (.cons .nil)⟩
  have answers : Provides answer 0 x := by
    refine ⟨fun n v w hn => ?_, fun n w hn hm => ?_⟩
    · obtain _ | _ | n := n
      · cases hn
        rfl
      · cases hn
        rfl
      · cases hn
    · obtain _ | _ | n := n
      · cases hn
      · cases hn
      · simp [answer]
  have hj : (Stream.pulled ⟨0⟩).Supplies σ x := by
    let κ : Contents := ⟨fun _ => none, fun c => if c = ⟨0⟩ then some (x, 0) else none⟩
    refine ⟨κ, 1, ⟨fun _ _ _ h => (by cases h), fun c y d hc => ?_, fun c c' it h h' => ?_⟩,
      .pulled rfl (by decide)⟩
    · by_cases e : c = ⟨0⟩
      · subst e
        cases hc
        exact ⟨_, rfl, fun _ => .unset rfl (.caller answers)⟩
      · simp [κ, e] at hc
    · have only {c : CellId} (h : (κ.cells c).isSome) : c = ⟨0⟩ := by
        by_contra e
        simp [κ, e] at h
      rw [only h.spoken, only h'.spoken]
  have data : ∀ v ∈ x, v.Settled := by
    intro v hv
    rcases Stream'.Seq.eq_or_mem_of_mem_cons hv with rfl | hv
    · exact .int 1
    · rcases Stream'.Seq.eq_or_mem_of_mem_cons hv with rfl | hv
      · exact .int 2
      · exact absurd hv (Stream'.Seq.notMem_nil _)
  -- The run over plain cells is evaluated; the one over the iterator follows from the theorem.
  obtain ⟨υ, plain⟩ : ∃ υ, ((⟨3⟩ : ParserId).run (.plain false i 0 .none)).Comes σ
      (.ok (.reply (.ok true (.int 1) (.plain false (.cons 0 (.int 2) .nil) 1 .none))) υ) :=
    ⟨_, (composed_complete _).comes (n := 40) rfl not_exhausted_ok⟩
  obtain ⟨y', run, same⟩ :=
    (storage_does_not_matter pure (p := ⟨3⟩) (by decide) hi hj data false 0 .none).1 _ plain
  cases same with
  | reply reply =>
    cases reply with
    | ok d value state =>
      obtain ⟨k, -, like⟩ := value
      obtain ⟨y, left, right⟩ := state.input
      have rest : (Stream.cons 0 (.int 2) .nil).Supplies υ (.cons (.int 2) .nil) :=
        ⟨.empty, 0, .empty υ, .cons .nil⟩
      cases like with
      | same _ => exact ⟨_, _, run, state.position.symm, rest.unique left ▸ right⟩

end ResumableParsing
