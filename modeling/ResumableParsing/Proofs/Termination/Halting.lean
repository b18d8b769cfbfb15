import ResumableParsing.Proofs.Direct.Comes
import ResumableParsing.Proofs.Termination.Finite

/-!
# Parsers that halt

A parser halts if it comes to a reply or breaks off in every state with a finite input, and if a
success leaves no more input than there was, and less of it after consuming. Each combinator makes
parsers that halt from parsers that halt. A repetition gets less and less input, because a round
that does not consume breaks it off.

* `Reply.Shrinks`: what the reply of such a parser leaves
* `Direct.Halts`, `ParserId.Halts`: programs and parsers that halt
* `Core.Halting`: trees of run functions whose parsers halt
* `Core.Halting.seq`, `Core.Halting.many` and so on: one lemma for each node
-/

namespace ResumableParsing

variable {W α : Type}

/-! ## What parsers come to -/

/-- The kinds of fault that a grammar is to blame for. -/
def Fault.IsGrammarError : Fault → Prop
  | .endlessRepetition _ => True
  | .undefinedParser => True
  | .undefinedDeclaration => True
  | _ => False

/-- What a parse may raise: the faults of the caller's functions, and errors of grammars. -/
def Fault.Allowed (U : Fault → Prop) (f : Fault) : Prop := U f ∨ f.IsGrammarError

/-- A success has a value of the kind `V`, and leaves an input of at most `n` tokens of the kind
`K`, or of fewer after consuming. -/
def Reply.Shrinks (K V : Values W) (n : Nat) (σ : Store W) : Reply Value → Prop
  | .ok d v t => V σ v ∧ ∃ k, t.Bounded K k σ ∧ k ≤ n ∧ (d = true → k < n)
  | .err .. => True

/-- What a parser that halts comes to. -/
def Upshot.Settled (U : Fault → Prop) (K V : Values W) (n : Nat) (σ : Store W) : Upshot → Prop
  | .reply r => r.Shrinks K V n σ
  | .stop e => ∃ f, e = .raised f ∧ f.Allowed U
  | .waits _ => False

/-- The program comes to a reply or breaks off. -/
def Direct.Halts (U : Fault → Prop) (K V : Values W) (n : Nat) (σ : Store W)
    (x : Direct W (Reply Value)) : Prop :=
  ∃ u τ, x.Comes σ u τ ∧ σ.Evolves τ ∧ u.Settled U K V n τ

/-- The parser halts in every later store and every state with a finite input of tokens of the kind
`K`, with a value of the kind `V`. -/
def ParserId.Halts (U : Fault → Prop) (K V : Values W) (σ : Store W) (p : ParserId) : Prop :=
  ∀ τ, σ.Evolves τ → ∀ n (s : State Value), s.Bounded K n τ →
    (Job.parser p s).direct.Halts U K V n τ

section

variable {U : Fault → Prop} {K V V' : Values W} {n m : Nat} {σ τ : Store W} {p : ParserId}
  {r : Reply Value} {u : Upshot}

theorem Reply.Shrinks.imp (h : r.Shrinks K V n σ) (hV : ∀ v, V σ v → V' σ v) (hn : n ≤ m) :
    r.Shrinks K V' m σ := by
  cases r with
  | ok d v t =>
    obtain ⟨hv, k, ht, hk, hd⟩ := h
    exact ⟨hV v hv, k, ht, by omega, fun h => by have := hd h; omega⟩
  | err d e t => trivial

/-- What has been consumed before a parser counts as consumed by it. -/
theorem Reply.Shrinks.consume (h : r.Shrinks K V n σ) (hn : n < m) : r.consume.Shrinks K V m σ := by
  cases r with
  | ok d v t =>
    obtain ⟨hv, k, ht, hk, -⟩ := h
    exact ⟨hv, k, ht, by omega, fun _ => by omega⟩
  | err d e t => trivial

theorem Upshot.Settled.isOver (h : u.Settled U K V n σ) : u.IsOver := by
  cases u with
  | reply r => trivial
  | stop e => trivial
  | waits i => exact h.elim

theorem ParserId.Halts.later (h : p.Halts U K V σ) (k : σ.Evolves τ) : p.Halts U K V τ :=
  fun υ k' => h υ (k.trans k')

end

/-! ## Programs -/

namespace Direct.Halts

variable {β : Type} {U : Fault → Prop} {K V V' : Values W} {n m : Nat} {σ τ : Store W}
  {r : Reply Value} {j : Job W} {k : Reply Value → Direct W (Reply Value)}
  {x : Eval W β} {f : β → Direct W (Reply Value)} {p : ParserId} {s : State Value}

theorem imp {y : Direct W (Reply Value)} (h : y.Halts U K V n σ) (hV : ∀ τ v, V τ v → V' τ v)
    (hn : n ≤ m) : y.Halts U K V' m σ := by
  obtain ⟨u, τ, comes, evolves, settled⟩ := h
  refine ⟨u, τ, comes, evolves, ?_⟩
  cases u with
  | reply r => exact Reply.Shrinks.imp settled (hV τ) hn
  | stop e => exact settled
  | waits i => exact settled

theorem done (h : r.Shrinks K V n σ) : (Direct.done r).Halts U K V n σ :=
  ⟨_, σ, .done r σ, .refl, h⟩

/-- What a program comes to after a step that leads to a later store. -/
theorem behind {y : Direct W (Reply Value)} {z : Direct W (Reply Value)}
    (h : z.Halts U K V n τ) (k : σ.Evolves τ)
    (step : ∀ u υ, z.Comes τ u υ → y.Comes σ u υ) : y.Halts U K V n σ := by
  obtain ⟨u, υ, comes, evolves, settled⟩ := h
  exact ⟨u, υ, step u υ comes, k.trans evolves, settled⟩

theorem act_ok {b : β} (hx : Composed x) (h : x.Comes σ (.ok b τ)) (hf : (f b).Halts U K V n τ) :
    (Direct.act x f).Halts U K V n σ :=
  hf.behind (hx.evolves h) fun _ _ comes => .act h comes

theorem act {Q : Store W → β → Prop} (hx : Composed x) (h : x.Settles U Q σ)
    (hf : ∀ b τ, σ.Evolves τ → x.Comes σ (.ok b τ) → Q τ b → (f b).Halts U K V n τ) :
    (Direct.act x f).Halts U K V n σ := by
  obtain ⟨b, τ, comes, hb⟩ | ⟨fault, τ, comes, hfault⟩ := h
  · exact act_ok hx comes (hf b τ (hx.evolves comes) comes hb)
  · exact ⟨_, τ, .actStop comes, hx.evolves comes, fault, rfl, .inl hfault⟩

/-- A change of the store that succeeds whatever the bound. -/
theorem change (hx : Composed x) {g : Store W → β × Store W}
    (h : ∀ m σ, x m σ = .ok (g σ).1 (g σ).2) (hf : (f (g σ).1).Halts U K V n (g σ).2) :
    (Direct.act x f).Halts U K V n σ := act_ok hx (comes_change h σ) hf

theorem call (hj : j.direct.Halts U K V m σ)
    (hk : ∀ r τ, σ.Evolves τ → r.Shrinks K V m τ → (k r).Halts U K V' n τ) :
    (Direct.call j k).Halts U K V' n σ := by
  obtain ⟨u, τ, comes, evolves, settled⟩ := hj
  cases u with
  | reply r => exact (hk r τ evolves settled).behind evolves fun _ _ h => .call comes h
  | stop e => exact ⟨_, τ, .callStop comes, evolves, settled⟩
  | waits i => exact settled.elim

theorem debug (message : Store W → String) {f : Unit → Direct W (Reply Value)}
    (hf : ∀ τ, σ.Evolves τ → (f ()).Halts U K V n τ) :
    (Direct.act (Eval.debug message) f).Halts U K V n σ := by
  obtain ⟨τ, noted, comes⟩ := comes_debug message σ
  exact act_ok (.debug message) comes (hf τ noted.evolves)

theorem refuse (reason : Reason) (expected : List ParserId) (s : State Value) :
    (Direct.refuse reason expected s).Halts U K V n σ :=
  change .serial (g := fun σ => (σ.nextSerial, { σ with nextSerial := σ.nextSerial + 1 }))
    (fun _ _ => rfl) (done trivial)

theorem fault {f : Fault} (h : f.IsGrammarError) {k : β → Direct W (Reply Value)} :
    (Direct.act (Eval.fault f) k).Halts U K V n σ :=
  ⟨_, σ, .actStop (comes_fault f σ), .refl, f, rfl, .inr h⟩

/-! ### Parsers -/

/-- A parser halts if its run function does. -/
theorem runs {code : Code W} (h : p.Runs σ code)
    (hc : ∀ τ, σ.Evolves τ → (Job.code code s).direct.Halts U K V n τ) :
    (Job.parser p s).direct.Halts U K V n σ := by
  obtain ⟨σ₁, noted, comes⟩ := h.comes s
  obtain ⟨u, τ, hu, evolves, settled⟩ := hc σ₁ noted.evolves
  exact ⟨u, τ, comes u τ settled.isOver hu, noted.evolves.trans evolves, settled⟩

/-- A run function that another definition has captured halts if the parser does. -/
theorem captured {code : Code W} (h : p.Captured σ code)
    (hp : (Job.parser p s).direct.Halts U K V n σ) : (Job.code code s).direct.Halts U K V n σ := by
  obtain ⟨u, τ, hu, evolves, settled⟩ := hp
  exact ⟨u, τ, h.comes settled.isOver hu, evolves, settled⟩

end Direct.Halts

/-! ## Run functions -/

section

variable {U : Fault → Prop} {K V V' : Values W} {n : Nat} {σ : Store W} {p q : ParserId}
  {s : State Value}

open Direct.Halts (done act act_ok change call debug refuse fault)

/-- Moving a plain state past a token leads to the state behind it, whose input is the rest. -/
theorem comes_past_of_rest (w : Bool) {i : Stream Value} (position : Int) (u : Value)
    {Q : Stream Value → Store W → Prop}
    (rest : ∀ τ, σ.Evolves τ → ∃ j υ, i.rest.Comes τ (.ok j υ) ∧ Q j υ)
    (later : ∀ j τ υ, Q j τ → τ.Evolves υ → Q j υ) (token : Value) :
    ∃ j τ, (Job.past (.plain w i position u) token).direct.Comes σ
      (.reply (.arrival (.plain w j (position + 1) u))) τ ∧ σ.Evolves τ ∧ Q j τ := by
  -- The step itself, once the token has been reported.
  have moved (σ₁ : Store W) (k : σ.Evolves σ₁) : ∃ j τ,
      (Direct.act ((State.plain w i position u).advance) fun t => Direct.act (Eval.debug fun _ =>
        "trying " ++ Task.settleName) fun _ => Direct.done (.arrival t)).Comes σ₁
          (.reply (.arrival (.plain w j (position + 1) u))) τ ∧ σ₁.Evolves τ ∧ Q j τ := by
    obtain ⟨j, υ, rest, hj⟩ := rest σ₁ k
    have advance : ((State.plain w i position u).advance : Eval W _).Comes σ₁
        (.ok (.plain w j (position + 1) u) υ) := comes_bind_ok rest (comes_pure _ υ)
    obtain ⟨τ, noted, debug⟩ := comes_debug (fun _ => "trying " ++ Task.settleName) υ
    refine ⟨j, τ, .act advance (.act debug (.done _ τ)), ?_, later j υ τ hj noted.evolves⟩
    exact ((composed_advance _).evolves advance).trans noted.evolves
  cases w with
  | false => exact moved σ .refl
  | true =>
    let tell (σ : Store W) : Store W := { σ with world := σ.watch token σ.world }
    have told : Composed (modify tell : Eval W Unit) := .modify fun σ => { Store.Adds.refl σ with }
    have comes : (modify tell : Eval W Unit).Comes σ (.ok () (tell σ)) :=
      comes_of_forall (fun _ => rfl) not_exhausted_ok
    have evolves : σ.Evolves (tell σ) := told.evolves comes
    obtain ⟨j, τ, h, k, hj⟩ := moved (tell σ) evolves
    exact ⟨j, τ, .act comes h, evolves.trans k, hj⟩

/-- Behind a token of a finite input there is less input. -/
theorem comes_past (hs : s.Bounded K n σ) (ho : s.input.Occupied σ) (token : Value) :
    ∃ t τ k, (Job.past s token).direct.Comes σ (.reply (.arrival t)) τ ∧ σ.Evolves τ ∧
      t.Bounded K k τ ∧ k < n := by
  cases s with
  | chunked a c s => exact hs.elim
  | plain w i position u =>
    have rest (τ : Store W) (k : σ.Evolves τ) :
        ∃ j υ, i.rest.Comes τ (.ok j υ) ∧ ∃ k, j.Finite K k υ ∧ k < n := by
      obtain ⟨-, t, υ, k, rest, ht⟩ := (Stream.Finite.later hs k).take (ho.later k.grows.knows)
      exact ⟨t, υ, rest, k, ht⟩
    obtain ⟨j, τ, past, evolves, k, hj, hk⟩ := comes_past_of_rest w position u rest
      (fun j τ υ ⟨k, hj, hk⟩ k' => ⟨k, hj.later k', hk⟩) token
    exact ⟨_, τ, k, past, evolves, hj, hk⟩

theorem halts_some (stable : K.Stable) (hs : s.Bounded K n σ) (self : ParserId)
    {f : Value → Action W Bool} (hf : K.Total U (fun _ _ => True) σ f) :
    ((Body.some self f).direct s).Halts U K K n σ := by
  obtain ⟨empty, σ₁, comes, occupied⟩ := hs.input.question
  have k₁ := (composed_isEmpty _).evolves comes
  refine act_ok (composed_isEmpty _) comes ?_
  cases empty with
  | true => exact refuse ..
  | false =>
    obtain ⟨⟨token, σ₂, first, htoken⟩, -⟩ := (hs.input.later k₁).take (occupied rfl)
    have k₂ := k₁.trans ((composed_first _).evolves first)
    refine act_ok (composed_first _) first (act (composed_action _) (hf σ₂ token k₂ htoken)
      fun accepted σ₃ k₃ _ _ => ?_)
    have known := (occupied rfl).later (((composed_first _).evolves first).trans k₃).grows.knows
    cases accepted with
    | true =>
      obtain ⟨t, σ₄, k, past, k₄, ht, hk⟩ := comes_past (hs.later (k₂.trans k₃)) known token
      refine Direct.Halts.behind ?_ k₄ fun u υ h => .call past h
      refine debug _ fun τ k₅ => done ⟨?_, k, ht.later k₅, by omega, fun _ => hk⟩
      exact stable.later htoken ((k₃.trans k₄).trans k₅)
    | false =>
      exact debug _ fun τ _ => change .get (g := fun σ => (σ, σ)) (fun _ _ => rfl) (refuse ..)

theorem halts_finished (hs : s.Bounded K n σ) (self : ParserId) (none : ∀ τ, V τ .none) :
    ((Body.finished self : Body W).direct s).Halts U K V n σ := by
  obtain ⟨empty, σ₁, comes, occupied⟩ := hs.input.question
  have k₁ := (composed_isEmpty _).evolves comes
  refine act_ok (composed_isEmpty _) comes ?_
  cases empty with
  | true => exact done ⟨none σ₁, n, hs.later k₁, Nat.le_refl n, by simp⟩
  | false =>
    obtain ⟨⟨token, σ₂, first, -⟩, -⟩ := (hs.input.later k₁).take (occupied rfl)
    refine act_ok (composed_first _) first ?_
    exact change .get (g := fun σ => (σ, σ)) (fun _ _ => rfl) (refuse ..)

/-- The values of two parsers in sequence can be joined. -/
def Combine.Joins (c : Combine) (A B V : Values W) : Prop :=
  ∀ σ v w, A σ v → B σ w → ∃ x τ, (c.join v w).Comes σ (.ok x τ) ∧ V τ x

/-- The first value of a sequence is joined when the second parser has run, so what is known of it
must be stable. -/
theorem halts_seq {A B : Values W} {c : Combine} (hs : s.Bounded K n σ) (stable : A.Stable)
    (hp : p.Halts U K A σ) (hq : q.Halts U K B σ) (hc : c.Joins A B V) :
    ((Body.seq p q c).direct s).Halts U K V n σ := by
  refine call (hp σ .refl n s hs) fun r σ₁ k₁ hr => ?_
  cases r with
  | err d e t => exact done trivial
  | ok d v t =>
    obtain ⟨hv, k, ht, hk, hd⟩ := hr
    refine call (hq σ₁ k₁ k t ht) fun r σ₂ k₂ hr => ?_
    cases r with
    | err d' e u => exact done trivial
    | ok d' w u =>
      obtain ⟨hw, l, hu, hl, hd'⟩ := hr
      obtain ⟨x, τ, join, hx⟩ := hc σ₂ v w (stable.later hv k₂) hw
      have k₃ := (composed_join c v w).evolves join
      refine act_ok (composed_join c v w) join (done ⟨hx, l, hu.later k₃, by omega, fun h => ?_⟩)
      rcases Bool.or_eq_true_iff.mp h with h | h
      · have := hd h
        omega
      · have := hd' h
        omega

theorem halts_alt (hs : s.Bounded K n σ) (hp : p.Halts U K V σ) (hq : q.Halts U K V σ) :
    ((Body.alt p q : Body W).direct s).Halts U K V n σ := by
  refine call (hp σ .refl n s hs) fun r σ₁ k₁ hr => ?_
  rcases r with ⟨d, v, t⟩ | ⟨_ | _, e, t⟩
  · exact done hr
  · refine call (hq σ₁ k₁ n s (hs.later k₁)) fun r σ₂ k₂ hr => ?_
    rcases r with ⟨d, v, t⟩ | ⟨_ | _, e', t⟩
    · exact done hr
    · exact change .serial
        (g := fun σ => (σ.nextSerial, { σ with nextSerial := σ.nextSerial + 1 })) (fun _ _ => rfl)
        (done trivial)
    · exact done trivial
  · exact done trivial

/-- The function only has to settle on the values that the parser gives. -/
theorem halts_map {f : Value → Action W Value} (hs : s.Bounded K n σ) (hp : p.Halts U K V' σ)
    (hf : V'.Total U V σ f) : ((Body.map p f).direct s).Halts U K V n σ := by
  refine call (hp σ .refl n s hs) fun r σ₁ k₁ hr => ?_
  cases r with
  | err d e t => exact done trivial
  | ok d v t =>
    obtain ⟨hv, k, ht, hk, hd⟩ := hr
    refine act (composed_action _) (hf σ₁ v k₁ hv) fun x σ₂ k₂ _ hx => ?_
    exact done ⟨hx, k, ht.later k₂, hk, hd⟩

/-- The grammars that the binder gives are built in the store it leaves. -/
theorem halts_bind {f : Value → Action W (Grammar W)} (hs : s.Bounded K n σ)
    (hp : p.Halts U K V' σ) (hf : V'.Total U (fun _ _ => True) σ f)
    (hg : ∀ τ v g υ, σ.Evolves τ → V' τ v → (f v).run.Comes τ (.ok g υ) →
      (g.build υ).1.Halts U K V (g.build υ).2) :
    ((Body.bind p f).direct s).Halts U K V n σ := by
  refine call (hp σ .refl n s hs) fun r σ₁ k₁ hr => ?_
  cases r with
  | err d e t => exact done trivial
  | ok d v t =>
    obtain ⟨hv, k, ht, hk, hd⟩ := hr
    refine act (composed_action _) (hf σ₁ v k₁ hv) fun g σ₂ k₂ given _ => ?_
    -- What is left for the grammar is what the parser has left.
    have halts := hg σ₁ v g σ₂ k₁ hv given
    have built : (Eval.ofBuild g.build).Comes σ₂ (.ok (g.build σ₂).1 (g.build σ₂).2) :=
      comes_change (fun _ _ => rfl) σ₂
    have k₃ := (composed_build g).evolves built
    refine act_ok (composed_build g) built ?_
    refine call (halts _ .refl k t (ht.later (k₂.trans k₃))) fun r σ₃ _ hr => done ?_
    cases d with
    | false => exact hr.imp (fun _ h => h) hk
    | true => exact hr.consume (hd rfl)

theorem halts_ignore {code : Code W} (h : p.Captured σ code) (hs : s.Bounded K n σ)
    (hp : p.Halts U K V σ) (hV : ∀ τ v, V τ v → V' τ v.ignore) :
    ((Body.ignore code).direct s).Halts U K V' n σ := by
  refine call (Direct.Halts.captured h (hp σ .refl n s hs)) fun r σ₁ _ hr => ?_
  cases r with
  | err d e t => exact done trivial
  | ok d v t => exact done ⟨hV σ₁ v hr.1, hr.2⟩

theorem halts_attempt (hs : s.Bounded K n σ) (hp : p.Halts U K V σ) :
    ((Body.attempt p : Body W).direct s).Halts U K V n σ := by
  refine call (hp σ .refl n s hs) fun r σ₁ _ hr => ?_
  rcases r with ⟨d, v, t⟩ | ⟨_ | _, e, t⟩
  · exact done hr
  · exact done trivial
  · exact done trivial

/-- The induction is on the input that is left: only a round that has consumed is followed by
another one. -/
theorem halts_many {self : ParserId} (hself : self.Performs σ (.many self p)) {A : Values W}
    (stable : A.Stable) (hp : p.Halts U K A σ) (hs : s.Bounded K n σ)
    (none : ∀ τ, V τ (.stream .nil)) (more : Combine.cons.Joins A V V) :
    ((Body.many self p : Body W).direct s).Halts U K V n σ := by
  induction n using Nat.strongRecOn generalizing σ s with
  | ind n ih =>
    refine call (hp σ .refl n s hs) fun r σ₁ k₁ hr => ?_
    rcases r with ⟨_ | _, v, t⟩ | ⟨_ | _, e, t⟩
    -- A round without progress is an error of the grammar, and not another round.
    · exact change .get (g := fun σ => (σ, σ)) (fun _ _ => rfl)
        (fault (f := .endlessRepetition _) trivial)
    · obtain ⟨hv, k, ht, -, hd⟩ := hr
      have hk : k < n := hd rfl
      have again : (Job.parser self t).direct.Halts U K V k σ₁ := by
        refine Direct.Halts.runs (hself.later k₁.grows) fun τ k₂ => ?_
        have k' := k₁.trans k₂
        exact ih k hk (hself.later k'.grows) (hp.later k') (ht.later k₂)
      refine call again fun r σ₂ k₂ hr => ?_
      cases r with
      | err d e u => exact done trivial
      | ok d w u =>
        obtain ⟨hw, l, hu, hl, -⟩ := hr
        obtain ⟨x, τ, join, hx⟩ := more σ₂ v w (stable.later hv k₂) hw
        have k₃ := (composed_join .cons v w).evolves join
        refine act_ok (composed_join .cons v w) join (done ⟨hx, l, hu.later k₃, by omega, ?_⟩)
        exact fun _ => by omega
    · exact done ⟨none σ₁, n, hs.later k₁, Nat.le_refl n, by simp⟩
    · exact done trivial

end

end ResumableParsing
