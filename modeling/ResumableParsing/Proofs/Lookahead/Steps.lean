import ResumableParsing.Proofs.Direct.Replies
import ResumableParsing.Proofs.Lookahead.Discretion
import ResumableParsing.Proofs.Lookahead.Supply

/-!
# A step looks no further than its state

Parsers of the library look at the cell of the stream at which their state stands, and at no other
one. What they do with a token and with results is left to functions that do not read the stream, so
each step of a parse looks no further than the state that it is about.

* `Audience`: whether anybody looks at a result
* `Code.Serves`, `ParserId.Serves`: parsers with results for an audience
* `Supply.Stands`: states at a place of the stream
* `Supply.Takes`, `Supply.Ready`: continuations and tasks
* `Supply.Ready.step`: what a step looks at, and what it leaves
-/

namespace ResumableParsing

variable {W : Type}

/-! ## Results -/

/-- Whether anybody looks at a result. -/
inductive Audience where
  /-- Functions of the caller look at it, or other results are made of it. -/
  | someone
  /-- It is only handed on. -/
  | nobody

/-- A result for an audience. -/
def Value.Suits (it : IteratorId) (σ : Store W) (v : Value) : Audience → Prop
  | .someone => v.Avoids it σ
  | .nobody => True

/-- A reply with such a result. -/
def Reply.Suits (it : IteratorId) (σ : Store W) (a : Audience) : Reply Value → Prop
  | .ok _ v _ => v.Suits it σ a
  | .err .. => True

/-- What a parser does whose results nobody looks at. It starts parsers of the set `P`, and parsers
like itself. -/
inductive Body.Idle (P : ParserId → Prop) (σ : Store W) : Body W → Prop where
  | pure (v : Value) : Idle P σ (.pure v)
  | cell (v : Value) (again : ParserId) : Idle P σ (.cell v again)
  | cells {p all : ParserId} : P p → Idle P σ (.bind p fun v => .done (.cell v all))
  | alt {p q : ParserId} {b b' : Body W} : p.Does σ b → Idle P σ b → q.Does σ b' → Idle P σ b' →
      Idle P σ (.alt p q)

/-- The results of the run function are for the audience. -/
def Code.Serves (it : IteratorId) (P : ParserId → Prop) (σ : Store W) (c : Code W) :
    Audience → Prop
  | .someone => c.DiscreetOver it P σ
  | .nobody => ∃ b : Body W, c.Leads σ.parsers b ∧ b.Idle P σ

/-- The results of the parser are for the audience. -/
def ParserId.Serves (P : ParserId → Prop) (σ : Store W) (p : ParserId) : Audience → Prop
  | .someone => P p
  | .nobody => ∃ b : Body W, p.Does σ b ∧ b.Idle P σ

/-! ## Tasks -/

namespace Supply

/-- The state is at the place `j` of the stream. -/
def Stands (S : Supply W) (σ : Store W) (j : Nat) (s : State Value) : Prop :=
  ∃ w c u, s = .plain w (.pulled c) (S.position + j) u ∧ S.At σ j c

/-- The continuation takes results for the audience. What it holds does not lead to the iterator,
and its states are at places of the stream. -/
inductive Takes (S : Supply W) (P : ParserId → Prop) (σ : Store W) :
    Audience → Continuation W → Prop where
  | done (a : Audience) : Takes S P σ a []
  | seqFirst {q : ParserId} {k : Continuation W} (c : Combine) : P q → Takes S P σ .someone k →
      Takes S P σ .someone (.seqFirst q c :: k)
  | seqSecond {v : Value} {k : Continuation W} (d : Bool) (c : Combine) : v.Avoids S.source σ →
      Takes S P σ .someone k → Takes S P σ .someone (.seqSecond d v c :: k)
  | altFirst {a : Audience} {q : ParserId} {i : Nat} {start : State Value} {k : Continuation W} :
      q.Serves P σ a → S.Stands σ i start → Takes S P σ a k → Takes S P σ a (.altFirst q start :: k)
  | altSecond {a : Audience} {k : Continuation W} (e : ParseError Value) : Takes S P σ a k →
      Takes S P σ a (.altSecond e :: k)
  | map {f : Value → Action W Value} {k : Continuation W} : S.source.Maps σ f →
      Takes S P σ .someone k → Takes S P σ .someone (.map f :: k)
  | bind {f : Value → Action W (Grammar W)} {k : Continuation W} :
      (∀ v, (f v).Yields (Grammar.Library (fun _ => True) P)) →
      S.source.Binds (Grammar.Discreet S.source) σ f →
      Takes S P σ .someone k → Takes S P σ .someone (.bind f :: k)
  /-- Nobody looks at the cells of a lazy repetition. -/
  | cells {k : Continuation W} (all : ParserId) : Takes S P σ .nobody k →
      Takes S P σ .someone (.bind (fun v => .done (.cell v all)) :: k)
  | consume {a : Audience} {k : Continuation W} : Takes S P σ a k → Takes S P σ a (.consume :: k)
  | ignore {k : Continuation W} : Takes S P σ .someone k → Takes S P σ .someone (.ignore :: k)
  | attempt {a : Audience} {i : Nat} {start : State Value} {k : Continuation W} :
      S.Stands σ i start → Takes S P σ a k → Takes S P σ a (.attempt start :: k)
  | manyItem {self : ParserId} {i : Nat} {start : State Value} {k : Continuation W} (p : ParserId) :
      P self → S.Stands σ i start → Takes S P σ .someone k →
      Takes S P σ .someone (.manyItem self p start :: k)
  | manyRest {v : Value} {k : Continuation W} : v.Avoids S.source σ → Takes S P σ .someone k →
      Takes S P σ .someone (.manyRest v :: k)
  /-- The token is the result, whatever the reply is. -/
  | matched {token : Value} {k : Continuation W} : token.Avoids S.source σ →
      Takes S P σ .someone k → Takes S P σ .nobody (.matched token :: k)

/-- The task comes to results for an audience, and its continuation takes them. -/
def Serves (S : Supply W) (P : ParserId → Prop) (σ : Store W) (a : Audience) : Task W → Prop
  | .run p _ k => p.Serves P σ a ∧ S.Takes P σ a k
  | .code c _ k => c.Serves S.source P σ a ∧ S.Takes P σ a k
  | .settle _ k => S.Takes P σ .nobody k
  | .cross .. => False
  | .deliver r k => r.Suits S.source σ a ∧ S.Takes P σ a k

/-- The task is about a state at the place `j` of the stream. -/
structure Ready (S : Supply W) (P : ParserId → Prop) (σ : Store W) (j : Nat) (t : Task W) :
    Prop where
  /-- The state is at that place. -/
  stands : S.Stands σ j t.state
  /-- Its results have an audience. -/
  serves : ∃ a, S.Serves P σ a t

/-- After a step there is such a task, or a reply at some place of the stream. -/
def Left (S : Supply W) (σ : Store W) : Step (Task W) (Finish W) → Prop
  | .tail t => ∃ P, AllDiscreet S.source P σ ∧ ∃ j, S.Ready P σ j t
  | .value (.reply r) => ∃ j, S.Stands σ j r.state
  | .value (.request _) => False

end Supply

section

variable {S : Supply W} {P P' : ParserId → Prop} {σ τ : Store W} {a : Audience} {i j k n : Nat}
  {c : CellId} {d : CellId} {v : Value} {p q : ParserId} {r : Reply Value} {s : State Value}
  {t : Task W} {rest : Continuation W}

/-! ### Later stores -/

theorem Body.Idle.later {b : Body W} (h : b.Idle P σ) (k : σ.Continues τ) : b.Idle P τ := by
  induction h with
  | pure v => exact .pure v
  | cell v again => exact .cell v again
  | cells hp => exact .cells hp
  | alt does _ does' _ ih ih' => exact .alt (does.kept k) ih (does'.kept k) ih'

theorem Body.Idle.mono {b : Body W} (h : b.Idle P σ) (hP : ∀ p, P p → P' p) : b.Idle P' σ := by
  induction h with
  | pure v => exact .pure v
  | cell v again => exact .cell v again
  | cells hp => exact .cells (hP _ hp)
  | alt does _ does' _ ih ih' => exact .alt does ih does' ih'

theorem ParserId.Serves.later (h : p.Serves P σ a) (k : σ.Continues τ) : p.Serves P τ a := by
  cases a with
  | someone => exact h
  | nobody =>
    obtain ⟨b, does, idle⟩ := h
    exact ⟨b, does.kept k, idle.later k⟩

theorem ParserId.Serves.mono (h : p.Serves P σ a) (hP : ∀ p, P p → P' p) : p.Serves P' σ a := by
  cases a with
  | someone => exact hP p h
  | nobody =>
    obtain ⟨b, does, idle⟩ := h
    exact ⟨b, does, idle.mono hP⟩

theorem Code.Serves.later {it : IteratorId} {code : Code W} (h : code.Serves it P σ a)
    (k : σ.Onward it τ) : code.Serves it P τ a := by
  cases a with
  | someone => exact Code.DiscreetOver.later h k.retains
  | nobody =>
    obtain ⟨b, leads, idle⟩ := h
    exact ⟨b, leads.kept k.continues, idle.later k.continues⟩

namespace Supply

theorem Stands.later (h : S.Stands σ j s) (k : σ.Onward S.source τ) : S.Stands τ j s := by
  obtain ⟨w, c, u, e, hc⟩ := h
  exact ⟨w, c, u, e, hc.later k⟩

theorem Takes.later (h : S.Takes P σ a rest) (k : σ.Onward S.source τ) : S.Takes P τ a rest := by
  induction h with
  | done a => exact .done a
  | seqFirst c hq _ ih => exact .seqFirst c hq ih
  | seqSecond d c hv _ ih => exact .seqSecond d c (hv.later k.retains) ih
  | altFirst hq hs _ ih => exact .altFirst (hq.later k.continues) (hs.later k) ih
  | altSecond e _ ih => exact .altSecond e ih
  | map hf _ ih => exact .map (hf.later k.retains) ih
  | bind yields hf _ ih => exact .bind yields (hf.later k.retains) ih
  | cells all _ ih => exact .cells all ih
  | consume _ ih => exact .consume ih
  | ignore _ ih => exact .ignore ih
  | attempt hs _ ih => exact .attempt (hs.later k) ih
  | manyItem p hself hs _ ih => exact .manyItem p hself (hs.later k) ih
  | manyRest hv _ ih => exact .manyRest (hv.later k.retains) ih
  | matched ht _ ih => exact .matched (ht.later k.retains) ih

theorem Takes.mono (h : S.Takes P σ a rest) (hP : ∀ p, P p → P' p) : S.Takes P' σ a rest := by
  induction h with
  | done a => exact .done a
  | seqFirst c hq _ ih => exact .seqFirst c (hP _ hq) ih
  | seqSecond d c hv _ ih => exact .seqSecond d c hv ih
  | altFirst hq hs _ ih => exact .altFirst (hq.mono hP) hs ih
  | altSecond e _ ih => exact .altSecond e ih
  | map hf _ ih => exact .map hf ih
  | bind yields hf _ ih =>
    exact .bind (fun v m σ g σ' e => (yields v m σ g σ' e).mono (fun _ h => h) hP) hf ih
  | cells all _ ih => exact .cells all ih
  | consume _ ih => exact .consume ih
  | ignore _ ih => exact .ignore ih
  | attempt hs _ ih => exact .attempt hs ih
  | manyItem p hself hs _ ih => exact .manyItem p (hP _ hself) hs ih
  | manyRest hv _ ih => exact .manyRest hv ih
  | matched ht _ ih => exact .matched ht ih

/-! ## Looking at the first token -/

theorem Drawn.isEmpty (h : S.Drawn k σ) (hc : S.At σ j c) (n : Nat) :
    S.Allows j k (fun _ _ => True) σ ((Stream.isEmpty (.pulled c) : Eval W Bool) (.within n) σ) :=
  allows_bind (x := Eval.force (.cell c)) (h.force hc n) fun _ _ _ _ _ drawn _ =>
    allows_pure drawn trivial

/-- The first token does not lead to the iterator, and the next cell is known. -/
theorem Drawn.first (h : S.Drawn k σ) (hc : S.At σ j c) (n : Nat) :
    S.Allows j k (fun τ v => v.Avoids S.source τ ∧
        ∃ d, τ.over S.source c = some (.known (some (v, .pulled d)))) σ
      ((Stream.first (.pulled c) : Eval W Value) (.within n) σ) := by
  refine allows_bind (x := Eval.force (.cell c)) (h.force hc n)
    fun o τ k' _ onward drawn known => ?_
  cases o with
  | none => exact allows_throw drawn _
  | some o =>
    obtain ⟨v, t⟩ := o
    have avoids := (drawn.alone.cells _ _ v t (Store.over_eq_some.mp known) rfl).1
    -- An element has been found in the cell, so it leads to another one.
    rcases drawn.front j c (hc.later onward) with ⟨unset, -⟩ | ended | ⟨d, w, leads⟩
    · cases known.symm.trans unset
    · cases known.symm.trans ended
    · cases known.symm.trans leads
      exact allows_pure drawn ⟨avoids, d, known⟩

/-- A state moves past its first token without a look at the next cell. -/
theorem Drawn.advance (h : S.Drawn k σ) {w : Bool} {u : Value} (hc : S.At σ j c)
    (known : σ.over S.source c = some (.known (some (v, .pulled d)))) (n : Nat) :
    S.Allows j k (fun τ s => S.Stands τ (j + 1) s) σ
      ((State.advance (.plain w (.pulled c) (S.position + j) u) : Eval W (State Value))
        (.within n) σ) := by
  refine allows_bind (x := Stream.rest (.pulled c)) (Q := fun _ t => t = .pulled d) ?_
    fun t τ k' _ onward drawn e => ?_
  · refine allows_bind (x := Eval.force (.cell c)) (h.force hc n)
      fun o τ k' _ onward drawn known' => ?_
    -- To ask a known cell again finds the same.
    cases (onward.known _ _ known).symm.trans known'
    exact allows_pure drawn rfl
  · subst e
    refine allows_pure drawn ⟨w, d, u, ?_, .next (hc.later onward) ⟨v, onward.known _ _ known⟩⟩
    rw [Int.natCast_add, ← Int.add_assoc]
    rfl

/-! ## Starting a parser -/

/-- A failure is a reply for any audience. -/
theorem allows_refuse (h : S.Drawn k σ) (hs : S.Stands σ j s) (hr : S.Takes P σ a rest)
    (reason : Reason) (expected : List ParserId) (n : Nat) :
    S.Allows j k (fun τ t => ∃ i, S.Ready P τ i t) σ
      (Task.refuse reason expected s rest (.within n) σ) := by
  refine allows_bind (h.allows (spared_serial h.alone)) fun m τ k' _ onward drawn _ => ?_
  exact allows_pure drawn ⟨j, hs.later onward, a, trivial, hr.later onward⟩

/-- A parse that has taken a token moves past it. -/
theorem allows_next (h : S.Drawn k σ) {w : Bool} {u token : Value} (hc : S.At σ j c)
    (known : σ.over S.source c = some (.known (some (token, .pulled d))))
    (avoids : token.Avoids S.source σ) (hr : S.Takes P σ .someone rest) (n : Nat) :
    S.Allows j k (fun τ t => ∃ i, S.Ready P τ i t) σ
      (State.next (.plain w (.pulled c) (S.position + j) u) token (.matched token :: rest)
        (.within n) σ) := by
  have taken := Takes.matched avoids hr
  have moves {τ : Store W} {k' : Nat} (drawn : S.Drawn k' τ) (onward : σ.Onward S.source τ) :
      S.Allows j k' (fun τ t => ∃ i, S.Ready P τ i t) τ
        ((do
          let s ← State.advance (.plain w (.pulled c) (S.position + j) u)
          return .settle s (.matched token :: rest) : Eval W (Task W)) (.within n) τ) := by
    refine allows_bind (drawn.advance (hc.later onward) (onward.known _ _ known) n)
      fun s υ _ _ onward' drawn stands => ?_
    exact allows_pure drawn ⟨j + 1, stands, .nobody, taken.later (onward.trans onward')⟩
  cases w with
  | true =>
    -- The observer sees the token before the state moves. It can change the world alone.
    have watched := h.alone.aside (τ := { σ with world := σ.watch token σ.world }) rfl rfl
      rfl (.refl _)
    refine allows_bind (Q := fun _ _ => True) (h.allows ⟨watched, trivial⟩)
      fun _ τ k' _ onward drawn _ => ?_
    exact moves drawn onward
  | false => exact moves h (.refl _ σ)

/-- A parser of a discreet run function looks no further than the first token. -/
theorem allows_enter (h : S.Drawn k σ) {b : Body W} (hb : (Code.body b).DiscreetOver S.source P σ)
    (hs : S.Stands σ j s) (hr : S.Takes P σ .someone rest) (n : Nat) :
    S.Allows j k (fun τ t => ∃ i, S.Ready P τ i t) σ (b.enter s rest (.within n) σ) := by
  have starts {τ : Store W} {t : Task W} (drawn : S.Drawn k τ) (stands : S.Stands τ j t.state)
      (serves : S.Serves P τ .someone t) :
      S.Allows j k (fun τ t => ∃ i, S.Ready P τ i t) τ ((pure t : Eval W _) (.within n) τ) :=
    allows_pure drawn ⟨j, stands, .someone, serves⟩
  obtain ⟨library, discreet⟩ := hb
  cases b with
  | some self accepts =>
    obtain ⟨w, c, u, rfl, hc⟩ := id hs
    refine allows_bind (h.isEmpty hc n) fun empty τ k' _ onward drawn _ => ?_
    cases empty with
    | true => exact allows_refuse drawn (hs.later onward) (hr.later onward) _ _ n
    | false =>
      refine allows_bind (drawn.first (hc.later onward) n)
        fun token τ' k' _ onward' drawn ⟨avoids, d, known⟩ => ?_
      have onward := onward.trans onward'
      -- The predicate of the caller is given the token alone, and not the state.
      have tested := discreet n τ' token onward.retains drawn.alone avoids
      refine allows_bind (drawn.allows tested) fun accepted τ'' k' _ onward' drawn _ => ?_
      have onward := onward.trans onward'
      cases accepted with
      | true =>
        exact allows_next drawn (hc.later onward) (onward'.known _ _ known)
          (avoids.later onward'.retains) (hr.later onward) n
      | false =>
        refine allows_bind (drawn.allows (spared_debug drawn.alone _))
          fun _ υ k' _ onward' drawn _ => ?_
        have onward := onward.trans onward'
        refine allows_bind (allows_get drawn) fun _ υ' k' _ onward' drawn _ => ?_
        have onward := onward.trans onward'
        exact allows_refuse drawn (hs.later onward) (hr.later onward) _ _ n
  | pure v => exact starts h hs ⟨discreet, hr⟩
  | fail m => exact allows_refuse h hs hr _ _ n
  | finished self =>
    obtain ⟨w, c, u, rfl, hc⟩ := id hs
    refine allows_bind (h.isEmpty hc n) fun empty τ k' _ onward drawn _ => ?_
    cases empty with
    | true => exact allows_pure drawn ⟨j, hs.later onward, .someone, .none, hr.later onward⟩
    | false =>
      refine allows_bind (drawn.first (hc.later onward) n) fun token τ' k' _ onward' drawn _ => ?_
      have onward := onward.trans onward'
      refine allows_bind (allows_get drawn) fun _ υ k' _ onward' drawn _ => ?_
      have onward := onward.trans onward'
      exact allows_refuse drawn (hs.later onward) (hr.later onward) _ _ n
  | undeclared => exact allows_throw h _
  | seq p q c => exact starts h hs ⟨library.1, .seqFirst c library.2 hr⟩
  | alt p q => exact starts h hs ⟨library.1, .altFirst library.2 hs hr⟩
  | map p f => exact starts h hs ⟨library.1, .map discreet hr⟩
  | bind p f => exact starts h hs ⟨library.1, .bind library.2.2 discreet hr⟩
  | ignore inner => exact starts h hs ⟨⟨library, discreet⟩, .ignore hr⟩
  | attempt p => exact starts h hs ⟨library, .attempt hs hr⟩
  | many self p => exact starts h hs ⟨library.2, .manyItem p library.1 hs hr⟩
  -- The cells of a lazy repetition hold a state, so nobody looks at them.
  | cell v again => exact discreet.elim
  -- Parsers of the caller are not of the library.
  | native run => exact library.elim
  | after p run => exact library.elim

/-- A parser whose results nobody looks at does not look at its state at all. -/
theorem allows_enter_idle (h : S.Drawn k σ) {b : Body W} (hb : b.Idle P σ) (hs : S.Stands σ j s)
    (hr : S.Takes P σ .nobody rest) (n : Nat) :
    S.Allows j k (fun τ t => ∃ i, S.Ready P τ i t) σ (b.enter s rest (.within n) σ) := by
  cases hb with
  | pure v => exact allows_pure h ⟨j, hs, .nobody, trivial, hr⟩
  | cell v again =>
    -- A parse is waiting in the tail, so the tail may lead to the iterator.
    have made : S.source.Spared (fun _ _ => True) σ
        ((Stream.lazyCell v (.parse again s) : Eval W (Stream Value)) (.within n) σ) := by
      refine spared_bind (spared_serial h.alone) fun _ τ untouched _ => ?_
      exact ⟨untouched.alone.pushTail False.elim, trivial⟩
    refine allows_bind (h.allows made) fun t τ k' _ onward drawn _ => ?_
    exact allows_pure drawn ⟨j, hs.later onward, .nobody, trivial, hr.later onward⟩
  | cells hp => exact allows_pure h ⟨j, hs, .someone, hp, .cells _ hr⟩
  | alt does idle does' idle' =>
    exact allows_pure h ⟨j, hs, .nobody, ⟨_, does, idle⟩, .altFirst ⟨_, does', idle'⟩ hs hr⟩

/-! ## Receiving a reply -/

/-- What a parser does with a reply looks at no token. -/
theorem allows_resume (h : S.Drawn k σ) (hP : AllDiscreet S.source P σ) {f : Frame W}
    (hr : S.Takes P σ a (f :: rest)) (suits : r.Suits S.source σ a) (hs : S.Stands σ j r.state)
    (n : Nat) : S.Allows j k S.Left σ (f.resume r rest (.within n) σ) := by
  have goes {τ : Store W} {k' : Nat} (drawn : S.Drawn k' τ)
      (onward : σ.Onward S.source τ) {t : Task W}
      {i : Nat} (stands : S.Stands τ i t.state) (serves : ∃ a, S.Serves P τ a t) :
      S.Allows j k' S.Left τ ((pure (.tail t) : Eval W (Step (Task W) (Finish W))) (.within n) τ) :=
    allows_pure drawn ⟨P, hP.later onward.retains onward.continues, i, stands, serves⟩
  -- Most frames go on at once, with a state that is at hand.
  have here {t : Task W} {i : Nat} (stands : S.Stands σ i t.state)
      (serves : ∃ a, S.Serves P σ a t) :
      S.Allows j k S.Left σ ((pure (.tail t) : Eval W (Step (Task W) (Finish W))) (.within n) σ) :=
    goes h (.refl _ σ) stands serves
  cases hr with
  | seqFirst c hq hr =>
    cases r with
    | ok d v s => exact here hs ⟨.someone, hq, .seqSecond d c suits hr⟩
    | err d e s => exact here hs ⟨.someone, trivial, hr⟩
  | seqSecond d c hv hr =>
    cases r with
    | ok d' v' s =>
      -- To join results may read streams, but none that leads to the iterator.
      have joined := spared_join (spares_within S.source n) h.alone c hv suits
      refine allows_bind (h.allows joined) fun u τ k' _ onward drawn hu => ?_
      exact goes drawn onward (hs.later onward) ⟨.someone, hu, hr.later onward⟩
    | err d' e s => exact here hs ⟨.someone, trivial, hr⟩
  | altFirst hq start hr =>
    cases r with
    | ok d v s => exact here hs ⟨a, suits, hr⟩
    | err d e s =>
      cases d with
      | true => exact here hs ⟨a, trivial, hr⟩
      | false => exact here start ⟨a, hq, .altSecond e hr⟩
  | altSecond e hr =>
    cases r with
    | ok d v s => exact here hs ⟨a, suits, hr⟩
    | err d e' s =>
      cases d with
      | true => exact here hs ⟨a, trivial, hr⟩
      | false =>
        refine allows_bind (h.allows (spared_serial h.alone)) fun _ τ k' _ onward drawn _ => ?_
        exact goes drawn onward (hs.later onward) ⟨a, trivial, hr.later onward⟩
  | map hf hr =>
    cases r with
    | ok d v s =>
      have mapped := hf n σ v (.refl σ) h.alone suits
      refine allows_bind (h.allows mapped) fun u τ k' _ onward drawn hu => ?_
      exact goes drawn onward (hs.later onward) ⟨.someone, hu, hr.later onward⟩
    | err d e s => exact here hs ⟨.someone, trivial, hr⟩
  | @bind f _ yields hf hr =>
    cases r with
    | ok d v s =>
      -- The grammar is one of the library, and its functions are discreet.
      have binds : S.source.Binds (fun τ g => g.Discreet S.source τ ∧
        g.Library (fun _ => True) P) σ f :=
        ⟨hf.spares, fun n τ v g τ' k alone hv e =>
          ⟨hf.gives n τ v g τ' k alone hv e, yields v _ τ g τ' e⟩⟩
      refine allows_bind (h.allows (binds.spared n (.refl σ) h.alone suits))
        fun g τ k' _ onward drawn ⟨discreet, library⟩ => ?_
      refine allows_bind (drawn.allows (spared_build drawn.alone g))
        fun q υ k' _ onward' drawn built => ?_
      obtain ⟨P', hP', all, hq⟩ :=
        (hP.later onward.retains onward.continues).build library discreet
      rw [built] at all hq
      have onward := onward.trans onward'
      -- The grammar has built parsers of its own, so the set has grown.
      have taken := (hr.later onward).mono hP'
      refine allows_pure drawn ⟨P', all, j, hs.later onward, .someone, hq, ?_⟩
      cases d with
      | true => exact .consume taken
      | false => exact taken
    | err d e s => exact here hs ⟨.someone, trivial, hr⟩
  | cells all hr =>
    cases r with
    | ok d v s =>
      -- The cell is built, and its parser run. It does not look at the result either.
      refine allows_bind (x := (Action.done (Grammar.cell v all)).run)
        (Q := fun _ g => g = Grammar.cell v all) (allows_pure h rfl)
          fun g τ k' _ onward drawn e => ?_
      subst e
      refine allows_bind (drawn.allows (spared_build drawn.alone (.cell v all)))
        fun q υ k' _ onward' drawn built => ?_
      have onward := onward.trans onward'
      have serves : q.Serves P υ .nobody := by
        have does : ((Grammar.cell v all).build τ).1.Does ((Grammar.cell v all).build τ).2
            (.cell v all) := (owns_body "" (fun _ => .cell v all) τ).does
        rw [built] at does
        exact ⟨_, does, .cell v all⟩
      refine goes drawn onward (hs.later onward) ⟨.nobody, serves, ?_⟩
      cases d with
      | true => exact .consume (hr.later onward)
      | false => exact hr.later onward
    | err d e s => exact here hs ⟨.nobody, trivial, hr⟩
  | consume hr =>
    cases r with
    | ok d v s => exact here hs ⟨a, suits, hr⟩
    | err d e s => exact here hs ⟨a, trivial, hr⟩
  | ignore hr =>
    cases r with
    | ok d v s => exact here hs ⟨.someone, Value.Avoids.ignore suits, hr⟩
    | err d e s => exact here hs ⟨.someone, trivial, hr⟩
  | attempt start hr =>
    cases r with
    | ok d v s => exact here hs ⟨a, suits, hr⟩
    | err d e s =>
      cases d with
      | true => exact here start ⟨a, trivial, hr⟩
      | false => exact here hs ⟨a, trivial, hr⟩
  | manyItem p hself start hr =>
    cases r with
    | ok d v s =>
      cases d with
      | true => exact here hs ⟨.someone, hself, .manyRest suits hr⟩
      | false =>
        refine allows_bind (allows_get h) fun _ τ k' _ _ drawn _ => ?_
        exact allows_throw drawn _
    | err d e s =>
      cases d with
      | true => exact here hs ⟨.someone, trivial, hr⟩
      | false => exact here start ⟨.someone, .nil, hr⟩
  | manyRest hv hr =>
    cases r with
    | ok d v' s =>
      have joined := spared_join (spares_within S.source n) h.alone .cons hv suits
      refine allows_bind (h.allows joined) fun u τ k' _ onward drawn hu => ?_
      exact goes drawn onward (hs.later onward) ⟨.someone, hu, hr.later onward⟩
    | err d e s => exact here hs ⟨.someone, trivial, hr⟩
  | matched ht hr =>
    refine allows_bind (h.allows (spared_debug h.alone _)) fun _ τ k' _ onward drawn _ => ?_
    exact goes drawn onward (hs.later onward)
      ⟨.someone, Value.Avoids.later onward.retains ht, hr.later onward⟩

/-! ## Steps -/

end Supply

/-- A logging method is that of a parser whose definition has results for the same audience. -/
theorem Code.Serves.method {it : IteratorId} (h : (Code.method p).Serves it P σ a)
    (hP : AllDiscreet it P σ) : ∃ c : Cell W, σ.parsers[p.index]? = some c ∧
      ∀ code, c.logged = some code → code.Serves it P σ a := by
  cases a with
  | someone =>
    obtain ⟨c, hc, codes⟩ := hP p h.1
    exact ⟨c, hc, fun code e => codes code (.inr e)⟩
  | nobody =>
    obtain ⟨b, leads, idle⟩ := h
    cases leads with
    | method hc hl leads =>
      refine ⟨_, hc, fun code e => ?_⟩
      cases hl.symm.trans e
      exact ⟨b, leads, idle⟩

/-- A parser has a run function with results for the same audience. -/
theorem ParserId.Serves.code {it : IteratorId} (h : p.Serves P σ a) (hP : AllDiscreet it P σ) :
    ∃ c : Cell W, σ.parsers[p.index]? = some c ∧ (c.code p).Serves it P σ a := by
  cases a with
  | someone =>
    obtain ⟨c, hc, codes⟩ := hP p h
    refine ⟨c, hc, ?_⟩
    rw [Cell.code]
    cases e : c.direct with
    | none => exact ⟨h, trivial⟩
    | some code => exact codes code (.inl e)
  | nobody =>
    obtain ⟨b, ⟨c, hc, leads⟩, idle⟩ := h
    exact ⟨c, hc, b, leads, idle⟩

namespace Supply

/-- A parser is looked up. -/
theorem allows_found {α : Type} {Q : Store W → α → Prop} {f : Cell W → Eval W α} {x : Cell W}
    (hx : σ.parsers[p.index]? = some x) (hf : S.Allows j k Q σ (f x (.within n) σ)) :
    S.Allows j k Q σ
      ((do let y ← Eval.deref (← get).parsers[p.index]?; f y : Eval W α) (.within n) σ) := by
  rw [Eval.run_bind, Eval.run_get]
  simp only [hx, Eval.deref_some, pure_bind]
  exact hf

/-- A parser is started through its logging method. -/
theorem allows_startLogged (h : S.Drawn k σ) (hP : AllDiscreet S.source P σ)
    (hp : (Code.method p).Serves S.source P σ a) (hs : S.Stands σ j s) (hr : S.Takes P σ a rest)
    (n : Nat) : S.Allows j k (fun τ t => ∃ i, S.Ready P τ i t) σ
      (Task.startLogged p s rest (.within n) σ) := by
  refine allows_bind (h.allows (spared_debug h.alone _)) fun _ τ k' _ onward drawn _ => ?_
  obtain ⟨x, hx, codes⟩ := (hp.later onward).method (hP.later onward.retains onward.continues)
  refine allows_found hx ?_
  cases e : x.logged with
  | none => exact allows_throw drawn _
  | some code =>
    exact allows_pure drawn ⟨j, hs.later onward, a, codes code e, hr.later onward⟩

/-- A step looks no further than the state that it is about. -/
theorem Ready.step (ht : S.Ready P σ j t) (h : S.Drawn k σ) (hP : AllDiscreet S.source P σ)
    (n : Nat) :
    S.Allows j k S.Left σ (t.step.exec n σ) := by
  obtain ⟨hs, a, serves⟩ := ht
  have left {x : Eval W (Task W)}
      (hx : S.Allows j k (fun τ t => ∃ i, S.Ready P τ i t) σ (x (.within n) σ)) :
      S.Allows j k S.Left σ ((do return .tail (← x) : Eval W (Step (Task W) (Finish W)))
        (.within n) σ) :=
    allows_bind (hx.imp (R := fun τ t => AllDiscreet S.source P τ ∧ ∃ i, S.Ready P τ i t)
      fun τ t onward ready => ⟨hP.later onward.retains onward.continues, ready⟩)
      fun t τ k' _ _ drawn ready => allows_pure drawn ⟨P, ready⟩
  cases t with
  | run p s rest =>
    obtain ⟨hp, hr⟩ := serves
    obtain ⟨x, hx, code⟩ := hp.code hP
    refine allows_found hx ?_
    rw [Cell.code] at code
    cases e : x.direct with
    | none =>
      rw [e] at code
      exact left (allows_startLogged h hP code hs hr n)
    | some c =>
      rw [e] at code
      exact allows_pure h ⟨P, hP, j, hs, a, code, hr⟩
  | code c s rest =>
    obtain ⟨hc, hr⟩ := serves
    cases c with
    | method p => exact left (allows_startLogged h hP hc hs hr n)
    | body b =>
      cases a with
      | someone => exact left (allows_enter h hc hs hr n)
      -- Nobody looks at the result, and the body that the code leads to is idle.
      | nobody =>
        obtain ⟨b', leads, idle⟩ := hc
        cases leads
        exact left (allows_enter_idle h idle hs hr n)
  | settle s rest =>
    refine allows_bind (h.allows (spared_debug h.alone _)) fun _ τ k' _ onward drawn _ => ?_
    exact allows_pure drawn ⟨P, hP.later onward.retains onward.continues, j, hs.later onward,
      .nobody, trivial, serves.later onward⟩
  | cross => exact serves.elim
  | deliver r rest =>
    obtain ⟨suits, hr⟩ := serves
    cases rest with
    | nil => exact allows_pure h ⟨j, hs⟩
    | cons f rest => exact allows_resume h hP hr suits hs n

end Supply

end

end ResumableParsing
