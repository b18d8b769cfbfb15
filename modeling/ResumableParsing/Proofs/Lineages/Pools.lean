import ResumableParsing.Proofs.Lineages.Answers

/-!
# Pools of sessions

Sessions are started, fed and finished in one store, in any order, and each of them as often as one
likes. Calls may raise faults. Each session in the pool has a path: how its parse has been started,
and the chunks that it has been fed. A session that is fed the same chunks in a store of its own
mirrors it.

* `Lineages.Path`, `Lineages.Path.fresh`: how a session has been obtained, and the same in a fresh
  store
* `Lineages.Pool`, `Lineages.Call`, `Lineages.Calls`: what has been obtained so far, and how
* `Lineages.Mirrored`: what one session comes to, the other one comes to
* `Lineages.Calls.between`: all sessions of a pool are mirrored by fresh ones
-/

namespace ResumableParsing

variable {W : Type}

/-- No parser that is there changes. What a parser does never changes anyway, but it could get
another name. -/
def Store.KeepsParsers (σ τ : Store W) : Prop :=
  ∀ (i : Nat) (c : Cell W), σ.parsers[i]? = some c → τ.parsers[i]? = some c

/-- The program makes a stream with elements that are data. It looks at nothing that others could
change. -/
def Action.Supplies (a : Action W (Stream Value)) (x : Elements) : Prop :=
  (∃ d, Contents.empty.Makes d a x) ∧ ∀ v ∈ x, v.Settled

namespace Lineages

/-! ## Pools -/

/-- A chunk that a session has been fed. -/
structure Feed (W : Type) where
  /-- The program that makes it. -/
  program : Action W (Stream Value)
  /-- It is fed even if it is empty. -/
  forced : Bool

/-- Feeds a chunk to a session. -/
def Feed.give (f : Feed W) (chunk : Stream Value) (i : SessionId) : Eval W SessionId :=
  if f.forced then i.forceProvide (.stream chunk) else i.provide (.stream chunk)

/-- How a session has been obtained. -/
structure Path (W : Type) where
  /-- The parser. -/
  parser : ParserId
  /-- The program that makes the input of the state that the parse has been started in. -/
  input : Action W (Stream Value)
  /-- The position of this state. -/
  position : Int
  /-- Its user state. -/
  user : Value
  /-- What is done with the end of the parse. -/
  handlers : Handlers W
  /-- The chunks that the session has been fed. -/
  feeds : List (Feed W)

/-- The path with one more chunk. -/
def Path.fed (l : Path W) (f : Feed W) : Path W := { l with feeds := l.feeds ++ [f] }

/-- The path before the first chunk. -/
def Path.start (l : Path W) : Eval W SessionId := do
  l.parser.startSession (.plain false (← l.input.run) l.position l.user) l.handlers

/-- A session that is obtained in the same way. -/
def Path.fresh (l : Path W) : Eval W SessionId := do
  l.feeds.foldlM (fun i f => do f.give (← f.program.run) i) (← l.start)

/-- A stream that the caller has made. -/
structure Supply (W : Type) where
  /-- The stream. -/
  stream : Stream Value
  /-- The program that has made it. -/
  program : Action W (Stream Value)

/-- A session that has been obtained, and how. -/
structure Member (W : Type) where
  /-- The session. -/
  session : SessionId
  /-- How it has been obtained. -/
  path : Path W

/-- What has been obtained so far. -/
structure Pool (W : Type) where
  /-- Streams. -/
  chunks : List (Supply W)
  /-- Sessions. -/
  sessions : List (Member W)

/-- The pool after a call that may give another session. -/
def Pool.gain (pool : Pool W) (l : Path W) : EStateM.Result Stop (Store W) SessionId → Pool W
  | .ok i _ => { pool with sessions := ⟨i, l⟩ :: pool.sessions }
  | .error .. => pool

/-- The pool after a session has been fed. If it takes no chunk, because its parse has ended or
because the chunk is empty, then it is given back, and the pool has it already. -/
def Pool.feed (pool : Pool W) (m : Member W) (f : Feed W) :
    EStateM.Result Stop (Store W) SessionId → Pool W
  | .ok i σ => if i = m.session then pool else pool.gain (m.path.fed f) (.ok i σ)
  | .error .. => pool

theorem Pool.feed_of_ne {pool : Pool W} {m : Member W} {f : Feed W} {i : SessionId} {σ : Store W}
    (h : i ≠ m.session) : pool.feed m f (.ok i σ) = pool.gain (m.path.fed f) (.ok i σ) := if_neg h

/-- `Call P pool σ pool' τ`: a call on what is in the pool leads from the store `σ` to `τ`, and to a
larger pool if it gives something. A call that breaks off leaves what it has changed. -/
inductive Call (P : ParserId → Prop) (pool : Pool W) (σ : Store W) : Pool W → Store W → Prop where
  /-- A stream is made. -/
  | make {a : Action W (Stream Value)} {x : Elements} {t : Stream Value} {σ' : Store W} :
      a.Supplies x → a.run.Comes σ (.ok t σ') →
      Call P pool σ { pool with chunks := ⟨t, a⟩ :: pool.chunks } σ'
  /-- A session is started from a plain state. -/
  | start {c : Supply W} {p : ParserId} {n : Int} {u : Value} {h : Handlers W}
      {r : EStateM.Result Stop (Store W) SessionId} : c ∈ pool.chunks → P p → h.Pure u →
      (p.startSession (.plain false c.stream n u) h).Comes σ r →
      Call P pool σ (pool.gain ⟨p, c.program, n, u, h, []⟩ r) (left r)
  /-- A session gets a chunk. -/
  | feed {m : Member W} {c : Supply W} (forced : Bool)
      {r : EStateM.Result Stop (Store W) SessionId} : m ∈ pool.sessions → c ∈ pool.chunks →
      ((Feed.mk c.program forced).give c.stream m.session).Comes σ r →
      Call P pool σ (pool.feed m ⟨c.program, forced⟩ r) (left r)
  /-- A session is finished. -/
  | finish {m : Member W} {r : EStateM.Result Stop (Store W) Value} : m ∈ pool.sessions →
      m.session.finish.Comes σ r → Call P pool σ pool (left r)

/-- Any number of calls, one after the other. Each of them changes the store as `K` allows. -/
inductive Calls (K : Store W → Store W → Prop) (P : ParserId → Prop) (σ₀ : Store W) :
    Pool W → Store W → Prop where
  /-- No call. -/
  | none : Calls K P σ₀ ⟨[], []⟩ σ₀
  /-- One more call. -/
  | more {pool pool' : Pool W} {σ τ : Store W} :
      Calls K P σ₀ pool σ → Call P pool σ pool' τ → K σ τ → Calls K P σ₀ pool' τ

section

variable {P : ParserId → Prop} {pool pool' : Pool W} {σ₀ σ σ' τ : Store W} {S S' R R' : Side}
  {h : Handlers W} {i j : SessionId} {x : Elements}

theorem fresh_fed {l : Path W} {f : Feed W} {τ τ₁ : Store W} {t : Stream Value}
    {r : EStateM.Result Stop (Store W) SessionId} (hl : l.fresh.Comes σ₀ (.ok j τ))
    (ht : f.program.run.Comes τ (.ok t τ₁)) (hr : (f.give t j).Comes τ₁ r) :
    (l.fed f).fresh.Comes σ₀ r := by
  have split : (l.fed f).fresh = (l.fresh >>= fun i => (do f.give (← f.program.run) i)) := by
    simp [Path.fresh, Path.fed, Path.start, bind_assoc]
  rw [split]
  exact comes_bind_ok hl (comes_bind_ok ht hr)

/-- A chunk is made, whatever else has been done. -/
theorem finds_supply {a : Action W (Stream Value)} (ha : a.Supplies x) (S : Side) :
    S.Finds a.run fun S' t => S'.Chunk t x := by
  obtain ⟨⟨d, makes⟩, data⟩ := ha
  have nothing : Contents.empty.Le S.contents :=
    ⟨fun _ _ h => (by cases h), fun _ _ h => (by cases h)⟩
  have finds := (makes.mono nothing).finds (fun e _ => Contents.reads W e)
    (Contents.above_none S.contents d)
  exact (Side.finds_contents finds).imp fun S' t _ holds => ⟨⟨_, holds⟩, data⟩

/-! ## Sessions that mirror one another -/

/-- The session has been finished with a value, and the fresh one comes to a corresponding value. -/
inductive Answered (S : Side) (σ τ : Store W) (h : Handlers W) (i j : SessionId) : Prop where
  | intro {k : ResultId} {v u : Value} {τ' : Store W} {w : World} : i.HasResult σ k →
      σ.slots k.index = .known v → j.finish.Comes τ (.ok u τ') → w.left = S → Stores w σ τ' →
      Ending w σ τ h i j (.ok v σ) (.ok u τ') → Answered S σ τ h i j

/-- A session of a pool and a fresh one. Nothing that they could come across is different, in either
direction. -/
structure Mirrored (S R : Side) (σ τ : Store W) (l : Path W) (i j : SessionId) : Prop where
  /-- What the first session comes to, the second one follows. -/
  forth : ∃ w : World, w.left = S ∧ w.user = l.user ∧ Stores w σ τ ∧ Sessions w σ τ l.handlers i j
  /-- What the second session comes to, the first one follows. -/
  back : ∃ w : World, w.right = R ∧ w.user = l.user ∧ Stores w τ σ ∧ Sessions w τ σ l.handlers j i
  /-- The second one has not been finished. -/
  fresh : j.Unasked 0 τ
  /-- Nor has the first one, or it has come to what the second one comes to. -/
  asked : i.Unasked 0 σ ∨ Answered S σ τ l.handlers i j

/-- More is known of the store, which others have gone on with. -/
structure Extends (S R : Side) (σ : Store W) (S' R' : Side) (σ' : Store W) : Prop where
  /-- More is known. -/
  left : S.Le S'
  /-- More is known in the other direction as well. -/
  right : R.Le R'
  /-- It is so. -/
  leftHolds : S'.Holds σ'
  /-- So is the other. -/
  rightHolds : R'.Holds σ'
  /-- Nothing is lost. -/
  grows : σ.Grows σ'

/-- The value is kept, whatever is done with others. -/
theorem Answered.later (a : Answered S σ τ h i j) (e : Extends S R σ S' R' σ')
    (keeps : σ.KeepsParsers σ')
    (slots : ∀ k, i.HasResult σ k → σ'.slots k.index = σ.slots k.index) :
    Answered S' σ' τ h i j := by
  cases a with
  | @intro _ _ _ _ w hk known finish hw stores ending =>
    subst hw
    cases ending with
    | answer ends ends' replies alike =>
      have le : w.Le ⟨w.pairing, S', w.right, w.user⟩ := ⟨.refl _, e.left, .refl _, rfl⟩
      have stores := stores.later e.left e.leftHolds ⟨keeps, e.grows.logging, e.grows.thunks _⟩
        (.refl _) stores.right (.refl _ _)
      refine .intro (hk.later e.grows) ((slots _ hk).trans known) finish rfl stores
        (.answer (ends.later hk e.grows) ends' ((lawful W).replies_mono le replies) ?_)
      cases alike with
      | value h => exact .value (h.mono le.scope)

/-- Whatever is done with others, the sessions still mirror one another. -/
theorem Mirrored.later {l : Path W} (m : Mirrored S R σ τ l i j) (e : Extends S R σ S' R' σ')
    (keeps : σ.KeepsParsers σ') (asked : i.Unasked 0 σ' ∨ Answered S' σ' τ l.handlers i j) :
    Mirrored S' R' σ' τ l i j := by
  obtain ⟨⟨w, rfl, hu, stores, sessions⟩, ⟨v, rfl, hu', stores', sessions'⟩, fresh, -⟩ := m
  have spares (T : TailId → Prop) : σ.Spares T σ' := ⟨keeps, e.grows.logging, e.grows.thunks T⟩
  -- Only the side of the shared store has grown. That of the fresh store and the pairing stay.
  refine ⟨⟨⟨w.pairing, S', w.right, w.user⟩, rfl, hu, ?_, ?_⟩,
    ⟨⟨v.pairing, v.left, R', v.user⟩, rfl, hu', ?_, ?_⟩, fresh, asked⟩
  · exact stores.later e.left e.leftHolds (spares _) (.refl _) stores.right (.refl _ τ)
  · have le : w.Le ⟨w.pairing, S', w.right, w.user⟩ := ⟨.refl _, e.left, .refl _, rfl⟩
    exact sessions.later le e.grows (.refl τ)
  · exact stores'.later (.refl _) stores'.left (.refl _ τ) e.right e.rightHolds (spares _)
  · have le : v.Le ⟨v.pairing, v.left, R', v.user⟩ := ⟨.refl _, .refl _, e.right, rfl⟩
    exact sessions'.later le (.refl τ) e.grows

/-- The session is there. -/
theorem Mirrored.there {l : Path W} (m : Mirrored S R σ τ l i j) :
    ∃ s, σ.sessions[i.index]? = some s := by
  obtain ⟨w, -, -, -, s, -, hi, -⟩ := m.forth
  exact ⟨s, hi⟩

/-- So is its result, if it has one. -/
theorem Mirrored.result_lt {l : Path W} (m : Mirrored S R σ τ l i j) {k : ResultId}
    (hk : i.HasResult σ k) : k.index < σ.results.size := by
  obtain ⟨w, -, -, -, s, t, hi, -, -, -, -, stage⟩ := m.forth
  obtain ⟨s', hi', hk⟩ := hk
  cases hi.symm.trans hi'
  rw [hk] at stage
  generalize t.stage = b at stage
  cases stage with
  | complete results =>
    obtain ⟨x, -, -, -, -, hx, -⟩ := results
    exact (Array.getElem?_eq_some_iff.mp hx).1

/-- What has become of its result stays, unless it is finished itself. -/
theorem Mirrored.kept {l : Path W} (m : Mirrored S R σ τ l i j)
    (e : Extends S R σ S' R' σ') (keeps : σ.KeepsParsers σ')
    (slots : ∀ k, i.HasResult σ k → σ'.slots k.index = σ.slots k.index) :
    Mirrored S' R' σ' τ l i j := by
  obtain ⟨s, hi⟩ := m.there
  exact m.later e keeps (m.asked.imp (fun h => h.later hi e.grows slots)
    fun a => a.later e keeps slots)

/-- The same is done on both sides, whichever of them leads. -/
theorem extends_of_follows {w v : World} {l : Path W} (hw : w.user = l.user) (hv : v.user = l.user)
    (stores : Stores w σ τ) {n : Nat} {y z : Eval W SessionId}
    (forth : Follows w σ τ (fun w' σ' τ' => Unfinished n w' σ' τ' l.handlers) y z)
    (back : Follows v τ σ (fun w' τ' σ' => Unfinished 0 w' τ' σ' l.handlers) z y)
    {r : EStateM.Result Stop (Store W) SessionId} (hr : y.Comes σ r) :
    ∃ S' R', Extends w.left v.right σ S' R' (left r) ∧ (left r).slots = σ.slots ∧
      ∀ i σ', r = .ok i σ' → ∃ j τ', z.Comes τ (.ok j τ') ∧ Mirrored S' R' σ' τ' l i j ∧
        i.Unasked n σ' := by
  obtain ⟨r', hr', ends⟩ := forth r hr
  -- What follows the follower is what the leader has come to.
  obtain ⟨r'', hr'', ends'⟩ := back r' hr'
  cases hr.unique hr''
  cases r with
  | error e σ' =>
    cases r' with
    | ok j τ' => exact ends.elim
    | error f τ' =>
      obtain ⟨-, w', on⟩ := ends
      obtain ⟨-, v', on'⟩ := ends'
      refine ⟨w'.left, v'.right, ?_, on.leftSlots stores, fun _ _ h => (by cases h)⟩
      exact ⟨on.le.left, on'.le.right, on.stores.left, on'.stores.right, on.left⟩
  | ok i σ' =>
    cases r' with
    | error f τ' => exact ends.elim
    | ok j τ' =>
      obtain ⟨w', on, new⟩ := ends
      obtain ⟨v', on', new'⟩ := ends'
      refine ⟨w'.left, v'.right,
        ⟨on.le.left, on'.le.right, on.stores.left, on'.stores.right, on.left⟩,
        on.leftSlots stores, ?_⟩
      rintro _ _ ⟨⟩
      exact ⟨j, τ', hr', ⟨⟨w', rfl, on.le.user.trans hw, on.stores, new.sessions⟩,
        ⟨v', rfl, on'.le.user.trans hv, on'.stores, new'.sessions⟩, new.right, .inl new'.right⟩,
        new.left⟩

/-- The session is finished. The first value that this gives is kept. -/
theorem Mirrored.finish {l : Path W} (m : Mirrored S R σ τ l i j)
    (pure : l.handlers.Pure l.user) {r : EStateM.Result Stop (Store W) Value}
    (hr : i.finish.Comes σ r) (keeps : σ.KeepsParsers (left r)) :
    ∃ S' R', Extends S R σ S' R' (left r) ∧ i.Settles σ r ∧ Mirrored S' R' (left r) τ l i j := by
  have mirrored := m
  obtain ⟨⟨w, rfl, hu, stores, sessions⟩, ⟨v, rfl, hv, stores', sessions'⟩, fresh, asked⟩ := m
  rcases asked with unasked | answered
  · obtain ⟨r', hr', w', forth⟩ := finished stores (hu ▸ pure) ⟨sessions, unasked, fresh⟩ hr
    obtain ⟨r'', hr'', v', back⟩ := finished stores' (hv ▸ pure) ⟨sessions', fresh, unasked⟩ hr'
    cases hr.unique hr''
    have e : Extends w.left v.right σ w'.left v'.right (left r) := ⟨forth.le.left, back.le.right,
      forth.stores.left, back.stores.right, (composed_finish i).grows_of_comes hr⟩
    refine ⟨w'.left, v'.right, e, forth.settles, mirrored.later e keeps ?_⟩
    obtain ⟨s, hi⟩ := mirrored.there
    by_cases complete : ∃ k, i.HasResult σ k
    · obtain ⟨k, hk⟩ := complete
      have own := forth.settles.own k hk
      cases r with
      | error f σ' =>
        refine .inl fun k' hk' => ⟨Nat.zero_le _, ?_⟩
        exact forth.settles.own k' (hk'.earlier hi e.grows)
      | ok x σ' =>
        obtain ⟨-, stores, ending, -⟩ := forth
        cases ending with
        | answer ends ends' replies alike =>
          cases alike with
          | value h =>
            exact .inr (.intro (hk.later e.grows) own hr' rfl stores
              (.answer (ends.later hk e.grows) ends' replies (.value h)))
    · exact .inl fun k hk => absurd ⟨k, hk.earlier hi e.grows⟩ complete
  · cases answered with
    | @intro k _ _ _ _ hk known finish hw stores₁ ending =>
      cases hr.unique (hk.finish known)
      refine ⟨w.left, v.right, ⟨.refl _, .refl _, stores.left, stores'.right, .refl σ⟩,
        ⟨fun k' hk' => ?_, fun _ _ _ => rfl⟩, mirrored⟩
      cases hk.completion.unique hk'.completion
      exact known

/-! ## Pools whose sessions are mirrored -/

/-- The member of a pool is mirrored by a fresh session. -/
def Member.Mirrored (σ₀ : Store W) (S R : Side) (σ : Store W) (m : Member W) : Prop :=
  ∃ j τ, m.path.fresh.Comes σ₀ (.ok j τ) ∧ Lineages.Mirrored S R σ τ m.path m.session j

/-- What is true of a pool between two calls. -/
structure Between (P : ParserId → Prop) (σ₀ : Store W) (S R : Side) (pool : Pool W) (σ : Store W) :
    Prop where
  /-- Nothing has been lost, and no more is known than is true. -/
  since : Extends S R σ₀ S R σ
  /-- The parsers are still what they were. -/
  parsers : σ₀.KeepsParsers σ
  /-- The streams hold what their programs supply. -/
  chunks : ∀ c ∈ pool.chunks, ∃ x, c.program.Supplies x ∧ S.Chunk c.stream x ∧ R.Chunk c.stream x
  /-- The handlers are pure. -/
  pure : ∀ m ∈ pool.sessions, m.path.handlers.Pure m.path.user
  /-- The sessions are mirrored by fresh ones. -/
  sessions : ∀ m ∈ pool.sessions, m.Mirrored σ₀ S R σ
  /-- They do not share results. -/
  separate : ∀ m ∈ pool.sessions, ∀ m' ∈ pool.sessions, ∀ k, m.session.HasResult σ k →
    m'.session.HasResult σ k → m = m'

/-- A member gets no result later. -/
theorem Member.Mirrored.earlier {m : Member W} (h : m.Mirrored σ₀ S R σ) (grows : σ.Grows σ')
    {k : ResultId} (hk : m.session.HasResult σ' k) : m.session.HasResult σ k := by
  obtain ⟨j, τ, -, mirrored⟩ := h
  obtain ⟨s, hi⟩ := mirrored.there
  exact hk.earlier hi grows

theorem Between.later (b : Between P σ₀ S R pool σ) (e : Extends S R σ S' R' σ')
    (keeps : σ.KeepsParsers σ') (sessions : ∀ m ∈ pool.sessions, m.Mirrored σ₀ S' R' σ') :
    Between P σ₀ S' R' pool σ' where
  since := ⟨.refl _, .refl _, e.leftHolds, e.rightHolds, b.since.grows.trans e.grows⟩
  parsers i c hc := keeps i c (b.parsers i c hc)
  chunks c hc := by
    obtain ⟨x, supplies, left, right⟩ := b.chunks c hc
    exact ⟨x, supplies, left.mono e.left, right.mono e.right⟩
  pure := b.pure
  sessions := sessions
  separate m hm m' hm' k hk hk' :=
    b.separate m hm m' hm' k ((b.sessions m hm).earlier e.grows hk)
      ((b.sessions m' hm').earlier e.grows hk')

/-- If nothing has become of the results, then all sessions are what they were. -/
theorem Between.kept (b : Between P σ₀ S R pool σ) (e : Extends S R σ S' R' σ')
    (keeps : σ.KeepsParsers σ') (slots : σ'.slots = σ.slots) : Between P σ₀ S' R' pool σ' := by
  refine b.later e keeps fun m hm => ?_
  obtain ⟨j, τ, fresh, mirrored⟩ := b.sessions m hm
  exact ⟨j, τ, fresh, mirrored.kept e keeps fun k _ => congrFun slots k.index⟩

/-- The session that a call gives is mirrored as well. Its result, if it has one, is new. -/
theorem Between.gain (b : Between P σ₀ S R pool σ) {l : Path W}
    (pure : l.handlers.Pure l.user) {r : EStateM.Result Stop (Store W) SessionId}
    (keeps : σ.KeepsParsers (left r)) (e : Extends S R σ S' R' (left r))
    (slots : (left r).slots = σ.slots)
    (mirrored : ∀ i σ', r = .ok i σ' → ∃ j τ', l.fresh.Comes σ₀ (.ok j τ') ∧
      Mirrored S' R' σ' τ' l i j ∧ i.Unasked σ.results.size σ') :
    Between P σ₀ S' R' (pool.gain l r) (left r) := by
  have kept := b.kept e keeps slots
  cases r with
  | error f σ' => exact kept
  | ok i σ' =>
    obtain ⟨j, τ', fresh, mirrored, new⟩ := mirrored i σ' rfl
    have fresh : (⟨i, l⟩ : Member W).Mirrored σ₀ S' R' σ' := ⟨j, τ', fresh, mirrored⟩
    -- The results of the others have been there before.
    have apart (m : Member W) (hm : m ∈ pool.sessions) (k : ResultId)
        (hk : m.session.HasResult σ' k) : ¬i.HasResult σ' k := by
      intro hi
      have hk := (b.sessions m hm).earlier e.grows hk
      obtain ⟨_, _, -, mirrored⟩ := b.sessions m hm
      exact absurd (mirrored.result_lt hk) (Nat.not_lt.mpr (new k hi).1)
    refine { kept with pure := ?_, sessions := ?_, separate := ?_ }
    · exact List.forall_mem_cons.mpr ⟨pure, b.pure⟩
    · exact List.forall_mem_cons.mpr ⟨fresh, kept.sessions⟩
    · intro m hm m' hm' k hk hk'
      rcases List.mem_cons.mp hm with rfl | hm <;> rcases List.mem_cons.mp hm' with rfl | hm'
      · rfl
      · exact absurd hk (apart m' hm' k hk')
      · exact absurd hk' (apart m hm k hk)
      · exact kept.separate m hm m' hm' k hk hk'

/-! ## Calls -/

/-- Of streams and states nothing is known before the first call. -/
def unknown (σ : Store W) : Side := ⟨.empty, fun _ => False, fun _ => none, σ.slots⟩

theorem holds_unknown (σ : Store W) : (unknown σ).Holds σ where
  fits := .empty σ
  apart _ h := h.elim
  sound := by
    refine ⟨fun i m c n k v p _ _ hp => ?_, fun _ _ h => h.elim, fun _ h => h.elim⟩
    cases hp with
    | append _ hi => exact hi.elim
    | refused _ hi => exact hi.elim
  memory _ _ h := by cases h
  slots := rfl

/-- Two stores in which the parsers are the same, and in which nothing belongs together yet. -/
theorem stores_only (pure : σ₀.Pure P) (hσ : σ₀.KeepsParsers σ) (hτ : σ₀.KeepsParsers τ)
    (logging : σ.logging = τ.logging) (left : S.Holds σ) (right : R.Holds τ) (user : Value) :
    Stores ⟨.only P, S, R, user⟩ σ τ where
  defines := by
    refine ⟨?_, pure.agree.parsersUnique, logging⟩
    rintro p _ ⟨rfl, hp⟩
    obtain ⟨c, hc, paired⟩ := pure p hp
    exact ⟨c, c, hσ _ c hc, hτ _ c hc, paired⟩
  tails _ _ h := h.elim
  left := left
  right := right

/-- A session is started. -/
theorem Between.start (b : Between P σ₀ S R pool σ) (pure : σ₀.Pure P) {c : Supply W}
    {p : ParserId} (n : Int) (u : Value) (hc : c ∈ pool.chunks) (hp : P p)
    {r : EStateM.Result Stop (Store W) SessionId}
    (hr : (p.startSession (.plain false c.stream n u) h).Comes σ r) :
    ∃ S' R', Extends S R σ S' R' (left r) ∧ (left r).slots = σ.slots ∧
      ∀ i σ', r = .ok i σ' → ∃ j τ',
        (Path.fresh ⟨p, c.program, n, u, h, []⟩).Comes σ₀ (.ok j τ') ∧
        Mirrored S' R' σ' τ' ⟨p, c.program, n, u, h, []⟩ i j ∧ i.Unasked σ.results.size σ' := by
  obtain ⟨x, supplies, left, right⟩ := b.chunks c hc
  -- The input is made once more, in the fresh store.
  obtain ⟨t, U, τ, ht, -, holds, spares, chunk⟩ :=
    finds_supply supplies (unknown σ₀) (unknown σ₀) σ₀ (.refl _) (holds_unknown σ₀)
  have logging : σ.logging = τ.logging := b.since.grows.logging.trans spares.logging.symm
  have stores : Stores ⟨.only P, S, U, u⟩ σ τ :=
    stores_only pure b.parsers spares.parsers logging b.since.leftHolds holds u
  have stores' : Stores ⟨.only P, U, R, u⟩ τ σ :=
    stores_only pure spares.parsers b.parsers logging.symm holds b.since.rightHolds u
  obtain ⟨S', R', e, slots, mirrored⟩ := extends_of_follows (l := ⟨p, c.program, n, u, h, []⟩)
    rfl rfl stores (follows_startSession stores le_rfl ⟨rfl, hp⟩ ⟨x, left, chunk⟩ n)
    (follows_startSession stores' (Nat.zero_le _) ⟨rfl, hp⟩ ⟨x, chunk, right⟩ n) hr
  refine ⟨S', R', e, slots, fun i σ' hi => ?_⟩
  obtain ⟨j, τ', hj, mirrored⟩ := mirrored i σ' hi
  refine ⟨j, τ', ?_, mirrored⟩
  have started : (Path.start ⟨p, c.program, n, u, h, []⟩).Comes σ₀ (.ok j τ') := comes_bind_ok ht hj
  simpa only [Path.fresh, List.foldlM_nil, bind_pure] using started

/-- A complete session takes no chunk. That it has been asked whether it is empty is not noticed. -/
theorem give_complete (hS : S.Holds σ) (hR : R.Holds σ) {t : Stream Value}
    (ht : S.Chunk t x) (ht' : R.Chunk t x) {s : Session W} (hi : σ.sessions[i.index]? = some s)
    (hd : s.isDone = true) {f : Feed W} {r : EStateM.Result Stop (Store W) SessionId}
    (hr : (f.give t i).Comes σ r) :
    ∃ S' R' σ', r = .ok i σ' ∧ Extends S R σ S' R' σ' ∧ σ'.slots = σ.slots := by
  have forced {σ : Store W} (hi : σ.sessions[i.index]? = some s) :
      (i.forceProvide (.stream t)).Comes σ (.ok i σ) :=
    comes_of_forall (fun _ => forceProvide_complete _ hi hd _) not_exhausted_ok
  rw [Feed.give] at hr
  split at hr
  · cases hr.unique (forced hi)
    exact ⟨S, R, σ, rfl, ⟨.refl _, .refl _, hS, hR, .refl σ⟩, rfl⟩
  · obtain ⟨⟨d, holds⟩, -⟩ := ht
    obtain ⟨⟨d', holds'⟩, -⟩ := ht'
    obtain ⟨empty, S', σ', look, left, hS', -⟩ :=
      Side.finds_contents holds.readable.isEmpty S σ (.refl _) hS
    obtain ⟨empty', R', σ'', look', right, hR', -⟩ :=
      Side.finds_contents holds'.readable.isEmpty R σ (.refl _) hR
    cases look.unique look'
    have grows := (composed_isEmpty t).grows_of_comes look
    have given : (i.provide (.stream t)).Comes σ (.ok i σ') := by
      simp only [SessionId.provide, Source.asStream, pure_bind]
      refine comes_bind_ok look ?_
      split
      · exact comes_pure i σ'
      · exact forced (grows.sessions _ _ hi)
    cases hr.unique given
    exact ⟨S', R', σ', rfl, ⟨left.toLe, right.toLe, hS', hR', grows⟩,
      hS'.slots.trans (left.slots.trans hS.slots.symm)⟩

/-- A session that is not complete is fed. -/
theorem Between.pending (b : Between P σ₀ S R pool σ) {m : Member W} {c : Supply W}
    (forced : Bool) (hm : m ∈ pool.sessions) (hc : c ∈ pool.chunks) {s : Session W}
    (hi : σ.sessions[m.session.index]? = some s) (hd : s.isDone = false)
    {r : EStateM.Result Stop (Store W) SessionId}
    (hr : ((Feed.mk c.program forced).give c.stream m.session).Comes σ r) :
    ∃ S' R', Extends S R σ S' R' (left r) ∧ (left r).slots = σ.slots ∧
      ∀ i σ', r = .ok i σ' → ∃ j τ',
        (m.path.fed ⟨c.program, forced⟩).fresh.Comes σ₀ (.ok j τ') ∧
        Mirrored S' R' σ' τ' (m.path.fed ⟨c.program, forced⟩) i j ∧
        i.Unasked σ.results.size σ' := by
  obtain ⟨x, supplies, left, right⟩ := b.chunks c hc
  obtain ⟨j, τ, fresh, ⟨w, rfl, hw, stores, sessions⟩, ⟨v, rfl, hv, stores', sessions'⟩, unasked,
    -⟩ := b.sessions m hm
  -- The chunk is made in the store of the fresh session as well.
  obtain ⟨t, U, τ₁, ht, hU, holds, spares, chunk⟩ :=
    finds_supply supplies w.right w.right τ (.refl _) stores.right
  obtain ⟨t', V, τ₁', ht', hV, holds', spares', chunk'⟩ :=
    finds_supply supplies v.left v.left τ (.refl _) stores'.left
  -- Both ways of looking at the fresh store agree on the chunk.
  cases ht.unique ht'
  have grows := (composed_action _).grows_of_comes ht
  have stores₁ := stores.later (.refl _) stores.left (.refl _ σ) hU.toLe holds spares
  have stores₁' := stores'.later hV.toLe holds' spares' (.refl _) stores'.right (.refl _ σ)
  have le : w.Le ⟨w.pairing, w.left, U, w.user⟩ := ⟨.refl _, .refl _, hU.toLe, rfl⟩
  have le' : v.Le ⟨v.pairing, V, v.right, v.user⟩ := ⟨.refl _, hV.toLe, .refl _, rfl⟩
  have pending := SessionId.unasked_of_pending hi hd
  have unasked₁ : j.Unasked 0 τ₁ := by
    obtain ⟨_, t, -, hj, -⟩ := sessions
    refine unasked.later hj grows fun k _ => ?_
    rw [holds.slots, hU.slots, stores.right.slots]
  have given {n : Nat} {w : World} {σ τ : Store W} {i j : SessionId} {c d : Stream Value}
      (stores : Stores w σ τ) (hn : n ≤ σ.results.size)
      (sessions : Unfinished n w σ τ m.path.handlers i j) (chunks : Chunks w c d)
      (a : Action W (Stream Value)) :
      Follows w σ τ (fun w' σ' τ' => Unfinished n w' σ' τ' m.path.handlers)
        ((Feed.mk a forced).give c i) ((Feed.mk a forced).give d j) := by
    cases forced with
    | true => exact follows_forceProvide stores hn sessions rfl rfl chunks
    | false => exact follows_provide stores hn sessions chunks
  obtain ⟨S', R', e, slots, mirrored⟩ := extends_of_follows (l := m.path.fed ⟨c.program, forced⟩)
    (w := ⟨w.pairing, w.left, U, w.user⟩) (v := ⟨v.pairing, V, v.right, v.user⟩) hw hv stores₁
    (given stores₁ le_rfl ⟨sessions.later le (.refl σ) grows, pending _, unasked₁⟩
      ⟨x, left, chunk⟩ c.program)
    (given stores₁' (Nat.zero_le _) ⟨sessions'.later le' grows (.refl σ), unasked₁, pending _⟩
      ⟨x, chunk', right⟩ c.program) hr
  refine ⟨S', R', e, slots, fun i σ' hi => ?_⟩
  obtain ⟨k, τ', hk, mirrored⟩ := mirrored i σ' hi
  exact ⟨k, τ', fresh_fed fresh ht hk, mirrored⟩

/-- A session is fed. -/
theorem Between.feed (b : Between P σ₀ S R pool σ) {m : Member W} {c : Supply W}
    (forced : Bool) (hm : m ∈ pool.sessions) (hc : c ∈ pool.chunks)
    {r : EStateM.Result Stop (Store W) SessionId}
    (hr : ((Feed.mk c.program forced).give c.stream m.session).Comes σ r)
    (keeps : σ.KeepsParsers (left r)) :
    ∃ S' R', Between P σ₀ S' R' (pool.feed m ⟨c.program, forced⟩ r) (left r) := by
  obtain ⟨_, _, -, mirrored⟩ := b.sessions m hm
  obtain ⟨s, hi⟩ := mirrored.there
  cases hd : s.isDone with
  | true =>
    obtain ⟨x, -, chunk, chunk'⟩ := b.chunks c hc
    obtain ⟨S', R', σ', rfl, e, slots⟩ :=
      give_complete b.since.leftHolds b.since.rightHolds chunk chunk' hi hd hr
    rw [Pool.feed, if_pos rfl]
    exact ⟨S', R', b.kept e keeps slots⟩
  | false =>
    obtain ⟨S', R', e, slots, mirrored⟩ := b.pending forced hm hc hi hd hr
    refine ⟨S', R', ?_⟩
    cases r with
    | error f σ' => exact b.kept e keeps slots
    | ok i σ' =>
      rw [Pool.feed]
      split
      · exact b.kept e keeps slots
      · exact b.gain (l := m.path.fed _) (b.pure m hm) keeps e slots mirrored

/-- A session is finished. -/
theorem Between.finish (b : Between P σ₀ S R pool σ) {m : Member W} (hm : m ∈ pool.sessions)
    {r : EStateM.Result Stop (Store W) Value} (hr : m.session.finish.Comes σ r)
    (keeps : σ.KeepsParsers (left r)) : ∃ S' R', Between P σ₀ S' R' pool (left r) := by
  obtain ⟨j, τ, fresh, mirrored⟩ := b.sessions m hm
  obtain ⟨S', R', e, settles, mirrored⟩ := mirrored.finish (b.pure m hm) hr keeps
  refine ⟨S', R', b.later e keeps fun m' hm' => ?_⟩
  by_cases same : m' = m
  · rw [same]
    exact ⟨j, τ, fresh, mirrored⟩
  -- The result of another session is another one.
  · obtain ⟨j', τ', fresh', mirrored'⟩ := b.sessions m' hm'
    refine ⟨j', τ', fresh', mirrored'.kept e keeps fun k hk => ?_⟩
    refine settles.others k (fun hk' => same ?_) (mirrored'.result_lt hk)
    exact b.separate m' hm' m hm k hk hk'

/-- A stream is made. -/
theorem Between.make (b : Between P σ₀ S R pool σ) {a : Action W (Stream Value)}
    (ha : a.Supplies x) {t : Stream Value} (hr : a.run.Comes σ (.ok t σ'))
    (keeps : σ.KeepsParsers σ') :
    ∃ S' R', Between P σ₀ S' R' { pool with chunks := ⟨t, a⟩ :: pool.chunks } σ' := by
  obtain ⟨u, S', σ₁, hu, left, holds, -, chunk⟩ :=
    finds_supply ha S S σ (.refl _) b.since.leftHolds
  obtain ⟨u', R', σ₁', hu', right, holds', -, chunk'⟩ :=
    finds_supply ha R R σ (.refl _) b.since.rightHolds
  cases hr.unique hu
  cases hr.unique hu'
  have grows := (composed_action a).grows_of_comes hr
  have slots : σ'.slots = σ.slots := by
    rw [holds.slots, left.slots, b.since.leftHolds.slots]
  have kept := b.kept ⟨left.toLe, right.toLe, holds, holds', grows⟩ keeps slots
  exact ⟨S', R', { kept with
    chunks := List.forall_mem_cons.mpr ⟨⟨x, ha, chunk, chunk'⟩, kept.chunks⟩ }⟩

/-- A call keeps the sessions of the pool mirrored. -/
theorem Call.between (b : Between P σ₀ S R pool σ) (pure : σ₀.Pure P)
    (call : Call P pool σ pool' σ') (keeps : σ.KeepsParsers σ') :
    ∃ S' R', Between P σ₀ S' R' pool' σ' := by
  cases call with
  | make ha hr => exact b.make ha hr keeps
  | start hc hp handlers hr =>
    obtain ⟨S', R', e, slots, mirrored⟩ := b.start pure _ _ hc hp hr
    exact ⟨S', R', b.gain handlers keeps e slots mirrored⟩
  | feed forced hm hc hr => exact b.feed forced hm hc hr keeps
  | finish hm hr => exact b.finish hm hr keeps

/-- Whatever calls have been made that keep the parsers, the sessions of the pool are mirrored by
fresh ones. -/
theorem Calls.between (calls : Calls Store.KeepsParsers P σ₀ pool σ) (pure : σ₀.Pure P) :
    ∃ S R, Between P σ₀ S R pool σ := by
  -- The induction is on the calls. Before the first one nothing is known, and no session is there.
  induction calls with
  | none =>
    have holds := holds_unknown σ₀
    exact ⟨_, _, ⟨.refl _, .refl _, holds, holds, .refl σ₀⟩, fun _ _ h => h, by simp, by simp,
      by simp, by simp⟩
  | more _ call keeps ih =>
    obtain ⟨S, R, b⟩ := ih
    exact call.between b pure keeps

end

end Lineages

end ResumableParsing
