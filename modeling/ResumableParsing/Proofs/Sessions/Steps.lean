import ResumableParsing.Proofs.Sessions.Keeps

/-!
# Steps that keep the book

A step of a parse along a way leads to a step of a parse along the same way. Where it moves past a
token, the new place is behind that token; where the chunk ends, the parse waits for the chunk that
comes next on the way.

* `Task.On`, `Finish.On`: steps and ends of a parse that runs along a way
* `keeps_cross`: moving past the first token of a place
* `keeps_enter`, `keeps_resume`: parsers that are started, and that get replies
* `keeps_step`: one step
* `keeps_complete`: all steps
-/

namespace ResumableParsing

variable {W : Type}

/-- A step of a run along a way, or of a run outside chunks. A state is only moved past its first
token if there is one. -/
def Task.On (R : Reach → Prop) (b : Book) (σ : Store W) (mode : Option Way) : Task W → Prop
  | .run p s k => b.parsers p ∧ s.On b mode ∧ Continuation.On R b mode k
  | .code c s k => c.Library R b.parsers ∧ s.On b mode ∧ Continuation.On R b mode k
  | .settle s k => s.On b mode ∧ Continuation.On R b mode k
  | .cross a n inner k =>
    (State.chunked a n inner).On b mode ∧ inner.input.Occupied σ ∧ Continuation.On R b mode k
  | .deliver r k => r.state.On b mode ∧ Continuation.On R b mode k

/-- The end of such a run. -/
def Finish.On (R : Reach → Prop) (b : Book) (σ : Store W) (mode : Option Way) : Finish W → Prop
  | .reply r => r.state.On b mode
  | .request q => ∃ w, mode = some w ∧ q.On R b σ w

/-- What a step of such a run leaves. -/
def Step.On (R : Reach → Prop) (b : Book) (σ : Store W) (mode : Option Way) :
    Step (Task W) (Finish W) → Prop
  | .tail t => t.On R b σ mode
  | .value f => f.On R b σ mode

section

variable {R : Reach → Prop} {S : Prop} {B : Nat → Prop} {n : Nat} {b b' : Book} {σ τ : Store W}
  {mode : Option Way} {w : Way}

/-! ## Moving past a token -/

/-- The step past the first token of a place is remembered. -/
theorem keeps_remember (hF : Steady W R S n) (h : b.Holds R B σ) {a : AdvanceId} {x : Spot}
    (hx : b.owner a.index = some x) {v : Bool} {i j : Stream Value} {p : Int} {u : Value}
    (hi : x.inner = .plain v i p u) (ho : i.Occupied σ) (hn : i.Next σ j) :
    Keeps R S B n b σ (a.remember x.before.length (.plain v j (p + 1) u)) fun _ _ _ => True := by
  refine ((quiet_isEmpty j).keeps hF h).bind fun empty b₁ σ₁ s₁ _ e₁ => ?_
  have known := known_of_isEmpty e₁
  have ho := ho.later s₁.grows.knows
  have hn := hn.later s₁.grows.knows
  have hx := s₁.le.owner _ _ hx
  -- At the end of the chunk only that is remembered; otherwise a new place is made behind the
  -- token.
  cases empty with
  | true =>
    refine .change (fun _ => rfl)
      ⟨.refl b₁, s₁.holds.alter a fun y m hy hm => ?_, Book.Holds.grows_alter σ₁ a _⟩ trivial
    rw [hx] at hy
    cases hy
    refine ⟨by simp, by simp, fun t ht _ => ?_⟩
    cases ht
    exact ⟨v, i, j, p, u, hi, ho, hn, known, rfl⟩
  | false =>
    have right := (s₁.holds.right _ _ hx).next hi ho hn known
    obtain ⟨b₂, hle, h₂, ha⟩ := s₁.holds.inChunk right
    have s₂ : b₁.Since R B σ₁ b₂ { σ₁ with advances := σ₁.advances.push {} } :=
      ⟨hle, h₂, Book.Holds.grows_pushAdvance σ₁⟩
    refine Keeps.bind (Q := fun s b' τ => b' = b₂ ∧ τ = { σ₁ with
      advances := σ₁.advances.push {} } ∧
      s = .chunked ⟨σ₁.advances.size⟩ x.before.length (.plain v j (p + 1) u))
      (.change (fun _ => rfl) s₂ ⟨rfl, rfl, rfl⟩) ?_
    rintro s b' τ s₃ ⟨rfl, rfl, rfl⟩ -
    refine .change (fun _ => rfl)
      ⟨.refl _, s₃.holds.alter a fun y m hy hm => ?_, Book.Holds.grows_alter _ a _⟩ trivial
    rw [hle.owner _ _ hx] at hy
    cases hy
    have ho := ho.later s₂.grows.knows
    have hn := hn.later s₂.grows.knows
    have hj := Stream.Occupied.later known s₂.grows.knows
    refine ⟨by simp, fun t ht _ => ?_, fun t ht he => ?_⟩
    · cases ht
      exact ⟨v, i, j, p, u, _, hi, ho, hn, hj, rfl, ha⟩
    · -- An earlier look found the chunk exhausted, and it looked at the same rest.
      cases hm' : m.next with
      | none => cases (hm.unknown hm').symm.trans he
      | some t' =>
        obtain ⟨v', i', j', p', u', hi', -, hn', hj', -⟩ := hm.across t' hm' he
        rw [hi] at hi'
        cases hi'
        cases hn.unique hn'
        exact absurd hj' hj.not_vacant

/-- Going where the step past the first token of a place leads. -/
theorem keeps_go (h : b.Holds R B σ) {a : AdvanceId} {x : Spot}
    (hx : b.owner a.index = some x) (hl : x.Lies w) {m : Advance} (hm : m.Right b σ x)
    {k : Continuation W} (hk : Continuation.On R b (some w) k) :
    Keeps R S B n b σ (m.go x.before.length k) fun s b' τ => Step.On R b' τ (some w) s := by
  refine .deref h fun t ht => ?_
  cases he : m.exhausted with
  | false =>
    obtain ⟨v, i, j, p, u, c, -, -, -, -, rfl, hc⟩ := hm.within t ht he
    exact .pure h ⟨⟨_, hc, rfl, rfl, hl.origin, hl.chunks⟩, hk⟩
  | true =>
    obtain ⟨v, i, j, p, u, hi, ho, hn, hj, rfl⟩ := hm.across t ht he
    have right := h.right _ _ hx
    have passed := hl.origin ▸ right.passed hi ho hn hj
    obtain rfl := right.watched hi
    refine .pure h ⟨w, rfl, x.before ++ [x.chunk], j, p + 1, u, by simp, hl.chunks, ?_, passed, rfl,
      hk⟩
    simp

/-- Moving past the first token of a place. -/
theorem keeps_cross (hF : Steady W R S n) (h : b.Holds R B σ) {a : AdvanceId} {c : Int}
    {inner : State Value} {k : Continuation W} (hs : (State.chunked a c inner).On b mode)
    (ho : inner.input.Occupied σ) (hk : Continuation.On R b mode k) :
    Keeps R S B n b σ (a.cross c inner k) fun s b' τ => Step.On R b' τ mode s := by
  cases mode with
  | none => exact hs.elim
  | some w =>
    obtain ⟨x, hx, rfl, rfl, hl⟩ := hs
    obtain ⟨p, d, i, u, hi, -⟩ := h.right _ _ hx
    obtain ⟨m, hm, found⟩ := h.found hx
    refine Keeps.of_eq (y := if m.next.isSome then m.go x.before.length k else do
      a.remember x.before.length (← x.inner.advance)
      (← a.memory).go x.before.length k) (fun means => ?_) ?_
    · rw [AdvanceId.cross, Eval.run_bind, found, hi]
    -- The step is known, or it is made now and remembered.
    split
    · exact keeps_go h hx hl hm hk
    · rw [hi] at ho ⊢
      refine ((quiet_advance ..).keeps hF h).bind fun t b₁ σ₁ s₁ _ e₁ => ?_
      obtain ⟨j, rfl, hn⟩ := next_of_advance e₁
      have hx := s₁.le.owner _ _ hx
      refine (keeps_remember hF s₁.holds hx hi (ho.later s₁.grows.knows) hn).bind
        fun _ b₂ σ₂ s₂ _ _ => ?_
      have hx := s₂.le.owner _ _ hx
      obtain ⟨m', hm', found'⟩ := s₂.holds.found hx
      refine Keeps.of_eq (y := m'.go x.before.length k) (fun means => ?_) ?_
      · rw [Eval.run_bind, found']
      · exact keeps_go s₂.holds hx hl hm' (hk.mono (s₁.le.trans s₂.le))

/-- The task of moving a state past its first token. -/
theorem keeps_nextState (hF : Steady W R S n) (h : b.Holds R B σ) {s : State Value}
    (hs : s.On b mode) (ho : s.input.Occupied σ) {token : Value} {k : Continuation W}
    (hk : Continuation.On R b mode k) :
    Keeps R S B n b σ (s.next token k) fun t b' τ => t.On R b' τ mode := by
  cases s with
  | plain v i p u =>
    have moved (b₁ : Book) (σ₁ : Store W) (s₁ : b.Since R B σ b₁ σ₁) :
        Keeps R S B n b₁ σ₁ (do return Task.settle (← (State.plain v i p u).advance) k)
          fun t b' τ => t.On R b' τ mode := by
      refine ((quiet_advance ..).keeps hF s₁.holds).bind fun t b₂ σ₂ s₂ _ e => .pure s₂.holds ?_
      obtain ⟨j, rfl, -⟩ := next_of_advance e
      refine ⟨?_, hk.mono (s₁.le.trans s₂.le)⟩
      cases mode <;> exact hs
    cases v with
    | false => exact moved b σ (.refl h)
    | true => exact ((Quiet.watch token).keeps hF h).bind fun _ b₁ σ₁ s₁ _ _ => moved b₁ σ₁ s₁
  | chunked a c inner =>
    refine Keeps.change (fun _ => rfl) ⟨.refl b, h.alter a fun x m hx hm => ?_,
      Book.Holds.grows_alter σ a _⟩ ⟨hs, ?_, hk⟩
    · exact ⟨hm.unknown, hm.within, hm.across⟩
    · exact ho.later (Book.Holds.grows_alter σ a _).knows

/-! ## Starting a parser -/

theorem keeps_refuse (hF : Steady W R S n) (h : b.Holds R B σ) {s : State Value}
    (hs : s.On b mode) {k : Continuation W} (hk : Continuation.On R b mode k) (reason : Reason)
    (expected : List ParserId) :
    Keeps R S B n b σ (Task.refuse reason expected s k) fun t b' τ => t.On R b' τ mode :=
  (Quiet.serial.keeps hF h).bind fun _ _ _ s₁ _ _ => .pure s₁.holds ⟨hs.mono s₁.le, hk.mono s₁.le⟩

/-- What a parser does when it is started. -/
theorem keeps_enter (hF : Steady W R S n) (h : b.Holds R B σ) {body : Body W}
    (hb : body.Library R b.parsers) {s : State Value} (hs : s.On b mode) {k : Continuation W}
    (hk : Continuation.On R b mode k) :
    Keeps R S B n b σ (body.enter s k) fun t b' τ => t.On R b' τ mode := by
  cases body with
  | some self accepts =>
    refine ((quiet_isEmpty _).keeps hF h).bind fun empty b₁ σ₁ s₁ _ e₁ => ?_
    have known := known_of_isEmpty e₁
    cases empty with
    | true => exact keeps_refuse hF s₁.holds (hs.mono s₁.le) (hk.mono s₁.le) _ _
    | false =>
      refine ((quiet_first _).keeps hF s₁.holds).bind fun token b₂ σ₂ s₂ _ _ => ?_
      refine (keeps_action hF (fun _ => hb.2 token) s₂.holds).bind fun ok b₃ σ₃ s₃ _ _ => ?_
      have s₃' := s₂.trans s₃
      have le := s₁.le.trans s₃'.le
      cases ok with
      | true =>
        -- There is a token to move past, as the stream is not empty.
        exact keeps_nextState hF s₃.holds (hs.mono le)
          (Stream.Occupied.later known s₃'.grows.knows) (.cons trivial (hk.mono le))
      | false =>
        refine ((Quiet.debug _).keeps hF s₃.holds).bind fun _ b₄ σ₄ s₄ _ _ => .get ?_
        have le := le.trans s₄.le
        exact keeps_refuse hF s₄.holds (hs.mono le) (hk.mono le) _ _
  | pure v => exact .pure h ⟨hs, hk⟩
  | fail m => exact keeps_refuse hF h hs hk _ _
  | finished self =>
    refine ((quiet_isEmpty _).keeps hF h).bind fun empty b₁ σ₁ s₁ _ _ => ?_
    cases empty with
    | true => exact .pure s₁.holds ⟨hs.mono s₁.le, hk.mono s₁.le⟩
    | false =>
      refine ((quiet_first _).keeps hF s₁.holds).bind fun token b₂ σ₂ s₂ _ _ => .get ?_
      have le := s₁.le.trans s₂.le
      exact keeps_refuse hF s₂.holds (hs.mono le) (hk.mono le) _ _
  | undeclared => exact .fault h
  | seq p q c => exact .pure h ⟨hb.1, hs, hk.cons hb.2⟩
  | alt p q => exact .pure h ⟨hb.1, hs, hk.cons ⟨hb.2, hs⟩⟩
  | map p f => exact .pure h ⟨hb.1, hs, hk.cons hb.2⟩
  | bind p f => exact .pure h ⟨hb.1, hs, hk.cons hb.2⟩
  | ignore inner => exact .pure h ⟨hb, hs, hk.cons trivial⟩
  | attempt p => exact .pure h ⟨hb, hs, hk.cons hs⟩
  | many self p => exact .pure h ⟨hb.2, hs, hk.cons ⟨hb.1, hb.2, hs⟩⟩
  | cell v again =>
    refine Keeps.bind (Q := fun _ _ _ => True) ?_ fun cell b₁ σ₁ s₁ _ _ =>
      .pure s₁.holds ⟨hs.mono s₁.le, hk.mono s₁.le⟩
    let σ' : Store W := { σ with
      nextSerial := σ.nextSerial + 1, tails := σ.tails.push ⟨.parse again s, .unset⟩ }
    have k : σ.Grows σ' := { Store.Grows.refl σ with
      nextSerial := Nat.le_succ _, tails := .push _ _ }
    refine .change (τ := σ') (fun _ => rfl) (⟨.refl b, ?_, k⟩ : b.Since R B σ b σ') trivial
    refine h.later k (fun i x hx => ?_) rfl h.results rfl
    change (σ.tails.push _)[i]? = some x at hx
    rw [Array.getElem?_push] at hx
    split at hx
    · cases hx
      exact ⟨hb.2, mode, hs⟩
    · exact h.tails i x hx
  | native run => exact hb.elim
  | after p run => exact hb.elim

/-! ## Receiving a reply -/

/-- What a parser does with the reply of a parser that it has started. -/
theorem keeps_resume (hF : Steady W R S n) (h : b.Holds R B σ) {f : Frame W} (hf : f.On R b mode)
    {r : Reply Value} (hr : r.state.On b mode) {k : Continuation W}
    (hk : Continuation.On R b mode k) :
    Keeps R S B n b σ (f.resume r k) fun s b' τ => Step.On R b' τ mode s := by
  -- A reply that is passed on, and one whose state and result come from a quiet computation.
  have deliver {r' : Reply Value} (hr' : r'.state.On b mode) :
      Keeps R S B n b σ (pure (.tail (.deliver r' k))) fun s b' τ => Step.On R b' τ mode s :=
    .pure h ⟨hr', hk⟩
  have deliverAfter {γ : Type} {x : Eval W γ} (hx : Quiet x) {g : γ → Reply Value}
      (hg : ∀ v, (g v).state.On b mode) :
      Keeps R S B n b σ (do return .tail (.deliver (g (← x)) k))
        fun s b' τ => Step.On R b' τ mode s :=
    (hx.keeps hF h).bind fun v b₁ σ₁ s₁ _ _ => .pure s₁.holds ⟨(hg v).mono s₁.le, hk.mono s₁.le⟩
  cases f with
  | seqFirst q c =>
    cases r with
    | ok d v s => exact .pure h ⟨hf, hr, hk.cons trivial⟩
    | err d e s => exact deliver hr
  | seqSecond d v c =>
    cases r with
    | ok d' u s => exact deliverAfter (quiet_join c v u) fun _ => hr
    | err d' e s => exact deliver hr
  | altFirst q start =>
    rcases r with ⟨d, v, s⟩ | ⟨_ | _, e, s⟩
    · exact deliver hr
    · exact .pure h ⟨hf.1, hf.2, hk.cons trivial⟩
    · exact deliver hr
  | altSecond e =>
    rcases r with ⟨d, v, s⟩ | ⟨_ | _, e', s⟩
    · exact deliver hr
    · exact deliverAfter .serial fun _ => hr
    · exact deliver hr
  | map f =>
    cases r with
    | ok d v s =>
      exact (keeps_action hF (fun _ => hf v) h).bind fun u b₁ σ₁ s₁ _ _ =>
        .pure s₁.holds ⟨State.On.mono s₁.le hr, hk.mono s₁.le⟩
    | err d e s => exact deliver hr
  | bind f =>
    cases r with
    | ok d v s =>
      refine (keeps_action hF (fun _ => hf.1 v) h).bind fun g b₁ σ₁ s₁ _ e₁ => ?_
      have hg := (hf.2 v _ _ _ _ e₁).mono (fun _ hr => hr) s₁.le.parsers
      obtain ⟨b₂, le₂, h₂, hq⟩ := s₁.holds.build hg
      refine Keeps.bind (Q := fun q b' _ => b'.parsers q)
        (.change (fun _ => rfl) ⟨le₂, h₂, g.build_grows.grows σ₁⟩ hq)
        fun q b₃ σ₃ s₃ hq _ => .pure s₃.holds ?_
      have le := s₁.le.trans s₃.le
      refine ⟨hq, State.On.mono le hr, ?_⟩
      split
      · exact (hk.mono le).cons trivial
      · exact hk.mono le
    | err d e s => exact deliver hr
  | consume => exact deliver (by rwa [Reply.state_consume])
  | ignore =>
    cases r with
    | ok d v s => exact deliver hr
    | err d e s => exact deliver hr
  | attempt start =>
    rcases r with ⟨d, v, s⟩ | ⟨_ | _, e, s⟩
    · exact deliver hr
    · exact deliver hr
    · exact .pure h ⟨hf, hk⟩
  | manyItem self p start =>
    rcases r with ⟨_ | _, v, s⟩ | ⟨_ | _, e, s⟩
    · exact .get (.fault h)
    · exact .pure h ⟨hf.1, hr, hk.cons trivial⟩
    · exact .pure h ⟨hf.2.2, hk⟩
    · exact deliver hr
  | manyRest v =>
    cases r with
    | ok d u s => exact deliverAfter (quiet_join .cons v u) fun _ => hr
    | err d e s => exact deliver hr
  | matched token =>
    exact ((Quiet.debug _).keeps hF h).bind fun _ b₁ σ₁ s₁ _ _ =>
      .pure s₁.holds ⟨State.On.mono s₁.le hr, hk.mono s₁.le⟩
  | crossed a c => exact hf.elim
  | after start run => exact hf.elim

/-! ## Steps -/

theorem keeps_startLogged (hF : Steady W R S n) (h : b.Holds R B σ) {p : ParserId}
    (hp : b.parsers p) {s : State Value} (hs : s.On b mode) {k : Continuation W}
    (hk : Continuation.On R b mode k) :
    Keeps R S B n b σ (Task.startLogged p s k) fun t b' τ => t.On R b' τ mode := by
  refine ((Quiet.debug _).keeps hF h).bind fun _ b₁ σ₁ s₁ _ _ => .get (.deref s₁.holds ?_)
  intro c hc
  obtain ⟨d, hd, -, hl⟩ := s₁.holds.closed p (s₁.le.parsers p hp)
  rw [hc] at hd
  cases hd
  cases e : c.logged with
  | some code => exact .pure s₁.holds ⟨hl code e, hs.mono s₁.le, hk.mono s₁.le⟩
  | none => exact .fault s₁.holds

/-- One step. -/
theorem keeps_step (hF : Steady W R S n) (h : b.Holds R B σ) {t : Task W}
    (ht : t.On R b σ mode) :
    Keeps R S B n b σ t.step fun s b' τ => Step.On R b' τ mode s := by
  have logged {p : ParserId} {s : State Value} {k : Continuation W} (hp : b.parsers p)
      (hs : s.On b mode) (hk : Continuation.On R b mode k) :
      Keeps R S B n b σ (do return .tail (← Task.startLogged p s k))
        fun s b' τ => Step.On R b' τ mode s :=
    (keeps_startLogged hF h hp hs hk).bind fun t b₁ σ₁ s₁ ht _ => .pure s₁.holds ht
  cases t with
  | run p s k =>
    refine .get (.deref h fun c hc => ?_)
    obtain ⟨d, hd, hc', -⟩ := h.closed p ht.1
    rw [hc] at hd
    cases hd
    cases e : c.direct with
    | some code => exact .pure h ⟨hc' code e, ht.2⟩
    | none => exact logged ht.1 ht.2.1 ht.2.2
  | code c s k =>
    cases c with
    | body b =>
      exact (keeps_enter hF h ht.1 ht.2.1 ht.2.2).bind fun t b₁ σ₁ s₁ ht _ => .pure s₁.holds ht
    | method p => exact logged ht.1 ht.2.1 ht.2.2
  | settle s k =>
    exact ((Quiet.debug _).keeps hF h).bind fun _ b₁ σ₁ s₁ _ _ =>
      .pure s₁.holds ⟨State.On.mono s₁.le ht.1, ht.2.mono s₁.le⟩
  | cross a c inner k => exact keeps_cross hF h ht.1 ht.2.1 ht.2.2
  | deliver r k =>
    cases k with
    | nil => exact .pure h ht.1
    | cons f k =>
      exact keeps_resume hF h (ht.2 f List.mem_cons_self) ht.1
        fun g hg => ht.2 g (List.mem_cons_of_mem _ hg)

/-- At most so many steps. -/
theorem keeps_runFor (hF : Steady W R S n) (m : Nat) (h : b.Holds R B σ) {t : Task W}
    (ht : t.On R b σ mode) :
    Keeps R S B n b σ (t.runFor m) fun f b' τ => f.On R b' τ mode := by
  induction m generalizing t b σ with
  | zero => exact .throw h
  | succ m ih =>
    refine (keeps_step hF h ht).bind fun s b₁ σ₁ s₁ hs _ => ?_
    cases s with
    | tail t => exact ih s₁.holds hs
    | value f => exact .pure s₁.holds hs

/-- All steps. -/
theorem keeps_complete (hF : Steady W R S n) (h : b.Holds R B σ) {t : Task W}
    (ht : t.On R b σ mode) :
    Keeps R S B n b σ t.complete fun f b' τ => f.On R b' τ mode :=
  .steps (g := fun m => t.runFor m) (keeps_runFor hF n h ht)

end

end ResumableParsing
