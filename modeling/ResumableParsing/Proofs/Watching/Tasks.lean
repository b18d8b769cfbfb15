import ResumableParsing.Proofs.Stream.Known
import ResumableParsing.Proofs.Watching.Trails

/-!
# Steps between two tokens

A step that does not move past a token leaves all memories alone, and it goes on in the latest state
or goes back to one of the states that its continuation keeps. Only a parser that accepts a token
asks to move past it.

* `Frame.Holds`, `Continuation.Holds`, `Task.Holds`: parsers of the library, and the states to come
  back to
* `Idles`: computations that leave states alone
* `idles_step`: a step between two tokens
-/

namespace ResumableParsing

variable {W α β γ : Type}

/-! ## The states of a task -/

/-- The state lies inside a chunk, with this memory. -/
inductive State.Lies (a : AdvanceId) : State Value → Prop where
  | intro (chunk : Int) (watched : Bool) (input : Stream Value) (position : Int) (user : Value) :
      Lies a (.chunked a chunk (.plain watched input position user))

/-- A frame of a grammar over the parsers `P`, and the states that it keeps. -/
inductive Frame.Holds (P : ParserId → Prop) : Frame W → List AdvanceId → Prop where
  | seqFirst {q : ParserId} (c : Combine) : P q → Holds P (.seqFirst q c) []
  | seqSecond (consumed : Bool) (v : Value) (c : Combine) : Holds P (.seqSecond consumed v c) []
  | altFirst {q : ParserId} {s : State Value} {a : AdvanceId} :
      P q → s.Lies a → Holds P (.altFirst q s) [a]
  | altSecond (e : ParseError Value) : Holds P (.altSecond e) []
  | map {f : Value → Action W Value} : (∀ v, (f v).Detached) → Holds P (.map f) []
  | bind {f : Value → Action W (Grammar W)} : (∀ v, (f v).Detached) →
      (∀ v, (f v).Yields (Grammar.Library (fun _ => False) P)) → Holds P (.bind f) []
  | consume : Holds P .consume []
  | ignore : Holds P .ignore []
  | attempt {s : State Value} {a : AdvanceId} : s.Lies a → Holds P (.attempt s) [a]
  | manyItem {self : ParserId} (p : ParserId) {s : State Value} {a : AdvanceId} :
      P self → s.Lies a → Holds P (.manyItem self p s) [a]
  | manyRest (v : Value) : Holds P (.manyRest v) []
  | matched (token : Value) : Holds P (.matched token) []

/-- A continuation of such frames, and the states that they keep, the innermost first. -/
inductive Continuation.Holds (P : ParserId → Prop) : Continuation W → List AdvanceId → Prop where
  | nil : Holds P [] []
  | cons {f : Frame W} {k : Continuation W} {l l' : List AdvanceId} :
      f.Holds P l → Holds P k l' → Holds P (f :: k) (l ++ l')

/-- A task between two tokens: the state that it has reached, and the states that it can come back
to. -/
inductive Task.Holds (P : ParserId → Prop) : Task W → AdvanceId → List AdvanceId → Prop where
  | run {p : ParserId} {s : State Value} {k : Continuation W} {a : AdvanceId}
      {l : List AdvanceId} :
      P p → s.Lies a → Continuation.Holds P k l → Holds P (.run p s k) a l
  | code {c : Code W} {s : State Value} {k : Continuation W} {a : AdvanceId}
      {l : List AdvanceId} : c.Library (fun _ => False) P → s.Lies a →
      Continuation.Holds P k l → Holds P (.code c s k) a l
  | deliver {r : Reply Value} {k : Continuation W} {a : AdvanceId} {l : List AdvanceId} :
      r.state.Lies a → Continuation.Holds P k l → Holds P (.deliver r k) a l

section

variable {P P' : ParserId → Prop} {k : Continuation W} {l : List AdvanceId}

theorem Frame.Holds.mono (hP : ∀ p, P p → P' p) {f : Frame W} (h : f.Holds P l) :
    f.Holds P' l := by
  cases h with
  | seqFirst c hq => exact .seqFirst c (hP _ hq)
  | seqSecond d v c => exact .seqSecond d v c
  | altFirst hq hs => exact .altFirst (hP _ hq) hs
  | altSecond e => exact .altSecond e
  | map hf => exact .map hf
  | bind hf hg =>
    exact .bind hf fun v m σ g σ' e => (hg v m σ g σ' e).mono (fun _ hr => hr) hP
  | consume => exact .consume
  | ignore => exact .ignore
  | attempt hs => exact .attempt hs
  | manyItem p hq hs => exact .manyItem p (hP _ hq) hs
  | manyRest v => exact .manyRest v
  | matched v => exact .matched v

theorem Continuation.Holds.mono (hP : ∀ p, P p → P' p) (h : Continuation.Holds P k l) :
    Continuation.Holds P' k l := by
  induction h with
  | nil => exact .nil
  | cons hf _ ih => exact .cons (hf.mono hP) ih

end

/-! ## Computations that leave states alone -/

/-- More parsers may be there, and nothing else has changed that belongs to states, results and
sessions. -/
structure Store.Idle (P : ParserId → Prop) (σ : Store W) (P' : ParserId → Prop) (τ : Store W) :
    Prop where
  /-- The parsers stay. -/
  le : ∀ p, P p → P' p
  /-- They only start one another. -/
  closed : Closed (fun _ => False) P' τ
  /-- Nothing is parsed when streams are read. -/
  still : τ.Still
  /-- What is known stays known. -/
  grows : σ.Grows τ
  /-- The rest is as it was. -/
  clear : σ.Clear τ

/-- The computation leaves states alone, and its result is as `Q` says. -/
structure Idles (P : ParserId → Prop) (n : Nat) (σ : Store W) (x : Eval W α)
    (Q : (ParserId → Prop) → α → Store W → Prop) : Prop where
  /-- What is left. -/
  next : ∃ P', σ.Idle P P' (left (x (.within n) σ)) ∧
    ∀ a τ, x (.within n) σ = .ok a τ → Q P' a τ

section

variable {P P' P'' : ParserId → Prop} {n : Nat} {σ τ υ : Store W} {x y : Eval W α}
  {f : α → Eval W β} {Q Q₁ : (ParserId → Prop) → α → Store W → Prop}
  {Q' : (ParserId → Prop) → β → Store W → Prop}

theorem Store.Clear.trans (h : σ.Clear τ) (h' : τ.Clear υ) : σ.Clear υ :=
  ⟨h'.advances.trans h.advances, h'.results.trans h.results, h'.buffers.trans h.buffers,
    h'.sessions.trans h.sessions⟩

namespace Store.Idle

theorem refl (closed : Closed (fun _ => False) P σ) (still : σ.Still) : σ.Idle P P σ :=
  ⟨fun _ hp => hp, closed, still, .refl σ, .refl σ⟩

theorem trans (h : σ.Idle P P' τ) (h' : τ.Idle P' P'' υ) : σ.Idle P P'' υ :=
  ⟨fun p hp => h'.le p (h.le p hp), h'.closed, h'.still, h.grows.trans h'.grows,
    h.clear.trans h'.clear⟩

end Store.Idle

namespace Idles

theorem of_eq (h : x (.within n) σ = y (.within n) σ) (hy : Idles P n σ y Q) : Idles P n σ x Q := by
  refine ⟨?_⟩
  rw [h]
  exact hy.next

theorem throw {e : Stop} (h : σ.Idle P P σ) : Idles P n σ (throw e : Eval W α) Q :=
  ⟨P, h, fun a τ e => by cases e⟩

theorem fault {e : Fault} (h : σ.Idle P P σ) : Idles P n σ (Eval.fault e : Eval W α) Q := throw h

theorem pure {a : α} (h : σ.Idle P P σ) (q : Q P a σ) : Idles P n σ (pure a) Q := by
  refine ⟨P, h, fun b τ e => ?_⟩
  cases e
  exact q

theorem bind (hx : Idles P n σ x Q)
    (hf : ∀ P' a τ, σ.Idle P P' τ → Q P' a τ → x (.within n) σ = .ok a τ →
      Idles P' n τ (f a) Q') : Idles P n σ (x >>= f) Q' := by
  obtain ⟨P', idle, hq⟩ := hx.next
  cases e : x (.within n) σ with
  | error e' τ =>
    rw [e] at idle
    refine ⟨P', ?_, fun b υ h => ?_⟩
    · rw [Eval.run_bind, e]
      exact idle
    · rw [Eval.run_bind, e] at h
      cases h
  | ok a τ =>
    rw [e] at idle
    obtain ⟨P'', idle', hq'⟩ := (hf P' a τ idle (hq a τ e) e).next
    refine ⟨P'', ?_, fun b υ h => ?_⟩
    · rw [Eval.run_bind, e]
      exact idle.trans idle'
    · rw [Eval.run_bind, e] at h
      exact hq' b υ h

theorem imp (hx : Idles P n σ x Q) (h : ∀ P' a τ, Q P' a τ → Q₁ P' a τ) : Idles P n σ x Q₁ := by
  obtain ⟨P', idle, hq⟩ := hx.next
  exact ⟨P', idle, fun a τ e => h P' a τ (hq a τ e)⟩

/-- What is left is part of what is known of the result. -/
theorem along (hx : Idles P n σ x Q) : Idles P n σ x fun P' a τ => σ.Idle P P' τ ∧ Q P' a τ := by
  obtain ⟨P', idle, hq⟩ := hx.next
  refine ⟨P', idle, fun a τ e => ⟨?_, hq a τ e⟩⟩
  rwa [e] at idle

/-- The store is looked at. -/
theorem get {k : Store W → Eval W α} (h : Idles P n σ (k σ) Q) :
    Idles P n σ (MonadState.get >>= k) Q := of_eq (y := k σ) rfl h

/-- What a reference leads to. -/
theorem found {a : Option α} (h : σ.Idle P P σ) (q : ∀ v, a = some v → Q P v σ) :
    Idles P n σ (Eval.deref a) Q := by
  cases a with
  | none => exact throw h
  | some v => exact pure h (q v rfl)

/-- A reference is followed. -/
theorem deref {a : Option α} (h : σ.Idle P P σ)
    (hf : ∀ v, a = some v → Idles P n σ (f v) Q') : Idles P n σ (Eval.deref a >>= f) Q' := by
  cases a with
  | none => exact throw h
  | some v => exact hf v rfl

end Idles

/-- What quiet computations leave. -/
theorem Quiet.idle (hx : Quiet x) (h : σ.Idle P P σ) (n : Nat) :
    σ.Idle P P (left (x (.within n) σ)) := by
  have grows := hx.composed.grows_within n σ
  have twins := hx.twins n σ σ (.refl σ) h.still
  rw [Eval.exec] at grows
  cases e : x (.within n) σ with
  | ok a τ =>
    rw [e] at twins grows
    exact ⟨fun _ hp => hp, h.closed.later grows, twins.2.2.1, grows, twins.2.2.2.clear⟩
  | error e' τ =>
    rw [e] at twins grows
    exact ⟨fun _ hp => hp, h.closed.later grows, twins.2.2.1, grows, twins.2.2.2.clear⟩

theorem Quiet.idles (hx : Quiet x) (h : σ.Idle P P σ) :
    Idles P n σ x fun P' _ _ => P' = P := ⟨P, hx.idle h n, fun _ _ _ => rfl⟩

/-- Building a grammar leaves states alone. -/
theorem idles_build {g : Grammar W} (h : g.Library (fun _ => False) P) (idle : σ.Idle P P σ) :
    Idles P n σ (Eval.ofBuild g.build) fun P' p _ => P' p := by
  obtain ⟨P', hP, closed, hp⟩ := h.scoped σ idle.closed
  have frame := g.build_grows.frame σ
  refine ⟨P', ⟨hP, closed, fun i x hx => ?_, g.build_grows.grows σ, ?_⟩, fun p τ e => ?_⟩
  · refine idle.still i x ?_
    change (g.build σ).2.tails[i]? = some x at hx
    rwa [frame] at hx
  · change σ.Clear (g.build σ).2
    rw [frame]
    exact ⟨rfl, rfl, rfl, rfl⟩
  · cases e
    exact hp

end

/-! ## Starting parsers -/

section

variable {P : ParserId → Prop} {n : Nat} {σ τ : Store W} {s : State Value} {k : Continuation W}
  {a : AdvanceId} {l : List AdvanceId}

/-- The task goes on in the latest state or in one that was kept. -/
def Task.Stays (P : ParserId → Prop) (a : AdvanceId) (l : List AdvanceId) (t : Task W) : Prop :=
  ∃ a' l', t.Holds P a' l' ∧ (a' :: l').Sublist (a :: a :: l)

theorem Task.Holds.stays {t : Task W} (h : t.Holds P a l) : t.Stays P a l :=
  ⟨a, l, h, .cons_cons a (.cons a (.refl l))⟩

theorem idles_refuse (idle : σ.Idle P P σ) (hs : s.Lies a) (hk : Continuation.Holds P k l)
    (reason : Reason) (expected : List ParserId) :
    Idles P n σ (Task.refuse reason expected s k) fun P' t _ => P' = P ∧ t.Stays P' a l := by
  refine (Quiet.serial.idles idle).bind ?_
  rintro P' i τ idle rfl -
  exact .pure (.refl idle.closed idle.still) ⟨rfl, (Task.Holds.deliver hs hk).stays⟩

/-- A parser that reads no token is started. -/
theorem idles_enter {b : Body W} (idle : σ.Idle P P σ) (hb : b.Library (fun _ => False) P)
    (hs : s.Lies a) (hk : Continuation.Holds P k l) (plainly : ∀ p f, b ≠ .some p f) :
    Idles P n σ (b.enter s k) fun P' t _ => t.Stays P' a l := by
  have keeps {t : Task W} (h : t.Stays P a l) : Idles P n σ (pure t : Eval W (Task W))
      fun P' t _ => t.Stays P' a l := .pure idle h
  -- A parser that keeps its own state keeps the latest state once more.
  have once {t : Task W} (h : t.Holds P a (a :: l)) : t.Stays P a l := ⟨a, a :: l, h, .refl _⟩
  cases b with
  | some self accepts => exact absurd rfl (plainly self accepts)
  | pure v => exact keeps (Task.Holds.deliver hs hk).stays
  | fail m => exact (idles_refuse idle hs hk _ _).imp fun _ _ _ h => h.2
  | finished self =>
    refine ((quiet_isEmpty s.input).idles idle).bind ?_
    rintro P' empty σ₁ idle₁ rfl -
    have idle₁ := Store.Idle.refl idle₁.closed idle₁.still
    cases empty with
    | true => exact .pure idle₁ (Task.Holds.deliver hs hk).stays
    | false =>
      refine ((quiet_first s.input).idles idle₁).bind ?_
      rintro P' token σ₂ idle₂ rfl -
      refine .get ?_
      exact (idles_refuse (.refl idle₂.closed idle₂.still) hs hk _ _).imp fun _ _ _ h => h.2
  | undeclared => exact .fault idle
  | seq p q c => exact keeps (Task.Holds.run hb.1 hs (.cons (.seqFirst c hb.2) hk)).stays
  | alt p q => exact keeps (once (.run hb.1 hs (.cons (.altFirst hb.2 hs) hk)))
  | map p f => exact keeps (Task.Holds.run hb.1 hs (.cons (.map hb.2) hk)).stays
  | bind p f => exact keeps (Task.Holds.run hb.1 hs (.cons (.bind hb.2.1 hb.2.2) hk)).stays
  | ignore inner => exact keeps (Task.Holds.code hb hs (.cons .ignore hk)).stays
  | attempt p => exact keeps (once (.run hb hs (.cons (.attempt hs) hk)))
  | many self p => exact keeps (once (.run hb.2 hs (.cons (.manyItem p hb.1 hs) hk)))
  | cell v again => exact hb.1.elim
  | native run => exact hb.elim
  | after p run => exact hb.elim

/-! ## Handing over replies -/

/-- What a step between two tokens leaves: a task that goes on in the latest state or in one that
was kept, or the end of the parse. -/
inductive Step.Stays (P : ParserId → Prop) (a : AdvanceId) (l : List AdvanceId) :
    Step (Task W) (Finish W) → Prop where
  | tail {t : Task W} : t.Stays P a l → Stays P a l (.tail t)
  | reply (r : Reply Value) : Stays P a l (.value (.reply r))

/-- A reply is handed to a frame. -/
theorem idles_resume {f : Frame W} {kept : List AdvanceId} (idle : σ.Idle P P σ)
    (hf : f.Holds P kept) {r : Reply Value} (hr : r.state.Lies a) (hk : Continuation.Holds P k l) :
    Idles P n σ (f.resume r k) fun P' s _ => Step.Stays P' a (kept ++ l) s := by
  have keeps {t : Task W} {kept : List AdvanceId} (h : t.Stays P a (kept ++ l)) :
      Idles P n σ (pure (.tail t) : Eval W (Step (Task W) (Finish W)))
        fun P' s _ => Step.Stays P' a (kept ++ l) s := .pure idle (.tail h)
  have deliver (r' : Reply Value) (hr' : r'.state.Lies a) (kept : List AdvanceId) :
      (Task.deliver r' k).Stays P a (kept ++ l) :=
    ⟨a, l, .deliver hr' hk, .cons_cons a (.cons a (List.sublist_append_right kept l))⟩
  have deliverAfter {γ : Type} {x : Eval W γ} (hx : Quiet x) {g : γ → Reply Value}
      (hg : ∀ v, (g v).state.Lies a) :
      Idles P n σ (do return Step.tail (.deliver (g (← x)) k))
        fun P' s _ => Step.Stays P' a ([] ++ l) s := by
    refine (hx.idles idle).bind ?_
    rintro P' v τ idle rfl -
    exact .pure (.refl idle.closed idle.still) (.tail (deliver _ (hg v) []))
  -- A frame that keeps a state goes back to it, or it is passed over.
  have back {t : Task W} {b : AdvanceId} (h : t.Holds P b l) : t.Stays P a ([b] ++ l) :=
    ⟨b, l, h, .cons a (.cons a (.refl _))⟩
  cases hf with
  | seqFirst c hq =>
    cases r with
    | ok d v s => exact keeps (Task.Holds.run hq hr (.cons (.seqSecond d v c) hk)).stays
    | err d e s => exact keeps (deliver _ hr [])
  | seqSecond d v c =>
    cases r with
    | ok d' u s => exact deliverAfter (quiet_join c v u) fun _ => hr
    | err d' e s => exact keeps (deliver (.err (d || d') e s) hr [])
  | @altFirst q start b hq hs =>
    rcases r with ⟨d, v, s⟩ | ⟨_ | _, e, s⟩
    · exact keeps (deliver _ hr [b])
    · exact keeps (back (.run hq hs (.cons (.altSecond e) hk)))
    · exact keeps (deliver _ hr [b])
  | altSecond e =>
    rcases r with ⟨d, v, s⟩ | ⟨_ | _, e', s⟩
    · exact keeps (deliver _ hr [])
    · exact deliverAfter .serial fun _ => hr
    · exact keeps (deliver _ hr [])
  | map hf =>
    cases r with
    | ok d v s => exact deliverAfter (quiet_action (hf v)) fun _ => hr
    | err d e s => exact keeps (deliver _ hr [])
  | bind hf hg =>
    cases r with
    | err d e s => exact keeps (deliver _ hr [])
    | ok d v s =>
      refine ((quiet_action (hf v)).idles idle).bind ?_
      rintro P' g σ₁ idle₁ rfl e₁
      have idle₁ := Store.Idle.refl idle₁.closed idle₁.still
      refine (idles_build (hg v _ _ _ _ e₁) idle₁).bind fun P₂ q σ₂ idle₂ hq _ => ?_
      refine .pure (.refl idle₂.closed idle₂.still) (.tail ?_)
      have hk := hk.mono idle₂.le
      cases d with
      | true => exact (Task.Holds.run hq hr (.cons .consume hk)).stays
      | false => exact (Task.Holds.run hq hr hk).stays
  | consume =>
    cases r with
    | ok d v s => exact keeps (deliver (.ok true v s) hr [])
    | err d e s => exact keeps (deliver (.err true e s) hr [])
  | ignore =>
    cases r with
    | ok d v s => exact keeps (deliver (.ok d v.ignore s) hr [])
    | err d e s => exact keeps (deliver _ hr [])
  | @attempt start b hs =>
    rcases r with ⟨d, v, s⟩ | ⟨_ | _, e, s⟩
    · exact keeps (deliver _ hr [b])
    · exact keeps (deliver _ hr [b])
    · exact keeps (back (.deliver hs hk))
  | @manyItem self p start b hq hs =>
    rcases r with ⟨_ | _, v, s⟩ | ⟨_ | _, e, s⟩
    · exact .get (.fault idle)
    · refine keeps ⟨a, l, .run hq hr (.cons (.manyRest v) hk), ?_⟩
      exact .cons_cons a (.cons a (.cons b (.refl l)))
    · exact keeps (back (.deliver hs hk))
    · exact keeps (deliver _ hr [b])
  | manyRest v =>
    cases r with
    | ok d u s => exact deliverAfter (quiet_join .cons v u) fun _ => hr
    | err d e s => exact keeps (deliver (.err true e s) hr [])
  | matched token => exact deliverAfter (.debug _) fun _ => hr

/-! ## Steps -/

theorem idles_startLogged {p : ParserId} (idle : σ.Idle P P σ) (hp : P p) (hs : s.Lies a)
    (hk : Continuation.Holds P k l) :
    Idles P n σ (Task.startLogged p s k) fun P' t _ => t.Stays P' a l := by
  refine ((Quiet.debug _).idles idle).bind ?_
  rintro P' _ σ₁ idle₁ rfl -
  have idle₁ := Store.Idle.refl idle₁.closed idle₁.still
  refine .get (.deref idle₁ fun c hc => ?_)
  obtain ⟨d, hd, -, logged⟩ := idle₁.closed p hp
  cases hc.symm.trans hd
  cases e : c.logged with
  | some code => exact .pure idle₁ (Task.Holds.code (logged code e) hs hk).stays
  | none => exact .fault idle₁

/-- A parser that reads a token is about to be started. -/
def Task.Reads : Task W → Prop
  | .code (.body (.some _ _)) _ _ => True
  | _ => False

/-- A step between two tokens, which does not start a parser that reads one. -/
theorem idles_step {t : Task W} (idle : σ.Idle P P σ) (ht : t.Holds P a l) (plainly : ¬t.Reads) :
    Idles P n σ t.step fun P' s _ => Step.Stays P' a l s := by
  have tail {x : Eval W (Task W)} (hx : Idles P n σ x fun P' t _ => t.Stays P' a l) :
      Idles P n σ (do return Step.tail (← x)) fun P' s _ => Step.Stays P' a l s :=
    hx.bind fun P' t τ idle ht _ => .pure (.refl idle.closed idle.still) (.tail ht)
  cases ht with
  | run hp hs hk =>
    refine .get (.deref idle fun c hc => ?_)
    -- The parsers are closed, so the run function that is found belongs to the library.
    obtain ⟨d, hd, direct, -⟩ := idle.closed _ hp
    cases hc.symm.trans hd
    cases e : c.direct with
    | some code => exact .pure idle (.tail (Task.Holds.code (direct code e) hs hk).stays)
    | none => exact tail (idles_startLogged idle hp hs hk)
  | @code c _ _ _ _ hc hs hk =>
    cases c with
    | body b =>
      refine tail (idles_enter idle hc hs hk ?_)
      rintro p f rfl
      exact plainly trivial
    | method p => exact tail (idles_startLogged idle hc hs hk)
  | deliver hr hk =>
    cases hk with
    | nil => exact .pure idle (.reply _)
    | cons hf hk => exact idles_resume idle hf hr hk

end

end ResumableParsing
