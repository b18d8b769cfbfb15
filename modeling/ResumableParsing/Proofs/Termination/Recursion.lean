import ResumableParsing.Proofs.Termination.Iterators
import ResumableParsing.Proofs.Termination.Kinds

/-!
# Grammars without recursion always stop

A grammar without forward declarations, with total functions of the caller, builds a parser that
halts. By induction on the grammar, and inside a repetition by induction on the input that is left,
every run on a finite input comes to a reply, to a function of the caller that raises something, or
to an error of the grammar: a repetition whose argument succeeds without consuming, or a parser
without definition. The functions of the caller only have to be total on values of the kind that
the tokens and the values in the grammar are of, and their own results have to be of this kind. For
the values that can be read this means that they may read the results of repetitions.

* `Core.Halting`: all parsers that are built as the tree says halt
* `Grammar.Loopfree`: grammars without recursion, whose functions are total on a kind of values
* `Grammar.Library.halting`: such grammars build parsers that halt
* `Workshop`: stores in which such grammars have been built
* `recursion_free_grammars_stop`: their parsers always stop
-/

namespace ResumableParsing

variable {W : Type}

/-! ## Trees -/

/-- In every later store, all parsers that are built as the tree says halt. -/
def Core.Halting (U : Fault → Prop) (K V : Values W) (σ : Store W) (a : Core W) : Prop :=
  ∀ τ p, σ.Evolves τ → a.Built τ p → p.Halts U K V τ

/-- A parser halts if what it performs does. -/
theorem ParserId.Performs.halts {U : Fault → Prop} {K V : Values W} {σ : Store W} {p : ParserId}
    {b : Body W} (h : p.Performs σ b) (hb : ∀ τ, σ.Evolves τ → ∀ n (s : State Value),
      s.Bounded K n τ → (b.direct s).Halts U K V n τ) : p.Halts U K V σ :=
  fun _ k n s hs => Direct.Halts.runs (h.later k.grows) fun υ k' =>
    hb υ (k.trans k') n s (hs.later k')

namespace Core.Halting

variable {U : Fault → Prop} {K A B V V' : Values W} {σ τ : Store W} {a b : Core W} {p : ParserId}

theorem imp (h : a.Halting U K V σ) (hV : ∀ τ v, V τ v → V' τ v) : a.Halting U K V' σ :=
  fun τ p k built υ k' n s hs => (h τ p k built υ k' n s hs).imp hV (Nat.le_refl n)

theorem ref (h : p.Halts U K V σ) : (Core.ref p).Halting U K V σ := by
  rintro τ q k ⟨⟩
  exact h.later k

theorem some {f : Value → Action W Bool} (stable : K.Stable)
    (hf : K.Total U (fun _ _ => True) σ f) : (Core.some f).Halting U K K σ := by
  rintro τ p k (_ | ⟨h⟩)
  exact h.halts fun υ k' n s hs => halts_some stable hs p (hf.later (k.trans k'))

theorem pure {v : Value} (hv : ∀ τ, σ.Evolves τ → V τ v) : (Core.pure v).Halting U K V σ := by
  rintro τ p k (_ | _ | ⟨h⟩)
  exact h.halts fun υ k' n s hs => .done ⟨hv υ (k.trans k'), n, hs, Nat.le_refl n, by simp⟩

theorem fail (message : String) : (Core.fail message).Halting U K V σ := by
  rintro τ p k (_ | _ | _ | ⟨h⟩)
  exact h.halts fun υ _ n s _ => .refuse ..

/-- A parser without definition is an error of the grammar. -/
theorem undefined : (Core.undefined : Core W).Halting U K V σ := by
  rintro τ p k h υ k' n s -
  cases h.later k'.grows with
  | undefined hc hd hl =>
    have cell := comes_found hc
    have found : Composed (p.found : Eval W (Cell W)) := .bind .get fun _ => .deref _
    refine .act_ok found cell ?_
    rw [Direct.done_bind, hd]
    obtain ⟨ω, noted, debug⟩ := comes_debug (fun σ => "trying " ++ σ.parserName p) υ
    refine .act_ok (.debug _) debug (.act_ok found (comes_found (noted.parsers ▸ hc)) ?_)
    rw [Direct.done_bind, hl]
    exact .fault (f := .undefinedParser) trivial

theorem seq {c : Combine} (stable : A.Stable) (ha : a.Halting U K A σ) (hb : b.Halting U K B σ)
    (hc : c.Joins A B V) : (Core.seq a b c).Halting U K V σ := by
  intro τ p k h
  cases h with
  | seq hp hq h =>
    exact h.halts fun υ k' n s hs =>
      halts_seq hs stable ((ha τ _ k hp).later k') ((hb τ _ k hq).later k') hc

theorem alt (ha : a.Halting U K V σ) (hb : b.Halting U K V σ) :
    (Core.alt a b).Halting U K V σ := by
  intro τ p k h
  cases h with
  | alt hp hq h =>
    exact h.halts fun υ k' n s hs => halts_alt hs ((ha τ _ k hp).later k') ((hb τ _ k hq).later k')

theorem map {f : Value → Action W Value} (ha : a.Halting U K A σ) (hf : A.Total U V σ f) :
    (Core.map a f).Halting U K V σ := by
  intro τ p k h
  cases h with
  | map hp h =>
    exact h.halts fun υ k' n s hs =>
      halts_map hs ((ha τ _ k hp).later k') (hf.later (k.trans k'))

theorem bind {f : Value → Action W (Grammar W)} (ha : a.Halting U K A σ)
    (hf : A.Total U (fun _ _ => True) σ f)
    (hg : ∀ τ v g υ, σ.Evolves τ → A τ v → (f v).run.Comes τ (.ok g υ) →
      (g.build υ).1.Halts U K V (g.build υ).2) : (Core.bind a f).Halting U K V σ := by
  intro τ p k h
  cases h with
  | bind hp h =>
    exact h.halts fun υ k' n s hs =>
      halts_bind hs ((ha τ _ k hp).later k') (hf.later (k.trans k'))
        fun ω v g χ k'' => hg ω v g χ ((k.trans k').trans k'')

theorem ignore (ha : a.Halting U K V σ) (hV : ∀ τ v, V τ v → V' τ v.ignore) :
    (Core.ignore a).Halting U K V' σ := by
  intro τ p k h
  cases h with
  | ignore hp hc h =>
    exact h.halts fun υ k' n s hs =>
      halts_ignore (hc.later k'.grows) hs ((ha τ _ k hp).later k') hV

theorem attempt (ha : a.Halting U K V σ) : (Core.attempt a).Halting U K V σ := by
  intro τ p k h
  cases h with
  | attempt hp h => exact h.halts fun υ k' n s hs => halts_attempt hs ((ha τ _ k hp).later k')

theorem many (stable : A.Stable) (ha : a.Halting U K A σ) :
    (Core.many a).Halting U K A.strict σ := by
  intro τ p k h
  cases h with
  | many hp h =>
    exact h.halts fun υ k' n s hs => halts_many (h.later k'.grows) stable ((ha τ _ k hp).later k')
      hs A.strict_nil (joins_cons stable)

theorem copy (ha : a.Halting U K V σ) : (Core.copy a).Halting U K V σ := by
  intro τ p k h υ k' n s hs
  cases h with
  | copy hp hc h =>
    refine .runs (h.later k'.grows) fun ω k'' => .captured (hc.later (k'.trans k'').grows) ?_
    exact ha τ _ k hp ω (k'.trans k'') n s (hs.later k'')

/-! ### Trees of the other combinators -/

theorem join {c : Combine} (closed : K.Closed) (ha : a.Halting U K K σ) (hb : b.Halting U K K σ)
    (cons : c ≠ .cons) (append : c ≠ .append) : (Core.seq a b c).Halting U K K σ :=
  seq closed.stable ha hb (joins_of_closed closed cons append)

theorem plus (closed : K.Closed) (flags : ParserId → Bool) (ha : a.Halting U K K σ)
    (hb : b.Halting U K K σ) : (Core.plus flags a b).Halting U K K σ := by
  rw [Core.plus]
  cases a.ignored flags <;> cases b.ignored flags
  · exact join closed ha hb (by simp) (by simp)
  · exact join closed ha hb (by simp) (by simp)
  · exact join closed ha hb (by simp) (by simp)
  · exact ignore (join closed ha hb (by simp) (by simp)) fun _ _ => closed.ignore

theorem cons (stable : A.Stable) (ha : a.Halting U K A σ) (hb : b.Halting U K A.strict σ) :
    (Core.seq a b .cons).Halting U K A.strict σ := seq stable ha hb (joins_cons stable)

theorem optional (ha : a.Halting U K V σ) {v : Value} (hv : ∀ τ, σ.Evolves τ → V τ v) :
    (Core.optional a v).Halting U K V σ := alt ha (pure hv)

theorem noItems : (Core.noItems : Core W).Halting U K A.strict σ := pure fun τ _ => A.strict_nil τ

theorem repeated (stable : A.Stable) (ha : a.Halting U K A σ) (n : Nat)
    (hb : b.Halting U K A.strict σ) : (a.repeated n b).Halting U K A.strict σ := by
  induction n generalizing b with
  | zero => exact hb
  | succ n ih => exact ih (cons stable ha hb)

theorem upTo (stable : A.Stable) (ha : a.Halting U K A σ) (n : Nat)
    (hb : b.Halting U K A.strict σ) : (a.upTo n b).Halting U K A.strict σ := by
  induction n generalizing b with
  | zero => exact hb
  | succ n ih => exact ih (optional (cons stable ha hb) fun τ _ => A.strict_nil τ)

theorem times (stable : A.Stable) (n : Int) (ha : a.Halting U K A σ) :
    (Core.times n a).Halting U K A.strict σ := repeated stable ha _ noItems

theorem betweenTimes (closed : A.Closed) (low : Int) (high : Option Int)
    (ha : a.Halting U K A σ) : (Core.betweenTimes low high a).Halting U K A σ := by
  refine seq closed.stable.strict (B := A.strict) (times closed.stable low ha) ?_
    (joins_append closed)
  cases high with
  | none => exact many closed.stable ha
  | some h => exact upTo closed.stable ha _ noItems

theorem sepBy1 (closed : K.Closed) (ha : a.Halting U K K σ) (hb : b.Halting U K K σ) :
    (Core.sepBy1 a b).Halting U K K.strict σ :=
  cons closed.stable ha (many closed.stable (join closed hb ha (by simp) (by simp)))

theorem sequence (stable : A.Stable) {gs : List (Grammar W)} {flags : ParserId → Bool}
    (h : ∀ g ∈ gs, (g.core flags).Halting U K A σ) :
    (Core.sequence (Grammar.coreAll flags gs)).Halting U K A.strict σ := by
  induction gs with
  | nil => exact noItems
  | cons g gs ih =>
    exact cons stable (h g List.mem_cons_self) (ih fun p hp => h p (List.mem_cons_of_mem g hp))

end Core.Halting

/-! ## Grammars -/

/-- The functions of the caller at the top of the grammar are total on values of the kind `K`, and
the values in it are of this kind. -/
def Grammar.Total (U : Fault → Prop) (K : Values W) (σ : Store W) : Grammar W → Prop
  | .some f => K.Total U (fun _ _ => True) σ f
  | .pure v => K σ v
  | .map _ f => K.Total U K σ f
  | .bind _ f => K.Total U (fun _ _ => True) σ f
  | .optional _ v => K σ v
  | .listed _ => K.Total U K σ Build.listOf
  | .forward => False
  | .cell .. => False
  | _ => True

/-- A grammar without recursion, whose functions are total on values of the kind `K`. The grammars
that its binders give on such values are so as well, in the stores where they are given. -/
inductive Grammar.Loopfree (U : Fault → Prop) (K : Values W) : Store W → Grammar W → Prop where
  | node {σ : Store W} {g : Grammar W} : g.Total U K σ → (∀ p ∈ g.operands, Loopfree U K σ p) →
      (∀ f, g.binder? = .some f → ∀ τ v h υ, σ.Evolves τ → K τ v →
        (f v).run.Comes τ (.ok h υ) → Loopfree U K υ h) → Loopfree U K σ g

namespace Grammar.Loopfree

variable {U : Fault → Prop} {K : Values W} {σ : Store W} {g p : Grammar W}

theorem here (h : g.Loopfree U K σ) : g.Total U K σ := by
  cases h with
  | node h _ _ => exact h

theorem operand (h : g.Loopfree U K σ) (hp : p ∈ g.operands) : p.Loopfree U K σ := by
  cases h with
  | node _ h _ => exact h p hp

theorem gives {f : Value → Action W (Grammar W)} (h : (Grammar.bind p f).Loopfree U K σ)
    {τ υ : Store W} {v : Value} (k : σ.Evolves τ) (hv : K τ v)
    (given : (f v).run.Comes τ (.ok g υ)) : g.Loopfree U K υ := by
  cases h with
  | node _ _ h => exact h f rfl τ v g υ k hv given

end Grammar.Loopfree

section

variable {U : Fault → Prop} {K : Values W} {P : ParserId → Prop} {σ τ : Store W}
  {R : Reach → Prop}

/-- A parser that halts and is there. -/
structure ParserId.Stops (U : Fault → Prop) (K : Values W) (σ : Store W) (p : ParserId) :
    Prop where
  /-- It is there. -/
  there : ∃ c, σ.parsers[p.index]? = some c
  /-- It halts. -/
  halts : p.Halts U K K σ

theorem ParserId.Stops.later {p : ParserId} (h : p.Stops U K σ) (k : σ.Evolves τ) :
    p.Stops U K τ := by
  obtain ⟨c, hc⟩ := h.there
  obtain ⟨d, hd, -⟩ := k.grows.parsers _ c hc
  exact ⟨⟨d, hd⟩, h.halts.later k⟩

theorem ParserId.Stops.marked {p : ParserId} (h : p.Stops U K σ) : p.Marked σ (σ.marks p) := by
  obtain ⟨c, hc⟩ := h.there
  refine ⟨c, hc, ?_⟩
  rw [Store.marks, hc]
  rfl

/-- A grammar without recursion, over parsers that halt, has a tree that halts. -/
theorem Grammar.Library.halting {g : Grammar W} (closed : K.Closed) (h : g.Library R P)
    (hg : g.Loopfree U K σ) (hP : ∀ p, P p → p.Stops U K σ) (flags : ParserId → Bool) :
    (g.core flags).Halting U K K σ := by
  have stable := closed.stable
  have strict {σ : Store W} {a : Core W} (ha : a.Halting U K K.strict σ) : a.Halting U K K σ :=
    ha.imp fun _ _ => closed.of_strict
  induction h generalizing σ flags with
  | ref h => exact .ref (hP _ h).halts
  | some h => exact .some stable hg.here
  | token v => exact .some stable fun τ t _ _ => .inl ⟨_, τ, comes_pure _ τ, trivial⟩
  | pure v => exact .pure fun τ k => stable.later hg.here k
  | fail m => exact .fail m
  | finished h => exact .ref (hP _ h).halts
  | plus _ _ ihp ihq =>
    exact .plus closed flags (ihp (hg.operand (by simp [operands])) hP flags)
      (ihq (hg.operand (by simp [operands])) hP flags)
  | or _ _ ihp ihq =>
    exact .alt (ihp (hg.operand (by simp [operands])) hP flags)
      (ihq (hg.operand (by simp [operands])) hP flags)
  | map _ _ ih => exact .map (ih (hg.operand (by simp [operands])) hP flags) hg.here
  | @bind p f _ _ hf ih ihf =>
    have hp := ih (hg.operand (by simp [operands])) hP flags
    refine .bind hp hg.here fun τ v g υ k hv given => ?_
    -- The grammar is built where the binder has left the store.
    have k' : σ.Evolves υ := k.trans ((composed_action (f v)).evolves given)
    have hP' (q : ParserId) (hq : P q) : q.Stops U K υ := (hP q hq).later k'
    obtain ⟨m, run⟩ : ∃ m, (f v).run m τ = .ok g υ := by
      obtain ⟨-, m, run⟩ := given
      exact ⟨_, run m (Nat.le_refl m)⟩
    have made := (hf v m τ g υ run).made fun q hq => (hP' q hq).marked
    have halting := ihf v m τ g υ run (hg.gives k hv given) hP' υ.marks
    exact halting _ _ (g.evolves_build υ) made.2.built
  | skip _ ih =>
    exact .ignore (ih (hg.operand (by simp [operands])) hP flags) fun _ _ => closed.ignore
  | attempt _ ih => exact .attempt (ih (hg.operand (by simp [operands])) hP flags)
  | optional v _ ih =>
    exact .optional (ih (hg.operand (by simp [operands])) hP flags)
      fun τ k => stable.later hg.here k
  | many _ ih => exact strict (.many stable (ih (hg.operand (by simp [operands])) hP flags))
  | oneplus _ ih =>
    have hp := ih (hg.operand (by simp [operands])) hP flags
    exact strict (.cons stable hp (.many stable hp))
  | times n _ ih => exact strict (.times stable n (ih (hg.operand (by simp [operands])) hP flags))
  | betweenTimes low high _ ih =>
    exact .betweenTimes closed low high (ih (hg.operand (by simp [operands])) hP flags)
  | sepBy1 _ _ ihp ihq =>
    exact strict (.sepBy1 closed (ihp (hg.operand (by simp [operands])) hP flags)
      (ihq (hg.operand (by simp [operands])) hP flags))
  | sepBy _ _ ihp ihq =>
    have items := Core.Halting.sepBy1 closed (ihp (hg.operand (by simp [operands])) hP flags)
      (ihq (hg.operand (by simp [operands])) hP flags)
    exact strict (.optional items fun τ _ => K.strict_nil τ)
  | sequence _ ih =>
    exact strict (.sequence stable fun p hp => ih p hp (hg.operand hp) hP flags)
  | listed _ ih => exact .map (ih (hg.operand (by simp [operands])) hP flags) hg.here
  | named name _ ih => exact ih (hg.operand (by simp [operands])) hP flags
  | wrap _ ih => exact .copy (ih (hg.operand (by simp [operands])) hP flags)
  | forward => exact hg.here.elim
  | undefined name => exact .undefined
  | cell v _ _ => exact hg.here.elim

/-- Such a grammar builds a parser that halts. -/
theorem Grammar.Library.stops {g : Grammar W} (closed : K.Closed) (h : g.Library R P)
    (hg : g.Loopfree U K σ) (hP : ∀ p, P p → p.Stops U K σ) :
    (g.build σ).1.Stops U K (g.build σ).2 := by
  have made := h.made fun p hp => (hP p hp).marked
  have halting := h.halting closed hg hP σ.marks
  exact ⟨made.2.built.exists_cell, halting _ _ (g.evolves_build σ) made.2.built⟩

/-! ## Stores -/

/-- The store holds the parser at the end of the input, and parsers that have been built from
grammars without recursion over parsers built before. In between, anything may have been computed.
-/
inductive Workshop (U : Fault → Prop) (K : Values W) : (ParserId → Prop) → Store W → Prop where
  /-- There is only the parser at the end of the input. -/
  | start {σ : Store W} : ParserId.finished.Performs σ (.finished .finished) →
      Workshop U K (fun p => p = .finished) σ
  /-- A grammar is built. -/
  | build {P : ParserId → Prop} {σ : Store W} {g : Grammar W} : Workshop U K P σ →
      g.Library (fun _ => True) P → g.Loopfree U K σ →
      Workshop U K (fun p => P p ∨ p = (g.build σ).1) (g.build σ).2
  /-- Something else is computed. -/
  | later {P : ParserId → Prop} {σ τ : Store W} : Workshop U K P σ → σ.Evolves τ →
      Workshop U K P τ

theorem Workshop.stops (closed : K.Closed) (h : Workshop U K P σ) (p : ParserId) (hp : P p) :
    p.Stops U K σ := by
  induction h generalizing p with
  | start h =>
    subst hp
    exact ⟨⟨_, h.choose_spec.1⟩, h.halts fun τ _ n s hs => halts_finished hs _ closed.none⟩
  | @build P σ g _ library loopfree ih =>
    rcases hp with hp | rfl
    · exact (ih p hp).later (g.evolves_build σ)
    · exact library.stops closed loopfree ih
  | later _ k ih => exact (ih p hp).later k

/-- What a parse that has stopped has come to. -/
def Settled (U : Fault → Prop) : EStateM.Result Stop (Store W) (Finish W) → Prop
  | .ok (.reply _) _ => True
  | .ok (.request _) _ => False
  | .error e _ => ∃ f, e = .raised f ∧ f.Allowed U

/-- Parsers of grammars without recursion always stop on finite inputs: within every bound that is
large enough, after a certain number of steps, the run comes to a reply, or to something that a
function of the caller raises, or to an error of the grammar. The functions of the caller are total
on a closed kind of values, of which the tokens are. -/
theorem recursion_free_grammars_stop {p : ParserId} {w : Bool} {i : Stream Value} {position : Int}
    {u : Value} {n : Nat} (closed : K.Closed) (workshop : Workshop U K P σ) (hp : P p)
    (finite : i.Finite K n σ) :
    ∃ y, (p.run (.plain w i position u)).Comes σ y ∧ Settled U y ∧
      ∃ steps, (Task.run p (.plain w i position u) []).Reaches steps σ y := by
  have halts := (workshop.stops closed p hp).halts σ .refl n (.plain w i position u) finite
  obtain ⟨x, τ, comes, -, settled⟩ := halts
  have stops {y : EStateM.Result Stop (Store W) (Finish W)}
      (h : (p.run (.plain w i position u)).Comes σ y) (hy : Settled U y) :
      ∃ y, (p.run (.plain w i position u)).Comes σ y ∧ Settled U y ∧
        ∃ steps, (Task.run p (.plain w i position u) []).Reaches steps σ y :=
    ⟨y, h, hy, comes_complete.mp h⟩
  cases x with
  | reply r => exact stops comes.reply trivial
  | stop e =>
    obtain ⟨f, rfl, allowed⟩ := settled
    exact stops (comes.stop (by simp)) ⟨f, rfl, allowed⟩
  | waits i => exact settled.elim

/-- A repetition of a repetition, whose results are read into lists, run over a one-shot iterator of
one token: the inner repetition succeeds without consuming, and the run stops. -/
theorem recursion_free_grammars_stop_nested :
    let items : Iterator Unit := .items ⟨0, .ofList [.int 1]⟩ 0
    let start : Store Unit := { Store.initial () fun _ _ => () with
      iterators := #[items]
      cells := #[⟨⟨0⟩, .unset⟩] }
    let g : Grammar Unit := .many (.map (.many (.token (.int 1))) Build.listOf)
    let made := g.build start
    ∃ y, (made.1.run (.plain false (.pulled ⟨0⟩) 0 .none)).Comes made.2 y ∧
      Settled (· = .notAStream) y ∧
      ∃ steps,
        (Task.run made.1 (.plain false (.pulled ⟨0⟩) 0 .none) []).Reaches steps made.2 y := by
  intro items start g made
  have workshop : Workshop (· = .notAStream) Values.readable (fun p => p = .finished) start :=
    .start ⟨_, rfl, .inl ⟨rfl, rfl⟩⟩
  -- Each part of the grammar but the token has a part of its own.
  have wrapped {g p : Grammar Unit} (hg : g.Total (· = .notAStream) .readable start)
      (hp : p.Loopfree (· = .notAStream) .readable start) (operands : g.operands = [p])
      (binder : g.binder? = none) : g.Loopfree (· = .notAStream) .readable start :=
    .node hg (by simpa [operands] using hp) (by simp [binder])
  have token : (Grammar.token (.int 1) : Grammar Unit).Loopfree (· = .notAStream) .readable start :=
    .node trivial (by simp [Grammar.operands]) (by simp [Grammar.binder?])
  have inner : (Grammar.many (.token (.int 1)) : Grammar Unit).Loopfree
      (· = .notAStream) .readable start := wrapped trivial token rfl rfl
  have read : (Grammar.map (.many (.token (.int 1))) Build.listOf : Grammar Unit).Loopfree
      (· = .notAStream) .readable start :=
    wrapped (total_listOf (U := (· = .notAStream)) rfl start) inner rfl rfl
  have loopfree : g.Loopfree (· = .notAStream) .readable start := wrapped trivial read rfl rfl
  have library : g.Library (fun _ => True) fun p => p = .finished :=
    .many (.map (.many (.token _)) fun v => Action.reaches_all _)
  have single : items.AtMost (fun v => v = .int 1) 1 := by
    refine ⟨fun k _ v found => ?_, fun k hk => ?_⟩
    · cases k with
      | zero => exact (Option.some.inj found).symm
      | succ k => cases found
    · obtain ⟨k, rfl⟩ : ∃ j, k = j + 1 := ⟨k - 1, by omega⟩
      rfl
  have finite : (Stream.pulled ⟨0⟩).Finite Values.readable 1 start := by
    refine (CellId.AtMost.finite (.waiting rfl rfl single)).imp fun τ v hv => ?_
    subst hv
    exact Value.readable_leaf (by simp) rfl τ
  have k : start.Evolves made.2 := Grammar.evolves_build _ start
  exact recursion_free_grammars_stop closed_readable (workshop.build library loopfree) (.inr rfl)
    (finite.later k)

end

end ResumableParsing
