import ResumableParsing.Proofs.Binding.Tracking

/-!
# The laws of binding

A parser can be bound to a function that gives the next parser from its result. Binding obeys the
laws of a monad, and mapping is binding to a function that gives parsers of values. The laws hold of
whole replies: outcome, value or error, and state. Whatever the functions of the caller do, both
sides of a law run the same parsers in the same states, and differ in messages, serial numbers and
parsers of their own only; so for pure functions the replies are the same, in plain states and
inside chunks.

* `Grammar.entered`: a parser is built and its attempt is logged
* `Process.chain`, `Process.image`: the processes on both sides of the laws
* `given_pure`, `given_image`, `given_bind`: what functions of the caller add to them
* `LeftUnit`, `RightUnit`, `Associativity`, `Mapping`: the laws
* `binding_is_monadic`: they hold
-/

namespace ResumableParsing

variable {W : Type}

/-! ## Parsers that are built on the way -/

/-- The store after a parser has been built from the grammar, and its attempt has been logged. -/
def Grammar.entered (g : Grammar W) (σ : Store W) : Store W := (g.build σ).1.tried (g.build σ).2

namespace Build

variable {σ : Store W}

theorem leaves_body (text : String) (f : ParserId → Body W) :
    Leaves σ (Build.body text f) fun b τ => b.Performs τ (f b) ∧ σ.Enlarged τ := by
  obtain ⟨k, performs, -⟩ := Leaves.body (σ := σ) text f
  exact ⟨k, performs, .push σ _⟩

theorem leaves_pure (v : Value) :
    Leaves σ (Build.pure v) fun b τ => b.Performs τ (.pure v) ∧ σ.Enlarged τ := by
  refine .bind .look ?_
  rintro _ _ - ⟨rfl, rfl⟩
  exact leaves_body _ _

theorem leaves_bind (p : ParserId) (f : Value → Action W (Grammar W)) :
    Leaves σ (Build.bind p f) fun b τ => b.Performs τ (.bind p f) ∧ σ.Enlarged τ :=
  leaves_body ("(" ++ σ.parserName p ++ " >>=)") fun _ => .bind p f

theorem leaves_map (p : ParserId) (h : Value → Action W Value) :
    Leaves σ (Build.map p h) fun b τ => b.Performs τ (.map p h) ∧ σ.Enlarged τ :=
  leaves_body (σ.parserName p) fun _ => .map p h

end Build

theorem enlarged_entered_pure (v : Value) (σ : Store W) :
    σ.Enlarged ((Grammar.pure v).entered σ) := by
  obtain ⟨-, -, enlarged⟩ := Build.leaves_pure (σ := σ) v
  exact enlarged.trans (ParserId.clerical_tried _ _).enlarged

theorem enlarged_entered_bind (p : ParserId) (f : Value → Action W (Grammar W)) (σ : Store W) :
    σ.Enlarged ((Grammar.bind (.ref p) f).entered σ) := by
  obtain ⟨-, -, enlarged⟩ := Build.leaves_bind (σ := σ) p f
  exact enlarged.trans (ParserId.clerical_tried _ _).enlarged

/-- A grammar that depends on the result of a program of the caller. -/
theorem built_bind {α : Type} (a : Action W α) (k : α → Action W (Grammar W)) :
    Correspondence.built (a.bind k) = a.run >>= fun x => Correspondence.built (k x) := by
  rw [Correspondence.built, Action.run_bind, bind_assoc]
  rfl

/-- A parser that is built from a grammar that a program of the caller gives. -/
theorem built_done {G : Grammar W → Grammar W} {b : ParserId → Build W ParserId}
    (hG : ∀ g, (G g).build = g.build >>= b) (a : Action W (Grammar W)) :
    Correspondence.built (a.bind fun g => .done (G g)) =
      Correspondence.built a >>= fun q => Eval.ofBuild (b q) := by
  rw [built_bind, Correspondence.built, bind_assoc]
  congr 1
  funext g
  change Eval.ofBuild (G g).build = _
  rw [hG]
  rfl

/-! ## Both sides of the laws -/

namespace Process

variable {chunks : Int → Stream Value} {p q : ParserId} {f g : Value → Action W (Grammar W)}
  {h : Value → Action W Value}

/-- A parser, then the parser that the first function gives, and then the parser that the second
function gives. Something is done to the store before the second parser runs. -/
def chain (chunks : Int → Stream Value) (p : ParserId) (f g : Value → Action W (Grammar W))
    (before : ParserId → Store W → Store W) : Process W :=
  (p.process chunks).bind fun v => .act (Correspondence.built (f v)) fun q =>
    ((q.process chunks).bind fun u => .given chunks (g u)).after (before q)

/-- A parser, and then a function of the caller that gives a value. Something is done to the store
behind it. -/
def image (chunks : Int → Stream Value) (p : ParserId) (h : Value → Action W Value)
    (behind : Value → Store W → Store W) : Process W :=
  (p.process chunks).bind fun v => .act (h v).run fun u => (pure u).after (behind u)

/-- The image under a function that does nothing is the parser itself. -/
theorem image_done : image chunks p .done (fun _ => id) = (p.process chunks : Process W) := by
  have unchanged : (fun v => act (Action.done v : Action W Value).run fun u =>
      (pure u : Process W).after id) = pure := funext fun v => act_pure v
  rw [image, unchanged, ParserId.process_bind_pure]

/-! ### What functions of the caller give -/

/-- The parser of a value is built and run. -/
theorem given_pure (v : Value) :
    given chunks (.done (.pure v)) = (pure v : Process W).after (Grammar.pure v).entered := by
  refine ext fun s σ y => ?_
  obtain ⟨-, performs, -⟩ := Build.leaves_pure (σ := σ) v
  have built (σ : Store W) : (Correspondence.built (.done (.pure v))).Comes σ
      (.ok (Build.pure v σ).1 (Build.pure v σ).2) := comes_of_forall (fun _ => rfl) not_exhausted_ok
  exact (act_change built).trans (arrives_pure performs)

/-- A function gives a value, and then the parser of this value is built and run. -/
theorem given_image (chunks : Int → Stream Value) (a : Action W Value) :
    given chunks (a.bind fun u => .done (.pure u)) =
      .act a.run fun u => (pure u).after (Grammar.pure u).entered := by
  rw [given, built_bind, act_act (composed_action a)]
  exact congrArg _ (funext given_pure)

/-- A function gives a grammar, and then the parser for it is bound to another function. -/
theorem given_bind (chunks : Int → Stream Value) (a : Action W (Grammar W)) :
    given chunks (a.bind fun q => .done (.bind q g)) =
      .act (Correspondence.built a) fun q =>
        ((q.process chunks).bind fun u => .given chunks (g u)).after
          (Grammar.bind (.ref q) g).entered := by
  have built := built_done (G := fun q => .bind q g) (b := fun q => Build.bind q g) (fun _ => rfl) a
  rw [given, built, act_act (composed_built a)]
  refine congrArg _ (funext fun q => ext fun s σ y => ?_)
  obtain ⟨-, performs, -⟩ := Build.leaves_bind (σ := σ) q g
  have builds (σ : Store W) : (Eval.ofBuild (Build.bind q g)).Comes σ
      (.ok (Build.bind q g σ).1 (Build.bind q g σ).2) :=
        comes_of_forall (fun _ => rfl) not_exhausted_ok
  exact (act_change builds).trans (arrives_bind performs)

end Process

/-! ### Side by side -/

namespace Correspondence

variable {C : Correspondence W} {chunks : Int → Stream Value} {w : C.World} {p : ParserId}
  {f g : Value → Action W (Grammar W)} {h : Value → Action W Value}

/-- Chains of the same parser and functions go side by side, whatever is done in between. -/
theorem tracks_chain (hC : C.Lawful) (tolerant : C.Tolerant chunks w) (hp : C.Parsers w p p)
    (hf : C.Binders w f f) (hg : C.Binders w g g) {k k' : ParserId → Store W → Store W}
    (hk : ∀ q (σ : Store W), σ.Enlarged (k q σ)) (hk' : ∀ q (σ : Store W), σ.Enlarged (k' q σ)) :
    C.Tracks w (.chain chunks p f g k) (.chain chunks p f g k') := by
  refine tracks_bind hC (tracks_start hC tolerant hp) fun w₁ v u h₁ hv => ?_
  have gives := hC.binders (hC.binders_mono h₁ hf) w₁ v u (hC.le (hC.refl w₁)) hv
  refine tracks_act hC gives fun w₂ q q' h₂ hq => ?_
  have h₂ := hC.trans h₁ h₂
  have later := tolerant.mono hC.toOrdered h₂
  refine tracks_after later (hk q) (hk' q') ?_
  refine tracks_bind hC (tracks_start hC later hq) fun w₃ v u h₃ hv => ?_
  exact tracks_given hC (later.mono hC.toOrdered h₃) (hC.binders_mono (hC.trans h₂ h₃) hg) hv

/-- So do images under the same function. -/
theorem tracks_image (hC : C.Lawful) (tolerant : C.Tolerant chunks w) (hp : C.Parsers w p p)
    (hh : C.Functions w C.Values (fun v => (h v).run) fun v => (h v).run)
    {k k' : Value → Store W → Store W} (hk : ∀ v (σ : Store W), σ.Enlarged (k v σ))
    (hk' : ∀ v (σ : Store W), σ.Enlarged (k' v σ)) :
    C.Tracks w (.image chunks p h k) (.image chunks p h k') := by
  refine tracks_bind hC (tracks_start hC tolerant hp) fun w₁ v u h₁ hv => ?_
  refine tracks_act hC (hh w₁ v u h₁ hv) fun w₂ a b h₂ hab => ?_
  exact tracks_after (tolerant.mono hC.toOrdered (hC.trans h₁ h₂)) (hk a) (hk' b)
    (tracks_pure hC hab)

end Correspondence

/-! ## The laws -/

/-- In all stores that keep the definitions of `base`, in every state, and whatever the functions of
the caller do, the parser arrives where the process does. -/
def ParserId.Proceeds (base : Store W) (a : ParserId)
    (A : (Int → Stream Value) → Process W) : Prop :=
  ∀ chunks σ s y, base.Maintains σ → (a.Arrives chunks s σ y ↔ A chunks s σ y)

/-- Both processes reply in the store as the other one does. -/
structure Process.Same (σ : Store W) (A A' : (Int → Stream Value) → Process W) : Prop where
  /-- The right one replies as the left one does. -/
  forth : Process.Alike σ A A'
  /-- The left one replies as the right one does. -/
  back : Process.Alike σ A' A

/-- In all stores that keep the definitions of `base`, both processes reply as the other one does,
if the parsers of a set are pure, and what the processes are made of is as `pure` says. -/
def Process.Agrees (base : Store W) (pure : (ParserId → Prop) → Prop)
    (A A' : (Int → Stream Value) → Process W) : Prop :=
  ∀ P σ, base.Maintains σ → σ.Pure P → pure P → Process.Same σ A A'

/-- Binding the parser `constant` of the value `v` is to do what the function gives for the value.
-/
structure LeftUnit (base : Store W) (unit constant : ParserId) (v : Value)
    (f : Value → Action W (Grammar W)) : Prop where
  /-- The parser is built that the function gives for the value, and it runs. -/
  proceeds : unit.Proceeds base fun chunks =>
    (Process.given chunks (f v)).after fun σ => constant.tried (unit.tried σ)
  /-- So it replies, if the function is pure. -/
  replies : Process.Agrees base
    (fun P => (Pairing.only P).Like v v ∧ (Pairing.only P).Functions Grammar.Paired f f)
    (fun chunks => unit.process chunks) fun chunks => .given chunks (f v)

/-- Binding a parser to the parsers of values changes nothing. -/
structure RightUnit (base : Store W) (same p : ParserId) : Prop where
  /-- The parser runs, and then the parser of its value. -/
  proceeds : same.Proceeds base fun chunks =>
    (Process.image chunks p .done fun v => (Grammar.pure v).entered).after same.tried
  /-- So it replies as the parser does. -/
  replies : Process.Agrees base (fun P => P p) (fun chunks => same.process chunks) fun chunks =>
    p.process chunks

/-- Binding twice is binding to a function that binds. -/
structure Associativity (base : Store W) (nested inner flat p : ParserId)
    (f g : Value → Action W (Grammar W)) : Prop where
  /-- Bound twice, a parser is followed by what the two functions give, one after the other. -/
  left : nested.Proceeds base fun chunks =>
    (Process.chain chunks p f g fun _ => id).after fun σ => inner.tried (nested.tried σ)
  /-- So it is if the first function binds what it gives to the second one. -/
  right : flat.Proceeds base fun chunks =>
    (Process.chain chunks p f g fun q => (Grammar.bind (.ref q) g).entered).after flat.tried
  /-- So both reply alike, if the functions are pure. -/
  replies : Process.Agrees base
    (fun P => P p ∧ (Pairing.only P).Functions Grammar.Paired f f ∧
      (Pairing.only P).Functions Grammar.Paired g g)
    (fun chunks => nested.process chunks) fun chunks => flat.process chunks

/-- Mapping is binding to a function that gives parsers of values. -/
structure Mapping (base : Store W) (mapped bound p : ParserId) (h : Value → Action W Value) :
    Prop where
  /-- The value is what the function gives. -/
  left : mapped.Proceeds base fun chunks =>
    (Process.image chunks p h fun _ => id).after mapped.tried
  /-- So it is for the parser that is bound. -/
  right : bound.Proceeds base fun chunks =>
    (Process.image chunks p h fun u => (Grammar.pure u).entered).after bound.tried
  /-- So both reply alike, if the function is pure. -/
  replies : Process.Agrees base (fun P => P p ∧ (Pairing.only P).Functions Pairing.Like h h)
    (fun chunks => mapped.process chunks) fun chunks => bound.process chunks

section

variable {base : Store W} {p : ParserId} {A A' B B' : (Int → Stream Value) → Process W}
  {f g : Value → Action W (Grammar W)} {h : Value → Action W Value} {v : Value}

/-- Processes that go side by side, wherever parsers of the set and pure functions correspond to
themselves, reply alike. So do processes that are the same in these stores. -/
theorem Process.agrees_of_tracks {pure : (ParserId → Prop) → Prop}
    (hB : ∀ chunks σ s y, base.Maintains σ → (B chunks s σ y ↔ A chunks s σ y))
    (hB' : ∀ chunks σ s y, base.Maintains σ → (B' chunks s σ y ↔ A' chunks s σ y))
    (tracks : ∀ P, pure P → ∀ (chunks : Int → Stream Value) (C : Correspondence W) (w : C.World),
      C.Begins chunks P w → C.Tracks w (A chunks) (A' chunks) ∧ C.Tracks w (A' chunks) (A chunks)) :
    Process.Agrees base pure B B' := by
  intro P σ keeps hσ hP
  have left (chunks s y) := hB chunks σ s y keeps
  have right (chunks s y) := hB' chunks σ s y keeps
  have forth : Process.Alike σ A A' :=
    alike_of_tracks hσ fun chunks C w begins => (tracks P hP chunks C w begins).1
  have back : Process.Alike σ A' A :=
    alike_of_tracks hσ fun chunks C w begins => (tracks P hP chunks C w begins).2
  exact ⟨forth.congr left right, back.congr right left⟩

theorem ParserId.enlarged_tried (a : ParserId) (σ : Store W) : σ.Enlarged (a.tried σ) :=
  (a.clerical_tried σ).enlarged

theorem ParserId.enlarged_tried_twice (a b : ParserId) (σ : Store W) :
    σ.Enlarged (b.tried (a.tried σ)) := (a.enlarged_tried σ).trans (b.enlarged_tried _)

theorem LeftUnit.of_performs {unit constant : ParserId} (hu : unit.Performs base (.bind constant f))
    (hc : constant.Performs base (.pure v)) : LeftUnit base unit constant v f := by
  have proceeds : unit.Proceeds base fun chunks =>
      (Process.given chunks (f v)).after fun σ => constant.tried (unit.tried σ) := by
    intro chunks σ s y keeps
    have value (z : EStateM.Result Stop (Store W) (Finish W)) :
        constant.process chunks s (unit.tried σ) z ↔
          Process.pure v s (constant.tried (unit.tried σ)) z :=
      arrives_pure ((hc.maintained keeps (by simp)).tried unit)
    refine (arrives_bind (hu.maintained keeps (by simp))).trans
      ((Process.bind_congr value).trans ?_)
    rw [Process.pure_bind]
    rfl
  refine ⟨proceeds, Process.agrees_of_tracks proceeds (fun _ _ _ _ _ => .rfl) ?_⟩
  rintro P ⟨hv, hf⟩ chunks C w begins
  have given := Correspondence.tracks_given begins.lawful begins.tolerant (begins.binders f hf)
    (begins.values v hv)
  constructor
  · exact Correspondence.tracks_after begins.tolerant
      (unit.enlarged_tried_twice constant) .refl given
  · exact Correspondence.tracks_after begins.tolerant .refl
      (unit.enlarged_tried_twice constant) given

theorem RightUnit.of_performs {same : ParserId}
    (hs : same.Performs base (.bind p fun v => .done (.pure v))) : RightUnit base same p := by
  -- Both are images of `p`, one under the parser that gives the result again, one under itself.
  have proceeds : same.Proceeds base fun chunks =>
      (Process.image chunks p .done fun v => (Grammar.pure v).entered).after same.tried := by
    intro chunks σ s y keeps
    have given (v : Value) := Process.given_image chunks (Action.done v : Action W Value)
    exact (arrives_bind (hs.maintained keeps (by simp))).trans (Process.bind_iff given)
  have itself (chunks : Int → Stream Value) (σ : Store W) (s : State Value)
      (y : EStateM.Result Stop (Store W) (Finish W)) (_ : base.Maintains σ) :
      p.process chunks s σ y ↔ Process.image chunks p .done (fun _ => id) s σ y := by
    rw [Process.image_done]
  refine ⟨proceeds, Process.agrees_of_tracks proceeds itself ?_⟩
  intro P hp chunks C w begins
  have hC := begins.lawful
  have nothing : C.Functions w C.Values (fun v => (Action.done v : Action W Value).run)
      fun v => (Action.done v : Action W Value).run :=
    fun w' v u _ hv => hC.pure fun w'' hle => hC.values_mono hle hv
  have image {k k' : Value → Store W → Store W} (hk : ∀ v (σ : Store W), σ.Enlarged (k v σ))
      (hk' : ∀ v (σ : Store W), σ.Enlarged (k' v σ)) :=
    Correspondence.tracks_image hC begins.tolerant (begins.parsers p hp) nothing hk hk'
  constructor
  · exact Correspondence.tracks_after begins.tolerant same.enlarged_tried .refl
      (image enlarged_entered_pure fun _ => .refl)
  · exact Correspondence.tracks_after begins.tolerant .refl same.enlarged_tried
      (image (fun _ => .refl) enlarged_entered_pure)

theorem Associativity.of_performs {nested inner flat : ParserId}
    (hn : nested.Performs base (.bind inner g)) (hi : inner.Performs base (.bind p f))
    (hf : flat.Performs base (.bind p fun v => (f v).bind fun q => .done (.bind q g))) :
    Associativity base nested inner flat p f g := by
  have left : nested.Proceeds base fun chunks =>
      (Process.chain chunks p f g fun _ => id).after fun σ => inner.tried (nested.tried σ) := by
    intro chunks σ s y keeps
    have first (z : EStateM.Result Stop (Store W) (Finish W)) :
        inner.process chunks s (nested.tried σ) z ↔ (p.process chunks).bind
          (fun v => .given chunks (f v)) s (inner.tried (nested.tried σ)) z :=
      arrives_bind ((hi.maintained keeps (by simp)).tried nested)
    refine (arrives_bind (hn.maintained keeps (by simp))).trans
      ((Process.bind_congr first).trans ?_)
    -- Now the two binds are regrouped, and the parser of the second grammar is the inner one.
    rw [Process.bind_assoc]
    exact Process.bind_iff fun v => Process.act_bind
  have right : flat.Proceeds base fun chunks =>
      (Process.chain chunks p f g fun q => (Grammar.bind (.ref q) g).entered).after flat.tried := by
    intro chunks σ s y keeps
    have given (v : Value) := Process.given_bind (g := g) chunks (f v)
    exact (arrives_bind (hf.maintained keeps (by simp))).trans (Process.bind_iff given)
  refine ⟨left, right, Process.agrees_of_tracks left right ?_⟩
  rintro P ⟨hp, hf, hg⟩ chunks C w begins
  have chain {k k' : ParserId → Store W → Store W} (hk : ∀ q (σ : Store W), σ.Enlarged (k q σ))
      (hk' : ∀ q (σ : Store W), σ.Enlarged (k' q σ)) :=
    Correspondence.tracks_chain begins.lawful begins.tolerant (begins.parsers p hp)
      (begins.binders f hf) (begins.binders g hg) hk hk'
  have entered (q : ParserId) (σ : Store W) := enlarged_entered_bind q g σ
  constructor
  · exact Correspondence.tracks_after begins.tolerant (nested.enlarged_tried_twice inner)
      flat.enlarged_tried (chain (fun _ => .refl) entered)
  · exact Correspondence.tracks_after begins.tolerant flat.enlarged_tried
      (nested.enlarged_tried_twice inner) (chain entered fun _ => .refl)

theorem Mapping.of_performs {mapped bound : ParserId} (hm : mapped.Performs base (.map p h))
    (hb : bound.Performs base (.bind p fun v => (h v).bind fun u => .done (.pure u))) :
    Mapping base mapped bound p h := by
  have left : mapped.Proceeds base fun chunks =>
      (Process.image chunks p h fun _ => id).after mapped.tried := by
    intro chunks σ s y keeps
    rw [arrives_map (hm.maintained keeps (by simp))]
    exact mapArrives_iff_bind
  have right : bound.Proceeds base fun chunks =>
      (Process.image chunks p h fun u => (Grammar.pure u).entered).after bound.tried := by
    intro chunks σ s y keeps
    have given (v : Value) := Process.given_image chunks (h v)
    exact (arrives_bind (hb.maintained keeps (by simp))).trans (Process.bind_iff given)
  refine ⟨left, right, Process.agrees_of_tracks left right ?_⟩
  rintro P ⟨hp, hh⟩ chunks C w begins
  have image {k k' : Value → Store W → Store W} (hk : ∀ v (σ : Store W), σ.Enlarged (k v σ))
      (hk' : ∀ v (σ : Store W), σ.Enlarged (k' v σ)) :=
    Correspondence.tracks_image begins.lawful begins.tolerant (begins.parsers p hp)
      (begins.maps h hh) hk hk'
  constructor
  · exact Correspondence.tracks_after begins.tolerant mapped.enlarged_tried bound.enlarged_tried
      (image (fun _ => .refl) enlarged_entered_pure)
  · exact Correspondence.tracks_after begins.tolerant bound.enlarged_tried mapped.enlarged_tried
      (image enlarged_entered_pure fun _ => .refl)

end

/-- Binding obeys the laws of a monad, and mapping is binding to a function that gives parsers of
values. For any parser, any value and any functions of the caller, all sides of the laws are built
in a store. In all stores that keep these definitions, in every state, inside sessions as well, and
whatever chunks the input comes in, both sides of a law run the same parsers in the same states and
go on in the same way, up to messages, serial numbers and parsers that only one of them builds. If
the functions are pure, both sides reply alike: with the same outcome, the same value or error, and
the same state, or they break off for the same reason. -/
theorem binding_is_monadic (p : ParserId) (v : Value) (f g : Value → Action W (Grammar W))
    (h : Value → Action W Value) (σ : Store W) :
    let unit := (Grammar.bind (.pure v) f).build σ
    let same := (Grammar.bind (.ref p) fun u => .done (.pure u)).build unit.2
    let nested := (Grammar.bind (.bind (.ref p) f) g).build same.2
    let flat :=
      (Grammar.bind (.ref p) fun u => (f u).bind fun q => .done (.bind q g)).build nested.2
    let mapped := (Grammar.map (.ref p) h).build flat.2
    let bound := (Grammar.bind (.ref p) fun u => (h u).bind fun x => .done (.pure x)).build mapped.2
    (∃ constant, LeftUnit bound.2 unit.1 constant v f) ∧ RightUnit bound.2 same.1 p ∧
      (∃ inner, Associativity bound.2 nested.1 inner flat.1 p f g) ∧
      Mapping bound.2 mapped.1 bound.1 p h := by
  intro unit same nested flat mapped bound
  obtain ⟨-, hc, -⟩ := Build.leaves_pure (σ := σ) v
  obtain ⟨k₁, hu, -⟩ := Build.leaves_bind (σ := (Build.pure v σ).2) (Build.pure v σ).1 f
  obtain ⟨k₂, hs, -⟩ := Build.leaves_bind (σ := unit.2) p fun u => .done (.pure u)
  obtain ⟨k₃, hi, -⟩ := Build.leaves_bind (σ := same.2) p f
  obtain ⟨k₄, hn, -⟩ :=
    Build.leaves_bind (σ := (Build.bind p f same.2).2) (Build.bind p f same.2).1 g
  obtain ⟨k₅, hf, -⟩ := Build.leaves_bind (σ := nested.2) p fun u =>
    (f u).bind fun q => .done (.bind q g)
  obtain ⟨k₆, hm, -⟩ := Build.leaves_map (σ := flat.2) p h
  obtain ⟨k₇, hb, -⟩ := Build.leaves_bind (σ := mapped.2) p fun u =>
    (h u).bind fun x => .done (.pure x)
  -- Each parser keeps its definition while the ones after it are built.
  have fromFlat := k₆.trans k₇
  have fromNested := k₅.trans fromFlat
  have fromSame := (k₃.trans k₄).trans fromNested
  have fromUnit := k₂.trans fromSame
  refine ⟨⟨_, .of_performs (hu.later fromUnit.grows) (hc.later (k₁.trans fromUnit).grows)⟩,
    .of_performs (hs.later fromSame.grows), ⟨_, .of_performs (hn.later fromNested.grows)
      (hi.later (k₄.trans fromNested).grows) (hf.later fromFlat.grows)⟩, ?_⟩
  exact .of_performs (hm.later k₇.grows) hb

end ResumableParsing
