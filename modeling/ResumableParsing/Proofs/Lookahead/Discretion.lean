import ResumableParsing.Proofs.Grammar.Core
import ResumableParsing.Proofs.Lookahead.Avoidance

/-!
# Grammars that leave an iterator to the library

Tokens are taken from an iterator by the library. The functions of the caller in a grammar are
discreet if they do not take any: given values that do not lead to the iterator, they leave it alone
and give such values. They may do what they like otherwise: look at the world and change it, read
other streams, and raise faults.

* `IteratorId.Discreet`: functions of the caller
* `Grammar.Discreet`, `Core.Discreet`, `Code.Discreet`: grammars and parsers with such functions
* `AllDiscreet`: sets of such parsers
* `AllDiscreet.build`, `AllDiscreet.define`: building and defining keeps them discreet
-/

namespace ResumableParsing

variable {W α : Type}

/-! ## Functions of the caller -/

/-- Now and later, given a value that does not lead to the iterator, the function leaves the
iterator alone, and what it gives has the property `Q`. -/
def IteratorId.Discreet (it : IteratorId) (Q : Store W → α → Prop) (σ : Store W)
    (f : Value → Action W α) : Prop :=
  ∀ n τ v, σ.Retains τ → τ.Private it → v.Avoids it τ → it.Spared Q τ ((f v).run (.within n) τ)

/-- Predicates. -/
abbrev IteratorId.Tests (it : IteratorId) (σ : Store W) (f : Value → Action W Bool) : Prop :=
  it.Discreet (fun _ _ => True) σ f

/-- Functions that give values. -/
abbrev IteratorId.Maps (it : IteratorId) (σ : Store W) (f : Value → Action W Value) : Prop :=
  it.Discreet (fun τ v => v.Avoids it τ) σ f

/-- Functions that give grammars with a property. -/
structure IteratorId.Binds (it : IteratorId) (Q : Store W → Grammar W → Prop) (σ : Store W)
    (f : Value → Action W (Grammar W)) : Prop where
  /-- They leave the iterator alone. -/
  spares : it.Discreet (fun _ _ => True) σ f
  /-- The grammars have the property. -/
  gives : ∀ n τ v g τ', σ.Retains τ → τ.Private it → v.Avoids it τ →
    (f v).run (.within n) τ = .ok g τ' → Q τ' g

section

variable {it : IteratorId} {σ τ : Store W} {Q Q' : Store W → Grammar W → Prop}

theorem IteratorId.Discreet.later {R : Store W → α → Prop} {f : Value → Action W α}
    (h : it.Discreet R σ f) (k : σ.Retains τ) : it.Discreet R τ f :=
  fun n υ v k' => h n υ v (k.trans k')

/-- A function that computes is discreet. -/
theorem discreet_done {R : Store W → α → Prop} {f : Value → α}
    (hf : ∀ τ v, v.Avoids it τ → R τ (f v)) : it.Discreet R σ fun v => .done (f v) :=
  fun _ τ v _ alone hv => ⟨.refl alone, hf τ v hv⟩

theorem maps_listOf : it.Maps σ (Build.listOf : Value → Action W Value) :=
  fun n _ _ _ alone hv => spared_listOf (spares_within it n) alone hv

theorem IteratorId.Binds.later {f : Value → Action W (Grammar W)} (h : it.Binds Q σ f)
    (k : σ.Retains τ) : it.Binds Q τ f :=
  ⟨h.spares.later k, fun n υ v g υ' k' => h.gives n υ v g υ' (k.trans k')⟩

theorem IteratorId.Binds.spared {f : Value → Action W (Grammar W)} (h : it.Binds Q σ f) (n : Nat)
    {v : Value} (k : σ.Retains τ) (alone : τ.Private it) (hv : v.Avoids it τ) :
    it.Spared Q τ ((f v).run (.within n) τ) := by
  have spared := h.spares n τ v k alone hv
  cases e : (f v).run (.within n) τ with
  | ok g υ =>
    rw [e] at spared
    exact ⟨spared.1, h.gives n τ v g υ k alone hv e⟩
  | error f υ =>
    rw [e] at spared
    exact spared

end

/-! ## Grammars and parsers -/

/-- Grammars of the library whose functions are discreet, and whose values do not lead to the
iterator. -/
inductive Grammar.Discreet (it : IteratorId) : Store W → Grammar W → Prop where
  | ref {σ : Store W} (p : ParserId) : Discreet it σ (.ref p)
  | some {σ : Store W} {f : Value → Action W Bool} : it.Tests σ f → Discreet it σ (.some f)
  | token {σ : Store W} (v : Value) : Discreet it σ (.token v)
  | pure {σ : Store W} {v : Value} : v.Avoids it σ → Discreet it σ (.pure v)
  | fail {σ : Store W} (message : String) : Discreet it σ (.fail message)
  | finished {σ : Store W} : Discreet it σ .finished
  | plus {σ : Store W} {p q : Grammar W} : Discreet it σ p → Discreet it σ q →
      Discreet it σ (.plus p q)
  | or {σ : Store W} {p q : Grammar W} : Discreet it σ p → Discreet it σ q →
      Discreet it σ (.or p q)
  | map {σ : Store W} {p : Grammar W} {f : Value → Action W Value} : Discreet it σ p →
      it.Maps σ f → Discreet it σ (.map p f)
  | bind {σ : Store W} {p : Grammar W} {f : Value → Action W (Grammar W)} : Discreet it σ p →
      it.Discreet (fun _ _ => True) σ f →
      (∀ n τ v g τ', σ.Retains τ → τ.Private it → v.Avoids it τ →
        (f v).run (.within n) τ = .ok g τ' → Discreet it τ' g) → Discreet it σ (.bind p f)
  | skip {σ : Store W} {p : Grammar W} : Discreet it σ p → Discreet it σ (.skip p)
  | attempt {σ : Store W} {p : Grammar W} : Discreet it σ p → Discreet it σ (.attempt p)
  | optional {σ : Store W} {p : Grammar W} {v : Value} : Discreet it σ p → v.Avoids it σ →
      Discreet it σ (.optional p v)
  | many {σ : Store W} {p : Grammar W} : Discreet it σ p → Discreet it σ (.many p)
  | oneplus {σ : Store W} {p : Grammar W} : Discreet it σ p → Discreet it σ (.oneplus p)
  | times {σ : Store W} {p : Grammar W} (n : Int) : Discreet it σ p → Discreet it σ (.times n p)
  | betweenTimes {σ : Store W} {p : Grammar W} (low : Int) (high : Option Int) :
      Discreet it σ p → Discreet it σ (.betweenTimes low high p)
  | sepBy1 {σ : Store W} {p q : Grammar W} : Discreet it σ p → Discreet it σ q →
      Discreet it σ (.sepBy1 p q)
  | sepBy {σ : Store W} {p q : Grammar W} : Discreet it σ p → Discreet it σ q →
      Discreet it σ (.sepBy p q)
  | sequence {σ : Store W} {ps : List (Grammar W)} : (∀ p ∈ ps, Discreet it σ p) →
      Discreet it σ (.sequence ps)
  | listed {σ : Store W} {p : Grammar W} : Discreet it σ p → Discreet it σ (.listed p)
  | named {σ : Store W} {p : Grammar W} (name : String) : Discreet it σ p →
      Discreet it σ (.named p name)
  | wrap {σ : Store W} {p : Grammar W} : Discreet it σ p → Discreet it σ (.wrap p)
  | forward {σ : Store W} : Discreet it σ .forward
  | undefined {σ : Store W} (name : String) : Discreet it σ (.undefined name)

/-- Trees whose functions and values are like that, over parsers of the set `P`. -/
def Core.Discreet (it : IteratorId) (P : ParserId → Prop) (σ : Store W) : Core W → Prop
  | .ref p => P p
  | .some f => it.Tests σ f
  | .pure v => v.Avoids it σ
  | .fail _ => True
  | .undeclared => True
  | .undefined => True
  | .seq a b _ => a.Discreet it P σ ∧ b.Discreet it P σ
  | .alt a b => a.Discreet it P σ ∧ b.Discreet it P σ
  | .map a f => a.Discreet it P σ ∧ it.Maps σ f
  | .bind a f => a.Discreet it P σ ∧ (∀ v, (f v).Yields (Grammar.Library (fun _ => True) P)) ∧
      it.Binds (Grammar.Discreet it) σ f
  | .ignore a => a.Discreet it P σ
  | .attempt a => a.Discreet it P σ
  | .many a => a.Discreet it P σ
  | .cell .. => False
  | .copy a => a.Discreet it P σ

mutual

/-- What a parser does whose functions and values are like that. -/
def Body.Discreet (it : IteratorId) (σ : Store W) : Body W → Prop
  | .some _ f => it.Tests σ f
  | .pure v => v.Avoids it σ
  | .map _ f => it.Maps σ f
  | .bind _ f => it.Binds (Grammar.Discreet it) σ f
  | .ignore inner => inner.Discreet it σ
  | .cell .. => False
  | _ => True

/-- A run function that does so. -/
def Code.Discreet (it : IteratorId) (σ : Store W) : Code W → Prop
  | .body b => b.Discreet it σ
  | .method _ => True

end

/-- The run function is one of the library over parsers of the set, and discreet. -/
def Code.DiscreetOver (it : IteratorId) (P : ParserId → Prop) (σ : Store W) (c : Code W) : Prop :=
  c.Library (fun _ => True) P ∧ c.Discreet it σ

/-- A set of parsers of the library that only start one another, and are discreet. -/
def AllDiscreet (it : IteratorId) (P : ParserId → Prop) (σ : Store W) : Prop :=
  ∀ p, P p → ∃ c : Cell W, σ.parsers[p.index]? = some c ∧
    ∀ code, c.direct = some code ∨ c.logged = some code → code.DiscreetOver it P σ

section

variable {it : IteratorId} {P P' : ParserId → Prop} {σ τ : Store W}

theorem Grammar.Discreet.later {g : Grammar W} (h : g.Discreet it σ) (k : σ.Retains τ) :
    g.Discreet it τ := by
  induction h generalizing τ with
  | ref p => exact .ref p
  | some hf => exact .some (hf.later k)
  | token v => exact .token v
  | pure hv => exact .pure (hv.later k)
  | fail m => exact .fail m
  | finished => exact .finished
  | plus _ _ ihp ihq => exact .plus (ihp k) (ihq k)
  | or _ _ ihp ihq => exact .or (ihp k) (ihq k)
  | map _ hf ih => exact .map (ih k) (hf.later k)
  | bind _ hf gives ih _ =>
    exact .bind (ih k) (hf.later k) fun n υ v g υ' k' => gives n υ v g υ' (k.trans k')
  | skip _ ih => exact .skip (ih k)
  | attempt _ ih => exact .attempt (ih k)
  | optional _ hv ih => exact .optional (ih k) (hv.later k)
  | many _ ih => exact .many (ih k)
  | oneplus _ ih => exact .oneplus (ih k)
  | times n _ ih => exact .times n (ih k)
  | betweenTimes low high _ ih => exact .betweenTimes low high (ih k)
  | sepBy1 _ _ ihp ihq => exact .sepBy1 (ihp k) (ihq k)
  | sepBy _ _ ihp ihq => exact .sepBy (ihp k) (ihq k)
  | sequence _ ih => exact .sequence fun p hp => ih p hp k
  | listed _ ih => exact .listed (ih k)
  | named name _ ih => exact .named name (ih k)
  | wrap _ ih => exact .wrap (ih k)
  | forward => exact .forward
  | undefined name => exact .undefined name

mutual

theorem Body.Discreet.later (k : σ.Retains τ) : ∀ {b : Body W}, b.Discreet it σ → b.Discreet it τ
  | .some .., h => IteratorId.Discreet.later h k
  | .pure _, h => Value.Avoids.later k h
  | .map .., h => IteratorId.Discreet.later h k
  | .bind .., h => IteratorId.Binds.later h k
  | .ignore _, h => Code.Discreet.later k h
  | .fail _, h => h
  | .finished _, h => h
  | .undeclared, h => h
  | .seq .., h => h
  | .alt .., h => h
  | .attempt _, h => h
  | .many .., h => h
  | .native _, h => h
  | .after .., h => h

theorem Code.Discreet.later (k : σ.Retains τ) : ∀ {c : Code W}, c.Discreet it σ → c.Discreet it τ
  | .body _, h => Body.Discreet.later k h
  | .method _, h => h

end

theorem Code.DiscreetOver.later {c : Code W} (h : c.DiscreetOver it P σ) (k : σ.Retains τ) :
    c.DiscreetOver it P τ :=
  ⟨h.1, h.2.later k⟩

theorem Code.DiscreetOver.mono {c : Code W} (h : c.DiscreetOver it P σ) (hP : ∀ p, P p → P' p) :
    c.DiscreetOver it P' σ :=
  ⟨h.1.mono (fun _ h => h) hP, h.2⟩

theorem AllDiscreet.later (h : AllDiscreet it P σ) (k : σ.Retains τ) (continues : σ.Continues τ) :
    AllDiscreet it P τ := by
  intro p hp
  obtain ⟨c, hc, codes⟩ := h p hp
  obtain ⟨d, hd, direct, logged⟩ := continues _ c hc
  refine ⟨d, hd, fun code e => ?_⟩
  rw [direct, logged] at e
  exact (codes code e).later k

theorem AllDiscreet.closed (h : AllDiscreet it P σ) : Closed (fun _ => True) P σ := by
  intro p hp
  obtain ⟨c, hc, codes⟩ := h p hp
  exact ⟨c, hc, fun code e => (codes code (.inl e)).1, fun code e => (codes code (.inr e)).1⟩

/-! ## Building -/

namespace Core.Discreet

variable {a b : Core W} {flags : ParserId → Bool}

theorem plus (ha : a.Discreet it P σ) (hb : b.Discreet it P σ) :
    (Core.plus flags a b).Discreet it P σ := by
  rw [Core.plus]
  cases a.ignored flags <;> cases b.ignored flags <;> exact ⟨ha, hb⟩

theorem repeated (ha : a.Discreet it P σ) (n : Nat) (hb : b.Discreet it P σ) :
    (a.repeated n b).Discreet it P σ := by
  induction n generalizing b with
  | zero => exact hb
  | succ n ih => exact ih ⟨ha, hb⟩

theorem upTo (ha : a.Discreet it P σ) (n : Nat) (hb : b.Discreet it P σ) :
    (a.upTo n b).Discreet it P σ := by
  induction n generalizing b with
  | zero => exact hb
  | succ n ih => exact ih ⟨⟨ha, hb⟩, .nil⟩

theorem betweenTimes (low : Int) (high : Option Int) (ha : a.Discreet it P σ) :
    (Core.betweenTimes low high a).Discreet it P σ := by
  refine ⟨repeated ha _ .nil, ?_⟩
  cases high with
  | none => exact ha
  | some h => exact upTo ha _ .nil

theorem sequence {gs : List (Grammar W)} (h : ∀ g ∈ gs, (g.core flags).Discreet it P σ) :
    (Core.sequence (Grammar.coreAll flags gs)).Discreet it P σ := by
  induction gs with
  | nil => exact .nil
  | cons g gs ih =>
    exact ⟨h g List.mem_cons_self, ih fun p hp => h p (List.mem_cons_of_mem g hp)⟩

end Core.Discreet

/-- The tree of a discreet grammar is discreet. -/
theorem Grammar.Library.core_discreet {g : Grammar W} (h : g.Library (fun _ => True) P)
    (hg : g.Discreet it σ) (flags : ParserId → Bool) : (g.core flags).Discreet it P σ := by
  induction h with
  | ref h => exact h
  | some _ =>
    cases hg with
    | some hf => exact hf
  | token v => exact discreet_done fun _ _ _ => trivial
  | pure v =>
    cases hg with
    | pure hv => exact hv
  | fail m => trivial
  | finished h => exact h
  | plus _ _ ihp ihq =>
    cases hg with
    | plus hp hq => exact .plus (ihp hp) (ihq hq)
  | or _ _ ihp ihq =>
    cases hg with
    | or hp hq => exact ⟨ihp hp, ihq hq⟩
  | map _ _ ih =>
    cases hg with
    | map hp hf => exact ⟨ih hp, hf⟩
  | bind _ _ hg' ih _ =>
    cases hg with
    | bind hp hf gives => exact ⟨ih hp, hg', hf, gives⟩
  | skip _ ih =>
    cases hg with
    | skip hp => exact ih hp
  | attempt _ ih =>
    cases hg with
    | attempt hp => exact ih hp
  | optional v _ ih =>
    cases hg with
    | optional hp hv => exact ⟨ih hp, hv⟩
  | many _ ih =>
    cases hg with
    | many hp => exact ih hp
  | oneplus _ ih =>
    cases hg with
    | oneplus hp => exact ⟨ih hp, ih hp⟩
  | times n _ ih =>
    cases hg with
    | times _ hp => exact .repeated (ih hp) _ .nil
  | betweenTimes low high _ ih =>
    cases hg with
    | betweenTimes _ _ hp => exact .betweenTimes low high (ih hp)
  | sepBy1 _ _ ihp ihq =>
    cases hg with
    | sepBy1 hp hq => exact ⟨ihp hp, ihq hq, ihp hp⟩
  | sepBy _ _ ihp ihq =>
    cases hg with
    | sepBy hp hq => exact ⟨⟨ihp hp, ihq hq, ihp hp⟩, .nil⟩
  | sequence _ ih =>
    cases hg with
    | sequence each => exact Core.Discreet.sequence fun p hp => ih p hp (each p hp)
  | listed _ ih =>
    cases hg with
    | listed hp => exact ⟨ih hp, maps_listOf⟩
  | named name _ ih =>
    cases hg with
    | named _ hp => exact ih hp
  | wrap _ ih =>
    cases hg with
    | wrap hp => exact ih hp
  | forward => trivial
  | undefined name => trivial
  | cell v _ _ => cases hg

/-- The parsers of the set, and those that are built over it as discreet trees say. -/
def Over (it : IteratorId) (P : ParserId → Prop) (σ : Store W) (p : ParserId) : Prop :=
  P p ∨ ∃ a : Core W, a.Discreet it P σ ∧ a.Built σ p

/-- The run functions of a parser that is built as a discreet tree says. -/
theorem Core.Built.discreetOver {a : Core W} {p : ParserId} (h : a.Built σ p)
    (ha : a.Discreet it P σ) (hP : AllDiscreet it P σ) :
    ∃ c : Cell W, σ.parsers[p.index]? = .some c ∧
      ∀ code, c.direct = .some code ∨ c.logged = .some code →
        code.DiscreetOver it (Over it P σ) σ := by
  have above {p : ParserId} (hp : P p) : Over it P σ p := .inl hp
  have built {a : Core W} {p : ParserId} (h : a.Built σ p) (ha : a.Discreet it P σ) :
      Over it P σ p := .inr ⟨a, ha, h⟩
  have one {p : ParserId} {code : Code W} (h : p.Runs σ code)
      (hc : code.DiscreetOver it (Over it P σ) σ) :
      ∃ c : Cell W, σ.parsers[p.index]? = .some c ∧
        ∀ code, c.direct = .some code ∨ c.logged = .some code →
          code.DiscreetOver it (Over it P σ) σ := by
    obtain ⟨c, hcell, ⟨h, h'⟩ | ⟨h, h'⟩⟩ := h <;> refine ⟨c, hcell, fun code' e => ?_⟩ <;>
      rw [h, h'] at e <;> rcases e with e | e <;> cases e <;> exact hc
  -- What another definition has captured is a run function of the operand, or its method.
  have captured {p : ParserId} {code : Code W} (hp : Over it P σ p) (hc : p.Captured σ code)
      (h : ∃ c : Cell W, σ.parsers[p.index]? = .some c ∧
        ∀ code, c.direct = .some code ∨ c.logged = .some code →
          code.DiscreetOver it (Over it P σ) σ) :
      code.DiscreetOver it (Over it P σ) σ := by
    obtain ⟨c, hcell, rfl⟩ := hc
    obtain ⟨d, hd, h⟩ := h
    obtain rfl : c = d := by
      rw [hcell] at hd
      exact Option.some.inj hd
    rw [Cell.code]
    cases e : c.direct with
    | none => exact ⟨hp, trivial⟩
    | some code => exact h code (.inl e)
  induction h with
  | ref h =>
    obtain ⟨d, hd, codes⟩ := hP _ ha
    exact ⟨d, hd, fun code e => (codes code e).mono fun _ => above⟩
  | undefined h h₁ h₂ => exact ⟨_, h, fun code e => by simp [h₁, h₂] at e⟩
  | some h => exact one h ⟨⟨built (.some h) ha, fun v => Action.reaches_all _⟩, ha⟩
  | pure h => exact one h ⟨trivial, ha⟩
  | fail h => exact one h ⟨trivial, trivial⟩
  | undeclared h => exact one h ⟨trivial, trivial⟩
  | seq hp hq h => exact one h ⟨⟨built hp ha.1, built hq ha.2⟩, trivial⟩
  | alt hp hq h => exact one h ⟨⟨built hp ha.1, built hq ha.2⟩, trivial⟩
  | map hp h => exact one h ⟨⟨built hp ha.1, fun v => Action.reaches_all _⟩, ha.2⟩
  | bind hp h =>
    refine one h ⟨⟨built hp ha.1, fun v => Action.reaches_all _, fun v m σ g σ' e => ?_⟩, ha.2.2⟩
    exact (ha.2.1 v m σ g σ' e).mono (fun _ h => h) fun _ => above
  | ignore hp hc h ih =>
    obtain ⟨h₁, h₂⟩ := captured (built hp ha) hc (ih ha)
    exact one h ⟨h₁, h₂⟩
  | attempt hp h => exact one h ⟨built hp ha, trivial⟩
  | many hp h => exact one h ⟨⟨built (.many hp h) ha, built hp ha⟩, trivial⟩
  | cell h => exact ha.elim
  | copy hp hc h ih => exact one h (captured (built hp ha) hc (ih ha))

/-- A discreet grammar over a set of discreet parsers builds such parsers. -/
theorem AllDiscreet.build (hP : AllDiscreet it P σ) {g : Grammar W}
    (h : g.Library (fun _ => True) P) (hg : g.Discreet it σ) :
    ∃ P', (∀ p, P p → P' p) ∧ AllDiscreet it P' (g.build σ).2 ∧ P' (g.build σ).1 := by
  obtain ⟨k, built⟩ := h.built hP.closed
  have retains := k.grows.retains
  have before := hP.later retains k.grows.parsers
  refine ⟨Over it P (g.build σ).2, fun _ => .inl, fun p hp => ?_,
    .inr ⟨_, h.core_discreet (hg.later retains) _, built⟩⟩
  rcases hp with hp | ⟨a, ha, hp⟩
  · obtain ⟨c, hc, -⟩ := before p hp
    exact Core.Built.discreetOver (.ref hc) hp before
  · exact hp.discreetOver ha before

/-- Building a grammar leaves the iterator alone. -/
theorem spared_build {m : Means W} (h : σ.Private it) (g : Grammar W) :
    it.Spared (fun τ q => g.build σ = (q, τ)) σ (Eval.ofBuild g.build m σ) := by
  have built := g.build_grows
  have frame := built.frame σ
  refine ⟨h.aside ?_ ?_ ?_ (built.grows σ).parsers, rfl⟩ <;> rw [frame]

/-- A parser of the set may be defined as another one of it. -/
theorem AllDiscreet.define (hP : AllDiscreet it P σ) (p : ParserId) {source : ParserId}
    (hs : P source) : AllDiscreet it P (p.define source σ).2 := by
  -- What is taken over is the run function of the source, or its logging method.
  have captured : ((source.cell σ).1.code source).DiscreetOver it P σ := by
    obtain ⟨c, hc, codes⟩ := hP source hs
    rw [cell_of_some hc]
    rcases c.code_cases source with h | h
    · exact codes _ (.inl h)
    · rw [h]
      exact ⟨hs, trivial⟩
  have retains : σ.Retains (p.define source σ).2 :=
    ⟨fun _ m h => ⟨m, h, rfl⟩, fun _ m h => ⟨m, h, rfl⟩⟩
  intro q hq
  obtain ⟨d, hd, codes⟩ := hP q hq
  obtain ⟨d', hd', direct, logged⟩ := define_codes p source hd
  refine ⟨d', hd', fun code e => ?_⟩
  rcases e with e | e
  · rcases direct code e with e | rfl
    · exact (codes code (.inl e)).later retains
    · exact captured.later retains
  · rcases logged code e with e | rfl
    · exact (codes code (.inr e)).later retains
    · exact captured.later retains

/-- A store without parsers of the caller. -/
theorem allDiscreet_initial (it : IteratorId) (world : W) (watch : Value → W → W) :
    AllDiscreet it (fun p => p = .finished) (Store.initial world watch) := by
  rintro p rfl
  refine ⟨_, rfl, fun code e => ?_⟩
  rcases e with e | e
  · cases e
    exact ⟨rfl, trivial⟩
  · cases e

end

end ResumableParsing
