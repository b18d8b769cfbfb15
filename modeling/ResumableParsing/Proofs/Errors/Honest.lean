import ResumableParsing.Proofs.Grammar.Core
import ResumableParsing.Proofs.Repetition.Cells

/-!
# Parsers that report honestly

A parser that reads a token or the end of the input names itself as expected. This is honest if it
does what it did when it failed: it is not defined anew, and its predicate answers as before.
Grammars with such predicates build such parsers.

* `Action.Steady`: a program that answers as it did before
* `Grammar.Honest`, `Core.Honest`, `Body.Honest`: grammars and parsers that report honestly
* `AllHonest`: sets of such parsers
* `AllHonest.build`, `AllHonest.define`: building and defining keeps them honest
-/

namespace ResumableParsing

variable {W α : Type}

/-! ## Pure programs -/

/-- The program gives the answer, now and later. -/
def Action.Answers (σ : Store W) (a : Action W α) (x : α) : Prop :=
  ∀ τ, σ.Grows τ → ∃ τ', a.run.Comes τ (.ok x τ')

/-- What the program has answered it answers again. -/
def Action.Steady (a : Action W α) : Prop :=
  ∀ {n σ x σ'}, a.run (.within n) σ = .ok x σ' → a.Answers σ' x

theorem Action.steady_done (x : α) : (.done x : Action W α).Steady := by
  intro n σ y σ' e τ _
  cases e
  exact ⟨τ, comes_pure _ _⟩

/-! ## Honest parsers -/

/-- A part of a grammar that reports honestly: predicates are pure, the messages of failures are
among `M`, and there is only an attempt if `A` holds. -/
def Grammar.HonestPart (A : Prop) (M : String → Prop) : Grammar W → Prop
  | .some f => ∀ v, (f v).Steady
  | .fail message => M message
  | .attempt _ => A
  | _ => True

/-- A grammar whose parts report honestly. -/
abbrev Grammar.Honest (A : Prop) (M : String → Prop) (g : Grammar W) : Prop :=
    g.Each (Grammar.HonestPart A M)

/-- A tree whose nodes report honestly, over parsers of the set `P`. -/
def Core.Honest (R : Reach → Prop) (P : ParserId → Prop) (A : Prop) (M : String → Prop) :
    Core W → Prop
  | .ref p => P p
  | .some f => ∀ v, (f v).Reaches R ∧ (f v).Steady
  | .pure _ => True
  | .fail message => M message
  | .undeclared => True
  | .undefined => True
  | .seq a b _ => a.Honest R P A M ∧ b.Honest R P A M
  | .alt a b => a.Honest R P A M ∧ b.Honest R P A M
  | .map a f => a.Honest R P A M ∧ ∀ v, (f v).Reaches R
  | .bind a f => a.Honest R P A M ∧ (∀ v, (f v).Reaches R) ∧
      ∀ v, (f v).Yields fun g => g.Library R P ∧ g.Honest A M
  | .ignore a => a.Honest R P A M
  | .attempt a => A ∧ a.Honest R P A M
  | .many a => a.Honest R P A M
  | .cell _ again => R .parses ∧ P again
  | .copy a => a.Honest R P A M

/-- The parser that a body names as expected. -/
def Body.names : Body W → ParserId → Prop
  | .some self _, q => self = q
  | .finished self, q => self = q
  | _, _ => False

mutual

/-- What an honest parser does. A parser that names itself does nothing else. -/
def Body.Honest (A : Prop) (M : String → Prop) (σ : Store W) : Body W → Prop
  | .some self f => self.Performs σ (.some self f) ∧ ∀ v, (f v).Steady
  | .fail message => M message
  | .finished self => self.Performs σ (.finished self)
  | .attempt _ => A
  | .bind _ f => ∀ v, (f v).Yields (Grammar.Honest A M)
  | .ignore inner => inner.Honest A M σ
  | _ => True

/-- A run function that does so. -/
def Code.Honest (A : Prop) (M : String → Prop) (σ : Store W) : Code W → Prop
  | .body b => b.Honest A M σ
  | .method _ => True

end

/-- A set of honest parsers. -/
def AllHonest (A : Prop) (M : String → Prop) (P : ParserId → Prop) (σ : Store W) : Prop :=
  ∀ p, P p → ∀ c, σ.parsers[p.index]? = some c →
    (∀ code, c.direct = some code → code.Honest A M σ) ∧
    ∀ code, c.logged = some code → code.Honest A M σ

section

variable {R : Reach → Prop} {P P' : ParserId → Prop} {A : Prop} {M : String → Prop}
  {σ τ : Store W}

mutual

theorem Body.Honest.transfer (k : ∀ q : ParserId, ∀ b : Body W, b.names q → q.Performs σ b →
    q.Performs τ b) : ∀ {b : Body W}, b.Honest A M σ → b.Honest A M τ
  | .some self f, h => ⟨k self (.some self f) rfl h.1, h.2⟩
  | .finished self, h => k self (.finished self) rfl h
  | .ignore _, h => Code.Honest.transfer k h
  | .pure _, h => h
  | .fail _, h => h
  | .undeclared, h => h
  | .seq .., h => h
  | .alt .., h => h
  | .map .., h => h
  | .bind .., h => h
  | .attempt _, h => h
  | .many .., h => h
  | .cell .., h => h
  | .native _, h => h
  | .after .., h => h

/-- It matters only that the parsers which are named as expected do what they did. -/
theorem Code.Honest.transfer (k : ∀ q : ParserId, ∀ b : Body W, b.names q → q.Performs σ b →
    q.Performs τ b) : ∀ {c : Code W}, c.Honest A M σ → c.Honest A M τ
  | .body _, h => Body.Honest.transfer k h
  | .method _, h => h

end

theorem Code.Honest.later {c : Code W} (h : c.Honest A M σ) (k : σ.Grows τ) : c.Honest A M τ :=
  h.transfer fun _ _ _ hq => hq.later k

/-- An honest set over a closed one stays honest. -/
theorem AllHonest.later (h : AllHonest A M P σ) (hP : Closed R P σ) (k : σ.Grows τ) :
    AllHonest A M P τ := by
  intro p hp d hd
  obtain ⟨c, hc, -⟩ := hP p hp
  obtain ⟨d', hd', h₁, h₂⟩ := k.parsers _ c hc
  obtain rfl : d = d' := by
    rw [hd] at hd'
    exact Option.some.inj hd'
  obtain ⟨hdirect, hlogged⟩ := h p hp c hc
  exact ⟨fun code e => (hdirect code (h₁ ▸ e)).later k,
    fun code e => (hlogged code (h₂ ▸ e)).later k⟩

/-! ## Building -/

namespace Core.Honest

variable {a b : Core W} {flags : ParserId → Bool}

theorem plus (ha : a.Honest R P A M) (hb : b.Honest R P A M) :
    (Core.plus flags a b).Honest R P A M := by
  rw [Core.plus]
  cases a.ignored flags <;> cases b.ignored flags <;> exact ⟨ha, hb⟩

theorem repeated (ha : a.Honest R P A M) (n : Nat) (hb : b.Honest R P A M) :
    (a.repeated n b).Honest R P A M := by
  induction n generalizing b with
  | zero => exact hb
  | succ n ih => exact ih ⟨ha, hb⟩

theorem upTo (ha : a.Honest R P A M) (n : Nat) (hb : b.Honest R P A M) :
    (a.upTo n b).Honest R P A M := by
  induction n generalizing b with
  | zero => exact hb
  | succ n ih => exact ih ⟨⟨ha, hb⟩, trivial⟩

theorem betweenTimes (low : Int) (high : Option Int) (ha : a.Honest R P A M) :
    (Core.betweenTimes low high a).Honest R P A M := by
  refine ⟨repeated ha _ trivial, ?_⟩
  cases high with
  | none => exact ha
  | some h => exact upTo ha _ trivial

theorem sequence {gs : List (Grammar W)} (h : ∀ g ∈ gs, (g.core flags).Honest R P A M) :
    (Core.sequence (Grammar.coreAll flags gs)).Honest R P A M := by
  induction gs with
  | nil => trivial
  | cons g gs ih =>
    exact ⟨h g List.mem_cons_self, ih fun p hp => h p (List.mem_cons_of_mem g hp)⟩

end Core.Honest

/-- The tree of an honest grammar is honest. -/
theorem Grammar.Library.core_honest {g : Grammar W} (h : g.Library R P) (hg : g.Honest A M)
    (flags : ParserId → Bool) : (g.core flags).Honest R P A M := by
  induction h with
  | ref h => exact h
  | some h => exact fun v => ⟨h v, hg.here v⟩
  | token v => exact fun t => ⟨trivial, Action.steady_done _⟩
  | pure v => trivial
  | fail m => exact hg.here
  | finished h => exact h
  | plus _ _ ihp ihq =>
    exact .plus (ihp (hg.operand (by simp [operands]))) (ihq (hg.operand (by simp [operands])))
  | or _ _ ihp ihq =>
    exact ⟨ihp (hg.operand (by simp [operands])), ihq (hg.operand (by simp [operands]))⟩
  | map _ h ih => exact ⟨ih (hg.operand (by simp [operands])), h⟩
  | bind _ h hf ih _ =>
    refine ⟨ih (hg.operand (by simp [operands])), h, fun v m σ g σ' e => ?_⟩
    exact ⟨hf v m σ g σ' e, hg.yields v m σ g σ' e⟩
  | skip _ ih => exact ih (hg.operand (by simp [operands]))
  | attempt _ ih => exact ⟨hg.here, ih (hg.operand (by simp [operands]))⟩
  | optional v _ ih => exact ⟨ih (hg.operand (by simp [operands])), trivial⟩
  | many _ ih => exact ih (hg.operand (by simp [operands]))
  | oneplus _ ih =>
    have ha := ih (hg.operand (by simp [operands]))
    exact ⟨ha, ha⟩
  | times n _ ih => exact .repeated (ih (hg.operand (by simp [operands]))) _ trivial
  | betweenTimes low high _ ih =>
    exact .betweenTimes low high (ih (hg.operand (by simp [operands])))
  | sepBy1 _ _ ihp ihq =>
    have ha := ihp (hg.operand (by simp [operands]))
    exact ⟨ha, ihq (hg.operand (by simp [operands])), ha⟩
  | sepBy _ _ ihp ihq =>
    have ha := ihp (hg.operand (by simp [operands]))
    exact ⟨⟨ha, ihq (hg.operand (by simp [operands])), ha⟩, trivial⟩
  | sequence _ ih => exact Core.Honest.sequence fun p hp => ih p hp (hg.operand hp)
  | listed _ ih => exact ⟨ih (hg.operand (by simp [operands])), Scoped.reaches_listOf⟩
  | named name _ ih => exact ih (hg.operand (by simp [operands]))
  | wrap _ ih => exact ih (hg.operand (by simp [operands]))
  | forward => trivial
  | undefined name => trivial
  | cell v hr h => exact ⟨hr, h⟩

/-- The parsers of the set, and those that are built honestly over it. -/
def Above (R : Reach → Prop) (P : ParserId → Prop) (A : Prop) (M : String → Prop) (σ : Store W)
    (p : ParserId) : Prop :=
  P p ∨ ∃ a : Core W, a.Honest R P A M ∧ a.Built σ p

/-- The run functions of a parser that is built honestly. -/
theorem Core.Built.codes {a : Core W} {p : ParserId} (h : a.Built σ p) (ha : a.Honest R P A M)
    (hP : Closed R P σ) (hH : AllHonest A M P σ) :
    ∃ c, σ.parsers[p.index]? = .some c ∧
      ∀ code, c.direct = .some code ∨ c.logged = .some code →
        code.Library R (Above R P A M σ) ∧ code.Honest A M σ := by
  have above {p : ParserId} (hp : P p) : Above R P A M σ p := .inl hp
  have built {a : Core W} {p : ParserId} (h : a.Built σ p) (ha : a.Honest R P A M) :
      Above R P A M σ p := .inr ⟨a, ha, h⟩
  have one {p : ParserId} {code : Code W} (h : p.Runs σ code)
      (hc : code.Library R (Above R P A M σ) ∧ code.Honest A M σ) :
      ∃ c, σ.parsers[p.index]? = .some c ∧
        ∀ code, c.direct = .some code ∨ c.logged = .some code →
          code.Library R (Above R P A M σ) ∧ code.Honest A M σ := by
    obtain ⟨c, hcell, ⟨h, h'⟩ | ⟨h, h'⟩⟩ := h <;> refine ⟨c, hcell, fun code' e => ?_⟩ <;>
      rw [h, h'] at e <;> rcases e with e | e <;> cases e <;> exact hc
  -- What another definition has captured is a run function of the operand, or its method.
  have captured {p : ParserId} {code : Code W} (hp : Above R P A M σ p) (hc : p.Captured σ code)
      (h : ∃ c, σ.parsers[p.index]? = .some c ∧
        ∀ code, c.direct = .some code ∨ c.logged = .some code →
          code.Library R (Above R P A M σ) ∧ code.Honest A M σ) :
      code.Library R (Above R P A M σ) ∧ code.Honest A M σ := by
    obtain ⟨c, hcell, rfl⟩ := hc
    obtain ⟨d, hd, h⟩ := h
    obtain rfl : c = d := by
      rw [hcell] at hd
      exact Option.some.inj hd
    rw [Cell.code]
    cases e : c.direct with
    | none => exact ⟨hp, trivial⟩
    | some code => exact h code (.inl e)
  induction h with
  | @ref p c h =>
    obtain ⟨d, hd, h₁, h₂⟩ := hP p ha
    obtain ⟨h₃, h₄⟩ := hH p ha d hd
    refine ⟨d, hd, fun code e => ?_⟩
    rcases e with e | e
    · exact ⟨(h₁ code e).mono (fun _ h => h) fun _ => above, h₃ code e⟩
    · exact ⟨(h₂ code e).mono (fun _ h => h) fun _ => above, h₄ code e⟩
  | undefined h h₁ h₂ => exact ⟨_, h, fun code e => by simp [h₁, h₂] at e⟩
  | some h => exact one h ⟨⟨built (.some h) ha, fun v => (ha v).1⟩, h, fun v => (ha v).2⟩
  | pure h => exact one h ⟨trivial, trivial⟩
  | fail h => exact one h ⟨trivial, ha⟩
  | undeclared h => exact one h ⟨trivial, trivial⟩
  | seq hp hq h => exact one h ⟨⟨built hp ha.1, built hq ha.2⟩, trivial⟩
  | alt hp hq h => exact one h ⟨⟨built hp ha.1, built hq ha.2⟩, trivial⟩
  | map hp h => exact one h ⟨⟨built hp ha.1, ha.2⟩, trivial⟩
  | bind hp h =>
    refine one h ⟨⟨built hp ha.1, ha.2.1, fun v m σ g σ' e => ?_⟩, fun v m σ g σ' e => ?_⟩
    · exact (ha.2.2 v m σ g σ' e).1.mono (fun _ h => h) fun _ => above
    · exact (ha.2.2 v m σ g σ' e).2
  | ignore hp hc h ih =>
    obtain ⟨h₁, h₂⟩ := captured (built hp ha) hc (ih ha)
    exact one h ⟨h₁, h₂⟩
  | attempt hp h => exact one h ⟨built hp ha.2, ha.1⟩
  | many hp h => exact one h ⟨⟨built (.many hp h) ha, built hp ha⟩, trivial⟩
  | cell h => exact one h ⟨⟨ha.1, above ha.2⟩, trivial⟩
  | copy hp hc h ih => exact one h (captured (built hp ha) hc (ih ha))

/-- An honest grammar over a set of honest parsers builds honest parsers. -/
theorem AllHonest.build (hH : AllHonest A M P σ) (hP : Closed R P σ) {g : Grammar W}
    (h : g.Library R P) (hg : g.Honest A M) :
    ∃ P', (∀ p, P p → P' p) ∧ Closed R P' (g.build σ).2 ∧ AllHonest A M P' (g.build σ).2 ∧
      P' (g.build σ).1 := by
  obtain ⟨k, built⟩ := h.built hP
  have closed := hP.later k.grows
  have honest := hH.later hP k.grows
  -- The codes of parsers that have been built are read off the tree of the grammar.
  have codes (p : ParserId) (hp : Above R P A M (g.build σ).2 p) :
      ∃ c, (g.build σ).2.parsers[p.index]? = .some c ∧
        ∀ code, c.direct = .some code ∨ c.logged = .some code →
          code.Library R (Above R P A M (g.build σ).2) ∧ code.Honest A M (g.build σ).2 := by
    rcases hp with hp | ⟨a, ha, hp⟩
    · obtain ⟨c, hc, -⟩ := closed p hp
      exact Core.Built.codes (.ref hc) hp closed honest
    · exact hp.codes ha closed honest
  refine ⟨Above R P A M (g.build σ).2, fun _ => .inl, fun p hp => ?_, fun p hp c hc => ?_,
    .inr ⟨_, h.core_honest hg _, built⟩⟩
  · obtain ⟨c, hc, h⟩ := codes p hp
    exact ⟨c, hc, fun code e => (h code (.inl e)).1, fun code e => (h code (.inr e)).1⟩
  · obtain ⟨d, hd, h⟩ := codes p hp
    obtain rfl : c = d := by
      rw [hc] at hd
      exact Option.some.inj hd
    exact ⟨fun code e => (h code (.inl e)).2, fun code e => (h code (.inr e)).2⟩

/-- A parser that does not name itself as expected may be defined as another one of the set. -/
theorem AllHonest.define (hH : AllHonest A M P σ) (hP : Closed R P σ) {p source : ParserId}
    (hp : ∀ b, b.names p → ¬p.Performs σ b) (hs : P source) :
    AllHonest A M P (p.define source σ).2 := by
  -- Only the run function of `p` is replaced, and no body that names `q` stands there.
  have keep (q : ParserId) (b : Body W) (hb : b.names q) (hq : q.Performs σ b) :
      q.Performs (p.define source σ).2 b := by
    obtain ⟨c, hc, h⟩ := id hq
    refine ⟨c, ?_, h⟩
    rw [getElem_define p source, hc]
    intro same
    obtain rfl : p = q := congrArg ParserId.mk same
    exact hp b hb hq
  -- What is taken over is the run function of the source, or its logging method.
  have captured : Code.Honest A M σ ((source.cell σ).1.code source) := by
    obtain ⟨c, hc, -⟩ := hP source hs
    rw [cell_of_some hc]
    rcases c.code_cases source with h | h
    · exact (hH source hs c hc).1 _ h
    · rw [h]
      trivial
  intro q hq c hc
  obtain ⟨d, hd, -⟩ := hP q hq
  obtain ⟨h₁, h₂⟩ := hH q hq d hd
  obtain ⟨d', hd', direct, logged⟩ := define_codes p source hd
  obtain rfl := Option.some.inj (hd'.symm.trans hc)
  refine ⟨fun code e => ?_, fun code e => ?_⟩
  · rcases direct code e with e | rfl
    · exact (h₁ code e).transfer keep
    · exact captured.transfer keep
  · rcases logged code e with e | rfl
    · exact (h₂ code e).transfer keep
    · exact captured.transfer keep

/-- A store without parsers of the caller. -/
theorem allHonest_initial (world : W) (watch : Value → W → W) :
    AllHonest A M (fun p => p = .finished) (Store.initial world watch) := by
  rintro p rfl c ⟨⟩
  refine ⟨?_, by rintro code ⟨⟩⟩
  rintro code ⟨⟩
  exact ⟨_, rfl, .inl ⟨rfl, rfl⟩⟩

end

end ResumableParsing
