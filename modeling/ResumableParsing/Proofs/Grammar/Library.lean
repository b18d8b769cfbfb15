import ResumableParsing.Proofs.Store.Building
import ResumableParsing.Action.Run

/-!
# Grammars of the library

The parsers that are put together from the primitives and combinators of the library alone, with
no run function written by the caller. A set of parsers is closed if each of them only starts
parsers of the set; building a grammar of the library over a closed set leaves a closed set.

* `Action.Reaches`, `Action.Detached`: what functions of the caller look at and change
* `Body.Library`, `Grammar.Library`: parsers and grammars of the library
* `Closed`: sets of parsers that only start one another
* `Closed.mono`, `Closed.later`: sets stay closed
-/

namespace ResumableParsing

variable {W α β : Type}

/-! ## Functions of the caller -/

/-- What a grammar can reach besides streams, serial numbers and the world. -/
inductive Reach where
  /-- Functions of the caller make states. -/
  | states
  /-- They ask for deferred results. -/
  | results
  /-- They go on with sessions. -/
  | sessions
  /-- Parsers are run when streams are read. -/
  | parses

/-- The program only reaches what it may reach. -/
def Action.Reaches (R : Reach → Prop) : Action W α → Prop
  | .done _ => True
  | .raise _ => True
  | .inspect k => ∀ w, (k w).Reaches R
  | .update _ next => next.Reaches R
  | .serial k => ∀ n, (k n).Reaches R
  | .iterator _ k => ∀ it, (k it).Reaches R
  | .asStream _ k => ∀ s, (k s).Reaches R
  | .isEmpty _ k => ∀ b, (k b).Reaches R
  | .first _ k => ∀ v, (k v).Reaches R
  | .rest _ k => ∀ s, (k s).Reaches R
  | .append _ _ k => ∀ s, (k s).Reaches R
  | .toList _ k => ∀ vs, (k vs).Reaches R
  | .render _ k => ∀ t, (k t).Reaches R
  | .setInput _ _ k => R .states ∧ ∀ s, (k s).Reaches R
  | .setPosition _ _ k => R .states ∧ ∀ s, (k s).Reaches R
  | .setUser _ _ k => R .states ∧ ∀ s, (k s).Reaches R
  | .peek _ k => R .results ∧ ∀ b t, (k b t).Reaches R
  | .result _ k => R .results ∧ ∀ v, (k v).Reaches R
  | .finish _ k => R .sessions ∧ ∀ v, (k v).Reaches R

/-- The program asks for streams, serial numbers and the world only. -/
abbrev Action.Detached (a : Action W α) : Prop := a.Reaches fun _ => False

theorem Action.Reaches.mono {R R' : Reach → Prop} (hR : ∀ r, R r → R' r) {a : Action W α}
    (h : a.Reaches R) : a.Reaches R' := by
  induction a with
  | done a => trivial
  | raise f => trivial
  | update f next ih => exact ih h
  | setInput s i k ih => exact ⟨hR _ h.1, fun t => ih t (h.2 t)⟩
  | setPosition s p k ih => exact ⟨hR _ h.1, fun t => ih t (h.2 t)⟩
  | setUser s u k ih => exact ⟨hR _ h.1, fun t => ih t (h.2 t)⟩
  | peek r k ih => exact ⟨hR _ h.1, fun b t => ih b t (h.2 b t)⟩
  | result r k ih => exact ⟨hR _ h.1, fun v => ih v (h.2 v)⟩
  | finish s k ih => exact ⟨hR _ h.1, fun v => ih v (h.2 v)⟩
  | _ =>
    rename_i ih
    exact fun b => ih b (h b)

/-- Nothing is out of reach if everything may be reached. -/
theorem Action.reaches_all (a : Action W α) : a.Reaches fun _ => True := by
  induction a with
  | done a => trivial
  | raise f => trivial
  | update f next ih => exact ih
  | setInput s i k ih => exact ⟨trivial, ih⟩
  | setPosition s p k ih => exact ⟨trivial, ih⟩
  | setUser s u k ih => exact ⟨trivial, ih⟩
  | peek r k ih => exact ⟨trivial, ih⟩
  | result r k ih => exact ⟨trivial, ih⟩
  | finish s k ih => exact ⟨trivial, ih⟩
  | _ => assumption

/-- Every result of the program has the property. -/
def Action.Yields (a : Action W α) (Q : α → Prop) : Prop :=
  ∀ m σ x σ', a.run m σ = .ok x σ' → Q x

/-! ## Parsers and grammars of the library -/

/-- Grammars made of the primitives and combinators of the library and parsers of a set. -/
inductive Grammar.Library (R : Reach → Prop) (P : ParserId → Prop) : Grammar W → Prop where
  | ref {p : ParserId} : P p → Library R P (.ref p)
  | some {f : Value → Action W Bool} : (∀ v, (f v).Reaches R) → Library R P (.some f)
  | token (v : Value) : Library R P (.token v)
  | pure (v : Value) : Library R P (.pure v)
  | fail (message : String) : Library R P (.fail message)
  | finished : P .finished → Library R P .finished
  | plus {p q : Grammar W} : Library R P p → Library R P q → Library R P (.plus p q)
  | or {p q : Grammar W} : Library R P p → Library R P q → Library R P (.or p q)
  | map {p : Grammar W} {f : Value → Action W Value} :
      Library R P p → (∀ v, (f v).Reaches R) → Library R P (.map p f)
  | bind {p : Grammar W} {f : Value → Action W (Grammar W)} :
      Library R P p → (∀ v, (f v).Reaches R) → (∀ v, (f v).Yields (Library R P)) →
      Library R P (.bind p f)
  | skip {p : Grammar W} : Library R P p → Library R P (.skip p)
  | attempt {p : Grammar W} : Library R P p → Library R P (.attempt p)
  | optional {p : Grammar W} (v : Value) : Library R P p → Library R P (.optional p v)
  | many {p : Grammar W} : Library R P p → Library R P (.many p)
  | oneplus {p : Grammar W} : Library R P p → Library R P (.oneplus p)
  | times {p : Grammar W} (n : Int) : Library R P p → Library R P (.times n p)
  | betweenTimes {p : Grammar W} (low : Int) (high : Option Int) :
      Library R P p → Library R P (.betweenTimes low high p)
  | sepBy1 {p q : Grammar W} : Library R P p → Library R P q → Library R P (.sepBy1 p q)
  | sepBy {p q : Grammar W} : Library R P p → Library R P q → Library R P (.sepBy p q)
  | sequence {ps : List (Grammar W)} :
      (∀ p ∈ ps, Library R P p) → Library R P (.sequence ps)
  | listed {p : Grammar W} : Library R P p → Library R P (.listed p)
  | named {p : Grammar W} (name : String) : Library R P p → Library R P (.named p name)
  | wrap {p : Grammar W} : Library R P p → Library R P (.wrap p)
  | forward : Library R P .forward
  | undefined (name : String) : Library R P (.undefined name)
  | cell {again : ParserId} (v : Value) : R .parses → P again → Library R P (.cell v again)

mutual

/-- What a parser does if it is put together from the primitives and combinators of the library and
only starts and names parsers of a set. -/
def Body.Library (R : Reach → Prop) (P : ParserId → Prop) : Body W → Prop
  | .some self accepts => P self ∧ ∀ v, (accepts v).Reaches R
  | .pure _ => True
  | .fail _ => True
  | .finished self => P self
  | .undeclared => True
  | .seq p q _ => P p ∧ P q
  | .alt p q => P p ∧ P q
  | .map p f => P p ∧ ∀ v, (f v).Reaches R
  | .bind p f => P p ∧ (∀ v, (f v).Reaches R) ∧ ∀ v, (f v).Yields (Grammar.Library R P)
  | .ignore inner => inner.Library R P
  | .attempt p => P p
  | .many self p => P self ∧ P p
  | .cell _ again => R .parses ∧ P again
  | .native _ => False
  | .after _ _ => False

/-- A run function that does so. -/
def Code.Library (R : Reach → Prop) (P : ParserId → Prop) : Code W → Prop
  | .body b => b.Library R P
  | .method p => P p

end

/-- A set of parsers that are put together from the primitives and combinators of the library and
only start one another. -/
def Closed (R : Reach → Prop) (P : ParserId → Prop) (σ : Store W) : Prop :=
  ∀ p, P p → ∃ c : Cell W, σ.parsers[p.index]? = some c ∧
    (∀ code, c.direct = some code → code.Library R P) ∧
    ∀ code, c.logged = some code → code.Library R P

/-! ## Larger sets -/

section

variable {R R' : Reach → Prop} {P P' : ParserId → Prop} {σ τ : Store W}

theorem Grammar.Library.mono (hR : ∀ r, R r → R' r) (hP : ∀ p, P p → P' p) {g : Grammar W}
    (h : g.Library R P) : g.Library R' P' := by
  induction h with
  | ref h => exact .ref (hP _ h)
  | some h => exact .some fun v => (h v).mono hR
  | token v => exact .token v
  | pure v => exact .pure v
  | fail m => exact .fail m
  | finished h => exact .finished (hP _ h)
  | plus _ _ ihp ihq => exact .plus ihp ihq
  | or _ _ ihp ihq => exact .or ihp ihq
  | map _ h ih => exact .map ih fun v => (h v).mono hR
  | bind _ h _ ih ihf =>
    exact .bind ih (fun v => (h v).mono hR) fun v m σ g σ' hg => ihf v m σ g σ' hg
  | skip _ ih => exact .skip ih
  | attempt _ ih => exact .attempt ih
  | optional v _ ih => exact .optional v ih
  | many _ ih => exact .many ih
  | oneplus _ ih => exact .oneplus ih
  | times n _ ih => exact .times n ih
  | betweenTimes low high _ ih => exact .betweenTimes low high ih
  | sepBy1 _ _ ihp ihq => exact .sepBy1 ihp ihq
  | sepBy _ _ ihp ihq => exact .sepBy ihp ihq
  | sequence _ ih => exact .sequence ih
  | listed _ ih => exact .listed ih
  | named name _ ih => exact .named name ih
  | wrap _ ih => exact .wrap ih
  | forward => exact .forward
  | undefined name => exact .undefined name
  | cell v h hp => exact .cell v (hR _ h) (hP _ hp)

mutual

theorem Body.Library.mono (hR : ∀ r, R r → R' r) (hP : ∀ p, P p → P' p) :
    ∀ {b : Body W}, b.Library R P → b.Library R' P'
  | .some .., h => ⟨hP _ h.1, fun v => (h.2 v).mono hR⟩
  | .pure _, h => h
  | .fail _, h => h
  | .finished _, h => hP _ h
  | .undeclared, h => h
  | .seq .., h => ⟨hP _ h.1, hP _ h.2⟩
  | .alt .., h => ⟨hP _ h.1, hP _ h.2⟩
  | .map .., h => ⟨hP _ h.1, fun v => (h.2 v).mono hR⟩
  | .bind .., h =>
    ⟨hP _ h.1, fun v => (h.2.1 v).mono hR,
      fun v m σ g σ' hg => Grammar.Library.mono hR hP (h.2.2 v m σ g σ' hg)⟩
  | .ignore _, h => Code.Library.mono hR hP h
  | .attempt _, h => hP _ h
  | .many .., h => ⟨hP _ h.1, hP _ h.2⟩
  | .cell .., h => ⟨hR _ h.1, hP _ h.2⟩
  | .native _, h => h
  | .after .., h => h

theorem Code.Library.mono (hR : ∀ r, R r → R' r) (hP : ∀ p, P p → P' p) :
    ∀ {c : Code W}, c.Library R P → c.Library R' P'
  | .body _, h => Body.Library.mono hR hP h
  | .method _, h => hP _ h

end

/-- A closed set stays closed. -/
theorem Closed.later (h : Closed R P σ) (k : σ.Grows τ) : Closed R P τ := by
  intro p hp
  obtain ⟨c, hc, hd, hl⟩ := h p hp
  obtain ⟨d, hd', h₁, h₂⟩ := k.parsers _ c hc
  exact ⟨d, hd', h₁ ▸ hd, h₂ ▸ hl⟩

end

end ResumableParsing
