import Mathlib.Data.List.Forall2
import ResumableParsing.Proofs.Direct.Replies
import ResumableParsing.Proofs.Grammar.Scope

/-!
# What grammars are made of

Most combinators are put together from others: a counted repetition is a sequence of sequences, an
optional parser is a choice. Taking them apart leaves a tree with one node for each run function.
Building a grammar makes one parser for each node of this tree.

* `Grammar.Each`: what holds of all parts of a grammar
* `Core`: trees of run functions
* `Grammar.core`: the tree of a grammar
* `Core.Built`: a parser is built as the tree says
* `Grammar.Gives`: building a grammar makes a parser of the tree
* `Grammar.Library.made`: so the parsers of the library are built
-/

namespace ResumableParsing

variable {W α β : Type}

/-! ## Parts of grammars -/

namespace Grammar

/-- The grammars that a grammar is put together from. -/
def operands : Grammar W → List (Grammar W)
  | .plus p q | .or p q | .sepBy1 p q | .sepBy p q => [p, q]
  | .map p _ | .bind p _ | .skip p | .attempt p | .optional p _ | .many p | .oneplus p | .times _ p
  | .betweenTimes _ _ p | .listed p | .named p _ | .wrap p | .after _ p _ => [p]
  | .sequence ps => ps
  | _ => []

/-- The function that gives the second grammar of a sequence from the result of the first one. -/
def binder? : Grammar W → Option (Value → Action W (Grammar W))
  | .bind _ f => .some f
  | _ => none

/-- The condition holds of every part of the grammar, and of the parts of the grammars that its
binders give. -/
inductive Each (ok : Grammar W → Prop) : Grammar W → Prop where
  | node {g : Grammar W} : ok g → (∀ p ∈ g.operands, Each ok p) →
      (∀ f, g.binder? = .some f → ∀ v, (f v).Yields (Each ok)) → Each ok g

namespace Each

variable {ok ok' : Grammar W → Prop} {g p : Grammar W}

theorem here (h : g.Each ok) : ok g := by
  cases h with
  | node h _ _ => exact h

theorem operand (h : g.Each ok) (hp : p ∈ g.operands) : p.Each ok := by
  cases h with
  | node _ h _ => exact h p hp

theorem yields {f : Value → Action W (Grammar W)} (h : (Grammar.bind p f).Each ok) (v : Value) :
    (f v).Yields (Grammar.Each ok) := by
  cases h with
  | node _ _ h => exact h f rfl v

theorem leaf (h : ok g) (hg : g.operands = []) (hb : g.binder? = none) : g.Each ok :=
  .node h (by simp [hg]) (by simp [hb])

theorem one (h : ok g) (hp : p.Each ok) (hg : g.operands = [p]) (hb : g.binder? = none) :
    g.Each ok := .node h (by simpa [hg] using hp) (by simp [hb])

theorem two {q : Grammar W} (h : ok g) (hp : p.Each ok) (hq : q.Each ok)
    (hg : g.operands = [p, q]) (hb : g.binder? = none) : g.Each ok :=
  .node h (by simpa [hg] using ⟨hp, hq⟩) (by simp [hb])

theorem mono (hok : ∀ g, ok g → ok' g) (h : g.Each ok) : g.Each ok' := by
  induction h with
  | node h _ _ ih ih' => exact .node (hok _ h) ih fun f hf v m σ g σ' e => ih' f hf v m σ g σ' e

end Each

end Grammar

/-! ## Trees of run functions -/

/-- A tree of run functions. -/
inductive Core (W : Type) where
  /-- A parser that has been built before. -/
  | ref (p : ParserId)
  /-- One token that satisfies a predicate. -/
  | some (accepts : Value → Action W Bool)
  /-- Nothing; the result is the value. -/
  | pure (v : Value)
  /-- Always a failure with the message. -/
  | fail (message : String)
  /-- A declaration that has no definition yet. -/
  | undeclared
  /-- No run function at all. -/
  | undefined
  /-- Two parsers in sequence. -/
  | seq (a b : Core W) (c : Combine)
  /-- One parser, or the other. -/
  | alt (a b : Core W)
  /-- The result of a parser, transformed. -/
  | map (a : Core W) (f : Value → Action W Value)
  /-- A parser, then the grammar that depends on its result. -/
  | bind (a : Core W) (f : Value → Action W (Grammar W))
  /-- A parser whose result is left out. -/
  | ignore (a : Core W)
  /-- A parser that goes back to its start. -/
  | attempt (a : Core W)
  /-- A parser as often as it succeeds. -/
  | many (a : Core W)
  /-- A cell of lazily repeated results. -/
  | cell (v : Value) (again : ParserId)
  /-- A new parser defined as another. -/
  | copy (a : Core W)

namespace Core

/-- Sequential combination leaves out the result. What is known of parsers that have been built
before is given by `flags`. -/
def ignored (flags : ParserId → Bool) : Core W → Bool
  | .ref p => flags p
  | .ignore _ => true
  | _ => false

/-- No results. -/
def noItems : Core W := .pure (.stream .nil)

/-- Two parsers in sequence, where results may be left out. -/
def plus (flags : ParserId → Bool) (a b : Core W) : Core W :=
  match a.ignored flags, b.ignored flags with
  | true, true => .ignore (.seq a b .second)
  | true, false => .seq a b .second
  | false, true => .seq a b .first
  | false, false => .seq a b .group

/-- A parser, or the value. -/
def optional (a : Core W) (v : Value) : Core W := .alt a (.pure v)

/-- A parser `n` times in front of another one. -/
def repeated (a : Core W) : (n : Nat) → (last : Core W) → Core W
  | 0, last => last
  | n + 1, last => repeated a n (.seq a last .cons)

/-- A parser up to `n` times, and then another one. -/
def upTo (a : Core W) : (n : Nat) → (last : Core W) → Core W
  | 0, last => last
  | n + 1, last => upTo a n (optional (.seq a last .cons) (.stream .nil))

/-- A parser exactly `n` times. -/
def times (n : Int) (a : Core W) : Core W := repeated a n.toNat noItems

/-- A parser at least `low` times and at most `high` times, if there is a limit. -/
def betweenTimes (low : Int) (high : Option Int) (a : Core W) : Core W :=
  .seq (times low a)
    (match high with
      | none => .many a
      | Option.some h => upTo a (h - low).toNat noItems) .append

/-- A parser at least once, separated by another. -/
def sepBy1 (a b : Core W) : Core W := .seq a (.many (.seq b a .second)) .cons

/-- Parsers one after another. -/
def sequence (as : List (Core W)) : Core W := as.foldr (fun a b => .seq a b .cons) noItems

end Core

mutual

/-- The tree of a grammar. Run functions of the caller are not taken apart. -/
def Grammar.core (flags : ParserId → Bool) : Grammar W → Core W
  | .ref p => .ref p
  | .some f => .some f
  | .token v => .some fun t => .done (t.beq v)
  | .pure v => .pure v
  | .fail m => .fail m
  | .finished => .ref .finished
  | .plus p q => .plus flags (p.core flags) (q.core flags)
  | .or p q => .alt (p.core flags) (q.core flags)
  | .map p f => .map (p.core flags) f
  | .bind p f => .bind (p.core flags) f
  | .skip p => .ignore (p.core flags)
  | .attempt p => .attempt (p.core flags)
  | .optional p v => .optional (p.core flags) v
  | .many p => .many (p.core flags)
  | .oneplus p => .seq (p.core flags) (.many (p.core flags)) .cons
  | .times n p => .times n (p.core flags)
  | .betweenTimes low high p => .betweenTimes low high (p.core flags)
  | .sepBy1 p q => .sepBy1 (p.core flags) (q.core flags)
  | .sepBy p q => .optional (.sepBy1 (p.core flags) (q.core flags)) (.stream .nil)
  | .sequence ps => .sequence (Grammar.coreAll flags ps)
  | .listed p => .map (p.core flags) Build.listOf
  | .named p _ => p.core flags
  | .wrap p => .copy (p.core flags)
  | .forward => .undeclared
  | .undefined _ => .undefined
  | .native .. => .undefined
  | .after .. => .undefined
  | .cell v again => .cell v again
termination_by structural g => g

/-- The trees of several grammars. -/
def Grammar.coreAll (flags : ParserId → Bool) : List (Grammar W) → List (Core W)
  | [] => []
  | g :: gs => g.core flags :: Grammar.coreAll flags gs
termination_by structural gs => gs

end

/-! ## Parsers built as a tree says -/

/-- The parser has the run function and no other one. -/
def ParserId.Runs (σ : Store W) (p : ParserId) (code : Code W) : Prop :=
  ∃ c, σ.parsers[p.index]? = some c ∧
    (c.direct = some code ∧ c.logged = none ∨ c.direct = none ∧ c.logged = some code)

/-- The parser does what the body says. -/
abbrev ParserId.Performs (σ : Store W) (p : ParserId) (b : Body W) : Prop := p.Runs σ (.body b)

/-- The run function of the parser, as another definition captures it. -/
def ParserId.Captured (σ : Store W) (p : ParserId) (code : Code W) : Prop :=
  ∃ c, σ.parsers[p.index]? = some c ∧ code = c.code p

/-- The parser is built as the tree says. -/
inductive Core.Built (σ : Store W) : Core W → ParserId → Prop where
  | ref {p : ParserId} {c : Cell W} : σ.parsers[p.index]? = .some c → Built σ (.ref p) p
  | some {p : ParserId} {f : Value → Action W Bool} :
      p.Performs σ (.some p f) → Built σ (.some f) p
  | pure {p : ParserId} {v : Value} : p.Performs σ (.pure v) → Built σ (.pure v) p
  | fail {p : ParserId} {m : String} : p.Performs σ (.fail m) → Built σ (.fail m) p
  | undeclared {p : ParserId} : p.Performs σ .undeclared → Built σ .undeclared p
  | undefined {p : ParserId} {c : Cell W} : σ.parsers[p.index]? = .some c →
      c.direct = none → c.logged = none → Built σ .undefined p
  | seq {a b : Core W} {p q r : ParserId} {c : Combine} : Built σ a p → Built σ b q →
      r.Performs σ (.seq p q c) → Built σ (.seq a b c) r
  | alt {a b : Core W} {p q r : ParserId} : Built σ a p → Built σ b q →
      r.Performs σ (.alt p q) → Built σ (.alt a b) r
  | map {a : Core W} {p r : ParserId} {f : Value → Action W Value} : Built σ a p →
      r.Performs σ (.map p f) → Built σ (.map a f) r
  | bind {a : Core W} {p r : ParserId} {f : Value → Action W (Grammar W)} : Built σ a p →
      r.Performs σ (.bind p f) → Built σ (.bind a f) r
  | ignore {a : Core W} {p r : ParserId} {code : Code W} : Built σ a p → p.Captured σ code →
      r.Performs σ (.ignore code) → Built σ (.ignore a) r
  | attempt {a : Core W} {p r : ParserId} : Built σ a p → r.Performs σ (.attempt p) →
      Built σ (.attempt a) r
  | many {a : Core W} {p r : ParserId} : Built σ a p → r.Performs σ (.many r p) →
      Built σ (.many a) r
  | cell {p again : ParserId} {v : Value} : p.Performs σ (.cell v again) →
      Built σ (.cell v again) p
  | copy {a : Core W} {p r : ParserId} {code : Code W} : Built σ a p → p.Captured σ code →
      r.Runs σ code → Built σ (.copy a) r

/-! ## Later stores -/

/-- The store grows, and results that are left out are left out as before. -/
structure Store.Extends (σ τ : Store W) : Prop where
  /-- What is known stays known. -/
  grows : σ.Grows τ
  /-- Marks stay. -/
  marks : ∀ (i : Nat) (c : Cell W), σ.parsers[i]? = some c →
    ∃ d : Cell W, τ.parsers[i]? = some d ∧ d.ignored = c.ignored

/-- The parser has the mark. -/
def ParserId.Marked (σ : Store W) (p : ParserId) (b : Bool) : Prop :=
  ∃ c, σ.parsers[p.index]? = some c ∧ c.ignored = b

section

variable {σ τ υ : Store W} {p q r : ParserId} {a b : Core W} {code : Code W}

theorem Store.Extends.refl (σ : Store W) : σ.Extends σ := ⟨.refl σ, fun _ c h => ⟨c, h, rfl⟩⟩

theorem Store.Extends.trans (h : σ.Extends τ) (h' : τ.Extends υ) : σ.Extends υ := by
  refine ⟨h.grows.trans h'.grows, fun i c hc => ?_⟩
  obtain ⟨d, hd, e⟩ := h.marks i c hc
  obtain ⟨d', hd', e'⟩ := h'.marks i d hd
  exact ⟨d', hd', e'.trans e⟩

theorem ParserId.Marked.later {b : Bool} (h : p.Marked σ b) (k : σ.Extends τ) : p.Marked τ b := by
  obtain ⟨c, hc, rfl⟩ := h
  exact k.marks _ c hc

theorem ParserId.Runs.later (h : p.Runs σ code) (k : σ.Grows τ) : p.Runs τ code := by
  obtain ⟨c, hc, h⟩ := h
  obtain ⟨d, hd, h₁, h₂⟩ := k.parsers _ c hc
  exact ⟨d, hd, by rwa [h₁, h₂]⟩

theorem ParserId.Captured.later (h : p.Captured σ code) (k : σ.Grows τ) : p.Captured τ code := by
  obtain ⟨c, hc, rfl⟩ := h
  obtain ⟨d, hd, h₁, -⟩ := k.parsers _ c hc
  exact ⟨d, hd, by rw [Cell.code, Cell.code, h₁]⟩

/-- What a parser performs it does. -/
theorem ParserId.Performs.does {b : Body W} (h : p.Performs σ b) : p.Does σ b := by
  obtain ⟨c, hc, ⟨h, -⟩ | ⟨h, h'⟩⟩ := h
  · exact ⟨c, hc, by rw [Cell.code, h]; exact .body⟩
  · exact ⟨c, hc, by rw [Cell.code, h]; exact .method hc h' .body⟩

theorem Core.Built.later (h : a.Built σ p) (k : σ.Grows τ) : a.Built τ p := by
  induction h with
  | ref h =>
    obtain ⟨d, hd, -⟩ := k.parsers _ _ h
    exact .ref hd
  | undefined h h₁ h₂ =>
    obtain ⟨d, hd, h₁', h₂'⟩ := k.parsers _ _ h
    exact .undefined hd (h₁'.trans h₁) (h₂'.trans h₂)
  | some h => exact .some (h.later k)
  | pure h => exact .pure (h.later k)
  | fail h => exact .fail (h.later k)
  | undeclared h => exact .undeclared (h.later k)
  | seq _ _ h ih ih' => exact .seq ih ih' (h.later k)
  | alt _ _ h ih ih' => exact .alt ih ih' (h.later k)
  | map _ h ih => exact .map ih (h.later k)
  | bind _ h ih => exact .bind ih (h.later k)
  | ignore _ hc h ih => exact .ignore ih (hc.later k) (h.later k)
  | attempt _ h ih => exact .attempt ih (h.later k)
  | many _ h ih => exact .many ih (h.later k)
  | cell h => exact .cell (h.later k)
  | copy _ hc h ih => exact .copy ih (hc.later k) (h.later k)

theorem Core.Built.eq_of_ref (h : (Core.ref p : Core W).Built σ q) : q = p := by
  cases h
  rfl

/-- A parser that is built is there. -/
theorem Core.Built.exists_cell (h : a.Built σ p) : ∃ c, σ.parsers[p.index]? = .some c := by
  cases h with
  | ref h => exact ⟨_, h⟩
  | undefined h => exact ⟨_, h⟩
  | some h => exact ⟨_, h.choose_spec.1⟩
  | pure h => exact ⟨_, h.choose_spec.1⟩
  | fail h => exact ⟨_, h.choose_spec.1⟩
  | undeclared h => exact ⟨_, h.choose_spec.1⟩
  | seq _ _ h => exact ⟨_, h.choose_spec.1⟩
  | alt _ _ h => exact ⟨_, h.choose_spec.1⟩
  | map _ h => exact ⟨_, h.choose_spec.1⟩
  | bind _ h => exact ⟨_, h.choose_spec.1⟩
  | ignore _ _ h => exact ⟨_, h.choose_spec.1⟩
  | attempt _ h => exact ⟨_, h.choose_spec.1⟩
  | many _ h => exact ⟨_, h.choose_spec.1⟩
  | cell h => exact ⟨_, h.choose_spec.1⟩
  | copy _ _ h => exact ⟨_, h.choose_spec.1⟩

end

/-! ## What building leaves -/

/-- Building extends the store `σ`, and leaves a result and a store with the property `Q`. -/
def Build.Leaves (σ : Store W) (b : Build W α) (Q : α → Store W → Prop) : Prop :=
  σ.Extends (b σ).2 ∧ Q (b σ).1 (b σ).2

/-- The parser is built as the tree says, and marked accordingly. -/
structure Core.Made (flags : ParserId → Bool) (σ : Store W) (a : Core W) (p : ParserId) : Prop where
  /-- It is built. -/
  built : a.Built σ p
  /-- It is marked. -/
  marked : p.Marked σ (a.ignored flags)

theorem Core.Made.later {flags : ParserId → Bool} {σ τ : Store W} {p : ParserId} {a : Core W}
    (h : a.Made flags σ p) (k : σ.Extends τ) : a.Made flags τ p :=
  ⟨h.built.later k.grows, h.marked.later k⟩

namespace Build.Leaves

variable {flags : ParserId → Bool} {σ τ : Store W} {p q : ParserId} {a b : Core W}

theorem pure {x : α} {Q : α → Store W → Prop} (h : Q x σ) :
    Leaves σ (Pure.pure x : Build W α) Q := ⟨.refl σ, h⟩

theorem bind {x : Build W α} {f : α → Build W β} {Q : α → Store W → Prop}
    {Q' : β → Store W → Prop} (h : Leaves σ x Q)
    (h' : ∀ y τ, σ.Extends τ → Q y τ → Leaves τ (f y) Q') : Leaves σ (x >>= f) Q' := by
  obtain ⟨k, hq⟩ := h
  obtain ⟨k', hq'⟩ := h' _ _ k hq
  exact ⟨k.trans k', hq'⟩

theorem look : Leaves σ (MonadState.get : Build W (Store W)) fun x τ => x = σ ∧ τ = σ :=
  ⟨.refl σ, rfl, rfl⟩

theorem name (p : ParserId) : Leaves σ (p.name : Build W String) fun _ _ => True :=
  ⟨.refl σ, trivial⟩

/-- The mark of a parser is read off its cell. -/
theorem cell (h : a.Made flags σ p) : Leaves σ (p.cell : Build W (Cell W))
    fun c _ => c.ignored = a.ignored flags ∧ p.Captured σ (c.code p) := by
  obtain ⟨c, hc, e⟩ := h.marked
  have found := cell_of_some hc
  exact ⟨.refl σ, by rw [found]; exact e, by rw [found]; exact ⟨c, hc, rfl⟩⟩

theorem extends_make (c : Cell W) (σ : Store W) : σ.Extends (ParserId.make c σ).2 := by
  refine ⟨(Build.Grows.make c).grows σ, fun i d h => ⟨d, ?_, rfl⟩⟩
  obtain ⟨hi, rfl⟩ := Array.getElem?_eq_some_iff.mp h
  exact Array.getElem?_push_lt hi

/-- A new parser with one run function. -/
theorem body (text : String) (f : ParserId → Body W) :
    Leaves σ (Build.body text f) fun p τ => p.Performs τ (f p) ∧ p.Marked τ false := by
  refine ⟨extends_make _ σ, ⟨_, Array.getElem?_push_size, ?_⟩, _, Array.getElem?_push_size, ?_⟩
  · cases σ.logging
    · exact .inl ⟨rfl, rfl⟩
    · exact .inr ⟨rfl, rfl⟩
  · cases σ.logging <;> rfl

/-- Changing what is neither a run function nor a mark. -/
theorem alter (p : ParserId) {f : Cell W → Cell W}
    (hf : ∀ c, (f c).direct = c.direct ∧ (f c).logged = c.logged)
    (hm : ∀ c, (f c).ignored = c.ignored) : Leaves σ (p.alter f) fun _ _ => True := by
  refine ⟨⟨(Build.Grows.alter p hf).grows σ, fun i d h => ?_⟩, trivial⟩
  change ∃ e : Cell W, (σ.parsers.modify p.index f)[i]? = .some e ∧ _
  rw [Array.getElem?_modify, h]
  split
  · exact ⟨f d, rfl, hm d⟩
  · exact ⟨d, rfl, rfl⟩

theorem named (h : a.Made flags σ p) (text : String) :
    Leaves σ (p.named text) fun q τ => a.Made flags τ q :=
  bind (alter p (fun _ => ⟨rfl, rfl⟩) fun _ => rfl) fun _ _ k _ => pure (h.later k)

/-! ### The combinators -/

theorem one (f : Value → Action W Bool) :
    Leaves σ (Build.some f) fun p τ => (Core.some f).Made flags τ p := by
  obtain ⟨k, h, hm⟩ := body (σ := σ) "some(...)" fun self => .some self f
  exact ⟨k, .some h, hm⟩

theorem token (v : Value) :
    Leaves σ (Build.token v) fun p τ => (Core.some fun t => .done (t.beq v)).Made flags τ p := by
  refine bind look fun x τ _ h => ?_
  exact bind (one _) fun p υ _ hp => named hp _

theorem const (v : Value) : Leaves σ (Build.pure v) fun p τ => (Core.pure v).Made flags τ p := by
  refine bind look fun x τ _ h => ?_
  obtain ⟨k, h, hm⟩ := body (σ := τ) ("(pure " ++ x.render v ++ ")") fun _ => .pure v
  exact ⟨k, .pure h, hm⟩

theorem seq (ha : a.Made flags σ p) (hb : b.Made flags σ q) (c : Combine) :
    Leaves σ (Build.seq p q c) fun r τ => (Core.seq a b c).Made flags τ r := by
  obtain ⟨k, h, hm⟩ := body (σ := σ) "" fun _ => .seq p q c
  exact ⟨k, .seq (ha.later k).built (hb.later k).built h, hm⟩

theorem or (ha : a.Made flags σ p) (hb : b.Made flags σ q) :
    Leaves σ (Build.or p q) fun r τ => (Core.alt a b).Made flags τ r := by
  refine bind (name p) fun s τ k _ => bind (name q) fun t υ k' _ => ?_
  have k := k.trans k'
  obtain ⟨k', h, hm⟩ := body (σ := υ) (s ++ " or " ++ t) fun _ => .alt p q
  have k := k.trans k'
  exact ⟨k', .alt (ha.later k).built (hb.later k).built h, hm⟩

theorem map (ha : a.Made flags σ p) (f : Value → Action W Value) :
    Leaves σ (Build.map p f) fun r τ => (Core.map a f).Made flags τ r := by
  refine bind (name p) fun s τ k _ => ?_
  obtain ⟨k', h, hm⟩ := body (σ := τ) s fun _ => .map p f
  exact ⟨k', .map (ha.later (k.trans k')).built h, hm⟩

theorem bindParser (ha : a.Made flags σ p) (f : Value → Action W (Grammar W)) :
    Leaves σ (Build.bind p f) fun r τ => (Core.bind a f).Made flags τ r := by
  refine bind (name p) fun s τ k _ => ?_
  obtain ⟨k', h, hm⟩ := body (σ := τ) ("(" ++ s ++ " >>=)") fun _ => .bind p f
  exact ⟨k', .bind (ha.later (k.trans k')).built h, hm⟩

theorem attempt (ha : a.Made flags σ p) :
    Leaves σ (Build.attempt p) fun r τ => (Core.attempt a).Made flags τ r := by
  refine bind (name p) fun s τ k _ => ?_
  obtain ⟨k', h, hm⟩ := body (σ := τ) s fun _ => .attempt p
  exact ⟨k', .attempt (ha.later (k.trans k')).built h, hm⟩

theorem many (ha : a.Made flags σ p) :
    Leaves σ (Build.many p) fun r τ => (Core.many a).Made flags τ r := by
  refine bind (name p) fun s τ k _ => ?_
  obtain ⟨k', h, hm⟩ := body (σ := τ) ("\x7b " ++ s ++ " \x7d") fun self => .many self p
  exact ⟨k', .many (ha.later (k.trans k')).built h, hm⟩

/-- The new parser gets a mark. -/
theorem skip (ha : a.Made flags σ p) :
    Leaves σ (Build.skip p) fun r τ => (Core.ignore a).Made flags τ r := by
  refine bind (cell ha) fun c τ k hc => ?_
  let made := Build.body c.name (fun _ => .ignore (c.code p)) τ
  obtain ⟨k', ⟨d, hd, hcode⟩, -⟩ := body (σ := τ) c.name fun _ => .ignore (c.code p)
  let marked : Store W := (made.1.alter (fun c => { c with ignored := true }) made.2).2
  have found : marked.parsers[made.1.index]? = .some { d with ignored := true } := by
    change (made.2.parsers.modify made.1.index _)[made.1.index]? = _
    rw [Array.getElem?_modify, if_pos rfl, hd]
    rfl
  have extension : τ.Extends marked := by
    have grows := (Build.Grows.alter made.1 (f := fun c => { c with ignored := true })
      fun _ => ⟨rfl, rfl⟩).grows made.2
    refine ⟨k'.grows.trans grows, fun i e he => ?_⟩
    -- The mark is set on the new parser alone.
    obtain ⟨hi, -⟩ := Array.getElem?_eq_some_iff.mp he
    obtain ⟨e', he', same⟩ := k'.marks i e he
    refine ⟨e', ?_, same⟩
    change (made.2.parsers.modify τ.parsers.size _)[i]? = _
    rw [Array.getElem?_modify, if_neg (by omega), he']
  have k := (k.trans extension).grows
  exact ⟨extension, .ignore (ha.built.later k) (hc.2.later k) ⟨_, found, hcode⟩, _, found, rfl⟩

theorem plus (ha : a.Made flags σ p) (hb : b.Made flags σ q) :
    Leaves σ (Build.plus p q) fun r τ => (Core.plus flags a b).Made flags τ r := by
  refine bind (cell ha) fun c τ k hc => bind (cell (hb.later k)) fun d υ k' hd => ?_
  have k := k.trans k'
  rw [hc.1, hd.1, Core.plus]
  have ha := ha.later k
  have hb := hb.later k
  cases a.ignored flags <;> cases b.ignored flags
  · exact bind (seq ha hb .group) fun _ _ _ hr => named hr _
  · exact bind (seq ha hb .first) fun _ _ _ hr => named hr _
  · exact bind (seq ha hb .second) fun _ _ _ hr => named hr _
  · exact bind (bind (seq ha hb .second) fun _ _ _ hr => skip hr) fun _ _ _ hr => named hr _

theorem optional (ha : a.Made flags σ p) (v : Value) :
    Leaves σ (Build.optional p v) fun r τ => (Core.optional a v).Made flags τ r :=
  bind (const v) fun _ _ k hq => bind (or (ha.later k) hq) fun _ _ _ hr =>
    bind (name p) fun _ _ k' _ => named (hr.later k') _

theorem oneplus (ha : a.Made flags σ p) :
    Leaves σ (Build.oneplus p) fun r τ => (Core.seq a (.many a) .cons).Made flags τ r :=
  bind (many ha) fun _ _ k hr => bind (seq (ha.later k) hr .cons) fun _ _ _ hq =>
    bind (name p) fun _ _ k₁ _ => bind (name p) fun _ _ k₂ _ => named (hq.later (k₁.trans k₂)) _

theorem noItems : Leaves σ Build.noItems fun p τ => (Core.noItems : Core W).Made flags τ p :=
  const _

theorem repeated (ha : a.Made flags σ p) (n : Nat) {last : ParserId} (hl : b.Made flags σ last) :
    Leaves σ (Build.repeated p n last) fun r τ => (a.repeated n b).Made flags τ r := by
  induction n generalizing σ b last with
  | zero => exact pure hl
  | succ n ih => exact bind (seq ha hl .cons) fun _ _ k hq => ih (ha.later k) hq

theorem times (n : Int) (ha : a.Made flags σ p) :
    Leaves σ (Build.times n p) fun r τ => (Core.times n a).Made flags τ r :=
  bind noItems fun _ _ k hl => bind (repeated (ha.later k) _ hl) fun _ _ _ hq =>
    bind (name p) fun _ _ k' _ => named (hq.later k') _

theorem upTo (ha : a.Made flags σ p) (n : Nat) {last : ParserId} (hl : b.Made flags σ last) :
    Leaves σ (Build.upTo p n last) fun r τ => (a.upTo n b).Made flags τ r := by
  induction n generalizing σ b last with
  | zero => exact pure hl
  | succ n ih =>
    exact bind (seq ha hl .cons) fun _ _ k hq => bind (optional hq _) fun _ _ k' hr =>
      ih (ha.later (k.trans k')) hr

theorem betweenTimes (low : Int) (high : Option Int) (ha : a.Made flags σ p) :
    Leaves σ (Build.betweenTimes low high p) fun r τ =>
      (Core.betweenTimes low high a).Made flags τ r := by
  have rest {σ : Store W} (ha : a.Made flags σ p) {extra : ParserId} {b : Core W}
      (hb : b.Made flags σ extra) (limit : String) : Leaves σ (do
        let name := toString low ++ ".." ++ limit ++ " * " ++ (← p.name)
        (← Build.seq (← Build.times low p) extra .append).named name) fun r τ =>
          (Core.seq (.times low a) b .append).Made flags τ r :=
    bind (name p) fun _ _ k₁ _ => bind (times low (ha.later k₁)) fun _ _ k₂ hq =>
      bind (seq hq (hb.later (k₁.trans k₂)) .append) fun _ _ _ hr => named hr _
  cases high with
  | none => exact bind (many ha) fun _ _ k hb => rest (ha.later k) hb _
  | some h =>
    exact bind noItems fun _ _ k₁ hl => bind (upTo (ha.later k₁) _ hl) fun _ _ k₂ hb =>
      rest (ha.later (k₁.trans k₂)) hb _

theorem sepBy1 (ha : a.Made flags σ p) (hb : b.Made flags σ q) :
    Leaves σ (Build.sepBy1 p q) fun r τ => (Core.sepBy1 a b).Made flags τ r :=
  bind (seq hb ha .second) fun _ _ k₁ hr => bind (many hr) fun _ _ k₂ hr =>
    bind (seq (ha.later (k₁.trans k₂)) hr .cons) fun _ _ _ ht => bind (name p) fun _ _ k₃ _ =>
      bind (name q) fun _ _ k₄ _ => named (ht.later (k₃.trans k₄)) _

/-- Trees and parsers, one by one. -/
abbrev AllMade (flags : ParserId → Bool) (σ : Store W) (as : List (Core W))
    (ps : List ParserId) : Prop :=
  List.Forall₂ (fun a p => a.Made flags σ p) as ps

theorem AllMade.later {as : List (Core W)} {ps : List ParserId} (h : AllMade flags σ as ps)
    (k : σ.Extends τ) : AllMade flags τ as ps :=
  h.imp fun _ _ h => h.later k

theorem chain {as : List (Core W)} {ps : List ParserId} (h : AllMade flags σ as ps)
    {last : ParserId} (hl : b.Made flags σ last) :
    Leaves σ (ps.foldrM (fun p q => Build.seq p q .cons) last) fun r τ =>
      (as.foldr (fun a b => Core.seq a b .cons) b).Made flags τ r := by
  induction h with
  | nil => exact pure hl
  | @cons a p as ps ha _ ih =>
    rw [List.foldrM_cons]
    exact bind ih fun _ _ k hq => seq (ha.later k) hq .cons

theorem names (ps : List ParserId) :
    Leaves σ (ps.mapM ParserId.name : Build W (List String)) fun _ _ => True := by
  induction ps generalizing σ with
  | nil => exact pure trivial
  | cons p ps ih =>
    rw [List.mapM_cons]
    exact bind (name p) fun _ _ _ _ => bind ih fun _ _ _ _ => pure trivial

theorem sequence {as : List (Core W)} {ps : List ParserId} (h : AllMade flags σ as ps) :
    Leaves σ (Build.sequence ps) fun r τ => (Core.sequence as).Made flags τ r :=
  bind noItems fun _ _ k hl => bind (chain (AllMade.later h k) hl) fun _ _ _ hq =>
    bind (names ps) fun _ _ k' _ => named (hq.later k') _

theorem listed (ha : a.Made flags σ p) :
    Leaves σ (Build.listed p) fun r τ => (Core.map a Build.listOf).Made flags τ r :=
  bind (map ha _) fun _ _ _ hq => bind (name p) fun _ _ k _ => named (hq.later k) _

/-- The new parser gets the run function of the other one. -/
theorem wrap (ha : a.Made flags σ p) :
    Leaves σ (Build.wrap p) fun r τ => (Core.copy a).Made flags τ r := by
  have k : σ.Grows (Build.wrap p σ).2 := (Build.Grows.wrap p).grows σ
  obtain ⟨c, hc⟩ := ha.built.exists_cell
  -- The other parser is read after the new one is made, and is still the same.
  have source : (p.cell (ParserId.make {} σ).2).1 = c := by
    obtain ⟨hi, rfl⟩ := Array.getElem?_eq_some_iff.mp hc
    exact cell_of_some (Array.getElem?_push_lt hi)
  have found : (Build.wrap p σ).2.parsers[σ.parsers.size]? =
      .some { (({} : Cell W).define σ.logging (c.code p)) with name := c.name } := by
    change ((σ.parsers.push {}).modify σ.parsers.size fun d =>
      { (d.define σ.logging ((p.cell (ParserId.make {} σ).2).1.code p)) with
        name := (p.cell (ParserId.make {} σ).2).1.name })[σ.parsers.size]? = _
    rw [source, Array.getElem?_modify, if_pos rfl, Array.getElem?_push_size]
    rfl
  have runs : ParserId.Runs (Build.wrap p σ).2 (Build.wrap p σ).1 (c.code p) := by
    refine ⟨_, found, ?_⟩
    cases σ.logging
    · exact .inl ⟨rfl, rfl⟩
    · exact .inr ⟨rfl, rfl⟩
  have captured := ParserId.Captured.later ⟨c, hc, rfl⟩ k
  refine ⟨⟨k, fun i d hd => ⟨d, ?_, rfl⟩⟩, .copy (ha.built.later k) captured runs, _, found, ?_⟩
  · obtain ⟨hi, rfl⟩ := Array.getElem?_eq_some_iff.mp hd
    change ((σ.parsers.push {}).modify σ.parsers.size _)[i]? = _
    rw [Array.getElem?_modify, if_neg (by omega), Array.getElem?_push_lt hi]
  · cases σ.logging <;> rfl

/-- Several grammars, from left to right. -/
theorem all {gs : List (Grammar W)}
    (h : ∀ g ∈ gs, ∀ τ, σ.Extends τ →
      Leaves τ g.build fun p υ => (g.core flags).Made flags υ p) :
    Leaves σ (Grammar.buildAll gs) fun ps τ => AllMade flags τ (Grammar.coreAll flags gs) ps := by
  induction gs generalizing σ with
  | nil => exact pure .nil
  | cons g gs ih =>
    refine bind (h g List.mem_cons_self σ (.refl σ)) fun p τ k hp => ?_
    refine bind (ih fun g hg υ k' => ?_) fun ps υ k' hps => ?_
    · exact h g (List.mem_cons_of_mem _ hg) υ (k.trans k')
    · exact pure (.cons (hp.later k') hps)

end Build.Leaves

open Build (Leaves)

/-- In the store and all its extensions, building the grammar makes a parser of the tree. -/
def Grammar.Gives (flags : ParserId → Bool) (σ : Store W) (g : Grammar W) (a : Core W) : Prop :=
  ∀ τ, σ.Extends τ → Leaves τ g.build fun p υ => a.Made flags υ p

namespace Grammar.Gives

variable {flags : ParserId → Bool} {σ : Store W} {g h : Grammar W} {a b : Core W} {p : ParserId}

/-- A parser that has been built before stands for its tree. -/
theorem ref (ha : a.Made flags σ p) : (Grammar.ref p).Gives flags σ a :=
  fun _ k => .pure (ha.later k)

theorem finished (ha : a.Made flags σ .finished) : (Grammar.finished : Grammar W).Gives flags σ a :=
  fun _ k => .pure (ha.later k)

theorem one (f : Value → Action W Bool) : (Grammar.some f).Gives flags σ (.some f) :=
  fun _ _ => Leaves.one f

theorem token (v : Value) :
    (Grammar.token v : Grammar W).Gives flags σ (.some fun t => .done (t.beq v)) :=
  fun _ _ => Leaves.token v

theorem const (v : Value) : (Grammar.pure v : Grammar W).Gives flags σ (.pure v) :=
  fun _ _ => Leaves.const v

theorem plus (hg : g.Gives flags σ a) (hh : h.Gives flags σ b) :
    (Grammar.plus g h).Gives flags σ (.plus flags a b) := fun τ k =>
  .bind (hg τ k) fun _ υ k₁ hp => .bind (hh υ (k.trans k₁)) fun _ _ k₂ hq => .plus (hp.later k₂) hq

theorem or (hg : g.Gives flags σ a) (hh : h.Gives flags σ b) :
    (Grammar.or g h).Gives flags σ (.alt a b) := fun τ k =>
  .bind (hg τ k) fun _ υ k₁ hp => .bind (hh υ (k.trans k₁)) fun _ _ k₂ hq => .or (hp.later k₂) hq

theorem map (hg : g.Gives flags σ a) (f : Value → Action W Value) :
    (Grammar.map g f).Gives flags σ (.map a f) :=
  fun τ k => .bind (hg τ k) fun _ _ _ hp => .map hp f

theorem bind (hg : g.Gives flags σ a) (f : Value → Action W (Grammar W)) :
    (Grammar.bind g f).Gives flags σ (.bind a f) :=
  fun τ k => .bind (hg τ k) fun _ _ _ hp => .bindParser hp f

theorem skip (hg : g.Gives flags σ a) : (Grammar.skip g).Gives flags σ (.ignore a) :=
  fun τ k => .bind (hg τ k) fun _ _ _ hp => .skip hp

theorem attempt (hg : g.Gives flags σ a) : (Grammar.attempt g).Gives flags σ (.attempt a) :=
  fun τ k => .bind (hg τ k) fun _ _ _ hp => .attempt hp

theorem optional (hg : g.Gives flags σ a) (v : Value) :
    (Grammar.optional g v).Gives flags σ (.optional a v) :=
  fun τ k => .bind (hg τ k) fun _ _ _ hp => .optional hp v

theorem many (hg : g.Gives flags σ a) : (Grammar.many g).Gives flags σ (.many a) :=
  fun τ k => .bind (hg τ k) fun _ _ _ hp => .many hp

theorem oneplus (hg : g.Gives flags σ a) :
    (Grammar.oneplus g).Gives flags σ (.seq a (.many a) .cons) :=
  fun τ k => .bind (hg τ k) fun _ _ _ hp => .oneplus hp

theorem times (n : Int) (hg : g.Gives flags σ a) :
    (Grammar.times n g).Gives flags σ (.times n a) :=
  fun τ k => .bind (hg τ k) fun _ _ _ hp => .times n hp

theorem betweenTimes (low : Int) (high : Option Int) (hg : g.Gives flags σ a) :
    (Grammar.betweenTimes low high g).Gives flags σ (.betweenTimes low high a) :=
  fun τ k => .bind (hg τ k) fun _ _ _ hp => .betweenTimes low high hp

theorem sepBy1 (hg : g.Gives flags σ a) (hh : h.Gives flags σ b) :
    (Grammar.sepBy1 g h).Gives flags σ (.sepBy1 a b) := fun τ k =>
  .bind (hg τ k) fun _ υ k₁ hp => .bind (hh υ (k.trans k₁)) fun _ _ k₂ hq =>
    .sepBy1 (hp.later k₂) hq

theorem sepBy (hg : g.Gives flags σ a) (hh : h.Gives flags σ b) :
    (Grammar.sepBy g h).Gives flags σ (.optional (.sepBy1 a b) (.stream .nil)) := fun τ k =>
  .bind (hg τ k) fun _ υ k₁ hp => .bind (hh υ (k.trans k₁)) fun _ _ k₂ hq =>
    .bind (.sepBy1 (hp.later k₂) hq) fun _ _ _ hr => .optional hr _

theorem listed (hg : g.Gives flags σ a) : (Grammar.listed g).Gives flags σ (.map a Build.listOf) :=
  fun τ k => .bind (hg τ k) fun _ _ _ hp => .listed hp

theorem named (hg : g.Gives flags σ a) (name : String) : (Grammar.named g name).Gives flags σ a :=
  fun τ k => .bind (hg τ k) fun _ _ _ hp => .named hp name

theorem wrap (hg : g.Gives flags σ a) : (Grammar.wrap g).Gives flags σ (.copy a) :=
  fun τ k => .bind (hg τ k) fun _ _ _ hp => .wrap hp

theorem forward : (Grammar.forward : Grammar W).Gives flags σ .undeclared := by
  intro τ _
  obtain ⟨k, h, hm⟩ := Leaves.body (σ := τ) "forward_decl()" fun _ => .undeclared
  exact ⟨k, .undeclared h, hm⟩

/-- Several grammars, from left to right. -/
theorem sequence {gs : List (Grammar W)} (h : ∀ g ∈ gs, g.Gives flags σ (g.core flags)) :
    (Grammar.sequence gs).Gives flags σ (.sequence (Grammar.coreAll flags gs)) := fun _ k =>
  .bind (.all fun g hg υ k₁ => h g hg υ (k.trans k₁)) fun _ _ _ hps => .sequence hps

end Grammar.Gives

/-- A grammar of the library is built as its tree says. -/
theorem Grammar.Library.gives {R : Reach → Prop} {P : ParserId → Prop} {flags : ParserId → Bool}
    {g : Grammar W} (h : g.Library R P) {σ : Store W} (hP : ∀ p, P p → p.Marked σ (flags p)) :
    g.Gives flags σ (g.core flags) := by
  have found {p : ParserId} (hp : P p) : (Core.ref p).Made flags σ p := by
    obtain ⟨c, hc, e⟩ := hP p hp
    exact ⟨.ref hc, c, hc, e⟩
  induction h with
  | ref h => exact .ref (found h)
  | some h => exact .one _
  | token v => exact .token v
  | pure v => exact .const v
  | fail m =>
    intro τ k
    obtain ⟨k', h, hm⟩ := Leaves.body (σ := τ) ("(fail " ++ Text.quotedString m ++ ")")
      fun _ => .fail m
    exact ⟨k', .fail h, hm⟩
  | finished h => exact .finished (found h)
  | plus _ _ ihp ihq => exact ihp.plus ihq
  | or _ _ ihp ihq => exact ihp.or ihq
  | map _ _ ih => exact ih.map _
  | bind _ _ _ ih _ => exact ih.bind _
  | skip _ ih => exact ih.skip
  | attempt _ ih => exact ih.attempt
  | optional v _ ih => exact ih.optional v
  | many _ ih => exact ih.many
  | oneplus _ ih => exact ih.oneplus
  | times n _ ih => exact ih.times n
  | betweenTimes low high _ ih => exact ih.betweenTimes low high
  | sepBy1 _ _ ihp ihq => exact ihp.sepBy1 ihq
  | sepBy _ _ ihp ihq => exact ihp.sepBy ihq
  | sequence _ ih => exact .sequence ih
  | listed _ ih => exact ih.listed
  | named text _ ih => exact ih.named text
  | wrap _ ih => exact ih.wrap
  | forward => exact .forward
  | undefined text =>
    exact fun τ k => ⟨Leaves.extends_make _ τ, .undefined Array.getElem?_push_size rfl rfl, _,
      Array.getElem?_push_size, rfl⟩
  | cell v _ _ =>
    intro τ k
    obtain ⟨k', h, hm⟩ := Leaves.body (σ := τ) "" fun _ => .cell v _
    exact ⟨k', .cell h, hm⟩

theorem Grammar.Library.made {R : Reach → Prop} {P : ParserId → Prop} {flags : ParserId → Bool}
    {g : Grammar W} (h : g.Library R P) {σ : Store W} (hP : ∀ p, P p → p.Marked σ (flags p)) :
    Leaves σ g.build fun p τ => (g.core flags).Made flags τ p := h.gives hP σ (.refl σ)

/-- The marks of a store. -/
def Store.marks (σ : Store W) (p : ParserId) : Bool := (σ.parsers[p.index]?.getD {}).ignored

/-- Over a closed set of parsers, grammars of the library are built as their trees say. -/
theorem Grammar.Library.built {R : Reach → Prop} {P : ParserId → Prop} {g : Grammar W}
    (h : g.Library R P) {σ : Store W} (hP : Closed R P σ) :
    σ.Extends (g.build σ).2 ∧ (g.core σ.marks).Built (g.build σ).2 (g.build σ).1 := by
  have marked (p : ParserId) (hp : P p) : p.Marked σ (σ.marks p) := by
    obtain ⟨c, hc, -⟩ := hP p hp
    refine ⟨c, hc, ?_⟩
    rw [Store.marks, hc]
    rfl
  obtain ⟨k, made⟩ := h.made marked
  exact ⟨k, made.built⟩

end ResumableParsing
