import ResumableParsing.Proofs.Backtracking.Semantics
import ResumableParsing.Proofs.Repetition.Cells

/-!
# Building grammars with declarations

A grammar may refer to parsers that have been built before, and to parsers that are declared first
and defined later, so that grammars can be recursive. Whatever the order, in the end each parser
that has been declared does what the grammar says that it is defined as.

* `Grammar.Node`: what the parser of a grammar does
* `Grammar.Made`: a parser is built from a grammar, or defined as one that is
* `Declared`: all declared parsers are made
* `Bench`: the stores in which grammars have been built, parsers declared and defined
* `Bench.declared`: there all declared parsers are made
* `Store.Maintains`: parsers that have a definition keep it
-/

namespace ResumableParsing

variable {W : Type}

/-! ## What parsers do -/

/-- No parser is left out by sequential combination. -/
def noMarks : ParserId → Bool := fun _ => false

/-- The parser is built from the grammar. -/
abbrev Grammar.Builds (σ : Store W) (g : Grammar W) (p : ParserId) : Prop :=
  (g.core noMarks).Built σ p

/-- `g.Node σ p b`: built from `g`, the parser `p` does what `b` says, with parsers that are built
from the parts of `g`. -/
inductive Grammar.Node (σ : Store W) : Grammar W → ParserId → Body W → Prop where
  | some {p : ParserId} {f : Value → Action W Bool} : Node σ (.some f) p (.some p f)
  | token {p : ParserId} {v : Value} : Node σ (.token v) p (.some p fun t => .done (t.beq v))
  | pure {p : ParserId} {v : Value} : Node σ (.pure v) p (.pure v)
  | fail {p : ParserId} {message : String} : Node σ (.fail message) p (.fail message)
  | finished : Node σ .finished .finished (.finished .finished)
  | plus {g h : Grammar W} {p q r : ParserId} : g.Builds σ p → h.Builds σ q →
      Node σ (.plus g h) r (.seq p q .group)
  | nothing {p : ParserId} : Node σ (.sequence []) p (.pure (.stream .nil))
  | sequence {g : Grammar W} {gs : List (Grammar W)} {p q r : ParserId} : g.Builds σ p →
      (Grammar.sequence gs).Builds σ q → Node σ (.sequence (g :: gs)) r (.seq p q .cons)
  | map {g : Grammar W} {f : Value → Action W Value} {p r : ParserId} : g.Builds σ p →
      Node σ (.map g f) r (.map p f)
  | listed {g : Grammar W} {p r : ParserId} : g.Builds σ p →
      Node σ (.listed g) r (.map p Build.listOf)
  | or {g h : Grammar W} {p q r : ParserId} : g.Builds σ p → h.Builds σ q →
      Node σ (.or g h) r (.alt p q)
  | optional {g : Grammar W} {v : Value} {p q r : ParserId} : g.Builds σ p →
      (Grammar.pure v).Builds σ q → Node σ (.optional g v) r (.alt p q)
  | many {g : Grammar W} {p r : ParserId} : g.Builds σ p → r.Performs σ (.many r p) →
      Node σ (.many g) r (.many r p)
  | attempt {g : Grammar W} {p r : ParserId} : g.Builds σ p → Node σ (.attempt g) r (.attempt p)
  | forward {p : ParserId} : Node σ .forward p .undeclared

/-- The parser is built from the grammar, or defined as a parser that is. -/
inductive Grammar.Made (σ : Store W) (g : Grammar W) : ParserId → Prop where
  | built {p : ParserId} : g.Builds σ p → Made σ g p
  | defined {p source : ParserId} {code : Code W} : ¬g.IsRef → Made σ g source →
      source.Captured σ code → p.Runs σ code → Made σ g p

/-- Run functions of parsers that are made from the grammar. -/
inductive Grammar.Codes (σ : Store W) (g : Grammar W) : Code W → Prop where
  | body {p : ParserId} {b : Body W} : p.Performs σ b → g.Node σ p b → Codes σ g (.body b)
  | method {p : ParserId} : ¬g.IsRef → g.Made σ p → Codes σ g (.method p)

/-- A declaration without definition, or a grammar in which everything that may be given up is an
attempt. -/
def Grammar.Part (known : Declarations W) (g : Grammar W) : Prop :=
  g = .forward ∨ g.Each (Grammar.Backtracking known)

/-- The parser has been declared, and has no definition yet. -/
structure ParserId.Waits (σ : Store W) (p : ParserId) : Prop where
  /-- It stands for the missing definition. -/
  performs : p.Performs σ .undeclared
  /-- The definition will take its place. -/
  owns : p.Owns σ .undeclared

/-- The store holds the parsers that have been declared. -/
structure Declared (known : Declarations W) (σ : Store W) : Prop where
  /-- The parser at the end of the input. -/
  finished : ParserId.finished.Performs σ (.finished .finished)
  /-- Each parser is made from its grammar. -/
  made : ∀ q g, known q = some g → g.Made σ q
  /-- Their grammars. -/
  part : ∀ q g, known q = some g → g.Part known ∧ ¬g.IsRef
  /-- Parsers without definition. -/
  waiting : ∀ q, known q = some .forward → q.Waits σ

section

variable {known : Declarations W} {σ τ : Store W} {g h : Grammar W} {p q r : ParserId}
  {code code' : Code W} {a : Core W}

theorem ParserId.Runs.unique (h : p.Runs σ code) (h' : p.Runs σ code') : code = code' := by
  obtain ⟨c, hc, h⟩ := h
  obtain ⟨d, hd, h'⟩ := h'
  cases hc.symm.trans hd
  rcases h with ⟨h, -⟩ | ⟨h, k⟩ <;> rcases h' with ⟨h', -⟩ | ⟨h', k'⟩
  · exact Option.some.inj (h.symm.trans h')
  · cases h.symm.trans h'
  · cases h.symm.trans h'
  · exact Option.some.inj (k.symm.trans k')

/-! ### Trees of backtracking grammars -/

/-- Every parser of the tree has a run function of its own. -/
def Core.Fixed : Core W → Prop
  | .ref _ | .some _ | .pure _ | .fail _ => True
  | .seq a b _ | .alt a b => a.Fixed ∧ b.Fixed
  | .map a _ | .attempt a | .many a => a.Fixed
  | _ => False

theorem Core.Fixed.ignored (h : a.Fixed) : a.ignored noMarks = false := by
  cases a with
  | ignore a => exact h.elim
  | _ => rfl

theorem Core.plus_noMarks {b : Core W} (ha : a.Fixed) (hb : b.Fixed) :
    Core.plus noMarks a b = .seq a b .group := by
  rw [Core.plus, ha.ignored, hb.ignored]

theorem Grammar.fixed_sequence {ps : List (Grammar W)} (h : ∀ p ∈ ps, (p.core noMarks).Fixed) :
    ((Grammar.sequence ps).core noMarks).Fixed := by
  induction ps with
  | nil => trivial
  | cons p ps ih =>
    exact ⟨h p List.mem_cons_self, ih fun q hq => h q (List.mem_cons_of_mem p hq)⟩

theorem Grammar.fixed (hg : g.Each (Grammar.Backtracking known)) : (g.core noMarks).Fixed := by
  induction hg with
  | @node g here _ _ ih =>
    cases g with
    | plus p q =>
      have hp := ih p (by simp [operands])
      have hq := ih q (by simp [operands])
      rw [core, Core.plus_noMarks hp hq]
      exact ⟨hp, hq⟩
    | or p q => exact ⟨ih p (by simp [operands]), ih q (by simp [operands])⟩
    | optional p v => exact ⟨ih p (by simp [operands]), trivial⟩
    | map p f => exact ih p (by simp [operands])
    | listed p => exact ih p (by simp [operands])
    | attempt p => exact ih p (by simp [operands])
    | many p => exact ih p (by simp [operands])
    | sequence ps => exact fixed_sequence ih
    | ref q => trivial
    | some f => trivial
    | token v => trivial
    | pure v => trivial
    | fail m => trivial
    | finished => trivial
    | _ => exact here.elim

/-! ### Run functions -/

/-- The parser of a grammar does what the grammar says. -/
theorem Grammar.Builds.node (hd : Declared known σ) (hg : g.Part known) (hr : ¬g.IsRef)
    (h : g.Builds σ p) : ∃ b, p.Performs σ b ∧ g.Node σ p b := by
  -- A declaration may still wait for its definition.
  rcases hg with rfl | hg
  · cases h with
    | undeclared h => exact ⟨_, h, .forward⟩
  cases g with
  | ref q => exact absurd trivial hr
  | some f =>
    cases h with
    | some h => exact ⟨_, h, .some⟩
  | token v =>
    cases h with
    | some h => exact ⟨_, h, .token⟩
  | pure v =>
    cases h with
    | pure h => exact ⟨_, h, .pure⟩
  | fail m =>
    cases h with
    | fail h => exact ⟨_, h, .fail⟩
  | finished =>
    cases h with
    | ref h => exact ⟨_, hd.finished, .finished⟩
  | plus p q =>
    have hp := hg.operand (p := p) (by simp [operands])
    have hq := hg.operand (p := q) (by simp [operands])
    -- Neither operand is left out, so both results are kept.
    rw [Builds, core, Core.plus_noMarks (fixed hp) (fixed hq)] at h
    cases h with
    | seq hp hq h => exact ⟨_, h, .plus hp hq⟩
  | or p q =>
    cases h with
    | alt hp hq h => exact ⟨_, h, .or hp hq⟩
  | optional p v =>
    cases h with
    | alt hp hq h => exact ⟨_, h, .optional hp hq⟩
  | map p f =>
    cases h with
    | map hp h => exact ⟨_, h, .map hp⟩
  | listed p =>
    cases h with
    | map hp h => exact ⟨_, h, .listed hp⟩
  | attempt p =>
    cases h with
    | attempt hp h => exact ⟨_, h, .attempt hp⟩
  | many p =>
    cases h with
    | many hp h => exact ⟨_, h, .many hp h⟩
  | sequence ps =>
    cases ps with
    | nil =>
      cases h with
      | pure h => exact ⟨_, h, .nothing⟩
    | cons p ps =>
      cases h with
      | seq hp hq h => exact ⟨_, h, .sequence hp hq⟩
  | _ => exact hg.here.elim

theorem Grammar.Made.runs (hd : Declared known σ) (hg : g.Part known) (hr : ¬g.IsRef)
    (h : g.Made σ p) : ∃ code, p.Runs σ code := by
  cases h with
  | built h =>
    obtain ⟨b, performs, -⟩ := h.node hd hg hr
    exact ⟨_, performs⟩
  | defined _ _ _ runs => exact ⟨_, runs⟩

/-- What a parser runs that another definition captures, the other parser runs, or its logging
method. -/
theorem ParserId.Captured.cases (h : p.Captured σ code) (runs : p.Runs σ code') :
    p.Runs σ code ∨ code = .method p := by
  obtain ⟨c, hc, rfl⟩ := h
  obtain ⟨d, hd, runs⟩ := runs
  cases hc.symm.trans hd
  rw [Cell.code]
  rcases runs with ⟨direct, logged⟩ | ⟨direct, logged⟩
  · rw [direct]
    exact .inl ⟨c, hc, .inl ⟨direct, logged⟩⟩
  · rw [direct]
    exact .inr rfl

/-- A parser that is made from a grammar does what the grammar says. -/
theorem Grammar.Made.codes (hd : Declared known σ) (hg : g.Part known) (hr : ¬g.IsRef)
    (h : g.Made σ p) (runs : p.Runs σ code) : g.Codes σ code := by
  induction h generalizing code with
  | built h =>
    obtain ⟨b, performs, node⟩ := h.node hd hg hr
    rw [runs.unique performs]
    exact .body performs node
  | @defined p source code' _ made captured defined ih =>
    rw [runs.unique defined]
    obtain ⟨_, source_runs⟩ := made.runs hd hg hr
    rcases captured.cases source_runs with h | rfl
    · exact ih h
    · exact .method hr made

/-! ### Later stores -/

theorem Grammar.Node.later {b : Body W} (h : g.Node σ p b) (k : σ.Grows τ) : g.Node τ p b := by
  cases h with
  | some => exact .some
  | token => exact .token
  | pure => exact .pure
  | fail => exact .fail
  | finished => exact .finished
  | nothing => exact .nothing
  | forward => exact .forward
  | plus hp hq => exact .plus (hp.later k) (hq.later k)
  | sequence hp hq => exact .sequence (hp.later k) (hq.later k)
  | or hp hq => exact .or (hp.later k) (hq.later k)
  | optional hp hq => exact .optional (hp.later k) (hq.later k)
  | map hp => exact .map (hp.later k)
  | listed hp => exact .listed (hp.later k)
  | many hp h => exact .many (hp.later k) (h.later k)
  | attempt hp => exact .attempt (hp.later k)

theorem Grammar.Made.later (h : g.Made σ p) (k : σ.Grows τ) : g.Made τ p := by
  induction h with
  | built h => exact .built (h.later k)
  | defined hr _ captured runs ih => exact .defined hr ih (captured.later k) (runs.later k)

theorem Grammar.Codes.later (h : g.Codes σ code) (k : σ.Grows τ) : g.Codes τ code := by
  cases h with
  | body h node => exact .body (h.later k) (node.later k)
  | method hr h => exact .method hr (h.later k)

theorem ParserId.Waits.later (h : p.Waits σ) (k : σ.Grows τ) : p.Waits τ :=
  ⟨h.performs.later k, h.owns.later k⟩

theorem Declared.later (hd : Declared known σ) (k : σ.Grows τ) : Declared known τ where
  finished := hd.finished.later k
  made q g h := (hd.made q g h).later k
  part := hd.part
  waiting q h := (hd.waiting q h).later k

/-! ### Definitions -/

theorem ParserId.Runs.define_other (h : p.Runs σ code) (hr : r ≠ p) (source : ParserId) :
    p.Runs (r.define source σ).2 code := by
  obtain ⟨c, hc, h⟩ := h
  exact ⟨c, by rwa [getElem_define r source fun hi => hr (congrArg ParserId.mk hi)], h⟩

theorem ParserId.Captured.define_other (h : p.Captured σ code) (hr : r ≠ p)
    (source : ParserId) : p.Captured (r.define source σ).2 code := by
  obtain ⟨c, hc, h⟩ := h
  exact ⟨c, by rwa [getElem_define r source fun hi => hr (congrArg ParserId.mk hi)], h⟩

/-- A definition changes no parser that has one already. -/
theorem ParserId.Runs.define (hr : r.Waits σ) (h : p.Runs σ code) (hc : code ≠ .body .undeclared)
    (source : ParserId) : p.Runs (r.define source σ).2 code := by
  refine h.define_other ?_ source
  rintro rfl
  exact hc (h.unique hr.performs)

theorem exists_cell_define {i : Nat} {c : Cell W} (h : σ.parsers[i]? = some c)
    (r source : ParserId) : ∃ d, (r.define source σ).2.parsers[i]? = some d := by
  rw [define_parsers, Array.getElem?_modify, h]
  split
  · exact ⟨_, rfl⟩
  · exact ⟨_, rfl⟩

/-- Defining the parser `r` leaves the parsers of the tree as they are: none of them is a
declaration or a copy, and no run function of `r` has been captured. -/
def Core.Lasting (r : ParserId) : Core W → Prop
  | .ref _ | .some _ | .pure _ | .fail _ | .cell .. => True
  | .seq a b _ | .alt a b => a.Lasting r ∧ b.Lasting r
  | .map a _ | .bind a _ | .attempt a | .many a => a.Lasting r
  | .ignore a => a.Lasting r ∧ a ≠ .ref r
  | .undeclared | .undefined | .copy _ => False

theorem Core.Fixed.lasting (h : a.Fixed) (r : ParserId) : a.Lasting r := by
  induction a with
  | seq a b c iha ihb => exact ⟨iha h.1, ihb h.2⟩
  | alt a b iha ihb => exact ⟨iha h.1, ihb h.2⟩
  | map a f ih => exact ih h
  | attempt a ih => exact ih h
  | many a ih => exact ih h
  | ref | some | pure | fail => trivial
  | _ => exact h.elim

/-- A parser of such a tree is not waiting for a definition, unless the tree refers to it. -/
theorem Core.Built.ne_of_waits (hr : r.Waits σ) (h : a.Built σ p) (ha : a.Lasting r)
    (ne : a ≠ .ref r) : r ≠ p := by
  rintro rfl
  have other {b : Body W} (h : r.Performs σ b) (hb : b ≠ .undeclared) : False :=
    hb (Code.body.inj (h.unique hr.performs))
  cases h with
  | ref _ => exact ne rfl
  | some h => exact other h (by simp)
  | pure h => exact other h (by simp)
  | fail h => exact other h (by simp)
  | seq _ _ h => exact other h (by simp)
  | alt _ _ h => exact other h (by simp)
  | map _ h => exact other h (by simp)
  | bind _ h => exact other h (by simp)
  | ignore _ _ h => exact other h (by simp)
  | attempt _ h => exact other h (by simp)
  | many _ h => exact other h (by simp)
  | cell h => exact other h (by simp)
  | _ => exact ha.elim

theorem Core.Built.define (hr : r.Waits σ) (h : a.Built σ p) (ha : a.Lasting r)
    (source : ParserId) : a.Built (r.define source σ).2 p := by
  induction h with
  | ref h =>
    obtain ⟨c, found⟩ := exists_cell_define h r source
    exact .ref found
  | some h => exact .some (h.define hr (by simp) source)
  | pure h => exact .pure (h.define hr (by simp) source)
  | fail h => exact .fail (h.define hr (by simp) source)
  | seq _ _ h ihp ihq => exact .seq (ihp ha.1) (ihq ha.2) (h.define hr (by simp) source)
  | alt _ _ h ihp ihq => exact .alt (ihp ha.1) (ihq ha.2) (h.define hr (by simp) source)
  | map _ h ih => exact .map (ih ha) (h.define hr (by simp) source)
  | bind _ h ih => exact .bind (ih ha) (h.define hr (by simp) source)
  | ignore hp captured h ih =>
    have other := hp.ne_of_waits hr ha.1 ha.2
    exact .ignore (ih ha.1) (captured.define_other other source) (h.define hr (by simp) source)
  | attempt _ h ih => exact .attempt (ih ha) (h.define hr (by simp) source)
  | many _ h ih => exact .many (ih ha) (h.define hr (by simp) source)
  | cell h => exact .cell (h.define hr (by simp) source)
  | _ => exact ha.elim

/-- A parser that is made from a grammar has a definition. -/
theorem Grammar.Made.has_definition (hd : Declared known σ)
    (hg : g.Each (Grammar.Backtracking known)) (hr : ¬g.IsRef) (h : g.Made σ p)
    (runs : p.Runs σ code) : code ≠ .body .undeclared := by
  rintro rfl
  cases h.codes hd (.inr hg) hr runs with
  | body _ node =>
    cases node
    exact hg.here.elim

theorem Grammar.Made.define (hd : Declared known σ) (hg : g.Each (Grammar.Backtracking known))
    (hr : ¬g.IsRef) (h : g.Made σ p) (hw : r.Waits σ) (source : ParserId) :
    g.Made (r.define source σ).2 p := by
  induction h with
  | built h => exact .built (Core.Built.define hw h ((fixed hg).lasting r) source)
  | @defined p q code _ made captured runs ih =>
    have other : r ≠ q := by
      rintro rfl
      exact made.has_definition hd hg hr hw.performs rfl
    have made' := Grammar.Made.defined hr made captured runs
    refine .defined hr ih (captured.define_other other source) (runs.define hw ?_ source)
    exact made'.has_definition hd hg hr runs

/-- A parser that is waiting runs the definition that it gets. -/
theorem ParserId.Waits.define (hw : r.Waits σ) (source : ParserId) {c : Cell W}
    (hc : σ.parsers[source.index]? = some c) :
    r.Runs (r.define source σ).2 (c.code source) := by
  obtain ⟨d, hd, owns⟩ := hw.owns
  obtain ⟨e, he, performs⟩ := hw.performs
  cases hd.symm.trans he
  have same := cell_of_some hc
  refine ⟨{ d.define σ.logging (c.code source) with name := c.name }, ?_, ?_⟩
  · rw [define_parsers, Array.getElem?_modify, if_pos rfl, hd, same]
    rfl
  · rcases owns with ⟨hl, direct⟩ | ⟨hl, direct, -⟩
    · rcases performs with ⟨-, logged⟩ | ⟨direct', -⟩
      · exact .inl (by simp [Cell.define, hl, logged])
      · cases direct.symm.trans direct'
    · exact .inr (by simp [Cell.define, hl, direct])

end

/-! ## Stores in which grammars are built -/

/-- The declarations with another one. -/
def Declarations.set (known : Declarations W) (p : ParserId) (g : Grammar W) : Declarations W :=
  fun q => if q = p then some g else known q

/-- The store holds the parser at the end of the input, parsers that have been built from grammars
of pure functions in which everything that may be given up is an attempt, and parsers that have been
declared and perhaps defined as one of the others. -/
inductive Bench : Declarations W → Store W → Prop where
  /-- There is only the parser at the end of the input. -/
  | start {σ : Store W} : ParserId.finished.Performs σ (.finished .finished) →
      ParserId.finished.Marked σ false → Bench (fun _ => none) σ
  /-- A parser is declared. -/
  | forward {known : Declarations W} {σ : Store W} : Bench known σ →
      Bench (known.set (Build.forward σ).1 .forward) (Build.forward σ).2
  /-- A grammar is built. -/
  | build {known : Declarations W} {σ : Store W} {g : Grammar W} : Bench known σ →
      g.Each (Grammar.Backtracking known) → ¬g.IsRef →
      Bench (known.set (g.build σ).1 g) (g.build σ).2
  /-- A parser that has been declared is defined as another one. -/
  | define {known : Declarations W} {σ : Store W} {g : Grammar W} {r source : ParserId} :
      Bench known σ → known r = some .forward → known source = some g → g ≠ .forward →
      Bench (known.set r g) (r.define source σ).2

section

variable {known : Declarations W} {σ τ : Store W} {g h : Grammar W} {p q r : ParserId}

theorem Declarations.eq_or_of_set (hq : known.set p g q = some h) :
    q = p ∧ h = g ∨ q ≠ p ∧ known q = some h := by
  rw [set] at hq
  split at hq
  · next e => exact .inl ⟨e, (Option.some.inj hq).symm⟩
  · next e => exact .inr ⟨e, hq⟩

theorem Declarations.isSome_set (hq : (known q).isSome) (p : ParserId) (g : Grammar W) :
    (known.set p g q).isSome := by
  rw [set]
  split
  · rfl
  · exact hq

theorem Grammar.Backtracking.set (hg : g.Backtracking known) (p : ParserId) (h : Grammar W) :
    g.Backtracking (known.set p h) := by
  cases g with
  | ref q => exact Declarations.isSome_set hg p h
  | _ => exact hg

theorem Grammar.Part.set (hg : g.Part known) (p : ParserId) (h : Grammar W) :
    g.Part (known.set p h) := by
  rcases hg with rfl | hg
  · exact .inl rfl
  · exact .inr (hg.mono fun _ hg => hg.set p h)

/-- Such grammars are made of parts of the library. -/
theorem Grammar.library (hg : g.Each (Grammar.Backtracking known)) :
    g.Library (fun _ => True) fun q => q = .finished ∨ (known q).isSome := by
  induction hg with
  | @node g here _ _ ih =>
    cases g with
    | plus p q => exact .plus (ih p (by simp [operands])) (ih q (by simp [operands]))
    | or p q => exact .or (ih p (by simp [operands])) (ih q (by simp [operands]))
    | optional p v => exact .optional v (ih p (by simp [operands]))
    | map p f => exact .map (ih p (by simp [operands])) fun v => (f v).reaches_all
    | listed p => exact .listed (ih p (by simp [operands]))
    | attempt p => exact .attempt (ih p (by simp [operands]))
    | many p => exact .many (ih p (by simp [operands]))
    | sequence ps => exact .sequence ih
    | ref q => exact .ref (.inr here)
    | some f => exact .some fun v => (f v).reaches_all
    | token v => exact .token v
    | pure v => exact .pure v
    | fail m => exact .fail m
    | finished => exact .finished (.inl rfl)
    | _ => exact here.elim

/-- Building such a grammar makes a parser that is not left out. -/
theorem Grammar.leaves_build (hg : g.Each (Grammar.Backtracking known))
    (hk : ∀ q, q = .finished ∨ (known q).isSome → q.Marked σ false) :
    Build.Leaves σ g.build fun p τ => g.Builds τ p ∧ p.Marked τ false := by
  have made : Build.Leaves σ g.build fun p τ => (g.core noMarks).Made noMarks τ p :=
    (library hg).made hk
  refine ⟨made.1, made.2.built, ?_⟩
  rw [← (fixed hg).ignored]
  exact made.2.marked

theorem ParserId.Marked.define {b : Bool} (h : q.Marked σ b) (r source : ParserId) :
    q.Marked (r.define source σ).2 b := by
  obtain ⟨c, hc, rfl⟩ := h
  rw [ParserId.Marked, define_parsers, Array.getElem?_modify, hc]
  split
  · refine ⟨_, rfl, ?_⟩
    cases h : σ.logging <;> rfl
  · exact ⟨c, rfl, rfl⟩

theorem Core.Made.define {flags : ParserId → Bool} {a : Core W} (hr : r.Waits σ)
    (h : a.Made flags σ p) (ha : a.Lasting r) (source : ParserId) :
    a.Made flags (r.define source σ).2 p :=
  ⟨h.built.define hr ha source, h.marked.define r source⟩

/-- No parser is left out by sequential combination. -/
theorem Bench.marked (h : Bench known σ) (q : ParserId) (hq : q = .finished ∨ (known q).isSome) :
    q.Marked σ false := by
  -- A declared parser is the one that has just been set, or it has been there before.
  have cases_set {known : Declarations W} {p q : ParserId} {g : Grammar W}
      (hq : q = .finished ∨ (known.set p g q).isSome) :
      q = p ∨ q = .finished ∨ (known q).isSome := by
    rcases hq with hq | hq
    · exact .inr (.inl hq)
    · obtain ⟨h, hq⟩ := Option.isSome_iff_exists.mp hq
      obtain ⟨rfl, -⟩ | ⟨-, hq⟩ := Declarations.eq_or_of_set hq
      · exact .inl rfl
      · exact .inr (.inr (by rw [hq]; rfl))
  induction h generalizing q with
  | start _ marked =>
    rcases hq with rfl | hq
    · exact marked
    · cases hq
  | @forward known σ _ ih =>
    obtain ⟨k, -, marked⟩ := Build.Leaves.body (σ := σ) "forward_decl()" fun _ => .undeclared
    rcases cases_set hq with rfl | hq
    · exact marked
    · exact (ih q hq).later k
  | @build known σ g _ hg _ ih =>
    obtain ⟨k, -, marked⟩ := g.leaves_build hg ih
    rcases cases_set hq with rfl | hq
    · exact marked
    · exact (ih q hq).later k
  | @define known σ g r source _ hr _ _ ih =>
    rcases cases_set hq with rfl | hq
    · exact (ih q (.inr (by rw [hr]; rfl))).define q source
    · exact (ih q hq).define r source

/-- All declared parsers are made. -/
theorem Bench.declared (h : Bench known σ) : Declared known σ := by
  induction h with
  | start finished _ => exact ⟨finished, by simp, by simp, by simp⟩
  | @forward known σ _ ih =>
    obtain ⟨k, performs, -⟩ := Build.Leaves.body (σ := σ) "forward_decl()" fun _ => .undeclared
    have later := ih.later k.grows
    refine ⟨later.finished, fun q g hq => ?_, fun q g hq => ?_, fun q hq => ?_⟩
    · obtain ⟨rfl, rfl⟩ | ⟨-, hq⟩ := Declarations.eq_or_of_set hq
      · exact .built (.undeclared performs)
      · exact later.made q g hq
    · obtain ⟨rfl, rfl⟩ | ⟨-, hq⟩ := Declarations.eq_or_of_set hq
      · exact ⟨.inl rfl, id⟩
      · exact ⟨(later.part q g hq).1.set _ _, (later.part q g hq).2⟩
    · obtain ⟨rfl, -⟩ | ⟨-, hq⟩ := Declarations.eq_or_of_set hq
      · exact ⟨performs, owns_body _ _ σ⟩
      · exact later.waiting q hq
  | @build known σ g bench hg hr ih =>
    obtain ⟨k, built, -⟩ := g.leaves_build hg bench.marked
    have later := ih.later k.grows
    refine ⟨later.finished, fun q h hq => ?_, fun q h hq => ?_, fun q hq => ?_⟩
    · obtain ⟨rfl, rfl⟩ | ⟨-, hq⟩ := Declarations.eq_or_of_set hq
      · exact .built built
      · exact later.made q h hq
    · obtain ⟨rfl, rfl⟩ | ⟨-, hq⟩ := Declarations.eq_or_of_set hq
      · exact ⟨Grammar.Part.set (.inr hg) _ _, hr⟩
      · exact ⟨(later.part q h hq).1.set _ _, (later.part q h hq).2⟩
    · obtain ⟨-, rfl⟩ | ⟨-, hq⟩ := Declarations.eq_or_of_set hq
      · exact hg.here.elim
      · exact later.waiting q hq
  | @define known σ g r source _ hr hs hg ih =>
    have waits := ih.waiting r hr
    obtain ⟨part, ref⟩ := ih.part source g hs
    have each := part.resolve_left hg
    have made := ih.made source g hs
    -- The source is made from a grammar, so it is not the declaration that waits.
    have other : r ≠ source := by
      rintro rfl
      exact hg (Option.some.inj (hs.symm.trans hr))
    obtain ⟨_, c, hc, -⟩ := made.runs ih part ref
    refine ⟨?_, fun q h hq => ?_, fun q h hq => ?_, fun q hq => ?_⟩
    · exact ih.finished.define waits (by simp) source
    · obtain ⟨rfl, rfl⟩ | ⟨hne, hq⟩ := Declarations.eq_or_of_set hq
      · have captured := ParserId.Captured.define_other ⟨c, hc, rfl⟩ other source
        exact .defined ref (made.define ih each ref waits source) captured (waits.define source hc)
      · obtain ⟨part', ref'⟩ := ih.part q h hq
        rcases part' with rfl | each'
        · exact .built (.undeclared ((ih.waiting q hq).performs.define_other hne.symm source))
        · exact (ih.made q h hq).define ih each' ref' waits source
    · obtain ⟨rfl, rfl⟩ | ⟨-, hq⟩ := Declarations.eq_or_of_set hq
      · exact ⟨part.set _ _, ref⟩
      · exact ⟨(ih.part q h hq).1.set _ _, (ih.part q h hq).2⟩
    · obtain ⟨-, rfl⟩ | ⟨hne, hq⟩ := Declarations.eq_or_of_set hq
      · exact absurd rfl hg
      · have waits' := ih.waiting q hq
        exact ⟨waits'.performs.define_other hne.symm source, waits'.owns.define hne.symm source⟩

end

/-! ## Stores that keep definitions -/

/-- Parsers that have a definition keep it. Declarations may have been defined. -/
structure Store.Maintains (σ τ : Store W) : Prop where
  /-- No parser is lost. -/
  cells : σ.parsers.size ≤ τ.parsers.size
  /-- Definitions stay. -/
  runs : ∀ p code, ParserId.Runs σ p code → code ≠ .body .undeclared → ParserId.Runs τ p code

section

variable {σ τ υ : Store W} {p r : ParserId} {b : Body W} {a : Core W}

theorem Store.Maintains.refl (σ : Store W) : σ.Maintains σ :=
  ⟨Nat.le_refl _, fun _ _ h _ => h⟩

theorem Store.Maintains.trans (h : σ.Maintains τ) (h' : τ.Maintains υ) : σ.Maintains υ :=
  ⟨Nat.le_trans h.cells h'.cells, fun p c hp hc => h'.runs p c (h.runs p c hp hc) hc⟩

theorem Store.Grows.maintains (g : σ.Grows τ) : σ.Maintains τ where
  cells := by
    by_contra less
    have ⟨d, hd, _⟩ := g.parsers τ.parsers.size _
      (Array.getElem?_eq_getElem (Nat.lt_of_not_le less))
    exact absurd hd (by simp)
  runs _ _ h _ := h.later g

/-- Defining a declaration that has no definition yet changes no other definition. -/
theorem ParserId.Waits.maintains (h : r.Waits σ) (source : ParserId) :
    σ.Maintains (r.define source σ).2 where
  cells := by simp [define_parsers]
  runs _ _ runs hc := runs.define h hc source

theorem ParserId.Performs.maintained (h : p.Performs σ b) (k : σ.Maintains τ)
    (hb : b ≠ .undeclared) : p.Performs τ b :=
  k.runs p _ h (by simpa using hb)

end

end ResumableParsing
