import ResumableParsing.Proofs.Direct.Replies
import ResumableParsing.Proofs.Logging.Programs

/-!
# Stores that differ in logging

Where logging has been on while parsers were built, their definitions are behind the logging method,
and what has been taken over from them is this method. Where it has been off the definitions are run
functions of their own, and have been taken over as such. Apart from this and from the log, two
stores are the same.

* `Store.Truthful`: nothing in the store claims that a definition is missing
* `Logging.Codes`: run functions that do the same after a look at the definitions
* `Logging.Stores`: stores that differ in where definitions are kept, and in the log
* `Logging.Stores.change`: changes that take no notice of this
-/

namespace ResumableParsing

variable {W α : Type}

/-! ## What is kept in a store -/

/-- The functions of the caller in a run function claim no definition to be missing, and their
grammars are orderly. What has been taken over from another parser is looked at elsewhere. -/
def Body.Truthful (M : Prop) (K : ParserId → Prop) : Body W → Prop
  | .some _ accepts => ∀ v, (accepts v).Truthful M
  | .undeclared => M
  | .map _ f => ∀ v, (f v).Truthful M
  | .bind _ f => (∀ v, (f v).Truthful M) ∧ ∀ v, (f v).Yields (Grammar.Orderly M K K)
  | .ignore _ => False
  | .native run => ∀ s, (run s).Truthful M
  | .after _ run => ∀ s r, (run s r).Truthful M
  | _ => True

/-- So do the functions in what is left to do. -/
def Frame.Truthful (M : Prop) (K : ParserId → Prop) : Frame W → Prop
  | .map f => ∀ v, (f v).Truthful M
  | .bind f => (∀ v, (f v).Truthful M) ∧ ∀ v, (f v).Yields (Grammar.Orderly M K K)
  | .after _ run => ∀ s r, (run s r).Truthful M
  | _ => True

/-- So do the answers of an iterator. -/
def Iterator.Truthful (M : Prop) : Iterator W → Prop
  | .caller answer _ => ∀ n w, (answer n w).1.Truthful M
  | _ => True

/-- So does what computes a tail. -/
def Tail.Truthful (M : Prop) : Tail W → Prop
  | .action a => a.Truthful M
  | _ => True

/-- So does what is done with the end of a parse. -/
def Handlers.Truthful (M : Prop) (h : Handlers W) : Prop := ∀ r, (h.call r).Truthful M

/-- So does a parse that waits. -/
def Stage.Truthful (M : Prop) (K : ParserId → Prop) : Stage W → Prop
  | .waiting r => ∀ f ∈ r.continuation, f.Truthful M K
  | _ => True

/-- So does a session. -/
structure Session.Truthful (M : Prop) (K : ParserId → Prop) (s : Session W) : Prop where
  /-- Its handlers. -/
  handlers : s.handlers.Truthful M
  /-- Its parse. -/
  stage : s.stage.Truthful M K

/-- Nothing that is kept in the store besides parsers claims a definition to be missing. -/
structure Store.Truthful (M : Prop) (K : ParserId → Prop) (σ : Store W) : Prop where
  /-- Iterators. -/
  iterators : ∀ (i : Nat) (it : Iterator W), σ.iterators[i]? = some it → it.Truthful M
  /-- Tails. -/
  tails : ∀ (i : Nat) (m : Memo (Tail W) (Option (Stream Value))),
    σ.tails[i]? = some m → m.thunk.Truthful M
  /-- Results. -/
  results : ∀ (i : Nat) (m : Memo (Action W Value) Value),
    σ.results[i]? = some m → m.thunk.Truthful M
  /-- Sessions. -/
  sessions : ∀ (i : Nat) (s : Session W), σ.sessions[i]? = some s → s.Truthful M K

section

variable {M : Prop} {K K' : ParserId → Prop}

theorem Body.Truthful.mono (hK : ∀ p, K p → K' p) {b : Body W} (h : b.Truthful M K) :
    b.Truthful M K' := by
  cases b with
  | bind p f => exact ⟨h.1, fun v m σ g σ' run => (h.2 v m σ g σ' run).mono hK hK⟩
  | _ => exact h

theorem Frame.Truthful.mono (hK : ∀ p, K p → K' p) {f : Frame W} (h : f.Truthful M K) :
    f.Truthful M K' := by
  cases f with
  | bind f => exact ⟨h.1, fun v m σ g σ' run => (h.2 v m σ g σ' run).mono hK hK⟩
  | _ => exact h

theorem Stage.Truthful.mono (hK : ∀ p, K p → K' p) {s : Stage W} (h : s.Truthful M K) :
    s.Truthful M K' := by
  cases s with
  | waiting r => exact fun f hf => (h f hf).mono hK
  | _ => trivial

theorem Store.Truthful.mono (hK : ∀ p, K p → K' p) {σ : Store W} (h : σ.Truthful M K) :
    σ.Truthful M K' where
  iterators := h.iterators
  tails := h.tails
  results := h.results
  sessions i s hs := ⟨(h.sessions i s hs).handlers, (h.sessions i s hs).stage.mono hK⟩

theorem Iterator.Truthful.moved {it : Iterator W} (h : it.Truthful M) : it.moved.Truthful M := by
  cases it with
  | caller answer asked => exact h
  | _ => trivial

theorem Iterator.Truthful.onward {it : Iterator W} (h : it.Truthful M) (s : Stream Value) :
    (it.onward s).Truthful M := by
  cases it with
  | caller answer asked => exact h
  | _ => trivial

/-! ### Arrays of which each element has a property -/

theorem each_push {P : α → Prop} {a : Array α} {x : α}
    (h : ∀ (i : Nat) (y : α), a[i]? = some y → P y) (hx : P x) (i : Nat) (y : α)
    (hy : (a.push x)[i]? = some y) : P y := by
  rw [Array.getElem?_push] at hy
  split at hy
  · cases hy
    exact hx
  · exact h i y hy

theorem each_modify {P : α → Prop} {a : Array α} {f : α → α}
    (h : ∀ (i : Nat) (y : α), a[i]? = some y → P y) (hf : ∀ y, P y → P (f y)) (j i : Nat) (y : α)
    (hy : (a.modify j f)[i]? = some y) : P y := by
  rw [Array.getElem?_modify] at hy
  split at hy
  · obtain ⟨z, hz, rfl⟩ := Option.map_eq_some_iff.mp hy
    exact hf z (h i z hz)
  · exact h i y hy

end

/-! ## Run functions -/

/-- Where there is no run function, the logging method is taken over. -/
theorem Cell.code_of_bare {c : Cell W} (h : c.direct = none) (p : ParserId) :
    c.code p = .method p := by
  simp [code, h]

/-- What is taken over from a parser is its definition, or the logging method in front of it. -/
theorem Cell.code_of_inForce {c : Cell W} {x : Code W} (h : c.inForce = some x) (p : ParserId) :
    c.code p = x ∨ c.logged = some x ∧ c.code p = .method p := by
  unfold inForce at h
  cases direct : c.direct with
  | some y =>
    rw [direct, Option.some_or] at h
    exact .inl (by simpa [code, direct] using h)
  | none =>
    rw [direct, Option.none_or] at h
    exact .inr ⟨h, code_of_bare direct p⟩

namespace Logging

/-- The run functions do the same, on the left with the parsers `a` and on the right with the
parsers `b`. A logging method stands for the definition behind it, unless the parser may still be
defined again. -/
inductive Codes (M : Prop) (K F : ParserId → Prop) (a b : Array (Cell W)) :
    Code W → Code W → Prop where
  | body {x : Body W} : x.Truthful M K → Codes M K F a b (.body x) (.body x)
  | ignore {c d : Code W} : Codes M K F a b c d →
      Codes M K F a b (.body (.ignore c)) (.body (.ignore d))
  /-- The left side looks the definition up. -/
  | left {p : ParserId} {e : Cell W} {c d : Code W} : ¬F p → a[p.index]? = some e →
      e.logged = some c → Codes M K F a b c d → Codes M K F a b (.method p) d
  /-- The right side does. -/
  | right {p : ParserId} {e : Cell W} {c d : Code W} : ¬F p → b[p.index]? = some e →
      e.logged = some d → Codes M K F a b c d → Codes M K F a b c (.method p)
  /-- Both sides look for a definition that is missing. -/
  | undefined {p : ParserId} {e e' : Cell W} : M → ¬F p → a[p.index]? = some e →
      b[p.index]? = some e' → e.logged = none → e'.logged = none →
      Codes M K F a b (.method p) (.method p)

/-- The definitions of a parser do the same, unless it is to be defined again. -/
inductive Definitions (M : Prop) (K F : ParserId → Prop) (a b : Array (Cell W)) (p : ParserId) :
    Option (Code W) → Option (Code W) → Prop where
  | none : M → Definitions M K F a b p none none
  | some {c d : Code W} : Codes M K F a b c d → Definitions M K F a b p (some c) (some d)
  | opened {x y : Option (Code W)} : F p → Definitions M K F a b p x y

/-- The cells of a parser differ at most in where its definition is kept. -/
structure Cells (M : Prop) (K F : ParserId → Prop) (a b : Array (Cell W)) (p : ParserId)
    (c d : Cell W) : Prop where
  /-- It has the same name. -/
  name : c.name = d.name
  /-- Its result is left out or not. -/
  ignored : c.ignored = d.ignored
  /-- It does the same. -/
  inForce : Definitions M K F a b p c.inForce d.inForce

/-- A definition of the parser that is made now is the one that it goes by. -/
def Definable (σ : Store W) (p : ParserId) : Prop :=
  ∀ c, σ.parsers[p.index]? = some c → σ.logging = true → c.direct = none

/-- The stores differ in the log and in where definitions are kept. The parsers `K` are known, and
`F` are still to be defined. -/
structure Stores (M : Prop) (K F : ParserId → Prop) (σ τ : Store W) : Prop where
  /-- Everything else is the same. -/
  rest : τ = { σ with logging := τ.logging, log := τ.log, parsers := τ.parsers }
  /-- There are as many parsers. -/
  size : τ.parsers.size = σ.parsers.size
  /-- They do the same. -/
  cells : ∀ (p : ParserId) (c d : Cell W), σ.parsers[p.index]? = some c →
    τ.parsers[p.index]? = some d → Cells M K F σ.parsers τ.parsers p c d
  /-- Known parsers are there. -/
  known : ∀ p, K p → p.index < σ.parsers.size
  /-- So are those that are to be defined. -/
  declared : ∀ p, F p → p.index < σ.parsers.size
  /-- They can be defined. -/
  definable : ∀ p, F p → Definable σ p ∧ Definable τ p
  /-- Nothing claims that a definition is missing. -/
  truthful : σ.Truthful M K

/-! ## Larger sets of parsers -/

/-- Definitions behind logging methods are kept, and no further parser is to be defined again. -/
def Kept (F F' : ParserId → Prop) (a a' : Array (Cell W)) : Prop :=
  ∀ (p : ParserId) (e : Cell W), ¬F p → a[p.index]? = some e →
    ¬F' p ∧ ∃ e' : Cell W, a'[p.index]? = some e' ∧ e'.logged = e.logged

section

variable {M : Prop} {K K' F F' : ParserId → Prop} {a a' b b' : Array (Cell W)} {c d : Code W}
  {σ τ : Store W} {p : ParserId}

theorem Kept.refl (F : ParserId → Prop) (a : Array (Cell W)) : Kept F F a a :=
  fun _ e open_ he => ⟨open_, e, he, rfl⟩

theorem Codes.mono (hK : ∀ p, K p → K' p) (ha : Kept F F' a a') (hb : Kept F F' b b')
    (h : Codes M K F a b c d) : Codes M K' F' a' b' c d := by
  induction h with
  | body h => exact .body (h.mono hK)
  | ignore _ ih => exact .ignore ih
  | left settled found logged _ ih =>
    obtain ⟨settled', e', found', logged'⟩ := ha _ _ settled found
    exact .left settled' found' (logged'.trans logged) ih
  | right settled found logged _ ih =>
    obtain ⟨settled', e', found', logged'⟩ := hb _ _ settled found
    exact .right settled' found' (logged'.trans logged) ih
  | undefined hM settled found found' none none' =>
    obtain ⟨settled', e, there, same⟩ := ha _ _ settled found
    obtain ⟨-, e', there', same'⟩ := hb _ _ settled found'
    exact .undefined hM settled' there there' (same.trans none) (same'.trans none')

theorem Definitions.mono {x y : Option (Code W)} (hK : ∀ p, K p → K' p) (ha : Kept F F' a a')
    (hb : Kept F F' b b') (hF : F p → F' p) (h : Definitions M K F a b p x y) :
    Definitions M K' F' a' b' p x y := by
  cases h with
  | none h => exact .none h
  | some h => exact .some (h.mono hK ha hb)
  | opened h => exact .opened (hF h)

theorem Cells.mono {c d : Cell W} (hK : ∀ p, K p → K' p) (ha : Kept F F' a a')
    (hb : Kept F F' b b') (hF : F p → F' p) (h : Cells M K F a b p c d) :
    Cells M K' F' a' b' p c d :=
  ⟨h.name, h.ignored, h.inForce.mono hK ha hb hF⟩

/-- More parsers are known. -/
theorem Stores.knowing (h : Stores M K F σ τ) (hK : ∀ p, K p → K' p)
    (known : ∀ p, K' p → p.index < σ.parsers.size) : Stores M K' F σ τ where
  rest := h.rest
  size := h.size
  cells p c d hc hd := (h.cells p c d hc hd).mono hK (.refl F _) (.refl F _) id
  known := known
  declared := h.declared
  definable := h.definable
  truthful := h.truthful.mono hK

/-! ## Parsers -/

/-- The parser is there on both sides. -/
theorem Stores.parser (h : Stores M K F σ τ) (hp : p.index < σ.parsers.size) :
    ∃ c d, σ.parsers[p.index]? = some c ∧ τ.parsers[p.index]? = some d ∧
      Cells M K F σ.parsers τ.parsers p c d := by
  have hp' : p.index < τ.parsers.size := h.size ▸ hp
  have hc := Array.getElem?_eq_getElem hp
  have hd := Array.getElem?_eq_getElem hp'
  exact ⟨_, _, hc, hd, h.cells p _ _ hc hd⟩

/-- Otherwise it is missing on both sides. -/
theorem Stores.dangling (h : Stores M K F σ τ) (hp : σ.parsers[p.index]? = none) :
    τ.parsers[p.index]? = none := by
  rw [Array.getElem?_eq_none_iff] at hp ⊢
  exact h.size ▸ hp

/-- What is taken over from a parser does the same on both sides, unless the parser is to be defined
again. -/
theorem Cells.code {c d : Cell W} (h : Cells M K F a b p c d) (settled : ¬F p)
    (hc : a[p.index]? = some c) (hd : b[p.index]? = some d) :
    Codes M K F a b (c.code p) (d.code p) := by
  have inForce := h.inForce
  generalize hx : c.inForce = x at inForce
  generalize hy : d.inForce = y at inForce
  cases inForce with
  | opened open_ => exact absurd open_ settled
  | none hM =>
    obtain ⟨direct, logged⟩ := Option.or_eq_none_iff.mp hx
    obtain ⟨direct', logged'⟩ := Option.or_eq_none_iff.mp hy
    rw [Cell.code_of_bare direct, Cell.code_of_bare direct']
    exact .undefined hM settled hc hd logged logged'
  | @some x y codes =>
    -- What is no run function of its own is behind the logging method.
    have left : Codes M K F a b (c.code p) y := by
      rcases Cell.code_of_inForce hx p with same | ⟨logged, same⟩
      · exact same ▸ codes
      · exact same ▸ .left settled hc logged codes
    rcases Cell.code_of_inForce hy p with same | ⟨logged, same⟩
    · exact same ▸ left
    · exact same ▸ .right settled hd logged left

theorem Stores.parserName (h : Stores M K F σ τ) : τ.parserName = σ.parserName := by
  funext p
  cases hc : σ.parsers[p.index]? with
  | none => simp [Store.parserName, hc, h.dangling hc]
  | some c =>
    obtain ⟨c', d, hc', hd, same⟩ := h.parser (Array.getElem?_eq_some_iff.mp hc).1
    obtain rfl : c = c' := Option.some.inj (hc.symm.trans hc')
    simp [Store.parserName, hc, hd, same.name]

/-! ### Both sides -/

theorem Codes.symm (h : Codes M K F a b c d) : Codes M K F b a d c := by
  induction h with
  | body h => exact .body h
  | ignore _ ih => exact .ignore ih
  | left settled found logged _ ih => exact .right settled found logged ih
  | right settled found logged _ ih => exact .left settled found logged ih
  | undefined hM settled found found' none none' =>
    exact .undefined hM settled found' found none' none

theorem Definitions.symm {x y : Option (Code W)} (h : Definitions M K F a b p x y) :
    Definitions M K F b a p y x := by
  cases h with
  | none h => exact .none h
  | some h => exact .some h.symm
  | opened h => exact .opened h

theorem Stores.symm (h : Stores M K F σ τ) : Stores M K F τ σ where
  rest := by rw [h.rest]
  size := h.size.symm
  cells p c d hc hd :=
    have same := h.cells p d c hd hc
    ⟨same.name.symm, same.ignored.symm, same.inForce.symm⟩
  known p hp := h.size ▸ h.known p hp
  declared p hp := h.size ▸ h.declared p hp
  definable p hp := (h.definable p hp).symm
  truthful := by
    rw [h.rest]
    exact { h.truthful with }

/-! ## Texts -/

theorem Stores.names (h : Stores M K F σ τ) : τ.names = σ.names :=
  Store.names_congr (by rw [h.rest]) h.parserName

/-- Values have the same text. -/
theorem Stores.render (h : Stores M K F σ τ) (v : Value) : τ.render v = σ.render v := by
  rw [Store.render, Store.render, h.names]

/-- Deferred results are known or not, and have the same text. -/
theorem Stores.peek (h : Stores M K F σ τ) (r : ResultId) : r.peek τ = r.peek σ := by
  have results : τ.results = σ.results := by rw [h.rest]
  unfold ResultId.peek
  rw [results, funext h.render]

/-! ## Changes -/

/-- The change takes no notice of parsers and of logging, and leaves both alone. -/
def Impartial (f : Store W → α × Store W) : Prop := ∀ σ logging log parsers,
  f { σ with logging := logging, log := log, parsers := parsers } =
    ((f σ).1, { (f σ).2 with logging := logging, log := log, parsers := parsers })

theorem Impartial.parsers {f : Store W → α × Store W} (hf : Impartial f) (σ : Store W) :
    (f σ).2.parsers = σ.parsers :=
  congrArg (fun x : α × Store W => x.2.parsers) (hf σ σ.logging σ.log σ.parsers)

theorem Impartial.logging {f : Store W → α × Store W} (hf : Impartial f) (σ : Store W) :
    (f σ).2.logging = σ.logging :=
  congrArg (fun x : α × Store W => x.2.logging) (hf σ σ.logging σ.log σ.parsers)

/-- A change that takes no notice of parsers and of logging is the same on both sides. -/
theorem Stores.change {f : Store W → α × Store W} (hf : Impartial f) (h : Stores M K F σ τ)
    (truthful : (f σ).2.Truthful M K) :
    (f τ).1 = (f σ).1 ∧ Stores M K F (f σ).2 (f τ).2 := by
  have same := hf σ τ.logging τ.log τ.parsers
  rw [← h.rest] at same
  refine ⟨by rw [same], ?_⟩
  exact {
    rest := by rw [same]
    size := by rw [hf.parsers, hf.parsers, h.size]
    cells := by rw [hf.parsers, hf.parsers]; exact h.cells
    known := by rw [hf.parsers]; exact h.known
    declared := by rw [hf.parsers]; exact h.declared
    definable := by simpa only [Definable, hf.parsers, hf.logging] using h.definable
    truthful := truthful }

/-- Messages may be logged on the left. -/
theorem Stores.notedLeft {σ' : Store W} (h : Stores M K F σ τ) (noted : σ.Noted σ') :
    Stores M K F σ' τ := by
  obtain ⟨log, rfl⟩ := noted
  exact { h with rest := h.rest, truthful := { h.truthful with } }

/-- They may be logged on the right. -/
theorem Stores.notedRight {τ' : Store W} (h : Stores M K F σ τ) (noted : τ.Noted τ') :
    Stores M K F σ τ' := by
  obtain ⟨log, rfl⟩ := noted
  refine { h with rest := ?_ }
  rw [h.rest]

end

end Logging

end ResumableParsing
