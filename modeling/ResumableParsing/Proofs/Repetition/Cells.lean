import ResumableParsing.Proofs.Grammar.Scope
import ResumableParsing.Proofs.Repetition.Places
import ResumableParsing.Repetition.Lazy

/-!
# The parser of all results

Lazy repetition is built from the library's own combinators, and it is built once. Whatever the
repeated parser replies, the repetition replies with a cell whose tail runs it again from there,
with the end of the stream, or with the failure.

* `ParserId.Repetition`: one parser is the lazy repetition of another one
* `repetition_repeatedly`: so it is built
* `ParserId.Opens`, `ParserId.Repetition.opens`: what it replies
-/

namespace ResumableParsing

variable {W : Type} {σ τ : Store W} {p q all : ParserId}

/-! ## Building -/

/-- The parser `all` is the lazy repetition of `p`. -/
def ParserId.Repetition (σ : Store W) (p all : ParserId) : Prop :=
  ∃ cells stop : ParserId, all.Does σ (.alt cells stop) ∧
    cells.Does σ (.bind p fun v => .done (.cell v all)) ∧ stop.Does σ (.pure (.stream .nil))

theorem ParserId.Repetition.later (h : p.Repetition σ all) (g : σ.Grows τ) :
    p.Repetition τ all := by
  obtain ⟨cells, stop, hall, hcells, hstop⟩ := h
  exact ⟨cells, stop, hall.later g, hcells.later g, hstop.later g⟩

theorem getElem_define (p source : ParserId) {i : Nat} (hi : p.index ≠ i) :
    (p.define source σ).2.parsers[i]? = σ.parsers[i]? := by
  rw [define_parsers, Array.getElem?_modify, if_neg hi]

theorem ParserId.Owns.define {b : Body W} (h : q.Owns σ b) (hq : p ≠ q) (source : ParserId) :
    q.Owns (p.define source σ).2 b := by
  obtain ⟨c, hc, h⟩ := h
  refine ⟨c, ?_, h⟩
  rwa [getElem_define p source fun hi => hq (congrArg ParserId.mk hi)]

/-- A parser that is defined as another one does what the other one does. -/
theorem does_define {b b' : Body W} {source : ParserId} (hp : p.Owns σ b')
    (hs : source.Owns σ b) (hne : p ≠ source) : p.Does (p.define source σ).2 b := by
  obtain ⟨d, hd, defined⟩ := hp
  obtain ⟨c, hc, -⟩ := id hs
  have same := cell_of_some hc
  have leads := (hs.define hne source).leads (c := c)
    (by rw [getElem_define p source fun hi => hne (congrArg ParserId.mk hi), hc])
  have found : (p.define source σ).2.parsers[p.index]? =
      some { d.define σ.logging (c.code source) with name := c.name } := by
    rw [define_parsers, Array.getElem?_modify, if_pos rfl, hd, same]
    rfl
  refine ⟨_, found, ?_⟩
  rcases defined with ⟨hl, -⟩ | ⟨hl, hdirect, -⟩
  · simpa [Cell.define, Cell.code, hl] using leads
  · have code : Cell.code { d.define σ.logging (c.code source) with name := c.name } p =
        .method p := by
      simp [Cell.define, Cell.code, hl, hdirect]
    rw [code]
    refine .method found ?_ leads
    simp [Cell.define, hl]

/-- A definition changes no other parser. -/
theorem grows_define (g : σ.Grows τ) (hp : σ.parsers.size ≤ p.index) (source : ParserId) :
    σ.Grows (p.define source τ).2 := by
  refine { g with parsers := fun i c hc => ?_ }
  obtain ⟨hi, -⟩ := Array.getElem?_eq_some_iff.mp hc
  rw [getElem_define p source (by omega)]
  exact g.parsers i c hc

/-- Nor does any change of a new parser. -/
theorem Store.Unfolds.alter (h : σ.Unfolds τ) (hp : σ.parsers.size ≤ p.index)
    (f : Cell W → Cell W) : σ.Unfolds (p.alter f τ).2 := by
  refine { h with rest := ?_, parsers := fun i c hc => ?_ }
  · change ({ τ with parsers := _ } : Store W) = _
    rw [h.rest]
    rfl
  · obtain ⟨hi, -⟩ := Array.getElem?_eq_some_iff.mp hc
    change (τ.parsers.modify p.index f)[i]? = some c
    rw [Array.getElem?_modify, if_neg (by omega)]
    exact h.parsers i c hc

/-- The lazy repetition is built, and all that is known stays known. -/
theorem repetition_repeatedly (p : ParserId) (σ : Store W) :
    σ.Grows (p.repeatedly σ).2 ∧ σ.Unfolds (p.repeatedly σ).2 ∧
      p.Repetition (p.repeatedly σ).2 (p.repeatedly σ).1 := by
  -- The stores in between, one for each parser that is built.
  let all : ParserId := (Build.forward σ).1
  let σ₁ := (Build.forward σ).2
  let cells : ParserId := (Build.bind p (fun v => .done (.cell v all)) σ₁).1
  let σ₂ := (Build.bind p (fun v => .done (.cell v all)) σ₁).2
  let stop : ParserId := (Build.pure (.stream .nil) σ₂).1
  let σ₃ := (Build.pure (.stream .nil) σ₂).2
  let either : ParserId := (Build.or cells stop σ₃).1
  let σ₄ := (Build.or cells stop σ₃).2
  let σ₅ := (either.named ("[ " ++ σ₄.parserName cells ++ " ]") σ₄).2
  let σ₆ := (all.define either σ₅).2
  let σ₇ := (all.named ("\x7b " ++ σ₆.parserName p ++ " \x7d*") σ₆).2
  have built : p.repeatedly σ = (all, σ₇) := rfl
  have g₁ : σ.Grows σ₁ := Build.Grows.forward.grows σ
  have g₂ : σ₁.Grows σ₂ := (Build.Grows.bind (.name p) fun _ => .body _ _).grows σ₁
  have g₃ : σ₂.Grows σ₃ := (Build.Grows.const _).grows σ₂
  have g₄ : σ₃.Grows σ₄ := (Build.Grows.or cells stop).grows σ₃
  have g₅ : σ₄.Grows σ₅ := (Build.Grows.named either _).grows σ₄
  have g₇ : σ₆.Grows σ₇ := (Build.Grows.named all _).grows σ₆
  have o₁ : all.Owns σ₁ .undeclared := owns_body _ _ σ
  have o₂ : cells.Owns σ₂ (.bind p fun v => .done (.cell v all)) :=
    owns_body ("(" ++ σ₁.parserName p ++ " >>=)") (fun _ => .bind p _) σ₁
  have o₃ : stop.Owns σ₃ (.pure (.stream .nil)) :=
    owns_body ("(pure " ++ σ₂.render (.stream .nil) ++ ")") (fun _ => .pure (.stream .nil)) σ₂
  have o₄ : either.Owns σ₄ (.alt cells stop) :=
    owns_body (σ₃.parserName cells ++ " or " ++ σ₃.parserName stop) (fun _ => .alt cells stop) σ₃
  have ha : all.index = σ.parsers.size := rfl
  have hc : cells.index = all.index + 1 := Array.size_push _
  have hs : stop.index = cells.index + 1 := Array.size_push _
  have he : either.index = stop.index + 1 := Array.size_push _
  have ne {q : ParserId} (h : all.index < q.index) : all ≠ q := by
    rintro rfl
    exact Nat.lt_irrefl _ h
  rw [built]
  refine ⟨?_, ?_, ?_⟩
  · have g := ((g₁.trans g₂).trans (g₃.trans g₄)).trans g₅
    exact (grows_define g (Nat.le_of_eq ha.symm) either).trans g₇
  · have u₁ : σ.Unfolds σ₁ := (Store.Enlarged.push σ _).unfolds
    have u₂ : σ₁.Unfolds σ₂ := (Store.Enlarged.push σ₁ _).unfolds
    have u₃ : σ₂.Unfolds σ₃ := (Store.Enlarged.push σ₂ _).unfolds
    have u₄ : σ₃.Unfolds σ₄ := (Store.Enlarged.push σ₃ _).unfolds
    have u₅ : σ.Unfolds σ₅ := ((u₁.trans u₂).trans (u₃.trans u₄)).alter (by omega) _
    have u₆ : σ.Unfolds σ₆ := u₅.alter (Nat.le_of_eq ha.symm) _
    exact u₆.alter (Nat.le_of_eq ha.symm) _
  · refine ⟨cells, stop, ?_, ?_, ?_⟩
    · have o := o₁.later ((g₂.trans g₃).trans (g₄.trans g₅))
      exact (does_define o (o₄.later g₅) (ne (by omega))).later g₇
    · have o := (o₂.later (g₃.trans (g₄.trans g₅))).define (ne (by omega)) either
      exact o.does.later g₇
    · have o := (o₃.later (g₄.trans g₅)).define (ne (by omega)) either
      exact o.does.later g₇

/-! ## Replies -/

/-- What the repetition `all` replies in a state where the repeated parser replies as given and
leaves the store `τ`. After a success this is a cell with a tail that nobody has computed: it runs
the repetition again. -/
def ParserId.Opens (all : ParserId) (s : State Value) (σ : Store W) :
    Reply Value → Store W → Prop
  | .ok d v t, τ => ∃ n i υ,
      (all.run s).Comes σ (.ok (.reply (.ok d (.stream (.lazy n v i)) t)) υ) ∧ τ.Unfolds υ ∧
        υ.tails[i.index]? = some ⟨.parse all t, .unset⟩
  | .err true e t, τ => (all.run s).Comes σ (.ok (.reply (.err true e t)) τ)
  | .err false _ _, _ => ∃ υ, (all.run s).Comes σ (.ok (.reply (.ok false (.stream .nil) s)) υ)

section

variable {s t : State Value} {d : Bool} {v : Value} {m : Means W}

/-- The parser of a cell replies without consuming, and its tail is new. -/
theorem evaluates_cell (v : Value) (all : ParserId) (t : State Value) (σ : Store W) :
    ∃ n i τ, (∀ m, Evaluates m (.parser (Build.body "" (fun _ => .cell v all) σ).1 t)
        (Build.body "" (fun _ => .cell v all) σ).2 []
        (.reply (.ok false (.stream (.lazy n v i)) t)) τ) ∧ σ.Unfolds τ ∧
      τ.tails[i.index]? = some ⟨.parse all t, .unset⟩ := by
  obtain ⟨σ₁, noted, ends⟩ := (owns_body "" (fun _ => .cell v all) σ).does.evaluates t
  refine ⟨σ₁.nextSerial, ⟨σ₁.tails.size⟩, _, fun m => ends (.act rfl .done), ?_, ?_⟩
  · have built : σ.Unfolds (Build.body "" (fun _ => .cell v all) σ).2 :=
      (Store.Enlarged.push σ _).unfolds
    exact (built.trans noted.unfolds).trans (.push σ₁ _ _)
  · simp

/-- The parser of all cells replies as the repeated parser does, with a cell for its value. -/
theorem evaluates_cells {cells : ParserId}
    (h : cells.Does σ (.bind p fun v => .done (.cell v all))) (s : State Value) :
    ∃ σ₁, σ.Noted σ₁ ∧
      (∀ d v t τ, ∃ n i υ, τ.Unfolds υ ∧ υ.tails[i.index]? = some ⟨.parse all t, .unset⟩ ∧
        ∀ m, Evaluates m (.parser p s) σ₁ [] (.reply (.ok d v t)) τ →
          Evaluates m (.parser cells s) σ [] (.reply (.ok d (.stream (.lazy n v i)) t)) υ) ∧
      ∀ m d e t τ, Evaluates m (.parser p s) σ₁ [] (.reply (.err d e t)) τ →
        Evaluates m (.parser cells s) σ [] (.reply (.err d e t)) τ := by
  obtain ⟨σ₁, noted, ends⟩ := h.evaluates s
  refine ⟨σ₁, noted, fun d v t τ => ?_, fun m d e t τ hp => ends (.call hp .done)⟩
  obtain ⟨n, i, υ, cell, unfolds, tail⟩ := evaluates_cell v all t τ
  refine ⟨n, i, υ, unfolds, tail, fun m hp => ?_⟩
  refine ends (.call hp (.act rfl (.act rfl (.call (cell m) ?_))))
  cases d <;> exact .done

/-- Whatever the repeated parser replies, the repetition opens with it. -/
theorem ParserId.Repetition.opens (h : p.Repetition σ all) (s : State Value) :
    ∃ σ₁, σ.Noted σ₁ ∧
      ∀ r τ, (p.run s).Comes σ₁ (.ok (.reply r) τ) → all.Opens s σ r τ := by
  obtain ⟨cells, stop, hall, hcells, hstop⟩ := h
  obtain ⟨σ₁, noted, alt⟩ := hall.evaluates s
  obtain ⟨σ₂, noted', ok, err⟩ := evaluates_cells (hcells.later noted.grows) s
  refine ⟨σ₂, noted.trans noted', fun r τ hp => ?_⟩
  obtain ⟨n₀, hp⟩ := evaluates_of_comes hp
  have hp := hp n₀ (Nat.le_refl n₀)
  cases r with
  | ok d v t =>
    obtain ⟨n, i, υ, unfolds, tail, cell⟩ := ok d v t τ
    exact ⟨n, i, υ, comes_of_evaluates (alt (.call (cell _ hp) .done)), unfolds, tail⟩
  | err d e t =>
    have failed := err _ d e t τ hp
    cases d with
    | true => exact comes_of_evaluates (alt (.call failed .done))
    | false =>
      have g := noted.grows.trans ((composed_complete _).grows_of_comes (comes_of_evaluates failed))
      obtain ⟨σ₃, -, ends⟩ := (hstop.later g).evaluates s
      exact ⟨σ₃, comes_of_evaluates (alt (.call failed (.call (ends .done) .done)))⟩

end

end ResumableParsing
