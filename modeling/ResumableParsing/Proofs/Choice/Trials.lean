import ResumableParsing.Proofs.Direct.Combinators
import ResumableParsing.Proofs.Backtracking.Building

/-!
# Three alternatives

Three parsers are tried one after the other in one state, until one of them does not fail without
consuming. A choice of three parsers does that however it is grouped; the groupings differ in what
is written into the log and in when serial numbers are drawn, and in how three failures are
combined.

* `Trial`, `Refused`: three parsers, tried one after the other
* `ParseError.leftGrouped`, `ParseError.rightGrouped`: how three failures are combined
* `ParseError.expected_grouped`, `ParseError.Straying`: when both ways expect the same
* `Trial.left`, `Trial.right`: both groupings of a choice are trials
-/

namespace ResumableParsing

variable {W : Type}

/-! ## Combined failures -/

namespace ParseError

variable {α : Type}

theorem reason_merge (e f : ParseError α) (n : Nat) : (e.merge n f).reason = f.reason := by
  rw [merge]
  split <;> rfl

theorem state_merge (e f : ParseError α) (n : Nat) : (e.merge n f).state = f.state := by
  rw [merge]
  split <;> rfl

/-- What the first failure expected is kept if it is at the position of the second one. -/
theorem expected_merge (e f : ParseError α) (n : Nat) : (e.merge n f).expected =
    (if e.state.position = f.state.position then e.expected else []) ++ f.expected := by
  rw [merge]
  by_cases h : e.state.position = f.state.position
  · rw [if_neg (not_not.mpr h), if_pos h]
  · rw [if_pos h, if_neg h, List.nil_append]

/-- The first two of three failures are combined, and then the third one. -/
def leftGrouped (m n : Nat) (e₁ e₂ e₃ : ParseError α) : ParseError α := (e₁.merge m e₂).merge n e₃

/-- The last two of three failures are combined, and then the first one with both. -/
def rightGrouped (n : Nat) (e₁ e₂ e₃ : ParseError α) : ParseError α :=
  e₁.merge (n + 1) (e₂.merge n e₃)

variable (m n : Nat) (e₁ e₂ e₃ : ParseError α)

theorem reason_leftGrouped : (leftGrouped m n e₁ e₂ e₃).reason = e₃.reason := reason_merge _ _ _

theorem state_leftGrouped : (leftGrouped m n e₁ e₂ e₃).state = e₃.state := state_merge _ _ _

theorem reason_rightGrouped : (rightGrouped n e₁ e₂ e₃).reason = e₃.reason := by
  rw [rightGrouped, reason_merge, reason_merge]

theorem state_rightGrouped : (rightGrouped n e₁ e₂ e₃).state = e₃.state := by
  rw [rightGrouped, state_merge, state_merge]

/-- The second failure lies elsewhere than the other two, which lie at one position. -/
def Straying : Prop :=
  e₁.state.position = e₃.state.position ∧ e₂.state.position ≠ e₃.state.position

theorem expected_leftGrouped : (leftGrouped m n e₁ e₂ e₃).expected =
    (if e₂.state.position = e₃.state.position then
      (if e₁.state.position = e₂.state.position then e₁.expected else []) ++ e₂.expected
      else []) ++ e₃.expected := by
  rw [leftGrouped, expected_merge, expected_merge, state_merge]

theorem expected_rightGrouped : (rightGrouped n e₁ e₂ e₃).expected =
    (if e₁.state.position = e₃.state.position then e₁.expected else []) ++
      ((if e₂.state.position = e₃.state.position then e₂.expected else []) ++ e₃.expected) := by
  rw [rightGrouped, expected_merge, expected_merge, state_merge]

variable {e₁ e₂ e₃}

/-- Unless the second failure strays, both groupings expect the same. -/
theorem expected_grouped (k : Nat) (h : ¬Straying e₁ e₂ e₃) :
    (leftGrouped m n e₁ e₂ e₃).expected = (rightGrouped k e₁ e₂ e₃).expected := by
  rw [expected_leftGrouped, expected_rightGrouped]
  by_cases h₂ : e₂.state.position = e₃.state.position
  · rw [if_pos h₂, if_pos h₂, h₂, List.append_assoc]
  · have h₁ : e₁.state.position ≠ e₃.state.position := fun h₁ => h ⟨h₁, h₂⟩
    rw [if_neg h₂, if_neg h₂, if_neg h₁, List.nil_append, List.nil_append]

/-- If the second failure strays, the grouping to the left forgets what the first one expected. -/
theorem Straying.left (h : Straying e₁ e₂ e₃) :
    (leftGrouped m n e₁ e₂ e₃).expected = e₃.expected := by
  rw [expected_leftGrouped, if_neg h.2, List.nil_append]

/-- The grouping to the right does not. -/
theorem Straying.right (h : Straying e₁ e₂ e₃) :
    (rightGrouped n e₁ e₂ e₃).expected = e₁.expected ++ e₃.expected := by
  rw [expected_rightGrouped, if_pos h.1, if_neg h.2, List.nil_append]

end ParseError

/-! ## Trials -/

/-- What three parsers arrive at that are tried one after the other in the state `s`. The functions
`before` say what is done to the store before each of them, and after the last one. If all of them
fail without consuming, the failures are combined by `join`, with serial numbers from the stores
behind the second and the third one. -/
inductive Trial (chunks : Int → Stream Value) (p q r : ParserId)
    (before : Nat → Store W → Store W)
    (join : Nat → Nat → ParseError Value → ParseError Value → ParseError Value → ParseError Value)
    (s : State Value) (σ : Store W) : EStateM.Result Stop (Store W) (Finish W) → Prop where
  /-- The first one does not fail without consuming. -/
  | first {y : EStateM.Result Stop (Store W) (Finish W)} :
      p.Arrives chunks s (before 0 σ) y → (∀ e t τ, y ≠ .ok (.reply (.err false e t)) τ) →
      Trial chunks p q r before join s σ y
  /-- The second one does not fail without consuming. -/
  | second {y : EStateM.Result Stop (Store W) (Finish W)} {e₁ : ParseError Value}
      {t₁ : State Value} {σ₁ : Store W} :
      p.Arrives chunks s (before 0 σ) (.ok (.reply (.err false e₁ t₁)) σ₁) →
      q.Arrives chunks s (before 1 σ₁) y → (∀ e t τ, y ≠ .ok (.reply (.err false e t)) τ) →
      Trial chunks p q r before join s σ y
  /-- The third one does not fail without consuming. -/
  | third {y : EStateM.Result Stop (Store W) (Finish W)} {e₁ e₂ : ParseError Value}
      {t₁ t₂ : State Value} {σ₁ σ₂ : Store W} :
      p.Arrives chunks s (before 0 σ) (.ok (.reply (.err false e₁ t₁)) σ₁) →
      q.Arrives chunks s (before 1 σ₁) (.ok (.reply (.err false e₂ t₂)) σ₂) →
      r.Arrives chunks s (before 2 σ₂) y → (∀ e t τ, y ≠ .ok (.reply (.err false e t)) τ) →
      Trial chunks p q r before join s σ y
  /-- All three fail without consuming. -/
  | none {e₁ e₂ e₃ : ParseError Value} {t₁ t₂ t₃ : State Value} {σ₁ σ₂ σ₃ : Store W} :
      p.Arrives chunks s (before 0 σ) (.ok (.reply (.err false e₁ t₁)) σ₁) →
      q.Arrives chunks s (before 1 σ₁) (.ok (.reply (.err false e₂ t₂)) σ₂) →
      r.Arrives chunks s (before 2 σ₂) (.ok (.reply (.err false e₃ t₃)) σ₃) →
      Trial chunks p q r before join s σ
        (.ok (.reply (.err false (join σ₂.nextSerial σ₃.nextSerial e₁ e₂ e₃) t₃)) (before 3 σ₃))

/-- All three fail without consuming, one after the other, with these errors. -/
def Refused (chunks : Int → Stream Value) (p q r : ParserId) (before : Nat → Store W → Store W)
    (s : State Value) (σ : Store W) (e₁ e₂ e₃ : ParseError Value) : Prop :=
  ∃ t₁ t₂ t₃ σ₁ σ₂ σ₃, p.Arrives chunks s (before 0 σ) (.ok (.reply (.err false e₁ t₁)) σ₁) ∧
    q.Arrives chunks s (before 1 σ₁) (.ok (.reply (.err false e₂ t₂)) σ₂) ∧
    r.Arrives chunks s (before 2 σ₂) (.ok (.reply (.err false e₃ t₃)) σ₃)

/-- What is done to the store where the choice `a` is grouped to the left: both attempts are logged
at once, and the first two failures are combined before the third parser is tried. -/
def ParserId.beforeLeft (a inner : ParserId) : Nat → Store W → Store W
  | 0 => fun σ => inner.tried (a.tried σ)
  | 1 => id
  | _ => Store.drawn 1

/-- What is done to the store where the choice `a` is grouped to the right: the inner attempt is
logged before the second parser is tried, and the failures are combined at the end. -/
def ParserId.beforeRight (a inner : ParserId) : Nat → Store W → Store W
  | 0 => a.tried
  | 1 => inner.tried
  | 2 => id
  | _ => Store.drawn 2

theorem ParserId.clerical_beforeLeft (a inner : ParserId) (n : Nat) (σ : Store W) :
    σ.Clerical (a.beforeLeft inner n σ) := by
  match n with
  | 0 => exact (a.clerical_tried σ).trans (inner.clerical_tried _)
  | 1 => exact .refl σ
  | n + 2 => exact .drawn 1 σ

theorem ParserId.clerical_beforeRight (a inner : ParserId) (n : Nat) (σ : Store W) :
    σ.Clerical (a.beforeRight inner n σ) := by
  match n with
  | 0 => exact a.clerical_tried σ
  | 1 => exact inner.clerical_tried σ
  | 2 => exact .refl σ
  | n + 3 => exact .drawn 2 σ

section

variable {chunks : Int → Stream Value} {p q r a inner : ParserId} {s : State Value} {σ : Store W}
  {y : EStateM.Result Stop (Store W) (Finish W)}

/-- Definitions stay while a parser runs, and what has been written into the log does not matter. -/
theorem ParserId.Performs.tried {b : Body W} (h : p.Performs σ b) (q : ParserId) :
    p.Performs (q.tried σ) b := h.later (q.clerical_tried σ).grows

theorem Trial.left (ha : a.Performs σ (.alt inner r)) (hi : inner.Performs σ (.alt p q)) :
    a.Arrives chunks s σ y ↔
      Trial chunks p q r (a.beforeLeft inner) ParseError.leftGrouped s σ y := by
  rw [arrives_alt ha]
  have nested {z : EStateM.Result Stop (Store W) (Finish W)} :
      inner.Arrives chunks s (a.tried σ) z ↔
        AltArrives chunks p q s (inner.tried (a.tried σ)) z := arrives_alt (hi.tried a)
  constructor
  · intro h
    cases h with
    | first hin ne =>
      cases nested.mp hin with
      | first hp ne => exact .first hp ne
      | second hp hq ne => exact .second hp hq ne
      | neither hp hq => exact absurd rfl (ne _ _ _)
    | second hin hr ne =>
      -- The nested choice has failed without consuming, so both of its parts have.
      generalize hz : EStateM.Result.ok _ _ = z at hin
      cases nested.mp hin with
      | first hp ne => exact absurd hz.symm (ne _ _ _)
      | second hp hq ne => exact absurd hz.symm (ne _ _ _)
      | neither hp hq =>
        cases hz
        exact .third hp hq hr ne
    | neither hin hr =>
      generalize hz : EStateM.Result.ok _ _ = z at hin
      cases nested.mp hin with
      | first hp ne => exact absurd hz.symm (ne _ _ _)
      | second hp hq ne => exact absurd hz.symm (ne _ _ _)
      | neither hp hq =>
        cases hz
        exact .none hp hq hr
  · intro h
    cases h with
    | first hp ne => exact .first (nested.mpr (.first hp ne)) ne
    | second hp hq ne => exact .first (nested.mpr (.second hp hq ne)) ne
    | third hp hq hr ne => exact .second (nested.mpr (.neither hp hq)) hr ne
    | none hp hq hr => exact .neither (nested.mpr (.neither hp hq)) hr

theorem Trial.right (ha : a.Performs σ (.alt p inner)) (hi : inner.Performs σ (.alt q r)) :
    a.Arrives chunks s σ y ↔
      Trial chunks p q r (a.beforeRight inner) (fun _ => ParseError.rightGrouped) s σ y := by
  rw [arrives_alt ha]
  have nested {σ₁ : Store W} {e₁ : ParseError Value} {t₁ : State Value}
      {z : EStateM.Result Stop (Store W) (Finish W)}
      (hp : p.Arrives chunks s (a.tried σ) (.ok (.reply (.err false e₁ t₁)) σ₁)) :
      inner.Arrives chunks s σ₁ z ↔ AltArrives chunks q r s (inner.tried σ₁) z :=
    arrives_alt ((hi.tried a).later hp.grows)
  constructor
  · intro h
    cases h with
    | first hp ne => exact .first hp ne
    | second hp hin ne =>
      cases (nested hp).mp hin with
      | first hq ne => exact .second hp hq ne
      | second hq hr ne => exact .third hp hq hr ne
      | neither hq hr => exact absurd rfl (ne _ _ _)
    | neither hp hin =>
      generalize hz : EStateM.Result.ok _ _ = z at hin
      cases (nested hp).mp hin with
      | first hq ne => exact absurd hz.symm (ne _ _ _)
      | second hq hr ne => exact absurd hz.symm (ne _ _ _)
      | neither hq hr =>
        cases hz
        exact .none hp hq hr
  · intro h
    cases h with
    | first hp ne => exact .first hp ne
    | second hp hq ne => exact .second hp ((nested hp).mpr (.first hq ne)) ne
    | third hp hq hr ne => exact .second hp ((nested hp).mpr (.second hq hr ne)) ne
    | none hp hq hr => exact .neither hp ((nested hp).mpr (.neither hq hr))

end

end ResumableParsing
