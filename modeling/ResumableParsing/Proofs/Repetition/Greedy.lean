import ResumableParsing.Proofs.Direct.Arrivals

/-!
# Greedy repetition

A parser is applied again and again, each time in the state of the success before, and the
successes are counted. The loop stops at an upper bound, if there is one, and where the parser
fails without consuming; that is a failure as long as a lower bound has not been reached.

* `Tally`: what the loop comes to
* `Greedy`: the loop, with the number of successes so far, whether they have consumed, and results
* `Greedy.onto`, `Greedy.from_start`: what has been before is put in front
* `Greedy.length_le`, `Greedy.le_length`: the number of results is within the bounds
* `Greedy.split`: the loop up to a number of successes, and then the rest
* `Greedy.enter`, `Greedy.of_enter`: bookkeeping before the first application
-/

namespace ResumableParsing

variable {W : Type}

/-- What repetition comes to. -/
inductive Tally where
  /-- It succeeds with these results. -/
  | ok (consumed : Bool) (vs : List Value) (s : State Value)
  /-- It fails. -/
  | err (consumed : Bool) (e : ParseError Value) (s : State Value)
  /-- The parser succeeds without consuming, and would do so for ever. -/
  | endless
  /-- The parser breaks off. -/
  | broken (e : Stop)

/-- With successes that have been before. -/
def Tally.onto (c : Bool) (vs : List Value) : Tally → Tally
  | .ok d ws s => .ok (c || d) (vs ++ ws) s
  | .err d e s => .err (c || d) e s
  | .endless => .endless
  | .broken e => .broken e

/-- The repetition has succeeded. -/
def Tally.IsOk : Tally → Prop
  | .ok .. => True
  | _ => False

/-- How an application goes: `R n s σ y` says that after `n` successes the parser, applied in the
state `s` and the store `σ`, comes to `y`. -/
abbrev Application (W : Type) :=
  Nat → State Value → Store W → EStateM.Result Stop (Store W) (Finish W) → Prop

/-- `Greedy R low high n c vs s σ r τ`: after `n` successes with the results `vs`, where `c` tells
whether any of them has consumed, in the state `s` and the store `σ`, the loop comes to `r` and
leaves the store `τ`. At most `high` successes are wanted, if there is a limit, and at least
`low`. -/
inductive Greedy (R : Application W) (low : Nat) (high : Option Nat) :
    Nat → Bool → List Value → State Value → Store W → Tally → Store W → Prop where
  /-- There are enough. -/
  | full {n : Nat} {c : Bool} {vs : List Value} {s : State Value} {σ : Store W} :
      high = some n → Greedy R low high n c vs s σ (.ok c vs s) σ
  /-- The parser fails without consuming, and there are too few. -/
  | few {n : Nat} {c : Bool} {vs : List Value} {s t : State Value} {e : ParseError Value}
      {σ τ : Store W} :
      high ≠ some n → n < low → R n s σ (.ok (.reply (.err false e t)) τ) →
      Greedy R low high n c vs s σ (.err c e t) τ
  /-- The parser fails without consuming, and the state is the one before. -/
  | enough {n : Nat} {c : Bool} {vs : List Value} {s t : State Value} {e : ParseError Value}
      {σ τ : Store W} :
      high ≠ some n → low ≤ n → R n s σ (.ok (.reply (.err false e t)) τ) →
      Greedy R low high n c vs s σ (.ok c vs s) τ
  /-- The parser fails after consuming. -/
  | failed {n : Nat} {c : Bool} {vs : List Value} {s t : State Value} {e : ParseError Value}
      {σ τ : Store W} :
      high ≠ some n → R n s σ (.ok (.reply (.err true e t)) τ) →
      Greedy R low high n c vs s σ (.err true e t) τ
  /-- The parser succeeds without consuming, there are enough, and there is no limit. -/
  | endless {n : Nat} {c : Bool} {vs : List Value} {s t : State Value} {v : Value}
      {σ τ : Store W} :
      high = none → low ≤ n → R n s σ (.ok (.reply (.ok false v t)) τ) →
      Greedy R low high n c vs s σ .endless τ
  /-- The parser breaks off. -/
  | broken {n : Nat} {c : Bool} {vs : List Value} {s : State Value} {e : Stop} {σ τ : Store W} :
      high ≠ some n → R n s σ (.error e τ) → Greedy R low high n c vs s σ (.broken e) τ
  /-- The parser succeeds. -/
  | more {n : Nat} {c d : Bool} {vs : List Value} {s t : State Value} {v : Value}
      {σ σ₁ τ : Store W} {r : Tally} :
      high ≠ some n → (high = none → low ≤ n → d = true) →
      R n s σ (.ok (.reply (.ok d v t)) σ₁) →
      Greedy R low high (n + 1) (c || d) (vs ++ [v]) t σ₁ r τ → Greedy R low high n c vs s σ r τ

section

variable {R R' : Application W} {low : Nat} {high : Option Nat} {n : Nat} {c d : Bool}
  {vs ws : List Value} {s t : State Value} {v : Value} {e : ParseError Value} {σ σ₁ τ : Store W}
  {r : Tally}

/-! ## What has been before -/

theorem Tally.onto_onto (r : Tally) :
    (r.onto d ws).onto c vs = r.onto (c || d) (vs ++ ws) := by
  cases r <;> simp [onto, Bool.or_assoc]

theorem Tally.onto_start (r : Tally) : r.onto false [] = r := by
  cases r <;> simp [onto]

/-- Successes before are put in front. -/
theorem Greedy.onto (h : Greedy R low high n d ws s σ r τ) (c : Bool) (vs : List Value) :
    Greedy R low high n (c || d) (vs ++ ws) s σ (r.onto c vs) τ := by
  induction h with
  | full hn => exact .full hn
  | few hn less hR => exact .few hn less hR
  | enough hn le hR => exact .enough hn le hR
  | failed hn hR =>
    rw [Tally.onto, Bool.or_true]
    exact .failed hn hR
  | endless hn le hR => exact .endless hn le hR
  | broken hn hR => exact .broken hn hR
  | more hn hd hR _ ih =>
    rw [← Bool.or_assoc, ← List.append_assoc] at ih
    exact .more hn hd hR ih

/-- What the loop comes to after some successes is what it comes to from there, with these put in
front. -/
theorem Greedy.from_start (h : Greedy R low high n c vs s σ r τ) :
    ∃ r', Greedy R low high n false [] s σ r' τ ∧ r = r'.onto c vs := by
  induction h with
  | full hn => exact ⟨_, .full hn, by simp [Tally.onto]⟩
  | few hn less hR => exact ⟨_, .few hn less hR, by simp [Tally.onto]⟩
  | enough hn le hR => exact ⟨_, .enough hn le hR, by simp [Tally.onto]⟩
  | failed hn hR => exact ⟨_, .failed hn hR, by simp [Tally.onto]⟩
  | endless hn le hR => exact ⟨_, .endless hn le hR, rfl⟩
  | broken hn hR => exact ⟨_, .broken hn hR, rfl⟩
  | @more n c d vs s t v σ σ₁ τ r hn hd hR _ ih =>
    obtain ⟨r', h, rfl⟩ := ih
    have h := h.onto d [v]
    rw [Bool.or_false, List.append_nil] at h
    exact ⟨r'.onto d [v], .more hn hd hR (by simpa using h), (Tally.onto_onto r').symm⟩

/-- One success, and what the loop comes to from there. -/
theorem Greedy.step (hn : high ≠ some n) (hd : high = none → low ≤ n → d = true)
    (hR : R n s σ (.ok (.reply (.ok d v t)) σ₁))
    (h : Greedy R low high (n + 1) false [] t σ₁ r τ) :
    Greedy R low high n false [] s σ (r.onto d [v]) τ := by
  have h := h.onto d [v]
  rw [Bool.or_false, List.append_nil] at h
  exact .more hn hd hR (by simpa using h)

/-! ## Bounds -/

/-- Only the applications after the first `n` successes matter. -/
theorem Greedy.congr (hR : ∀ k ≥ n, ∀ s σ y, R k s σ y → R' k s σ y)
    (h : Greedy R low high n c vs s σ r τ) : Greedy R' low high n c vs s σ r τ := by
  induction h with
  | full hn => exact .full hn
  | few hn less h => exact .few hn less (hR _ (Nat.le_refl _) _ _ _ h)
  | enough hn le h => exact .enough hn le (hR _ (Nat.le_refl _) _ _ _ h)
  | failed hn h => exact .failed hn (hR _ (Nat.le_refl _) _ _ _ h)
  | endless hn le h => exact .endless hn le (hR _ (Nat.le_refl _) _ _ _ h)
  | broken hn h => exact .broken hn (hR _ (Nat.le_refl _) _ _ _ h)
  | more hn hd h _ ih =>
    exact .more hn hd (hR _ (Nat.le_refl _) _ _ _ h) (ih fun k hk => hR k (Nat.le_of_succ_le hk))

/-- Once there are enough successes, the loop does not fail without consuming. -/
theorem Greedy.consumed_of_err (h : Greedy R low high n c vs s σ (.err d e t) τ) (hn : low ≤ n) :
    d = true := by
  generalize hr : Tally.err d e t = r at h
  induction h with
  | few _ less _ => exact absurd hn (Nat.not_le_of_lt less)
  | failed =>
    cases hr
    rfl
  | more _ _ _ _ ih => exact ih (Nat.le_succ_of_le hn) hr
  | _ => cases hr

/-- A success has at least as many results as are wanted. -/
theorem Greedy.le_length (h : Greedy R low high n c vs s σ (.ok d ws t) τ)
    (hh : ∀ k, high = some k → low ≤ k) : low + vs.length ≤ n + ws.length := by
  generalize hr : Tally.ok d ws t = r at h
  induction h with
  | full hn =>
    cases hr
    exact Nat.add_le_add_right (hh _ hn) _
  | enough _ le _ =>
    cases hr
    exact Nat.add_le_add_right le _
  | more _ _ _ _ ih =>
    have le := ih hr
    rw [List.length_append, List.length_singleton] at le
    omega
  | _ => cases hr

/-- A success has no more results than are wanted. -/
theorem Greedy.length_le {k : Nat} (h : Greedy R low (some k) n c vs s σ (.ok d ws t) τ)
    (hn : n ≤ k) : n + ws.length ≤ k + vs.length := by
  generalize hr : Tally.ok d ws t = r at h
  induction h with
  | full _ =>
    cases hr
    exact Nat.add_le_add_right hn _
  | enough _ _ _ =>
    cases hr
    exact Nat.add_le_add_right hn _
  | @more n _ _ vs _ _ _ _ _ _ _ hk _ _ _ ih =>
    have ne : n ≠ k := fun h => hk (congrArg some h.symm)
    have le := ih (by omega) hr
    rw [List.length_append, List.length_singleton] at le
    omega
  | _ => cases hr

/-! ## One loop after another -/

/-- The loop up to `m` successes, and then the rest of it. -/
theorem Greedy.split {R₁ R₂ : Application W} (hm : ∀ k, high = some k → low ≤ k)
    (h₁ : ∀ k < low, ∀ s σ y, R k s σ y ↔ R₁ k s σ y)
    (h₂ : ∀ k ≥ low, ∀ s σ y, R k s σ y ↔ R₂ k s σ y) (hn : n ≤ low) :
    Greedy R low high n c vs s σ r τ ↔
      (∃ c' vs' t σ₁, Greedy R₁ low (some low) n c vs s σ (.ok c' vs' t) σ₁ ∧
        Greedy R₂ low high low c' vs' t σ₁ r τ) ∨
      (Greedy R₁ low (some low) n c vs s σ r τ ∧ ¬r.IsOk) := by
  have few {n : Nat} (hn : n ≤ low) (ne : some low ≠ some n) : n < low :=
    Nat.lt_of_le_of_ne hn fun same => ne (congrArg some same.symm)
  -- A limit is not below the minimum, so it is not reached before.
  have room {n : Nat} (less : n < low) : high ≠ some n := fun same => absurd (hm _ same) (by omega)
  constructor
  · intro h
    by_cases enough : n = low
    · subst enough
      exact .inl ⟨c, vs, s, σ, .full rfl, h.congr fun k hk s σ y => (h₂ k hk s σ y).mp⟩
    induction h with
    | full hk => exact absurd (hm _ hk) (by omega)
    | few _ less h => exact .inr ⟨.few (by simpa using enough ∘ Eq.symm) less
        ((h₁ _ less _ _ _).mp h), id⟩
    | enough _ le _ => omega
    | failed _ h =>
      have less := Nat.lt_of_le_of_ne hn enough
      exact .inr ⟨.failed (by simpa using enough ∘ Eq.symm) ((h₁ _ less _ _ _).mp h), id⟩
    | endless _ le _ => omega
    | broken _ h =>
      have less := Nat.lt_of_le_of_ne hn enough
      exact .inr ⟨.broken (by simpa using enough ∘ Eq.symm) ((h₁ _ less _ _ _).mp h), id⟩
    | @more n c d vs s t v σ σ₁ τ r hk hd h rest ih =>
      have less := Nat.lt_of_le_of_ne hn enough
      have first := (h₁ _ less _ _ _).mp h
      have ne : some low ≠ some n := by simpa using enough ∘ Eq.symm
      -- With this success the first loop may have enough.
      by_cases last : n + 1 = low
      · refine .inl ⟨c || d, vs ++ [v], t, σ₁, .more ne nofun first (.full (by rw [last])), ?_⟩
        rw [last] at rest
        exact rest.congr fun k hk s σ y => (h₂ k hk s σ y).mp
      · rcases ih less last with ⟨c', vs', t', σ', before, after⟩ | ⟨before, notOk⟩
        · exact .inl ⟨c', vs', t', σ', .more ne nofun first before, after⟩
        · exact .inr ⟨.more ne nofun first before, notOk⟩
  · rintro (⟨c', vs', t, σ₁, before, after⟩ | ⟨before, notOk⟩)
    · generalize hr : Tally.ok c' vs' t = r₁ at before
      induction before with
      | full hk =>
        cases hr
        cases hk
        exact after.congr fun k hk s σ y => (h₂ k hk s σ y).mpr
      | enough hk le _ => exact absurd (congrArg some (Nat.le_antisymm le hn)) hk
      | @more n _ _ _ _ _ _ _ _ _ _ hk _ h _ ih =>
        have less := few hn hk
        exact .more (room less) (by omega) ((h₁ _ less _ _ _).mpr h) (ih less after hr)
      | _ => cases hr
    · induction before with
      | full _ => exact absurd trivial notOk
      | enough _ _ _ => exact absurd trivial notOk
      | few hk less h => exact .few (room less) less ((h₁ _ less _ _ _).mpr h)
      | endless hk _ _ => cases hk
      | @failed n _ _ _ _ _ _ _ hk h =>
        have less := few hn hk
        exact .failed (room less) ((h₁ _ less _ _ _).mpr h)
      | @broken n _ _ _ _ _ _ hk h =>
        have less := few hn hk
        exact .broken (room less) ((h₁ _ less _ _ _).mpr h)
      | @more n _ _ _ _ _ _ _ _ _ _ hk _ h _ ih =>
        have less := few hn hk
        exact .more (room less) (by omega) ((h₁ _ less _ _ _).mpr h) (ih less notOk)

/-! ## Bookkeeping before the first application -/

/-- After `n` successes the parser is applied in another store. -/
def Application.entering (R : Application W) (n : Nat) (f : Store W → Store W) : Application W :=
  fun k s σ y => R k s (if k = n then f σ else σ) y

/-- The loop, entered in another store. -/
theorem Greedy.enter {f : Store W → Store W} (h : Greedy R low high n c vs s (f σ) r τ) :
    ∃ τ', Greedy (R.entering n f) low high n c vs s σ r τ' ∧ (τ = τ' ∨ τ = f τ') := by
  have at_n {y : EStateM.Result Stop (Store W) (Finish W)} (h : R n s (f σ) y) :
      R.entering n f n s σ y := by rwa [Application.entering, if_pos rfl]
  generalize hυ : f σ = υ at h
  cases h with
  | full hn => exact ⟨σ, .full hn, .inr hυ.symm⟩
  | few hn less h => exact ⟨τ, .few hn less (at_n (hυ ▸ h)), .inl rfl⟩
  | enough hn le h => exact ⟨τ, .enough hn le (at_n (hυ ▸ h)), .inl rfl⟩
  | failed hn h => exact ⟨τ, .failed hn (at_n (hυ ▸ h)), .inl rfl⟩
  | endless hn le h => exact ⟨τ, .endless hn le (at_n (hυ ▸ h)), .inl rfl⟩
  | broken hn h => exact ⟨τ, .broken hn (at_n (hυ ▸ h)), .inl rfl⟩
  | more hn hd h rest =>
    refine ⟨τ, .more hn hd (at_n (hυ ▸ h)) (rest.congr fun k hk s σ y h => ?_), .inl rfl⟩
    rwa [Application.entering, if_neg (by omega)]

theorem Greedy.of_enter {f : Store W → Store W}
    (h : Greedy (R.entering n f) low high n c vs s σ r τ) :
    ∃ τ', Greedy R low high n c vs s (f σ) r τ' ∧ (τ' = τ ∨ τ' = f τ) := by
  have at_n {y : EStateM.Result Stop (Store W) (Finish W)} (h : R.entering n f n s σ y) :
      R n s (f σ) y := by rwa [Application.entering, if_pos rfl] at h
  cases h with
  | full hn => exact ⟨f σ, .full hn, .inr rfl⟩
  | few hn less h => exact ⟨τ, .few hn less (at_n h), .inl rfl⟩
  | enough hn le h => exact ⟨τ, .enough hn le (at_n h), .inl rfl⟩
  | failed hn h => exact ⟨τ, .failed hn (at_n h), .inl rfl⟩
  | endless hn le h => exact ⟨τ, .endless hn le (at_n h), .inl rfl⟩
  | broken hn h => exact ⟨τ, .broken hn (at_n h), .inl rfl⟩
  | more hn hd h rest =>
    refine ⟨τ, .more hn hd (at_n h) (rest.congr fun k hk s σ y h => ?_), .inl rfl⟩
    rwa [Application.entering, if_neg (by omega)] at h

end

end ResumableParsing
