import Mathlib.Data.List.Induction
import Mathlib.Data.List.Nodup
import ResumableParsing.Proofs.Json.Language

/-!
# The values of numbers and objects

The functions that the parsers apply to what they have read compute the values of the reference
grammar.

* `Json.exactNumber_points`: integers are exact, and other numbers are converted
* `Json.object_members`: a repeated key keeps its first place and takes its last value
-/

namespace ResumableParsing.Json

/-! ## Numbers -/

theorem digitValue_of_isDigit {p : CodePoint} (h : IsDigit p) :
    Text.digitValue? p = some (p - 48) := if_pos h

theorem isSome_digitValue {p : CodePoint} : (Text.digitValue? p).isSome = true ↔ IsDigit p := by
  rw [Text.digitValue?]
  split
  · next h => exact iff_of_true rfl h
  · next h => exact iff_of_false Bool.false_ne_true h

theorem isNumeral_iff (ps : List CodePoint) : (Text.mk ps).isNumeral = true ↔ Digits ps := by
  simp only [Text.isNumeral, Bool.and_eq_true, Bool.not_eq_true', List.isEmpty_eq_false_iff,
    List.all_eq_true, isSome_digitValue]
  exact Iff.rfl

theorem numeralValue_digits {ds : List CodePoint} (h : ∀ p ∈ ds, IsDigit p) :
    (Text.mk ds).numeralValue = decimal ds := by
  refine List.foldl_ext _ _ _ fun n p hp => ?_
  rw [digitValue_of_isDigit (h p hp), Option.getD_some]

theorem not_sign {p : Nat} (h : 48 ≤ p ∧ p ≤ 57) : p ≠ 45 ∧ p ≠ 43 := by omega

theorem not_isDigit_letter (c : Nat) (h : c = 101 ∨ c = 69) : ¬IsDigit c ∧ c ≠ 46 := by
  change ¬(48 ≤ c ∧ c ≤ 57) ∧ c ≠ 46
  omega

/-- A digit is not a sign. -/
theorem takeSign_cons_digit {p : CodePoint} (h : IsDigit p) (ps : List CodePoint) :
    Numeral.takeSign (p :: ps) = (false, p :: ps) := by
  obtain ⟨minus, plus⟩ := not_sign h
  unfold Numeral.takeSign
  split
  · next h => exact absurd (List.cons.inj h).1 minus
  · next h => exact absurd (List.cons.inj h).1 plus
  · rfl

/-- The sign of a number stands in front of its digits. -/
theorem takeSign_points (x : NumberText) : Numeral.takeSign x.points =
    (x.minus, x.whole ++ x.fraction.elim [] (46 :: ·) ++ x.power.elim [] Power.points) := by
  obtain ⟨minus, whole, fraction, power, digits, places⟩ := x
  cases minus with
  | true => rfl
  | false =>
    cases whole with
    | nil => exact absurd rfl digits.1
    | cons p ps => exact takeSign_cons_digit (digits.2 p List.mem_cons_self) _

/-- Digits behind a sign are all of a number just if it has neither fraction nor exponent. -/
theorem digits_points_iff (x : NumberText) :
    Digits (x.whole ++ x.fraction.elim [] (46 :: ·) ++ x.power.elim [] Power.points) ↔
      x.fraction = none ∧ x.power = none := by
  have point : ¬IsDigit 46 := fun h => absurd h (by decide : ¬(48 ≤ 46 ∧ 46 ≤ 57))
  constructor
  · intro h
    constructor
    · cases hf : x.fraction with
      | none => rfl
      | some ds => exact absurd (h.2 46 (by simp [hf])) point
    · cases hp : x.power with
      | none => rfl
      | some p =>
        have letter := (not_isDigit_letter p.letter p.isLetter).1
        exact absurd (h.2 p.letter (by simp [hp, Power.points])) letter
  · rintro ⟨hf, hp⟩
    rw [hf, hp]
    simpa using x.isWhole

/-- Integers are exact, and other numbers are converted. -/
theorem exactNumber_points (float : Text → Value) (x : NumberText) :
    exactNumber float ⟨x.points⟩ = .ok (x.value float) := by
  rw [exactNumber, Numeral.exponentOf?, takeSign_points, NumberText.value]
  by_cases h : x.fraction = none ∧ x.power = none
  · have whole : x.whole ++ x.fraction.elim [] (46 :: ·) ++ x.power.elim [] Power.points =
        x.whole := by simp [h.1, h.2]
    have numeral := (isNumeral_iff _).mpr x.isWhole
    simp only [if_pos h, whole, if_pos numeral, Numeral.integer, NumberText.integer,
      numeralValue_digits x.isWhole.2]
  · have numeral := fun n => h ((digits_points_iff x).mp ((isNumeral_iff _).mp n))
    simp only [if_neg numeral, if_neg h]

/-! ## Objects -/

/-- Texts are alike if they are the same. -/
theorem alike_text (s t : List CodePoint) :
    Value.alike (.text ⟨s⟩) (.text ⟨t⟩) = decide (s = t) := by
  change (Text.mk s == Text.mk t) = _
  rw [Bool.eq_iff_iff, decide_eq_true_iff, beq_iff_eq, Text.mk.injEq]

/-- A new entry goes to the end; one under a key that is there takes the place of its value. -/
theorem insert_texts {ks : List (List CodePoint)} (nodup : ks.Nodup) (f : List CodePoint → Value)
    (k : List CodePoint) (v : Value) :
    Value.dictOf.insert Value.alike (ks.map fun j => (.text ⟨j⟩, f j)) (.text ⟨k⟩, v) =
      (if k ∈ ks then ks else ks ++ [k]).map fun j => (.text ⟨j⟩, if j = k then v else f j) := by
  induction ks with
  | nil => simp [Value.dictOf.insert]
  | cons j ks ih =>
    obtain ⟨fresh, nodup⟩ := List.nodup_cons.mp nodup
    rw [List.map_cons, Value.dictOf.insert, alike_text]
    by_cases h : j = k
    · -- The key is here, so it is not found again.
      subst h
      have others : ∀ i ∈ ks, i ≠ j := fun i hi => ne_of_mem_of_not_mem hi fresh
      rw [if_pos (by simp), if_pos List.mem_cons_self, List.map_cons, if_pos rfl]
      refine congrArg _ (List.map_congr_left fun i hi => ?_)
      rw [if_neg (others i hi)]
    · rw [if_neg (by simpa using h), ih nodup]
      by_cases mem : k ∈ ks
      · simp [mem, h]
      · simp [mem, h, Ne.symm h]

theorem nodup_eraseDups (ks : List (List CodePoint)) : ks.eraseDups.Nodup := by
  induction ks using List.reverseRecOn with
  | nil => exact List.nodup_nil
  | append_singleton ks k ih =>
    rw [List.eraseDups_append, List.nodup_append']
    by_cases h : k ∈ ks
    · simp [List.removeAll, h, ih]
    · simp [List.removeAll, h, ih, List.eraseDups_cons]

theorem eraseDups_concat (ks : List (List CodePoint)) (k : List CodePoint) :
    (ks ++ [k]).eraseDups = if k ∈ ks.eraseDups then ks.eraseDups else ks.eraseDups ++ [k] := by
  rw [List.eraseDups_append]
  by_cases h : k ∈ ks <;> simp [List.removeAll, h, List.eraseDups_cons]

theorem members_texts (ms : List (List CodePoint × Value)) :
    members (ms.map fun m => .group [.text ⟨m.1⟩, m.2]) = ms.map fun m => (.text ⟨m.1⟩, m.2) := by
  induction ms with
  | nil => rfl
  | cons m ms ih => exact congrArg (_ :: ·) ih

/-- The object of members. -/
theorem object_members (ms : List (List CodePoint × Value)) :
    Json.object (.list (ms.map fun m => .group [.text ⟨m.1⟩, m.2])) = .dict (entries ms) := by
  rw [Json.object, members_texts, Value.dictOf]
  refine congrArg Value.dict ?_
  induction ms using List.reverseRecOn with
  | nil => rfl
  | append_singleton ms m ih =>
    have last : ∀ k, (((ms ++ [m]).reverse.lookup k).getD .none : Value) =
        if k = m.1 then m.2 else (ms.reverse.lookup k).getD .none := by
      intro k
      rw [List.reverse_append, List.reverse_singleton, List.singleton_append, List.lookup_cons]
      by_cases h : k = m.1
      · simp [h]
      · simp [h, beq_false_of_ne h]
    rw [List.map_append, List.foldl_append, ih, entries, entries, List.map_append,
      List.map_singleton, List.map_singleton, eraseDups_concat]
    simp only [last]
    exact insert_texts (nodup_eraseDups _) _ _ _

end ResumableParsing.Json
