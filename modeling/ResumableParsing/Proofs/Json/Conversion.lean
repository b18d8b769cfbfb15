import ResumableParsing.Proofs.Json.Acceptance

/-!
# Converting the numbers of JSON documents

The text of every number of the reference grammar is taken apart as it was put together, so its
conversion never fails. So what the parser of documents accepts is the reference grammar, no more
and no less. In this grammar the whole part of a number may start with zeros, and the characters of
a string may be control characters.

* `Json.NumberText.numeral`, `Json.ofText?_points`: numbers are taken apart
* `Json.accepted_texts_are_documents`: the accepted texts, with their values
* `Json.accepted_texts_are_documents_liberal`: a leading zero and a control character
-/

namespace ResumableParsing.Json

/-! ## Taking numbers apart -/

/-- The integer that the sign and the digits of an exponent denote. -/
def Power.integer (p : Power) : Int :=
  if p.sign = some 45 then -decimal p.digits else decimal p.digits

/-- The parts of a number. -/
def NumberText.numeral (x : NumberText) : Numeral where
  negative := x.minus
  whole := ⟨x.whole⟩
  fraction := x.fraction.map Text.mk
  exponent := x.power.map Power.integer

/-- The digits in front of something else. -/
theorem takeDigits_append {ds rest : List CodePoint} (digits : ∀ p ∈ ds, IsDigit p)
    (ends : Follows (fun p => ¬IsDigit p) rest) :
    Numeral.takeDigits (ds ++ rest) = (⟨ds⟩, rest) := by
  have all : ∀ p ∈ ds, Numeral.isDigit p = true := fun p hp => isSome_digitValue.mpr (digits p hp)
  rw [Numeral.takeDigits, List.takeWhile_append_of_pos all, List.dropWhile_append_of_pos all]
  cases rest with
  | nil => rw [List.takeWhile_nil, List.dropWhile_nil, List.append_nil]
  | cons p rest =>
    have other : ¬Numeral.isDigit p = true := fun h => follows_cons.mp ends (isSome_digitValue.mp h)
    rw [List.takeWhile_cons_of_neg other, List.dropWhile_cons_of_neg other, List.append_nil]

theorem follows_power_digits (p : Option Power) :
    Follows (fun c => ¬IsDigit c ∧ c ≠ 46) (p.elim [] Power.points) := by
  cases p with
  | none => exact follows_nil _
  | some p => exact follows_cons.mpr (not_isDigit_letter p.letter p.isLetter)

/-- The fraction in front of the exponent. -/
theorem takeFraction_points (x : NumberText) :
    Numeral.takeFraction (x.fraction.elim [] (46 :: ·) ++ x.power.elim [] Power.points) =
      (x.fraction.map Text.mk, x.power.elim [] Power.points) := by
  have ends := follows_power_digits x.power
  cases hf : x.fraction with
  | none =>
    change Numeral.takeFraction (x.power.elim [] Power.points) = _
    unfold Numeral.takeFraction
    split
    · next h =>
      rw [h] at ends
      exact absurd rfl (follows_cons.mp ends).2
    · rfl
  | some ds =>
    have digits := takeDigits_append (x.isFraction ds hf).2 (ends.mono fun _ h => h.1)
    change (some (Numeral.takeDigits (ds ++ _)).1, (Numeral.takeDigits (ds ++ _)).2) = _
    rw [digits]
    rfl

/-- The exponent without its letter. -/
theorem exponentOf?_digits (p : Power) :
    Numeral.exponentOf? (p.sign.toList ++ p.digits) = some p.integer := by
  have taken : Numeral.takeSign (p.sign.toList ++ p.digits) =
      (decide (p.sign = some 45), p.digits) := by
    cases hs : p.sign with
    | some c => rcases p.isSign c hs with rfl | rfl <;> rfl
    | none =>
      obtain ⟨c, ds, e⟩ := List.exists_cons_of_ne_nil p.isDigits.1
      rw [e]
      exact takeSign_cons_digit (p.isDigits.2 c (e ▸ List.mem_cons_self)) ds
  rw [Numeral.exponentOf?, taken]
  simp only [if_pos ((isNumeral_iff _).mpr p.isDigits), Numeral.integer,
    numeralValue_digits p.isDigits.2, Power.integer, decide_eq_true_eq]

/-- The text of a number has the parts of the number. -/
theorem ofText?_points (x : NumberText) : Numeral.ofText? ⟨x.points⟩ = some x.numeral := by
  have ends := follows_power_digits x.power
  have behind : Follows (fun p => ¬IsDigit p)
      (x.fraction.elim [] (46 :: ·) ++ x.power.elim [] Power.points) := by
    cases x.fraction with
    | none => exact ends.mono fun _ h => h.1
    | some ds => exact follows_cons.mpr (by decide : ¬(48 ≤ 46 ∧ 46 ≤ 57))
  have digit : (Text.mk x.whole ++ (x.fraction.map Text.mk).getD .empty).length ≠ 0 := by
    obtain ⟨c, ds, e⟩ := List.exists_cons_of_ne_nil x.isWhole.1
    rw [e]
    exact Nat.succ_ne_zero _
  rw [Numeral.ofText?, takeSign_points, List.append_assoc]
  simp only [takeDigits_append x.isWhole.2 behind, takeFraction_points, guard, if_pos digit]
  cases hp : x.power with
  | none => simp [NumberText.numeral, hp]
  | some p => simp [NumberText.numeral, hp, Power.points, exponentOf?_digits, p.isLetter]

/-- So every number of the reference grammar is converted. -/
theorem number_points (x : NumberText) : number ⟨x.points⟩ = .ok x.numeral.value := by
  rw [number, ofText?_points]

/-! ## Accepted texts -/

variable {W : Type}

/-- The parser of documents accepts nothing but documents of the reference grammar, each with the
value that it stands for, and all of them; every other text is no parse. It is built in any store
with the parser at the end of the input, and run in any later store. -/
theorem accepted_texts_are_documents (σ τ : Store W) (t : Text)
    (finished : ParserId.finished.Performs σ (.finished .finished))
    (marked : ParserId.finished.Marked σ false) (later : (document σ).2.Evolves τ) :
    let parse := parseText (document σ).1 t
    (∀ v, (∃ υ, parse.Comes τ (.ok v υ)) ↔ IsDocument (fun x => x.numeral.value) t.points v) ∧
      ((∀ v, ¬IsDocument (fun x => x.numeral.value) t.points v) →
        ∃ e υ, parse.Comes τ (.error (.raised (.noParse e)) υ)) := by
  obtain ⟨value, h⟩ := ends_documentWith number finished marked
  exact h.accepts number_points later t

/-- A number with a leading zero, and a string that is a raw tab. -/
theorem accepted_texts_are_documents_liberal : ∃ σ τ : Store Unit,
    ParserId.finished.Performs σ (.finished .finished) ∧ ParserId.finished.Marked σ false ∧
      (document σ).2.Evolves τ ∧
        ∃ υ, (parseText (document σ).1 (.ofString "[01,\"\t\"]")).Comes τ
          (.ok (.list [.int 1, .ofString "\t"]) υ) := by
  let σ : Store Unit := .initial () fun _ _ => ()
  have finished : ParserId.finished.Performs σ (.finished .finished) := ⟨_, rfl, .inl ⟨rfl, rfl⟩⟩
  have marked : ParserId.finished.Marked σ false := ⟨_, rfl, rfl⟩
  clear_value σ
  have accepted := accepted_texts_are_documents σ _ (.ofString "[01,\"\t\"]") finished marked .refl
  have nothing : Blanks [] := by simp [Blanks]
  let one : NumberText := {
    minus := false
    whole := [48, 49]
    fraction := none
    power := none
    isWhole := by simp [Digits, IsDigit]
    isFraction := by simp }
  have tab : IsString [34, 9, 34] [9] := .mk (.cons (.plain (by decide) (by decide)) .nil)
  have items := Phrases.sepBy1.more (.number one nothing) (.mk nothing : Symbol 44 [44] ())
    (.one (.string tab nothing : IsValue (fun x => x.numeral.value) _ _))
  have document := IsDocument.mk nothing (.array (.mk (.mk nothing) (.some items) (.mk nothing)))
  exact ⟨_, _, finished, marked, .refl, (accepted.1 _).mpr document⟩

end ResumableParsing.Json
