import ResumableParsing.Proofs.Backtracking.Building
import ResumableParsing.Proofs.Json.Values
import ResumableParsing.Proofs.Termination.Lists

/-!
# Recognising the tokens of JSON documents

Blanks, punctuation, words, numbers and strings. Each part of the grammar is put together from the
parts that it refers to, and its parser recognises what the reference grammar says.

* `Json.blanks`, `Json.number`, `Json.string` and so on: the parts without references
* `Json.recognises_blanks`, `Json.recognises_number`, `Json.recognises_string`: what they recognise
-/

namespace ResumableParsing.Json

variable {W : Type}

/-! ## The parts without references -/

/-- The token of a code point. -/
def token (p : CodePoint) : Value := .text (.ofPoint p)

/-- The tree of a grammar that leaves out only what it says itself. -/
abbrev tree (g : Grammar W) : Core W := g.core noMarks

namespace Whole

def blanks : Grammar W := Part.blanks Part.space

def digits : Grammar W := Part.digits Part.digit

def fraction : Grammar W := Part.fraction digits

def power : Grammar W := Part.power digits

def number (value : Text → Except Fault Value) : Grammar W :=
  Part.number value blanks digits fraction power

def long : Grammar W := Part.long Part.hexDigit

def escaped : Grammar W := Part.escaped Part.short long

def string : Grammar W := Part.string blanks Part.plain escaped

def word (w : String) (v : Value) : Grammar W := Part.word blanks w v

end Whole

section

variable {σ : Store W} {n : Nat} {S : List CodePoint → Prop} {P : CodePoint → Prop}
  {v : Value} {vs : List Value}

/-! ## Functions -/

theorem maps_done {f : Value → Value} : (Gist.value v).Maps σ (fun v => .done (f v)) (.value (f v))
    := by
  intro w hw τ _
  cases hw
  exact ⟨_, τ, comes_pure _ τ, .value⟩

theorem maps_constant {y : Gist} : y.Maps σ (fun _ => .done v) (.value v) :=
  fun _ _ τ _ => ⟨_, τ, comes_pure _ τ, .value⟩

theorem maps_checked {f : Value → Except Fault Value} {w : Value} (h : f v = .ok w) :
    (Gist.value v).Maps σ (fun v => .ofExcept (f v)) (.value w) := by
  intro u hu τ _
  cases hu
  simp only [h]
  exact ⟨_, τ, comes_pure _ τ, .value⟩

/-- A stream whose elements are all there is read into a list. -/
theorem maps_listOf : (Gist.items vs).Maps σ Build.listOf (.value (.list vs)) := by
  intro w hw τ _
  cases hw with
  | items spells =>
    obtain ⟨υ, read, -⟩ := (spells.reads 0 τ).toList
    exact ⟨_, υ, comes_bind_ok read (comes_pure _ υ), .value⟩

theorem always_done_iff {b : Bool} {Q : Prop} (h : b = true ↔ Q) :
    (Action.done b : Action W Bool).Always σ fun c => c = true ↔ Q :=
  fun τ _ => ⟨b, τ, comes_pure b τ, h⟩

/-! ## Characters -/

theorem pointsOccurIn_singleton (p : CodePoint) (ps : List CodePoint) :
    Text.pointsOccurIn [p] ps = true ↔ p ∈ ps := by
  induction ps with
  | nil => simp [Text.pointsOccurIn]
  | cons q ps ih => simp [Text.pointsOccurIn, ih, List.isPrefixOf]

theorem token_beq (p q : CodePoint) : (token p).beq (token q) = true ↔ p = q := by
  change ((Text.ofPoint p == Text.ofPoint q) = true) ↔ p = q
  simp [Text.ofPoint]

theorem recognises_charIn {chars : String} (h : ∀ p, p ∈ (Text.ofString chars).points ↔ P p) :
    (tree (charIn chars : Grammar W)).Recognises σ token n (fun p => .value (token p)) (.one P) S :=
  recognises_some fun p => always_done_iff ((pointsOccurIn_singleton p _).trans (h p))

theorem starts_charIn {chars : String} (h : ∀ p, p ∈ (Text.ofString chars).points ↔ P p) :
    (tree (charIn chars : Grammar W)).Starts σ token P :=
  starts_some fun p => always_done_iff ((pointsOccurIn_singleton p _).trans (h p))

theorem recognises_char (c : Char) :
    (tree (char c : Grammar W)).Recognises σ token n (fun p => .value (token p))
      (.one (· = c.toNat)) S :=
  recognises_some fun p => always_done_iff (token_beq p c.toNat)

theorem starts_char (c : Char) : (tree (char c : Grammar W)).Starts σ token (· = c.toNat) :=
  starts_some fun p => always_done_iff (token_beq p c.toNat)

/-- A character that is left out. -/
theorem recognises_skip (c : Char) :
    (tree (.skip (char c) : Grammar W)).Recognises σ token n (fun _ : Unit => .anything)
      (fun w _ => w = [c.toNat]) S := by
  refine (recognises_ignore (recognises_char c)).as (fun w p hw => ⟨(), ?_, rfl⟩)
    (fun w _ hw => ⟨c.toNat, ?_, rfl⟩) fun _ h => h
  · obtain ⟨rfl⟩ := hw
    rfl
  · subst hw
    exact .mk rfl

end

/-! ## Blanks -/

section

variable {σ : Store W} {n : Nat}

theorem space_iff (p : CodePoint) : p ∈ (Text.ofString " \t\r\n").points ↔ IsBlank p := by
  change p ∈ [32, 9, 13, 10] ↔ _
  simp [IsBlank]

theorem recognises_blanks :
    (tree (Whole.blanks : Grammar W)).Recognises σ token n (fun _ : Unit => .anything)
      (fun w _ => Blanks w) (Follows fun p => ¬IsBlank p) := by
  have many := recognises_many (h := token) (S := Follows fun p => ¬IsBlank p)
    (recognises_charIn (W := W) (σ := σ) (n := n) (S := fun _ => True) space_iff)
    (fun w p hw => ?_) (starts_charIn space_iff) (fun _ h => h) (fun _ _ => trivial)
    fun _ _ _ _ => trivial
  · refine (recognises_ignore many).as (fun w ps hw => ⟨(), ?_, rfl⟩) (fun w _ hw => ⟨w, ?_, rfl⟩)
      fun _ h => h
    · exact (Phrases.many_one_iff.mp hw).2
    · exact Phrases.many_one_iff.mpr ⟨rfl, hw⟩
  · obtain ⟨hp⟩ := hw
    exact List.cons_ne_nil _ _

theorem follows_blanks {P : CodePoint → Prop} {b rest : List CodePoint} (hb : Blanks b)
    (hP : ∀ p, IsBlank p → P p) (hrest : Follows P rest) : Follows P (b ++ rest) := by
  cases b with
  | nil => exact hrest
  | cons p b => exact follows_cons.mpr (hP p (hb p List.mem_cons_self))

/-- A token and the blanks behind it: what the blanks amount to is left out. -/
theorem recognises_lexeme {β : Type} {a : Core W} {g : β → Gist} {L : Phrases CodePoint β}
    {P : CodePoint → Prop} (ha : a.Recognises σ token n g L (Follows P))
    (hP : ∀ p, IsBlank p → P p) :
    (Core.seq a (tree Whole.blanks) .first).Recognises σ token n g
      (fun w v => ∃ u b, L u v ∧ Blanks b ∧ w = u ++ b)
      (Follows fun p => P p ∧ ¬IsBlank p) := by
  have blanks : (tree (Whole.blanks : Grammar W)).Recognises σ token n (fun _ : Unit => .anything)
      (fun w _ => Blanks w) (Follows fun p => P p ∧ ¬IsBlank p) :=
    recognises_blanks.follows fun _ h => h.mono fun _ h => h.2
  have both := recognises_seq (k := .first) (g := fun x : β × Unit => g x.1) ha blanks
    (fun _ _ => .first)
    (fun b _ rest hb hrest => follows_blanks hb hP (hrest.mono fun _ h => h.1))
    fun _ _ _ => Nat.le_add_right n _
  refine both.as (fun w v hw => ⟨v.1, ?_, rfl⟩) (fun w v hw => ?_) fun _ h => h
  · obtain ⟨hu, hb⟩ := hw
    exact ⟨_, _, hu, hb, rfl⟩
  · obtain ⟨u, b, hu, hb, rfl⟩ := hw
    exact ⟨(v, ()), .mk hu hb, rfl⟩

/-! ## Punctuation and words -/

theorem recognises_operator (c : Char) :
    (tree (Part.operator Whole.blanks c : Grammar W)).Recognises σ token n
      (fun _ : Unit => .value (token c.toNat)) (Symbol c.toNat) (Follows fun p => ¬IsBlank p) := by
  have lexeme := recognises_lexeme (W := W) (σ := σ) (n := n) (P := fun _ => True)
    (recognises_char c) fun _ _ => trivial
  refine lexeme.as (fun w p hw => ⟨(), ?_, ?_⟩) (fun w _ hw => ⟨c.toNat, ?_, rfl⟩) fun _ h =>
    h.mono fun _ h => ⟨trivial, h⟩
  · obtain ⟨_, b, ⟨rfl⟩, hb, rfl⟩ := hw
    exact .mk hb
  · obtain ⟨_, b, ⟨rfl⟩, hb, rfl⟩ := hw
    rfl
  · obtain ⟨hb⟩ := hw
    exact ⟨[c.toNat], _, .mk rfl, hb, rfl⟩

theorem starts_operator (c : Char) :
    (tree (Part.operator Whole.blanks c : Grammar W)).Starts σ token (· = c.toNat) :=
  (starts_char c).seq _ _

/-- Characters one after another. -/
theorem recognises_sequence {S : List CodePoint → Prop} (cs : List Char) :
    (tree (.sequence (cs.map char) : Grammar W)).Recognises σ token n
      (fun _ : Unit => .items (cs.map fun c => token c.toNat))
      (fun w _ => w = cs.map Char.toNat) S := by
  induction cs with
  | nil =>
    have empty : (Core.noItems : Core W).Recognises σ token n (fun _ : Unit => .items [])
      (.nothing ()) S := recognises_pure (.items .nil)
    refine empty.as (fun w _ hw => ⟨(), ?_, rfl⟩) (fun w _ hw => ⟨(), ?_, rfl⟩) fun _ h => h
    · cases hw
      rfl
    · subst hw
      exact .mk
  | cons c cs ih =>
    have both := recognises_seq (k := .cons)
      (g := fun x : CodePoint × Unit => .items (token x.1 :: cs.map fun c => token c.toNat))
      (recognises_char (S := fun _ => True) c) ih (fun _ _ => .cons) (fun _ _ _ _ _ => trivial)
      fun _ _ _ => Nat.le_add_right n _
    refine both.as (fun w x hw => ⟨(), ?_, ?_⟩) (fun w _ hw => ⟨(c.toNat, ()), ?_, rfl⟩)
      fun _ h => h
    · obtain ⟨⟨rfl⟩, rfl⟩ := hw
      rfl
    · obtain ⟨⟨rfl⟩, rfl⟩ := hw
      rfl
    · subst hw
      exact .mk (u := [c.toNat]) (.mk rfl) rfl

theorem tree_word (w : String) (v : Value) : tree (Whole.word w v : Grammar W) =
    .map (.seq (tree (.sequence (w.toList.map char))) (tree Whole.blanks) .first)
      fun _ => .done v := by
  have kept : (tree (.sequence (w.toList.map char) : Grammar W)).ignored noMarks = false := by
    cases w.toList <;> rfl
  change Core.map (Core.plus noMarks (tree (.sequence (w.toList.map char))) _) _ = _
  rw [Core.plus, kept]
  rfl

theorem recognises_word (w : String) (v : Value) :
    (tree (Whole.word w v : Grammar W)).Recognises σ token n (fun _ : Unit => .value v)
      (fun u _ => ∃ b, Blanks b ∧ u = (Text.ofString w).points ++ b)
      (Follows fun p => ¬IsBlank p) := by
  have lexeme := recognises_lexeme (W := W) (σ := σ) (n := n) (P := fun _ => True)
    (recognises_sequence w.toList) fun _ _ => trivial
  have mapped := recognises_map (f := fun _ => .done v) (g := fun _ : Unit => .value v) (φ := id)
    lexeme fun _ _ _ => maps_constant
  rw [tree_word]
  refine mapped.as (fun u _ hu => ⟨(), ?_, rfl⟩) (fun u _ hu => ⟨(), ?_, rfl⟩) fun _ h =>
    h.mono fun _ h => ⟨trivial, h⟩
  · obtain ⟨_, b, rfl, hb, rfl⟩ := hu
    exact ⟨b, hb, rfl⟩
  · obtain ⟨b, hb, rfl⟩ := hu
    exact .mk (v := ()) ⟨_, b, rfl, hb, rfl⟩

/-- A word starts with its first character. -/
theorem starts_word {w : String} {c : Char} {cs : List Char} (h : w.toList = c :: cs) (v : Value) :
    (tree (Whole.word w v : Grammar W)).Starts σ token (· = c.toNat) := by
  have sequence : (tree (.sequence (w.toList.map char) : Grammar W)).Starts σ token
      (· = c.toNat) := by
    rw [h]
    exact (starts_char c).seq _ _
  rw [tree_word]
  exact (sequence.seq _ _).map _

/-! ## Numbers -/

theorem digit_iff (p : Nat) : p ∈ (Text.ofString "0123456789").points ↔ IsDigit p := by
  change p ∈ [48, 49, 50, 51, 52, 53, 54, 55, 56, 57] ↔ 48 ≤ p ∧ p ≤ 57
  simp only [List.mem_cons, List.not_mem_nil, or_false]
  omega

/-- Tokens of single code points make up a text. -/
theorem joined_tokens (ps : List CodePoint) : joined (.list (ps.map token)) = ⟨ps⟩ := by
  induction ps with
  | nil => rfl
  | cons p ps ih => exact congrArg (fun t : Text => Text.mk (p :: t.points)) ih

/-- Nothing that starts with a digit may follow. -/
theorem recognises_digits :
    (tree (Whole.digits : Grammar W)).Recognises σ token n (fun ds => .value (.text ⟨ds⟩))
      (fun w ds => w = ds ∧ Digits ds) (Follows fun p => ¬IsDigit p) := by
  have digit : (tree (Part.digit : Grammar W)).Recognises σ token n (fun p => .value (token p))
      (.one IsDigit) fun _ => True := recognises_charIn digit_iff
  have strict : ∀ w p, Phrases.one IsDigit w p → w ≠ [] := by
    rintro _ _ ⟨_⟩
    exact List.cons_ne_nil _ _
  have many := recognises_many (S := Follows fun p => ¬IsDigit p) digit strict
    (starts_charIn digit_iff) (fun _ h => h) (fun _ _ => trivial) fun _ _ _ _ => trivial
  have both := recognises_seq (k := .cons)
    (g := fun x : CodePoint × List CodePoint => .items ((x.1 :: x.2).map token)) digit many
    (fun _ _ => .cons) (fun _ _ _ _ _ => trivial) fun _ _ _ => Nat.le_add_right n _
  have listed := recognises_map (f := Build.listOf) (φ := fun x => x.1 :: x.2)
    (g := fun ps => .value (.list (ps.map token))) both fun _ _ _ => maps_listOf
  have texts := recognises_map (f := fun v => .done (.text (joined v))) (φ := id)
    (g := fun ps => .value (.text ⟨ps⟩)) listed fun _ ps _ => by
      have maps := maps_done (σ := σ) (v := .list (ps.map token)) (f := fun v => .text (joined v))
      rw [joined_tokens] at maps
      exact maps
  refine texts.as (fun w ds hw => ⟨ds, ?_, rfl⟩) (fun w ds hw => ⟨ds, ?_, rfl⟩) fun _ h => h
  · obtain ⟨⟨⟨hp⟩, rest⟩⟩ := hw
    obtain ⟨rfl, all⟩ := Phrases.many_one_iff.mp rest
    exact ⟨rfl, List.cons_ne_nil _ _, List.forall_mem_cons.mpr ⟨hp, all⟩⟩
  · obtain ⟨rfl, ne, all⟩ := hw
    cases w with
    | nil => exact absurd rfl ne
    | cons p ps =>
      obtain ⟨hp, all⟩ := List.forall_mem_cons.mp all
      refine .mk (v := p :: ps) (.mk (v := (p, ps)) (.mk (u := [p]) (.mk hp) ?_))
      exact Phrases.many_one_iff.mpr ⟨rfl, all⟩

theorem starts_digits : (tree (Whole.digits : Grammar W)).Starts σ token IsDigit :=
  (((starts_charIn digit_iff).seq _ _).map _).map _

theorem follows_digits {P : CodePoint → Prop} {ds rest : List CodePoint} (hds : Digits ds)
    (hP : ∀ p, IsDigit p → P p) : Follows P (ds ++ rest) := by
  cases ds with
  | nil => exact absurd rfl hds.1
  | cons p ps => exact follows_cons.mpr (hP p (hds.2 p List.mem_cons_self))

/-- The value of an optional sign. -/
def signValue (s : Option CodePoint) : Value := s.elim .none token

/-- The value of the digits behind the point. -/
def fractionValue : Option (List CodePoint) → Value
  | none => .none
  | some ds => .group [token 46, .text ⟨ds⟩]

/-- The value of the exponent. -/
def powerValue : Option Power → Value
  | none => .none
  | some p => .group [token p.letter, signValue p.sign, .text ⟨p.digits⟩]

/-- The value of the parts of a number. -/
def partsValue (x : NumberText) : Value :=
  .group [signValue (if x.minus then some 45 else none), .text ⟨x.whole⟩, fractionValue x.fraction,
    powerValue x.power]

/-- An optional sign, of which nothing follows. -/
theorem recognises_sign {a : Core W} {P : CodePoint → Prop}
    (ha : a.Recognises σ token n (fun p => .value (token p)) (.one P) fun _ => True)
    (starts : a.Starts σ token P) :
    (Core.optional a .none).Recognises σ token n (fun s => .value (signValue s))
      (fun w s => w = s.toList ∧ ∀ p, s = some p → P p) (Follows fun p => ¬P p) := by
  have sign := recognises_optional (S := Follows fun p => ¬P p)
    (g := fun s => .value (signValue s)) ha (fun _ => rfl) .value starts (fun _ h => h)
    fun _ _ => trivial
  refine sign.as (fun w s hw => ⟨s, ?_, rfl⟩) (fun w s hw => ⟨s, ?_, rfl⟩) fun _ h => h
  · cases hw with
    | none => exact ⟨rfl, by simp⟩
    | some hw =>
      obtain ⟨hp⟩ := hw
      exact ⟨rfl, by simpa using hp⟩
  · obtain ⟨rfl, hP⟩ := hw
    cases s with
    | none => exact .none
    | some p => exact .some (.mk (hP p rfl))

theorem recognises_fraction :
    (tree (Whole.fraction : Grammar W)).Recognises σ token n (fun f => .value (fractionValue f))
      (fun w f => w = f.elim [] (46 :: ·) ∧ ∀ ds, f = some ds → Digits ds)
      (Follows fun p => ¬IsDigit p ∧ p ≠ 46) := by
  have both := recognises_seq (k := .group)
    (g := fun x : CodePoint × List CodePoint => .value (.group [token x.1, .text ⟨x.2⟩]))
    (recognises_char (S := fun _ => True) '.') (recognises_digits (W := W) (σ := σ) (n := n))
    (fun _ _ => .group) (fun _ _ _ _ _ => trivial) fun _ _ _ => Nat.le_add_right n _
  have fraction := recognises_optional (S := Follows fun p => ¬IsDigit p ∧ p ≠ 46)
    (g := fun x => .value (x.elim .none fun x => .group [token x.1, .text ⟨x.2⟩])) (v := .none) both
    (fun _ => rfl) .value ((starts_char '.').seq _ _) (fun _ h => h.mono fun _ h => h.2)
    fun _ h => h.mono fun _ h => h.1
  refine fraction.as (fun w x hw => ?_) (fun w f hw => ?_) fun _ h => h
  · cases hw with
    | none => exact ⟨none, ⟨rfl, by simp⟩, rfl⟩
    | some hw =>
      obtain ⟨⟨rfl⟩, rfl, digits⟩ := hw
      exact ⟨some _, ⟨rfl, by simpa using digits⟩, rfl⟩
  · obtain ⟨rfl, digits⟩ := hw
    cases f with
    | none => exact ⟨none, .none, rfl⟩
    | some ds =>
      exact ⟨some (46, ds), .some (.mk (u := [46]) (.mk rfl) ⟨rfl, digits ds rfl⟩), rfl⟩

theorem letter_iff (p : CodePoint) : p ∈ (Text.ofString "eE").points ↔ p = 101 ∨ p = 69 := by
  change p ∈ [101, 69] ↔ _
  simp

theorem plusMinus_iff (p : CodePoint) : p ∈ (Text.ofString "+-").points ↔ p = 43 ∨ p = 45 := by
  change p ∈ [43, 45] ↔ _
  simp

theorem recognises_power :
    (tree (Whole.power : Grammar W)).Recognises σ token n (fun p => .value (powerValue p))
      (fun w p => w = p.elim [] Power.points)
      (Follows fun p => ¬IsDigit p ∧ p ≠ 101 ∧ p ≠ 69) := by
  have sign := recognises_sign (σ := σ) (n := n) (recognises_charIn (W := W) plusMinus_iff)
    (starts_charIn plusMinus_iff)
  have front := recognises_seq (k := .group)
    (g := fun x : CodePoint × Option CodePoint => .value (.group [token x.1, signValue x.2]))
    (recognises_charIn (S := fun _ => True) letter_iff) sign (fun _ _ => .group)
    (fun _ _ _ _ _ => trivial) fun _ _ _ => Nat.le_add_right n _
  have all := recognises_seq (k := .group)
    (g := fun x : (CodePoint × Option CodePoint) × List CodePoint =>
      .value (.group [token x.1.1, signValue x.1.2, .text ⟨x.2⟩])) front recognises_digits
    (fun _ _ => .group) (fun w ds rest hw _ => ?_) fun _ _ _ => Nat.le_add_right n _
  · have power := recognises_optional (S := Follows fun p => ¬IsDigit p ∧ p ≠ 101 ∧ p ≠ 69)
      (g := fun x => .value (x.elim .none fun x =>
        .group [token x.1.1, signValue x.1.2, .text ⟨x.2⟩])) (v := .none) all
      (fun _ => rfl) .value (((starts_charIn letter_iff).seq _ _).seq _ _)
      (fun _ h => h.mono fun _ h => not_or.mpr h.2) fun _ h => h.mono fun _ h => h.1
    refine power.as (fun w x hw => ?_) (fun w p hw => ?_) fun _ h => h
    · cases hw with
      | none => exact ⟨none, rfl, rfl⟩
      | some hw =>
        obtain ⟨⟨⟨letter⟩, rfl, sign⟩, rfl, digits⟩ := hw
        exact ⟨some ⟨_, _, _, letter, sign, digits⟩, rfl, rfl⟩
    · subst hw
      cases p with
      | none => exact ⟨none, .none, rfl⟩
      | some p =>
        refine ⟨some ((p.letter, p.sign), p.digits), .some ?_, rfl⟩
        exact .mk (u := p.letter :: p.sign.toList)
          (.mk (u := [p.letter]) (.mk p.isLetter) ⟨rfl, p.isSign⟩) ⟨rfl, p.isDigits⟩
  · -- A digit is not a sign.
    obtain ⟨rfl, digits⟩ := hw
    refine follows_digits digits fun (p : Nat) (hp : 48 ≤ p ∧ p ≤ 57) => ?_
    change ¬(p = 43 ∨ p = 45)
    omega

/-- The text of a number does not go on with this character. -/
def EndsNumber (p : CodePoint) : Prop := ¬IsDigit p ∧ p ≠ 46 ∧ p ≠ 101 ∧ p ≠ 69

theorem endsNumber_of_isBlank {p : Nat} (h : p = 32 ∨ p = 9 ∨ p = 13 ∨ p = 10) :
    EndsNumber p := by
  change ¬(48 ≤ p ∧ p ≤ 57) ∧ p ≠ 46 ∧ p ≠ 101 ∧ p ≠ 69
  omega

theorem follows_fraction {P : CodePoint → Prop} {f : Option (List CodePoint)}
    {rest : List CodePoint} (h : P 46) (hrest : Follows P rest) :
    Follows P (f.elim [] (46 :: ·) ++ rest) := by
  cases f with
  | none => exact hrest
  | some ds => exact follows_cons.mpr h

theorem follows_power {P : CodePoint → Prop} {p : Option Power} {rest : List CodePoint}
    (h : ∀ c, c = 101 ∨ c = 69 → P c) (hrest : Follows P rest) :
    Follows P (p.elim [] Power.points ++ rest) := by
  cases p with
  | none => exact hrest
  | some p => exact follows_cons.mpr (h p.letter p.isLetter)

/-- The parts of a number. What stands behind each of them tells it from the next one. -/
theorem recognises_parts :
    (Core.seq (.seq (.seq (.optional (tree (char '-')) .none) (tree Whole.digits) .group)
      (tree Whole.fraction) .group) (tree Whole.power) .group : Core W).Recognises σ token n
        (fun x : NumberText => .value (partsValue x)) (fun w x => w = x.points)
        (Follows EndsNumber) := by
  have whole := recognises_seq (k := .group)
    (g := fun x : Option CodePoint × List CodePoint =>
      .value (.group [signValue x.1, .text ⟨x.2⟩]))
    (recognises_sign (recognises_char '-') (starts_char '-'))
    (recognises_digits (W := W) (σ := σ) (n := n)) (fun s _ => by cases s <;> exact .group)
    (fun w ds rest hw _ => ?_) fun _ _ _ => Nat.le_add_right n _
  have fraction := recognises_seq (k := .group)
    (g := fun x : (Option CodePoint × List CodePoint) × Option (List CodePoint) =>
      .value (.group [signValue x.1.1, .text ⟨x.1.2⟩, fractionValue x.2])) whole
    recognises_fraction (fun _ _ => .group) (fun w f rest hw hrest => ?_)
    fun _ _ _ => Nat.le_add_right n _
  have power := recognises_seq (k := .group)
    (g := fun x : ((Option CodePoint × List CodePoint) × Option (List CodePoint)) × Option Power =>
      .value (.group [signValue x.1.1.1, .text ⟨x.1.1.2⟩, fractionValue x.1.2, powerValue x.2]))
    fraction (recognises_power.follows (S := Follows EndsNumber) fun _ h => h.mono fun _ h =>
      ⟨h.1, h.2.2⟩) (fun _ _ => .group) (fun w p rest hw hrest => ?_)
    fun _ _ _ => Nat.le_add_right n _
  · refine power.as (fun w x hw => ?_) (fun w x hw => ?_) fun _ h => h
    · obtain ⟨⟨⟨s, ds⟩, f⟩, p⟩ := x
      obtain ⟨⟨⟨⟨rfl, minus⟩, rfl, digits⟩, rfl, places⟩, rfl⟩ := hw
      cases s with
      | none => exact ⟨⟨false, _, f, p, digits, places⟩, rfl, rfl⟩
      | some c =>
        obtain rfl : c = 45 := minus c rfl
        exact ⟨⟨true, _, f, p, digits, places⟩, rfl, rfl⟩
    · subst hw
      let sign : Option CodePoint := if x.minus then some 45 else none
      have isSign : ∀ c, sign = some c → c = '-'.toNat := by
        intro c hc
        by_cases h : x.minus = true
        · simp only [sign, if_pos h, Option.some_inj] at hc
          exact hc.symm
        · simp only [sign, if_neg h] at hc
          cases hc
      have isText : (if x.minus then [45] else []) = sign.toList := by
        cases h : x.minus <;> simp [sign, h]
      refine ⟨(((sign, x.whole), x.fraction), x.power), ?_, rfl⟩
      rw [NumberText.points, isText]
      exact .mk (.mk (.mk ⟨rfl, isSign⟩ ⟨rfl, x.isWhole⟩) ⟨rfl, x.isFraction⟩) rfl
  · subst hw
    exact follows_power not_isDigit_letter (hrest.mono fun _ h => ⟨h.1, h.2.1⟩)
  · obtain ⟨rfl, -⟩ := hw
    have point : ¬(48 ≤ 46 ∧ 46 ≤ 57) := by decide
    exact follows_fraction point (hrest.mono fun _ h => h.1)
  · -- A digit is not a minus sign.
    obtain ⟨rfl, digits⟩ := hw
    refine follows_digits digits fun (p : Nat) (hp : 48 ≤ p ∧ p ≤ 57) => ?_
    change ¬p = 45
    omega

/-- The texts of the parts make up the text of the number. -/
theorem numberText_partsValue (x : NumberText) : numberText (partsValue x) = ⟨x.points⟩ := by
  have sign : (partText (signValue (if x.minus then some 45 else none))).points =
      if x.minus then [45] else [] := by
    cases x.minus <;> rfl
  have fraction : (partText (fractionValue x.fraction)).points = x.fraction.elim [] (46 :: ·) := by
    cases x.fraction with
    | none => rfl
    | some ds => exact congrArg (46 :: ·) (List.append_nil ds)
  have power : (partText (powerValue x.power)).points = x.power.elim [] Power.points := by
    cases x.power with
    | none => rfl
    | some p =>
      cases hs : p.sign <;>
        simp [powerValue, partText, signValue, textOf, token, Power.points, hs, Text.join,
          Text.ofPoint, Text.empty]
  change Text.mk ((partText (signValue (if x.minus then some 45 else none))).points ++ (x.whole ++
    ((partText (fractionValue x.fraction)).points ++
      ((partText (powerValue x.power)).points ++ [])))) = _
  rw [sign, fraction, power, NumberText.points, List.append_nil, List.append_assoc,
    List.append_assoc]

theorem recognises_number {value : Text → Except Fault Value} {number : NumberText → Value}
    (h : ∀ x, value ⟨x.points⟩ = .ok (number x)) :
    (tree (Whole.number value : Grammar W)).Recognises σ token n
      (fun v => .value v) (fun w v => ∃ x b, Blanks b ∧ w = NumberText.points x ++ b ∧ v = number x)
      (Follows fun p => EndsNumber p ∧ ¬IsBlank p) := by
  have converted := recognises_map (f := fun v => .ofExcept (value (numberText v))) (φ := number)
    (g := fun v => .value v) (recognises_parts (W := W) (σ := σ) (n := n)) fun _ x _ =>
      maps_checked (by rw [numberText_partsValue, h])
  have lexeme := recognises_lexeme converted fun _ => endsNumber_of_isBlank
  refine lexeme.as (fun w v hw => ⟨v, ?_, rfl⟩) (fun w v hw => ⟨v, ?_, rfl⟩) fun _ h => h
  · obtain ⟨_, b, ⟨rfl⟩, hb, rfl⟩ := hw
    exact ⟨_, b, hb, rfl, rfl⟩
  · obtain ⟨x, b, hb, rfl, rfl⟩ := hw
    exact ⟨_, b, .mk rfl, hb, rfl⟩

/-- A number starts with a minus sign or a digit. -/
theorem starts_number {value : Text → Except Fault Value} :
    (tree (Whole.number value : Grammar W)).Starts σ token fun p => p = 45 ∨ IsDigit p := by
  intro xs hxs
  have noSign : (Core.optional (tree (char '-')) .none : Core W).Reads σ token xs
      (.ok false (.value .none) xs) :=
    .right (starts_char '-' xs (hxs.mono fun _ h hp => h (.inl hp))) (.pure .value)
  have noDigit : (tree (Whole.digits : Grammar W)).Reads σ token xs (.err false) :=
    starts_digits xs (hxs.mono fun _ h hp => h (.inr hp))
  exact .seqFirst (.mapFails (.seqFirst (.seqFirst (.seqSecond noSign noDigit))))

/-! ## Strings -/

theorem plain_iff (p : CodePoint) :
    (!(token p).beq (.ofString "\"") && !(token p).beq (.ofString "\\")) = true ↔
      p ≠ 34 ∧ p ≠ 92 := by
  have quote := token_beq p 34
  have backslash := token_beq p 92
  change (!(token p).beq (token 34) && !(token p).beq (token 92)) = true ↔ _
  rw [Bool.and_eq_true_iff, Bool.not_eq_true', Bool.not_eq_true', Bool.eq_false_iff,
    Bool.eq_false_iff, Ne, Ne, quote, backslash]

theorem short_iff (c : CodePoint) :
    c ∈ (Text.ofString "\"\\/bfnrt").points ↔ ∃ p, ShortEscape c p := by
  change c ∈ [34, 92, 47, 98, 102, 110, 114, 116] ↔ _
  simp only [List.mem_cons, List.not_mem_nil, or_false]
  constructor
  · rintro (rfl | rfl | rfl | rfl | rfl | rfl | rfl | rfl)
    · exact ⟨_, .quote⟩
    · exact ⟨_, .backslash⟩
    · exact ⟨_, .slash⟩
    · exact ⟨_, .backspace⟩
    · exact ⟨_, .formFeed⟩
    · exact ⟨_, .lineFeed⟩
    · exact ⟨_, .carriageReturn⟩
    · exact ⟨_, .tab⟩
  · rintro ⟨p, h⟩
    cases h <;> simp

theorem unescape_token {c p : CodePoint} (h : ShortEscape c p) :
    unescape (token c) = .ok (token p) := by cases h <;> rfl

/-- What the letter of a short escape stands for. -/
def meaning (c : CodePoint) : CodePoint := (escapes.lookup c).getD 0

theorem ShortEscape.meaning {c p : CodePoint} (h : ShortEscape c p) : meaning c = p := by
  cases h <;> rfl

theorem recognises_short {S : List CodePoint → Prop} :
    (tree (Part.short : Grammar W)).Recognises σ token n (fun p => .value (token p))
      (fun w p => ∃ c, w = [c] ∧ ShortEscape c p) S := by
  have letter : (tree (charIn "\"\\/bfnrt" : Grammar W)).Recognises σ token n
      (fun p => .value (token p)) (.one fun c => ∃ p, ShortEscape c p) S :=
    recognises_charIn short_iff
  have short := recognises_map (f := fun v => .ofExcept (unescape v)) (φ := meaning)
    (g := fun p => .value (token p)) letter fun w c hc => by
      obtain ⟨p, h⟩ := hc
      rw [h.meaning]
      exact maps_checked (unescape_token h)
  refine short.as (fun w p hw => ⟨p, ?_, rfl⟩) (fun w p hw => ⟨p, ?_, rfl⟩) fun _ h => h
  · obtain ⟨p, h⟩ := hw
    exact ⟨_, rfl, h.meaning ▸ h⟩
  · obtain ⟨c, rfl, h⟩ := hw
    rw [← h.meaning]
    exact .mk (.mk ⟨p, h⟩)

theorem hexDigit_iff (p : Nat) :
    p ∈ (Text.ofString "0123456789abcdefABCDEF").points ↔ IsHexDigit p := by
  change p ∈ [48, 49, 50, 51, 52, 53, 54, 55, 56, 57, 97, 98, 99, 100, 101, 102, 65, 66, 67, 68, 69,
    70] ↔ 48 ≤ p ∧ p ≤ 57 ∨ 65 ≤ p ∧ p ≤ 70 ∨ 97 ≤ p ∧ p ≤ 102
  simp only [List.mem_cons, List.not_mem_nil, or_false]
  omega

theorem hexValue_lt {p : Nat} (h : 48 ≤ p ∧ p ≤ 57 ∨ 65 ≤ p ∧ p ≤ 70 ∨ 97 ≤ p ∧ p ≤ 102) :
    hexValue p < 16 := by
  change (if 97 ≤ p then p - 87 else if 65 ≤ p then p - 55 else p - 48) < 16
  split
  · omega
  · split <;> omega

/-- Four hexadecimal digits denote a code point. -/
theorem unicode_tokens {a b c d : CodePoint} (ha : IsHexDigit a) (hb : IsHexDigit b)
    (hc : IsHexDigit c) (hd : IsHexDigit d) :
    unicode (.list [token a, token b, token c, token d]) = .ok (token (hexadecimal a b c d)) := by
  have digits : joined (.list [token a, token b, token c, token d]) = ⟨[a, b, c, d]⟩ :=
    joined_tokens [a, b, c, d]
  have number : hexNumber ⟨[a, b, c, d]⟩ = hexadecimal a b c d := by
    simp [hexNumber, hexadecimal]
  have small : hexadecimal a b c d < 0x110000 := by
    have := hexValue_lt ha
    have := hexValue_lt hb
    have := hexValue_lt hc
    have := hexValue_lt hd
    change 16 * (16 * (16 * hexValue a + hexValue b) + hexValue c) + hexValue d < 0x110000
    omega
  rw [unicode, digits]
  simp only [number, if_pos small]
  rfl

theorem recognises_long {S : List CodePoint → Prop} :
    (tree (Whole.long : Grammar W)).Recognises σ token n (fun p => .value (token p))
      (fun w p => ∃ a b c d, IsHexDigit a ∧ IsHexDigit b ∧ IsHexDigit c ∧ IsHexDigit d ∧
        w = [117, a, b, c, d] ∧ p = hexadecimal a b c d) S := by
  have digit {S : List CodePoint → Prop} : (tree (Part.hexDigit : Grammar W)).Recognises σ token n
      (fun p => .value (token p)) (.one IsHexDigit) S := recognises_charIn hexDigit_iff
  have none : (Core.noItems : Core W).Recognises σ token n (fun _ : Unit => .items [])
      (.nothing ()) S := recognises_pure (.items .nil)
  -- One digit in front of those behind it.
  have more {γ : Type} {a : Core W} {f : γ → List CodePoint} {L : Phrases CodePoint γ}
      (ha : a.Recognises σ token n (fun x => .items ((f x).map token)) L S) :=
    recognises_seq (k := .cons)
      (g := fun x : CodePoint × γ => .items ((x.1 :: f x.2).map token)) (digit (S := fun _ => True))
      ha (fun _ _ => .cons) (fun _ _ _ _ _ => trivial) fun _ _ _ => Nat.le_add_right n _
  have four := more (more (more (more (f := fun _ => []) none)))
  have listed := recognises_map (f := Build.listOf)
    (φ := fun x => (x.1, x.2.1, x.2.2.1, x.2.2.2.1))
    (g := fun x => .value (.list [token x.1, token x.2.1, token x.2.2.1, token x.2.2.2])) four
    fun _ _ _ => maps_listOf
  have both := recognises_seq (k := .second)
    (g := fun x : Unit × CodePoint × CodePoint × CodePoint × CodePoint =>
      .value (.list [token x.2.1, token x.2.2.1, token x.2.2.2.1, token x.2.2.2.2]))
    (recognises_skip (S := fun _ => True) 'u') listed (fun _ _ => .second)
    (fun _ _ _ _ _ => trivial) fun _ _ _ => Nat.le_add_right n _
  have long := recognises_map (f := fun v => .ofExcept (unicode v))
    (φ := fun x => hexadecimal x.2.1 x.2.2.1 x.2.2.2.1 x.2.2.2.2)
    (g := fun p => .value (token p)) both fun w x hx => by
      obtain ⟨-, ⟨⟨ha⟩, ⟨hb⟩, ⟨hc⟩, ⟨hd⟩, ⟨⟩⟩⟩ := hx
      exact maps_checked (unicode_tokens ha hb hc hd)
  refine long.as (fun w p hw => ⟨p, ?_, rfl⟩) (fun w p hw => ⟨p, ?_, rfl⟩) fun _ h => h
  · obtain ⟨rfl, ⟨⟨ha⟩, ⟨hb⟩, ⟨hc⟩, ⟨hd⟩, ⟨⟩⟩⟩ := hw
    exact ⟨_, _, _, _, ha, hb, hc, hd, rfl, rfl⟩
  · obtain ⟨a, b, c, d, ha, hb, hc, hd, rfl, rfl⟩ := hw
    refine .mk (v := ((), a, b, c, d)) (.mk (u := [117]) rfl (.mk (v := (a, b, c, d, ())) ?_))
    exact .mk (u := [a]) (.mk ha) (.mk (u := [b]) (.mk hb) (.mk (u := [c]) (.mk hc)
      (.mk (u := [d]) (.mk hd) .mk)))

/-- The characters of strings that are written as escapes. -/
def Escape : Phrases CodePoint CodePoint := fun w p => Character w p ∧ ∃ u, w = 92 :: u

theorem recognises_escaped {S : List CodePoint → Prop} :
    (tree (Whole.escaped : Grammar W)).Recognises σ token n (fun p => .value (token p)) Escape S
    := by
  -- The letter u is not a short escape, so it tells the two kinds apart.
  have either := recognises_alt (S := S) (recognises_short (W := W) (σ := σ) (n := n))
    recognises_long ((starts_charIn short_iff).map _) fun w p rest hw _ => by
      obtain ⟨a, b, c, d, -, -, -, -, rfl, -⟩ := hw
      refine follows_cons.mpr ?_
      rintro ⟨q, ⟨⟩⟩
  have escaped := recognises_seq (k := .second)
    (g := fun x : Unit × CodePoint => .value (token x.2))
    (recognises_skip (S := fun _ => True) '\x5c') either (fun _ _ => .second)
    (fun _ _ _ _ _ => trivial) fun _ _ _ => Nat.le_add_right n _
  refine escaped.as (fun w x hw => ⟨x.2, ?_, rfl⟩) (fun w p hw => ⟨((), p), ?_, rfl⟩) fun _ h => h
  · obtain ⟨rfl, ⟨c, rfl, h⟩ | ⟨a, b, c, d, ha, hb, hc, hd, rfl, rfl⟩⟩ := hw
    · exact ⟨.short h, _, rfl⟩
    · exact ⟨.long ha hb hc hd, _, rfl⟩
  · obtain ⟨hw, u, hu⟩ := hw
    cases hw with
    | plain _ backslash => exact absurd (List.cons.inj hu).1 backslash
    | short h => exact .mk (u := [92]) rfl (.left ⟨_, rfl, h⟩)
    | long ha hb hc hd =>
      exact .mk (u := [92]) rfl (.right ⟨_, _, _, _, ha, hb, hc, hd, rfl, rfl⟩)

theorem recognises_character {S : List CodePoint → Prop} :
    (Core.alt (tree Part.plain) (tree Whole.escaped) : Core W).Recognises σ token n
      (fun p => .value (token p)) Character S := by
  have plain : (tree (Part.plain : Grammar W)).Recognises σ token n (fun p => .value (token p))
      (.one fun p => p ≠ 34 ∧ p ≠ 92) S := recognises_some fun p => always_done_iff (plain_iff p)
  have either := recognises_alt plain recognises_escaped
    (starts_some fun p => always_done_iff (plain_iff p)) fun w p rest hw _ => by
      obtain ⟨-, u, rfl⟩ := hw
      exact follows_cons.mpr fun h => h.2 rfl
  refine either.as (fun w p hw => ⟨p, ?_, rfl⟩) (fun w p hw => ⟨p, ?_, rfl⟩) fun _ h => h
  · rcases hw with ⟨⟨hp⟩⟩ | ⟨hw, -⟩
    · exact .plain hp.1 hp.2
    · exact hw
  · cases hw with
    | plain quote backslash => exact .left (.mk ⟨quote, backslash⟩)
    | short h => exact .right ⟨.short h, _, rfl⟩
    | long ha hb hc hd => exact .right ⟨.long ha hb hc hd, _, rfl⟩

/-- Characters do not start with a quote. -/
theorem starts_character :
    (Core.alt (tree Part.plain) (tree Whole.escaped) : Core W).Starts σ token (· ≠ 34) := by
  have escaped : (tree (Whole.escaped : Grammar W)).Starts σ token (· = 92) :=
    (starts_char '\x5c').ignore.seq _ _
  have plain : (tree (Part.plain : Grammar W)).Starts σ token fun p => p ≠ 34 ∧ p ≠ 92 :=
    starts_some fun p => always_done_iff (plain_iff p)
  intro xs hxs
  refine plain.alt escaped xs (hxs.mono fun p h => ?_)
  obtain rfl := not_not.mp h
  exact fun h => h.elim (fun h => h.1 rfl) (by simp)

/-- A quote ends a string; there is none in front of its end. -/
theorem recognises_string :
    (tree (Whole.string : Grammar W)).Recognises σ token n
      (fun ps => .value (.text ⟨ps⟩)) (fun w ps => ∃ u b, IsString u ps ∧ Blanks b ∧ w = u ++ b)
      (Follows fun p => ¬IsBlank p) := by
  have strict : ∀ w p, Character w p → w ≠ [] := by
    intro w p hw
    cases hw <;> exact List.cons_ne_nil _ _
  -- No character of a string is a bare quote, so the repetition ends at the closing one.
  have many := recognises_many (S := Follows fun p => p = 34)
    (recognises_character (W := W) (σ := σ) (n := n) (S := fun _ => True)) strict starts_character
    (fun _ h => h.mono fun _ hp ne => ne hp) (fun _ _ => trivial) fun _ _ _ _ => trivial
  have listed := recognises_map (f := Build.listOf) (φ := id)
    (g := fun ps => .value (.list (ps.map token))) many fun _ _ _ => maps_listOf
  have opened := recognises_seq (k := .second)
    (g := fun x : Unit × List CodePoint => .value (.list (x.2.map token)))
    (recognises_skip (S := fun _ => True) '\x22') listed (fun _ _ => .second)
    (fun _ _ _ _ _ => trivial) fun _ _ _ => Nat.le_add_right n _
  have closed := recognises_seq (k := .first)
    (g := fun x : (Unit × List CodePoint) × Unit => .value (.list (x.1.2.map token))) opened
    (recognises_skip (S := fun _ => True) '\x22') (fun _ _ => .first) (fun w _ rest hw _ => by
      subst hw
      exact follows_cons.mpr rfl) fun _ _ _ => Nat.le_add_right n _
  have texts := recognises_map (f := fun v => .done (.text (joined v))) (φ := fun x => x.1.2)
    (g := fun ps => .value (.text ⟨ps⟩)) closed fun _ x _ => by
      have maps := maps_done (σ := σ) (v := .list (x.1.2.map token))
        (f := fun v => .text (joined v))
      rw [joined_tokens] at maps
      exact maps
  have lexeme := recognises_lexeme (P := fun _ => True) (texts.follows fun _ _ => trivial)
    fun _ _ => trivial
  refine lexeme.as (fun w ps hw => ⟨ps, ?_, rfl⟩) (fun w ps hw => ⟨ps, ?_, rfl⟩) fun _ h =>
    h.mono fun _ h => ⟨trivial, h⟩
  · obtain ⟨_, b, ⟨⟨⟨rfl, ⟨hu⟩⟩, rfl⟩⟩, hb, rfl⟩ := hw
    exact ⟨_, b, .mk hu, hb, rfl⟩
  · obtain ⟨_, b, ⟨hu⟩, hb, rfl⟩ := hw
    refine ⟨_, b, ?_, hb, rfl⟩
    exact .mk (v := (((), ps), ()))
      (.mk (u := 34 :: _) (.mk (u := [34]) rfl (.mk (v := ps) hu)) rfl)

theorem starts_string : (tree (Whole.string : Grammar W)).Starts σ token (· = 34) :=
  ((((starts_char '\x22').ignore.seq _ _).seq _ _).map _).seq _ _

end

end ResumableParsing.Json
