import ResumableParsing.Proofs.Json.Tokens

/-!
# Recognising JSON documents

Values refer to themselves: the parser of values is declared first, and defined as a choice whose
parts use it. What it recognises is found by induction on the length of the input, because a
bracket or a brace is taken before the values inside are read.

* `Json.Whole.anyValue`, `Json.Whole.whole`: the parts that refer to the parser of values
* `Json.recognises_enclosed`: arrays and objects, given their elements
* `Json.branch_anyValue`: the choice between the kinds of values, told apart by their first tokens
* `Json.recognises_value`: values
* `Json.reads_document`: whole documents
-/

namespace ResumableParsing.Json

variable {W : Type}

/-! ## The parts that refer to values -/

namespace Whole

def member (value : ParserId) : Grammar W := Part.member blanks string (.ref value)

def object (value : ParserId) : Grammar W := Part.object blanks (member value)

def array (value : ParserId) : Grammar W := Part.array blanks (.ref value)

def anyValue (convert : Text → Except Fault Value) (value : ParserId) : Grammar W :=
  Part.anyValue (object value) (array value) string (number convert) (word "null" .none)
    (word "true" (.bool true)) (word "false" (.bool false))

def whole (value : ParserId) : Grammar W := Part.whole blanks (.ref value)

end Whole

/-- What may stand behind a value: a comma, a bracket or a brace. -/
def EndsValue (p : CodePoint) : Prop := p = 44 ∨ p = 93 ∨ p = 125

/-- The first tokens of values. -/
def BeginsValue (p : CodePoint) : Prop :=
  (((((p = 123 ∨ p = 91) ∨ p = 34) ∨ p = 45 ∨ IsDigit p) ∨ p = 110) ∨ p = 116) ∨ p = 102

theorem not_isBlank_of_endsValue {p : CodePoint} (h : EndsValue p) : ¬IsBlank p := by
  rcases h with rfl | rfl | rfl <;> simp [IsBlank]

theorem endsNumber_of_endsValue {p : CodePoint} (h : EndsValue p) : EndsNumber p := by
  rcases h with rfl | rfl | rfl <;> simp [EndsNumber, IsDigit]

theorem not_isBlank_of_beginsValue {p : Nat} (h : BeginsValue p) :
    ¬IsBlank p ∧ p ≠ 93 := by
  change (((((p = 123 ∨ p = 91) ∨ p = 34) ∨ p = 45 ∨ 48 ≤ p ∧ p ≤ 57) ∨ p = 110) ∨ p = 116) ∨
    p = 102 at h
  change ¬(p = 32 ∨ p = 9 ∨ p = 13 ∨ p = 10) ∧ p ≠ 93
  omega

section

variable {β : Type} {σ : Store W} {n : Nat} {a : Core W} {L : Phrases CodePoint β}
  {V : Phrases CodePoint Value} {Q : CodePoint → Prop} {value : ParserId}
  {number : NumberText → Value} {convert : Text → Except Fault Value}

/-! ## Arrays and objects -/

theorem Symbol.first {c : CodePoint} {w : List CodePoint} {x : Unit} (h : Symbol c w x) :
    ∃ u, w = c :: u := by
  obtain ⟨_⟩ := h
  exact ⟨_, rfl⟩

/-- The tree of a parser for texts between two characters, separated by commas. -/
def enclosed (l r : Char) (f : Value → Value) (a : Core W) : Core W :=
  .map
    (.seq
      (.seq (.ignore (tree (Part.operator Whole.blanks l)))
        (.map (.optional (.sepBy1 a (tree (Part.operator Whole.blanks ','))) (.stream .nil))
          Build.listOf) .second)
      (.ignore (tree (Part.operator Whole.blanks r))) .first)
    fun v => .done (f v)

/-- The opening character is taken before the texts are read. -/
theorem recognises_enclosed (l : Char) {r : Char} (f : Value → Value) {h : β → Value}
    (ha : a.Recognises σ token n (fun v => .value (h v)) L (Follows EndsValue))
    (starts : a.Starts σ token Q) (first : ∀ w v, L w v → ∃ p u, w = p :: u ∧ Q p)
    (hr : EndsValue r.toNat) (comma : r.toNat ≠ 44) (hQ : ∀ p, Q p → ¬IsBlank p ∧ p ≠ r.toNat) :
    (enclosed l r f a).Recognises σ token (n + 1)
      (fun vs => .value (f (.list (vs.map h)))) (Enclosed l.toNat r.toNat L)
      (Follows fun p => ¬IsBlank p) := by
  -- Behind a comma stands one of the texts, and behind each of them a comma or the end.
  have behind_comma : ∀ w v rest, L w v → Follows (fun p => ¬IsBlank p) (w ++ rest) := by
    intro w v rest hw
    obtain ⟨p, u, rfl, hp⟩ := first w v hw
    exact follows_cons.mpr (hQ p hp).1
  have behind_text : ∀ w x rest, Symbol 44 w x → Follows EndsValue (w ++ rest) := by
    intro w x rest hw
    obtain ⟨u, rfl⟩ := hw.first
    exact follows_cons.mpr (.inl rfl)
  have some := recognises_sepBy1 (S := Follows (· = r.toNat)) ha
    (recognises_operator (W := W) (σ := σ) (n := n) ',')
    (fun w x hw => by
      obtain ⟨u, rfl⟩ := hw.first
      exact List.cons_ne_nil _ _)
    (starts_operator ',') (fun _ h => h.mono fun p hp => hp ▸ comma)
    (fun _ h => h.mono fun p hp => hp ▸ hr) behind_text behind_comma
  have any := recognises_sepBy starts (fun _ h => h.mono fun p hp hq => (hQ p hq).2 hp)
    (.items .nil) some
  have listed := recognises_map (f := Build.listOf) (φ := id)
    (g := fun vs => .value (.list (vs.map h))) any fun _ _ _ => maps_listOf
  have opened := recognises_seq (n := n + 1) (k := .second)
    (g := fun x : Unit × List β => .value (.list (x.2.map h)))
    (recognises_ignore (recognises_operator l)) listed (fun _ _ => .second)
    (fun w vs rest hw hrest => by
      obtain ⟨hw⟩ := hw
      cases hw with
      | none => exact hrest.mono fun p hp => hp ▸ not_isBlank_of_endsValue hr
      | some hw =>
        cases hw with
        | one hL => exact behind_comma _ _ _ hL
        | more hL _ _ =>
          rw [List.append_assoc]
          exact behind_comma _ _ _ hL)
    (fun w x hw => by
      obtain ⟨u, rfl⟩ := hw.first
      rw [List.length_cons]
      omega)
  have closed := recognises_seq (k := .first)
    (g := fun x : (Unit × List β) × Unit => .value (.list (x.1.2.map h))) opened
    (recognises_ignore (recognises_operator r)) (fun _ _ => .first)
    (fun w x rest hw _ => by
      obtain ⟨u, rfl⟩ := hw.first
      exact follows_cons.mpr rfl) fun _ _ _ => Nat.le_add_right _ _
  have mapped := recognises_map (f := fun v => .done (f v)) (φ := fun x => x.1.2)
    (g := fun vs => .value (f (.list (vs.map h)))) closed fun _ _ _ => maps_done
  refine mapped.as (fun w vs hw => ⟨vs, ?_, rfl⟩) (fun w vs hw => ⟨vs, ?_, rfl⟩) fun _ h => h
  · obtain ⟨⟨⟨hl, ⟨hw⟩⟩, hr⟩⟩ := hw
    rw [List.append_assoc]
    exact .mk hl hw hr
  · obtain ⟨hl, hw, hr⟩ := hw
    rw [← List.append_assoc]
    exact .mk (v := (((), vs), ())) (.mk (.mk hl (.mk (v := vs) hw)) hr)

theorem starts_enclosed (l r : Char) (f : Value → Value) (a : Core W) :
    (enclosed l r f a).Starts σ token (· = l.toNat) :=
  (((starts_operator l).ignore.seq _ _).seq _ _).map _

theorem Enclosed.first {l r : CodePoint} {w : List CodePoint} {vs : List β}
    (h : Enclosed l r L w vs) : ∃ p u, w = p :: u ∧ p = l := by
  obtain ⟨hl, _, _⟩ := h
  obtain ⟨u, rfl⟩ := hl.first
  exact ⟨l, _, rfl, rfl⟩

theorem IsString.first {w ps : List CodePoint} (h : IsString w ps) : ∃ u, w = 34 :: u := by
  obtain ⟨_⟩ := h
  exact ⟨_, rfl⟩

theorem Member.first {w : List CodePoint} {m : List CodePoint × Value} (h : Member V w m) :
    ∃ p u, w = p :: u ∧ p = 34 := by
  obtain ⟨key, _, _, _⟩ := h
  obtain ⟨u, rfl⟩ := key.first
  exact ⟨34, _, rfl, rfl⟩

theorem starts_member : (tree (Whole.member value : Grammar W)).Starts σ token (· = 34) :=
  (starts_string.seq _ _).seq _ _

theorem recognises_member
    (hv : (Core.ref value).Recognises σ token n (fun v => .value v) V (Follows EndsValue))
    (first : ∀ w v, V w v → ∃ p u, w = p :: u ∧ BeginsValue p) :
    (tree (Whole.member value : Grammar W)).Recognises σ token n
      (fun m => .value (.group [.text ⟨m.1⟩, m.2])) (Member V) (Follows EndsValue) := by
  have key := recognises_seq (k := .first)
    (g := fun x : List CodePoint × Unit => .value (.text ⟨x.1⟩))
    (recognises_string (W := W) (σ := σ) (n := n)) (recognises_ignore (recognises_operator ':'))
    (fun _ _ => .first)
    (fun w x rest hw _ => by
      obtain ⟨u, rfl⟩ := hw.first
      exact follows_cons.mpr (by simp [IsBlank])) fun _ _ _ => Nat.le_add_right _ _
  have both := recognises_seq (k := .group)
    (g := fun x : (List CodePoint × Unit) × Value => .value (.group [.text ⟨x.1.1⟩, x.2])) key hv
    (fun _ _ => .group)
    (fun w v rest hw _ => by
      obtain ⟨p, u, rfl, hp⟩ := first w v hw
      exact follows_cons.mpr (not_isBlank_of_beginsValue hp).1) fun _ _ _ => Nat.le_add_right _ _
  -- Key, colon and value are the same phrases, only grouped in another way.
  refine both.as (fun w x hw => ⟨(x.1.1, x.2), ?_, rfl⟩) (fun w m hw => ⟨((m.1, ()), m.2), ?_, rfl⟩)
    fun _ h => h
  · obtain ⟨⟨⟨k, b, hk, hb, rfl⟩, hs⟩, hv⟩ := hw
    rw [List.append_assoc, List.append_assoc]
    exact .mk hk hb hs hv
  · obtain ⟨hk, hb, hs, hv⟩ := hw
    rw [← List.append_assoc, ← List.append_assoc]
    exact .mk (.mk ⟨_, _, hk, hb, rfl⟩ hs) hv

/-! ## Values of all kinds -/

theorem branch_array
    (hv : (Core.ref value).Recognises σ token n (fun v => .value v) V (Follows EndsValue))
    (starts : (Core.ref value).Starts σ token BeginsValue)
    (first : ∀ w v, V w v → ∃ p u, w = p :: u ∧ BeginsValue p) :
    (tree (Whole.array value)).Branch σ token (n + 1) (fun v => .value v)
      ((Enclosed 91 93 V).map .list) (Follows EndsValue) (· = 91) where
  recognises := by
    have array := recognises_enclosed '[' (r := ']') id hv starts first (.inr (.inl rfl))
      (by decide) fun p hp => not_isBlank_of_beginsValue hp
    refine array.as (fun w vs hw => ⟨_, .mk hw, ?_⟩) (fun w v hw => ?_) fun _ h =>
      h.mono fun _ => not_isBlank_of_endsValue
    · rw [List.map_id']
      rfl
    · obtain ⟨hw⟩ := hw
      refine ⟨_, hw, ?_⟩
      rw [List.map_id']
      rfl
  starts := starts_enclosed '[' ']' id (.ref value)
  first w v hw := by
    obtain ⟨hw⟩ := hw
    exact hw.first

theorem branch_object
    (hv : (Core.ref value).Recognises σ token n (fun v => .value v) V (Follows EndsValue))
    (first : ∀ w v, V w v → ∃ p u, w = p :: u ∧ BeginsValue p) :
    (tree (Whole.object value)).Branch σ token (n + 1) (fun v => .value v)
      ((Enclosed 123 125 (Member V)).map fun ms => .dict (entries ms)) (Follows EndsValue)
      (· = 123) where
  recognises := by
    have object := recognises_enclosed '\x7b' (r := '\x7d') Json.object
      (recognises_member hv first) starts_member (fun w m hw => hw.first) (.inr (.inr rfl))
      (by decide) fun p hp => by
        subst hp
        exact ⟨by simp [IsBlank], by decide⟩
    refine object.as (fun w ms hw => ⟨_, .mk hw, ?_⟩) (fun w v hw => ?_) fun _ h =>
      h.mono fun _ => not_isBlank_of_endsValue
    · rw [object_members]
    · obtain ⟨hw⟩ := hw
      exact ⟨_, hw, congrArg _ (object_members _)⟩
  starts := starts_enclosed '\x7b' '\x7d' Json.object (tree (Whole.member value))
  first w v hw := by
    obtain ⟨hw⟩ := hw
    exact hw.first

/-- Strings as values, with the blanks behind them. -/
inductive StringValue : Phrases CodePoint Value where
  | mk {u ps b : List CodePoint} : IsString u ps → Blanks b → StringValue (u ++ b) (.text ⟨ps⟩)

theorem branch_string : (tree (Whole.string : Grammar W)).Branch σ token n (fun v => .value v)
    StringValue (Follows EndsValue) (· = 34) where
  recognises := by
    refine recognises_string.as (fun w ps hw => ⟨.text ⟨ps⟩, ?_, rfl⟩) (fun w v hw => ?_) fun _ h =>
      h.mono fun _ => not_isBlank_of_endsValue
    · obtain ⟨u, b, hu, hb, rfl⟩ := hw
      exact .mk hu hb
    · obtain ⟨hu, hb⟩ := hw
      exact ⟨_, ⟨_, _, hu, hb, rfl⟩, rfl⟩
  starts := starts_string
  first w v hw := by
    obtain ⟨hu, _⟩ := hw
    obtain ⟨u, rfl⟩ := hu.first
    exact ⟨34, _, rfl, rfl⟩

/-- Numbers as values, with the blanks behind them. -/
inductive NumberValue (number : NumberText → Value) : Phrases CodePoint Value where
  | mk (x : NumberText) {b : List CodePoint} : Blanks b →
      NumberValue number (x.points ++ b) (number x)

theorem NumberText.first (x : NumberText) : ∃ p u, x.points = p :: u ∧ (p = 45 ∨ IsDigit p) := by
  obtain ⟨minus, whole, fraction, power, digits, places⟩ := x
  cases minus with
  | true => exact ⟨45, _, rfl, .inl rfl⟩
  | false =>
    cases whole with
    | nil => exact absurd rfl digits.1
    | cons p ps => exact ⟨p, _, rfl, .inr (digits.2 p List.mem_cons_self)⟩

theorem branch_number (h : ∀ x : NumberText, convert ⟨x.points⟩ = .ok (number x)) :
    (tree (Whole.number convert : Grammar W)).Branch σ token n (fun v => .value v)
      (NumberValue number) (Follows EndsValue) fun p => p = 45 ∨ IsDigit p where
  recognises := by
    refine (recognises_number h).as (fun w v hw => ⟨v, ?_, rfl⟩) (fun w v hw => ⟨v, ?_, rfl⟩)
      fun _ h => h.mono fun _ hp => ⟨endsNumber_of_endsValue hp, not_isBlank_of_endsValue hp⟩
    · obtain ⟨x, b, hb, rfl, rfl⟩ := hw
      exact .mk x hb
    · obtain ⟨x, hb⟩ := hw
      exact ⟨x, _, hb, rfl, rfl⟩
  starts := starts_number
  first w v hw := by
    obtain ⟨x, _⟩ := hw
    obtain ⟨p, u, e, hp⟩ := x.first
    exact ⟨p, _, congrArg (· ++ _) e, hp⟩

/-- A word as a value, with the blanks behind it. -/
inductive WordValue (w : String) (v : Value) : Phrases CodePoint Value where
  | mk {b : List CodePoint} : Blanks b → WordValue w v ((Text.ofString w).points ++ b) v

theorem branch_word {w : String} {c : Char} {cs : List Char} (h : w.toList = c :: cs) (v : Value) :
    (tree (Whole.word w v : Grammar W)).Branch σ token n (fun v => .value v) (WordValue w v)
      (Follows EndsValue) (· = c.toNat) where
  recognises := by
    refine (recognises_word w v).as (fun u _ hu => ⟨v, ?_, rfl⟩) (fun u x hu => ⟨(), ?_⟩) fun _ h =>
      h.mono fun _ => not_isBlank_of_endsValue
    · obtain ⟨b, hb, rfl⟩ := hu
      exact .mk hb
    · obtain ⟨hb⟩ := hu
      exact ⟨⟨_, hb, rfl⟩, rfl⟩
  starts := starts_word h v
  first u x hu := by
    obtain ⟨_⟩ := hu
    exact ⟨c.toNat, _, congrArg (fun cs : List Char => cs.map Char.toNat ++ _) h, rfl⟩

/-- The values that the parts of a value stand for. -/
def Kinds (number : NumberText → Value) (V : Phrases CodePoint Value) : Phrases CodePoint Value :=
  (((((((Enclosed 123 125 (Member V)).map fun ms => Value.dict (entries ms)).or
    ((Enclosed 91 93 V).map Value.list)).or StringValue).or (NumberValue number)).or
      (WordValue "null" .none)).or (WordValue "true" (.bool true))).or
        (WordValue "false" (.bool false))

theorem kinds_iff {w : List CodePoint} {v : Value} :
    Kinds number (IsValue number) w v ↔ IsValue number w v := by
  constructor
  · rintro ((((((⟨⟨h⟩⟩ | ⟨⟨h⟩⟩) | ⟨hu, hb⟩) | ⟨x, hb⟩) | ⟨⟨hb⟩⟩) | ⟨⟨hb⟩⟩) | ⟨⟨hb⟩⟩)
    · exact .object h
    · exact .array h
    · exact .string hu hb
    · exact .number x hb
    · exact .null hb
    · exact .true hb
    · exact .false hb
  · intro h
    cases h with
    | object h => exact .left (.left (.left (.left (.left (.left (.mk h))))))
    | array h => exact .left (.left (.left (.left (.left (.right (.mk h))))))
    | string hu hb => exact .left (.left (.left (.left (.right (.mk hu hb)))))
    | number x hb => exact .left (.left (.left (.right (.mk x hb))))
    | null hb => exact .left (.left (.right (.mk hb)))
    | true hb => exact .left (.right (.mk hb))
    | false hb => exact .right (.mk hb)

theorem starts_anyValue :
    (tree (Whole.anyValue convert value)).Starts σ token BeginsValue :=
  (((((starts_enclosed '\x7b' '\x7d' Json.object (tree (Whole.member value))).alt
    (starts_enclosed '[' ']' id (.ref value))).alt starts_string).alt starts_number).alt
      (starts_word (c := 'n') rfl .none)).alt (starts_word (c := 't') rfl (.bool true)) |>.alt
        (starts_word (c := 'f') rfl (.bool false))

/-- No two kinds of values start with the same token. -/
theorem branch_anyValue (h : ∀ x : NumberText, convert ⟨x.points⟩ = .ok (number x))
    (hv : (Core.ref value).Recognises σ token n (fun v => .value v) V (Follows EndsValue))
    (starts : (Core.ref value).Starts σ token BeginsValue)
    (first : ∀ w v, V w v → ∃ p u, w = p :: u ∧ BeginsValue p) :
    (tree (Whole.anyValue convert value)).Branch σ token (n + 1) (fun v => .value v)
      (Kinds number V) (Follows EndsValue) BeginsValue := by
  have other : ∀ {P : CodePoint → Prop} {c : CodePoint}, ¬P c → ∀ p, p = c → ¬P p := by
    rintro P c hc p rfl
    exact hc
  have array := (branch_object hv first).alt (branch_array hv starts first) (other (by decide))
  have string := array.alt branch_string (other (by decide))
  have number := string.alt (branch_number h) fun (p : Nat) (hp : p = 45 ∨ 48 ≤ p ∧ p ≤ 57) => by
    change ¬((p = 123 ∨ p = 91) ∨ p = 34)
    omega
  have null := number.alt (branch_word (w := "null") (c := 'n') rfl .none) (other ?_)
  · have true := null.alt (branch_word (w := "true") (c := 't') rfl (.bool true)) (other ?_)
    · exact true.alt (branch_word (w := "false") (c := 'f') rfl (.bool false))
        (other (by simp [IsDigit]))
    · simp [IsDigit]
  · simp [IsDigit]

theorem IsValue.first {w : List CodePoint} {v : Value} (h : IsValue number w v) :
    ∃ p u, w = p :: u ∧ BeginsValue p := by
  cases h with
  | null _ => exact ⟨110, _, rfl, .inl (.inl (.inr rfl))⟩
  | true _ => exact ⟨116, _, rfl, .inl (.inr rfl)⟩
  | false _ => exact ⟨102, _, rfl, .inr rfl⟩
  | number x _ =>
    obtain ⟨p, u, e, hp⟩ := x.first
    exact ⟨p, _, congrArg (· ++ _) e, .inl (.inl (.inl (.inr hp)))⟩
  | string hw _ =>
    obtain ⟨u, rfl⟩ := hw.first
    exact ⟨34, _, rfl, .inl (.inl (.inl (.inl (.inr rfl))))⟩
  | array hw =>
    obtain ⟨p, u, e, hp⟩ := hw.first
    exact ⟨p, u, e, .inl (.inl (.inl (.inl (.inl (.inr hp)))))⟩
  | object hw =>
    obtain ⟨p, u, e, hp⟩ := hw.first
    exact ⟨p, u, e, .inl (.inl (.inl (.inl (.inl (.inl hp)))))⟩

/-- The parser of values is defined as the choice between the kinds of values. -/
theorem recognises_value (h : ∀ x : NumberText, convert ⟨x.points⟩ = .ok (number x))
    (hv : (Core.copy (tree (Whole.anyValue convert value))).Built σ value) (n : Nat) :
    (Core.ref value).Recognises σ token n (fun v => .value v) (IsValue number)
      (Follows EndsValue) := by
  -- The induction is on the length of the input.
  induction n with
  | zero => exact recognises_zero
  | succ n ih =>
    have branch := branch_anyValue h ih (starts_anyValue.copy.ref hv) fun w v hw => hw.first
    refine (recognises_ref hv (recognises_copy branch.recognises)).as (fun w v hw => ⟨v, ?_, rfl⟩)
      (fun w v hw => ⟨v, ?_, rfl⟩) fun _ h => h
    · exact kinds_iff.mp hw
    · exact kinds_iff.mpr hw

/-! ## Documents -/

/-- Blanks, and then a value. -/
theorem recognises_padded (h : ∀ x : NumberText, convert ⟨x.points⟩ = .ok (number x))
    (hv : (Core.copy (tree (Whole.anyValue convert value))).Built σ value) (n : Nat) :
    (Core.seq (tree Whole.blanks) (.ref value) .second).Recognises σ token n (fun v => .value v)
      (IsDocument number) (Follows EndsValue) := by
  have both := recognises_seq (k := .second) (g := fun x : Unit × Value => .value x.2)
    (recognises_blanks (W := W) (σ := σ) (n := n)) (recognises_value h hv n) (fun _ _ => .second)
    (fun w v rest hw _ => by
      obtain ⟨p, u, rfl, hp⟩ := hw.first
      exact follows_cons.mpr (not_isBlank_of_beginsValue hp).1) fun _ _ _ => Nat.le_add_right _ _
  refine both.as (fun w x hw => ⟨x.2, ?_, rfl⟩) (fun w v hw => ⟨((), v), ?_, rfl⟩) fun _ h => h
  · obtain ⟨hb, hv⟩ := hw
    exact .mk hb hv
  · obtain ⟨hb, hv⟩ := hw
    exact .mk hb hv

/-- A document is taken to its end. -/
theorem reads_document (h : ∀ x : NumberText, convert ⟨x.points⟩ = .ok (number x))
    (hv : (Core.copy (tree (Whole.anyValue convert value))).Built σ value)
    (finished : ParserId.finished.Performs σ (.finished .finished)) {xs : List CodePoint}
    {v : Value} (hx : IsDocument number xs v) :
    ∃ c, (tree (Whole.whole value)).Reads σ token xs (.ok c (.value v) []) := by
  obtain ⟨c, reads⟩ := (recognises_padded h hv (xs.length + 1)).complete xs v []
    (by rw [List.append_nil]; exact Nat.lt_succ_self _) hx (follows_nil _)
  rw [List.append_nil] at reads
  exact ⟨c || false, .seq reads (.ignore (.finished finished)) .first⟩

/-- What is taken is a document; everything else is refused. -/
theorem document_or_refused (h : ∀ x : NumberText, convert ⟨x.points⟩ = .ok (number x))
    (hv : (Core.copy (tree (Whole.anyValue convert value))).Built σ value)
    (finished : ParserId.finished.Performs σ (.finished .finished)) (xs : List CodePoint) :
    (∃ v, IsDocument number xs v) ∨
      ∃ c, (tree (Whole.whole value)).Reads σ token xs (.err c) := by
  obtain ⟨r, reads, takes⟩ :=
    (recognises_padded h hv (xs.length + 1)).sound xs (Nat.lt_succ_self _)
  cases takes with
  | err => exact .inr ⟨_, .seqFirst reads⟩
  | @ok w rest v c hw =>
    cases rest with
    | nil =>
      rw [List.append_nil]
      exact .inl ⟨v, hw⟩
    | cons p rest =>
      -- Something stands behind the value, so this is not the end.
      exact .inr ⟨_, .seqSecond reads (.ignoreFails (.unfinished finished))⟩

end

end ResumableParsing.Json
