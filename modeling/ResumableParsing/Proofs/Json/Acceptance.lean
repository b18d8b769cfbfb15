import ResumableParsing.Proofs.Json.Documents

/-!
# The parser of JSON documents

The parts of the grammar are built one after another, each with references to those that are there
already. The parser of values is declared first, the parts refer to the declaration, and at last it
is defined. So all parsers are built as the trees say that stand for them, and the parser of
documents accepts the reference grammar.

* `Json.Expands`: building a part makes a parser of a grammar without references
* `Json.leaves_numberParser`, `Json.leaves_stringParser`, `Json.ends_documentWith`: all parts
* `Json.built_define`: the definition of values
* `Json.comes_parseText`: a parse comes to what the reading says
* `Json.documents_are_accepted`: the accepted texts are the documents
-/

namespace ResumableParsing.Json

variable {W : Type}

open Build (Leaves)

/-- In the store and all its extensions, building the part makes a parser of the other grammar, in
which other parsers are not referred to. -/
abbrev Expands (σ : Store W) (part whole : Grammar W) : Prop := part.Gives noMarks σ (tree whole)

section

variable {σ τ : Store W} {blanks digit digits fraction power hexDigit plain short long escaped
  string member : Grammar W}
  {convert : Text → Except Fault Value} {w : String} {v : Value} {p r value : ParserId} {a : Core W}

/-! ## Parts that are built -/

theorem expands_char (c : Char) : Expands σ (char c) (char c) := .token _

theorem expands_charIn (chars : String) : Expands σ (charIn chars) (charIn chars) := .one _

theorem expands_space : Expands σ Part.space Part.space := (expands_charIn _).named _

theorem expands_blanks {space : Grammar W} (h : Expands σ space Part.space) :
    Expands σ (Part.blanks space) Whole.blanks := h.many.skip

theorem expands_operator (hb : Expands σ blanks Whole.blanks) (c : Char) :
    Expands σ (Part.operator blanks c) (Part.operator Whole.blanks c) := (expands_char c).plus hb

theorem expands_word (hb : Expands σ blanks Whole.blanks) :
    Expands σ (Part.word blanks w v) (Whole.word w v) := by
  have chars : Expands σ (.sequence (w.toList.map char)) (.sequence (w.toList.map char)) :=
    .sequence fun g hg => by
      obtain ⟨c, -, rfl⟩ := List.mem_map.mp hg
      exact expands_char c
  exact ((chars.plus hb).map _).named w

theorem expands_digit : Expands σ Part.digit Part.digit := (expands_charIn _).named _

theorem expands_digits (h : Expands σ digit Part.digit) :
    Expands σ (Part.digits digit) Whole.digits := h.oneplus.listed.map _

theorem expands_fraction (h : Expands σ digits Whole.digits) :
    Expands σ (Part.fraction digits) Whole.fraction := ((expands_char '.').plus h).optional _

theorem expands_power (h : Expands σ digits Whole.digits) :
    Expands σ (Part.power digits) Whole.power :=
  (((expands_charIn "eE").plus ((expands_charIn "+-").optional _)).plus h).optional _

theorem expands_number (hb : Expands σ blanks Whole.blanks) (hd : Expands σ digits Whole.digits)
    (hf : Expands σ fraction Whole.fraction) (hp : Expands σ power Whole.power) :
    Expands σ (Part.number convert blanks digits fraction power) (Whole.number convert) :=
  ((((((expands_char '-').optional _).plus hd).plus hf).plus hp).map _).plus hb

theorem expands_hexDigit : Expands σ Part.hexDigit Part.hexDigit := (expands_charIn _).named _

theorem expands_plain : Expands σ Part.plain Part.plain := Grammar.Gives.named (.one _) _

theorem expands_short : Expands σ Part.short Part.short := (expands_charIn _).map _

theorem expands_long (h : Expands σ hexDigit Part.hexDigit) :
    Expands σ (Part.long hexDigit) Whole.long :=
  ((expands_char 'u').skip.plus (h.times 4).listed).map _

theorem expands_escaped (hs : Expands σ short Part.short) (hl : Expands σ long Whole.long) :
    Expands σ (Part.escaped short long) Whole.escaped :=
  (expands_char '\x5c').skip.plus (hs.or hl)

theorem expands_string (hb : Expands σ blanks Whole.blanks) (hp : Expands σ plain Part.plain)
    (he : Expands σ escaped Whole.escaped) :
    Expands σ (Part.string blanks plain escaped) Whole.string :=
  ((((expands_char '\x22').skip.plus (hp.or he).many.listed).plus
    (expands_char '\x22').skip).map _).plus hb

theorem expands_member {v : Grammar W} (hb : Expands σ blanks Whole.blanks)
    (hs : Expands σ string Whole.string) (hv : Expands σ v (.ref value)) :
    Expands σ (Part.member blanks string v) (Whole.member value) :=
  (hs.plus (expands_operator hb ':').skip).plus hv

theorem expands_object (hb : Expands σ blanks Whole.blanks)
    (hm : Expands σ member (Whole.member value)) :
    Expands σ (Part.object blanks member) (Whole.object value) :=
  Grammar.Gives.named ((((expands_operator hb '\x7b').skip.plus
    (hm.sepBy (expands_operator hb ',')).listed).plus (expands_operator hb '\x7d').skip).map _) _

theorem expands_array {v : Grammar W} (hb : Expands σ blanks Whole.blanks)
    (hv : Expands σ v (.ref value)) : Expands σ (Part.array blanks v) (Whole.array value) :=
  Grammar.Gives.named ((((expands_operator hb '[').skip.plus
    (hv.sepBy (expands_operator hb ',')).listed).plus (expands_operator hb ']').skip).map _) _

theorem expands_anyValue {object array number nullWord trueWord falseWord : Grammar W}
    (ho : Expands σ object (Whole.object value)) (ha : Expands σ array (Whole.array value))
    (hs : Expands σ string Whole.string) (hn : Expands σ number (Whole.number convert))
    (hnull : Expands σ nullWord (Whole.word "null" .none))
    (htrue : Expands σ trueWord (Whole.word "true" (.bool true)))
    (hfalse : Expands σ falseWord (Whole.word "false" (.bool false))) :
    Expands σ (Part.anyValue object array string number nullWord trueWord falseWord)
      (Whole.anyValue convert value) :=
  (((((ho.or ha).or hs).or hn).or hnull).or htrue).or hfalse

theorem expands_whole {v : Grammar W} (hb : Expands σ blanks Whole.blanks)
    (hv : Expands σ v (.ref value)) (hf : Expands σ .finished .finished) :
    Expands σ (Part.whole blanks v) (Whole.whole value) := (hb.plus hv).plus hf.skip

/-! ## Parsers that are built -/

/-- The parser is built from the grammar, with the parsers that it refers to. -/
abbrev Ready (σ : Store W) (g : Grammar W) (p : ParserId) : Prop := (tree g).Made noMarks σ p

theorem Expands.leaves {part whole : Grammar W} (h : Expands σ part whole) :
    Leaves σ part.build fun p τ => Ready τ whole p := h σ (.refl σ)

theorem leaves_numberParser (hb : Ready σ Whole.blanks p) :
    Leaves σ (numberParser convert p) fun q τ => Ready τ (Whole.number convert) q := by
  refine .bind expands_digit.leaves fun digit σ₁ k₁ hdigit => ?_
  refine .bind (expands_digits (.ref hdigit)).leaves fun digits σ₂ k₂ hdigits => ?_
  refine .bind (expands_fraction (.ref hdigits)).leaves fun fraction σ₃ k₃ hf => ?_
  refine .bind (expands_power (.ref (hdigits.later k₃))).leaves fun power σ₄ k₄ hp => ?_
  have hb := hb.later (((k₁.trans k₂).trans k₃).trans k₄)
  have hdigits := hdigits.later (k₃.trans k₄)
  exact (expands_number (.ref hb) (.ref hdigits) (.ref (hf.later k₄)) (.ref hp)).leaves

theorem leaves_stringParser (hb : Ready σ Whole.blanks p) :
    Leaves σ (stringParser p) fun q τ => Ready τ Whole.string q := by
  refine .bind expands_hexDigit.leaves fun hexDigit σ₁ k₁ hhex => ?_
  refine .bind expands_plain.leaves fun plain σ₂ k₂ hplain => ?_
  refine .bind expands_short.leaves fun short σ₃ k₃ hshort => ?_
  refine .bind (expands_long (.ref (hhex.later (k₂.trans k₃)))).leaves fun long σ₄ k₄ hlong => ?_
  refine .bind (expands_escaped (.ref (hshort.later k₄)) (.ref hlong)).leaves
    fun escaped σ₅ k₅ hescaped => ?_
  have hb := hb.later ((((k₁.trans k₂).trans k₃).trans k₄).trans k₅)
  have hplain := hplain.later ((k₃.trans k₄).trans k₅)
  exact (expands_string (.ref hb) (.ref hplain) (.ref hescaped)).leaves

/-- A parser that is declared. -/
theorem leaves_declared (name : String) : Leaves σ (Grammar.named .forward name).build fun p τ =>
    p.Waits τ ∧ Ready τ (.ref p) p := by
  obtain ⟨k, performs, marked⟩ := Leaves.body (σ := σ) "forward_decl()" fun _ => .undeclared
  obtain ⟨k', -⟩ := Leaves.alter (σ := (Build.forward σ).2) (Build.forward σ).1
    (f := fun c => { c with name := name }) (fun _ => ⟨rfl, rfl⟩) fun _ => rfl
  have waits : (Build.forward σ).1.Waits (Build.forward σ).2 := ⟨performs, owns_body _ _ σ⟩
  obtain ⟨c, hc, -⟩ := marked.later k'
  exact ⟨k.trans k', ⟨waits.performs.later k'.grows, waits.owns.later k'.grows⟩, .ref hc,
    marked.later k'⟩

/-! ## The definition of values -/

theorem lasting_blanks : (tree Whole.blanks : Core W).Lasting r := ⟨trivial, nofun⟩

theorem lasting_operator (c : Char) : (tree (Part.operator Whole.blanks c) : Core W).Lasting r :=
  ⟨trivial, lasting_blanks⟩

theorem lasting_word (w : String) (v : Value) : (tree (Whole.word w v) : Core W).Lasting r := by
  rw [tree_word]
  refine ⟨?_, lasting_blanks⟩
  induction w.toList with
  | nil => trivial
  | cons c cs ih => exact ⟨trivial, ih⟩

theorem lasting_digits : (tree Whole.digits : Core W).Lasting r := ⟨trivial, trivial⟩

theorem lasting_number : (tree (Whole.number convert) : Core W).Lasting r := by
  have sign : (Core.optional (tree (char '-')) .none : Core W).Lasting r := ⟨trivial, trivial⟩
  have fraction : (tree Whole.fraction : Core W).Lasting r := ⟨⟨trivial, lasting_digits⟩, trivial⟩
  have power : (tree Whole.power : Core W).Lasting r :=
    ⟨⟨⟨trivial, ⟨trivial, trivial⟩⟩, lasting_digits⟩, trivial⟩
  exact ⟨⟨⟨⟨sign, lasting_digits⟩, fraction⟩, power⟩, lasting_blanks⟩

theorem lasting_skip (c : Char) : (tree (.skip (char c)) : Core W).Lasting r := ⟨trivial, nofun⟩

theorem lasting_string : (tree Whole.string : Core W).Lasting r := by
  have long : (tree Whole.long : Core W).Lasting r :=
    ⟨lasting_skip 'u', ⟨trivial, trivial, trivial, trivial, trivial⟩⟩
  have escaped : (tree Whole.escaped : Core W).Lasting r := ⟨lasting_skip '\x5c', trivial, long⟩
  exact ⟨⟨⟨lasting_skip '\x22', trivial, escaped⟩, lasting_skip '\x22'⟩, lasting_blanks⟩

theorem lasting_enclosed (l r' : Char) (f : Value → Value) (h : a.Lasting r) :
    (enclosed l r' f a).Lasting r :=
  ⟨⟨⟨lasting_operator l, nofun⟩, ⟨h, lasting_operator ',', h⟩, trivial⟩, lasting_operator r', nofun⟩

theorem lasting_anyValue : (tree (Whole.anyValue convert value) : Core W).Lasting r := by
  have member : (tree (Whole.member value) : Core W).Lasting r :=
    ⟨⟨lasting_string, lasting_operator ':', nofun⟩, trivial⟩
  have object := lasting_enclosed '\x7b' '\x7d' Json.object member
  have array := lasting_enclosed '[' ']' id (a := .ref value) (W := W) (r := r) trivial
  exact ⟨⟨⟨⟨⟨⟨object, array⟩, lasting_string⟩, lasting_number⟩, lasting_word _ _⟩,
    lasting_word _ _⟩, lasting_word _ _⟩


/-- Once it is defined, the parser of values is a copy of the choice between their kinds. -/
theorem built_define (waits : value.Waits σ) (h : Ready σ (Whole.anyValue convert value) p) :
    (Core.copy (tree (Whole.anyValue convert value))).Built (value.define p σ).2 value := by
  have other := h.built.ne_of_waits waits lasting_anyValue nofun
  obtain ⟨c, hc⟩ := h.built.exists_cell
  have captured := ParserId.Captured.define_other ⟨c, hc, rfl⟩ other p
  exact .copy (h.built.define waits lasting_anyValue p) captured (waits.define p hc)

/-- After the program the property holds of its result and of the store. -/
def Ends {α : Type} (σ : Store W) (b : Build W α) (Q : α → Store W → Prop) : Prop :=
  Q (b σ).1 (b σ).2

theorem Ends.after {α β : Type} {x : Build W α} {f : α → Build W β} {Q : α → Store W → Prop}
    {Q' : β → Store W → Prop} (h : Leaves σ x Q)
    (h' : ∀ y τ, σ.Extends τ → Q y τ → Ends τ (f y) Q') : Ends σ (x >>= f) Q' := h' _ _ h.1 h.2

theorem Ends.change {α : Type} {x : Build W Unit} {f : Unit → Build W α} {Q : α → Store W → Prop}
    (h : Ends (x σ).2 (f ()) Q) : Ends σ (x >>= f) Q := h

theorem Ends.last {α : Type} {x : Build W α} {Q Q' : α → Store W → Prop} (h : Leaves σ x Q)
    (h' : ∀ y τ, σ.Extends τ → Q y τ → Q' y τ) : Ends σ x Q' := h' _ _ h.1 h.2

/-- The parsers that values are made of, besides values. -/
structure Stock (convert : Text → Except Fault Value) (σ : Store W)
    (blanks number string nullWord trueWord falseWord : ParserId) : Prop where
  blanks : Ready σ Whole.blanks blanks
  number : Ready σ (Whole.number convert) number
  string : Ready σ Whole.string string
  nullWord : Ready σ (Whole.word "null" .none) nullWord
  trueWord : Ready σ (Whole.word "true" (.bool true)) trueWord
  falseWord : Ready σ (Whole.word "false" (.bool false)) falseWord
  finished : Ready σ .finished .finished

theorem Stock.later {blanks number string nullWord trueWord falseWord : ParserId}
    (h : Stock convert σ blanks number string nullWord trueWord falseWord) (k : σ.Extends τ) :
    Stock convert τ blanks number string nullWord trueWord falseWord where
  blanks := h.blanks.later k
  number := h.number.later k
  string := h.string.later k
  nullWord := h.nullWord.later k
  trueWord := h.trueWord.later k
  falseWord := h.falseWord.later k
  finished := h.finished.later k

/-- The parser of a document, the parser of values and the one at the end of the input. -/
structure Finished (convert : Text → Except Fault Value) (σ : Store W) (document value : ParserId) :
    Prop where
  document : (tree (Whole.whole value)).Built σ document
  value : (Core.copy (tree (Whole.anyValue convert value))).Built σ value
  finished : ParserId.finished.Performs σ (.finished .finished)

/-- Values are declared, used and then defined. -/
theorem ends_documentWith (convert : Text → Except Fault Value)
    (finished : ParserId.finished.Performs σ (.finished .finished))
    (marked : ParserId.finished.Marked σ false) :
    Ends σ (documentWith convert) fun p τ => ∃ value, Finished convert τ p value := by
  obtain ⟨c, hc, -⟩ := id finished
  have hfinished : Ready σ .finished .finished := ⟨.ref hc, marked⟩
  refine .after expands_space.leaves fun space σ₁ k₁ hspace => ?_
  refine .after (expands_blanks (.ref hspace)).leaves fun blanks σ₂ k₂ hblanks => ?_
  refine .after (leaves_numberParser hblanks) fun number σ₃ k₃ hnumber => ?_
  refine .after (leaves_stringParser (hblanks.later k₃)) fun string σ₄ k₄ hstring => ?_
  have hblanks := hblanks.later (k₃.trans k₄)
  refine .after (expands_word (.ref hblanks)).leaves fun nullWord σ₅ k₅ hnull => ?_
  have hblanks := hblanks.later k₅
  refine .after (expands_word (.ref hblanks)).leaves fun trueWord σ₆ k₆ htrue => ?_
  have hblanks := hblanks.later k₆
  refine .after (expands_word (.ref hblanks)).leaves fun falseWord σ₇ k₇ hfalse => ?_
  have k := (((((k₁.trans k₂).trans k₃).trans k₄).trans k₅).trans k₆).trans k₇
  have stock : Stock convert σ₇ blanks number string nullWord trueWord falseWord := {
    blanks := hblanks.later k₇
    number := hnumber.later (((k₄.trans k₅).trans k₆).trans k₇)
    string := hstring.later ((k₅.trans k₆).trans k₇)
    nullWord := hnull.later (k₆.trans k₇)
    trueWord := htrue.later k₇
    falseWord := hfalse
    finished := hfinished.later k }
  refine .after (leaves_declared _) fun value σ₈ k₈ hvalue => ?_
  have stock := stock.later k₈
  refine .after (expands_member (.ref stock.blanks) (.ref stock.string) (.ref hvalue.2)).leaves
    fun member σ₉ k₉ hmember => ?_
  have stock := stock.later k₉
  refine .after (expands_object (.ref stock.blanks) (.ref hmember)).leaves
    fun object σ₁₀ k₁₀ hobject => ?_
  have stock := stock.later k₁₀
  have hready := hvalue.2.later (k₉.trans k₁₀)
  refine .after (expands_array (.ref stock.blanks) (.ref hready)).leaves
    fun array σ₁₁ k₁₁ harray => ?_
  have stock := stock.later k₁₁
  refine .after (expands_anyValue (.ref (hobject.later k₁₁)) (.ref harray) (.ref stock.string)
    (.ref stock.number) (.ref stock.nullWord) (.ref stock.trueWord) (.ref stock.falseWord)).leaves
      fun alternatives σ₁₂ k₁₂ halternatives => ?_
  have stock := stock.later k₁₂
  have hready := hready.later (k₁₁.trans k₁₂)
  have k' := (((k₈.trans k₉).trans k₁₀).trans k₁₁).trans k₁₂
  have waits : value.Waits σ₁₂ := hvalue.1.later (((k₉.trans k₁₀).trans k₁₁).trans k₁₂).grows
  -- From here on the parser of values has its definition.
  have performs := (finished.later (k.trans k').grows).define waits (by simp) alternatives
  have hdefined := built_define waits halternatives
  have hwhole := expands_whole (.ref (stock.blanks.define waits lasting_blanks alternatives))
    (.ref (hready.define waits trivial alternatives))
    (.finished (stock.finished.define waits trivial alternatives))
  refine .change (.last hwhole.leaves fun document τ k hdocument => ?_)
  exact ⟨value, hdocument.built, hdefined.later k.grows, performs.later k.grows⟩

end

/-! ## Parsing documents -/

/-- What a parse comes to is what the reading says. -/
inductive Outcome : Reading CodePoint → EStateM.Result Stop (Store W) Value → Prop where
  | ok {c : Bool} {y : Gist} {rest : List CodePoint} {v : Value} {σ : Store W} : y.Fits v →
      Outcome (.ok c y rest) (.ok v σ)
  | err {c : Bool} {e : ParseError Value} {σ : Store W} :
      Outcome (.err c) (.error (.raised (.noParse e)) σ)

section

variable {σ τ : Store W} {p : ParserId} {t : Text} {a : Core W} {r : Reading CodePoint}
  {number : NumberText → Value} {convert : Text → Except Fault Value} {float : Text → Value}

/-- A text is read code point by code point. -/
theorem comes_input (t : Text) (τ : Store W) : ∃ source input υ₁ υ₂,
    (textSource t : Eval W Source).Comes τ (.ok source υ₁) ∧
      source.asStream.Comes υ₁ (.ok input υ₂) ∧ τ.Evolves υ₂ ∧ input.Spells (t.points.map token)
    := by
  let counted (σ : Store W) : Store W := { σ with nextSerial := σ.nextSerial + 1 }
  let points : Sequence Value := ⟨τ.nextSerial, .text t.points.toArray⟩
  have first : (textSource t).Comes τ (.ok (.sequence points) (counted τ)) :=
    comes_of_forall (fun _ => rfl) not_exhausted_ok
  have second : (Source.sequence points).asStream.Comes (counted τ)
      (.ok (.view points 0 (some (counted τ).nextSerial)) (counted (counted τ))) :=
    comes_of_forall (fun _ => rfl) not_exhausted_ok
  have composed : Composed (textSource t : Eval W Source) := .bind .serial fun _ => .pure _
  refine ⟨_, _, _, _, first, second, ?_, .view_of_get ?_ fun k v h => ?_⟩
  · exact (composed.evolves first).trans ((composed_asStream _).evolves second)
  · simp [points, Sequence.size, Items.size]
  · rw [List.getElem?_map] at h
    simpa [points, Items.get?, token] using h

theorem comes_parseText (hp : a.Built σ p) (reads : a.Reads σ token t.points r)
    (k : σ.Evolves τ) : ∃ y, (parseText p t).Comes τ y ∧ Outcome r y := by
  obtain ⟨source, input, υ₁, υ₂, first, second, k', spells⟩ := comes_input t τ
  have lists : (State.plain false input 0 .none).Lists (t.points.map token) υ₂ := spells.lists υ₂
  obtain ⟨reply, υ₃, comes, -, fits⟩ := reads.answers (k.trans k') hp lists
  have run := comes.reply
  cases fits with
  | @ok _ _ _ v _ _ fits =>
    refine ⟨.ok v υ₃, ?_, .ok fits⟩
    exact comes_bind_ok first (comes_bind_ok second
      (comes_bind_ok (comes_bind_ok run (comes_pure _ _)) (comes_pure _ _)))
  | @err _ e _ _ =>
    refine ⟨.error (.raised (.noParse e)) υ₃, ?_, .err⟩
    exact comes_bind_ok first (comes_bind_ok second
      (comes_bind_error (comes_bind_ok run (comes_fault _ _))))

/-- The parser takes documents, and everything else is no parse. -/
theorem Finished.accepts {value : ParserId} (h : Finished convert σ p value)
    (converts : ∀ x : NumberText, convert ⟨x.points⟩ = .ok (number x)) (k : σ.Evolves τ)
    (t : Text) :
    (∀ v, (∃ υ, (parseText p t).Comes τ (.ok v υ)) ↔ IsDocument number t.points v) ∧
      ((∀ v, ¬IsDocument number t.points v) →
        ∃ e υ, (parseText p t).Comes τ (.error (.raised (.noParse e)) υ)) := by
  have complete {v : Value} (hv : IsDocument number t.points v) :
      ∃ υ, (parseText p t).Comes τ (.ok v υ) := by
    obtain ⟨c, reads⟩ := reads_document converts h.value h.finished hv
    obtain ⟨y, comes, outcome⟩ := comes_parseText h.document reads k
    obtain ⟨⟨⟩⟩ := outcome
    exact ⟨_, comes⟩
  have refused : (∃ v, IsDocument number t.points v) ∨
      ∃ e υ, (parseText p t).Comes τ (.error (.raised (.noParse e)) υ) := by
    refine (document_or_refused converts h.value h.finished t.points).imp_right ?_
    rintro ⟨c, reads⟩
    obtain ⟨y, comes, outcome⟩ := comes_parseText h.document reads k
    obtain ⟨⟩ := outcome
    exact ⟨_, _, comes⟩
  refine ⟨fun v => ⟨?_, complete⟩, fun none => refused.resolve_left (not_exists.mpr none)⟩
  -- A computation comes to one outcome only.
  rintro ⟨υ, comes⟩
  rcases refused with ⟨w, hw⟩ | ⟨e, υ', other⟩
  · obtain ⟨υ', other⟩ := complete hw
    cases comes.unique other
    exact hw
  · cases comes.unique other

/-- The parser of documents accepts the texts of the reference grammar, with the values that they
stand for, and every other text is no parse. It is built in any store with the parser at the end of
the input, and run in any later store. Integers of any length are exact, and other numbers are
converted by a function of their texts. -/
theorem documents_are_accepted (float : Text → Value) (σ τ : Store W) (t : Text)
    (finished : ParserId.finished.Performs σ (.finished .finished))
    (marked : ParserId.finished.Marked σ false)
    (later : (documentWith (exactNumber float) σ).2.Evolves τ) :
    let parse := parseText (documentWith (exactNumber float) σ).1 t
    (∀ v, (∃ υ, parse.Comes τ (.ok v υ)) ↔ IsDocument (NumberText.value float) t.points v) ∧
      ((∀ v, ¬IsDocument (NumberText.value float) t.points v) →
        ∃ e υ, parse.Comes τ (.error (.raised (.noParse e)) υ)) := by
  obtain ⟨value, h⟩ := ends_documentWith (exactNumber float) finished marked
  exact h.accepts (exactNumber_points float) later t

/-- A repeated key takes its last value. -/
theorem documents_are_accepted_repeated_key : ∃ σ τ : Store Unit,
    ParserId.finished.Performs σ (.finished .finished) ∧ ParserId.finished.Marked σ false ∧
      (documentWith (exactNumber .text) σ).2.Evolves τ ∧
        ∃ υ, (parseText (documentWith (exactNumber .text) σ).1
          (.ofString "\x7b\"a\":1, \"a\":null\x7d")).Comes τ
            (.ok (.dict [(.ofString "a", .none)]) υ) := by
  let σ : Store Unit := .initial () fun _ _ => ()
  have finished : ParserId.finished.Performs σ (.finished .finished) := ⟨_, rfl, .inl ⟨rfl, rfl⟩⟩
  have marked : ParserId.finished.Marked σ false := ⟨_, rfl, rfl⟩
  -- From here on nothing else is known of the store.
  clear_value σ
  have accepted := documents_are_accepted .text σ _ (.ofString "\x7b\"a\":1, \"a\":null\x7d")
    finished marked .refl
  have nothing : Blanks [] := by simp [Blanks]
  have key : IsString [34, 97, 34] [97] := .mk (.cons (.plain (by decide) (by decide)) .nil)
  let one : NumberText := {
    minus := false
    whole := [49]
    fraction := none
    power := none
    isWhole := by simp [Digits, IsDigit]
    isFraction := nofun }
  have first : Member (IsValue (NumberText.value .text)) _ _ :=
    .mk key nothing (.mk nothing) (.number one nothing)
  have second : Member (IsValue (NumberText.value .text)) _ _ :=
    .mk key nothing (.mk nothing) (.null nothing)
  have comma : Symbol 44 [44, 32] () := .mk (by simp [Blanks, IsBlank])
  have document := IsDocument.mk nothing
    (.object (.mk (.mk nothing) (.some (.more first comma (.one second))) (.mk nothing)))
  exact ⟨_, _, finished, marked, .refl, (accepted.1 _).mpr document⟩

end

end ResumableParsing.Json
