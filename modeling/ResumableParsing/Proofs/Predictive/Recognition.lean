import ResumableParsing.Proofs.Predictive.Readings

/-!
# Recognising languages

A parser recognises a language if it takes texts of the language only, and takes every text of the
language that stands in front of what may follow it. A grammar without attempts does so if the next
token tells each choice which part to take, and each repetition whether to go on. So the lemma for
a combinator asks for two things: where the first part has to refuse the next token, it does, and
what stands behind a part may follow it.

* `Phrases`: texts and what they stand for
* `Follows`: texts that are empty or start with a token of some kind
* `Core.Recognises`: the parser of the tree recognises the language
* `Core.Starts`: what does not start with a token of some kind is refused
* `Core.Branch`: parts of a choice that are told apart by their first tokens
* `recognises_seq`, `recognises_alt`, `recognises_many` and so on: one lemma for each combinator
-/

namespace ResumableParsing

variable {W α β γ : Type}

/-! ## Languages -/

/-- Texts of a language, and what they stand for. -/
abbrev Phrases (α β : Type) := List α → β → Prop

namespace Phrases

/-- One token of some kind. -/
inductive one (P : α → Prop) : Phrases α α where
  | mk {x : α} : P x → one P [x] x

/-- The empty text. -/
inductive nothing (v : β) : Phrases α β where
  | mk : nothing v [] v

/-- One text after the other. -/
inductive seq (L : Phrases α β) (M : Phrases α γ) : Phrases α (β × γ) where
  | mk {u w : List α} {v : β} {x : γ} : L u v → M w x → seq L M (u ++ w) (v, x)

/-- The one or the other. -/
inductive or (L M : Phrases α β) : Phrases α β where
  | left {w : List α} {v : β} : L w v → or L M w v
  | right {w : List α} {v : β} : M w v → or L M w v

/-- What the texts stand for, transformed. -/
inductive map (f : β → γ) (L : Phrases α β) : Phrases α γ where
  | mk {w : List α} {v : β} : L w v → map f L w (f v)

/-- A text or nothing. -/
inductive optional (L : Phrases α β) : Phrases α (Option β) where
  | none : optional L [] none
  | some {w : List α} {v : β} : L w v → optional L w (some v)

/-- Any number of texts. -/
inductive many (L : Phrases α β) : Phrases α (List β) where
  | nil : many L [] []
  | cons {u w : List α} {v : β} {vs : List β} : L u v → many L w vs → many L (u ++ w) (v :: vs)

/-- At least one text, and others that separate them. -/
inductive sepBy1 (L : Phrases α β) (M : Phrases α γ) : Phrases α (List β) where
  | one {w : List α} {v : β} : L w v → sepBy1 L M w [v]
  | more {u s w : List α} {v : β} {x : γ} {vs : List β} :
      L u v → M s x → sepBy1 L M w vs → sepBy1 L M (u ++ (s ++ w)) (v :: vs)

/-- Any number of texts, and others that separate them. -/
inductive sepBy (L : Phrases α β) (M : Phrases α γ) : Phrases α (List β) where
  | none : sepBy L M [] []
  | some {w : List α} {vs : List β} : sepBy1 L M w vs → sepBy L M w vs

end Phrases

/-- The text is empty, or starts with a token of some kind. -/
def Follows (P : α → Prop) (xs : List α) : Prop := ∀ x, xs.head? = some x → P x

@[simp] theorem follows_nil (P : α → Prop) : Follows P ([] : List α) := by simp [Follows]

@[simp] theorem follows_cons {P : α → Prop} {x : α} {xs : List α} :
    Follows P (x :: xs) ↔ P x := by simp [Follows]

theorem Follows.mono {P Q : α → Prop} {xs : List α} (h : Follows P xs) (hPQ : ∀ x, P x → Q x) :
    Follows Q xs := fun x hx => hPQ x (h x hx)

/-! ## Recognition -/

/-- What the reading takes is a text of the language, and its result amounts to what the text
stands for. -/
inductive Reading.Takes (g : β → Gist) (L : Phrases α β) : List α → Reading α → Prop where
  | ok {w rest : List α} {v : β} {c : Bool} : L w v → Takes g L (w ++ rest) (.ok c (g v) rest)
  | err {xs : List α} {c : Bool} : Takes g L xs (.err c)

/-- On inputs of fewer than `n` tokens the parser of the tree recognises the language, where what
follows satisfies `S`. Its results amount to what `g` makes of the texts. -/
structure Core.Recognises (σ : Store W) (token : α → Value) (n : Nat) (a : Core W) (g : β → Gist)
    (L : Phrases α β) (S : List α → Prop) : Prop where
  /-- It succeeds or fails, and what it takes is in the language. -/
  sound : ∀ xs : List α, xs.length < n → ∃ r, a.Reads σ token xs r ∧ r.Takes g L xs
  /-- It takes what is in the language. -/
  complete : ∀ w v rest, (w ++ rest).length < n → L w v → S rest →
    ∃ c, a.Reads σ token (w ++ rest) (.ok c (g v) rest)

/-- Texts that do not start with a token of some kind are refused. -/
def Core.Starts (σ : Store W) (token : α → Value) (a : Core W) (P : α → Prop) : Prop :=
  ∀ xs, Follows (fun x => ¬P x) xs → a.Reads σ token xs (.err false)

section

variable {σ : Store W} {token : α → Value} {n m : Nat} {a b : Core W} {L : Phrases α β}
  {M : Phrases α γ} {g₁ : β → Gist} {g₂ : γ → Gist} {S S₁ S₂ : List α → Prop} {P Q : α → Prop}

open ResumableParsing.Core (Recognises Starts)

/-- Another language of the same texts, whose results amount to the same. -/
theorem Core.Recognises.as (h : a.Recognises σ token n g₁ L S₁)
    (onto : ∀ w v, L w v → ∃ x, M w x ∧ g₁ v = g₂ x)
    (back : ∀ w x, M w x → ∃ v, L w v ∧ g₁ v = g₂ x) (hS : ∀ xs, S xs → S₁ xs) :
    a.Recognises σ token n g₂ M S where
  sound xs hx := by
    obtain ⟨r, reads, takes⟩ := h.sound xs hx
    refine ⟨r, reads, ?_⟩
    cases takes with
    | err => exact .err
    | ok hL =>
      obtain ⟨x, hM, same⟩ := onto _ _ hL
      rw [same]
      exact .ok hM
  complete w x rest hx hM hrest := by
    obtain ⟨v, hL, same⟩ := back w x hM
    rw [← same]
    exact h.complete w v rest hx hL (hS rest hrest)

theorem Core.Recognises.follows (h : a.Recognises σ token n g₁ L S₁) (hS : ∀ xs, S xs → S₁ xs) :
    a.Recognises σ token n g₁ L S :=
  h.as (fun _ v hL => ⟨v, hL, rfl⟩) (fun _ v hL => ⟨v, hL, rfl⟩) hS

/-! ### Single tokens -/

theorem recognises_some {f : Value → Action W Bool}
    (hf : ∀ x, (f (token x)).Always σ fun c => c = true ↔ P x) :
    (Core.some f).Recognises σ token n (fun x => .value (token x)) (.one P) S where
  sound xs _ := by
    cases xs with
    | nil => exact ⟨_, .lacking, .err⟩
    | cons x xs =>
      by_cases hx : P x
      · refine ⟨_, .accept fun τ k => ?_, .ok (w := [x]) (.mk hx)⟩
        obtain ⟨c, υ, comes, hc⟩ := hf x τ k
        exact ⟨c, υ, comes, hc.mpr hx⟩
      · refine ⟨_, .reject fun τ k => ?_, .err⟩
        obtain ⟨c, υ, comes, hc⟩ := hf x τ k
        exact ⟨c, υ, comes, Bool.eq_false_iff.mpr fun h => hx (hc.mp h)⟩
  complete w v rest _ hw _ := by
    cases hw with
    | mk hx =>
      refine ⟨true, .accept fun τ k => ?_⟩
      obtain ⟨c, υ, comes, hc⟩ := hf v τ k
      exact ⟨c, υ, comes, hc.mpr hx⟩

theorem recognises_pure {g : β → Gist} {v : Value} {x : β} (h : (g x).Fits v) :
    (Core.pure v : Core W).Recognises σ token n g (.nothing x) S where
  sound xs _ := ⟨_, .pure h, .ok (w := []) .mk⟩
  complete w y rest _ hw _ := by
    cases hw
    exact ⟨false, .pure h⟩

/-! ### Parsers in sequence -/

/-- What the second part takes, and what follows it, may follow the first part. The second part
has to recognise only inputs that the first part leaves. -/
theorem recognises_seq {k : Combine} {g : β × γ → Gist} (ha : a.Recognises σ token n g₁ L S₁)
    (hb : b.Recognises σ token m g₂ M S) (unites : ∀ v x, k.Unites (g₁ v) (g₂ x) (g (v, x)))
    (follows : ∀ w x rest, M w x → S rest → S₁ (w ++ rest))
    (shorter : ∀ w v, L w v → n ≤ m + w.length) :
    (Core.seq a b k).Recognises σ token n g (L.seq M) S where
  sound xs hx := by
    obtain ⟨r, first, takes⟩ := ha.sound xs hx
    cases takes with
    | err => exact ⟨_, .seqFirst first, .err⟩
    | @ok u mid v c hL =>
      -- What the first part leaves is short enough for the second one.
      have hm := shorter u v hL
      rw [List.length_append] at hx
      obtain ⟨r, second, takes⟩ := hb.sound mid (by omega)
      cases takes with
      | err => exact ⟨_, .seqSecond first second, .err⟩
      | @ok w rest x d hM =>
        refine ⟨_, .seq first second (unites v x), ?_⟩
        rw [← List.append_assoc]
        exact .ok (.mk hL hM)
  complete w v rest hx hw hrest := by
    obtain ⟨hL, hM⟩ := hw
    rename_i u w v x
    rw [List.append_assoc] at hx ⊢
    have hm := shorter u v hL
    obtain ⟨c, first⟩ := ha.complete u v (w ++ rest) hx hL (follows w x rest hM hrest)
    rw [List.length_append] at hx
    obtain ⟨d, second⟩ := hb.complete w x rest (by omega) hM hrest
    exact ⟨c || d, .seq first second (unites v x)⟩

/-! ### Choices -/

/-- The first part refuses what the second one takes. -/
theorem recognises_alt {M : Phrases α β} (ha : a.Recognises σ token n g₁ L S)
    (hb : b.Recognises σ token n g₁ M S) (starts : a.Starts σ token P)
    (other : ∀ w v rest, M w v → S rest → Follows (fun x => ¬P x) (w ++ rest)) :
    (Core.alt a b).Recognises σ token n g₁ (L.or M) S where
  sound xs hx := by
    obtain ⟨r, first, takes⟩ := ha.sound xs hx
    cases takes with
    | ok hL => exact ⟨_, .left first, .ok (.left hL)⟩
    | @err _ c =>
      cases c with
      -- A failure that has consumed is final; after any other one the second part is tried.
      | true => exact ⟨_, .stuck first, .err⟩
      | false =>
        obtain ⟨r, second, takes⟩ := hb.sound xs hx
        refine ⟨r, .right first second, ?_⟩
        cases takes with
        | ok hM => exact .ok (.right hM)
        | err => exact .err
  complete w v rest hx hw hrest := by
    cases hw with
    | left hL =>
      obtain ⟨c, first⟩ := ha.complete w v rest hx hL hrest
      exact ⟨c, .left first⟩
    | right hM =>
      obtain ⟨c, second⟩ := hb.complete w v rest hx hM hrest
      exact ⟨c, .right (starts _ (other w v rest hM hrest)) second⟩

/-- An optional part refuses what follows. -/
theorem recognises_optional {g : Option β → Gist} {v : Value} (ha : a.Recognises σ token n g₁ L S₁)
    (hsome : ∀ v, g (some v) = g₁ v) (hnone : (g none).Fits v) (starts : a.Starts σ token P)
    (hP : ∀ xs, S xs → Follows (fun x => ¬P x) xs) (follows : ∀ xs, S xs → S₁ xs) :
    (Core.optional a v).Recognises σ token n g L.optional S := by
  -- An optional part is a choice between the part and no text at all.
  have present : a.Recognises σ token n g (L.map some) S := by
    refine ha.as (fun w v hL => ⟨some v, .mk hL, (hsome v).symm⟩) (fun w x hx => ?_) follows
    obtain ⟨hL⟩ := hx
    exact ⟨_, hL, (hsome _).symm⟩
  have absent : (Core.pure v).Recognises σ token n g (.nothing none) S := recognises_pure hnone
  have either := recognises_alt present absent starts fun w x rest hw hrest => by
    cases hw
    exact hP rest hrest
  refine either.as (fun w x hw => ⟨x, ?_, rfl⟩) (fun w x hw => ⟨x, ?_, rfl⟩) fun _ h => h
  · rcases hw with ⟨⟨hL⟩⟩ | ⟨⟨⟩⟩
    · exact .some hL
    · exact .none
  · cases hw with
    | none => exact .right .mk
    | some hL => exact .left (.mk hL)

/-! ### Results -/

theorem recognises_map {f : Value → Action W Value} {φ : β → γ} {g : γ → Gist}
    (ha : a.Recognises σ token n g₁ L S) (maps : ∀ w v, L w v → (g₁ v).Maps σ f (g (φ v))) :
    (Core.map a f).Recognises σ token n g (L.map φ) S where
  sound xs hx := by
    obtain ⟨r, reads, takes⟩ := ha.sound xs hx
    cases takes with
    | ok hL => exact ⟨_, .map reads (maps _ _ hL), .ok (.mk hL)⟩
    | err => exact ⟨_, .mapFails reads, .err⟩
  complete w x rest hx hw hrest := by
    obtain ⟨hL⟩ := hw
    obtain ⟨c, reads⟩ := ha.complete _ _ rest hx hL hrest
    exact ⟨c, .map reads (maps _ _ hL)⟩

theorem recognises_ignore (ha : a.Recognises σ token n g₁ L S) :
    (Core.ignore a).Recognises σ token n (fun _ : β => .anything) L S where
  sound xs hx := by
    obtain ⟨r, reads, takes⟩ := ha.sound xs hx
    cases takes with
    | ok hL => exact ⟨_, .ignore reads, .ok hL⟩
    | err => exact ⟨_, .ignoreFails reads, .err⟩
  complete w v rest hx hw hrest := by
    obtain ⟨c, reads⟩ := ha.complete w v rest hx hw hrest
    exact ⟨c, .ignore reads⟩

/-! ### Repetition -/

/-- Tokens of some kind, any number of them, stand for themselves. -/
theorem Phrases.many_one_iff {w vs : List α} :
    (Phrases.one P).many w vs ↔ w = vs ∧ ∀ x ∈ w, P x := by
  constructor
  · intro h
    induction h with
    | nil => simp
    | cons hx _ ih =>
      obtain ⟨hx⟩ := hx
      obtain ⟨rfl, all⟩ := ih
      exact ⟨rfl, List.forall_mem_cons.mpr ⟨hx, all⟩⟩
  · rintro ⟨rfl, all⟩
    induction w with
    | nil => exact .nil
    | cons x w ih =>
      obtain ⟨hx, all⟩ := List.forall_mem_cons.mp all
      exact .cons (u := [x]) (.mk hx) (ih all)

/-- A repetition refuses what follows it, and may be followed by itself. -/
theorem recognises_many {h : β → Value}
    (ha : a.Recognises σ token n (fun v => .value (h v)) L S₁) (strict : ∀ w v, L w v → w ≠ [])
    (starts : a.Starts σ token P) (hP : ∀ xs, S xs → Follows (fun x => ¬P x) xs)
    (follows : ∀ xs, S xs → S₁ xs) (again : ∀ w v rest, L w v → S₁ (w ++ rest)) :
    (Core.many a).Recognises σ token n (fun vs => .items (vs.map h)) L.many S where
  sound xs hx := by
    -- The induction is on the length of the input: each round takes something.
    induction hl : xs.length using Nat.strongRecOn generalizing xs with
    | ind l ih =>
      subst hl
      obtain ⟨r, first, takes⟩ := ha.sound xs hx
      cases takes with
      | @err _ c =>
        cases c with
        | true => exact ⟨_, .manyFirst first, .err⟩
        | false => exact ⟨_, .stop first, .ok (w := []) (v := []) .nil⟩
      | @ok w mid v c hL =>
        have taken := List.length_pos_of_ne_nil (strict w v hL)
        rw [List.length_append] at hx ih
        cases c with
        | false =>
          have all : mid = w ++ mid := first.spends
          have := congrArg List.length all
          rw [List.length_append] at this
          omega
        | true =>
          obtain ⟨r, rest, takes⟩ := ih mid.length (by omega) mid (by omega) rfl
          cases takes with
          | err => exact ⟨_, .manyRest first rest, .err⟩
          | @ok _ _ vs _ hvs =>
            refine ⟨_, .more first rest, ?_⟩
            rw [← List.append_assoc]
            exact .ok (v := v :: vs) (.cons hL hvs)
  complete w vs rest hx hw hrest := by
    induction hw with
    | nil => exact ⟨false, .stop (starts rest (hP rest hrest))⟩
    | @cons u w v vs hL hvs ih =>
      rw [List.append_assoc] at hx ⊢
      have taken := List.length_pos_of_ne_nil (strict u v hL)
      -- Behind this round there is another one, or what follows the repetition.
      have behind : S₁ (w ++ rest) := by
        cases hvs with
        | nil => exact follows rest hrest
        | cons hL _ =>
          rw [List.append_assoc]
          exact again _ _ _ hL
      obtain ⟨c, first⟩ := ha.complete u v (w ++ rest) hx hL behind
      rw [List.length_append] at hx
      obtain ⟨d, reads⟩ := ih (by omega)
      cases c with
      | false =>
        have all : w ++ rest = u ++ (w ++ rest) := first.spends
        have := congrArg List.length all
        simp only [List.length_append] at this
        omega
      | true => exact ⟨true, .more first reads⟩

/-- Texts with separators are a text, and then separators with texts. -/
theorem Phrases.sepBy1_iff {w : List α} {vs : List β} : L.sepBy1 M w vs ↔
    ∃ v us, vs = v :: us ∧ L.seq ((M.seq L).map Prod.snd).many w (v, us) := by
  constructor
  · intro h
    induction h with
    | @one w v hL =>
      refine ⟨v, [], rfl, ?_⟩
      rw [← List.append_nil w]
      exact .mk hL .nil
    | @more u s w v x vs hL hM _ ih =>
      obtain ⟨v', us, rfl, h⟩ := ih
      refine ⟨v, v' :: us, rfl, .mk hL ?_⟩
      cases h with
      | mk hL' rest =>
        rw [← List.append_assoc]
        exact .cons (.mk (v := (x, v')) (.mk hM hL')) rest
  · rintro ⟨v, us, rfl, h⟩
    cases h with
    | @mk u w _ _ hL rest =>
      -- The induction is on the separated texts behind the first one.
      induction rest generalizing u v with
      | nil =>
        rw [List.append_nil]
        exact .one hL
      | cons here _ ih =>
        obtain ⟨⟨hM, hL'⟩⟩ := here
        rw [List.append_assoc]
        exact .more hL hM (ih _ hL')

/-- Separators may follow the texts, and texts the separators. -/
theorem recognises_sepBy1 {h : β → Value}
    (ha : a.Recognises σ token n (fun v => .value (h v)) L S₁)
    (hb : b.Recognises σ token n g₂ M S₂) (strict : ∀ w x, M w x → w ≠ [])
    (starts : b.Starts σ token P) (hP : ∀ xs, S xs → Follows (fun x => ¬P x) xs)
    (follows : ∀ xs, S xs → S₁ xs) (separates : ∀ w x rest, M w x → S₁ (w ++ rest))
    (separated : ∀ w v rest, L w v → S₂ (w ++ rest)) :
    (Core.sepBy1 a b).Recognises σ token n (fun vs => .items (vs.map h)) (L.sepBy1 M) S := by
  -- What is repeated is a separator with the text behind it.
  have pair : (Core.seq b a .second).Recognises σ token n (fun v => .value (h v))
      ((M.seq L).map Prod.snd) S₁ := by
    have seq := recognises_seq (k := .second) (g := fun x => .value (h x.2)) hb ha
      (fun _ _ => .second) (fun w v rest hL _ => separated w v rest hL)
      fun _ _ _ => Nat.le_add_right n _
    refine seq.as (fun w v hw => ⟨v.2, .mk hw, rfl⟩) (fun w v hw => ?_) fun _ h => h
    obtain ⟨hw⟩ := hw
    exact ⟨_, hw, rfl⟩
  have rest := recognises_many (S := S) pair (fun w v hw hnil => ?_)
    (fun xs hx => .seqFirst (starts xs hx)) hP follows fun w v rest hw => ?_
  -- The first text stands in front of the others.
  · have both := recognises_seq (k := .cons) (g := fun x => .items ((x.1 :: x.2).map h)) ha rest
      (fun _ _ => .cons) (fun w vs rest hvs hrest => ?_) fun _ _ _ => Nat.le_add_right n _
    · refine both.as (fun w x hw => ⟨x.1 :: x.2, ?_, rfl⟩) (fun w vs hw => ?_) fun _ h => h
      · exact Phrases.sepBy1_iff.mpr ⟨x.1, x.2, rfl, hw⟩
      · obtain ⟨v, us, rfl, parts⟩ := Phrases.sepBy1_iff.mp hw
        exact ⟨(v, us), parts, rfl⟩
    · cases hvs with
      | nil => exact follows rest hrest
      | cons here _ =>
        obtain ⟨⟨hM, _⟩⟩ := here
        rw [List.append_assoc, List.append_assoc]
        exact separates _ _ _ hM
  · obtain ⟨⟨hM, _⟩⟩ := hw
    exact strict _ _ hM (List.append_eq_nil_iff.mp hnil).1
  · obtain ⟨⟨hM, _⟩⟩ := hw
    rw [List.append_assoc]
    exact separates _ _ _ hM

theorem recognises_sepBy {h : β → Value} {v : Value}
    (hfirst : a.Starts σ token Q) (hQ : ∀ xs, S xs → Follows (fun x => ¬Q x) xs)
    (hv : Gist.Fits (.items []) v)
    (hsep : (Core.sepBy1 a b).Recognises σ token n (fun vs => .items (vs.map h)) (L.sepBy1 M) S) :
    (Core.optional (.sepBy1 a b) v).Recognises σ token n (fun vs => .items (vs.map h))
      (L.sepBy M) S := by
  have whole := recognises_optional (g := fun vs => .items ((vs.getD []).map h)) hsep
    (fun _ => rfl) hv (P := Q) (fun xs hx => .seqFirst (hfirst xs hx)) hQ fun _ h => h
  refine whole.as (fun w vs hw => ⟨vs.getD [], ?_, rfl⟩) (fun w vs hw => ?_) fun _ h => h
  · cases hw with
    | none => exact .none
    | some hw => exact .some hw
  · cases hw with
    | none => exact ⟨none, .none, rfl⟩
    | some hw => exact ⟨some _, .some hw, rfl⟩

/-! ### Parsers that have been built before -/

/-- No input has fewer than no tokens. -/
theorem recognises_zero : a.Recognises σ token 0 g₁ L S where
  sound _ hx := absurd hx (Nat.not_lt_zero _)
  complete _ _ _ hx := absurd hx (Nat.not_lt_zero _)

theorem recognises_ref {p : ParserId} (hp : a.Built σ p) (ha : a.Recognises σ token n g₁ L S) :
    (Core.ref p).Recognises σ token n g₁ L S where
  sound xs hx := by
    obtain ⟨r, reads, takes⟩ := ha.sound xs hx
    exact ⟨r, .ref hp reads, takes⟩
  complete w v rest hx hw hrest := by
    obtain ⟨c, reads⟩ := ha.complete w v rest hx hw hrest
    exact ⟨c, .ref hp reads⟩

theorem recognises_copy (ha : a.Recognises σ token n g₁ L S) :
    (Core.copy a).Recognises σ token n g₁ L S where
  sound xs hx := by
    obtain ⟨r, reads, takes⟩ := ha.sound xs hx
    exact ⟨r, .copy reads, takes⟩
  complete w v rest hx hw hrest := by
    obtain ⟨c, reads⟩ := ha.complete w v rest hx hw hrest
    exact ⟨c, .copy reads⟩

/-! ### Refusals -/

theorem starts_some {f : Value → Action W Bool}
    (hf : ∀ x, (f (token x)).Always σ fun c => c = true ↔ P x) :
    (Core.some f).Starts σ token P := by
  intro xs hx
  cases xs with
  | nil => exact .lacking
  | cons x xs =>
    refine .reject fun τ k => ?_
    obtain ⟨c, υ, comes, hc⟩ := hf x τ k
    exact ⟨c, υ, comes, Bool.eq_false_iff.mpr fun h => follows_cons.mp hx (hc.mp h)⟩

theorem Core.Starts.seq (h : a.Starts σ token P) (b : Core W) (k : Combine) :
    (Core.seq a b k).Starts σ token P := fun xs hx => .seqFirst (h xs hx)

theorem Core.Starts.map (h : a.Starts σ token P) (f : Value → Action W Value) :
    (Core.map a f).Starts σ token P := fun xs hx => .mapFails (h xs hx)

theorem Core.Starts.ignore (h : a.Starts σ token P) : (Core.ignore a).Starts σ token P :=
  fun xs hx => .ignoreFails (h xs hx)

theorem Core.Starts.alt (ha : a.Starts σ token P) (hb : b.Starts σ token Q) :
    (Core.alt a b).Starts σ token fun x => P x ∨ Q x := fun xs hx =>
  .right (ha xs (hx.mono fun _ h hp => h (.inl hp))) (hb xs (hx.mono fun _ h hq => h (.inr hq)))

theorem Core.Starts.copy (h : a.Starts σ token P) : (Core.copy a).Starts σ token P :=
  fun xs hx => .copy (h xs hx)

theorem Core.Starts.ref {p : ParserId} (hp : a.Built σ p) (h : a.Starts σ token P) :
    (Core.ref p).Starts σ token P := fun xs hx => .ref hp (h xs hx)

/-! ### Branches -/

/-- A part of a choice: the first token of a text tells that it is one of this language. -/
structure Core.Branch (σ : Store W) (token : α → Value) (n : Nat) (a : Core W) (g : β → Gist)
    (L : Phrases α β) (S : List α → Prop) (P : α → Prop) : Prop where
  /-- The language is recognised. -/
  recognises : a.Recognises σ token n g L S
  /-- Texts that start with another token are refused. -/
  starts : a.Starts σ token P
  /-- The texts of the language start with such a token. -/
  first : ∀ w v, L w v → ∃ x u, w = x :: u ∧ P x

/-- Two branches that start differently. -/
theorem Core.Branch.alt {M : Phrases α β} (ha : a.Branch σ token n g₁ L S P)
    (hb : b.Branch σ token n g₁ M S Q) (other : ∀ x, Q x → ¬P x) :
    (Core.alt a b).Branch σ token n g₁ (L.or M) S fun x => P x ∨ Q x where
  recognises := recognises_alt ha.recognises hb.recognises ha.starts fun w v rest hw _ => by
    obtain ⟨x, u, rfl, hx⟩ := hb.first w v hw
    exact follows_cons.mpr (other x hx)
  starts := ha.starts.alt hb.starts
  first w v hw := by
    cases hw with
    | left hL =>
      obtain ⟨x, u, e, hx⟩ := ha.first w v hL
      exact ⟨x, u, e, .inl hx⟩
    | right hM =>
      obtain ⟨x, u, e, hx⟩ := hb.first w v hM
      exact ⟨x, u, e, .inr hx⟩

end

end ResumableParsing
