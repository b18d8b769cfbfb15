import ResumableParsing.Proofs.Choice.Trials
import ResumableParsing.Proofs.Storage.Agreement

/-!
# Grouping a choice

A choice of three parsers may be grouped to the left or to the right. Both groupings reply with the
same outcome, the same state and the same value, and where they fail, with the same message about
the same place. They expect the same parsers as well, unless the second failure strays: it lies at
another position than the first and the third one, which share theirs. Then the grouping to the left
forgets what the first parser expected.

* `Correspondence.KeepsArrivals`: corresponding runs arrive at corresponding ends, whatever the
  bookkeeping
* `Trial.transfer`: a trial goes like a corresponding one, also if failures are combined otherwise
* `Finish.Regrouped`: replies of the two groupings
* `Regrouping`: two parsers are the two groupings of a choice
* `choice_is_regrouped`: so the groupings are built
-/

namespace ResumableParsing

variable {W : Type} {chunks : Int → Stream Value}

/-! ## Corresponding trials -/

/-- With requests answered, runs correspond to one another, and messages and serial numbers do not
matter to them. -/
structure Correspondence.KeepsArrivals (C : Correspondence W) (chunks : Int → Stream Value) :
    Prop where
  /-- Where the left run arrives, the right one arrives at something that corresponds. -/
  arrives : ∀ {w : C.World} {p p' : ParserId} {s t : State Value} {σ τ : Store W}
    {y : EStateM.Result Stop (Store W) (Finish W)}, C.Stores w σ τ → C.States w s t →
    C.Parsers w p p' → p.Arrives chunks s σ y →
    ∃ y', p'.Arrives chunks t τ y' ∧ C.Ends w C.Finishes y y'
  /-- Bookkeeping does not matter to the stores. -/
  clerical : ∀ {w : C.World} {σ σ' τ τ' : Store W}, C.Stores w σ τ → σ.Clerical σ' →
    τ.Clerical τ' → C.Stores w σ' τ'

/-- What two trials arrive at: the same, or all parsers have failed, with the errors that `refused`
tells, and one of the trials combines them by `join`, the other one by `join'`. -/
inductive Correspondence.Alike (C : Correspondence W) (w : C.World)
    (refused : ParseError Value → ParseError Value → ParseError Value → Prop)
    (join join' : Nat → Nat → ParseError Value → ParseError Value → ParseError Value →
      ParseError Value) :
    EStateM.Result Stop (Store W) (Finish W) → EStateM.Result Stop (Store W) (Finish W) →
      Prop where
  | same {y y' : EStateM.Result Stop (Store W) (Finish W)} :
      C.Ends w C.Finishes y y' → Alike C w refused join join' y y'
  | none {w' : C.World} {e₁ e₂ e₃ f₁ f₂ f₃ : ParseError Value} {t u : State Value}
      {σ τ : Store W} {m m' n n' : Nat} : C.Stores w' σ τ → refused e₁ e₂ e₃ →
      C.Errors w' e₁ f₁ → C.Errors w' e₂ f₂ → C.Errors w' e₃ f₃ → C.States w' t u →
      Alike C w refused join join' (.ok (.reply (.err false (join m n e₁ e₂ e₃) t)) σ)
        (.ok (.reply (.err false (join' m' n' f₁ f₂ f₃) u)) τ)

section

variable {C : Correspondence W} {w : C.World} {p q r : ParserId} {s t : State Value}
  {σ τ : Store W} {y : EStateM.Result Stop (Store W) (Finish W)}

/-- What corresponds to an empty failure is an empty failure. -/
theorem Correspondence.Ends.refuses {y' : EStateM.Result Stop (Store W) (Finish W)}
    {f : ParseError Value} {u : State Value} {τ' : Store W} (h : C.Ends w C.Finishes y y')
    (hy : y' = .ok (.reply (.err false f u)) τ') :
    ∃ e t σ', y = .ok (.reply (.err false e t)) σ' := by
  subst hy
  cases y with
  | error e σ' => exact h.elim
  | ok f σ' =>
    obtain ⟨w', -, -, finishes⟩ := h
    cases finishes with
    | reply hr =>
      cases hr with
      | err d he ht => exact ⟨_, _, σ', rfl⟩

/-- Where the left run fails without consuming, so does the right one. -/
theorem Correspondence.KeepsArrivals.refuses (h : C.KeepsArrivals chunks) {p' : ParserId}
    {e : ParseError Value} {s' : State Value} {σ' : Store W} (hs : C.Stores w σ τ)
    (ht : C.States w s t) (hp : C.Parsers w p p')
    (run : p.Arrives chunks s σ (.ok (.reply (.err false e s')) σ')) :
    ∃ w' f t' τ', p'.Arrives chunks t τ (.ok (.reply (.err false f t')) τ') ∧ C.During w w' ∧
      C.Stores w' σ' τ' ∧ C.Errors w' e f ∧ C.States w' s' t' := by
  obtain ⟨y', run', ends⟩ := h.arrives hs ht hp run
  obtain ⟨f, τ', w', rfl, hle, hs', finishes⟩ := ends.of_ok
  cases finishes with
  | reply hr =>
    cases hr with
    | err d he ht' => exact ⟨w', _, _, τ', run', hle, hs', he, ht'⟩

variable {before before' : Nat → Store W → Store W}
  {join join' : Nat → Nat → ParseError Value → ParseError Value → ParseError Value →
    ParseError Value}

/-- A trial of the same parsers in a corresponding state and store goes alike, whatever bookkeeping
is done and however the failures are combined. The trials go on side by side as long as the parsers
fail, in larger and larger worlds. -/
theorem Trial.transfer (hC : C.Lawful) (h : C.KeepsArrivals chunks)
    (hb : ∀ n (σ : Store W), σ.Clerical (before n σ))
    (hb' : ∀ n (σ : Store W), σ.Clerical (before' n σ))
    (hs : C.Stores w σ τ) (ht : C.States w s t) (hp : C.Parsers w p p) (hq : C.Parsers w q q)
    (hr : C.Parsers w r r) (trial : Trial chunks p q r before join s σ y) :
    ∃ y', Trial chunks p q r before' join' t τ y' ∧
      C.Alike w (Refused chunks p q r before s σ) join join' y y' := by
  have begin {w : C.World} {n : Nat} {σ τ : Store W} (hs : C.Stores w σ τ) :
      C.Stores w (before n σ) (before' n τ) := h.clerical hs (hb n σ) (hb' n τ)
  have settled {y y' : EStateM.Result Stop (Store W) (Finish W)} {w : C.World}
      (ends : C.Ends w C.Finishes y y') (ne : ∀ e t σ', y ≠ .ok (.reply (.err false e t)) σ') :
      ∀ f u τ', y' ≠ .ok (.reply (.err false f u)) τ' := by
    intro f u τ' hy
    obtain ⟨e, t, σ', rfl⟩ := ends.refuses hy
    exact ne e t σ' rfl
  cases trial with
  | first run₁ ne =>
    obtain ⟨y', run₁', ends⟩ := h.arrives (begin hs) ht hp run₁
    exact ⟨y', .first run₁' (settled ends ne), .same ends⟩
  | second run₁ run₂ ne =>
    obtain ⟨w₁, f₁, t₁, τ₁, run₁', le₁, hs₁, he₁, -⟩ := h.refuses (begin hs) ht hp run₁
    have ht₁ := hC.states_mono (hC.le le₁) ht
    have hq₁ := hC.parsers_mono (hC.le le₁) hq
    obtain ⟨y', run₂', ends⟩ := h.arrives (begin hs₁) ht₁ hq₁ run₂
    exact ⟨y', .second run₁' run₂' (settled ends ne), .same (hC.ends_mono le₁ ends)⟩
  | third run₁ run₂ run₃ ne =>
    obtain ⟨w₁, f₁, t₁, τ₁, run₁', le₁, hs₁, he₁, -⟩ := h.refuses (begin hs) ht hp run₁
    have ht₁ := hC.states_mono (hC.le le₁) ht
    have hq₁ := hC.parsers_mono (hC.le le₁) hq
    obtain ⟨w₂, f₂, t₂, τ₂, run₂', le₂, hs₂, he₂, -⟩ := h.refuses (begin hs₁) ht₁ hq₁ run₂
    have le := hC.during_trans le₁ le₂
    have ht₂ := hC.states_mono (hC.le le) ht
    obtain ⟨y', run₃', ends⟩ := h.arrives (begin hs₂) ht₂ (hC.parsers_mono (hC.le le) hr) run₃
    exact ⟨y', .third run₁' run₂' run₃' (settled ends ne), .same (hC.ends_mono le ends)⟩
  | none run₁ run₂ run₃ =>
    obtain ⟨w₁, f₁, t₁, τ₁, run₁', le₁, hs₁, he₁, -⟩ := h.refuses (begin hs) ht hp run₁
    have ht₁ := hC.states_mono (hC.le le₁) ht
    have hq₁ := hC.parsers_mono (hC.le le₁) hq
    obtain ⟨w₂, f₂, t₂, τ₂, run₂', le₂, hs₂, he₂, -⟩ := h.refuses (begin hs₁) ht₁ hq₁ run₂
    have le := hC.during_trans le₁ le₂
    have ht₂ := hC.states_mono (hC.le le) ht
    have hr₂ := hC.parsers_mono (hC.le le) hr
    obtain ⟨w₃, f₃, t₃, τ₃, run₃', le₃, hs₃, he₃, ht₃⟩ := h.refuses (begin hs₂) ht₂ hr₂ run₃
    -- All three fail. Their errors correspond in the world of the last one, so any two can be
    -- merged.
    refine ⟨_, .none run₁' run₂' run₃', .none (begin hs₃) ⟨_, _, _, _, _, _, run₁, run₂, run₃⟩
      ?_ ?_ he₃ ht₃⟩
    · exact hC.errors_mono (hC.le (hC.during_trans le₂ le₃)) he₁
    · exact hC.errors_mono (hC.le le₃) he₂

end

/-! ## Pure parsers -/

namespace Storage

/-- Bookkeeping does not matter to the streams of two runs, and neither do new parsers. -/
theorem stores_enlarged {w : (setting W).correspondence.World} {σ σ' τ τ' : Store W}
    (h : (setting W).correspondence.Stores w σ τ) (hσ : σ.Enlarged σ') (hτ : τ.Enlarged τ') :
    (setting W).correspondence.Stores w σ' τ' := by
  obtain ⟨agree, hs⟩ := h
  have parsers (p q : ParserId) (hpq : w.1.parsers p q) : ∃ c d : Cell W,
      σ'.parsers[p.index]? = some c ∧ τ'.parsers[q.index]? = some d ∧ c.Paired w.1 d := by
    obtain ⟨c, d, hc, hd, paired⟩ := agree.parsers p q hpq
    exact ⟨c, d, hσ.parser hc, hτ.parser hd, paired⟩
  obtain ⟨log, n, more, -, rfl⟩ := hσ
  obtain ⟨log', n', more', -, rfl⟩ := hτ
  have agree' : w.1.Agree { σ with log := log, nextSerial := n, parsers := σ.parsers ++ more }
      { τ with log := log', nextSerial := n', parsers := τ.parsers ++ more' } :=
    { agree with parsers := parsers }
  exact ⟨agree', (Storage.lawful W).aside agree hs
    ⟨.refl _, agree', Store.Aside.bookkeeping _ σ _ _ _,
      Store.Aside.bookkeeping _ τ _ _ _⟩⟩

/-- Runs over streams with the same elements take no notice of bookkeeping. -/
theorem keepsArrivals (W : Type) (chunks : Int → Stream Value) :
    (setting W).correspondence.KeepsArrivals chunks where
  clerical hs hσ hτ := stores_enlarged hs hσ.enlarged hτ.enlarged
  arrives := by
    rintro w p p' s t σ τ y hs ht hp ⟨-, k, h⟩
    rcases h.of_bind (composed_complete _) with ⟨f, σ₁, run, rest⟩ | ⟨e, σ₁, run, rfl⟩
    · obtain ⟨z, run', ends⟩ := comes hs ht hp run
      obtain ⟨f', τ₁, w', rfl, hw, hs', finishes⟩ := ends.of_ok
      cases finishes with
      | @reply r r' hr =>
        rw [answer_reply] at rest
        cases rest.unique (comes_pure _ _)
        exact ⟨_, ⟨by simp, 0, comes_bind_ok run' (comes_pure _ τ₁)⟩, w', hw, hs', .reply hr⟩
    · obtain ⟨z, run', ends⟩ := comes hs ht hp run
      obtain ⟨τ₁, w', rfl, hw, hs'⟩ := ends.of_error
      exact ⟨_, ⟨by simp, 0, comes_bind_error run'⟩, ends⟩

end Storage

/-! ## Replies of the two groupings -/

/-- The results of a choice of three parsers that is grouped to the left and to the right. They are
the same, or all parsers have failed without consuming and the second failure strays. Then the
messages, the places and the states are the same, and only the grouping to the right still expects
what the first parser did. The errors of the three parsers are those that `refused` tells. -/
inductive Finish.Regrouped
    (refused : ParseError Value → ParseError Value → ParseError Value → Prop) :
    EStateM.Result Stop (Store W) (Finish W) → EStateM.Result Stop (Store W) (Finish W) →
      Prop where
  | same {y y' : EStateM.Result Stop (Store W) (Finish W)} :
      Finish.Corresponds y y' → Regrouped refused y y'
  | straying {e₁ e₂ e₃ e f : ParseError Value} {t u : State Value} {σ τ : Store W} :
      refused e₁ e₂ e₃ → ParseError.Straying e₁ e₂ e₃ → e.message = f.message →
      e.state.Corresponds σ τ f.state → t.Corresponds σ τ u →
      e.expectedNames σ.names = e₃.expectedNames σ.names →
      f.expectedNames τ.names = e₁.expectedNames σ.names ++ e₃.expectedNames σ.names →
      Regrouped refused (.ok (.reply (.err false e t)) σ) (.ok (.reply (.err false f u)) τ)

/-- Trials of pure parsers that combine failures as the two groupings do. -/
theorem Storage.regrouped {w : (setting W).correspondence.World}
    {refused : ParseError Value → ParseError Value → ParseError Value → Prop}
    {y y' : EStateM.Result Stop (Store W) (Finish W)}
    (h : (setting W).correspondence.Alike w refused ParseError.leftGrouped
      (fun _ => ParseError.rightGrouped) y y') : Finish.Regrouped refused y y' := by
  cases h with
  | same ends => exact .same (corresponds_ends ends)
  | @none w' e₁ e₂ e₃ f₁ f₂ f₃ t u σ τ m m' n n' hs hrefused he₁ he₂ he₃ ht =>
    obtain ⟨agree, hs⟩ := hs
    have lawful : (setting W).correspondence.Lawful := (Storage.lawful W).lawful
    -- The failures are combined to the right on both sides first.
    have right : (ParseError.rightGrouped n e₁ e₂ e₃).Corresponds σ τ
        (ParseError.rightGrouped n' f₁ f₂ f₃) := corresponds_error agree hs
      (lawful.merge he₁ (lawful.merge he₂ he₃ n n') (n + 1) (n' + 1))
    have message : (ParseError.leftGrouped m n e₁ e₂ e₃).message =
        (ParseError.rightGrouped n e₁ e₂ e₃).message := by
      rw [ParseError.message, ParseError.message, ParseError.reason_leftGrouped,
        ParseError.reason_rightGrouped]
    have place : (ParseError.leftGrouped m n e₁ e₂ e₃).state =
        (ParseError.rightGrouped n e₁ e₂ e₃).state := by
      rw [ParseError.state_leftGrouped, ParseError.state_rightGrouped]
    by_cases strays : ParseError.Straying e₁ e₂ e₃
    · refine .straying hrefused strays (message.trans right.message) (place ▸ right.state)
        (corresponds_state hs ht) ?_ ?_
      · rw [ParseError.expectedNames, strays.left, ParseError.expectedNames]
      · rw [← right.names]
        rw [ParseError.expectedNames, strays.right, List.map_append]
        rfl
    · refine .same (.reply (.err false ⟨message.trans right.message, ?_, place ▸ right.state⟩
        (corresponds_state hs ht)))
      rw [← right.names, ParseError.expectedNames, ParseError.expected_grouped m n n strays]
      rfl

/-! ## Choices as they are built -/

/-- In all stores that keep the definitions of `base`, the parsers `a` and `b` are the choice of
`p`, `q` and `r`: `a` is grouped to the left around `inner`, and `b` to the right around `inner'`.
-/
structure Regrouping (base : Store W) (p q r a inner b inner' : ParserId) : Prop where
  /-- Grouped to the left, the parsers are tried one after the other. -/
  left : ∀ chunks σ s y, base.Maintains σ → (a.Arrives chunks s σ y ↔
    Trial chunks p q r (a.beforeLeft inner) ParseError.leftGrouped s σ y)
  /-- So they are if the choice is grouped to the right. -/
  right : ∀ chunks σ s y, base.Maintains σ → (b.Arrives chunks s σ y ↔
    Trial chunks p q r (b.beforeRight inner') (fun _ => ParseError.rightGrouped) s σ y)
  /-- For the same three failures the reasons and the places are the same. -/
  place : ∀ (m n k : Nat) (e₁ e₂ e₃ : ParseError Value),
    (ParseError.leftGrouped m n e₁ e₂ e₃).reason = (ParseError.rightGrouped k e₁ e₂ e₃).reason ∧
      (ParseError.leftGrouped m n e₁ e₂ e₃).state = (ParseError.rightGrouped k e₁ e₂ e₃).state
  /-- The same is expected, unless the second failure strays. -/
  expected : ∀ (m n k : Nat) (e₁ e₂ e₃ : ParseError Value), ¬ParseError.Straying e₁ e₂ e₃ →
    (ParseError.leftGrouped m n e₁ e₂ e₃).expected =
      (ParseError.rightGrouped k e₁ e₂ e₃).expected
  /-- If it strays, the grouping to the left forgets what the first parser expected. -/
  forgotten : ∀ (m n k : Nat) (e₁ e₂ e₃ : ParseError Value), ParseError.Straying e₁ e₂ e₃ →
    (ParseError.leftGrouped m n e₁ e₂ e₃).expected = e₃.expected ∧
      (ParseError.rightGrouped k e₁ e₂ e₃).expected = e₁.expected ++ e₃.expected
  /-- With pure functions of the caller, whatever the one grouping arrives at over a stream of data,
  the other one arrives at the same, up to that difference. -/
  regrouped : ∀ (P : ParserId → Prop) (σ : Store W), base.Maintains σ → σ.Pure P → P p → P q →
    P r → ∀ (chunks : Int → Stream Value) (i : Stream Value) (x : Elements) (watched : Bool)
      (position : Int) (user : Value) (y : EStateM.Result Stop (Store W) (Finish W)),
    i.Supplies σ x → (∀ v ∈ x, v.Settled) →
    a.Arrives chunks (.plain watched i position user) σ y →
    ∃ y', b.Arrives chunks (.plain watched i position user) σ y' ∧ Finish.Regrouped
      (Refused chunks p q r (a.beforeLeft inner) (.plain watched i position user) σ) y y'
  /-- Where the grouping to the right arrives, so does the grouping to the left. -/
  arrives : ∀ (P : ParserId → Prop) (σ : Store W), base.Maintains σ → σ.Pure P → P p → P q →
    P r → ∀ (chunks : Int → Stream Value) (i : Stream Value) (x : Elements) (watched : Bool)
      (position : Int) (user : Value) (y' : EStateM.Result Stop (Store W) (Finish W)),
    i.Supplies σ x → (∀ v ∈ x, v.Settled) →
    b.Arrives chunks (.plain watched i position user) σ y' →
    ∃ y, a.Arrives chunks (.plain watched i position user) σ y

/-- Two parsers that perform the choices are the two groupings. -/
theorem Regrouping.of_performs {base : Store W} {p q r a inner b inner' : ParserId}
    (ha : a.Performs base (.alt inner r)) (hi : inner.Performs base (.alt p q))
    (hb : b.Performs base (.alt p inner')) (hi' : inner'.Performs base (.alt q r)) :
    Regrouping base p q r a inner b inner' := by
  have left (chunks : Int → Stream Value) (σ : Store W) (s : State Value)
      (y : EStateM.Result Stop (Store W) (Finish W)) (g : base.Maintains σ) :
      a.Arrives chunks s σ y ↔
        Trial chunks p q r (a.beforeLeft inner) ParseError.leftGrouped s σ y :=
    Trial.left (ha.maintained g (by simp)) (hi.maintained g (by simp))
  have right (chunks : Int → Stream Value) (σ : Store W) (s : State Value)
      (y : EStateM.Result Stop (Store W) (Finish W)) (g : base.Maintains σ) :
      b.Arrives chunks s σ y ↔
        Trial chunks p q r (b.beforeRight inner') (fun _ => ParseError.rightGrouped) s σ y :=
    Trial.right (hb.maintained g (by simp)) (hi'.maintained g (by simp))
  refine ⟨left, right, fun m n k e₁ e₂ e₃ => ⟨?_, ?_⟩, fun m n k e₁ e₂ e₃ h => ?_,
    fun m n k e₁ e₂ e₃ h => ⟨h.left m n, h.right k⟩, ?_, ?_⟩
  · rw [ParseError.reason_leftGrouped, ParseError.reason_rightGrouped]
  · rw [ParseError.state_leftGrouped, ParseError.state_rightGrouped]
  · exact ParseError.expected_grouped m n k h
  · intro P σ g pure hp hq hr chunks i x watched position user y hx data run
    -- With pure functions a trial carries over to the bookkeeping of the other grouping.
    obtain ⟨w, hs, ht, parsers⟩ :=
      Storage.begins pure.agree hx hx data watched position user
    obtain ⟨y', trial, alike⟩ := ((left chunks σ _ y g).mp run).transfer
      (Storage.lawful W).lawful (Storage.keepsArrivals W chunks) (a.clerical_beforeLeft inner)
      (b.clerical_beforeRight inner') hs ⟨x, ht⟩ (parsers p hp) (parsers q hq) (parsers r hr)
    exact ⟨y', (right chunks σ _ y' g).mpr trial, Storage.regrouped alike⟩
  · intro P σ g pure hp hq hr chunks i x watched position user y' hx data run
    obtain ⟨w, hs, ht, parsers⟩ :=
      Storage.begins pure.agree hx hx data watched position user
    obtain ⟨y, trial, -⟩ := ((right chunks σ _ y' g).mp run).transfer
      (Storage.lawful W).lawful (Storage.keepsArrivals W chunks) (b.clerical_beforeRight inner')
      (a.clerical_beforeLeft inner) hs ⟨x, ht⟩ (parsers p hp) (parsers q hq) (parsers r hr)
    exact ⟨y, (left chunks σ _ y g).mpr trial⟩

/-- A choice of three parsers is associative, but for what is expected where the second failure
strays. Any three parsers of a store are put together in both ways. In all stores that keep these
definitions, in every state, inside sessions as well, and whatever functions of the caller do, both
groupings try the same parsers one after the other, up to the first one that does not fail without
consuming, and reply as that one does. If all fail, both replies have the message, the place and the
state of the last failure, and expect the same, unless the second failure strays. With pure
functions the results of the two groupings are therefore the same, up to that difference. -/
theorem choice_is_regrouped (p q r : ParserId) (σ : Store W) (hp : p.index < σ.parsers.size)
    (hq : q.index < σ.parsers.size) (hr : r.index < σ.parsers.size) :
    let left := (Grammar.or (.or (.ref p) (.ref q)) (.ref r)).build σ
    let right := (Grammar.or (.ref p) (.or (.ref q) (.ref r))).build left.2
    ∃ inner inner', Regrouping right.2 p q r left.1 inner right.1 inner' := by
  intro left right
  let P : ParserId → Prop := fun a => a.index < σ.parsers.size
  have marked {τ : Store W} (grows : σ.Grows τ) (a : ParserId) (ha : P a) :
      a.Marked τ (τ.marks a) := by
    obtain ⟨c, hc, -⟩ := grows.parsers a.index _ (Array.getElem?_eq_getElem ha)
    refine ⟨c, hc, ?_⟩
    rw [Store.marks, hc, Option.getD_some]
  have library : (Grammar.or (.or (.ref p) (.ref q)) (.ref r) : Grammar W).Library
      (fun _ => True) P := .or (.or (.ref hp) (.ref hq)) (.ref hr)
  have library' : (Grammar.or (.ref p) (.or (.ref q) (.ref r)) : Grammar W).Library
      (fun _ => True) P := .or (.ref hp) (.or (.ref hq) (.ref hr))
  obtain ⟨extends₁, made⟩ := library.made (marked (.refl σ))
  obtain ⟨extends₂, made'⟩ := library'.made (marked extends₁.grows)
  -- What has been built are two choices each, around the parsers that are referred to.
  cases made.built with
  | alt hinner hc performs =>
    obtain rfl := hc.eq_of_ref
    cases hinner with
    | alt ha hb performs₁ =>
      obtain rfl := ha.eq_of_ref
      obtain rfl := hb.eq_of_ref
      cases made'.built with
      | alt ha' hinner' performs' =>
        obtain rfl := ha'.eq_of_ref
        cases hinner' with
        | alt hb' hc' performs₂ =>
          obtain rfl := hb'.eq_of_ref
          obtain rfl := hc'.eq_of_ref
          have later := extends₂.grows
          exact ⟨_, _, .of_performs (performs.later later) (performs₁.later later)
            performs' performs₂⟩

/-- The second parser goes back over one of two tokens, so it fails at another place than the first
and the third one. -/
theorem choice_is_regrouped_around_attempt :
    let σ : Store Unit := .initial () fun _ _ => ()
    let p := (Grammar.token (.text (.ofString "p"))).build σ
    let q := (Grammar.attempt (.plus (.token (.text (.ofString "x")))
      (.token (.text (.ofString "y"))))).build p.2
    let r := (Grammar.token (.text (.ofString "r"))).build q.2
    let left := (Grammar.or (.or (.ref p.1) (.ref q.1)) (.ref r.1)).build r.2
    let right := (Grammar.or (.ref p.1) (.or (.ref q.1) (.ref r.1))).build left.2
    (p.1.index < r.2.parsers.size ∧ q.1.index < r.2.parsers.size ∧
      r.1.index < r.2.parsers.size) ∧
    ∃ inner inner', Regrouping right.2 p.1 q.1 r.1 left.1 inner right.1 inner' := by
  intro σ p q r left right
  have bounds : p.1.index < r.2.parsers.size ∧ q.1.index < r.2.parsers.size ∧
      r.1.index < r.2.parsers.size := by decide +kernel
  exact ⟨bounds, choice_is_regrouped p.1 q.1 r.1 r.2 bounds.1 bounds.2.1 bounds.2.2⟩

/-- What the parser expects where it fails without consuming, if it does so within a number of
steps. -/
def ParserId.expects (p : ParserId) (s : State Value) (bound : Nat) (σ : Store W) :
    Option (List String) :=
  match (p.runWith (fun _ => .nil) 0 s).exec bound σ with
  | .ok (.reply (.err false e _)) τ => some (e.expectedNames τ.names)
  | .ok (.reply (.err true ..)) _ | .ok (.reply (.ok ..)) _ | .ok (.request _) _ | .error .. => none

theorem ParserId.arrives_of_expects {p : ParserId} {s : State Value} {bound : Nat} {σ : Store W}
    {names : List String} (h : p.expects s bound σ = some names) :
    ∃ e t τ, p.Arrives (fun _ => .nil) s σ (.ok (.reply (.err false e t)) τ) ∧
      e.expectedNames τ.names = names := by
  generalize hy : (p.runWith (fun _ => .nil) 0 s).exec bound σ = y at h
  rw [expects, hy] at h
  split at h
  · rename_i e t τ
    have run := (composed_runWith _ _ _ _).comes hy not_exhausted_ok
    exact ⟨e, t, τ, ⟨by simp, 0, run⟩, Option.some.inj h⟩
  all_goals cases h

/-- Of these parsers the two groupings do not expect the same. -/
theorem choice_forgets_expected :
    let σ : Store Unit := .initial () fun _ _ => ()
    let p := (Grammar.token (.text (.ofString "p"))).build σ
    let q := (Grammar.attempt (.plus (.token (.text (.ofString "x")))
      (.token (.text (.ofString "y"))))).build p.2
    let r := (Grammar.token (.text (.ofString "r"))).build q.2
    let left := (Grammar.or (.or (.ref p.1) (.ref q.1)) (.ref r.1)).build r.2
    let right := (Grammar.or (.ref p.1) (.or (.ref q.1) (.ref r.1))).build left.2
    let s : State Value := .plain false
      (.cons 0 (.text (.ofString "x")) (.cons 0 (.text (.ofString "z")) .nil)) 0 .none
    ∃ e t υ f u ω, left.1.Arrives (fun _ => .nil) s right.2 (.ok (.reply (.err false e t)) υ) ∧
      right.1.Arrives (fun _ => .nil) s right.2 (.ok (.reply (.err false f u)) ω) ∧
      e.expectedNames υ.names = ["'r'"] ∧ f.expectedNames ω.names = ["'p'", "'r'"] := by
  intro σ p q r left right s
  have first : left.1.expects s 60 right.2 = some ["'r'"] := by decide +kernel
  have second : right.1.expects s 60 right.2 = some ["'p'", "'r'"] := by decide +kernel
  generalize left.1 = a at first ⊢
  generalize right = b at first second ⊢
  obtain ⟨e, t, υ, run, names⟩ := ParserId.arrives_of_expects first
  obtain ⟨f, u, ω, run', names'⟩ := ParserId.arrives_of_expects second
  exact ⟨e, t, υ, f, u, ω, run, run', names, names'⟩

end ResumableParsing
