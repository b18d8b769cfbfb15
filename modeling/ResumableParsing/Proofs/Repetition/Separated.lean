import ResumableParsing.Proofs.Repetition.Loops

/-!
# Separated lists

A separated list is put together from two sequences and an unlimited repetition. It is the greedy
loop over applications that are not all alike: the parser alone at first, and then the separator
with the parser behind it, as one unit. At least one success is wanted, so the first failure is that
of the whole list, and a unit fails without consuming only if the separator does not consume either.

* `UnitArrives`: the separator and then the parser
* `separating`: the applications of a separated list
* `Presentation.cells`: results as the cells of a stream, the empty stream if there are none
* `Tally.orNothing`: no results instead of a failure that has not consumed
* `separated_lists`: separated lists are this loop, and so are their eager versions
-/

namespace ResumableParsing

variable {W : Type}

/-! ## The applications -/

/-- What a separator and then a parser arrive at, as one unit. The result is that of the parser, and
the unit has consumed if either of them has. -/
inductive UnitArrives (chunks : Int → Stream Value) (sep p : ParserId) (s : State Value)
    (σ : Store W) : EStateM.Result Stop (Store W) (Finish W) → Prop where
  /-- The separator fails. -/
  | separatorFails {d : Bool} {e : ParseError Value} {t : State Value} {τ : Store W} :
      sep.Arrives chunks s σ (.ok (.reply (.err d e t)) τ) →
      UnitArrives chunks sep p s σ (.ok (.reply (.err d e t)) τ)
  /-- The separator breaks off. -/
  | separatorStops {e : Stop} {τ : Store W} : sep.Arrives chunks s σ (.error e τ) →
      UnitArrives chunks sep p s σ (.error e τ)
  /-- The parser fails behind a separator. -/
  | itemFails {d d' : Bool} {v : Value} {e : ParseError Value} {t u : State Value}
      {σ₁ τ : Store W} :
      sep.Arrives chunks s σ (.ok (.reply (.ok d v t)) σ₁) →
      p.Arrives chunks t σ₁ (.ok (.reply (.err d' e u)) τ) →
      UnitArrives chunks sep p s σ (.ok (.reply (.err (d || d') e u)) τ)
  /-- The parser breaks off behind a separator. -/
  | itemStops {d : Bool} {v : Value} {t : State Value} {e : Stop} {σ₁ τ : Store W} :
      sep.Arrives chunks s σ (.ok (.reply (.ok d v t)) σ₁) →
      p.Arrives chunks t σ₁ (.error e τ) → UnitArrives chunks sep p s σ (.error e τ)
  /-- Both succeed. -/
  | item {d d' : Bool} {v w : Value} {t u : State Value} {σ₁ τ : Store W} :
      sep.Arrives chunks s σ (.ok (.reply (.ok d v t)) σ₁) →
      p.Arrives chunks t σ₁ (.ok (.reply (.ok d' w u)) τ) →
      UnitArrives chunks sep p s σ (.ok (.reply (.ok (d || d') w u)) τ)

/-- The applications of a separated list: the parser, and then units of separator and parser. -/
def separating (p sep : ParserId) (chunks : Int → Stream Value) : Application W
  | 0 => p.Arrives chunks
  | _ + 1 => UnitArrives chunks sep p

/-- The value is a stream of cells with the results, and the empty one if there are none. -/
def Presentation.cells : Presentation W := fun _ _ v vs =>
  ∃ x : Stream Value, v = .stream x ∧ x.Spells vs ∧ (vs = [] → x = .nil)

/-- Where the loop fails without having consumed, there are no results, in the state in which it has
begun. -/
def Tally.orNothing (s : State Value) : Tally → Tally
  | .err false _ _ => .ok false [] s
  | r => r

section

variable {chunks : Int → Stream Value} {base σ τ : Store W} {p q q₁ q₂ sep : ParserId}
  {s : State Value} {low n : Nat} {high : Option Nat} {r : Tally}
  {R : (Int → Stream Value) → Application W} {finish : State Value → Tally → Tally}
  {present present' : Presentation W} {y : EStateM.Result Stop (Store W) (Finish W)}

/-- A unit is a sequence that gives its second result. -/
theorem unitArrives_iff :
    UnitArrives chunks sep p s σ y ↔ SeqArrives chunks sep p .second s σ y := by
  -- The results are joined without asking anything of the store.
  have joined (v w : Value) (σ : Store W) : (Combine.second.join v w).Comes σ (.ok w σ) :=
    comes_pure w σ
  constructor
  · intro h
    cases h with
    | separatorFails h => exact .first h
    | separatorStops h => exact .firstStop h
    | itemFails h h' => exact .second h h'
    | itemStops h h' => exact .secondStop h h'
    | item h h' => exact .both h h' (joined _ _ _)
  · intro h
    cases h with
    | first h => exact .separatorFails h
    | firstStop h => exact .separatorStops h
    | second h h' => exact .itemFails h h'
    | secondStop h h' => exact .itemStops h h'
    | both h h' e =>
      cases e.unique (joined _ _ _)
      exact .item h h'
    | bothStop h h' e => cases e.unique (joined _ _ _)

/-! ## Showing the results -/

/-- Results that are shown in one way are shown in a weaker way as well. -/
theorem ParserId.Iterates.imp (h : q.Iterates base R low high finish present)
    (weaker : ∀ k (σ : Store W) v vs, present k σ v vs → present' k σ v vs) :
    q.Iterates base R low high finish present' := by
  have shows {r : Tally} {τ : Store W} {y : EStateM.Result Stop (Store W) (Finish W)}
      (h : r.Shows present τ y) : r.Shows present' τ y := by
    cases h with
    | ok h filed => exact .ok (weaker _ _ _ _ h) filed
    | err filed => exact .err filed
    | endless filed => exact .endless filed
    | broken filed => exact .broken filed
  obtain ⟨before, hb, h⟩ := h
  refine ⟨before, hb, fun chunks σ s g => ⟨fun y hy => ?_, fun r τ loop => ?_⟩⟩
  · obtain ⟨r, τ, loop, shown⟩ := (h chunks σ s g).1 y hy
    exact ⟨r, τ, loop, shows shown⟩
  · obtain ⟨y, hy, shown⟩ := (h chunks σ s g).2 r τ loop
    exact ⟨y, hy, shows shown⟩

theorem Presentation.stream_of_cells (k : Nat) (σ : Store W) (v : Value) (vs : List Value)
    (h : Presentation.cells k σ v vs) : Presentation.stream k σ v vs := by
  obtain ⟨x, rfl, spells, -⟩ := h
  exact Presentation.of_spells spells k σ

/-- Where there is at least one result, what is shown cell by cell is shown by cells. -/
theorem Tally.Shown.cells (h : r.Shown (fun _ => id) n τ y)
    (some : ∀ c vs t, r = .ok c vs t → vs ≠ []) : r.Shows .cells τ y := by
  cases h with
  | ok spells =>
    have ne := some _ _ _ rfl
    exact .ok ⟨_, rfl, spells, fun none => absurd none ne⟩ ((Store.Clerical.drawn _ _).filed _)
  | err => exact .err (.refl _ τ)
  | endless => exact .endless (.refl _ τ)
  | broken => exact .broken (.refl _ τ)

/-! ## At least one item -/

/-- The store before an application: the list itself is tried before the first one, the repetition
and then the unit before the others. -/
def beforeItem (q rest u : ParserId) : Nat → Store W → Store W
  | 0 => q.tried
  | _ + 1 => fun σ => u.tried (rest.tried σ)

theorem clerical_beforeItem (q rest u : ParserId) (n : Nat) (σ : Store W) :
    σ.Clerical (beforeItem q rest u n σ) := by
  cases n with
  | zero => exact q.clerical_tried σ
  | succ n => exact (rest.clerical_tried σ).trans (u.clerical_tried _)

/-- An item, and then units of separator and item as often as they succeed, are the loop. -/
theorem iterates_separating {rest u : ParserId} (h : q.Performs base (.seq p rest .cons))
    (hrest : rest.Performs base (.many rest u)) (hu : u.Performs base (.seq sep p .second)) :
    q.Iterates base (separating p sep) 1 none (fun _ r => r) .cells := by
  have units (chunks : Int → Stream Value) : ∀ k ≥ 1, ∀ s (σ : Store W) y, base.Maintains σ →
      ((separating p sep chunks).after (beforeItem q rest u) k s σ y ↔
        u.Arrives chunks s (rest.tried σ) y) := by
    intro k hk s σ y g
    obtain ⟨k, rfl⟩ := Nat.exists_eq_add_of_le' hk
    have there := hu.maintained (g.trans (rest.clerical_tried σ).grows.maintains) (by simp)
    rw [arrives_seq there]
    exact unitArrives_iff
  have counts (chunks : Int → Stream Value) :
      q.Counts chunks base ((separating p sep chunks).after (beforeItem q rest u)) 1 none
        (fun _ => id) 0 :=
    counts_seq h Nat.zero_lt_one (by simp) (fun _ _ _ => .rfl)
      (counts_many hrest rfl (Nat.le_refl 1) (fun _ _ => rfl) (units chunks))
  have some {chunks : Int → Stream Value} {r : Tally} {s : State Value} {σ τ : Store W}
      (loop : Greedy ((separating p sep chunks).after (beforeItem q rest u)) 1 none 0 false [] s σ
        r τ) : ∀ c vs t, r = .ok c vs t → vs ≠ [] := by
    rintro c vs t rfl rfl
    have le := loop.le_length (by simp)
    simp at le
  refine ⟨beforeItem q rest u, clerical_beforeItem q rest u,
    fun chunks σ s g => ⟨fun y hy => ?_, fun r τ loop => ?_⟩⟩
  · obtain ⟨r, τ, loop, shown⟩ := (counts chunks).sound σ g s y hy
    exact ⟨r, τ, loop, shown.cells (some loop)⟩
  · obtain ⟨y, hy, shown⟩ := (counts chunks).complete σ g s r τ loop
    exact ⟨y, hy, shown.cells (some loop)⟩

/-- A parser built as a separated list with at least one item is the loop. -/
theorem Core.Built.separates (h : (Core.sepBy1 (.ref p) (.ref sep)).Built base q) :
    q.Iterates base (separating p sep) 1 none (fun _ r => r) .cells := by
  cases h with
  | seq hp hrest performs =>
    obtain rfl := hp.eq_of_ref
    cases hrest with
    | many hunit repeats =>
      cases hunit with
      | seq hsep hp' unit =>
        obtain rfl := hsep.eq_of_ref
        obtain rfl := hp'.eq_of_ref
        exact iterates_separating performs repeats unit

/-! ## Any number of items -/

/-- Only a failure that has not consumed is replaced. -/
theorem Tally.orNothing_eq (h : ∀ e t, r ≠ .err false e t) : r.orNothing s = r := by
  cases r with
  | err d e t =>
    cases d with
    | false => exact absurd rfl (h e t)
    | true => rfl
  | ok | endless | broken => rfl

/-- The choice between a loop and no items is the loop, or nothing. -/
theorem ParserId.Iterates.orNothing
    (hq : q₁.Iterates base R low high (fun _ r => r) .cells) (h : q.Performs base (.alt q₁ q₂))
    (h₂ : q₂.Performs base (.pure (.stream .nil))) :
    q.Iterates base R low high Tally.orNothing .cells := by
  obtain ⟨before, hb, hq⟩ := hq
  refine .enter hb q.clerical_tried fun chunks σ s g => ?_
  have g' := g.trans (q.clerical_tried σ).grows.maintains
  have nothing {y z : EStateM.Result Stop (Store W) (Finish W)}
      (first : q₁.Arrives chunks s (q.tried σ) z) : q₂.Arrives chunks s (left z) y ↔
        y = .ok (.reply (.ok false (.stream .nil) s)) (q₂.tried (left z)) :=
    arrives_pure (h₂.maintained (g'.trans first.grows.maintains) (by simp))
  have replaced {τ υ : Store W} {e : ParseError Value} {t : State Value}
      (filed : τ.Filed τ.tails.size υ) : ((Tally.err false e t).orNothing s).Shows .cells τ
        (.ok (.reply (.ok false (.stream .nil) s)) (q₂.tried υ) :
          EStateM.Result _ _ (Finish W)) :=
    .ok ⟨.nil, rfl, .nil, fun _ => rfl⟩ (filed.trans ((q₂.clerical_tried υ).filed _))
  obtain ⟨sound, complete⟩ := hq chunks (q.tried σ) s g'
  constructor
  · intro y hy
    cases (arrives_alt (h.maintained g (by simp))).mp hy with
    | first first keeps =>
      obtain ⟨r, τ, loop, shown⟩ := sound y first
      refine ⟨r, τ, loop, ?_⟩
      rwa [Tally.orNothing_eq]
      rintro e t rfl
      cases shown with
      | err => exact keeps _ _ _ rfl
    | second first second _ =>
      obtain ⟨r, τ, loop, shown⟩ := sound _ first
      cases (nothing first).mp second
      cases shown with
      | err filed => exact ⟨_, τ, loop, replaced filed⟩
    | neither first second => cases (nothing first).mp second
  · intro r τ loop
    suffices H : ∃ y, AltArrives chunks q₁ q₂ s (q.tried σ) y ∧
        (r.orNothing s).Shows .cells τ y by
      obtain ⟨y, hy, shown⟩ := H
      exact ⟨y, (arrives_alt (h.maintained g (by simp))).mpr hy, shown⟩
    obtain ⟨y, first, shown⟩ := complete r τ loop
    by_cases failed : ∃ e t, r = .err false e t
    · obtain ⟨e, t, rfl⟩ := failed
      cases shown with
      | err filed =>
        exact ⟨_, .second first ((nothing first).mpr rfl) (by simp), replaced filed⟩
    · have other : ∀ e t, r ≠ .err false e t := fun e t h => failed ⟨e, t, h⟩
      rw [Tally.orNothing_eq other]
      refine ⟨y, .first first ?_, shown⟩
      rintro e t υ rfl
      cases shown with
      | err => exact other e t rfl

/-! ## The combinators -/

/-- Separated lists are one greedy loop. A parser `p` is applied once, and from then on a separator
and `p` as one unit, each time in the state of the success before. The list fails where `p` fails at
first, and where a unit fails after consuming; it ends in the state before a unit that fails without
consuming, and breaks off where a unit succeeds without consuming. Its results are those of `p`, as
the cells of a stream. The list of any number of items is the same, but has no items, in the state
in which it has begun, where the loop fails without consuming. The eager versions give the results
as lists. -/
theorem separated_lists (p sep : ParserId) (σ : Store W) (hp : p.index < σ.parsers.size)
    (hsep : sep.index < σ.parsers.size) :
    let one : Grammar W := .sepBy1 (.ref p) (.ref sep)
    let any : Grammar W := .sepBy (.ref p) (.ref sep)
    ((one.build σ).1.Iterates (one.build σ).2 (separating p sep) 1 none (fun _ r => r) .cells ∧
      (one.listed.build σ).1.Iterates (one.listed.build σ).2 (separating p sep) 1 none
        (fun _ r => r) .list) ∧
    (any.build σ).1.Iterates (any.build σ).2 (separating p sep) 1 none Tally.orNothing .cells ∧
      (any.listed.build σ).1.Iterates (any.listed.build σ).2 (separating p sep) 1 none
        Tally.orNothing .list := by
  intro one any
  have there {r : ParserId} (hr : r.index < σ.parsers.size) : r.Marked σ (σ.marks r) := by
    refine ⟨_, Array.getElem?_eq_getElem hr, ?_⟩
    rw [Store.marks, Array.getElem?_eq_getElem hr, Option.getD_some]
  have marked : ∀ r, r = p ∨ r = sep → r.Marked σ (σ.marks r) := by
    rintro r (rfl | rfl)
    · exact there hp
    · exact there hsep
  have libraryOne : one.Library (fun _ => True) fun r => r = p ∨ r = sep :=
    .sepBy1 (.ref (.inl rfl)) (.ref (.inr rfl))
  have libraryAny : any.Library (fun _ => True) fun r => r = p ∨ r = sep :=
    .sepBy (.ref (.inl rfl)) (.ref (.inr rfl))
  have anySeparates {base : Store W} {q : ParserId} (h : (any.core σ.marks).Built base q) :
      q.Iterates base (separating p sep) 1 none Tally.orNothing .cells := by
    cases h with
    | alt hlist hnothing performs =>
      cases hnothing with
      | pure nothing => exact hlist.separates.orNothing performs nothing
  refine ⟨⟨(libraryOne.made marked).2.built.separates, ?_⟩,
    anySeparates (libraryAny.made marked).2.built, ?_⟩
  · cases ((Grammar.Library.listed libraryOne).made marked).2.built with
    | map hq performs =>
      exact (hq.separates.imp Presentation.stream_of_cells).listed performs
  · cases ((Grammar.Library.listed libraryAny).made marked).2.built with
    | map hq performs =>
      exact ((anySeparates hq).imp Presentation.stream_of_cells).listed performs

/-- Two items with a separator between them, and then a token that is none. -/
theorem separated_lists_two_items :
    let zero : Value → Bool := fun v => v.beq (.int 0)
    let item : Cell Unit := { direct := some (.body (.some ⟨0⟩ fun v => .done !zero v)) }
    let separator : Cell Unit := { direct := some (.body (.some ⟨1⟩ fun v => .done (zero v))) }
    let σ : Store Unit := { world := (), watch := fun _ _ => (), parsers := #[item, separator] }
    let g : Grammar Unit := .listed (.sepBy1 (.ref ⟨0⟩) (.ref ⟨1⟩))
    let s : State Value := .plain false
      (.cons 0 (.int 1) (.cons 0 (.int 0) (.cons 0 (.int 2) (.cons 0 (.int 3) .nil)))) 0 .none
    0 < σ.parsers.size ∧ 1 < σ.parsers.size ∧ ∃ before vs t τ,
      Greedy ((separating ⟨0⟩ ⟨1⟩ fun _ => .nil).after before) 1 none 0 false [] s
        (g.build σ).2 (.ok true vs t) τ ∧ t.position = 3 ∧ vs.length = 2 := by
  intro zero item separator σ g s
  have script : (match ((g.build σ).1.runWith (fun _ => .nil) 0 s).exec 60 (g.build σ).2 with
    | .ok (.reply (.ok d v t)) _ =>
      d && decide (t.position = 3 ∧ v.sequence?.map List.length = some 2)
    | .ok (.reply (.err ..)) _ | .ok (.request _) _ | .error .. => false) = true := by
    decide +kernel
  refine ⟨by decide, by decide, ?_⟩
  obtain ⟨⟨-, before, -, lists⟩, -⟩ := separated_lists ⟨0⟩ ⟨1⟩ σ (by decide) (by decide)
  change ∀ chunks σ' s, (g.build σ).2.Maintains σ' → _ at lists
  generalize g.build σ = built at script lists ⊢
  generalize hy : (built.1.runWith (fun _ => .nil) 0 s).exec 60 built.2 = y at script
  split at script
  · rename_i d v t _
    obtain ⟨rfl, facts⟩ := Bool.and_eq_true_iff.mp script
    obtain ⟨position, length⟩ := of_decide_eq_true facts
    have run := (composed_runWith _ _ _ _).comes hy not_exhausted_ok
    obtain ⟨r, τ, loop, shows⟩ := (lists (fun _ => .nil) built.2 s (.refl _)).1 _ ⟨by simp, 0, run⟩
    cases shows with
    | ok present =>
      cases present
      exact ⟨before, _, t, τ, loop, position, Option.some.inj length⟩
  all_goals cases script

end

end ResumableParsing
