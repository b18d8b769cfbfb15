import ResumableParsing.Proofs.Repetition.Counting

/-!
# Repetition combinators as one loop

The repetition combinators are built in four ways: by self-reference, by sequences, by choices
inside one another, and by appending two streams. All of them are one greedy loop, with a lower and
an upper bound on the number of successes.

* `ParserId.Loops`: the parser is the loop, and shows its results in some way
* `Grammar.Repeating`: the combinators, with their bounds
* `IsLoop`: the parsers that a counted repetition is put together from
* `repetition_counts_greedily`: the combinators are the loop, and so are their eager versions
-/

namespace ResumableParsing

variable {W : Type}

/-! ## Showing results -/

/-- How the results of a repetition are shown by a value, in a store. Tails before the `k`-th have
been there before. -/
abbrev Presentation (W : Type) := Nat → Store W → Value → List Value → Prop

/-- The value is a stream. Reading it to its end gives the results, computes no tail that has been
there before, and changes nothing else but the log and serial numbers. -/
def Presentation.stream : Presentation W := fun k σ v vs =>
  ∃ x τ, v = .stream x ∧ x.toList.Comes σ (.ok vs τ) ∧ σ.Filed k τ

/-- The value is the list of the results. -/
def Presentation.list : Presentation W := fun _ _ v vs => v = .list vs

/-- `r.Shows present τ y`: where the loop has come to `r` and left the store `τ`, the run of a
parser has the outcome `y`, and leaves a store that differs in bookkeeping. -/
inductive Tally.Shows (present : Presentation W) (τ : Store W) :
    Tally → EStateM.Result Stop (Store W) (Finish W) → Prop where
  /-- The results. -/
  | ok {c : Bool} {vs : List Value} {s : State Value} {v : Value} {υ : Store W} :
      present τ.tails.size υ v vs → τ.Filed τ.tails.size υ →
      Shows present τ (.ok c vs s) (.ok (.reply (.ok c v s)) υ)
  /-- The error. -/
  | err {c : Bool} {e : ParseError Value} {s : State Value} {υ : Store W} :
      τ.Filed τ.tails.size υ → Shows present τ (.err c e s) (.ok (.reply (.err c e s)) υ)
  /-- The fault of a repetition without end. -/
  | endless {name : String} {υ : Store W} : τ.Filed τ.tails.size υ →
      Shows present τ .endless (.error (.raised (.endlessRepetition name)) υ)
  /-- The parser that is repeated has broken off. -/
  | broken {e : Stop} {υ : Store W} : τ.Filed τ.tails.size υ →
      Shows present τ (.broken e) (.error e υ)

/-- The applications of a parser, where some bookkeeping may be done before each of them. -/
def ParserId.applying (chunks : Int → Stream Value) (p : ParserId)
    (before : Nat → Store W → Store W) : Application W :=
  fun n s σ y => p.Arrives chunks s (before n σ) y

/-- The parser `q` is the greedy loop over `p`: in every state, in all stores in which definitions
are as in `base`, and whatever chunks the input comes in, it arrives at something exactly where the
loop comes to something, and shows what the loop comes to. -/
def ParserId.Loops (q : ParserId) (base : Store W) (p : ParserId) (low : Nat)
    (high : Option Nat) (present : Presentation W) : Prop :=
  ∃ before : Nat → Store W → Store W, (∀ n (σ : Store W), σ.Clerical (before n σ)) ∧
    ∀ chunks σ s, base.Maintains σ →
      (∀ y, q.Arrives chunks s σ y → ∃ r τ,
        Greedy (p.applying chunks before) low high 0 false [] s σ r τ ∧ r.Shows present τ y) ∧
      ∀ r τ, Greedy (p.applying chunks before) low high 0 false [] s σ r τ →
        ∃ y, q.Arrives chunks s σ y ∧ r.Shows present τ y

/-- The applications `R`, where some bookkeeping may be done before each of them. -/
def Application.after (R : Application W) (before : Nat → Store W → Store W) : Application W :=
  fun n s σ y => R n s (before n σ) y

/-- The parser `q` is the greedy loop over the applications `R`, as in `ParserId.Loops`. What the
loop comes to is finished off, with the state in which it has begun. -/
def ParserId.Iterates (q : ParserId) (base : Store W)
    (R : (Int → Stream Value) → Application W) (low : Nat) (high : Option Nat)
    (finish : State Value → Tally → Tally) (present : Presentation W) : Prop :=
  ∃ before : Nat → Store W → Store W, (∀ n (σ : Store W), σ.Clerical (before n σ)) ∧
    ∀ chunks σ s, base.Maintains σ →
      (∀ y, q.Arrives chunks s σ y → ∃ r τ,
        Greedy ((R chunks).after before) low high 0 false [] s σ r τ ∧
          (finish s r).Shows present τ y) ∧
      ∀ r τ, Greedy ((R chunks).after before) low high 0 false [] s σ r τ →
        ∃ y, q.Arrives chunks s σ y ∧ (finish s r).Shows present τ y

section

variable {base σ τ υ : Store W} {p q a b last : ParserId} {low k n : Nat} {high : Option Nat}
  {r : Tally} {present : Presentation W} {y : EStateM.Result Stop (Store W) (Finish W)}
  {R : (Int → Stream Value) → Application W} {finish : State Value → Tally → Tally}

/-- The loop over a parser is the loop over its runs. -/
theorem ParserId.loops_iff_iterates : q.Loops base p low high present ↔
    q.Iterates base (fun chunks _ => p.Arrives chunks) low high (fun _ r => r) present := .rfl

theorem Store.Clerical.tails_size (h : σ.Clerical τ) : τ.tails.size = σ.tails.size := by
  obtain ⟨log, n, -, rfl⟩ := h
  rfl

/-- Bookkeeping after the loop. -/
theorem Tally.Shows.of_clerical (h : r.Shows present τ y) (k : υ.Clerical τ) :
    r.Shows present υ y := by
  have size := k.tails_size
  have filed {χ : Store W} (h : τ.Filed τ.tails.size χ) : υ.Filed υ.tails.size χ :=
    (k.filed _).trans (size ▸ h)
  cases h with
  | ok h f => exact .ok (size ▸ h) (filed f)
  | err f => exact .err (filed f)
  | endless f => exact .endless (filed f)
  | broken f => exact .broken (filed f)

theorem Presentation.of_spells {x : Stream Value} {vs : List Value} (h : x.Spells vs) (k : Nat)
    (σ : Store W) : Presentation.stream k σ (.stream x) vs := by
  obtain ⟨τ, read, filed⟩ := (h.reads k σ).toList
  exact ⟨x, τ, rfl, read, filed⟩

/-- What is shown cell by cell is shown by a stream. -/
theorem Tally.Shown.shows {settle : Nat → Store W → Store W}
    (hs : ∀ k (σ : Store W), σ.Clerical (settle k σ))
    (h : r.Shown settle n τ y) : r.Shows .stream τ y := by
  cases h with
  | ok spells =>
    exact .ok (Presentation.of_spells spells _ _) (((hs _ τ).trans (.drawn _ _)).filed _)
  | err => exact .err (.refl _ τ)
  | endless => exact .endless (.refl _ τ)
  | broken => exact .broken (.refl _ τ)

/-- Bookkeeping before the loop. -/
theorem ParserId.Iterates.enter {before : Nat → Store W → Store W} {f : Store W → Store W}
    (hbefore : ∀ n (σ : Store W), σ.Clerical (before n σ)) (hf : ∀ σ : Store W, σ.Clerical (f σ))
    (h : ∀ chunks σ s, base.Maintains σ →
      (∀ y, q.Arrives chunks s σ y → ∃ r τ,
        Greedy ((R chunks).after before) low high 0 false [] s (f σ) r τ ∧
          (finish s r).Shows present τ y) ∧
      ∀ r τ, Greedy ((R chunks).after before) low high 0 false [] s (f σ) r τ →
        ∃ y, q.Arrives chunks s σ y ∧ (finish s r).Shows present τ y) :
    q.Iterates base R low high finish present := by
  have entered (chunks : Int → Stream Value) :
      (R chunks).after (fun n σ => before n (if n = 0 then f σ else σ)) =
        ((R chunks).after before).entering 0 f := rfl
  -- What is noted on entering is part of the bookkeeping before the first application.
  refine ⟨fun n σ => before n (if n = 0 then f σ else σ), fun n σ => ?_, fun chunks σ s g => ?_⟩
  · by_cases hn : n = 0
    · simp only [if_pos hn]
      exact (hf σ).trans (hbefore n _)
    · simp only [if_neg hn]
      exact hbefore n σ
  rw [entered]
  obtain ⟨sound, complete⟩ := h chunks σ s g
  constructor
  · intro y hy
    obtain ⟨r, τ, loop, shows⟩ := sound y hy
    obtain ⟨τ', loop', eq⟩ := loop.enter
    refine ⟨r, τ', loop', ?_⟩
    rcases eq with rfl | rfl
    · exact shows
    · exact shows.of_clerical (hf τ')
  · intro r τ loop
    obtain ⟨τ', loop', eq⟩ := loop.of_enter
    obtain ⟨y, hy, shows⟩ := complete r τ' loop'
    refine ⟨y, hy, ?_⟩
    rcases eq with rfl | rfl
    · exact shows
    · exact shows.of_clerical (hf τ)

/-! ## The parts of a repetition -/

/-- The parser is the loop after `n` successes. -/
def IsLoop (base : Store W) (p : ParserId) (low : Nat) (high : Option Nat) (n : Nat)
    (q : ParserId) : Prop :=
  ∃ before settle : Nat → Store W → Store W, (∀ n (σ : Store W), σ.Clerical (before n σ)) ∧
    (∀ n (σ : Store W), σ.Clerical (settle n σ)) ∧
    ∀ chunks, q.Counts chunks base (p.applying chunks before) low high settle n

/-- A parser that is the loop from the start shows its results by a stream. -/
theorem IsLoop.repeats (h : IsLoop base p low high 0 q) : q.Loops base p low high .stream := by
  obtain ⟨before, settle, hb, hs, counts⟩ := h
  refine ⟨before, hb, fun chunks σ s g => ⟨fun y hy => ?_, fun r τ loop => ?_⟩⟩
  · obtain ⟨r, τ, loop, shown⟩ := (counts chunks).sound σ g s y hy
    exact ⟨r, τ, loop, shown.shows hs⟩
  · obtain ⟨y, hy, shown⟩ := (counts chunks).complete σ g s r τ loop
    exact ⟨y, hy, shown.shows hs⟩

theorem isLoop_full (h : q.Performs base (.pure (.stream .nil))) (hn : high = some n) :
    IsLoop base p low high n q :=
  ⟨fun _ => id, fun _ => q.tried, fun _ => .refl, fun _ => q.clerical_tried,
    fun _ => counts_full h hn rfl⟩

theorem isLoop_many (h : q.Performs base (.many q p)) (hn : low ≤ n) :
    IsLoop base p low none n q :=
  ⟨fun _ => q.tried, fun _ => id, fun _ => q.clerical_tried, fun _ => .refl,
    fun _ => counts_many h rfl hn (fun _ _ => rfl) fun _ _ _ _ _ _ => .rfl⟩

theorem isLoop_seq (h : q.Performs base (.seq p last .cons)) (hlow : n < low)
    (hhigh : ∀ k, high = some k → low ≤ k) (hlast : IsLoop base p low high (n + 1) last) :
    IsLoop base p low high n q := by
  obtain ⟨before, settle, hb, hs, counts⟩ := hlast
  refine ⟨Function.update before n q.tried, settle, fun k σ => ?_, hs, fun chunks => ?_⟩
  · by_cases hk : k = n
    · rw [hk, Function.update_self]
      exact q.clerical_tried σ
    · rw [Function.update_of_ne hk]
      exact hb k σ
  · refine counts_seq h hlow (fun e => absurd (hhigh n e) (by omega)) (fun s σ y => ?_)
      ((counts chunks).congr (fun k hk s σ y => ?_) fun _ _ => rfl)
    · rw [ParserId.applying, Function.update_self]
    · rw [ParserId.applying, ParserId.applying, Function.update_of_ne (by omega)]

theorem isLoop_optional {q₁ q₂ : ParserId} (h : q.Performs base (.alt q₁ q₂))
    (h₁ : q₁.Performs base (.seq p last .cons)) (h₂ : q₂.Performs base (.pure (.stream .nil)))
    (hlow : low ≤ n) (hk : k ≠ n) (hlast : IsLoop base p low (some k) (n + 1) last) :
    IsLoop base p low (some k) n q := by
  obtain ⟨before, settle, hb, hs, counts⟩ := hlast
  refine ⟨Function.update before n (q₁.tried ∘ q.tried), Function.update settle n q₂.tried,
    fun k σ => ?_, fun k σ => ?_, fun chunks => ?_⟩
  · by_cases hk : k = n
    · rw [hk, Function.update_self]
      exact (q.clerical_tried σ).trans (q₁.clerical_tried _)
    · rw [Function.update_of_ne hk]
      exact hb k σ
  · by_cases hk : k = n
    · rw [hk, Function.update_self]
      exact q₂.clerical_tried σ
    · rw [Function.update_of_ne hk]
      exact hs k σ
  -- What follows has its own places in the bookkeeping, all of them behind this one.
  · refine counts_optional h h₁ h₂ hlow rfl hk (Function.update_self ..) (fun s σ y => ?_)
      ((counts chunks).congr (fun k hk s σ y => ?_) fun k hk => ?_)
    · rw [ParserId.applying, Function.update_self]
      rfl
    · rw [ParserId.applying, ParserId.applying, Function.update_of_ne (by omega)]
    · rw [Function.update_of_ne (by omega)]

/-! ### Trees -/

open ResumableParsing.Core (Built)

/-- So many sequences around a parser that is the loop once they have succeeded. -/
theorem isLoop_repeated {tree : Core W} (h : ((Core.ref p).repeated k tree).Built base q)
    (hlow : n + k ≤ low) (hhigh : ∀ k, high = some k → low ≤ k)
    (hlast : ∀ q, tree.Built base q → IsLoop base p low high (n + k) q) :
    IsLoop base p low high n q := by
  induction k generalizing tree with
  | zero => exact hlast q h
  | succ k ih =>
    refine ih h (by omega) fun q hq => ?_
    cases hq with
    | seq hp hl performs =>
      obtain rfl := hp.eq_of_ref
      exact isLoop_seq performs (by omega) hhigh (hlast _ hl)

/-- So many choices inside one another. -/
theorem isLoop_upTo {tree : Core W} {m : Nat} (h : ((Core.ref p).upTo k tree).Built base q)
    (hlow : low ≤ n) (hm : n + k ≤ m)
    (hlast : ∀ q, tree.Built base q → IsLoop base p low (some m) (n + k) q) :
    IsLoop base p low (some m) n q := by
  induction k generalizing tree with
  | zero => exact hlast q h
  | succ k ih =>
    refine ih h (by omega) fun q hq => ?_
    cases hq with
    | alt hseq hpure performs =>
      cases hseq with
      | seq hp hl performs₁ =>
        obtain rfl := hp.eq_of_ref
        cases hpure with
        | pure performs₂ =>
          exact isLoop_optional performs performs₁ performs₂ (by omega) (by omega) (hlast _ hl)

theorem isLoop_noItems (h : (Core.noItems : Core W).Built base q) (hn : high = some n) :
    IsLoop base p low high n q := by
  cases h with
  | pure performs => exact isLoop_full performs hn

theorem isLoop_times (h : (Core.times n (.ref p)).Built base q) :
    IsLoop base p n (some n) 0 q := by
  rw [Core.times, Int.toNat_natCast] at h
  refine isLoop_repeated h (by omega) (by simp) fun q hq => isLoop_noItems hq (by simp)

/-! ## One stream after another -/

/-- The results of both loops, one after the other. -/
theorem shows_append {x x' : Stream Value} {vs ws : List Value} (hx : x.Spells vs)
    (hx' : x'.Spells ws) (k : τ.Clerical υ) : ∃ z χ,
      (Combine.append.join (.stream x) (.stream x')).Comes υ (.ok (.stream z) χ) ∧
      ∀ c s, (Tally.ok c (vs ++ ws) s).Shows .stream τ (.ok (.reply (.ok c (.stream z) s)) χ) := by
  obtain ⟨z, χ, joined, filed, reads⟩ := comes_append_join hx hx' υ
  obtain ⟨ω, read, filed'⟩ := reads.toList
  refine ⟨z, χ, joined, fun c s => .of_clerical (.ok ?_ filed) k⟩
  exact ⟨z, ω, rfl, read, filed'⟩

/-- Between two loops the results of the first one are put together. -/
def between (low : Nat) (settle : Nat → Store W → Store W) (τ : Store W) : Store W :=
  (settle low τ).drawn low

/-- The bookkeeping before the applications in two loops, one after the other. -/
def onwards (low : Nat) (before₁ before₂ : Nat → Store W → Store W) (f : Store W → Store W)
    (n : Nat) (σ : Store W) : Store W :=
  if n < low then before₁ n σ else before₂ n (if n = low then f σ else σ)

section

variable {chunks : Int → Stream Value} {s t : State Value} {c : Bool} {vs : List Value}
  {before₁ before₂ settle₁ settle₂ : Nat → Store W → Store W} {f : Store W → Store W}

theorem clerical_between (hs : ∀ n (σ : Store W), σ.Clerical (settle₁ n σ)) (τ : Store W) :
    τ.Clerical (between low settle₁ τ) :=
  (hs low τ).trans (.drawn _ _)

theorem clerical_onwards (h₁ : ∀ n (σ : Store W), σ.Clerical (before₁ n σ))
    (h₂ : ∀ n (σ : Store W), σ.Clerical (before₂ n σ)) (hf : ∀ σ : Store W, σ.Clerical (f σ))
    (n : Nat) (σ : Store W) : σ.Clerical (onwards low before₁ before₂ f n σ) := by
  by_cases hn : n < low
  · simp only [onwards, if_pos hn]
    exact h₁ n σ
  · simp only [onwards, if_neg hn]
    split
    · exact (hf σ).trans (h₂ n _)
    · exact h₂ n σ

/-- The loop is the one up to the lower bound, and then the one from there. -/
theorem greedy_onwards (hhigh : ∀ k, high = some k → low ≤ k) :
    Greedy (p.applying chunks (onwards low before₁ before₂ f)) low high 0 false [] s σ r τ ↔
      (∃ c vs t σ₁,
        Greedy (p.applying chunks before₁) low (some low) 0 false [] s σ (.ok c vs t) σ₁ ∧
        Greedy ((p.applying chunks before₂).entering low f) low high low c vs t σ₁ r τ) ∨
      (Greedy (p.applying chunks before₁) low (some low) 0 false [] s σ r τ ∧ ¬r.IsOk) :=
  Greedy.split hhigh
    (fun k hk s σ y => by simp only [ParserId.applying, onwards, if_pos hk])
    (fun k hk s σ y => by simp only [ParserId.applying, Application.entering, onwards,
      if_neg (Nat.not_lt_of_le hk)]) (Nat.zero_le low)

/-- The first loop succeeds after as many successes as are wanted. -/
theorem settled_between (loop : Greedy (p.applying chunks before₁) low (some low) 0 false [] s σ
    (.ok c vs t) τ) : (settle₁ (0 + vs.length) τ).drawn vs.length = between low settle₁ τ := by
  have le := loop.le_length (by simp)
  have ge := loop.length_le (Nat.zero_le low)
  have length : vs.length = low := by
    simp only [List.length_nil] at le ge
    omega
  rw [Nat.zero_add, length, between]

variable (hs₁ : ∀ n (σ : Store W), σ.Clerical (settle₁ n σ))
  (hs₂ : ∀ n (σ : Store W), σ.Clerical (settle₂ n σ))
  (counts₁ : a.Counts chunks base (p.applying chunks before₁) low (some low) settle₁ 0)
  (counts₂ : b.Counts chunks base (p.applying chunks before₂) low high settle₂ low)
  (hhigh : ∀ k, high = some k → low ≤ k) (g : base.Maintains σ)

include counts₁ counts₂ hhigh hs₁ g

/-- Where both parsers have replied, both loops have come to something. -/
theorem loops_of_both {d : Bool} {v : Value}
    (first : a.Arrives chunks s σ (.ok (.reply (.ok d v t)) σ₁)) (rest : b.Arrives chunks t σ₁ y) :
    ∃ vs, ∃ r : Tally, ∃ τ τ₂, ∃ x : Stream Value, v = .stream x ∧ x.Spells vs ∧
      r.Shown settle₂ low τ₂ y ∧ τ.Clerical τ₂ ∧
      Greedy (p.applying chunks (onwards low before₁ before₂ (between low settle₁))) low high 0
        false [] s σ (r.onto d vs) τ := by
  obtain ⟨r₁, τ₁, loop₁, shown₁⟩ := counts₁.sound σ g s _ first
  obtain ⟨r, τ₂, loop₂, shown⟩ := counts₂.sound σ₁ (g.trans first.grows.maintains) t y rest
  cases shown₁ with
  | @ok _ vs _ x spells =>
    rw [settled_between loop₁] at loop₂
    obtain ⟨τ, entered, eq⟩ := Greedy.enter (f := between low settle₁) loop₂
    have onward := entered.onto d vs
    rw [Bool.or_false, List.append_nil] at onward
    refine ⟨vs, r, τ, τ₂, x, rfl, spells, shown, ?_,
      (greedy_onwards hhigh).mpr (.inl ⟨d, vs, t, τ₁, loop₁, onward⟩)⟩
    rcases eq with rfl | rfl
    · exact .refl _
    · exact clerical_between hs₁ τ

include hs₂

/-- What two parsers in sequence arrive at shows what the loop comes to. -/
theorem loop_of_append (h : SeqArrives chunks a b .append s σ y) : ∃ r τ,
    Greedy (p.applying chunks (onwards low before₁ before₂ (between low settle₁))) low high 0
      false [] s σ r τ ∧ r.Shows .stream τ y := by
  cases h with
  | first first =>
    obtain ⟨r, τ, loop, shown⟩ := counts₁.sound σ g s _ first
    cases shown with
    | err => exact ⟨_, _, (greedy_onwards hhigh).mpr (.inr ⟨loop, id⟩), .err (.refl _ _)⟩
  | firstStop first =>
    obtain ⟨r, τ, loop, shown⟩ := counts₁.sound σ g s _ first
    cases shown with
    | endless => exact ⟨_, _, (greedy_onwards hhigh).mpr (.inr ⟨loop, id⟩), .endless (.refl _ _)⟩
    | broken => exact ⟨_, _, (greedy_onwards hhigh).mpr (.inr ⟨loop, id⟩), .broken (.refl _ _)⟩
  | second first rest =>
    obtain ⟨vs, r, τ, τ₂, x, -, -, shown, clerical, loop⟩ :=
      loops_of_both hs₁ counts₁ counts₂ hhigh g first rest
    cases shown with
    | err => exact ⟨_, τ, loop, .of_clerical (.err (.refl _ _)) clerical⟩
  | secondStop first rest =>
    obtain ⟨vs, r, τ, τ₂, x, -, -, shown, clerical, loop⟩ :=
      loops_of_both hs₁ counts₁ counts₂ hhigh g first rest
    cases shown with
    | endless => exact ⟨_, τ, loop, .of_clerical (.endless (.refl _ _)) clerical⟩
    | broken => exact ⟨_, τ, loop, .of_clerical (.broken (.refl _ _)) clerical⟩
  | both first rest joined =>
    obtain ⟨vs, r, τ, τ₂, x, rfl, hx, shown, clerical, loop⟩ :=
      loops_of_both hs₁ counts₁ counts₂ hhigh g first rest
    cases shown with
    | ok spells =>
      obtain ⟨z, χ, comes, shows⟩ :=
        shows_append hx spells ((clerical.trans (hs₂ _ τ₂)).trans (.drawn _ _))
      cases joined.unique comes
      exact ⟨_, τ, loop, shows _ _⟩
  | bothStop first rest joined =>
    obtain ⟨vs, r, τ, τ₂, x, rfl, hx, shown, -⟩ :=
      loops_of_both hs₁ counts₁ counts₂ hhigh g first rest
    cases shown with
    | ok spells =>
      obtain ⟨z, χ, comes, -⟩ := comes_append_join hx spells _
      cases joined.unique comes

/-- What the loop comes to is shown by what two parsers in sequence arrive at. -/
theorem append_of_loop
    (loop : Greedy (p.applying chunks (onwards low before₁ before₂ (between low settle₁))) low high
      0 false [] s σ r τ) :
    ∃ y, SeqArrives chunks a b .append s σ y ∧ r.Shows .stream τ y := by
  rcases (greedy_onwards hhigh).mp loop with ⟨c, vs, t, σ₁, loop₁, loop₂⟩ | ⟨loop₁, notOk⟩
  · obtain ⟨y₁, first, shown₁⟩ := counts₁.complete σ g s _ _ loop₁
    obtain ⟨τ', entered, eq⟩ := loop₂.of_enter
    obtain ⟨r', onward, rfl⟩ := entered.from_start
    have clerical : τ.Clerical τ' := by
      rcases eq with rfl | rfl
      · exact .refl _
      · exact clerical_between hs₁ τ
    cases shown₁ with
    | ok hx =>
      rw [settled_between loop₁] at first
      obtain ⟨y₂, rest, shown⟩ :=
        counts₂.complete _ (g.trans first.grows.maintains) t r' τ' onward
      cases shown with
      | ok spells =>
        obtain ⟨z, χ, joined, shows⟩ :=
          shows_append hx spells ((clerical.trans (hs₂ _ τ')).trans (.drawn _ _))
        exact ⟨_, .both first rest joined, shows _ _⟩
      | err => exact ⟨_, .second first rest, .of_clerical (.err (.refl _ _)) clerical⟩
      | endless => exact ⟨_, .secondStop first rest, .of_clerical (.endless (.refl _ _)) clerical⟩
      | broken => exact ⟨_, .secondStop first rest, .of_clerical (.broken (.refl _ _)) clerical⟩
  · obtain ⟨y, first, shown⟩ := counts₁.complete σ g s _ _ loop₁
    cases shown with
    | ok _ => exact absurd trivial notOk
    | err => exact ⟨_, .first first, .err (.refl _ _)⟩
    | endless => exact ⟨_, .firstStop first, .endless (.refl _ _)⟩
    | broken => exact ⟨_, .firstStop first, .broken (.refl _ _)⟩

end

/-- The loop up to the lower bound, and then the loop from there. -/
theorem repeats_append (h : q.Performs base (.seq a b .append))
    (ha : IsLoop base p low (some low) 0 a) (hb : IsLoop base p low high low b)
    (hhigh : ∀ k, high = some k → low ≤ k) : q.Loops base p low high .stream := by
  obtain ⟨before₁, settle₁, hb₁, hs₁, counts₁⟩ := ha
  obtain ⟨before₂, settle₂, hb₂, hs₂, counts₂⟩ := hb
  have clerical : ∀ n (σ : Store W),
      σ.Clerical (onwards low before₁ before₂ (between low settle₁) n σ) :=
    clerical_onwards hb₁ hb₂ (clerical_between hs₁)
  refine ParserId.loops_iff_iterates.mpr
    (.enter (f := q.tried) clerical q.clerical_tried fun chunks σ s g => ?_)
  have arrives {y : EStateM.Result Stop (Store W) (Finish W)} :
      q.Arrives chunks s σ y ↔ SeqArrives chunks a b .append s (q.tried σ) y :=
    arrives_seq (h.maintained g (by simp))
  have g' := g.trans (q.clerical_tried σ).grows.maintains
  constructor
  · intro y hy
    exact loop_of_append hs₁ hs₂ (counts₁ chunks) (counts₂ chunks) hhigh g' (arrives.mp hy)
  · intro r τ loop
    obtain ⟨y, hy, shows⟩ := append_of_loop hs₁ hs₂ (counts₁ chunks) (counts₂ chunks) hhigh g' loop
    exact ⟨y, arrives.mpr hy, shows⟩

/-! ## Lists -/

/-- The results of a stream, as a list. -/
theorem comes_listOf {x : Stream Value} {vs : List Value} (h : x.toList.Comes σ (.ok vs τ)) :
    (Build.listOf (W := W) (.stream x)).run.Comes σ (.ok (.list vs) τ) :=
  comes_bind_ok h (comes_pure _ τ)

/-- What a parser that reads results into a list arrives at shows the list of the results that the
stream shows. -/
theorem MapArrives.listed {chunks : Int → Stream Value} {s : State Value}
    (h : MapArrives chunks q Build.listOf s σ y) :
    ∃ z, q.Arrives chunks s σ z ∧ ∀ (r : Tally) (τ : Store W), r.Shows .stream τ z →
    r.Shows .list τ y := by
  cases h with
  | failed first =>
    refine ⟨_, first, fun r τ shows => ?_⟩
    cases shows with
    | err filed => exact .err filed
  | stop first =>
    refine ⟨_, first, fun r τ shows => ?_⟩
    cases shows with
    | endless filed => exact .endless filed
    | broken filed => exact .broken filed
  | mapped first mapped =>
    refine ⟨_, first, fun r τ shows => ?_⟩
    cases shows with
    | ok stream filed =>
      obtain ⟨x, ω, rfl, read, filed'⟩ := stream
      cases mapped.unique (comes_listOf read)
      exact .ok rfl (filed.trans filed')
  | mapStop first mapped =>
    refine ⟨_, first, fun r τ shows => ?_⟩
    cases shows with
    | ok stream _ =>
      obtain ⟨x, ω, rfl, read, -⟩ := stream
      cases mapped.unique (comes_listOf read)

/-- Where a parser shows results by a stream, the parser that reads them into a list arrives. -/
theorem Tally.Shows.listed {chunks : Int → Stream Value} {s : State Value}
    (shows : r.Shows .stream τ y) (hy : q.Arrives chunks s σ y) :
    ∃ z, MapArrives chunks q Build.listOf s σ z ∧ r.Shows .list τ z := by
  cases shows with
  | ok stream filed =>
    obtain ⟨x, ω, rfl, read, filed'⟩ := stream
    exact ⟨_, .mapped hy (comes_listOf read), .ok rfl (filed.trans filed')⟩
  | err filed => exact ⟨_, .failed hy, .err filed⟩
  | endless filed => exact ⟨_, .stop hy, .endless filed⟩
  | broken filed => exact ⟨_, .stop hy, .broken filed⟩

/-- A repetition whose results are read into a list. -/
theorem ParserId.Iterates.listed (hq : q.Iterates base R low high finish .stream)
    (h : a.Performs base (.map q Build.listOf)) : a.Iterates base R low high finish .list := by
  obtain ⟨before, hb, hq⟩ := hq
  refine .enter hb a.clerical_tried fun chunks σ s g => ?_
  have g' := g.trans (a.clerical_tried σ).grows.maintains
  have performs := h.maintained g (by simp)
  obtain ⟨sound, complete⟩ := hq chunks (a.tried σ) s g'
  constructor
  · intro y hy
    obtain ⟨z, hz, shows⟩ := ((arrives_map performs).mp hy).listed
    obtain ⟨r, τ, loop, shown⟩ := sound z hz
    exact ⟨r, τ, loop, shows _ τ shown⟩
  · intro r τ loop
    obtain ⟨y, hy, shown⟩ := complete r τ loop
    obtain ⟨z, hz, shows⟩ := shown.listed hy
    exact ⟨z, (arrives_map performs).mpr hz, shows⟩

end

/-! ## The combinators -/

/-- The repetition combinators, applied to a grammar, with their bounds. -/
inductive Grammar.Repeating (g : Grammar W) : Grammar W → Nat → Option Nat → Prop where
  /-- As often as it succeeds. -/
  | many : Repeating g (.many g) 0 none
  /-- At least once. -/
  | oneplus : Repeating g (.oneplus g) 1 none
  /-- Exactly `n` times. -/
  | times (n : Nat) : Repeating g (.times n g) n (Option.some n)
  /-- At least `low` times. -/
  | atLeast (low : Nat) : Repeating g (.betweenTimes low none g) low none
  /-- At least `low` times and at most `high` times. -/
  | between {low high : Nat} : low ≤ high →
      Repeating g (.betweenTimes low (Option.some high) g) low (Option.some high)

section

variable {base σ : Store W} {p q : ParserId} {g : Grammar W} {low : Nat} {high : Option Nat}

/-- A parser built as such a combinator is the loop. -/
theorem Grammar.Repeating.repeats {flags : ParserId → Bool}
    (h : Grammar.Repeating (.ref p) g low high) (hq : (g.core flags).Built base q) :
    q.Loops base p low high .stream := by
  cases h with
  | many =>
    cases hq with
    | many hp performs =>
      obtain rfl := hp.eq_of_ref
      exact (isLoop_many performs (Nat.le_refl 0)).repeats
  | oneplus =>
    cases hq with
    | seq hp hrest performs =>
      obtain rfl := hp.eq_of_ref
      cases hrest with
      | many hp performs' =>
        obtain rfl := hp.eq_of_ref
        exact (isLoop_seq performs Nat.zero_lt_one (by simp)
          (isLoop_many performs' (Nat.le_refl 1))).repeats
  | times n => exact (isLoop_times hq).repeats
  | atLeast =>
    cases hq with
    | seq ha hb performs =>
      cases hb with
      | many hp performs' =>
        obtain rfl := hp.eq_of_ref
        exact repeats_append performs (isLoop_times ha) (isLoop_many performs' (Nat.le_refl low))
          (by simp)
  | @between low high le =>
    cases hq with
    | seq ha hb performs =>
      refine repeats_append performs (isLoop_times ha) ?_ (by simpa using le)
      refine isLoop_upTo hb (Nat.le_refl low) (by omega) fun q hq => isLoop_noItems hq ?_
      rw [Option.some_inj]
      omega

theorem Grammar.Repeating.library (h : Grammar.Repeating (.ref p) g low high) :
    g.Library (fun _ => True) (· = p) := by
  cases h with
  | many => exact .many (.ref rfl)
  | oneplus => exact .oneplus (.ref rfl)
  | times => exact .times _ (.ref rfl)
  | atLeast => exact .betweenTimes _ _ (.ref rfl)
  | between => exact .betweenTimes _ _ (.ref rfl)

/-- Repetition combinators are one greedy loop. A parser is built by `many`, `oneplus`, `times` or
`betweenTimes` from any parser. Then in all stores that keep the definitions it arrives, in every
state, where the loop with the bounds of the combinator does: with the same outcome, final state and
error, and with a stream of the same results in order. The eager version arrives there too, with the
list of these results. -/
theorem repetition_counts_greedily (p : ParserId) (g : Grammar W) (low : Nat) (high : Option Nat)
    (σ : Store W) (hp : p.index < σ.parsers.size) (h : Grammar.Repeating (.ref p) g low high) :
    (g.build σ).1.Loops (g.build σ).2 p low high .stream ∧
      (g.listed.build σ).1.Loops (g.listed.build σ).2 p low high .list := by
  have marked : ∀ r, r = p → r.Marked σ (σ.marks r) := by
    rintro _ rfl
    refine ⟨_, Array.getElem?_eq_getElem hp, ?_⟩
    rw [Store.marks, Array.getElem?_eq_getElem hp, Option.getD_some]
  have library := h.library
  refine ⟨h.repeats (library.made marked).2.built, ?_⟩
  have listed := (Grammar.Library.listed library).made marked
  cases listed.2.built with
  | map hq performs =>
    exact ParserId.loops_iff_iterates.mpr
      ((ParserId.loops_iff_iterates.mp (h.repeats hq)).listed performs)

/-- One token, at least once and at most twice, on three tokens. -/
theorem repetition_counts_greedily_three_tokens :
    let token : Cell Unit := { direct := some (.body (.some ⟨0⟩ fun _ => .done true)) }
    let σ : Store Unit := { world := (), watch := fun _ _ => (), parsers := #[token] }
    let g : Grammar Unit := .betweenTimes 1 (some 2) (.ref ⟨0⟩)
    let s : State Value :=
      .plain false (.cons 0 (.int 1) (.cons 0 (.int 2) (.cons 0 (.int 3) .nil))) 0 .none
    Grammar.Repeating (.ref ⟨0⟩) g 1 (some 2) ∧ ∃ before vs t τ,
      Greedy (ParserId.applying (fun _ => .nil) ⟨0⟩ before) 1 (some 2) 0 false [] s
        (g.listed.build σ).2 (.ok true vs t) τ ∧ t.position = 2 := by
  intro token σ g s
  have bounds : Grammar.Repeating (.ref ⟨0⟩) g 1 (some 2) := .between (by decide)
  have script : (match ((g.listed.build σ).1.runWith (fun _ => .nil) 0 s).exec 60
      (g.listed.build σ).2 with
    | .ok (.reply (.ok d _ t)) _ => d && decide (t.position = 2)
    | .ok (.reply (.err ..)) _ | .ok (.request _) _ | .error .. => false) = true := by
    decide +kernel
  refine ⟨bounds, ?_⟩
  obtain ⟨-, before, -, loops⟩ :=
    repetition_counts_greedily ⟨0⟩ g 1 (some 2) σ (by decide) bounds
  generalize g.listed.build σ = built at script loops ⊢
  generalize hy : (built.1.runWith (fun _ => .nil) 0 s).exec 60 built.2 = y at script
  split at script
  · rename_i d v t _
    obtain ⟨rfl, position⟩ := Bool.and_eq_true_iff.mp script
    have run := (composed_runWith _ _ _ _).comes hy not_exhausted_ok
    obtain ⟨r, τ, loop, shows⟩ := (loops (fun _ => .nil) built.2 s (.refl _)).1 _ ⟨by simp, 0, run⟩
    cases shows with
    | @ok _ vs => exact ⟨before, vs, t, τ, loop, of_decide_eq_true position⟩
  all_goals cases script

end

end ResumableParsing
