import Mathlib.Data.List.Induction
import ResumableParsing.Proofs.Repetition.Counting
import ResumableParsing.Proofs.Sequence.Parts

/-!
# Chains and sequences

A chain of parsers runs its parts one after the other, like a sequence of them. Whether a part is
left out is decided while the chain is built, from the marks of the parsers; whether results are
gathered in a new group or added to one is decided while it runs, from the value so far. Together
this gives the plain results in one flat group, the bare result if there is one only, and a single
mark if there is none.

* `Grammar.chain`, `takesTurns_chain`: a chain runs its parts in turn
* `runsInTurn_sequence`: so does a sequence
* `Chaining`: what a chain and a sequence of the same parts arrive at
* `chains_gather_plain_results`: so they are built
-/

namespace ResumableParsing

variable {W : Type}

/-! ## Chains and sequences as they are built -/

/-- The chain of parsers, from left to right. -/
def Grammar.chain (q : ParserId) (qs : List ParserId) : Grammar W :=
  qs.foldl (fun g q => .plus g (.ref q)) (.ref q)

section

variable {base σ : Store W} {a b q first : ParserId} {qs : List ParserId}
  {marks : ParserId → Bool}

theorem Core.ignored_plus (flags : ParserId → Bool) (a b : Core W) :
    (Core.plus flags a b).ignored flags = (a.ignored flags && b.ignored flags) := by
  unfold Core.plus
  cases a.ignored flags <;> cases b.ignored flags <;> rfl

theorem Grammar.chain_concat (first q : ParserId) (qs : List ParserId) :
    (Grammar.chain first (qs ++ [q]) : Grammar W) = .plus (.chain first qs) (.ref q) := by
  unfold Grammar.chain
  rw [List.foldl_append]
  rfl

/-- A chain is left out if all of its parts are. -/
theorem Grammar.ignored_chain (flags : ParserId → Bool) (first : ParserId) (qs : List ParserId) :
    ((Grammar.chain first qs : Grammar W).core flags).ignored flags =
      (first :: qs).all flags := by
  induction qs using List.reverseRecOn with
  | nil => exact (Bool.and_true _).symm
  | append_singleton qs q ih =>
    rw [Grammar.chain_concat, Grammar.core, Core.ignored_plus, ih, ← List.cons_append,
      List.all_append]
    simp [Grammar.core, Core.ignored]

/-- Results are joined without asking anything of the store. -/
theorem comes_together (v w : Value) (σ : Store W) :
    (Combine.group.join v w).Comes σ (.ok (v.together w) σ) := by
  cases v <;> exact comes_pure _ σ

/-- A chain runs its parts in turn, and gathers the results of those that are not left out. The
induction follows the chain from left to right: with each part it is decided what becomes of its
result, from the marks of that part and of the chain before it. -/
theorem takesTurns_chain
    (skips : ∀ q ∈ first :: qs, marks q = true → ∃ code, q.Performs base (.ignore code))
    (h : ((Grammar.chain first qs : Grammar W).core marks).Built base a) :
    a.TakesTurns base (first :: qs) (Value.Chained marks (first :: qs)) := by
  -- The results of parts that are left out are marked.
  have marked (q : ParserId) (hq : q ∈ first :: qs) : ∀ chunks s (σ : Store W) d v t τ,
      base.Upholds σ → q.Arrives chunks s σ (.ok (.reply (.ok d v t)) τ) →
        (marks q = true → ∃ w, v = .ignored w) := by
    intro chunks s σ d v t τ g run mark
    obtain ⟨code, performs⟩ := skips q hq mark
    exact (performs.upheld g (by simp)).marks run
  induction qs using List.reverseRecOn generalizing a with
  | nil =>
    obtain rfl := h.eq_of_ref
    apply takesTurns_single (marked a (.head _))
    intro v hv
    -- There is no part before this one.
    have none : ([] : List ParserId).all marks = true := rfl
    have length : ([] : List Value).length = ([] : List ParserId).length := rfl
    cases mark : marks a with
    | true =>
      obtain ⟨w, rfl⟩ := hv mark
      exact Value.Chained.mark none mark length
    | false => exact Value.Chained.take none mark length
  | append_singleton qs q ih =>
    have part {r : ParserId} (hr : r ∈ first :: qs) : r ∈ first :: (qs ++ [q]) := by
      rw [← List.cons_append]
      exact List.mem_append_left _ hr
    have value := marked q (by simp)
    replace ih {b : ParserId}
        (h : ((Grammar.chain first qs : Grammar W).core marks).Built base b) :=
      ih (fun r hr => skips r (part hr)) h fun r hr => marked r (part hr)
    have ignored := Grammar.ignored_chain (W := W) marks first qs
    rw [Grammar.chain_concat, Grammar.core, Grammar.core, Core.plus, ignored] at h
    rw [← List.cons_append]
    -- What is built depends on the marks of the chain so far and of the last part.
    cases all : (first :: qs).all marks <;> cases mark : marks q <;>
      simp only [all, mark, Core.ignored] at h
    case false.false =>
      cases h with
      | seq hb hq performs =>
        rw [hq.eq_of_ref] at performs
        exact (ih hb).seq performs comes_together value fun v vs w length hv _ =>
          hv.join all mark length
    case false.true =>
      cases h with
      | seq hb hq performs =>
        rw [hq.eq_of_ref] at performs
        exact (ih hb).seq performs (fun v w σ => comes_pure v σ) value fun v vs w length hv _ =>
          hv.drop all mark length
    case true.false =>
      cases h with
      | seq hb hq performs =>
        rw [hq.eq_of_ref] at performs
        exact (ih hb).seq performs (fun v w σ => comes_pure w σ) value fun v vs w length _ _ =>
          .take all mark length
    case true.true =>
      cases h with
      | @ignore _ b _ _ hseq captured performs =>
        cases hseq with
        | seq hb hq performs' =>
          rw [hq.eq_of_ref] at performs'
          have inner : b.TakesTurns base (first :: qs ++ [q]) fun v vs =>
              (∃ w, v = .ignored w) ∧ v.Chained marks (first :: qs ++ [q]) vs := by
            apply (ih hb).seq performs' (fun v w σ => comes_pure w σ) value
            intro v vs w length _ hw
            obtain ⟨u, rfl⟩ := hw mark
            exact ⟨⟨u, rfl⟩, .mark all mark length⟩
          -- The last result has its mark already, so it is not marked again.
          apply inner.ignore performs captured performs' (by simp)
          rintro v vs ⟨⟨w, rfl⟩, hv⟩
          exact hv

theorem Grammar.coreAll_refs (flags : ParserId → Bool) (qs : List ParserId) :
    Grammar.coreAll flags (qs.map Grammar.ref : List (Grammar W)) = qs.map Core.ref := by
  induction qs with
  | nil => rfl
  | cons q qs ih => exact congrArg (List.cons (Core.ref q)) ih

/-- The parser of no items is tried once, and then a serial number is drawn for each result. -/
def ParserId.gathered (last : ParserId) (n : Nat) (τ : Store W) : Store W := (last.tried τ).drawn n

/-- One more parser in front of a relay whose results stand in a stream. -/
theorem ParserId.Relays.cons {legs : List (Leg W)} {rest last : ParserId}
    (relays : rest.Relays base legs last.gathered Value.Streams)
    (h : b.Performs base (.seq q rest .cons)) :
    b.Relays base (⟨b.tried, q⟩ :: legs) last.gathered Value.Streams := by
  -- One more result stands in front, and one more serial number has been drawn.
  have more {c d : Bool} {vs : List Value} {x : Stream Value} {s : State Value} {τ : Store W}
      (v : Value) (n : Nat) (spells : x.Spells vs) :
      ((Tally.ok c vs s).onto d [v]).Told Value.Streams last.gathered τ
        (.ok (.reply (.ok (d || c) (.stream (.cons n v x)) s))
          ((last.gathered vs.length τ).drawn 1)) := by
    have told : Value.Streams (.stream (.cons n v x)) (v :: vs) := ⟨_, rfl, .cons spells⟩
    exact .ok told
  constructor
  · intro chunks σ s y g arrived
    have g' := g.trans (b.clerical_tried σ).grows.upholds
    cases (arrives_seq (h.upheld g (by simp))).mp arrived with
    | first hq => exact ⟨_, _, .fails hq, .err⟩
    | firstStop hq => exact ⟨_, _, .breaks hq, .broken⟩
    | second hq hrest =>
      obtain ⟨r, τ, relay, told⟩ := relays.sound _ _ _ _ (g'.trans hq.grows.upholds) hrest
      cases told with
      | err => exact ⟨_, _, .next hq relay, .err⟩
    | secondStop hq hrest =>
      obtain ⟨r, τ, relay, told⟩ := relays.sound _ _ _ _ (g'.trans hq.grows.upholds) hrest
      cases told with
      | broken => exact ⟨_, _, .next hq relay, .broken⟩
    | both hq hrest join =>
      obtain ⟨r, τ, relay, told⟩ := relays.sound _ _ _ _ (g'.trans hq.grows.upholds) hrest
      cases told with
      | ok hv =>
        obtain ⟨x, rfl, spells⟩ := hv
        cases join.unique (comes_cons_join _ x _)
        exact ⟨_, _, .next hq relay, more _ _ spells⟩
    | bothStop hq hrest join =>
      obtain ⟨r, τ, relay, told⟩ := relays.sound _ _ _ _ (g'.trans hq.grows.upholds) hrest
      cases told with
      | ok hv =>
        obtain ⟨x, rfl, spells⟩ := hv
        cases join.unique (comes_cons_join _ x _)
  · intro chunks σ s r τ g relay
    have g' := g.trans (b.clerical_tried σ).grows.upholds
    suffices H : ∃ y, SeqArrives chunks q rest .cons s (b.tried σ) y ∧
        r.Told Value.Streams last.gathered τ y by
      obtain ⟨y, hy, told⟩ := H
      exact ⟨y, (arrives_seq (h.upheld g (by simp))).mpr hy, told⟩
    cases relay with
    | fails hq => exact ⟨_, .first hq, .err⟩
    | breaks hq => exact ⟨_, .firstStop hq, .broken⟩
    | next hq relay =>
      obtain ⟨y, hy, told⟩ := relays.complete _ _ _ _ _ (g'.trans hq.grows.upholds) relay
      cases told with
      | ok hv =>
        obtain ⟨x, rfl, spells⟩ := hv
        exact ⟨_, .both hq hy (comes_cons_join _ x _), more _ _ spells⟩
      | err => exact ⟨_, .second hq hy, .err⟩
      | broken => exact ⟨_, .secondStop hq hy, .broken⟩

/-- A sequence runs its parts in turn, tries the parser of no items, and puts the results in front
of it one by one. The induction follows the sequence from its end. -/
theorem runsInTurn_sequence (h : (Core.sequence (qs.map Core.ref)).Built base b) :
    b.RunsInTurn base qs Value.Streams := by
  suffices H : ∃ (legs : List (Leg W)) (last : ParserId), legs.map Leg.parser = qs ∧
      (∀ leg ∈ legs, ∀ σ : Store W, σ.Clerical (leg.before σ)) ∧
      b.Relays base legs last.gathered Value.Streams by
    obtain ⟨legs, last, parsers, clerical, relays⟩ := H
    exact ⟨legs, last.gathered, parsers, clerical,
      fun n σ => (last.clerical_tried σ).trans (.drawn n _), relays⟩
  unfold Core.sequence at h
  induction qs generalizing b with
  | nil =>
    cases h with
    | pure performs =>
      have nothing {chunks : Int → Stream Value} {σ : Store W} {s : State Value}
          {y : EStateM.Result Stop (Store W) (Finish W)} (g : base.Upholds σ) :
          b.Arrives chunks s σ y ↔ y = .ok (.reply (.ok false (.stream .nil) s)) (b.tried σ) :=
        arrives_pure (performs.upheld g (by simp))
      refine ⟨[], b, rfl, by simp, fun chunks σ s y g hy => ?_, fun chunks σ s r τ g relay => ?_⟩
      · cases (nothing g).mp hy
        exact ⟨_, σ, .ended, .ok ⟨.nil, rfl, .nil⟩⟩
      · cases relay with
        | ended => exact ⟨_, (nothing g).mpr rfl, .ok ⟨.nil, rfl, .nil⟩⟩
  | cons q qs ih =>
    cases h with
    -- The first part is run before what the rest of the sequence does.
    | seq hq hrest performs =>
      rw [hq.eq_of_ref] at performs
      obtain ⟨legs, last, rfl, clerical, relays⟩ := ih hrest
      refine ⟨⟨b.tried, q⟩ :: legs, last, rfl, fun leg member σ => ?_, relays.cons performs⟩
      cases member with
      | head => exact b.clerical_tried σ
      | tail _ member => exact clerical leg member σ

/-! ## The value and outcome of a chain -/

theorem ParserId.Marked.marks_eq {m : Bool} (h : q.Marked σ m) : σ.marks q = m := by
  obtain ⟨c, hc, rfl⟩ := h
  rw [Store.marks, hc, Option.getD_some]

theorem Grammar.library_chain {P : ParserId → Prop} (h : ∀ q ∈ first :: qs, P q) :
    (Grammar.chain first qs : Grammar W).Library (fun _ => True) P := by
  induction qs using List.reverseRecOn with
  | nil => exact .ref (h first (.head _))
  | append_singleton qs q ih =>
    rw [Grammar.chain_concat]
    refine .plus (ih fun r hr => h r ?_) (.ref (h q (by simp)))
    rw [← List.cons_append]
    exact List.mem_append_left _ hr

/-- A chain of parts that are all left out marks its results. -/
theorem exists_ignore_chain (all : (first :: qs).all marks = true)
    (skips : ∀ q ∈ first :: qs, marks q = true → ∃ code, q.Performs base (.ignore code))
    (h : ((Grammar.chain first qs : Grammar W).core marks).Built base a) :
    ∃ code, a.Performs base (.ignore code) := by
  cases qs using List.reverseRecOn with
  | nil =>
    obtain rfl := h.eq_of_ref
    exact skips a (.head _) (List.all_eq_true.mp all a (.head _))
  | append_singleton qs q =>
    rw [← List.cons_append, List.all_append, Bool.and_eq_true] at all
    obtain ⟨before, last⟩ := all
    have mark : marks q = true := by simpa using last
    rw [Grammar.chain_concat, Grammar.core, Grammar.core, Core.plus, Grammar.ignored_chain] at h
    simp only [before, Core.ignored, mark] at h
    cases h with
    | ignore _ _ performs => exact ⟨_, performs⟩

/-- A parser that is left out and a plain one give the result of the plain one. -/
theorem performs_plus {p r : ParserId} (hp : p.Marked base true) (hr : r.Marked base false) :
    (let more := (Grammar.plus (.ref p) (.ref r)).build base
    more.1.Performs more.2 (.seq p r .second)) ∧
    let more := (Grammar.plus (.ref r) (.ref p)).build base
    more.1.Performs more.2 (.seq r p .first) := by
  -- The two parsers are all that is needed of the store.
  have marked : ∀ q, q = p ∨ q = r → q.Marked base (base.marks q) := by
    rintro q (rfl | rfl)
    · rwa [hp.marks_eq]
    · rwa [hr.marks_eq]
  have left : (Grammar.plus (.ref p) (.ref r) : Grammar W).Library (fun _ => True)
      fun q => q = p ∨ q = r := .plus (.ref (.inl rfl)) (.ref (.inr rfl))
  have right : (Grammar.plus (.ref r) (.ref p) : Grammar W).Library (fun _ => True)
      fun q => q = p ∨ q = r := .plus (.ref (.inr rfl)) (.ref (.inl rfl))
  have builtLeft := (left.made marked).2.built
  have builtRight := (right.made marked).2.built
  simp only [Grammar.core, Core.plus, Core.ignored, hp.marks_eq, hr.marks_eq]
    at builtLeft builtRight
  constructor
  · cases builtLeft with
    | seq h h' performs => rwa [h.eq_of_ref, h'.eq_of_ref] at performs
  · cases builtRight with
    | seq h h' performs => rwa [h.eq_of_ref, h'.eq_of_ref] at performs

/-- The parsers `a` and `b` are a chain and a sequence of the parts `qs`, in all stores that uphold
`base`. -/
structure Chaining (marks : ParserId → Bool) (base : Store W) (qs : List ParserId)
    (a b : ParserId) : Prop where
  /-- The chain runs the parts one after the other. Of the results that are not left out it makes
  one flat group; a single one is its value, and if there is none, the value is the last result,
  which is marked once. -/
  chain : a.RunsInTurn base qs (Value.Chained marks qs)
  /-- The sequence runs the parts one after the other. -/
  sequence : b.RunsInTurn base qs Value.Streams
  /-- With pure functions of the caller, whatever the chain arrives at over a stream of data, the
  sequence arrives at the same outcome, state and error. -/
  alongside : ∀ (P : ParserId → Prop) (σ : Store W), base.Upholds σ → σ.Pure P →
    (∀ q ∈ qs, P q) → ∀ (chunks : Int → Stream Value) (i : Stream Value) (x : Elements)
      (watched : Bool) (position : Int) (user : Value)
      (y : EStateM.Result Stop (Store W) (Finish W)),
    i.Supplies σ x → (∀ v ∈ x, v.Settled) →
    a.Arrives chunks (.plain watched i position user) σ y →
    ∃ y', b.Arrives chunks (.plain watched i position user) σ y' ∧
      Finish.Alongside (Value.Chained marks qs) Value.Streams y y'
  /-- Where the sequence arrives, so does the chain. -/
  arrives : ∀ (P : ParserId → Prop) (σ : Store W), base.Upholds σ → σ.Pure P →
    (∀ q ∈ qs, P q) → ∀ (chunks : Int → Stream Value) (i : Stream Value) (x : Elements)
      (watched : Bool) (position : Int) (user : Value)
      (y' : EStateM.Result Stop (Store W) (Finish W)),
    i.Supplies σ x → (∀ v ∈ x, v.Settled) →
    b.Arrives chunks (.plain watched i position user) σ y' →
    ∃ y, a.Arrives chunks (.plain watched i position user) σ y
  /-- If all parts are left out, so is the chain: further combination with a plain parser, on either
  side, gives the result of that parser alone. -/
  skipped : qs.all marks = true → a.Skips base ∧ ∀ r, r.Marked base false →
    (let more := (Grammar.plus (.ref a) (.ref r)).build base
    more.1.Performs more.2 (.seq a r .second)) ∧
    let more := (Grammar.plus (.ref r) (.ref a)).build base
    more.1.Performs more.2 (.seq r a .first)

/-- Chains run like sequences, and gather the results of the parts that are not left out. Each part
is a plain parser or one whose result is left out. In all stores that uphold these definitions, in
every state, inside sessions as well, and whatever functions of the caller do, the left-associated
chain of the parts and the sequence of them run the same parsers one after the other, so they have
the same outcome, state and error. The value of the chain is decided by the marks of the parts: a
flat group of the plain results, the bare result if there is one only, or the result of the last
part with its mark if there is none. -/
theorem chains_gather_plain_results (first : ParserId) (qs : List ParserId) (σ : Store W)
    (parts : ∀ q ∈ first :: qs, q.Marked σ false ∨ q.Skips σ) :
    let chain := (Grammar.chain first qs).build σ
    let sequence := (Grammar.sequence ((first :: qs).map .ref)).build chain.2
    Chaining σ.marks sequence.2 (first :: qs) chain.1 sequence.1 := by
  intro chain sequence
  have marked (q : ParserId) (hq : q ∈ first :: qs) : q.Marked σ (σ.marks q) := by
    rcases parts q hq with plain | ⟨mark, -⟩
    · rwa [plain.marks_eq]
    · rwa [mark.marks_eq]
  have skips (q : ParserId) (hq : q ∈ first :: qs) (mark : σ.marks q = true) :
      ∃ code, q.Performs σ (.ignore code) := by
    rcases parts q hq with plain | ⟨-, performs⟩
    · rw [plain.marks_eq] at mark
      cases mark
    · exact performs
  -- The chain is built first, and then the sequence.
  have library : (Grammar.chain first qs : Grammar W).Library (fun _ => True) (· ∈ first :: qs) :=
    Grammar.library_chain fun q hq => hq
  obtain ⟨extends₁, built₁, mark⟩ := library.made marked
  have library : (Grammar.sequence ((first :: qs).map .ref) : Grammar W).Library (fun _ => True)
      (· ∈ first :: qs) := by
    apply Grammar.Library.sequence
    intro g hg
    obtain ⟨q, hq, rfl⟩ := List.mem_map.mp hg
    exact .ref hq
  obtain ⟨extends₂, built₂, -⟩ := library.made fun q hq => (marked q hq).later extends₁
  change Core.Built _ (Core.sequence (Grammar.coreAll σ.marks _)) _ at built₂
  rw [Grammar.coreAll_refs] at built₂
  have skips₁ (q : ParserId) (hq : q ∈ first :: qs) (mark : σ.marks q = true) :
      ∃ code, q.Performs chain.2 (.ignore code) := by
    obtain ⟨code, performs⟩ := skips q hq mark
    exact ⟨code, performs.later extends₁.grows⟩
  have inTurn : chain.1.RunsInTurn sequence.2 (first :: qs) (Value.Chained σ.marks (first :: qs)) :=
    (takesTurns_chain skips₁ built₁).runsInTurn.later extends₂.grows.upholds
  have inTurn' : sequence.1.RunsInTurn sequence.2 (first :: qs) Value.Streams :=
    runsInTurn_sequence built₂
  refine ⟨inTurn, inTurn', ?_, ?_, fun all => ?_⟩
  · intro P τ g pure hP chunks i x watched position user y hi data hy
    exact inTurn.alongside inTurn' g pure hP hi data watched position user hy
  · intro P τ g pure hP chunks i x watched position user y' hi data hy'
    obtain ⟨y, hy, -⟩ := inTurn'.alongside inTurn g pure hP hi data watched position user hy'
    exact ⟨y, hy⟩
  · rw [Grammar.ignored_chain, all] at mark
    have skipped : chain.1.Skips sequence.2 := by
      obtain ⟨code, performs⟩ := exists_ignore_chain all skips₁ built₁
      exact ParserId.Skips.later ⟨mark, code, performs⟩ extends₂
    exact ⟨skipped, fun r hr => performs_plus skipped.1 hr⟩

/-- A part that is left out between two plain ones: the chain gives one group of both results. -/
theorem chains_gather_plain_results_of_three :
    let σ : Store Unit := .initial () fun _ _ => ()
    let x := (Grammar.some fun _ => .done true).build σ
    let y := (Grammar.skip (.ref x.1)).build x.2
    let chain := (Grammar.chain x.1 [y.1, x.1]).build y.2
    let sequence := (Grammar.sequence ([x.1, y.1, x.1].map .ref)).build chain.2
    (∀ q ∈ [x.1, y.1, x.1], q.Marked y.2 false ∨ q.Skips y.2) ∧
    Chaining y.2.marks sequence.2 [x.1, y.1, x.1] chain.1 sequence.1 ∧
    Value.kept y.2.marks [x.1, y.1, x.1] [.int 1, .ignored (.int 2), .int 3] =
      [.int 1, .int 3] := by
  intro σ x y
  have plain : x.1.Marked y.2 false := ⟨_, rfl, rfl⟩
  have skipped : y.1.Skips y.2 := ⟨⟨_, rfl, rfl⟩, _, _, rfl, .inl ⟨rfl, rfl⟩⟩
  have parts : ∀ q ∈ [x.1, y.1, x.1], q.Marked y.2 false ∨ q.Skips y.2 := by
    simp only [List.mem_cons, List.not_mem_nil, or_false]
    rintro q (rfl | rfl | rfl)
    · exact .inl plain
    · exact .inr skipped
    · exact .inl plain
  have kept : Value.kept y.2.marks [x.1, y.1, x.1] [.int 1, .ignored (.int 2), .int 3] =
      [.int 1, .int 3] := by
    simp only [Value.kept, List.zip_cons_cons, List.zip_nil_left, List.filter_cons, List.filter_nil,
      plain.marks_eq, skipped.1.marks_eq, Bool.not_true, Bool.not_false, if_true,
      Bool.false_eq_true, if_false, List.map_cons, List.map_nil]
  have chaining := chains_gather_plain_results x.1 [y.1, x.1] y.2 parts
  -- The built stores are large terms, and nothing of them is looked at from here on.
  clear_value x y
  exact ⟨parts, chaining, kept⟩

end

end ResumableParsing
