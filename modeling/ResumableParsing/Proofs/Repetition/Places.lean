import ResumableParsing.Proofs.Storage.Agreement
import ResumableParsing.Proofs.Store.Bookkeeping

/-!
# The same place in two stores

A parser may be applied to a state at one time, and to the corresponding state at another one, after
the library has unfolded lazy repetitions and the caller has done what he likes. The two
applications come to the same as long as the parsers do what they did and the two inputs supply the
same elements, whether these have been read or are still to be computed. Where the library unfolds
a lazy repetition, it touches neither.

* `Store.Unfolds`: what the library does where it unfolds a lazy repetition
* `Prepared`: a state is in one store what another state is in another store
* `Prepared.runs`: a parser with pure functions comes to corresponding replies there
* `Prepared.unfolds`: places stay prepared while lazy repetitions unfold
-/

namespace ResumableParsing

variable {W : Type}

/-! ## Unfolding -/

/-- A tail that runs a parser, and is not known. -/
def Memo.Parses (m : Memo (Tail W) (Option (Stream Value))) : Prop :=
  (∃ q u, m.thunk = .parse q u) ∧ ∀ o, m.slot ≠ .known o

/-- The library has unfolded lazy repetitions: messages have been logged, serial numbers drawn,
parsers built and tails made, and tails that run a parser have been marked. -/
structure Store.Unfolds (σ τ : Store W) : Prop where
  /-- The rest is as it was. -/
  rest : τ = { σ with
    log := τ.log, nextSerial := τ.nextSerial, tails := τ.tails, parsers := τ.parsers }
  /-- Parsers that are there stay. -/
  parsers : ∀ (i : Nat) (c : Cell W), σ.parsers[i]? = some c → τ.parsers[i]? = some c
  /-- Tails stay, and the other ones are as they were. -/
  tails : ∀ (i : Nat) (m : Memo (Tail W) (Option (Stream Value))), σ.tails[i]? = some m →
    ∃ n, τ.tails[i]? = some n ∧ n.thunk = m.thunk ∧ (n.slot = m.slot ∨ m.Parses)

/-- Tails stay, and those that are known stay known. -/
def Store.KeepsTails (σ τ : Store W) : Prop :=
  ∀ (i : Nat) (m : Memo (Tail W) (Option (Stream Value))), σ.tails[i]? = some m →
    ∃ n, τ.tails[i]? = some n ∧ n.thunk = m.thunk ∧ ∀ o, m.slot = .known o → n.slot = .known o

section

variable {σ τ υ : Store W}

namespace Store.KeepsTails

theorem trans (h : σ.KeepsTails τ) (h' : τ.KeepsTails υ) : σ.KeepsTails υ := by
  intro i m hm
  obtain ⟨n, hn, thunk, known⟩ := h i m hm
  obtain ⟨o, ho, thunk', known'⟩ := h' i n hn
  exact ⟨o, ho, thunk'.trans thunk, fun a ha => known' a (known a ha)⟩

end Store.KeepsTails

theorem Store.Grows.keepsTails (h : σ.Grows τ) : σ.KeepsTails τ := by
  intro i m hm
  obtain ⟨n, hn, thunk, slot⟩ := h.tails i m hm
  refine ⟨n, hn, thunk, fun o ho => ?_⟩
  rcases slot with unset | same
  · rw [unset] at ho
    cases ho
  · exact same.trans ho

namespace Store.Unfolds

theorem trans (h : σ.Unfolds τ) (h' : τ.Unfolds υ) : σ.Unfolds υ where
  rest := by rw [h'.rest, h.rest]
  parsers i c hc := h'.parsers i c (h.parsers i c hc)
  tails i m hm := by
    obtain ⟨n, hn, thunk, slot⟩ := h.tails i m hm
    obtain ⟨o, ho, thunk', slot'⟩ := h'.tails i n hn
    refine ⟨o, ho, thunk'.trans thunk, ?_⟩
    rcases slot with same | parses
    · rcases slot' with same' | parses
      · exact .inl (same'.trans same)
      · exact .inr ⟨thunk ▸ parses.1, same ▸ parses.2⟩
    · exact .inr parses

theorem keepsTails (h : σ.Unfolds τ) : σ.KeepsTails τ := by
  intro i m hm
  obtain ⟨n, hn, thunk, slot⟩ := h.tails i m hm
  refine ⟨n, hn, thunk, fun o ho => ?_⟩
  rcases slot with same | parses
  · exact same.trans ho
  · exact absurd ho (parses.2 o)

/-- A tail is made. -/
theorem push (σ : Store W) (n : Nat) (m : Memo (Tail W) (Option (Stream Value))) :
    σ.Unfolds { σ with nextSerial := n, tails := σ.tails.push m } where
  rest := rfl
  parsers _ _ hc := hc
  tails _ m hm := ⟨m, getElem?_push_of_eq_some hm _, rfl, .inl rfl⟩

/-- A tail that runs a parser is marked. -/
theorem put {i : TailId} {q : ParserId} {u : State Value} {slot : Slot (Option (Stream Value))}
    (hi : σ.tails[i.index]? = some ⟨.parse q u, slot⟩) (hs : ∀ o, slot ≠ .known o)
    (slot' : Slot (Option (Stream Value))) : σ.Unfolds (Shelf.tails.put i.index slot' σ) where
  rest := rfl
  parsers _ _ hc := hc
  tails j m hm := by
    by_cases e : j = i.index
    · subst e
      cases hi.symm.trans hm
      refine ⟨⟨.parse q u, slot'⟩, ?_, rfl, .inr ⟨⟨q, u, rfl⟩, hs⟩⟩
      exact (Memo.putSlot_self σ.tails i.index slot').trans (congrArg (Option.map _) hi)
    · exact ⟨m, (Memo.putSlot_other σ.tails (Ne.symm e) slot').trans hm, rfl, .inl rfl⟩

end Store.Unfolds

/-- Building and logging are part of it. -/
theorem Store.Enlarged.unfolds (h : σ.Enlarged τ) : σ.Unfolds τ where
  rest := by
    obtain ⟨log, n, parsers, -, rfl⟩ := h
    rfl
  parsers _ _ hc := h.parser hc
  tails i m hm := by
    obtain ⟨log, n, parsers, -, rfl⟩ := h
    exact ⟨m, hm, rfl, .inl rfl⟩

theorem Store.Unfolds.refl (σ : Store W) : σ.Unfolds σ := (Store.Enlarged.refl σ).unfolds

theorem Store.Noted.unfolds (h : σ.Noted τ) : σ.Unfolds τ := h.clerical.enlarged.unfolds

end

section

variable {κ : Contents} {k : Pairing} {σ σ' τ τ' : Store W}

/-- The contents of streams are not touched: computing a part of them runs no parser. -/
theorem Contents.Fits.unfolds (h : κ.Fits (fun _ => False) σ) (b : σ.Unfolds τ) :
    κ.Fits (fun _ => False) τ where
  tails i x d hi := by
    obtain ⟨m, hm, right⟩ := h.tails i x d hi
    obtain ⟨⟨thunk, slot⟩, hn, rfl, rfl | ⟨⟨q, u, parses⟩, unknown⟩⟩ := b.tails i.index m hm
    · exact ⟨m, hn, right⟩
    -- What the contents speak of appends or comes from the caller, so it runs no parser.
    · cases right id with
      | known => exact absurd rfl (unknown _)
      | append => cases parses
      | action => cases parses
  cells := by
    rw [b.rest]
    exact h.cells
  alone c c' it ho ho' := by
    have owns {c : CellId} (ho : κ.Owns (fun _ => False) τ c it) :
        κ.Owns (fun _ => False) σ c it := by
      refine ⟨ho.spoken, ho.idle, ?_⟩
      rw [← ho.unset, b.rest]
    exact h.alone c c' it (owns ho) (owns ho')

theorem Stream.Supplies.unfolds {s : Stream Value} {x : Elements} (h : s.Supplies σ x)
    (b : σ.Unfolds τ) : s.Supplies τ x := by
  obtain ⟨κ, r, fits, holds⟩ := h
  exact ⟨κ, r, fits.unfolds b, holds⟩

theorem Store.Unfolds.logging (b : σ.Unfolds τ) : τ.logging = σ.logging := by rw [b.rest]

theorem Pairing.Defines.unfolds (h : k.Defines σ τ) (b : σ.Unfolds σ') (b' : τ.Unfolds τ') :
    k.Defines σ' τ' where
  parsers p q hp := by
    obtain ⟨c, d, hc, hd, paired⟩ := h.parsers p q hp
    exact ⟨c, d, b.parsers _ c hc, b'.parsers _ d hd, paired⟩
  parsersUnique := h.parsersUnique
  logging := b.logging.trans (h.logging.trans b'.logging.symm)

/-- Tails that belong together run no parsers, so they are not touched. -/
theorem Pairing.Agree.unfolds (h : k.Agree σ τ) (b : σ.Unfolds σ') (b' : τ.Unfolds τ') :
    k.Agree σ' τ' where
  tails i j ht := by
    obtain ⟨⟨m, a⟩, ⟨n, c⟩, hm, hn, thunk, slot⟩ := h.tails i j ht
    obtain ⟨⟨_, _⟩, ha, rfl, rfl | ⟨⟨q, u, rfl⟩, -⟩⟩ := b.tails i.index _ hm
    · obtain ⟨⟨_, _⟩, hc, rfl, rfl | ⟨⟨q, u, rfl⟩, -⟩⟩ := b'.tails j.index _ hn
      · exact ⟨_, _, ha, hc, thunk, slot⟩
      · cases thunk
    · cases thunk
  tailsUnique := h.tailsUnique
  parsers := (h.defines.unfolds b b').parsers
  parsersUnique := h.parsersUnique
  logging := (h.defines.unfolds b b').logging

end

/-! ## Places -/

/-- The parsers of the set have the same names in both stores, and the same of them are left out of
groups. -/
def Store.SameLabels (P : ParserId → Prop) (σ τ : Store W) : Prop :=
  ∀ p, P p → ∀ c d : Cell W, σ.parsers[p.index]? = some c → τ.parsers[p.index]? = some d →
    c.name = d.name ∧ c.ignored = d.ignored

/-- In the store `υ` the state `t` is what the state `s` is in the store `ρ`: they are alike, and
their inputs supply the same elements, which are data. -/
inductive SamePlace (ρ : Store W) : State Value → Store W → State Value → Prop where
  | plain {υ : Store W} {x : Elements} {i j : Stream Value} {watched : Bool} {position : Int}
      {user : Value} : i.Supplies ρ x → j.Supplies υ x → (∀ v ∈ x, v.Settled) →
      SamePlace ρ (.plain watched i position user) υ (.plain watched j position user)

/-- The store `υ` is prepared for parsing from the state `t` as the store `ρ` is for parsing from
the state `s`: the parsers of the set do the same with pure functions and have the same names, and
the states are alike. -/
structure Prepared (P : ParserId → Prop) (ρ : Store W) (s : State Value) (υ : Store W)
    (t : State Value) : Prop where
  /-- The parsers. -/
  defines : (Pairing.only P).Defines ρ υ
  /-- The states. -/
  place : SamePlace ρ s υ t

section

variable {P : ParserId → Prop} {p : ParserId} {ρ ρ' υ υ' τ : Store W} {s t : State Value}
  {r : Reply Value}

namespace Pairing.Defines

/-- What parsers do stays, so only their names have to be compared later. -/
theorem later (h : (Pairing.only P).Defines ρ υ) (g : ρ.Grows ρ') (g' : υ.Grows υ')
    (labels : ρ'.SameLabels P υ') : (Pairing.only P).Defines ρ' υ' where
  parsers := by
    rintro p _ ⟨rfl, hp⟩
    obtain ⟨c, d, hc, hd, paired⟩ := h.parsers p p ⟨rfl, hp⟩
    obtain ⟨c', hc', direct, logged⟩ := g.parsers _ c hc
    obtain ⟨d', hd', direct', logged'⟩ := g'.parsers _ d hd
    obtain ⟨name, ignored⟩ := labels p hp c' d' hc' hd'
    refine ⟨c', d', hc', hd', name, ignored, ?_, ?_⟩
    · rw [direct, direct']
      exact paired.direct
    · rw [logged, logged']
      exact paired.logged
  parsersUnique := h.parsersUnique
  logging := by rw [g.logging, g'.logging, h.logging]

/-- Parsers that belong to themselves have the same names. -/
theorem labels {k : Pairing} (h : k.Defines ρ υ) (hP : ∀ p, P p → k.parsers p p) :
    ρ.SameLabels P υ := by
  intro p hp c d hc hd
  obtain ⟨c', d', hc', hd', paired⟩ := h.parsers p p (hP p hp)
  cases hc.symm.trans hc'
  cases hd.symm.trans hd'
  exact ⟨paired.name, paired.ignored⟩

/-- If the left store has gone on and the names are as they were, the right store agrees with what
the left one was. -/
theorem before (h : (Pairing.only P).Defines ρ υ) (g : ρ.Grows ρ') (g' : υ.Grows υ')
    (h' : (Pairing.only P).Defines ρ' υ') (labels : ρ.SameLabels P ρ') :
    (Pairing.only P).Defines ρ υ' := by
  refine h.later (.refl ρ) g' fun p hp c d hc hd => ?_
  obtain ⟨c', hc', -⟩ := g.parsers _ c hc
  obtain ⟨name, ignored⟩ := labels p hp c c' hc hc'
  obtain ⟨name', ignored'⟩ := h'.labels (fun _ hp => ⟨rfl, hp⟩) p hp c' d hc' hd
  exact ⟨name.trans name', ignored.trans ignored'⟩

end Pairing.Defines

theorem SamePlace.unfolds (h : SamePlace ρ s υ t) (b : ρ.Unfolds ρ') (b' : υ.Unfolds υ') :
    SamePlace ρ' s υ' t := by
  cases h with
  | plain hi hj data => exact .plain (hi.unfolds b) (hj.unfolds b') data

/-- What is the same as at an earlier time. -/
theorem SamePlace.trans (h : SamePlace ρ s υ t) (h' : SamePlace υ t τ t) : SamePlace ρ s τ t := by
  cases h with
  | plain hi hj data =>
    cases h' with
    | plain hj' hk _ => exact .plain hi (hj'.unique hj ▸ hk) data

namespace Prepared

/-- The place stays prepared while lazy repetitions unfold. -/
theorem unfolds (h : Prepared P ρ s υ t) (b : ρ.Unfolds ρ') (b' : υ.Unfolds υ') :
    Prepared P ρ' s υ' t :=
  ⟨h.defines.unfolds b b', h.place.unfolds b b'⟩

/-- States that correspond are places. -/
theorem of_stores {w : (Storage.setting W).correspondence.World}
    (hs : (Storage.setting W).correspondence.Stores w ρ υ)
    (ht : (Storage.setting W).correspondence.States w s t)
    (defines : (Pairing.only P).Defines ρ υ) : Prepared P ρ s υ t := by
  obtain ⟨x, h⟩ := ht
  cases h with
  | plain hi hj data => exact ⟨defines, .plain ⟨_, _, hs.2.left, hi⟩ ⟨_, _, hs.2.right, hj⟩ data⟩

/-- A parser with pure functions comes to corresponding replies in both places. The parsers still do
the same, and the right place is still what it was. -/
theorem runs (h : Prepared P ρ s υ t) (hp : P p) (run : (p.run s).Comes ρ (.ok (.reply r) ρ')) :
    ∃ r' υ' w, (p.run t).Comes υ (.ok (.reply r') υ') ∧
      (Storage.setting W).correspondence.Stores w ρ' υ' ∧
      (Storage.setting W).correspondence.Replies w r r' ∧
      (Pairing.only P).Defines ρ' υ' ∧ SamePlace ρ s υ' t := by
  obtain ⟨defines, place⟩ := h
  cases place with
  | @plain _ x i j watched position user hi hj data =>
    -- At first nothing but the parsers corresponds, and the inputs supply the same.
    have agree : (Pairing.only P).Agree ρ υ :=
      { defines with
        tails := fun _ _ ht => ht.elim
        tailsUnique := ⟨fun _ _ _ ht => ht.elim, fun _ _ _ ht => ht.elim⟩ }
    obtain ⟨w, hs, same, members⟩ := Storage.begins agree hi hj data watched position user
    obtain ⟨y, run', ends⟩ := Storage.comes hs ⟨x, same⟩ (members p hp) run
    cases y with
    | error e τ => exact ends.elim
    | ok f υ' =>
      obtain ⟨w', hle, hs', finishes⟩ := ends
      cases finishes with
      | reply replies =>
        have g := (composed_complete _).grows_of_comes run
        have g' := (composed_complete _).grows_of_comes run'
        have labels := hs'.1.defines.labels fun q hq => hle.1.parsers q q (members q hq)
        refine ⟨_, υ', w', run', hs', replies, defines.later g g' labels, ?_⟩
        cases same.mono hle.2 with
        | plain _ hj' _ => exact .plain hi ⟨_, _, hs'.2.right, hj'⟩ data

end Prepared

end

end ResumableParsing
