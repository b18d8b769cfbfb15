import Mathlib.Logic.Relator
import ResumableParsing.Proofs.Pairing.Purity
import ResumableParsing.Proofs.Store.Computations

/-!
# Two stores that agree

Two stores agree about a pairing if tails that belong together are computed in corresponding ways
and are known, or not known yet, on both sides, and if parsers that belong together do corresponding
things. Corresponding computations over two such stores come to corresponding ends; of the rest of
the stores they take no notice.

* `Pairing.Defines`: stores that agree about the parsers of a pairing
* `Pairing.Agree`: stores that agree about a pairing
* `Store.Aside`: changes to the tails of a pairing, and to nothing else that is looked at
* `Pairing.Tied`: computations that come to corresponding ends
* `Pairing.tied_bind` and so on: putting them together
-/

namespace ResumableParsing

variable {W α β γ δ : Type}

/-! ## Deferred tails -/

/-- The tails are computed in corresponding ways, or refused for the same reason. -/
inductive Tail.Paired (k : Pairing) : Tail W → Tail W → Prop where
  | append {a b c d : Stream Value} : k.Streams a c → k.Streams b d →
      Paired k (.append a b) (.append c d)
  | refused (f : Fault) : Paired k (.action (.raise f)) (.action (.raise f))

/-- The same is known of both tails, up to the streams that they are. -/
inductive Slot.Paired (k : Pairing) :
    Slot (Option (Stream Value)) → Slot (Option (Stream Value)) → Prop where
  | unset : Paired k .unset .unset
  | busy : Paired k .busy .busy
  | known {s t : Stream Value} : k.Streams s t → Paired k (.known (some s)) (.known (some t))

theorem Tail.Paired.mono {k l : Pairing} (hle : k.Le l) {t u : Tail W} (h : t.Paired k u) :
    t.Paired l u := by
  cases h with
  | append ha hb => exact .append (ha.mono hle) (hb.mono hle)
  | refused f => exact .refused f

theorem Slot.Paired.mono {k l : Pairing} (hle : k.Le l) {a b : Slot (Option (Stream Value))}
    (h : a.Paired k b) : a.Paired l b := by
  cases h with
  | unset => exact .unset
  | busy => exact .busy
  | known h => exact .known (h.mono hle)

theorem Tail.Paired.turned {k : Pairing} {t u : Tail W} (h : t.Paired k u) :
    u.Paired k.turned t := by
  cases h with
  | append ha hb => exact .append ha.turned hb.turned
  | refused f => exact .refused f

theorem Slot.Paired.turned {k : Pairing} {a b : Slot (Option (Stream Value))} (h : a.Paired k b) :
    b.Paired k.turned a := by
  cases h with
  | unset => exact .unset
  | busy => exact .busy
  | known h => exact .known h.turned

namespace Pairing

/-! ## Stores -/

/-- The stores agree about the parsers that belong together. -/
structure Defines (k : Pairing) (σ τ : Store W) : Prop where
  /-- Parsers do corresponding things. -/
  parsers : ∀ p q, k.parsers p q → ∃ c d : Cell W, σ.parsers[p.index]? = some c ∧
    τ.parsers[q.index]? = some d ∧ c.Paired k d
  /-- Each parser belongs to one parser. -/
  parsersUnique : Relator.BiUnique k.parsers
  /-- Logging is on in both or in none. -/
  logging : σ.logging = τ.logging

/-- The stores agree about what belongs together. -/
structure Agree (k : Pairing) (σ τ : Store W) : Prop where
  /-- Tails are computed in corresponding ways, and the same is known of them. -/
  tails : ∀ i j, k.tails i j → ∃ m n, σ.tails[i.index]? = some m ∧ τ.tails[j.index]? = some n ∧
    m.thunk.Paired k n.thunk ∧ m.slot.Paired k n.slot
  /-- Each tail belongs to one tail. -/
  tailsUnique : Relator.BiUnique k.tails
  /-- Parsers do corresponding things. -/
  parsers : ∀ p q, k.parsers p q → ∃ c d : Cell W, σ.parsers[p.index]? = some c ∧
    τ.parsers[q.index]? = some d ∧ c.Paired k d
  /-- Each parser belongs to one parser. -/
  parsersUnique : Relator.BiUnique k.parsers
  /-- Logging is on in both or in none. -/
  logging : σ.logging = τ.logging

/-- Where corresponding parsers are expected, the same names are. -/
theorem Defines.expectedNames_eq {k : Pairing} {σ τ : Store W} (h : k.Defines σ τ)
    {e f : ParseError Value} (expected : List.Forall₂ k.parsers e.expected f.expected) :
    e.expectedNames σ.names = f.expectedNames τ.names := by
  rw [ParseError.expectedNames, ParseError.expectedNames, ← List.forall₂_eq_eq_eq,
    List.forall₂_map_left_iff, List.forall₂_map_right_iff]
  refine expected.imp fun p q hp => ?_
  obtain ⟨c, d, hc, hd, paired⟩ := h.parsers p q hp
  change σ.parserName p = τ.parserName q
  rw [Store.parserName, Store.parserName, hc, hd]
  exact paired.name

theorem Agree.defines {k : Pairing} {σ τ : Store W} (h : k.Agree σ τ) : k.Defines σ τ :=
  ⟨h.parsers, h.parsersUnique, h.logging⟩

theorem Agree.turned {k : Pairing} {σ τ : Store W} (h : k.Agree σ τ) : k.turned.Agree τ σ where
  tails i j ht := by
    obtain ⟨m, n, hm, hn, thunk, slot⟩ := h.tails j i ht
    exact ⟨n, m, hn, hm, thunk.turned, slot.turned⟩
  tailsUnique :=
    ⟨fun _ _ _ ha hb => h.tailsUnique.2 ha hb, fun _ _ _ ha hb => h.tailsUnique.1 ha hb⟩
  parsers _ _ hp := hp.elim
  parsersUnique := ⟨fun _ _ _ hp => hp.elim, fun _ _ _ hp => hp.elim⟩
  logging := h.logging.symm

/-- The tails of the left run that belong to some tail. -/
def left (k : Pairing) (i : TailId) : Prop := ∃ j, k.tails i j

/-- The tails of the right run that belong to some tail. -/
def right (k : Pairing) (j : TailId) : Prop := ∃ i, k.tails i j

end Pairing

/-- Nothing has changed but parsers, serial numbers and the log, and tails of a set, to which only
new ones have been added. -/
structure Store.Aside (T T' : TailId → Prop) (σ σ' : Store W) : Prop where
  /-- The rest is as it was. -/
  rest : σ' = { σ with
    log := σ'.log, nextSerial := σ'.nextSerial, tails := σ'.tails, parsers := σ'.parsers }
  /-- So are the other tails. -/
  tails : ∀ i : TailId, i.index < σ.tails.size → ¬T i →
    ¬T' i ∧ σ'.tails[i.index]? = σ.tails[i.index]?
  /-- Tails stay. -/
  size : σ.tails.size ≤ σ'.tails.size

namespace Store.Aside

variable {T T' T'' : TailId → Prop} {σ σ' σ'' : Store W}

theorem refl (T : TailId → Prop) (σ : Store W) : σ.Aside T T σ :=
  ⟨rfl, fun _ _ h => ⟨h, rfl⟩, Nat.le_refl _⟩

theorem trans (h : σ.Aside T T' σ') (h' : σ'.Aside T' T'' σ'') : σ.Aside T T'' σ'' where
  rest := by rw [h'.rest, h.rest]
  tails i hi hT := by
    obtain ⟨hT', same⟩ := h.tails i hi hT
    obtain ⟨hT'', same'⟩ := h'.tails i (Nat.lt_of_lt_of_le hi h.size) hT'
    exact ⟨hT'', same'.trans same⟩
  size := Nat.le_trans h.size h'.size

/-- Parsers, serial numbers and the log are not looked at. -/
theorem bookkeeping (T : TailId → Prop) (σ : Store W) (log : List String) (n : Nat)
    (parsers : Array (Cell W)) :
    σ.Aside T T { σ with log := log, nextSerial := n, parsers := parsers } :=
  ⟨rfl, fun _ _ h => ⟨h, rfl⟩, Nat.le_refl _⟩

/-- A new tail is added to the set. -/
theorem pushTail (hT : ∀ i, T' i → T i ∨ i.index = σ.tails.size)
    (m : Memo (Tail W) (Option (Stream Value))) :
    σ.Aside T T' { σ with tails := σ.tails.push m } := by
  refine ⟨rfl, fun i hi ht => ⟨fun ht' => ?_, ?_⟩, by simp⟩
  · rcases hT i ht' with h | h
    · exact ht h
    · omega
  · rw [Array.getElem?_push_lt hi, Array.getElem?_eq_getElem hi]

/-- Marking a tail of the set leaves everything else alone. -/
theorem put {i : TailId} (hi : T i) (σ : Store W) (slot : Slot (Option (Stream Value))) :
    σ.Aside T T (Shelf.tails.put i.index slot σ) := by
  refine ⟨rfl, fun j _ hj => ⟨hj, ?_⟩, by simp [Shelf.tails, Memo.putSlot]⟩
  rw [find_put_tail, if_neg]
  rintro rfl
  exact hj hi

end Store.Aside

/-- What belongs together one to one still does so with a new pair. -/
theorem biUnique_adjoin {r : α → β → Prop} (h : Relator.BiUnique r) {x : α} {y : β}
    (hx : ∀ b, ¬r x b) (hy : ∀ a, ¬r a y) :
    Relator.BiUnique fun a b => r a b ∨ a = x ∧ b = y := by
  refine ⟨?_, ?_⟩
  · rintro a a' b (hab | ⟨rfl, rfl⟩) (hab' | ⟨rfl, hb⟩)
    · exact h.1 hab hab'
    · exact absurd (hb ▸ hab) (hy a)
    · exact absurd hab' (hy a')
    · rfl
  · rintro a b b' (hab | ⟨rfl, rfl⟩) (hab' | ⟨ha, rfl⟩)
    · exact h.2 hab hab'
    · exact absurd (ha ▸ hab) (hx b)
    · exact absurd hab' (hx b')
    · rfl

namespace Pairing

/-- The two stores have gone on side by side, and more belongs together. -/
structure Reach (k l : Pairing) (σ τ σ' τ' : Store W) : Prop where
  /-- More belongs together. -/
  le : k.Le l
  /-- The stores still agree. -/
  agree : l.Agree σ' τ'
  /-- On the left the other things are as they were. -/
  left : σ.Aside k.left l.left σ'
  /-- So they are on the right. -/
  right : τ.Aside k.right l.right τ'

theorem Reach.refl {k : Pairing} {σ τ : Store W} (h : k.Agree σ τ) : k.Reach k σ τ σ τ :=
  ⟨.refl k, h, .refl _ σ, .refl _ τ⟩

theorem Reach.trans {k l m : Pairing} {σ σ' σ'' τ τ' τ'' : Store W} (h : k.Reach l σ τ σ' τ')
    (h' : l.Reach m σ' τ' σ'' τ'') : k.Reach m σ τ σ'' τ'' :=
  ⟨h.le.trans h'.le, h'.agree, h.left.trans h'.left, h.right.trans h'.right⟩

/-! ## Computations -/

/-- The ends of two computations correspond: the same reason to break off, or results as `Q` says.
-/
def Ends (k : Pairing) (Q : Pairing → α → β → Prop) (σ τ : Store W) :
    EStateM.Result Stop (Store W) α → EStateM.Result Stop (Store W) β → Prop
  | .ok a σ', .ok b τ' => ∃ l, k.Reach l σ τ σ' τ' ∧ Q l a b
  | .error e σ', .error f τ' => e = f ∧ ∃ l, k.Reach l σ τ σ' τ'
  | _, _ => False

theorem Ends.trans {k l : Pairing} {Q : Pairing → α → β → Prop} {σ σ' τ τ' : Store W}
    (hr : k.Reach l σ τ σ' τ') {x : EStateM.Result Stop (Store W) α}
    {y : EStateM.Result Stop (Store W) β} (h : l.Ends Q σ' τ' x y) : k.Ends Q σ τ x y := by
  cases x with
  | ok a σ₁ =>
    cases y with
    | ok b τ₁ =>
      obtain ⟨m, hm, hq⟩ := h
      exact ⟨m, hr.trans hm, hq⟩
    | error f τ₁ => exact h
  | error e σ₁ =>
    cases y with
    | ok b τ₁ => exact h
    | error f τ₁ =>
      obtain ⟨rfl, m, hm⟩ := h
      exact ⟨rfl, m, hr.trans hm⟩

/-- In stores that agree, the computations come to corresponding ends, now and later. -/
def Tied (k : Pairing) (m : Means W) (Q : Pairing → α → β → Prop) (x : Eval W α)
    (y : Eval W β) : Prop :=
  ∀ l σ τ, k.Le l → l.Agree σ τ → l.Ends Q σ τ (x m σ) (y m τ)

section

variable {k l : Pairing} {m : Means W} {Q : Pairing → α → β → Prop} {R : Pairing → γ → δ → Prop}
  {x : Eval W α} {y : Eval W β}

theorem Tied.mono (hle : k.Le l) (h : k.Tied m Q x y) : l.Tied m Q x y :=
  fun _ σ τ hle' => h _ σ τ (hle.trans hle')

theorem tied_pure {a : α} {b : β} (h : ∀ l, k.Le l → Q l a b) :
    k.Tied m Q (pure a) (pure b) :=
  fun l _ _ hle agree => ⟨l, .refl agree, h l hle⟩

theorem tied_throw (e : Stop) : k.Tied m Q (throw e) (throw e) :=
  fun l _ _ _ agree => ⟨rfl, l, .refl agree⟩

theorem tied_fault (f : Fault) : k.Tied m Q (Eval.fault f) (Eval.fault f) := tied_throw _

theorem tied_bind {f : α → Eval W γ} {g : β → Eval W δ} (h : k.Tied m Q x y)
    (hf : ∀ l a b, k.Le l → Q l a b → l.Tied m R (f a) (g b)) :
    k.Tied m R (x >>= f) (y >>= g) := by
  intro l σ τ hle agree
  have first := h l σ τ hle agree
  rw [Eval.run_bind, Eval.run_bind]
  cases hx : x m σ with
  | ok a σ₁ =>
    cases hy : y m τ with
    | error e τ₁ =>
      rw [hx, hy] at first
      exact first.elim
    | ok b τ₁ =>
      rw [hx, hy] at first
      obtain ⟨l', reach, hq⟩ := first
      exact .trans reach (hf l' a b (hle.trans reach.le) hq l' σ₁ τ₁ (.refl _) reach.agree)
  | error e σ₁ =>
    cases hy : y m τ with
    | ok b τ₁ =>
      rw [hx, hy] at first
      exact first.elim
    | error e' τ₁ =>
      rw [hx, hy] at first
      exact first

/-- A serial number is drawn on both sides. -/
theorem tied_serial : k.Tied m (fun _ _ _ => True) Eval.serial Eval.serial := by
  intro l σ τ hle agree
  exact ⟨l, ⟨.refl l, { agree with }, ⟨rfl, fun _ _ h => ⟨h, rfl⟩, Nat.le_refl _⟩,
    ⟨rfl, fun _ _ h => ⟨h, rfl⟩, Nat.le_refl _⟩⟩, trivial⟩

/-- Something is written into the log on both sides. -/
theorem tied_debug (a b : Store W → String) :
    k.Tied m (fun _ _ _ => True) (Eval.debug a) (Eval.debug b) := by
  intro l σ τ hle agree
  rw [Eval.run_debug, Eval.run_debug]
  refine ⟨l, ⟨.refl l, ?_, ?_, ?_⟩, trivial⟩
  · split <;> split <;> exact { agree with }
  · split
    · exact ⟨rfl, fun _ _ h => ⟨h, rfl⟩, Nat.le_refl _⟩
    · exact .refl _ σ
  · split
    · exact ⟨rfl, fun _ _ h => ⟨h, rfl⟩, Nat.le_refl _⟩
    · exact .refl _ τ

end

end Pairing

end ResumableParsing
