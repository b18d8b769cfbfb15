import ResumableParsing.Proofs.Backtracking.Building
import ResumableParsing.Proofs.Storage.Simulation

/-!
# Bridges between a run and a derivation

A run and a derivation make streams of their own, each in its own store. A bridge tells which of
them belong together, and what the input of the run leads to. Pure functions of the caller do not
tell the two sides apart; reading the input moves the run alone.

* `Bridge.Joins`: stores that a bridge joins
* `Bridge.Joins.action`, `Bridge.Joins.action_back`: programs of the caller, from either side
* `Bridge.Passes`: what the run does alone
* `Bridge.Reads`: states that hold a list of tokens
* `Reply.Reflects`: replies that say what a grammar derives
* `Grammar.Derives.unique`: a grammar derives one thing of a list of tokens
-/

namespace ResumableParsing

variable {W α β : Type}

/-! ## Bridges -/

/-- What is known of a run and a derivation side by side. -/
structure Bridge where
  /-- The tails of the run and of the derivation that belong together. -/
  tails : TailId → TailId → Prop
  /-- What the input of the run leads to. -/
  contents : Contents

/-- The tails that belong together. -/
abbrev Bridge.pairing (b : Bridge) : Pairing := ⟨b.tails, fun _ _ => False⟩

/-- The values of the run and of the derivation correspond. -/
abbrev Bridge.Like (b : Bridge) : Value → Value → Prop := b.pairing.Like

/-- More is known. -/
structure Bridge.Le (b c : Bridge) : Prop where
  /-- What belongs together still does. -/
  tails : ∀ i j, b.tails i j → c.tails i j
  /-- The contents stay. -/
  contents : b.contents.Le c.contents

/-- The bridge joins the store of the run and that of the derivation. -/
structure Bridge.Joins (b : Bridge) (σ υ : Store W) : Prop where
  /-- They agree about what belongs together. -/
  agree : b.pairing.Agree σ υ
  /-- The contents fit the store of the run. -/
  fits : b.contents.Fits (fun _ => False) σ
  /-- What belongs together lies beside them. -/
  apart : ∀ i j, b.tails i j → b.contents.tails i = none

namespace Bridge

variable {b c d : Bridge} {σ σ' υ υ' : Store W} {v w : Value}

theorem Le.refl (b : Bridge) : b.Le b := ⟨fun _ _ h => h, .refl _⟩

theorem Le.trans (h : b.Le c) (h' : c.Le d) : b.Le d :=
  ⟨fun i j ht => h'.tails i j (h.tails i j ht), h.contents.trans h'.contents⟩

theorem Le.pairing (h : b.Le c) : b.pairing.Le c.pairing := ⟨h.tails, fun _ _ hp => hp⟩

theorem Like.mono (hle : b.Le c) (h : b.Like v w) : c.Like v w := Pairing.Like.mono hle.pairing h

/-- At first nothing belongs together. -/
theorem joins_start {κ : Contents} (fits : κ.Fits (fun _ => False) σ)
    (same : σ.logging = υ.logging) : (⟨fun _ _ => False, κ⟩ : Bridge).Joins σ υ :=
  ⟨⟨fun _ _ h => h.elim, ⟨fun _ _ _ h => h.elim, fun _ _ _ h => h.elim⟩, fun _ _ h => h.elim,
    ⟨fun _ _ _ h => h.elim, fun _ _ _ h => h.elim⟩, same⟩, fits, fun _ _ h => h.elim⟩

/-! ### Programs of the caller -/

section

variable {R : Pairing → α → β → Prop} {f : Action W α} {g : Action W β} {x : α} {y : β}

/-- A program of the caller in the run is followed by the derivation. -/
theorem Joins.action (hR : ∀ k l x y, (∀ i j, k.tails i j → l.tails i j) → R k x y → R l x y)
    (joins : b.Joins σ υ) (h : f.Paired R b.pairing g) (run : f.run.Comes σ (.ok x σ')) :
    ∃ y υ' c, g.run.Comes υ (.ok y υ') ∧ b.Le c ∧ c.Joins σ' υ' ∧ R c.pairing x y := by
  -- The input is on the side of the run alone.
  let u : (Storage.setting W).correspondence.World := (b.pairing, ⟨b.contents, .empty⟩)
  have stores : (Storage.setting W).correspondence.Stores u σ υ :=
    ⟨joins.agree, joins.fits, .empty υ, fun i ⟨j, ht⟩ => joins.apart i j ht, fun _ _ => rfl⟩
  have setting := (Storage.lawful W).pairs
  obtain ⟨_, run', ends⟩ := setting.action (fun k l x y hle => hR k l x y hle.tails) h u σ υ _
    (setting.le (setting.refl u)) stores run
  obtain ⟨y, υ', ⟨k, v⟩, rfl, ⟨hle, hle'⟩, ⟨agree, hs⟩, hq⟩ := ends.of_ok
  have hs : Storage.Stores k v σ' υ' := hs
  have hle' : Storage.World.Le u.2 v := hle'
  exact ⟨y, υ', ⟨k.tails, v.left⟩, run', ⟨hle.tails, hle'.left⟩,
    ⟨agree.turned.turned, hs.left, fun i j ht => hs.leftApart i ⟨j, ht⟩⟩,
    hR k _ _ _ (fun _ _ ht => ht) hq⟩

/-- A program of the caller in the derivation is followed by the run. -/
theorem Joins.action_back
    (hR : ∀ k l x y, (∀ i j, k.tails i j → l.tails i j) → R k x y → R l x y)
    (joins : b.Joins υ σ) (h : f.Paired R b.pairing.turned g) (run : f.run.Comes σ (.ok x σ')) :
    ∃ y υ' c, g.run.Comes υ (.ok y υ') ∧ b.Le c ∧ c.Joins υ' σ' ∧ R c.pairing.turned x y := by
  -- The sides are exchanged, so the input is on the right.
  let u : (Storage.setting W).correspondence.World := (b.pairing.turned, ⟨.empty, b.contents⟩)
  have stores : (Storage.setting W).correspondence.Stores u σ υ :=
    ⟨joins.agree.turned, .empty σ, joins.fits, fun _ _ => rfl, fun j ⟨i, ht⟩ => joins.apart j i ht⟩
  have setting := (Storage.lawful W).pairs
  obtain ⟨_, run', ends⟩ := setting.action (fun k l x y hle => hR k l x y hle.tails) h u σ υ _
    (setting.le (setting.refl u)) stores run
  obtain ⟨y, υ', ⟨k, v⟩, rfl, ⟨hle, hle'⟩, ⟨agree, hs⟩, hq⟩ := ends.of_ok
  have hs : Storage.Stores k v σ' υ' := hs
  have hle' : Storage.World.Le u.2 v := hle'
  exact ⟨y, υ', ⟨k.turned.tails, v.right⟩, run', ⟨fun i j ht => hle.tails j i ht, hle'.right⟩,
    ⟨agree.turned, hs.right, fun i j ht => hs.rightApart i ⟨j, ht⟩⟩,
    hR k _ _ _ (fun _ _ ht => ht) hq⟩

end

/-- A pure function gives corresponding values. -/
theorem Joins.maps {f : Value → Action W Value} {x : Value} (joins : b.Joins σ υ)
    (pure : ∀ k : Pairing, k.Functions Pairing.Like f f) (hv : b.Like v w)
    (run : (f v).run.Comes σ (.ok x σ')) :
    ∃ y υ' c, (f w).run.Comes υ (.ok y υ') ∧ b.Le c ∧ c.Joins σ' υ' ∧ c.Like x y :=
  joins.action (R := Pairing.Like) (fun _ _ _ _ => Pairing.Like.along)
    (pure _ _ v w (.refl _) hv) run

theorem Joins.maps_back {f : Value → Action W Value} {y : Value} (joins : b.Joins σ υ)
    (pure : ∀ k : Pairing, k.Functions Pairing.Like f f) (hv : b.Like v w)
    (run : (f w).run.Comes υ (.ok y υ')) :
    ∃ x σ' c, (f v).run.Comes σ (.ok x σ') ∧ b.Le c ∧ c.Joins σ' υ' ∧ c.Like x y := by
  obtain ⟨x, σ', c, run', hle, joins', h⟩ := joins.action_back (R := Pairing.Like)
    (fun _ _ _ _ => Pairing.Like.along) (pure _ _ w v (.refl _) hv.turned) run
  exact ⟨x, σ', c, run', hle, joins', h.turned⟩

/-- A pure predicate says the same of a token. -/
theorem Joins.tests {f : Value → Action W Bool} {x : Value} {a : Bool} (joins : b.Joins σ υ)
    (pure : ∀ k : Pairing, k.Predicates f f) (hx : x.Settled)
    (run : (f x).run.Comes σ (.ok a σ')) :
    ∃ υ' c, (f x).run.Comes υ (.ok a υ') ∧ b.Le c ∧ c.Joins σ' υ' := by
  obtain ⟨_, υ', c, run', hle, joins', rfl⟩ :=
    joins.action (fun _ _ _ _ _ h => h) (pure _ _ x (.refl _) hx) run
  exact ⟨υ', c, run', hle, joins'⟩

theorem Joins.tests_back {f : Value → Action W Bool} {x : Value} {a : Bool} (joins : b.Joins σ υ)
    (pure : ∀ k : Pairing, k.Predicates f f) (hx : x.Settled)
    (run : (f x).run.Comes υ (.ok a υ')) :
    ∃ σ' c, (f x).run.Comes σ (.ok a σ') ∧ b.Le c ∧ c.Joins σ' υ' := by
  obtain ⟨_, σ', c, run', hle, joins', rfl⟩ :=
    joins.action_back (fun _ _ _ _ _ h => h) (pure _ _ x (.refl _) hx) run
  exact ⟨σ', c, run', hle, joins'⟩

/-! ### What the run does alone -/

/-- The computation has a result with the property, and the store of the derivation stays as it is.
-/
def Passes (b : Bridge) (x : Eval W α) (σ υ : Store W) (Q : Bridge → α → Prop) : Prop :=
  ∃ a σ' c, x.Comes σ (.ok a σ') ∧ b.Le c ∧ c.Joins σ' υ ∧ Q c a

/-- What finds its result in every store that the contents fit does so here. -/
theorem Joins.finds {x : Eval W α} {Q : Contents → α → Prop} (joins : b.Joins σ υ)
    (h : b.contents.Finds (fun _ => False) x Q) : b.Passes x σ υ fun c a => Q c.contents a := by
  obtain ⟨a, κ, σ', run, moves, fits, ha⟩ := h b.contents σ (.refl _) joins.fits
  have stores : Storage.Stores b.pairing ⟨b.contents, .empty⟩ σ υ :=
    ⟨joins.fits, .empty υ, fun i ⟨j, ht⟩ => joins.apart i j ht, fun _ _ => rfl⟩
  have agree : b.pairing.Agree σ' υ :=
    Storage.agree_of_moves (u := ⟨κ, .empty⟩) joins.agree stores moves (.refl _ _ _ _)
  refine ⟨a, σ', ⟨b.tails, κ⟩, run, ⟨fun _ _ ht => ht, moves.le⟩,
    ⟨agree, fits, fun i j ht => ?_⟩, ha⟩
  -- Reading moves the contents only, so what belongs together has not been touched.
  obtain ⟨m, _, hm, -⟩ := joins.agree.tails i j ht
  exact (moves.tails i (Array.getElem?_eq_some_iff.mp hm).1 (joins.apart i j ht)).1

/-- So it is with what is looked up, and with bookkeeping. -/
theorem Joins.changes {x : Eval W α} {f : Store W → α × Store W} (joins : b.Joins σ υ)
    (hx : ∀ m σ, x m σ = .ok (f σ).1 (f σ).2)
    (hf : ∀ σ, (f σ).2 = { σ with
      world := (f σ).2.world, log := (f σ).2.log, nextSerial := (f σ).2.nextSerial }) :
    b.Passes x σ υ fun _ _ => True := joins.finds (Contents.finds_change hx hf)

theorem Joins.serial (joins : b.Joins σ υ) :
    b.Passes (Eval.serial : Eval W Nat) σ υ fun _ _ => True :=
  joins.finds Contents.finds_serial

theorem Joins.debug (joins : b.Joins σ υ) (m : Store W → String) :
    b.Passes (Eval.debug m) σ υ fun _ _ => True := joins.finds (Contents.finds_debug m)

theorem Joins.get (joins : b.Joins σ υ) : b.Passes (get : Eval W (Store W)) σ υ fun _ _ => True :=
  joins.changes (f := fun σ => (σ, σ)) (fun _ _ => rfl) fun _ => rfl

/-- A result that is known, in a store that is left as it is. -/
theorem Joins.known {x : Eval W α} {a : α} (joins : b.Joins σ υ) (run : x.Comes σ (.ok a σ)) :
    b.Passes x σ υ fun _ c => c = a := ⟨a, σ, b, run, .refl b, joins, rfl⟩

/-- A value is put in front of a stream, in a cell of its own. -/
theorem Joins.cons {s t : Stream Value} (joins : b.Joins σ υ) (hv : b.Like v w)
    (hs : b.Like (.stream s) (.stream t)) (m : Nat) :
    b.Passes (Combine.cons.join v (.stream s)) σ υ fun c x => c.Like x (.stream (.cons m w t)) := by
  obtain ⟨n, σ', c, run, hle, joins', -⟩ := joins.serial
  exact ⟨_, σ', c, comes_bind_ok (comes_bind_ok run (comes_pure _ _)) (comes_pure _ _), hle, joins',
    .cons (hv.mono hle) (hs.mono hle)⟩

/-! ### Reading the input -/

/-- A plain state whose input holds the tokens, which are data. -/
def Reads (b : Bridge) (xs : List Value) : State Value → Prop
  | .plain _ i _ _ => (∃ r, b.contents.Holds r i (.ofList xs)) ∧ ∀ x ∈ xs, x.Settled
  | .chunked .. => False

variable {s : State Value} {x : Value} {xs : List Value}

theorem Reads.mono (hle : b.Le c) (h : b.Reads xs s) : c.Reads xs s := by
  cases s with
  | chunked a m s => exact h
  | plain w i p u =>
    obtain ⟨⟨r, holds⟩, settled⟩ := h
    exact ⟨⟨r, holds.mono hle.contents (Nat.le_refl r)⟩, settled⟩

theorem Reads.settled (h : b.Reads xs s) : ∀ x ∈ xs, x.Settled := by
  cases s with
  | chunked a m s => exact h.elim
  | plain w i p u => exact h.2

theorem Reads.stays (h : b.Reads xs s) : s.Moved 0 s := by
  cases s with
  | chunked a m s => exact h.elim
  | plain w i p u => exact ⟨w, i, i, p, u, rfl, by simp⟩

theorem Joins.isEmpty (joins : b.Joins σ υ) (h : b.Reads xs s) :
    b.Passes s.input.isEmpty σ υ fun _ a => a = xs.isEmpty := by
  cases s with
  | chunked a m s => exact h.elim
  | plain w i p u =>
    obtain ⟨⟨r, holds⟩, -⟩ := h
    obtain ⟨a, σ', c, run, hle, joins', ha⟩ := joins.finds (holds.readable (W := W)).isEmpty
    refine ⟨a, σ', c, run, hle, joins', Bool.eq_iff_iff.mpr (ha.trans ?_)⟩
    cases xs with
    | nil => simp
    | cons x xs => simp [Stream'.Seq.cons_ne_nil]

theorem Joins.first (joins : b.Joins σ υ) (h : b.Reads (x :: xs) s) :
    b.Passes s.input.first σ υ fun _ a => a = x := by
  cases s with
  | chunked a m s => exact h.elim
  | plain w i p u =>
    obtain ⟨⟨r, holds⟩, -⟩ := h
    exact joins.finds ((holds.readable (W := W)).first x _ (Stream'.Seq.ofList_cons x xs))

/-- A state moves past its first token. -/
theorem Joins.advance {w : Bool} {i : Stream Value} {p : Int} {u : Value} (joins : b.Joins σ υ)
    (h : b.Reads (x :: xs) (.plain w i p u)) :
    b.Passes (State.plain w i p u).advance σ υ fun c t =>
      (State.plain w i p u).Moved 1 t ∧ c.Reads xs t := by
  obtain ⟨⟨r, holds⟩, settled⟩ := h
  obtain ⟨j, σ', c, run, hle, joins', hj⟩ :=
    joins.finds ((holds.readable (W := W)).rest x _ (Stream'.Seq.ofList_cons x xs))
  refine ⟨_, σ', c, comes_bind_ok run (comes_pure _ σ'), hle, joins', ?_, ⟨r, hj⟩, ?_⟩
  · exact ⟨w, i, j, p, u, rfl, rfl⟩
  · exact fun y hy => settled y (List.mem_cons_of_mem x hy)

end Bridge

/-! ## Replies -/

/-- The reply to a parser that is started in `s` says what its grammar makes of the tokens there. A
success that has not consumed has taken no token. -/
inductive Reply.Reflects (b : Bridge) (g : Grammar W) (xs : List Value) (s : State Value) :
    Reply Value → Option (Value × Nat) → Prop where
  | ok {d : Bool} {v w : Value} {t : State Value} {n : Nat} : b.Like v w → (d = false → n = 0) →
      s.Moved n t → b.Reads (xs.drop n) t → Reflects b g xs s (.ok d v t) (some (w, n))
  | err {d : Bool} {e : ParseError Value} {t : State Value} : (g.IsAttempt → d = false) →
      Reflects b g xs s (.err d e t) none

section

variable {b c : Bridge} {g h : Grammar W} {xs : List Value} {s t u : State Value} {v w : Value}
  {n k : Nat} {d d' : Bool} {r : Reply Value} {result : Option (Value × Nat)}

/-- A success where the parser has been started. -/
theorem Reply.Reflects.stay (hv : b.Like v w) (hs : b.Reads xs s) :
    (Reply.ok false v s).Reflects b g xs s (some (w, 0)) := .ok hv (fun _ => rfl) hs.stays hs

/-- One success behind another one. -/
theorem Reply.Reflects.next (hv : b.Like v w) (hd : d = false → n = 0) (hd' : d' = false → k = 0)
    (moved : s.Moved n t) (moved' : t.Moved k u) (hu : b.Reads ((xs.drop n).drop k) u) :
    (Reply.ok (d || d') v u).Reflects b g xs s (some (w, n + k)) := by
  refine .ok hv (fun h => ?_) (moved.trans moved') (by rwa [← List.drop_drop])
  obtain ⟨rfl, rfl⟩ := Bool.or_eq_false_iff.mp h
  rw [hd rfl, hd' rfl]

theorem Reply.Reflects.mono (hle : b.Le c) (hr : r.Reflects b g xs s result) :
    r.Reflects c g xs s result := by
  cases hr with
  | ok hv hd moved hs => exact .ok (hv.mono hle) hd moved (hs.mono hle)
  | err hd => exact .err hd

/-- Only attempts say more about failures. -/
theorem Reply.Reflects.of_not_attempt (hg : ¬g.IsAttempt) (hr : r.Reflects b h xs s result) :
    r.Reflects b g xs s result := by
  cases hr with
  | ok hv hd moved hs => exact .ok hv hd moved hs
  | err _ => exact .err fun h => absurd h hg

end

end ResumableParsing
