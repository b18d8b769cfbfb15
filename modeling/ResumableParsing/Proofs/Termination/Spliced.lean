import ResumableParsing.Proofs.Termination.Lasting
import ResumableParsing.Proofs.Termination.Lists

/-!
# Two streams in one

A repetition with two bounds puts the stream of the required results before the stream of the
others. The cells of both are all there, but those of the whole have tails that are computed when
somebody reads it. Whatever else is computed in between, it can be read to its end.

* `Stream.Spliced`: a stream that is put together from two whose elements are all there
* `spliced_of_append`: putting two such streams together
* `Stream.Spliced.later`: no computation changes what it holds
* `Stream.Spliced.finite`: it is finite
-/

namespace ResumableParsing

variable {W : Type}

/-- The stream holds these elements. They are all there, or the first of them are those of another
stream, and the tails behind them are computed on demand. -/
inductive Stream.Spliced (σ : Store W) : List Value → Stream Value → Prop where
  /-- The elements are all there. -/
  | spells {s : Stream Value} {vs : List Value} : s.Spells vs → Spliced σ vs s
  /-- What comes behind the first element has not been computed. -/
  | waiting {a b : Stream Value} {n : Nat} {v : Value} {i : TailId} {vs ws : List Value} :
      i.Is σ (.append a b) .unset → a.Spells (v :: vs) → b.Spells ws →
      Spliced σ (v :: (vs ++ ws)) (.lazy n v i)
  /-- What comes behind the first element is known. -/
  | read {t : Stream Value} {x : Tail W} {n : Nat} {v : Value} {i : TailId} {vs : List Value} :
      i.Is σ x (.known (some t)) → Spliced σ vs t → Spliced σ (v :: vs) (.lazy n v i)

section

variable {σ τ : Store W} {a b s t : Stream Value} {v : Value} {vs ws : List Value} {i : TailId}

/-- Two streams whose elements are all there are put together. -/
theorem append_spliced (ha : a.Spells vs) (hb : b.Spells ws) (σ : Store W) :
    ∃ t τ, (∀ m, a.append b m σ = .ok t τ) ∧ σ.Adds τ ∧ t.Spliced τ (vs ++ ws) := by
  -- Only where there is an element to put in front, a new tail is made.
  cases vs with
  | nil =>
    refine ⟨b, σ, fun m => ?_, .refl σ, .spells hb⟩
    rw [Stream.append, Eval.run_bind, ha.isEmpty m σ]
    rfl
  | cons v vs =>
    let τ : Store W := { σ with
      nextSerial := σ.nextSerial + 1
      tails := σ.tails.push ⟨.append a b, .unset⟩ }
    have new : (⟨σ.tails.size⟩ : TailId).Is τ (.append a b) .unset := Array.getElem?_push_size
    have adds : σ.Adds τ := { Store.Adds.pushTail σ _ with nextSerial := Nat.le_succ _ }
    refine ⟨.lazy σ.nextSerial v ⟨σ.tails.size⟩, τ, fun m => ?_, adds, .waiting new ha hb⟩
    rw [Stream.append, Eval.run_bind, ha.isEmpty m σ]
    simp only [List.isEmpty_cons, Bool.false_eq_true, if_false]
    rw [Eval.run_bind, ha.first m σ]
    rfl

theorem spliced_of_append (ha : a.Spells vs) (hb : b.Spells ws)
    (h : (a.append b).Comes σ (.ok t τ)) : t.Spliced τ (vs ++ ws) := by
  obtain ⟨t', τ', put, -, spliced⟩ := append_spliced ha hb σ
  cases h.unique (comes_of_forall (fun n => put (.within n)) not_exhausted_ok)
  exact spliced

/-! ## Asking for tails -/

namespace Stream.Spliced

theorem adds (h : s.Spliced σ vs) (k : σ.Adds τ) : s.Spliced τ vs := by
  induction h with
  | spells h => exact .spells h
  | waiting h ha hb => exact .waiting (k.sameTails _ _ h) ha hb
  | read h _ ih => exact .read (k.sameTails _ _ h) ih

end Stream.Spliced

/-- A tail of which something else is known is not the one that is marked. -/
theorem TailId.Is.mark_of_slot {x : Tail W} {slot : Slot (Option (Stream Value))} {d : Deferred}
    {s : Slot d.Content} (h : i.Is σ x slot) (other : d = .tail i → σ.slot (.tail i) ≠ slot) :
    i.Is (σ.mark d s) x slot := by
  have here : σ.slot (.tail i) = slot :=
    Store.slot_of_part (x := x.compute) (by simp [Store.part?, show σ.tails[i.index]? = _ from h])
  exact (σ.tails_mark_other s fun same => other same here).trans h

namespace Stream.Spliced

/-- Tails that are being computed are none of these. -/
theorem mark (h : s.Spliced σ vs) {d : Deferred} (slot : Slot d.Content) (busy : σ.slot d = .busy) :
    s.Spliced (σ.mark d slot) vs := by
  have other {i : TailId} {slot : Slot (Option (Stream Value))} (hs : slot ≠ .busy) :
      d = .tail i → σ.slot (.tail i) ≠ slot := by
    rintro rfl same
    exact hs (same.symm.trans busy)
  induction h with
  | spells h => exact .spells h
  | waiting h ha hb => exact .waiting (h.mark_of_slot (other (by simp))) ha hb
  | read h _ ih => exact .read (h.mark_of_slot (other (by simp))) ih

/-- Behind the first element come the rest of the first stream and then the second one. -/
theorem force (hi : i.Is σ (.append a b) .unset) (ha : a.Spells (v :: vs)) (hb : b.Spells ws) :
    ∃ t τ, (∀ n, forceWithin (n + 1) (.tail i) σ = .ok (some t) τ) ∧
      i.Is τ (.append a b) (.known (some t)) ∧ t.Spliced τ (vs ++ ws) := by
  obtain ⟨a', ha', rest, -⟩ := ha.rest (W := W)
  have found : σ.part? (.tail i) = some ⟨(Tail.append a b).compute, .unset⟩ := by
    simp [Store.part?, show σ.tails[i.index]? = _ from hi]
  have marked : i.Is (σ.mark (.tail i) .busy) (.append a b) .busy := hi.put .busy
  obtain ⟨t, τ, put, adds, spliced⟩ := append_spliced ha' hb (σ.mark (.tail i) .busy)
  have busy : i.Is τ (.append a b) .busy := adds.sameTails _ _ marked
  have slot : τ.slot (.tail i) = .busy := adds.toGrows.busy (Store.busy_mark found)
  refine ⟨t, τ.mark (.tail i) (.known (some t)), fun n => ?_, busy.put _, spliced.mark _ slot⟩
  have compute : (Tail.append a b).compute ⟨n, forceWithin n⟩ (σ.mark (.tail i) .busy) =
      .ok (some t) τ := by
    rw [Tail.compute, Eval.run_bind, rest]
    dsimp only
    rw [Eval.run_bind, put]
    rfl
  rw [forceWithin_unset found, compute]
  rfl

/-- Where another tail is asked for, this one is left alone. Asking for the tail of the stream
leaves what it holds. -/
theorem ask (h : s.Spliced σ vs) {d : Deferred} {x : Eval W d.Content}
    (unset : σ.part? d = some ⟨x, .unset⟩) : s.Spliced (σ.mark d .busy) vs ∨
      ∀ n, s.Spliced (left (forceWithin (n + 1) d σ)) vs := by
  induction h with
  | spells h => exact .inl (.spells h)
  | @waiting a b n v i vs ws hi ha hb =>
    by_cases same : d = .tail i
    · subst same
      obtain ⟨t, τ, force, known, spliced⟩ := Spliced.force hi ha hb
      refine .inr fun n => ?_
      rw [force n]
      exact .read known spliced
    · exact .inl (.waiting (hi.mark_of_slot fun this => absurd this same) ha hb)
  | @read t x' n v i vs hi _ ih =>
    have other : d = .tail i → σ.slot (.tail i) ≠ .known (some t) := by
      rintro rfl same
      cases (Store.slot_of_part unset).symm.trans same
    obtain marked | asked := ih
    · exact .inl (.read (hi.mark_of_slot other) marked)
    · exact .inr fun n => .read (hi.known_later (force_grow (n + 1) d σ)) (asked n)

/-- No computation changes what the stream holds. -/
theorem later (h : s.Spliced σ vs) (k : σ.Evolves τ) : s.Spliced τ vs := by
  have lasting : Store.Lasting fun σ : Store W => s.Spliced σ vs :=
    ⟨adds, fun slot h => h.mark slot, fun h => h.ask⟩
  exact lasting.later h k

/-! ## Reading to the end -/

/-- The stream can be read to its end, whatever is computed in between. -/
theorem finite {V : Values W} (h : s.Spliced σ vs) (stable : V.Stable) (hV : ∀ v ∈ vs, V σ v) :
    s.Finite V vs.length σ := by
  -- By induction on the elements. In the later store the tail may have been asked for, so the cases
  -- are those of what the stream is there.
  induction vs generalizing s σ with
  | nil =>
    cases h with
    | spells h => exact h.finite stable hV
  | cons v vs ih =>
    intro τ k
    have hV (w : Value) (hw : w ∈ v :: vs) : V τ w := stable.later (hV w hw) k
    have tl {t : Stream Value} {υ : Store W} (ht : t.Spliced υ vs) (k : τ.Evolves υ) :
        t.Finite V vs.length υ :=
      ih ht fun w hw => stable.later (hV w (List.mem_cons_of_mem v hw)) k
    cases h.later k with
    | spells h => exact h.finite (σ := τ) stable hV τ .refl
    | @waiting a b _ _ i us ws hi ha hb =>
      obtain ⟨t, υ, force, -, spliced⟩ := Spliced.force hi ha hb
      have asked : (Eval.force (.tail i)).Comes τ (.ok (some t) υ) := by
        refine ⟨not_exhausted_ok, 1, fun m hm => ?_⟩
        obtain ⟨m, rfl⟩ : ∃ k, m = k + 1 := ⟨m - 1, by omega⟩
        exact force m
      refine .inr ⟨⟨τ, comes_pure _ τ⟩, ⟨v, τ, comes_pure _ τ, hV v List.mem_cons_self⟩, t, υ,
        comes_bind_ok asked (comes_pure _ υ), tl spliced ?_⟩
      exact (Composed.force (.tail i)).evolves asked
    | @read t x n _ i _ hi ht =>
      have next : (Stream.lazy n v i).Next τ t := ⟨_, hi, rfl⟩
      exact .inr ⟨⟨τ, comes_pure _ τ⟩, ⟨v, τ, comes_pure _ τ, hV v List.mem_cons_self⟩, t, τ,
        next.comes, tl ht .refl⟩

end Stream.Spliced

end

end ResumableParsing
