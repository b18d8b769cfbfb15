import Mathlib.Data.List.Induction
import Mathlib.Logic.Function.Basic
import ResumableParsing.Proofs.Deferred.Traces

/-!
# What becomes of deferred parts

Each incident of a trace changes what is known of one deferred part: a call marks it as busy, and
the end of the call takes the mark away again. So what is known at any moment can be read off the
incidents before it.

* `Incident.Moves`, `Incident.Leads`: one incident, and a series of them
* `Eval.Traced.leads`: a trace leads from what is known before to what is known afterwards
* `Incident.Running`: the function of a part has been called and has not ended
* `Incident.Leads.busy_iff`, `Incident.Leads.known_iff`: what is known of a part after a series
-/

namespace ResumableParsing

variable {W α : Type}

/-! ## Incidents one by one -/

/-- What is known of each deferred part. -/
abbrev Knowledge : Type := (d : Deferred) → Slot d.Content

namespace Incident

/-- An incident can occur where this is known, and leaves that. -/
inductive Moves : Knowledge → Incident → Knowledge → Prop where
  /-- A known value is given. -/
  | kept {k : Knowledge} {d : Deferred} {a : d.Content} : k d = .known a → Moves k (.kept d a) k
  /-- A busy part refuses. -/
  | reentered {k : Knowledge} {d : Deferred} : k d = .busy → Moves k (.reentered d) k
  /-- A part of which nothing is known becomes busy. -/
  | called {k : Knowledge} {d : Deferred} :
      k d = .unset → Moves k (.called d) (Function.update k d .busy)
  /-- The value of a busy part becomes known. -/
  | returned {k : Knowledge} {d : Deferred} (a : d.Content) :
      k d = .busy → Moves k (.returned d a) (Function.update k d (.known a))
  /-- Of a busy part nothing is known again. -/
  | failed {k : Knowledge} {d : Deferred} (e : Stop) :
      k d = .busy → Moves k (.failed d e) (Function.update k d .unset)

/-- Incidents occur one after another. -/
inductive Leads : Knowledge → List Incident → Knowledge → Prop where
  | nil (k : Knowledge) : Leads k [] k
  | cons {k k' k'' : Knowledge} {e : Incident} {es : List Incident} :
      Moves k e k' → Leads k' es k'' → Leads k (e :: es) k''

variable {k k' k'' : Knowledge} {e : Incident} {es es' : List Incident} {d : Deferred}

theorem Leads.single (h : Moves k e k') : Leads k [e] k' := .cons h (.nil k')

theorem Leads.append (h : Leads k es k') (h' : Leads k' es' k'') : Leads k (es ++ es') k'' := by
  induction h with
  | nil => exact h'
  | cons move _ ih => exact .cons move (ih h')

theorem Leads.split (h : Leads k (es ++ es') k'') : ∃ k', Leads k es k' ∧ Leads k' es' k'' := by
  induction es generalizing k with
  | nil => exact ⟨k, .nil k, h⟩
  | cons e es ih =>
    cases h with
    | cons move rest =>
      obtain ⟨k', first, second⟩ := ih rest
      exact ⟨k', .cons move first, second⟩

end Incident

/-! ## Traces -/

section

variable {x : Eval W α} {σ : Store W} {d d' : Deferred} {y : EStateM.Result Stop (Store W) α}
  {es : List Incident}

/-- What is known of a part when its function has ended. -/
def Deferred.outcome (d : Deferred) : EStateM.Result Stop (Store W) d.Content → Slot d.Content
  | .ok a _ => .known a
  | .error _ _ => .unset

theorem left_settle (d : Deferred) (z : EStateM.Result Stop (Store W) d.Content) :
    left (d.settle z) = (left z).mark d (d.outcome z) := by
  cases z <;> rfl

theorem Store.slot_mark (h : (σ.part? d).isSome) (s : Slot d.Content) :
    (σ.mark d s).slot = Function.update σ.slot d s := by
  funext e
  by_cases same : e = d
  · subst same
    rw [slot_mark_self h, Function.update_self]
  · rw [slot_mark_other σ s (Ne.symm same), Function.update_of_ne same]

/-- While a part is being computed it stays marked as busy, whatever else is asked for. -/
theorem Eval.Traced.busy_stays (h : x.Traced σ es y) (busy : σ.slot d = .busy) :
    (left y).slot d = .busy := by
  induction h with
  | change f σ _ hf => exact ((hf σ).slot d).trans busy
  | bind _ _ ih ih' => exact ih' (ih busy)
  | @computed d' x σ es y found _ ih =>
    -- What is computed meanwhile is another part, since this one is busy.
    have other : d' ≠ d := by
      intro same
      subst same
      rw [Store.slot_of_part found] at busy
      cases busy
    rw [left_settle, Store.slot_mark_other _ _ other]
    apply ih
    rw [Store.slot_mark_other _ _ other, busy]
  | stop => exact busy
  | broken _ ih => exact ih busy
  | quiet _ ih => exact ih busy
  | caught _ ih => exact ih busy
  | lost _ ih => exact ih busy
  | loop n _ _ _ ih => exact ih busy
  | kept => exact busy
  | reentered => exact busy
  | missing => exact busy
  | session _ ih => exact ih busy

/-- When the function of a part has ended, its value is known or nothing is. -/
theorem slot_settle {x : Eval W d.Content} {z : EStateM.Result Stop (Store W) d.Content}
    (found : σ.part? d = some ⟨x, .unset⟩) (traced : x.Traced (σ.mark d .busy) es z) :
    (left (d.settle z)).slot d = d.outcome z := by
  have busy := traced.busy_stays (Store.busy_mark found)
  obtain ⟨x', there⟩ := Store.part_of_slot busy (by simp)
  rw [left_settle, Store.slot_mark_self (by simp [there])]

theorem Incident.moves_ending {k : Knowledge} (busy : k d = .busy)
    (z : EStateM.Result Stop (Store W) d.Content) :
    Moves k (d.ending z) (Function.update k d (d.outcome z)) := by
  cases z with
  | ok a υ => exact .returned a busy
  | error e υ => exact .failed e busy

/-- A trace leads from what is known before the computation to what is known after it. -/
theorem Eval.Traced.leads (h : x.Traced σ es y) : Incident.Leads σ.slot es (left y).slot := by
  induction h with
  | change f σ _ hf =>
    have same : (f σ).2.slot = σ.slot := funext (hf σ).slot
    show Incident.Leads σ.slot [] (f σ).2.slot
    rw [same]
    exact .nil _
  | stop => exact .nil _
  | bind _ _ ih ih' => exact ih.append ih'
  | broken _ ih => exact ih
  | quiet _ ih => exact ih
  | caught _ ih => exact ih
  | lost _ ih => exact ih
  | loop n _ _ _ ih => exact ih
  | kept found => exact .single (.kept (Store.slot_of_part found))
  | reentered found => exact .single (.reentered (Store.slot_of_part found))
  | @computed d x σ es y found traced ih =>
    have there : (σ.part? d).isSome := by simp [found]
    -- The part is busy when its function is called, and so it still is when the function ends.
    have busy : (left y).slot d = .busy := traced.busy_stays (Store.busy_mark found)
    have there' : ((left y).part? d).isSome := by
      obtain ⟨x', found'⟩ := Store.part_of_slot busy (by simp)
      simp [found']
    rw [Store.slot_mark there] at ih
    rw [left_settle, Store.slot_mark there']
    apply Incident.Leads.cons (.called (Store.slot_of_part found))
    exact ih.append (.single (Incident.moves_ending busy y))
  | missing => exact .nil _
  | session _ ih => exact ih

end

/-! ## What is known after a series of incidents -/

namespace Incident

variable {k k' : Knowledge} {e : Incident} {es : List Incident} {d : Deferred}

/-- The incident ends a call of the function of the part. -/
def Ends (d : Deferred) (e : Incident) : Prop := (∃ a, e = .returned d a) ∨ ∃ f, e = .failed d f

/-- The function of the part has been called, and has not ended since. -/
def Running (d : Deferred) (es : List Incident) : Prop :=
  ∃ before since, es = before ++ .called d :: since ∧ ∀ e ∈ since, ¬e.Ends d

theorem not_running_nil (d : Deferred) : ¬Running d [] := by
  intro ⟨before, since, h, _⟩
  simp at h

theorem running_concat : Running d (es ++ [e]) ↔ e = .called d ∨ (Running d es ∧ ¬e.Ends d) := by
  constructor
  · intro ⟨before, since, h, quiet⟩
    -- The last call of the function is the new incident, or lies before it.
    rcases List.eq_nil_or_concat since with none | ⟨since', e', some⟩
    · left
      subst none
      exact List.singleton_inj.mp (List.append_inj_right' h rfl)
    · right
      rw [List.concat_eq_append] at some
      subst some
      rw [← List.cons_append, ← List.append_assoc] at h
      obtain ⟨rfl, last⟩ := List.append_inj' h rfl
      obtain rfl : e = e' := List.singleton_inj.mp last
      refine ⟨⟨before, since', rfl, fun e' h' => quiet e' ?_⟩, quiet e ?_⟩
      · exact List.mem_append_left _ h'
      · simp
  · intro h
    rcases h with rfl | ⟨⟨before, since, rfl, quiet⟩, last⟩
    · exact ⟨es, [], rfl, by simp⟩
    · refine ⟨before, since ++ [e], by simp, ?_⟩
      intro e' h'
      rcases List.mem_append.mp h' with h' | h'
      · exact quiet e' h'
      · rwa [List.mem_singleton.mp h']

/-- An incident leaves what is known of other parts as it is. -/
theorem Moves.other (h : Moves k e k') (other : e.part ≠ d) : k' d = k d := by
  cases h with
  | kept => rfl
  | reentered => rfl
  | called => exact Function.update_of_ne (Ne.symm other) _ _
  | returned => exact Function.update_of_ne (Ne.symm other) _ _
  | failed => exact Function.update_of_ne (Ne.symm other) _ _

theorem Leads.other (h : Leads k es k') (other : ∀ e ∈ es, e.part ≠ d) : k' d = k d := by
  induction h with
  | nil => rfl
  | cons move _ ih =>
    have first := move.other (other _ List.mem_cons_self)
    exact (ih fun e he => other e (List.mem_cons_of_mem _ he)).trans first

theorem Ends.part (h : e.Ends d) : e.part = d := by
  rcases h with ⟨a, rfl⟩ | ⟨f, rfl⟩ <;> rfl

/-- After one more incident, a part is busy if its function has just been called, or if it was busy
and the function has not ended now. -/
theorem Moves.busy_iff (h : Moves k e k') :
    k' d = .busy ↔ e = .called d ∨ (k d = .busy ∧ ¬e.Ends d) := by
  by_cases same : e.part = d
  · subst same
    cases h with
    | kept known => simp [part, known]
    | reentered busy => simp [part, busy, Ends]
    | called unset => simp [part]
    | returned a busy => simp [part, Ends]
    | failed f busy => simp [part, Ends]
  · have called : e ≠ .called d := by
      intro h
      exact same (h ▸ rfl)
    have ends : ¬e.Ends d := fun h => same h.part
    rw [h.other same]
    simp [called, ends]

/-- A part is busy exactly while its function is running. -/
theorem Leads.busy_iff (h : Leads k es k') (idle : k d ≠ .busy) :
    k' d = .busy ↔ Running d es := by
  -- Whether a part is busy is decided by the last incident, so the induction goes from the end.
  induction es using List.reverseRecOn generalizing k' with
  | nil =>
    cases h
    simp [idle, not_running_nil]
  | append_singleton es e ih =>
    obtain ⟨m, before, last⟩ := h.split
    cases last with
    | cons move rest =>
      cases rest
      rw [move.busy_iff, ih before, running_concat]

/-- After one more incident, a value is known if it was known before, or has just been returned. -/
theorem Moves.known_iff (h : Moves k e k') (a : d.Content) :
    k' d = .known a ↔ k d = .known a ∨ e = .returned d a := by
  -- Only an incident of the same part changes what is known of it.
  by_cases same : e.part = d
  · subst same
    cases h with
    | kept known => simp
    | reentered busy => simp
    | called unset => simp [part, unset]
    | returned b busy =>
      simp only [busy, part, Function.update_self, reduceCtorEq, false_or]
      constructor
      · intro h
        rw [Slot.known.inj h]
      · intro h
        cases h
        rfl
    | failed f busy => simp [part, busy]
  · have returned : e ≠ .returned d a := by
      intro h
      exact same (h ▸ rfl)
    rw [h.other same]
    simp [returned]

/-- A value is known exactly if it was known before, or has been returned. -/
theorem Leads.known_iff (h : Leads k es k') (a : d.Content) :
    k' d = .known a ↔ k d = .known a ∨ .returned d a ∈ es := by
  induction h with
  | nil => simp
  | cons move _ ih =>
    rw [ih, move.known_iff]
    simp [or_assoc, eq_comm]

/-- A value that is known is given whenever its part is asked for; the function is not called. -/
theorem Leads.kept {a : d.Content} (h : Leads k es k') (known : k d = .known a) :
    ∀ e ∈ es, e.part = d → e = .kept d a := by
  induction h with
  | nil => simp
  | @cons k m k'' e es move _ ih =>
    intro e' he' about
    rcases List.mem_cons.mp he' with rfl | later
    · subst about
      cases move with
      | kept known' => exact congrArg _ (Slot.known.inj (known'.symm.trans known))
      | reentered busy => cases busy.symm.trans known
      | called unset => cases unset.symm.trans known
      | returned b busy => cases busy.symm.trans known
      | failed f busy => cases busy.symm.trans known
    · have known' : m d = .known a := (move.known_iff a).mpr (.inl known)
      exact ih known' e' later about

/-- A part of which nothing is known calls its function when it is asked for. -/
theorem Moves.called_of_unset (h : Moves k e k') (unset : k e.part = .unset) :
    e = .called e.part := by
  cases h with
  | kept known => simp [Incident.part, known] at unset
  | reentered busy => simp [Incident.part, busy] at unset
  | called => rfl
  | returned b busy => simp [Incident.part, busy] at unset
  | failed f busy => simp [Incident.part, busy] at unset

end Incident

end ResumableParsing
