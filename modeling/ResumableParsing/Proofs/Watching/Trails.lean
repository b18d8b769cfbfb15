import Mathlib.Logic.Relation
import ResumableParsing.Proofs.Watching.Crossing

/-!
# The ways of states inside a chunk

A state inside a chunk remembers the state behind its first token, this one remembers the next, and
so on up to the end of the chunk or to a state from which nobody has moved on yet. A parse keeps
states to come back to; from each of them the way leads to the state that it has reached since, or
to the end of the chunk. So nobody else is left with a way that breaks off in the middle.

* `AdvanceId.Leads`, `AdvanceId.Full`: the way from a state, and a way up to the end of the chunk
* `AdvanceId.Open`, `AdvanceId.Fresh`, `AdvanceId.Spent`: where nobody has moved on yet, where
  nobody has asked for that, and where somebody has asked
* `Store.Recalls`: memories stay
* `Trail`: the states that a parse can come back to
* `Trail.start`, `Trail.full`, `Trail.onward`: the beginning of a trail, its end, and a state
  further on
* `Trail.push`, `Trail.ask`, `Trail.across`, `Trail.within`: single changes of the memories
-/

namespace ResumableParsing

variable {W : Type}

/-! ## Memories stay -/

/-- What is remembered in `σ` is remembered in `τ`. -/
def Store.Recalls (σ τ : Store W) : Prop :=
  ∀ (i : Nat) (m : Advance), σ.advances[i]? = some m → ∃ m', τ.advances[i]? = some m' ∧
    (∀ v, m.token = some v → m'.token = some v) ∧
    ∀ s, m.next = some s → m'.next = some s ∧ m'.exhausted = m.exhausted

/-- Inside a chunk states are remembered that lie inside the chunk, and behind its end plain ones.
-/
def Store.Remembers (σ : Store W) : Prop :=
  ∀ (i : Nat) (m : Advance), σ.advances[i]? = some m → Watching.Remembers m m

section

variable {σ τ υ : Store W}

theorem Store.Recalls.of_advances (h : τ.advances = σ.advances) : σ.Recalls τ :=
  fun _ m hm => ⟨m, h ▸ hm, fun _ hv => hv, fun _ hs => ⟨hs, rfl⟩⟩

theorem Store.Recalls.trans (h : σ.Recalls τ) (h' : τ.Recalls υ) : σ.Recalls υ := by
  intro i m hm
  obtain ⟨m₁, hm₁, token, next⟩ := h i m hm
  obtain ⟨m₂, hm₂, token', next'⟩ := h' i m₁ hm₁
  refine ⟨m₂, hm₂, fun v hv => token' v (token v hv), fun s hs => ?_⟩
  obtain ⟨hs₁, same⟩ := next s hs
  obtain ⟨hs₂, same'⟩ := next' s hs₁
  exact ⟨hs₂, same'.trans same⟩

end

/-! ## Ways -/

namespace AdvanceId

/-- The state behind the token of `a` is the state `b` of the same chunk. -/
def Link (σ : Store W) (a b : AdvanceId) : Prop :=
  ∃ token chunk inner, σ.advances[a.index]? = some ⟨token, some (.chunked b chunk inner), false⟩

/-- The way from `a` leads to `b`. -/
def Leads (σ : Store W) : AdvanceId → AdvanceId → Prop := Relation.ReflTransGen (Link σ)

/-- The way from `a` is known up to the end of the chunk. -/
def Full (σ : Store W) (a : AdvanceId) : Prop :=
  ∃ b token s, a.Leads σ b ∧ σ.advances[b.index]? = some ⟨token, some s, true⟩

/-- Nobody has moved on from `a`. -/
def Open (σ : Store W) (a : AdvanceId) : Prop :=
  ∃ token, σ.advances[a.index]? = some ⟨token, none, false⟩

/-- Nobody has asked to move on from `a`. -/
def Fresh (σ : Store W) (a : AdvanceId) : Prop := σ.advances[a.index]? = some {}

/-- Somebody has asked to move on from `a`. -/
def Spent (σ : Store W) (a : AdvanceId) : Prop :=
  ∃ m v, σ.advances[a.index]? = some m ∧ m.token = some v

end AdvanceId

section

variable {σ τ : Store W} {a b c : AdvanceId}

theorem AdvanceId.Fresh.not_spent (h : a.Fresh σ) : ¬a.Spent σ := by
  rintro ⟨m, v, hm, hv⟩
  cases h.symm.trans hm
  cases hv

theorem AdvanceId.Fresh.not_link (h : a.Fresh σ) : ¬a.Link σ b := by
  rintro ⟨_, _, _, hm⟩
  cases h.symm.trans hm

theorem AdvanceId.Full.of_leads (h : b.Full σ) (hab : a.Leads σ b) : a.Full σ := by
  obtain ⟨c, token, s, hbc, hc⟩ := h
  exact ⟨c, token, s, hab.trans hbc, hc⟩

theorem AdvanceId.Link.unique (h : a.Link σ b) (h' : a.Link σ c) : b = c := by
  obtain ⟨_, _, _, hm⟩ := h
  obtain ⟨_, _, _, hm'⟩ := h'
  cases hm.symm.trans hm'
  rfl

theorem AdvanceId.Open.not_link (h : a.Open σ) : ¬a.Link σ b := by
  obtain ⟨_, hm⟩ := h
  rintro ⟨_, _, _, hm'⟩
  cases hm.symm.trans hm'

/-- Nobody is left behind on a way that is known up to the end of the chunk. -/
theorem AdvanceId.Full.not_open (h : a.Full σ) (hab : a.Leads σ b) : ¬b.Open σ := by
  intro hb
  obtain ⟨c, token, s, hac, hc⟩ := h
  have ends {d : AdvanceId} : ¬c.Link σ d := by
    rintro ⟨_, _, _, hm⟩
    cases hc.symm.trans hm
  -- There is only one way from `a`, and it ends in both places.
  have same : b = c := by
    rcases Relation.ReflTransGen.total_of_right_unique (r := Link σ) (fun _ _ _ h => h.unique)
      hab hac with way | way
    · rcases way.cases_head with same | ⟨d, hd, -⟩
      · exact same
      · exact absurd hd hb.not_link
    · rcases way.cases_head with same | ⟨d, hd, -⟩
      · exact same.symm
      · exact absurd hd ends
  subst same
  obtain ⟨_, hm⟩ := hb
  cases hc.symm.trans hm

/-! ### In later stores -/

namespace Store.Recalls

theorem link (h : σ.Recalls τ) (hab : a.Link σ b) : a.Link τ b := by
  obtain ⟨token, chunk, inner, hm⟩ := hab
  obtain ⟨⟨token', next, exhausted⟩, hm', -, same⟩ := h _ _ hm
  obtain ⟨rfl, rfl⟩ := same _ rfl
  exact ⟨token', chunk, inner, hm'⟩

theorem leads (h : σ.Recalls τ) (hab : a.Leads σ b) : a.Leads τ b :=
  Relation.ReflTransGen.mono (fun _ _ => h.link) _ _ hab

theorem full (h : σ.Recalls τ) (ha : a.Full σ) : a.Full τ := by
  obtain ⟨b, token, s, hab, hm⟩ := ha
  obtain ⟨⟨token', next, exhausted⟩, hm', -, same⟩ := h _ _ hm
  obtain ⟨rfl, rfl⟩ := same _ rfl
  exact ⟨b, token', s, h.leads hab, hm'⟩

theorem spent (h : σ.Recalls τ) (ha : a.Spent σ) : a.Spent τ := by
  obtain ⟨m, v, hm, hv⟩ := ha
  obtain ⟨m', hm', token, -⟩ := h _ _ hm
  exact ⟨m', v, hm', token v hv⟩

end Store.Recalls

/-- Where ways only get longer by fresh states, they lead where they led before or to a fresh state.
-/
theorem leads_of_longer (h : ∀ a b : AdvanceId, a.Link τ b → a.Link σ b ∨ b.Fresh τ)
    (hab : a.Leads τ b) : a.Leads σ b ∨ b.Fresh τ := by
  induction hab with
  | refl => exact .inl .refl
  | tail _ hbc ih =>
    rcases h _ _ hbc with link | fresh
    · rcases ih with leads | fresh
      · exact .inl (leads.tail link)
      · exact absurd hbc fresh.not_link
    · exact .inr fresh

end

/-! ## Trails -/

/-- The states that a parse can come back to, the latest first. From each of them the way leads to
the later ones, unless it is known up to the end of the chunk. And where a way ends in the middle of
the chunk, nobody has asked to move on, except from the states in `but`. -/
structure Trail (σ : Store W) (but : AdvanceId → Prop) (l : List AdvanceId) : Prop where
  /-- Where the ways lead. -/
  ordered : l.Pairwise fun a b => b.Leads σ a ∨ b.Full σ
  /-- Where they end. -/
  fresh : ∀ a ∈ l, ∀ b, a.Leads σ b → b.Open σ → ¬but b → b.Fresh σ

namespace Trail

variable {σ τ : Store W} {but but' : AdvanceId → Prop} {l l' : List AdvanceId} {a b : AdvanceId}

theorem sublist (h : Trail σ but l) (hl : l'.Sublist l) : Trail σ but l' :=
  ⟨h.ordered.sublist hl, fun a ha => h.fresh a (hl.subset ha)⟩

/-- The latest state may be kept once more. -/
theorem twice (h : Trail σ but (a :: l)) : Trail σ but (a :: a :: l) := by
  refine ⟨.cons (fun b hb => ?_) h.ordered, fun b hb => h.fresh b ?_⟩
  · rcases List.mem_cons.mp hb with rfl | hb
    · exact .inl .refl
    · exact List.rel_of_pairwise_cons h.ordered hb
  · rcases List.mem_cons.mp hb with rfl | hb
    · exact List.mem_cons_self
    · exact hb

/-- A later store, in which ways are longer only by fresh states. -/
theorem later (h : Trail σ but l) (recalls : σ.Recalls τ)
    (links : ∀ a b : AdvanceId, a.Link τ b → a.Link σ b ∨ b.Fresh τ)
    (opens : ∀ b : AdvanceId, b.Open τ → ¬but' b →
      b.Fresh τ ∨ b.Open σ ∧ ¬but b ∧ (b.Fresh σ → b.Fresh τ)) : Trail τ but' l := by
  refine ⟨h.ordered.imp fun hab => hab.imp recalls.leads recalls.full, fun a ha b hab hb hn => ?_⟩
  rcases leads_of_longer links hab with hab | fresh
  · rcases opens b hb hn with fresh | ⟨hb, hn, keep⟩
    · exact fresh
    · exact keep (h.fresh a ha b hab hb hn)
  · exact fresh

theorem congr (h : Trail σ but l) (same : τ.advances = σ.advances) : Trail τ but l := by
  refine h.later (.of_advances same) (fun a b hab => .inl ?_) fun b hb hn => .inr ⟨?_, hn, ?_⟩
  · rwa [AdvanceId.Link, ← same]
  · rwa [AdvanceId.Open, ← same]
  · exact fun fresh => by rwa [AdvanceId.Fresh, same]

/-- Ways that are known up to the ends of their chunks. -/
theorem of_full (full : ∀ a ∈ l, a.Full σ) : Trail σ but l :=
  ⟨List.pairwise_of_forall_mem_list fun _ _ b hb => .inr (full b hb),
    fun a ha _ hab hb => absurd hb ((full a ha).not_open hab)⟩

/-- The same, and a fresh state in front of them. -/
theorem start (ha : a.Fresh σ) (full : ∀ b ∈ l, b.Full σ) : Trail σ but (a :: l) := by
  have behind : Trail σ but l := of_full full
  refine ⟨.cons (fun b hb => .inr (full b hb)) behind.ordered, fun b hb c hbc hc hn => ?_⟩
  rcases List.mem_cons.mp hb with rfl | hb
  · rcases hbc.cases_head with same | ⟨d, hd, -⟩
    · exact same ▸ ha
    · exact absurd hd ha.not_link
  · exact behind.fresh b hb c hbc hc hn

/-- Once the way from the latest state is known up to the end of the chunk, all ways are. -/
theorem full (h : Trail σ but (a :: l)) (ha : a.Full σ) : ∀ b ∈ l, b.Full σ := by
  intro b hb
  rcases List.rel_of_pairwise_cons h.ordered hb with hba | full
  · exact ha.of_leads hba
  · exact full

/-- A state behind the latest one is the latest one. -/
theorem onward (h : Trail σ but (a :: l)) (hab : a.Leads σ b) : Trail σ but (b :: l) := by
  refine ⟨.cons (fun c hc => ?_) h.ordered.of_cons, fun c hc d hcd => ?_⟩
  · exact (List.rel_of_pairwise_cons h.ordered hc).imp (·.trans hab) id
  · rcases List.mem_cons.mp hc with rfl | hc
    · exact h.fresh a List.mem_cons_self d (hab.trans hcd)
    · exact h.fresh c (List.mem_cons_of_mem _ hc) d hcd

/-- From the excepted state somebody has moved on. -/
theorem unexcept (h : Trail σ (· = a) l) (ha : ¬a.Open σ) : Trail σ (fun _ => False) l :=
  ⟨h.ordered, fun b hb c hbc hc _ => h.fresh b hb c hbc hc fun e => ha (e ▸ hc)⟩

end Trail

/-! ## Single changes -/

section

variable {σ τ : Store W} {a b : AdvanceId} {but : AdvanceId → Prop} {l : List AdvanceId}
  {f : Advance → Advance} {chunk : Int} {s : State Value} {v : Value}

/-- One memory has changed. -/
theorem lookup_modify {x : Array Advance} (a b : AdvanceId) (f : Advance → Advance) :
    (x.modify a.index f)[b.index]? = if a = b then x[b.index]?.map f else x[b.index]? := by
  rw [Array.getElem?_modify]
  by_cases h : a = b
  · rw [if_pos h, if_pos (congrArg _ h)]
  · rw [if_neg h, if_neg fun e => h (by cases a; cases b; exact congrArg _ e)]

/-- Memories that gain something stay. -/
theorem Store.Recalls.modify (h : τ.advances = σ.advances.modify a.index f)
    (hf : ∀ m, σ.advances[a.index]? = some m → (∀ v, m.token = some v → (f m).token = some v) ∧
      ∀ s, m.next = some s → (f m).next = some s ∧ (f m).exhausted = m.exhausted) :
    σ.Recalls τ := by
  intro i m hm
  have found := lookup_modify (x := σ.advances) a ⟨i⟩ f
  rw [← h] at found
  by_cases e : a = ⟨i⟩
  · subst e
    rw [if_pos rfl, hm] at found
    exact ⟨f m, found, hf m hm⟩
  · rw [if_neg e, hm] at found
    exact ⟨m, found, fun _ hv => hv, fun _ hs => ⟨hs, rfl⟩⟩

theorem Store.Remembers.modify (h : σ.Remembers) (hτ : τ.advances = σ.advances.modify a.index f)
    (hf : ∀ m, σ.advances[a.index]? = some m → Watching.Remembers (f m) (f m)) :
    τ.Remembers := by
  intro i m hm
  have found := lookup_modify (x := σ.advances) a ⟨i⟩ f
  rw [← hτ] at found
  by_cases e : a = ⟨i⟩
  · subst e
    rw [if_pos rfl] at found
    obtain ⟨m', hm', rfl⟩ := Option.map_eq_some_iff.mp (found.symm.trans hm)
    exact hf m' hm'
  · rw [if_neg e] at found
    exact h i m (found.symm.trans hm)

/-! ### A new memory -/

theorem Store.Recalls.push (h : τ.advances = σ.advances.push {}) : σ.Recalls τ :=
  fun _ m hm => ⟨m, h ▸ getElem?_push_of_eq_some hm {}, fun _ hv => hv, fun _ hs => ⟨hs, rfl⟩⟩

/-- What is remembered after a new memory has been made was remembered before. -/
theorem lookup_push (h : τ.advances = σ.advances.push {}) {m : Advance}
    (hm : τ.advances[b.index]? = some m) : b.Fresh τ ∨ σ.advances[b.index]? = some m := by
  have found := hm
  rw [h, Array.getElem?_push] at found
  split at found
  · cases found
    exact .inl hm
  · exact .inr found

theorem Store.Remembers.push (h : σ.Remembers) (hτ : τ.advances = σ.advances.push {}) :
    τ.Remembers := by
  intro i m hm
  rcases lookup_push (b := ⟨i⟩) hτ hm with fresh | hm
  · cases fresh.symm.trans hm
    exact .unknown none
  · exact h i m hm

/-- A new memory does not matter to the old ways. -/
theorem Trail.push (h : Trail σ but l) (hτ : τ.advances = σ.advances.push {}) :
    Trail τ but l := by
  refine h.later (.push hτ) (fun a b hab => .inl ?_) fun b hb hn => ?_
  · obtain ⟨token, chunk, inner, hm⟩ := hab
    rcases lookup_push hτ hm with fresh | hm
    · cases fresh.symm.trans hm
    · exact ⟨token, chunk, inner, hm⟩
  · obtain ⟨token, hm⟩ := hb
    rcases lookup_push hτ hm with fresh | hm'
    · exact .inl fresh
    · refine .inr ⟨⟨token, hm'⟩, hn, fun fresh => ?_⟩
      cases fresh.symm.trans hm'
      exact hm

/-! ### Somebody asks to move on -/

/-- The token with which it is asked first is kept. -/
def Advance.ask (v : Value) (m : Advance) : Advance :=
  { m with token := m.token.orElse fun _ => some v }

theorem Store.Recalls.ask (h : τ.advances = σ.advances.modify a.index (Advance.ask v)) :
    σ.Recalls τ := by
  refine .modify h fun m _ => ⟨fun u hu => ?_, fun s hs => ⟨hs, rfl⟩⟩
  simp [Advance.ask, hu]

theorem Store.Remembers.ask (h : σ.Remembers)
    (hτ : τ.advances = σ.advances.modify a.index (Advance.ask v)) : τ.Remembers := by
  refine h.modify hτ fun m hm => ?_
  cases h _ m hm with
  | unknown => exact .unknown _
  | within _ hst => exact .within _ hst
  | across => exact .across ..

/-- The way from there is now excepted. -/
theorem Trail.ask (h : Trail σ (fun _ => False) l)
    (hτ : τ.advances = σ.advances.modify a.index (Advance.ask v)) : Trail τ (· = a) l := by
  have found (b : AdvanceId) := lookup_modify (x := σ.advances) a b (Advance.ask v)
  rw [← hτ] at found
  refine h.later (.ask hτ) (fun b c hbc => .inl ?_) fun b hb hn => ?_
  · obtain ⟨token, chunk, inner, hm⟩ := hbc
    rw [found] at hm
    split at hm
    · obtain ⟨⟨token', next, exhausted⟩, hm', e⟩ := Option.map_eq_some_iff.mp hm
      cases e
      exact ⟨token', chunk, inner, hm'⟩
    · exact ⟨token, chunk, inner, hm⟩
  · have same : τ.advances[b.index]? = σ.advances[b.index]? := by
      rw [found, if_neg (Ne.symm hn)]
    refine .inr ⟨?_, not_false, fun fresh => ?_⟩
    · rwa [AdvanceId.Open, ← same]
    · rwa [AdvanceId.Fresh, same]

/-! ### Somebody has moved on -/

theorem Store.Recalls.goes {exhausted : Bool} (open_ : a.Open σ)
    (h : τ.advances = σ.advances.modify a.index (Advance.goes exhausted s)) : σ.Recalls τ := by
  refine .modify h fun m hm => ⟨fun u hu => hu, fun s hs => ?_⟩
  obtain ⟨token, hm'⟩ := open_
  cases hm.symm.trans hm'
  cases hs

/-- Where nobody has moved on yet, nothing has changed. -/
theorem open_of_goes {exhausted : Bool}
    (h : τ.advances = σ.advances.modify a.index (Advance.goes exhausted s)) (hb : b.Open τ) :
    b.Open σ ∧ b ≠ a ∧ (b.Fresh σ → b.Fresh τ) := by
  obtain ⟨token, hm⟩ := hb
  have found := lookup_modify (x := σ.advances) a b (Advance.goes exhausted s)
  rw [← h, hm] at found
  split at found
  · obtain ⟨m, -, e⟩ := Option.map_eq_some_iff.mp found.symm
    cases e
  · next other =>
    refine ⟨⟨token, found.symm⟩, Ne.symm other, fun fresh => ?_⟩
    exact hm.trans (found.trans fresh)

/-- The chunk is exhausted behind the token. -/
theorem Trail.across (h : Trail σ (· = a) l) (open_ : a.Open σ)
    (hτ : τ.advances = σ.advances.modify a.index (Advance.goes true s)) :
    Trail τ (fun _ => False) l := by
  have found (b : AdvanceId) := lookup_modify (x := σ.advances) a b (Advance.goes true s)
  rw [← hτ] at found
  refine h.later (.goes open_ hτ) (fun b c hbc => .inl ?_) fun b hb _ => .inr (open_of_goes hτ hb)
  obtain ⟨token, chunk, inner, hm⟩ := hbc
  rw [found] at hm
  split at hm
  · obtain ⟨m, -, e⟩ := Option.map_eq_some_iff.mp hm
    cases e
  · exact ⟨token, chunk, inner, hm⟩

theorem full_across (open_ : a.Open σ)
    (hτ : τ.advances = σ.advances.modify a.index (Advance.goes true s)) : a.Full τ := by
  obtain ⟨token, hm⟩ := open_
  refine ⟨a, token, s, .refl, ?_⟩
  rw [hτ, lookup_modify, if_pos rfl, hm]
  rfl

/-- There are more tokens in the chunk. -/
theorem Trail.within (h : Trail σ (· = a) l) (open_ : a.Open σ) (hb : b.Fresh σ) (hab : b ≠ a)
    (hτ : τ.advances = σ.advances.modify a.index (Advance.goes false (.chunked b chunk s))) :
    Trail τ (fun _ => False) l := by
  have found (c : AdvanceId) :=
    lookup_modify (x := σ.advances) a c (Advance.goes false (.chunked b chunk s))
  rw [← hτ] at found
  have fresh : b.Fresh τ := by rw [AdvanceId.Fresh, found, if_neg (Ne.symm hab), hb]
  refine h.later (.goes open_ hτ) (fun c d hcd => ?_) fun c hc _ => .inr (open_of_goes hτ hc)
  obtain ⟨token, chunk', inner, hm⟩ := hcd
  rw [found] at hm
  split at hm
  · -- The new link leads from `a` to the fresh state.
    obtain ⟨m, -, e⟩ := Option.map_eq_some_iff.mp hm
    cases e
    exact .inr fresh
  · exact .inl ⟨token, chunk', inner, hm⟩

theorem leads_within (open_ : a.Open σ)
    (hτ : τ.advances = σ.advances.modify a.index (Advance.goes false (.chunked b chunk s))) :
    a.Leads τ b := by
  obtain ⟨token, hm⟩ := open_
  refine .single ⟨token, chunk, s, ?_⟩
  rw [hτ, lookup_modify, if_pos rfl, hm]
  rfl

end

end ResumableParsing
