import ResumableParsing.Proofs.Lineages.Drives
import ResumableParsing.Proofs.Lineages.Handlers

/-!
# The answers of handlers in two stores

A session in a shared store and the same session in a store of its own are finished. The parses end
with corresponding replies, and if nobody has asked for the result before, the handler of the
session is called on both sides. Pure handlers give corresponding answers. What becomes of the
result is kept in its cell, and of the results that have been there before no other one is touched.

* `Lineages.World.scope`: what corresponds when handlers are called
* `Lineages.Alike`: corresponding ends of handlers
* `Lineages.answers_uniform`: pure programs come to corresponding ends
* `Lineages.Finished`, `Lineages.finished`: corresponding sessions are finished alike
-/

namespace ResumableParsing

variable {W α β γ δ : Type}

/-! ## Empty streams -/

section

variable {σ σ' : Store W} {s : Stream Value}

/-- A stream that turns out to be empty has no first element. -/
theorem Stream.comes_first_of_empty (h : (s.isEmpty : Eval W Bool).Comes σ (.ok true σ')) :
    (s.first : Eval W Value).Comes σ (.error (.raised .emptyStream) σ') := by
  cases s with
  | nil =>
    cases h.unique (comes_pure true σ)
    exact comes_fault _ σ
  | cons n v s => cases h.unique (comes_pure false σ)
  | lazy n v i => cases h.unique (comes_pure false σ)
  | view q i n =>
    have run := h.unique (comes_pure (Stream.viewIsEmpty q i) σ)
    rw [EStateM.Result.ok.injEq] at run
    obtain ⟨empty, rfl⟩ := run
    rw [Stream.first, if_pos empty.symm]
    exact comes_fault _ _
  | pulled c =>
    rcases h.of_bind (Composed.force _) with ⟨a, σ₁, ha, h⟩ | ⟨e, σ₁, -, eq⟩
    · cases a with
      | some a => cases h.unique (comes_pure false σ₁)
      | none =>
        cases h.unique (comes_pure true σ₁)
        exact comes_bind_ok ha (comes_fault _ _)
    · cases eq

/-- Its rest is empty as well. -/
theorem Stream.comes_rest_of_empty (h : (s.isEmpty : Eval W Bool).Comes σ (.ok true σ')) :
    ∃ t, (s.rest : Eval W (Stream Value)).Comes σ (.ok t σ') ∧ (t = .nil ∨ t = s) := by
  cases s with
  | nil =>
    cases h.unique (comes_pure true σ)
    exact ⟨.nil, comes_pure _ σ, .inl rfl⟩
  | cons n v s => cases h.unique (comes_pure false σ)
  | lazy n v i => cases h.unique (comes_pure false σ)
  | view q i n =>
    have run := h.unique (comes_pure (Stream.viewIsEmpty q i) σ)
    rw [EStateM.Result.ok.injEq] at run
    obtain ⟨empty, rfl⟩ := run
    refine ⟨_, ?_, .inr rfl⟩
    rw [Stream.rest, if_pos empty.symm]
    exact comes_pure _ _
  | pulled c =>
    rcases h.of_bind (Composed.force _) with ⟨a, σ₁, ha, h⟩ | ⟨e, σ₁, -, eq⟩
    · cases a with
      | some a => cases h.unique (comes_pure false σ₁)
      | none =>
        cases h.unique (comes_pure true σ₁)
        exact ⟨.nil, comes_bind_ok ha (comes_pure _ _), .inl rfl⟩
    · cases eq

end

namespace Lineages

variable {w w' : World} {σ σ' τ τ' : Store W} {c d : Stream Value}

/-! ## Reading the tokens that are left -/

/-- Where no tokens are left, both sides find out. -/
theorem comes_isEmpty (hs : Stores w σ τ) (hc : w.left.Chunk c .nil) (hd : w.right.Chunk d .nil) :
    ∃ w' σ' τ', (c.isEmpty : Eval W Bool).Comes σ (.ok true σ') ∧
      (d.isEmpty : Eval W Bool).Comes τ (.ok true τ') ∧ w.During w' ∧ Stores w' σ' τ' := by
  have both : Chunks w c d := ⟨.nil, hc, hd⟩
  obtain ⟨⟨r, holds⟩, -⟩ := hc
  obtain ⟨a, -, σ', hx, -, -, -, ha⟩ :=
    Side.finds_contents holds.readable.isEmpty w.left σ (.refl _) hs.left
  obtain ⟨r', hy, ends⟩ := both.isEmpty w σ τ _ (.refl w) hs hx
  cases r' with
  | error e τ' => exact ends.elim
  | ok b τ' =>
    obtain ⟨w', during, stores, rfl⟩ := ends
    cases ha.mpr rfl
    exact ⟨w', σ', τ', hx, hy, during, stores⟩

/-- The first of them is the same on both sides. -/
theorem Chunks.first (hc : Chunks w c d) :
    (correspondence W).Runs w (fun _ v u => v = u ∧ v.Settled) c.first d.first := by
  obtain ⟨x, hc, hd⟩ := hc
  cases x using Stream'.Seq.recOn with
  | nil =>
    intro w₁ σ τ r hle hs hr
    have hle : w.Le w₁ := hle
    obtain ⟨w₂, σ', τ', hx, hy, during, stores⟩ :=
      comes_isEmpty hs (hc.mono hle.left) (hd.mono hle.right)
    cases hr.unique (Stream.comes_first_of_empty hx)
    exact ⟨_, Stream.comes_first_of_empty hy, rfl, w₂, during, stores⟩
  | cons v y =>
    obtain ⟨⟨r, hc⟩, data⟩ := hc
    obtain ⟨⟨r', hd⟩, -⟩ := hd
    refine runs_of_finds (Side.finds_contents (hc.readable.first v y rfl))
      (Side.finds_contents (hd.readable.first v y rfl)) fun w' a b _ ha hb => ?_
    subst ha hb
    exact ⟨rfl, data _ (Stream'.Seq.mem_cons _ _)⟩

/-- The rests correspond. -/
theorem Chunks.rest (hc : Chunks w c d) :
    (correspondence W).Runs w Chunks c.rest d.rest := by
  obtain ⟨x, hc, hd⟩ := hc
  cases x using Stream'.Seq.recOn with
  | nil =>
    intro w₁ σ τ r hle hs hr
    have hle : w.Le w₁ := hle
    obtain ⟨w₂, σ', τ', hx, hy, during, stores⟩ :=
      comes_isEmpty hs (hc.mono hle.left) (hd.mono hle.right)
    obtain ⟨s, hs, left⟩ := Stream.comes_rest_of_empty hx
    obtain ⟨t, ht, right⟩ := Stream.comes_rest_of_empty hy
    cases hr.unique hs
    have hle := hle.trans during.toLe
    refine ⟨_, ht, w₂, during, stores, .nil, ?_, ?_⟩
    · rcases left with rfl | rfl
      · exact ⟨⟨0, .nil⟩, hc.2⟩
      · exact hc.mono hle.left
    · rcases right with rfl | rfl
      · exact ⟨⟨0, .nil⟩, hd.2⟩
      · exact hd.mono hle.right
  | cons v y =>
    obtain ⟨⟨r, hc⟩, data⟩ := hc
    obtain ⟨⟨r', hd⟩, -⟩ := hd
    have data (u) (hu : u ∈ y) : u.Settled := data u (Stream'.Seq.mem_cons_of_mem _ hu)
    exact runs_of_finds (Side.finds_contents (hc.readable.rest v y rfl))
      (Side.finds_contents (hd.readable.rest v y rfl))
      fun w' a b _ ha hb => ⟨y, ⟨⟨r, ha⟩, data⟩, ⟨r', hb⟩, data⟩

/-- Both sides read the same tokens to the end. -/
theorem Chunks.toListFrom (n : Nat) {vs : List Value} (settled : ∀ v ∈ vs, v.Settled)
    (hc : Chunks w c d) :
    (correspondence W).Runs w (fun _ xs ys => xs = ys ∧ ∀ v ∈ xs, v.Settled)
      (Stream.toListFrom n vs c) (Stream.toListFrom n vs d) := by
  have hC := ordered W
  induction n generalizing w vs c d with
  | zero => exact Correspondence.runs_exhausted
  | succ n ih =>
    refine hC.bind (composed_isEmpty c) hc.isEmpty ?_
    rintro w₁ empty _ h₁ rfl
    split
    · exact hC.pure fun _ _ => ⟨rfl, fun v hv => settled v (List.mem_reverse.mp hv)⟩
    · refine hC.bind (composed_first c) (hc.mono h₁).first ?_
      rintro w₂ v _ h₂ ⟨rfl, hv⟩
      refine hC.bind (composed_rest c) ((hc.mono h₁).mono h₂).rest fun w₃ s t _ hst => ?_
      exact ih (List.forall_mem_cons.mpr ⟨hv, settled⟩) hst

theorem Chunks.toList (hc : Chunks w c d) :
    (correspondence W).Runs w (fun _ xs ys => xs = ys ∧ ∀ v ∈ xs, v.Settled) c.toList d.toList :=
  Correspondence.runs_loop (fun n => composed_toListFrom n [] c)
    (fun n => composed_toListFrom n [] d) (fun n => exhausted_or_toListFrom n [] d)
    fun n => hc.toListFrom n (by simp)

/-! ## Scopes of worlds -/

/-- What corresponds when handlers are called. -/
def World.scope (w : World) : Scope := ⟨w.pairing, Chunks w, w.user⟩

theorem World.Le.scope (hle : w.Le w') : w.scope.Le w'.scope :=
  ⟨hle.pairing, fun _ _ h => h.mono hle, hle.user⟩

theorem scope_states {s t : State Value} (h : (correspondence W).States w s t) :
    w.scope.States s t := by
  obtain ⟨x, hu, hs, ht⟩ := h
  obtain ⟨a, i, rfl, -, hi⟩ := hs.here
  obtain ⟨b, j, rfl, -, hj⟩ := ht.here
  exact .intro (.inl hu) ⟨x.tokens, hi, hj⟩

theorem scope_errors {e f : ParseError Value} (h : (correspondence W).Errors w e f) :
    w.scope.Errors e f where
  reason := h.reason
  state := scope_states h.state
  expected := h.expected
  merged := h.merged

/-- What parses end with corresponds for handlers. -/
theorem scope_replies {r r' : Reply Value} (h : (correspondence W).Replies w r r') :
    w.scope.Replies r r' := by
  cases h with
  | ok d hv hs => exact .ok d hv (scope_states hs)
  | err d he hs => exact .err d (scope_errors he) (scope_states hs)

/-- Corresponding states are made from corresponding ones, in the same chunk. -/
theorem runs_alter {f g : Bool → Stream Value → Int → Value → State Value} {s t : State Value}
    (h : w.scope.States s t)
    (hf : ∀ i j p u, Chunks w i j → w.scope.Kept u → ∃ i' j' p' u', f false i p u =
      .plain false i' p' u' ∧ g false j p u = .plain false j' p' u' ∧ Chunks w i' j' ∧
      w.scope.Kept u') :
    (correspondence W).Runs w (fun w' => w'.scope.States) (s.alter f) (t.alter g) := by
  cases h with
  | @intro _ _ n p u i j kept hc =>
  obtain ⟨c, d, p', u', left, right, ⟨x, hc, hd⟩, kept⟩ := hf i j p u hc kept
  simp only [State.alter, pure_bind, left, right]
  refine runs_of_finds (Side.finds_inChunk (x := ⟨n, x, p', u'⟩) hc)
    (Side.finds_inChunk (x := ⟨n, x, p', u'⟩) hd) fun w' s t hle hs ht => ?_
  obtain ⟨a, i, rfl, -, hi⟩ := hs.here
  obtain ⟨b, j, rfl, -, hj⟩ := ht.here
  exact .intro (kept.mono hle.scope) ⟨x, hi, hj⟩

/-! ## Programs of handlers -/

/-- The programs have come to corresponding values, or they have raised the same fault or
corresponding errors of parses. -/
inductive Alike (w : World) :
    EStateM.Result Stop (Store W) Value → EStateM.Result Stop (Store W) Value → Prop where
  | value {v u : Value} {σ τ : Store W} : w.scope.Values v u → Alike w (.ok v σ) (.ok u τ)
  | stop (e : Stop) (σ τ : Store W) : Alike w (.error e σ) (.error e τ)
  | refused {e f : ParseError Value} {σ τ : Store W} : w.scope.Errors e f →
      Alike w (.error (.raised (.noParse e)) σ) (.error (.raised (.noParse f)) τ)

/-- What the left program comes to, the right one comes to. -/
def Answers (w : World) (σ τ : Store W) (x y : Eval W Value) : Prop :=
  ∀ r, x.Comes σ r → ∃ r', y.Comes τ r' ∧
    ∃ w', Onward w σ τ w' (left r) (left r') ∧ Alike w' r r'

section

variable {x : Eval W α} {y : Eval W β} {Q : World → Store W → Store W → α → β → Prop}

theorem answers_pure (hs : Stores w σ τ) {v u : Value} (h : w.scope.Values v u) :
    Answers w σ τ (pure v) (pure u) := by
  intro r hr
  cases hr.unique (comes_pure v σ)
  exact ⟨_, comes_pure u τ, w, .refl hs, .value h⟩

theorem answers_bind {f : α → Eval W Value} {g : β → Eval W Value} (hx : Composed x)
    (h : Follows w σ τ Q x y)
    (hf : ∀ w' σ' τ' a b, Onward w σ τ w' σ' τ' → Q w' σ' τ' a b →
      Answers w' σ' τ' (f a) (g b)) : Answers w σ τ (x >>= f) (y >>= g) := by
  intro r hr
  rcases hr.of_bind hx with ⟨a, σ', ha, hr⟩ | ⟨e, σ', he, rfl⟩
  · obtain ⟨r₁, hy, ends⟩ := h _ ha
    cases r₁ with
    | error f τ' => exact ends.elim
    | ok b τ' =>
      obtain ⟨w', on, hq⟩ := ends
      obtain ⟨r', hr', w'', on', alike⟩ := hf w' σ' τ' a b on hq r hr
      exact ⟨r', comes_bind_ok hy hr', w'', on.trans on', alike⟩
  · obtain ⟨r₁, hy, ends⟩ := h _ he
    cases r₁ with
    | ok b τ' => exact ends.elim
    | error f τ' =>
      obtain ⟨rfl, w', on⟩ := ends
      exact ⟨_, comes_bind_error hy, w', on, .stop e σ' τ'⟩

/-- What runs correspond for, answers correspond for. -/
theorem answers_of_runs (hs : Stores w σ τ) (hx : Composed x) (hy : Composed y)
    {Q : World → α → β → Prop} (h : (correspondence W).Runs w Q x y) {f : α → Eval W Value}
    {g : β → Eval W Value} (hf : ∀ w' σ' τ' a b, w.Le w' → Stores w' σ' τ' → Q w' a b →
      Answers w' σ' τ' (f a) (g b)) : Answers w σ τ (x >>= f) (y >>= g) :=
  answers_bind hx (follows_of_runs hs hx hy h) fun w' σ' τ' a b on hq =>
    hf w' σ' τ' a b on.le on.stores hq

end

/-- Programs that do the same in these stores. -/
theorem Answers.congr {x y x' y' : Eval W Value} (hx : ∀ m, x m σ = x' m σ)
    (hy : ∀ m, y m τ = y' m τ) (h : Answers w σ τ x' y') : Answers w σ τ x y := by
  intro r hr
  obtain ⟨r', hr', ends⟩ := h r (hr.congr fun m => (hx m).symm)
  exact ⟨r', hr'.congr hy, ends⟩

/-- Texts are the same where corresponding parsers have the same names. -/
theorem Stores.render_eq (hs : Stores w σ τ) {v u : Value}
    (h : ∀ n m : Names, (∀ p q, w.pairing.parsers p q → n.parser p = m.parser q) →
      v.render n = u.render m) : σ.render v = τ.render u := by
  refine h σ.names τ.names fun p q hp => ?_
  obtain ⟨c, d, hc, hd, paired⟩ := hs.defines.parsers p q hp
  change σ.parserName p = τ.parserName q
  rw [Store.parserName, Store.parserName, hc, hd]
  exact paired.name

/-- Pure programs come to corresponding ends. -/
theorem answers_uniform {k : Scope} {a b : Action W Value} (h : a.Uniform k b)
    (hle : k.Le w.scope) (hs : Stores w σ τ) : Answers w σ τ a.run b.run := by
  -- The induction is on the programs. With each step more may correspond.
  induction h generalizing w σ τ with
  | done h => exact answers_pure hs (h.mono hle)
  | raise f =>
    intro r hr
    cases hr.unique (comes_fault f σ)
    exact ⟨_, comes_fault f τ, w, .refl hs, .stop _ σ τ⟩
  | refuse h =>
    intro r hr
    cases hr.unique (comes_fault _ σ)
    exact ⟨_, comes_fault _ τ, w, .refl hs, .refused (h.mono hle)⟩
  | program mono paired _ ih =>
    rw [Action.run_bind, Action.run_bind]
    refine answers_of_runs hs (composed_action _) (composed_action _)
      ((pairs W).action_of_le mono paired hle.pairing) fun w' σ' τ' x y hle' hs' hxy => ?_
    exact ih w'.scope x y (hle.trans hle'.scope) hxy (.refl _) hs'
  | isEmpty hc _ ih =>
    have hc : Chunks w _ _ := hle.inputs _ _ hc
    refine answers_of_runs hs (composed_isEmpty _) (composed_isEmpty _) hc.isEmpty ?_
    rintro w' σ' τ' empty _ hle' hs' rfl
    exact ih empty (hle.trans hle'.scope) hs'
  | first hc _ ih =>
    have hc : Chunks w _ _ := hle.inputs _ _ hc
    refine answers_of_runs hs (composed_first _) (composed_first _) hc.first ?_
    rintro w' σ' τ' v _ hle' hs' ⟨rfl, settled⟩
    exact ih v settled (hle.trans hle'.scope) hs'
  | rest hc _ ih =>
    have hc : Chunks w _ _ := hle.inputs _ _ hc
    refine answers_of_runs hs (composed_rest _) (composed_rest _) hc.rest
      fun w' σ' τ' i j hle' hs' hij => ?_
    exact ih w'.scope i j (hle.trans hle'.scope) hij (.refl _) hs'
  | toList hc _ ih =>
    have hc : Chunks w _ _ := hle.inputs _ _ hc
    refine answers_of_runs hs (composed_toList _) (composed_toList _) hc.toList ?_
    rintro w' σ' τ' vs _ hle' hs' ⟨rfl, settled⟩
    exact ih vs settled (hle.trans hle'.scope) hs'
  | @render k v u f g h _ ih =>
    have same : σ.render v = τ.render u := by
      exact hs.render_eq fun n m names => h n m fun p q hp => names p q (hle.pairing.parsers _ _ hp)
    have next : Answers w σ τ (f (σ.render v)).run (g (τ.render u)).run := by
      rw [← same]
      exact ih _ hle hs
    have left (m) : (Action.render v f).run m σ = (f (σ.render v)).run m σ := rfl
    have right (m) : (Action.render u g).run m τ = (g (τ.render u)).run m τ := rfl
    exact .congr left right next
  | @setInput _ _ _ i j _ _ hst hc _ ih =>
    refine answers_of_runs hs (composed_alterState _ _) (composed_alterState _ _)
      (runs_alter (hst.mono hle) fun _ _ p u _ kept =>
        ⟨i, j, p, u, rfl, rfl, hle.inputs _ _ hc, kept⟩) fun w' σ' τ' s t hle' hs' hst => ?_
    exact ih w'.scope s t (hle.trans hle'.scope) hst (.refl _) hs'
  | setPosition p hst _ ih =>
    refine answers_of_runs hs (composed_alterState _ _) (composed_alterState _ _)
      (runs_alter (hst.mono hle) fun i j _ u hc kept =>
        ⟨i, j, p, u, rfl, rfl, hc, kept⟩) fun w' σ' τ' s t hle' hs' hst => ?_
    exact ih w'.scope s t (hle.trans hle'.scope) hst (.refl _) hs'
  | @setUser _ _ _ u _ _ hst kept _ ih =>
    refine answers_of_runs hs (composed_alterState _ _) (composed_alterState _ _)
      (runs_alter (hst.mono hle) fun i j p _ hc _ =>
        ⟨i, j, p, u, rfl, rfl, hc, kept.mono hle⟩) fun w' σ' τ' s t hle' hs' hst => ?_
    exact ih w'.scope s t (hle.trans hle'.scope) hst (.refl _) hs'

end Lineages

/-! ## Results -/

/-- What is known of a result has been changed. -/
theorem Store.slots_put {σ : Store W} {i : ResultId} {m : Memo (Action W Value) Value}
    (h : σ.results[i.index]? = some m) (slot : Slot Value) :
    (Shelf.results.put i.index slot σ).slots = Function.update σ.slots i.index slot := by
  funext j
  by_cases e : j = i.index
  · subst e
    rw [Function.update_self]
    refine Store.slots_of_some (m := { m with slot := slot }) ?_
    simp [Shelf.results, Memo.putSlot_self, h]
  · rw [Function.update_of_ne e, slots, slots]
    simp [Shelf.results, Memo.putSlot_other σ.results (Ne.symm e)]

/-- What is known of a result once it has been asked for. -/
def slotOf : EStateM.Result Stop (Store W) Value → Slot Value
  | .ok v _ => .known v
  | .error .. => .unset

theorem left_settle_result (i : ResultId) (r : EStateM.Result Stop (Store W) Value) :
    left (Shelf.results.settle i.index r) = Shelf.results.put i.index (slotOf r) (left r) := by
  cases r <;> rfl

namespace SessionId

/-- At the end of the input the parse of the session ends with the reply, and its handlers are to be
called for that. -/
def EndsWith (h : Handlers W) (σ : Store W) (i : SessionId) (r : Reply Value) : Prop :=
  ∃ k σ' m, i.completion.Comes σ (.ok k σ') ∧ σ'.results[k.index]? = some m ∧ m.thunk = h.call r

/-- The session is finished. Of the results that are there only its own one has changed, and that is
known now if it could be computed. -/
structure Settles (i : SessionId) (σ : Store W) (r : EStateM.Result Stop (Store W) Value) :
    Prop where
  /-- Its own result. -/
  own : ∀ k, i.HasResult σ k → (left r).slots k.index = slotOf r
  /-- Other results. -/
  others : ∀ k : ResultId, ¬i.HasResult σ k → k.index < σ.results.size →
    (left r).slots k.index = σ.slots k.index

/-- A complete session has its result already. -/
theorem HasResult.completion {i : SessionId} {σ : Store W} {k : ResultId} (h : i.HasResult σ k) :
    i.completion.Comes σ (.ok k σ) := by
  obtain ⟨s, hi, hk⟩ := h
  have done : s.isDone = true := by rw [Session.isDone, hk]
  refine comes_loop (fun n => composed_completeFor n i) (fun n => exhausted_or_completeFor n i)
    (n := 1) (comes_of_forall (fun m => ?_) not_exhausted_ok)
  have given : i.forceProvide .none (.within m) σ = .ok i σ :=
    forceProvide_complete .none hi done _
  simp [Eval.exec, completeFor, given, SessionId.session, hi, hk]

/-- A result that is known is given at once. -/
theorem HasResult.finish {i : SessionId} {σ : Store W} {k : ResultId} (h : i.HasResult σ k)
    {v : Value} (known : σ.slots k.index = .known v) : i.finish.Comes σ (.ok v σ) := by
  have found : ∃ t, Shelf.results.find k.index σ = some ⟨t, .known v⟩ := by
    rw [Store.slots] at known
    split at known
    · next m hm =>
      obtain ⟨t, _⟩ := m
      cases known
      exact ⟨t, hm⟩
    · cases known
  obtain ⟨t, found⟩ := found
  rw [finish_eq]
  exact comes_bind_ok h.completion (Shelf.comes_get_known (force_result k) found)

/-- What a complete session has ended with stays. -/
theorem EndsWith.later {h : Handlers W} {i : SessionId} {σ τ : Store W} {r : Reply Value}
    {k : ResultId} (ends : EndsWith h σ i r) (hk : i.HasResult σ k) (grows : σ.Grows τ) :
    EndsWith h τ i r := by
  obtain ⟨l, σ', m, hl, hm, em⟩ := ends
  cases hl.unique hk.completion
  obtain ⟨m', hm', same, -⟩ := grows.results _ m hm
  exact ⟨k, τ, m', (hk.later grows).completion, hm', same.trans em⟩

end SessionId

namespace Lineages

section

variable {w w' : World} {σ σ' τ τ' : Store W} {h : Handlers W} {i j : SessionId}

/-! ## Finishing -/

/-- What has become of two results is noted. -/
theorem Stores.put (hs : Stores w σ τ) (i j : ResultId) (x y : Slot Value) :
    ∃ w', w.Le w' ∧
      Stores w' (Shelf.results.put i.index x σ) (Shelf.results.put j.index y τ) := by
  have spares (T : TailId → Prop) (σ : Store W) (i : ResultId) (x : Slot Value) :
      σ.Spares T (Shelf.results.put i.index x σ) :=
    ⟨fun _ _ h => h, rfl, Store.thunks_of_tails fun _ _ => rfl⟩
  have stores := hs.later (.noted _ _) (hs.left.put i x) (spares _ σ i x) (.noted _ _)
    (hs.right.put j y) (spares _ τ j y)
  refine ⟨_, ?_, stores⟩
  exact ⟨.refl _, .noted _ _, .noted _ _, rfl⟩

/-- How the computation of a result ends does not depend on what is noted then. -/
theorem Alike.settle {r r' : EStateM.Result Stop (Store W) Value} (h : Alike w r r')
    (hle : w.Le w') (i j : Nat) :
    Alike w' (Shelf.results.settle i r) (Shelf.results.settle j r') := by
  cases h with
  | value h => exact .value (h.mono hle.scope)
  | stop e σ τ => exact .stop e _ _
  | refused h => exact .refused (h.mono hle.scope)

/-- Results that nobody has asked for are asked for, and the handlers are called. -/
theorem forced (hs : Stores w σ τ) (pure : h.Pure w.user) {k l : ResultId} {s s' : Reply Value}
    (replies : (correspondence W).Replies w s s') {m n : Memo (Action W Value) Value}
    (hm : σ.results[k.index]? = some m) (em : m.thunk = h.call s)
    (unset : σ.slots k.index = .unset) (hn : τ.results[l.index]? = some n)
    (en : n.thunk = h.call s') (unset' : τ.slots l.index = .unset)
    {r : EStateM.Result Stop (Store W) Value}
    (hr : (Eval.force (.result k) : Eval W Value).Comes σ r) :
    ∃ r', (Eval.force (.result l) : Eval W Value).Comes τ r' ∧ ∃ w', w.Le w' ∧
      Stores w' (left r) (left r') ∧ Alike w' r r' ∧
      (left r).slots = Function.update σ.slots k.index (slotOf r) := by
  obtain ⟨_, _⟩ := m
  obtain ⟨_, _⟩ := n
  cases em
  cases en
  cases (Store.slots_of_some hm).symm.trans unset
  cases (Store.slots_of_some hn).symm.trans unset'
  -- While the handlers are called, their results are marked.
  obtain ⟨z, hz, rfl⟩ := Shelf.of_comes_get (force_result k) (composed_action _) hm hr
  obtain ⟨w₁, le₁, stores₁⟩ := hs.put k l .busy .busy
  have replies := (lawful W).replies_mono le₁ replies
  obtain ⟨z', hz', w₂, on, alike⟩ := answers_uniform
    (pure w₁.scope s s' le₁.user (scope_replies replies)) (.refl _) stores₁ z hz
  have force := Shelf.comes_get_unset (force_result l) hn hz'
  obtain ⟨w₃, le₃, stores₃⟩ := on.stores.put k l (slotOf z) (slotOf z')
  refine ⟨_, force, w₃, (le₁.trans on.le).trans le₃, ?_, alike.settle le₃ _ _, ?_⟩
  · rw [left_settle_result, left_settle_result]
    exact stores₃
  · obtain ⟨m, hm', -⟩ := on.left.results _ _
      (show (Shelf.results.put k.index .busy σ).results[k.index]? = _ from
        (Memo.putSlot_self _ _ _).trans (congrArg _ hm))
    rw [left_settle_result, Store.slots_put hm', on.leftSlots stores₁, Store.slots_put hm,
      Function.update_idem]
    cases z <;> rfl

/-- Corresponding sessions are finished. Either both parses break off for the same reason, or they
end with corresponding replies, and the handlers answer them alike. -/
inductive Ending (w : World) (σ τ : Store W) (h : Handlers W) (i j : SessionId) :
    EStateM.Result Stop (Store W) Value → EStateM.Result Stop (Store W) Value → Prop where
  | stop (e : Stop) {σ' τ' : Store W} : i.completion.Comes σ (.error e σ') →
      j.completion.Comes τ (.error e τ') → Ending w σ τ h i j (.error e σ') (.error e τ')
  | answer {s s' : Reply Value} {r r' : EStateM.Result Stop (Store W) Value} :
      i.EndsWith h σ s → j.EndsWith h τ s' → (correspondence W).Replies w s s' → Alike w r r' →
      Ending w σ τ h i j r r'

/-- Corresponding sessions have been finished. -/
structure Finished (w : World) (σ τ : Store W) (h : Handlers W) (i j : SessionId)
    (r r' : EStateM.Result Stop (Store W) Value) (w' : World) : Prop where
  /-- More is known. -/
  le : w.Le w'
  /-- The stores are as the world tells. -/
  stores : Stores w' (left r) (left r')
  /-- They have come to corresponding ends. -/
  ending : Ending w' σ τ h i j r r'
  /-- Nothing has become of other results. -/
  settles : i.Settles σ r

/-- Parses of sessions that have not been finished end alike. -/
theorem completed (hs : Stores w σ τ) (hij : Unfinished 0 w σ τ h i j) {s : Session W}
    (hi : σ.sessions[i.index]? = some s) (hd : s.isDone = false) :
    Follows w σ τ (fun w' σ' τ' k l => Results w' σ' τ' h k l ∧
      (σ.results.size ≤ k.index ∧ σ'.slots k.index = .unset) ∧ τ'.slots l.index = .unset)
      i.completion j.completion := by
  have new : Unfinished σ.results.size w σ τ h i j :=
    ⟨hij.sessions, SessionId.unasked_of_pending hi hd _, hij.right⟩
  exact follows_loop (fun n => composed_completeFor n i) (fun n => composed_completeFor n j)
    (fun n => exhausted_or_completeFor n j) fun n => follows_completeFor n hs le_rfl new

/-- The parses have ended, and the handlers are called. -/
theorem Onward.finished {σ₁ τ₁ : Store W} {w₁ : World} (on : Onward w σ τ w₁ σ₁ τ₁)
    (hs : Stores w σ τ) (pure : h.Pure w.user) {k l : ResultId}
    (hk : i.completion.Comes σ (.ok k σ₁)) (hl : j.completion.Comes τ (.ok l τ₁))
    (results : Results w₁ σ₁ τ₁ h k l) (unset : σ₁.slots k.index = .unset)
    (unset' : τ₁.slots l.index = .unset) (its : i.HasResult σ k ∨ σ.results.size ≤ k.index)
    {r : EStateM.Result Stop (Store W) Value}
    (hr : (Eval.force (.result k) : Eval W Value).Comes σ₁ r) :
    ∃ r', j.finish.Comes τ r' ∧ ∃ w', Finished w σ τ h i j r r' w' := by
  obtain ⟨m, n, s, s', replies, hm, em, hn, en⟩ := results
  obtain ⟨r', hr', w₂, le, stores, alike, slots⟩ :=
    forced on.stores (on.le.user ▸ pure) replies hm em unset hn en unset' hr
  have finish : j.finish.Comes τ r' := by
    rw [SessionId.finish_eq]
    exact comes_bind_ok hl hr'
  have replies := (lawful W).replies_mono le replies
  refine ⟨r', finish, w₂, on.le.trans le, stores,
    .answer ⟨k, σ₁, m, hk, hm, em⟩ ⟨l, τ₁, n, hl, hn, en⟩ replies alike, ⟨fun k' hk' => ?_, ?_⟩⟩
  · cases hk.unique hk'.completion
    rw [slots, Function.update_self]
  · rintro ⟨k'⟩ other old
    rw [slots, on.leftSlots hs, Function.update_of_ne]
    rintro rfl
    rcases its with own | new
    · exact other own
    · exact absurd old (Nat.not_lt.mpr new)

/-- Corresponding sessions that have not been finished are finished alike. -/
theorem finished (hs : Stores w σ τ) (pure : h.Pure w.user) (hij : Unfinished 0 w σ τ h i j)
    {r : EStateM.Result Stop (Store W) Value} (hr : i.finish.Comes σ r) :
    ∃ r', j.finish.Comes τ r' ∧ ∃ w', Finished w σ τ h i j r r' w' := by
  obtain ⟨s, t, hi, hj, paired⟩ := hij.sessions
  rw [SessionId.finish_eq] at hr
  cases hd : s.isDone with
  | true =>
    -- The parses have ended before, so only the handlers are to be called.
    obtain ⟨-, -, -, stage⟩ := paired
    generalize e : s.stage = a at stage
    generalize e' : t.stage = b at stage
    cases stage with
    | ready _ => simp [Session.isDone, e] at hd
    | waiting _ => simp [Session.isDone, e] at hd
    | @complete k l results =>
      have hk : i.HasResult σ k := ⟨s, hi, e⟩
      have hl : j.HasResult τ l := ⟨t, hj, e'⟩
      rcases hr.of_bind (composed_completion i) with ⟨k', σ₁, hk', force⟩ | ⟨f, σ₁, hk', -⟩
      · cases hk'.unique hk.completion
        exact (Onward.refl hs).finished hs pure hk.completion hl.completion results
          (hij.left k hk).2 (hij.right l hl).2 (.inl hk) force
      · cases hk'.unique hk.completion
  | false =>
    rcases hr.of_bind (composed_completion i) with ⟨k, σ₁, hk, force⟩ | ⟨f, σ₁, hk, rfl⟩
    · obtain ⟨r₁, hl, ends⟩ := completed hs hij hi hd _ hk
      cases r₁ with
      | error f τ₁ => exact ends.elim
      | ok l τ₁ =>
        obtain ⟨w₁, on, results, ⟨new, unset⟩, unset'⟩ := ends
        exact on.finished hs pure hk hl results unset unset' (.inr new) force
    · obtain ⟨r₁, hl, ends⟩ := completed hs hij hi hd _ hk
      cases r₁ with
      | ok l τ₁ => exact ends.elim
      | error g τ₁ =>
        obtain ⟨rfl, w₁, on⟩ := ends
        have finish : j.finish.Comes τ (.error f τ₁) := by
          rw [SessionId.finish_eq]
          exact comes_bind_error hl
        refine ⟨_, finish, w₁, on.le, on.stores, .stop f hk hl,
          ⟨fun k' hk' => ?_, fun k' _ _ => ?_⟩⟩
        · cases hk.unique hk'.completion
        · exact congrFun (on.leftSlots hs) k'.index

end

end Lineages

end ResumableParsing
