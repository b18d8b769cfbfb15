import ResumableParsing.Proofs.Correspondence.Basic

/-!
# Corresponding steps

If states, tokens and stored parsers correspond, then corresponding tasks take corresponding steps.
How tasks move states past tokens depends on what the two runs look like; everything else that
parsers do is the same on both sides.

* `Correspondence.Ordered`: computations one after another
* `Correspondence.Faithful`, `Correspondence.Lawful`: what depends on the two runs
* `Correspondence.Faithful.enter`, `Correspondence.Faithful.resume`: starting parsers, and handing
  over replies
* `Correspondence.Faithful.goes`: steps that do not move past a token
* `Correspondence.Lawful.step`: corresponding tasks take corresponding steps
-/

namespace ResumableParsing.Correspondence

variable {W α β γ δ : Type} {C : Correspondence W}

/-- Worlds grow, and more becomes known. -/
structure Ordered (C : Correspondence W) : Prop where
  /-- A world knows what it knows. -/
  refl : ∀ w, C.During w w
  /-- Worlds grow step by step. -/
  trans : ∀ {w w' w''}, C.Le w w' → C.Le w' w'' → C.Le w w''
  /-- They do so during runs. -/
  during_trans : ∀ {w w' w''}, C.During w w' → C.During w' w'' → C.During w w''
  /-- More is known after a run. -/
  le : ∀ {w w'}, C.During w w' → C.Le w w'

/-- What the correspondence of two runs rests on, as long as they do not move past tokens. -/
structure Faithful (C : Correspondence W) : Prop extends Ordered C where
  /-- Values correspond for good. -/
  values_mono : ∀ {w w' v u}, C.Le w w' → C.Values w v u → C.Values w' v u
  /-- Tokens correspond for good. -/
  tokens_mono : ∀ {w w' v u}, C.Le w w' → C.Tokens w v u → C.Tokens w' v u
  /-- Parsers correspond for good. -/
  parsers_mono : ∀ {w w' p q}, C.Le w w' → C.Parsers w p q → C.Parsers w' p q
  /-- So do functions that give grammars. -/
  binders_mono : ∀ {w w' f g}, C.Le w w' → C.Binders w f g → C.Binders w' f g
  /-- States correspond for good. -/
  states_mono : ∀ {w w' s t}, C.Le w w' → C.States w s t → C.States w' s t
  /-- Tokens that are there stay there. -/
  occupied_mono : ∀ {w w' s t}, C.Le w w' → C.Occupied w s t → C.Occupied w' s t
  /-- Moving tasks correspond for good. -/
  moving_mono : ∀ {w w' m m'}, C.Le w w' → C.Moving w m m' → C.Moving w' m m'
  /-- Tokens are values. -/
  tokens_values : ∀ {w v u}, C.Tokens w v u → C.Values w v u
  /-- Corresponding states have the same position. -/
  position : ∀ {w s t}, C.States w s t → s.position = t.position
  /-- The absent value. -/
  none : ∀ w, C.Values w .none .none
  /-- The empty stream. -/
  nil : ∀ w, C.Values w (.stream .nil) (.stream .nil)
  /-- Values to be left out. -/
  ignore : ∀ {w v u}, C.Values w v u → C.Values w v.ignore u.ignore
  /-- Corresponding grammars are built into corresponding parsers. -/
  binders : ∀ {w f g}, C.Binders w f g →
    C.Functions w C.Parsers (fun v => built (f v)) fun v => built (g v)
  /-- Corresponding parsers are there, and they have the same names and do corresponding things. -/
  found : ∀ {w σ τ p q}, C.Stores w σ τ → C.Parsers w p q → ∃ c d : Cell W,
    σ.parsers[p.index]? = some c ∧ τ.parsers[q.index]? = some d ∧ c.name = d.name ∧
      Option.Rel (C.Codes w) c.direct d.direct ∧ Option.Rel (C.Codes w) c.logged d.logged
  /-- Messages to the log do not matter. -/
  debug : ∀ w m m', C.Runs w (fun _ _ _ => True) (Eval.debug m) (Eval.debug m')
  /-- Serial numbers are drawn on both sides. -/
  serial : ∀ w, C.Runs w (fun _ _ _ => True) Eval.serial Eval.serial
  /-- There is a token on both sides or on none. -/
  isEmpty : ∀ {w s t}, C.States w s t →
    C.Runs w (fun w' a b => a = b ∧ (a = false → C.Occupied w' s t)) s.input.isEmpty t.input.isEmpty
  /-- The first tokens correspond. -/
  first : ∀ {w s t}, C.Occupied w s t → C.Runs w C.Tokens s.input.first t.input.first
  /-- Corresponding tokens have the same text. -/
  render : ∀ {w σ τ v u}, C.Stores w σ τ → C.Tokens w v u → σ.render v = τ.render u
  /-- Corresponding results are joined. -/
  join : ∀ {w v u v' u'} (c : Combine), C.Values w v u → C.Values w v' u' →
    C.Runs w C.Values (c.join v v') (c.join u u')
  /-- Both sides begin to move past a token. -/
  next : ∀ {w s t}, C.Occupied w s t → ∀ v u, C.Tokens w v u → ∀ k l,
    C.Runs w (fun w' x y => ∃ m m', C.Moving w' m m' ∧ x = m k ∧ y = m' l) (s.next v k) (t.next u l)

/-- What the correspondence of two runs rests on. -/
structure Lawful (C : Correspondence W) : Prop extends Faithful C where
  /-- Both sides arrive in corresponding states, or the right one waits for a chunk. -/
  moving : ∀ {w m m'}, C.Moving w m m' → ∀ k l,
    C.Runs w (fun w' x y => C.Arrives w' k l x y) (m k).step (m' l).step

/-- Nothing is said of a computation that is short of steps. -/
theorem runs_exhausted {w : C.World} {Q : C.World → α → β → Prop} {y : Eval W β} :
    C.Runs w Q (throw .exhausted) y := by
  intro w' σ τ r hle hs hx
  obtain ⟨he, n, hn⟩ := hx
  exact absurd ⟨σ, (hn n (Nat.le_refl n)).symm⟩ he

/-- A loop takes as many rounds on the right as on the left. -/
theorem runs_loop {w : C.World} {Q : C.World → α → β → Prop} {f : Nat → Eval W α}
    {g : Nat → Eval W β} (hf : ∀ n, Composed (f n)) (hg : ∀ n, Composed (g n))
    (hr : ∀ n m σ, Exhausted (g n m σ) ∨ g (n + 1) m σ = g n m σ)
    (h : ∀ n, C.Runs w Q (f n) (g n)) :
    C.Runs w Q (do f (← read).steps) (do g (← read).steps) := by
  intro w' σ τ r hle hs hx
  obtain ⟨n, hx⟩ := of_comes_loop hf hx
  obtain ⟨r', hy, ends⟩ := h n w' σ τ r hle hs hx
  exact ⟨r', comes_loop hg hr hy, ends⟩

namespace Ordered

variable (hC : C.Ordered) {w w' : C.World}

/-! ## Computations one after another -/

section

variable {Q : C.World → α → β → Prop} {R : C.World → γ → δ → Prop} {x : Eval W α} {y : Eval W β}
  {f : α → Eval W γ} {g : β → Eval W δ} {a : α} {b : β}

include hC

/-- Ends that correspond from a larger world on correspond from a smaller one on. -/
theorem ends_mono {r : EStateM.Result Stop (Store W) α} {r' : EStateM.Result Stop (Store W) β}
    (hle : C.During w w') (h : C.Ends w' Q r r') : C.Ends w Q r r' := by
  cases r with
  | ok a σ =>
    cases r' with
    | error e τ => exact h
    | ok b τ =>
      obtain ⟨w₁, hle₁, h⟩ := h
      exact ⟨w₁, hC.during_trans hle hle₁, h⟩
  | error e σ =>
    cases r' with
    | ok b τ => exact h
    | error e' τ =>
      obtain ⟨he, w₁, hle₁, hs⟩ := h
      exact ⟨he, w₁, hC.during_trans hle hle₁, hs⟩

theorem pure (h : ∀ w', C.Le w w' → Q w' a b) : C.Runs w Q (pure a) (pure b) := by
  intro w' σ τ r hle hs hx
  cases hx.unique (comes_pure a σ)
  exact ⟨_, comes_pure b τ, w', hC.refl w', hs, h w' hle⟩

theorem fault (e : Fault) : C.Runs w Q (Eval.fault e) (Eval.fault e) := by
  intro w' σ τ r hle hs hx
  cases hx.unique (comes_fault e σ)
  exact ⟨_, comes_fault e τ, rfl, w', hC.refl w', hs⟩

theorem imp {Q' : C.World → α → β → Prop} (h : C.Runs w Q x y)
    (hQ : ∀ w' a b, C.Le w w' → Q w' a b → Q' w' a b) : C.Runs w Q' x y := by
  intro w₁ σ τ r hle hs hr
  obtain ⟨r', hr', ends⟩ := h w₁ σ τ r hle hs hr
  exact ⟨r', hr', ends.imp fun w₂ a b _ hw _ hq => hQ w₂ a b (hC.trans hle (hC.le hw)) hq⟩

theorem bind (hx : Composed x) (h : C.Runs w Q x y)
    (hf : ∀ w' a b, C.Le w w' → Q w' a b → C.Runs w' R (f a) (g b)) :
    C.Runs w R (x >>= f) (y >>= g) := by
  intro w₁ σ τ r hle hs hr
  rcases hr.of_bind hx with ⟨a, σ₁, h₁, h₂⟩ | ⟨e, σ₁, h₁, rfl⟩
  · obtain ⟨r', hy, ends⟩ := h w₁ σ τ _ hle hs h₁
    obtain ⟨b, τ₁, w₂, rfl, hle₂, hs₂, hq⟩ := ends.of_ok
    have goes := hf w₂ a b (hC.trans hle (hC.le hle₂)) hq
    obtain ⟨r'', hg, ends⟩ := goes w₂ σ₁ τ₁ r (hC.le (hC.refl w₂)) hs₂ h₂
    exact ⟨r'', comes_bind_ok hy hg, hC.ends_mono hle₂ ends⟩
  · obtain ⟨r', hy, ends⟩ := h w₁ σ τ _ hle hs h₁
    obtain ⟨τ₁, w₂, rfl, hle₂, hs₂⟩ := ends.of_error
    exact ⟨_, comes_bind_error hy, rfl, w₂, hle₂, hs₂⟩

theorem get {f : Store W → Eval W γ} {g : Store W → Eval W δ}
    (h : ∀ w' σ τ, C.Le w w' → C.Stores w' σ τ → C.Runs w' R (f σ) (g τ)) :
    C.Runs w R (MonadState.get >>= f) (MonadState.get >>= g) :=
  fun w' σ τ r hle hs hr => h w' σ τ hle hs w' σ τ r (hC.le (hC.refl w')) hs hr

end

end Ordered

namespace Faithful

variable (hC : C.Faithful) {w w' : C.World}

/-! ## Larger worlds -/

section

include hC

theorem functions_mono {Q : C.World → α → β → Prop} {f : Value → Eval W α} {g : Value → Eval W β}
    (hle : C.Le w w') (h : C.Functions w Q f g) : C.Functions w' Q f g :=
  fun _ v u hle' => h _ v u (hC.trans hle hle')

theorem codes_mono (hle : C.Le w w') {c d : Code W} (h : C.Codes w c d) : C.Codes w' c d := by
  induction h with
  | some h hf => exact .some (hC.parsers_mono hle h) fun _ v u hle' => hf _ v u (hC.trans hle hle')
  | pure h => exact .pure (hC.values_mono hle h)
  | fail m => exact .fail m
  | finished h => exact .finished (hC.parsers_mono hle h)
  | undeclared => exact .undeclared
  | seq c h h' => exact .seq c (hC.parsers_mono hle h) (hC.parsers_mono hle h')
  | alt h h' => exact .alt (hC.parsers_mono hle h) (hC.parsers_mono hle h')
  | map h hf => exact .map (hC.parsers_mono hle h) (hC.functions_mono hle hf)
  | bind h hf => exact .bind (hC.parsers_mono hle h) (hC.binders_mono hle hf)
  | ignore _ ih => exact .ignore ih
  | attempt h => exact .attempt (hC.parsers_mono hle h)
  | many h h' => exact .many (hC.parsers_mono hle h) (hC.parsers_mono hle h')
  | method h => exact .method (hC.parsers_mono hle h)

theorem errors_mono (hle : C.Le w w') {e f : ParseError Value} (h : C.Errors w e f) :
    C.Errors w' e f where
  reason := h.reason
  state := hC.states_mono hle h.state
  expected := h.expected.imp fun _ _ => hC.parsers_mono hle
  merged := h.merged

theorem replies_mono (hle : C.Le w w') {r r' : Reply Value} (h : C.Replies w r r') :
    C.Replies w' r r' := by
  cases h with
  | ok d hv hs => exact .ok d (hC.values_mono hle hv) (hC.states_mono hle hs)
  | err d he hs => exact .err d (hC.errors_mono hle he) (hC.states_mono hle hs)

theorem frames_mono (hle : C.Le w w') {f g : Frame W} (h : C.Frames w f g) : C.Frames w' f g := by
  cases h with
  | seqFirst c h => exact .seqFirst c (hC.parsers_mono hle h)
  | seqSecond d c h => exact .seqSecond d c (hC.values_mono hle h)
  | altFirst h hs => exact .altFirst (hC.parsers_mono hle h) (hC.states_mono hle hs)
  | altSecond h => exact .altSecond (hC.errors_mono hle h)
  | map h => exact .map (hC.functions_mono hle h)
  | bind h => exact .bind (hC.binders_mono hle h)
  | consume => exact .consume
  | ignore => exact .ignore
  | attempt h => exact .attempt (hC.states_mono hle h)
  | manyItem h hs => exact .manyItem (hC.parsers_mono hle h) (hC.states_mono hle hs)
  | manyRest h => exact .manyRest (hC.values_mono hle h)

theorem continuations_mono (hle : C.Le w w') {k l : Continuation W}
    (h : List.Forall₂ (C.Frames w) k l) : List.Forall₂ (C.Frames w') k l :=
  h.imp fun _ _ => hC.frames_mono hle

theorem tasks_mono (hle : C.Le w w') {t u : Task W} (h : C.Tasks w t u) : C.Tasks w' t u := by
  cases h with
  | run hp hs hk =>
    exact .run (hC.parsers_mono hle hp) (hC.states_mono hle hs) (hC.continuations_mono hle hk)
  | code hc hs hk =>
    exact .code (hC.codes_mono hle hc) (hC.states_mono hle hs) (hC.continuations_mono hle hk)
  | deliver hr hk => exact .deliver (hC.replies_mono hle hr) (hC.continuations_mono hle hk)
  | arrive hs hv hk =>
    exact .arrive (hC.states_mono hle hs) (hC.values_mono hle hv) (hC.continuations_mono hle hk)
  | moving hm hv hk =>
    exact .moving (hC.moving_mono hle hm) (hC.values_mono hle hv) (hC.continuations_mono hle hk)

end

/-! ## Starting parsers -/

section

variable {s t : State Value} {k l : Continuation W}

include hC

theorem refuse (hs : C.States w s t) (hk : List.Forall₂ (C.Frames w) k l) (reason : Reason)
    {ps qs : List ParserId} (hp : List.Forall₂ (C.Parsers w) ps qs) :
    C.Runs w C.Tasks (Task.refuse reason ps s k) (Task.refuse reason qs t l) := by
  refine hC.bind .serial (hC.serial w) fun w₁ n n' h₁ _ => hC.pure fun w₂ h₂ => ?_
  have hle := hC.trans h₁ h₂
  have hs := hC.states_mono hle hs
  have hp := hp.imp fun _ _ => hC.parsers_mono hle
  exact .deliver (.err false ⟨rfl, hs, hp, rfl⟩ hs) (hC.continuations_mono hle hk)

/-- Corresponding bodies start corresponding tasks. -/
theorem enter {b d : Body W} (h : C.Codes w (.body b) (.body d)) (hs : C.States w s t)
    (hk : List.Forall₂ (C.Frames w) k l) : C.Runs w C.Tasks (b.enter s k) (d.enter t l) := by
  cases h with
  | @some p q f g hp hf =>
    refine hC.bind (composed_isEmpty _) (hC.isEmpty hs) ?_
    rintro w₁ empty _ h₁ ⟨rfl, ho⟩
    cases empty with
    | true =>
      exact hC.refuse (hC.states_mono h₁ hs) (hC.continuations_mono h₁ hk) .endOfInput
        (.cons (hC.parsers_mono h₁ hp) .nil)
    | false =>
      have ho := ho rfl
      simp only [Bool.false_eq_true, if_false]
      refine hC.bind (composed_first _) (hC.first ho) fun w₂ v u h₂ hv => ?_
      have h₁₂ := hC.trans h₁ h₂
      refine hC.bind (composed_action _) (hf w₂ v u h₁₂ hv) ?_
      rintro w₃ ok _ h₃ rfl
      have h₁₃ := hC.trans h₁₂ h₃
      have hv := hC.tokens_mono h₃ hv
      cases ok with
      | true =>
        have moves := hC.next (hC.occupied_mono (hC.trans h₂ h₃) ho) v u hv (.matched v :: k)
          (.matched u :: l)
        refine hC.imp moves ?_
        rintro w₄ _ _ h₄ ⟨m, m', hm, rfl, rfl⟩
        have hv := hC.values_mono h₄ (hC.tokens_values hv)
        exact .moving hm hv (hC.continuations_mono (hC.trans h₁₃ h₄) hk)
      | false =>
        simp only [Bool.false_eq_true, if_false]
        refine hC.bind (.debug _) (hC.debug w₃ _ _) fun w₄ _ _ h₄ _ => ?_
        refine hC.get fun w₅ σ τ h₅ hστ => ?_
        have h₃₅ := hC.trans h₄ h₅
        have hle := hC.trans h₁₃ h₃₅
        -- The message shows the token, which looks the same on both sides.
        rw [hC.render hστ (hC.tokens_mono h₃₅ hv)]
        exact hC.refuse (hC.states_mono hle hs) (hC.continuations_mono hle hk) _
          (.cons (hC.parsers_mono hle hp) .nil)
  | pure hv =>
    refine hC.pure fun w' hle => ?_
    exact .deliver (.ok false (hC.values_mono hle hv) (hC.states_mono hle hs))
      (hC.continuations_mono hle hk)
  | fail m => exact hC.refuse hs hk _ .nil
  | @finished p q hp =>
    refine hC.bind (composed_isEmpty _) (hC.isEmpty hs) ?_
    rintro w₁ empty _ h₁ ⟨rfl, ho⟩
    cases empty with
    | true =>
      refine hC.pure fun w' h₂ => ?_
      have hle := hC.trans h₁ h₂
      exact .deliver (.ok false (hC.none w') (hC.states_mono hle hs)) (hC.continuations_mono hle hk)
    | false =>
      simp only [Bool.false_eq_true, if_false]
      refine hC.bind (composed_first _) (hC.first (ho rfl)) fun w₂ v u h₂ hv => ?_
      refine hC.get fun w₃ σ τ h₃ hστ => ?_
      have hle := hC.trans h₁ (hC.trans h₂ h₃)
      rw [hC.render hστ (hC.tokens_mono h₃ hv)]
      exact hC.refuse (hC.states_mono hle hs) (hC.continuations_mono hle hk) _
        (.cons (hC.parsers_mono hle hp) .nil)
  | undeclared => exact hC.fault _
  | seq c hp hq =>
    refine hC.pure fun w' hle => ?_
    exact .run (hC.parsers_mono hle hp) (hC.states_mono hle hs)
      (.cons (.seqFirst c (hC.parsers_mono hle hq)) (hC.continuations_mono hle hk))
  | alt hp hq =>
    refine hC.pure fun w' hle => ?_
    have hs := hC.states_mono hle hs
    exact .run (hC.parsers_mono hle hp) hs
      (.cons (.altFirst (hC.parsers_mono hle hq) hs) (hC.continuations_mono hle hk))
  | map hp hf =>
    refine hC.pure fun w' hle => ?_
    exact .run (hC.parsers_mono hle hp) (hC.states_mono hle hs)
      (.cons (.map (hC.functions_mono hle hf)) (hC.continuations_mono hle hk))
  | bind hp hf =>
    refine hC.pure fun w' hle => ?_
    exact .run (hC.parsers_mono hle hp) (hC.states_mono hle hs)
      (.cons (.bind (hC.binders_mono hle hf)) (hC.continuations_mono hle hk))
  | ignore hc =>
    refine hC.pure fun w' hle => ?_
    exact .code (hC.codes_mono hle hc) (hC.states_mono hle hs)
      (.cons .ignore (hC.continuations_mono hle hk))
  | attempt hp =>
    refine hC.pure fun w' hle => ?_
    have hs := hC.states_mono hle hs
    exact .run (hC.parsers_mono hle hp) hs (.cons (.attempt hs) (hC.continuations_mono hle hk))
  | many hself hp =>
    refine hC.pure fun w' hle => ?_
    have hs := hC.states_mono hle hs
    exact .run (hC.parsers_mono hle hp) hs
      (.cons (.manyItem (hC.parsers_mono hle hself) hs) (hC.continuations_mono hle hk))

/-! ## Handing over replies -/

theorem merge {e e' f f' : ParseError Value} (h : C.Errors w e e') (h' : C.Errors w f f')
    (n n' : Nat) : C.Errors w (e.merge n f) (e'.merge n' f') := by
  have position := hC.position h.state
  have position' := hC.position h'.state
  unfold ParseError.merge
  rw [position, position']
  split
  · exact h'
  · exact ⟨h'.reason, h'.state, List.rel_append h.expected h'.expected, rfl⟩

theorem deliver {r r' : Reply Value} (h : C.Replies w r r') (hk : List.Forall₂ (C.Frames w) k l) :
    C.Runs w C.Steps (return .tail (.deliver r k)) (return .tail (.deliver r' l)) :=
  hC.pure fun _ hle => .tail (.deliver (hC.replies_mono hle h) (hC.continuations_mono hle hk))

/-- Corresponding frames do corresponding things with corresponding replies. -/
theorem resume {f g : Frame W} (h : C.Frames w f g) {r r' : Reply Value} (hr : C.Replies w r r')
    (hk : List.Forall₂ (C.Frames w) k l) : C.Runs w C.Steps (f.resume r k) (g.resume r' l) := by
  cases h with
  | seqFirst c hq =>
    cases hr with
    | ok d hv hs =>
      refine hC.pure fun w' hle => .tail ?_
      exact .run (hC.parsers_mono hle hq) (hC.states_mono hle hs)
        (.cons (.seqSecond d c (hC.values_mono hle hv)) (hC.continuations_mono hle hk))
    | err d he hs => exact hC.deliver (.err d he hs) hk
  | seqSecond d c hv =>
    cases hr with
    | ok d' hu hs =>
      refine hC.bind (composed_join c _ _) (hC.join c hv hu) fun w' x y hle hx => ?_
      exact hC.deliver (.ok (d || d') hx (hC.states_mono hle hs)) (hC.continuations_mono hle hk)
    | err d' he hs => exact hC.deliver (.err (d || d') he hs) hk
  | altFirst hq hs =>
    cases hr with
    | ok d hv ht => exact hC.deliver (.ok d hv ht) hk
    | err d he ht =>
      cases d with
      | true => exact hC.deliver (.err true he ht) hk
      | false =>
        refine hC.pure fun w' hle => .tail ?_
        exact .run (hC.parsers_mono hle hq) (hC.states_mono hle hs)
          (.cons (.altSecond (hC.errors_mono hle he)) (hC.continuations_mono hle hk))
  | altSecond he =>
    cases hr with
    | ok d hv ht => exact hC.deliver (.ok d hv ht) hk
    | err d he' ht =>
      cases d with
      | true => exact hC.deliver (.err true he' ht) hk
      | false =>
        refine hC.bind .serial (hC.serial w) fun w' n n' hle _ => ?_
        have he := hC.errors_mono hle he
        have he' := hC.errors_mono hle he'
        exact hC.deliver (.err false (hC.merge he he' n n') (hC.states_mono hle ht))
          (hC.continuations_mono hle hk)
  | map hf =>
    cases hr with
    | ok d hv ht =>
      refine hC.bind (composed_action _) (hf w _ _ (hC.le (hC.refl w)) hv) fun w' x y hle hx => ?_
      exact hC.deliver (.ok d hx (hC.states_mono hle ht)) (hC.continuations_mono hle hk)
    | err d he ht => exact hC.deliver (.err d he ht) hk
  | bind hf =>
    cases hr with
    | err d he ht => exact hC.deliver (.err d he ht) hk
    | @ok v u s t d hv ht =>
      rename_i f g
      have build : C.Runs w C.Parsers (built (f v)) (built (g u)) :=
        hC.binders hf w _ _ (hC.le (hC.refl w)) hv
      have composed : Composed (built (f v)) :=
        .bind (composed_action _) fun g => composed_build g
      -- The grammar is built on both sides, and its parser takes over.
      have goes : C.Runs w C.Steps
          (built (f v) >>= fun q => return .tail (.run q s (if d then .consume :: k else k)))
          (built (g u) >>= fun q => return .tail (.run q t (if d then .consume :: l else l))) := by
        refine hC.bind composed build fun w₁ p q h₁ hp => hC.pure fun w₂ h₂ => .tail ?_
        have hle := hC.trans h₁ h₂
        have hk := hC.continuations_mono hle hk
        refine .run (hC.parsers_mono h₂ hp) (hC.states_mono hle ht) ?_
        cases d with
        | true => exact .cons .consume hk
        | false => exact hk
      rw [built, built, bind_assoc, bind_assoc] at goes
      exact goes
  | consume =>
    cases hr with
    | ok d hv ht => exact hC.deliver (.ok true hv ht) hk
    | err d he ht => exact hC.deliver (.err true he ht) hk
  | ignore =>
    cases hr with
    | ok d hv ht => exact hC.deliver (.ok d (hC.ignore hv) ht) hk
    | err d he ht => exact hC.deliver (.err d he ht) hk
  | attempt hs =>
    cases hr with
    | ok d hv ht => exact hC.deliver (.ok d hv ht) hk
    | err d he ht =>
      cases d with
      | true => exact hC.deliver (.err false he hs) hk
      | false => exact hC.deliver (.err false he ht) hk
  | manyItem hself hs =>
    cases hr with
    | err d he ht =>
      cases d with
      | true => exact hC.deliver (.err true he ht) hk
      | false => exact hC.deliver (.ok false (hC.nil w) hs) hk
    | ok d hv ht =>
      cases d with
      | true =>
        refine hC.pure fun w' hle => .tail ?_
        exact .run (hC.parsers_mono hle hself) (hC.states_mono hle ht)
          (.cons (.manyRest (hC.values_mono hle hv)) (hC.continuations_mono hle hk))
      | false =>
        refine hC.get fun w' σ τ hle hστ => ?_
        obtain ⟨c, d, hc, hd, name, -⟩ := hC.found hστ (hC.parsers_mono hle hself)
        -- A repetition without end is reported under the same name.
        simp only [Store.parserName, hc, hd, name]
        exact hC.fault _
  | manyRest hv =>
    cases hr with
    | ok d hu ht =>
      refine hC.bind (composed_join .cons _ _) (hC.join .cons hv hu) fun w' x y hle hx => ?_
      exact hC.deliver (.ok true hx (hC.states_mono hle ht)) (hC.continuations_mono hle hk)
    | err d he ht => exact hC.deliver (.err true he ht) hk

/-! ## Steps -/

theorem startLogged {p q : ParserId} (hp : C.Parsers w p q) (hs : C.States w s t)
    (hk : List.Forall₂ (C.Frames w) k l) :
    C.Runs w C.Tasks (Task.startLogged p s k) (Task.startLogged q t l) := by
  refine hC.bind (.debug _) (hC.debug w _ _) fun w₁ _ _ h₁ _ => hC.get fun w₂ σ τ h₂ hστ => ?_
  have hle := hC.trans h₁ h₂
  obtain ⟨c, d, hc, hd, -, -, logged⟩ := hC.found hστ (hC.parsers_mono hle hp)
  rw [hc, hd]
  simp only [Eval.deref_some, pure_bind]
  cases hcl : c.logged <;> cases hdl : d.logged <;> rw [hcl, hdl] at logged <;> cases logged
  · exact hC.fault _
  · next h =>
    refine hC.pure fun w₃ h₃ => ?_
    have hle := hC.trans hle h₃
    exact .code (hC.codes_mono h₃ h) (hC.states_mono hle hs) (hC.continuations_mono hle hk)

/-- Corresponding tasks take corresponding steps, unless they move past a token. -/
theorem goes {t u : Task W} (h : C.Tasks w t u) : C.Runs w C.Steps t.step u.step ∨
    ∃ m m' v v' k l, C.Moving w m m' ∧ C.Values w v v' ∧ List.Forall₂ (C.Frames w) k l ∧
      t = m (.matched v :: k) ∧ u = m' (.matched v' :: l) := by
  cases h with
  | run hp hs hk =>
    refine .inl (hC.get fun w₁ σ τ h₁ hστ => ?_)
    have hp := hC.parsers_mono h₁ hp
    have hs := hC.states_mono h₁ hs
    have hk := hC.continuations_mono h₁ hk
    obtain ⟨c, d, hc, hd, -, direct, -⟩ := hC.found hστ hp
    rw [hc, hd]
    simp only [Eval.deref_some, pure_bind]
    -- Definitions stand in the same place on both sides.
    cases hcd : c.direct <;> cases hdd : d.direct <;> rw [hcd, hdd] at direct <;> cases direct
    · exact hC.bind (composed_startLogged ..) (hC.startLogged hp hs hk) fun w₂ t u h₂ ht =>
        hC.pure fun w₃ h₃ => .tail (hC.tasks_mono h₃ ht)
    · next h =>
      refine hC.pure fun w₂ h₂ => .tail ?_
      exact .code (hC.codes_mono h₂ h) (hC.states_mono h₂ hs) (hC.continuations_mono h₂ hk)
  | @code c d s t k l hc hs hk =>
    cases c with
    | body b =>
      cases d with
      | body d =>
        refine .inl (hC.bind (composed_enter b s k) (hC.enter hc hs hk) fun w₁ t u h₁ ht => ?_)
        exact hC.pure fun w₂ h₂ => .tail (hC.tasks_mono h₂ ht)
      | method q => cases hc
    | method p =>
      cases d with
      | body d => cases hc
      | method q =>
        cases hc with
        | method hp =>
          refine .inl (hC.bind (composed_startLogged p s k) (hC.startLogged hp hs hk)
            fun w₁ t u h₁ ht => ?_)
          exact hC.pure fun w₂ h₂ => .tail (hC.tasks_mono h₂ ht)
  | deliver hr hk =>
    cases hk with
    | nil => exact .inl (hC.pure fun w' hle => .reply (hC.replies_mono hle hr))
    | cons hf hk => exact .inl (hC.resume hf hr hk)
  | arrive hs hv hk =>
    refine .inl (hC.bind (.debug _) (hC.debug w _ _) fun w' _ _ hle _ => ?_)
    exact hC.deliver (.ok true (hC.values_mono hle hv) (hC.states_mono hle hs))
      (hC.continuations_mono hle hk)
  | moving hm hv hk => exact .inr ⟨_, _, _, _, _, _, hm, hv, hk, rfl, rfl⟩

end

end Faithful

/-- Corresponding tasks take corresponding steps. -/
theorem Lawful.step (hC : C.Lawful) {w : C.World} {t u : Task W} (h : C.Tasks w t u) :
    C.Runs w C.Steps t.step u.step := by
  rcases hC.goes h with goes | ⟨m, m', v, v', k, l, hm, hv, hk, rfl, rfl⟩
  · exact goes
  · refine hC.imp (hC.moving hm _ _) fun w' x y hle h => ?_
    have hv := hC.values_mono hle hv
    have hk := hC.continuations_mono hle hk
    rcases h with ⟨s, t, hs, rfl, rfl⟩ | ⟨z, n, s, hz, rfl, rfl⟩
    · exact .tail (.arrive hs hv hk)
    · exact .pause hz hv hk

end ResumableParsing.Correspondence
