import ResumableParsing.Proofs.Correspondence.Steps
import ResumableParsing.Proofs.Grammar.Scope
import ResumableParsing.Proofs.Store.Blind

/-!
# Corresponding runs with the same values

Where two runs keep stores that are alike, they make the same values and build the same parsers, and
quiet computations have the same outcome on both sides. So all that is left to say of two such runs
is how their states correspond.

* `Correspondence.Even`: stores that are alike, with the same values and the same parsers
* `Correspondence.Even.runs_quiet`: quiet computations have the same outcome
* `Correspondence.Even.codes_of_library`: parsers of the library correspond to themselves
* `Correspondence.Even.found`, `Correspondence.Even.join`: what they need of the stores
-/

namespace ResumableParsing.Correspondence

variable {W α β : Type}

/-- The function leaves the states alone and gives grammars of the library over the parsers `P`. -/
def Binder (P : ParserId → Prop) (f : Value → Action W (Grammar W)) : Prop :=
  (∀ v, (f v).Detached) ∧ ∀ v, (f v).Yields (Grammar.Library (fun _ => False) P)

theorem Binder.mono {P Q : ParserId → Prop} {f : Value → Action W (Grammar W)}
    (hP : ∀ p, P p → Q p) (h : Binder P f) : Binder Q f :=
  ⟨h.1, fun v m σ g σ' e => (h.2 v m σ g σ' e).mono (fun _ hr => hr) hP⟩

/-- The runs keep stores that are alike, and values and parsers correspond only to themselves. Of
the parsers, those that are known only start one another. -/
structure Even (C : Correspondence W) (known : C.World → ParserId → Prop) : Prop
    extends C.Ordered where
  /-- Values are the same. -/
  values : ∀ {w v u}, C.Values w v u ↔ v = u
  /-- Tokens are the same. -/
  tokens : ∀ {w v u}, C.Tokens w v u ↔ v = u
  /-- Parsers are the same, and they are known. -/
  parsers : ∀ {w p q}, C.Parsers w p q ↔ p = q ∧ known w p
  /-- Functions that give grammars are the same, and the grammars are those of the library. -/
  binders : ∀ {w f g}, C.Binders w f g ↔ f = g ∧ Binder (known w) f
  /-- Parsers are known for good. -/
  known_mono : ∀ {w w' p}, C.Le w w' → known w p → known w' p
  /-- The stores are alike. -/
  alike : ∀ {w σ τ}, C.Stores w σ τ → σ.Alike τ
  /-- Nothing is parsed when streams are read. -/
  still : ∀ {w σ τ}, C.Stores w σ τ → σ.Still
  /-- The parsers that are known only start one another. -/
  closed : ∀ {w σ τ}, C.Stores w σ τ → Closed (fun _ => False) (known w) σ
  /-- What quiet computations change does not matter. -/
  later : ∀ {w σ τ σ' τ'}, C.Stores w σ τ → σ'.Alike τ' → σ'.Still → σ.Grows σ' → τ.Grows τ' →
    σ.Clear σ' → τ.Clear τ' → C.Stores w σ' τ'
  /-- More parsers may become known. -/
  learn : ∀ {w σ τ P}, C.Stores w σ τ → (∀ p, known w p → P p) → Closed (fun _ => False) P σ →
    ∃ w', C.During w w' ∧ C.Stores w' σ τ ∧ ∀ p, P p → known w' p

namespace Even

variable {C : Correspondence W} {known : C.World → ParserId → Prop} (hC : C.Even known)
  {w : C.World}

include hC

/-! ## Quiet computations -/

/-- Quiet computations have the same outcome. -/
theorem ends_quiet {σ τ : Store W} (h : C.Stores w σ τ) {x : Eval W α} (hx : Quiet x)
    {r : EStateM.Result Stop (Store W) α} (hr : x.Comes σ r) :
    ∃ r', x.Comes τ r' ∧ C.Ends w (fun _ a b => a = b) r r' := by
  obtain ⟨r', hr', twins⟩ := hx.comes (hC.alike h) (hC.still h) hr
  refine ⟨r', hr', ?_⟩
  have k := hx.composed.grows_of_comes hr
  have k' := hx.composed.grows_of_comes hr'
  have clear := (hx.beside (hC.still h) hr).clear
  cases r with
  | ok a σ' =>
    cases r' with
    | error e τ' => exact twins.elim
    | ok b τ' =>
      obtain ⟨rfl, alike, still, beside⟩ := twins
      exact ⟨w, hC.refl w, hC.later h alike still k k' clear beside.clear, rfl⟩
  | error e σ' =>
    cases r' with
    | ok b τ' => exact twins.elim
    | error f τ' =>
      obtain ⟨rfl, alike, still, beside⟩ := twins
      exact ⟨rfl, w, hC.refl w, hC.later h alike still k k' clear beside.clear⟩

/-- The same quiet computation on both sides, with one of its results. -/
theorem runs_quiet {x : Eval W α} (hx : Quiet x) :
    C.Runs w (fun _ a b => a = b ∧ ∃ m σ σ', x m σ = .ok a σ') x x := by
  intro w₁ σ τ r _ hs hr
  obtain ⟨r', hr', ends⟩ := hC.ends_quiet hs hx hr
  refine ⟨r', hr', ends.imp fun w₂ a b σ' _ e hab => ⟨hab, ?_⟩⟩
  obtain ⟨-, n, hn⟩ := hr
  exact ⟨_, σ, σ', (hn n (Nat.le_refl n)).trans e⟩

/-- Two computations that succeed and leave the store alone. -/
theorem runs_known {Q : C.World → α → β → Prop} {x : Eval W α} {y : Eval W β} {a : α} {b : β}
    (hx : ∀ m σ, x m σ = .ok a σ) (hy : ∀ m σ, y m σ = .ok b σ)
    (h : ∀ w', C.Le w w' → Q w' a b) : C.Runs w Q x y := by
  intro w₁ σ τ r hle hs hr
  have hx' : x.Comes σ (.ok a σ) := comes_of_forall (fun _ => hx _ σ) not_exhausted_ok
  have hy' : y.Comes τ (.ok b τ) := comes_of_forall (fun _ => hy _ τ) not_exhausted_ok
  cases hr.unique hx'
  exact ⟨_, hy', w₁, hC.refl w₁, hs, h w₁ hle⟩

/-! ### Messages -/

/-- Messages are not looked at. -/
theorem log {σ τ : Store W} (h : C.Stores w σ τ) (m : String) :
    C.Stores w (if σ.logging then { σ with log := m :: σ.log } else σ) τ := by
  have still : σ.Still := hC.still h
  refine hC.later h ((σ.alike_log m).symm.trans (hC.alike h)) ?_ ?_ (.refl τ) ?_ (.refl τ)
  · split
    · exact still
    · exact still
  · split
    · exact { Store.Grows.refl σ with }
    · exact .refl σ
  · split <;> exact ⟨rfl, rfl, rfl, rfl⟩

theorem log_right {σ τ : Store W} (h : C.Stores w σ τ) (m : String) :
    C.Stores w σ (if τ.logging then { τ with log := m :: τ.log } else τ) := by
  refine hC.later h ((hC.alike h).trans (τ.alike_log m)) (hC.still h) (.refl σ) ?_ (.refl σ) ?_
  · split
    · exact { Store.Grows.refl τ with }
    · exact .refl τ
  · split <;> exact ⟨rfl, rfl, rfl, rfl⟩

theorem runs_debug (m m' : Store W → String) :
    C.Runs w (fun _ _ _ => True) (Eval.debug m) (Eval.debug m') := by
  intro w₁ σ τ r _ hs hr
  cases hr.unique (comes_of_forall (fun _ => rfl) not_exhausted_ok)
  refine ⟨_, comes_of_forall (fun _ => rfl) not_exhausted_ok, w₁, hC.refl w₁, ?_, trivial⟩
  exact hC.log_right (hC.log hs (m σ)) (m' τ)

/-! ## Functions of the caller, and parsers -/

theorem runs_action {a : Action W α} (h : a.Detached) {Q : α → Prop} (hQ : a.Yields Q) :
    C.Runs w (fun _ x y => x = y ∧ Q x) a.run a.run := by
  refine hC.imp (hC.runs_quiet (quiet_action h)) ?_
  rintro w' x _ - ⟨rfl, m, σ, σ', e⟩
  exact ⟨rfl, hQ m σ x σ' e⟩

theorem runs_function {a : Action W α} (h : a.Detached) :
    C.Runs w (fun _ x y => x = y) a.run a.run :=
  hC.imp (hC.runs_quiet (quiet_action h)) fun _ _ _ _ h => h.1

theorem functions {f : Value → Action W Value} (h : ∀ v, (f v).Detached) :
    C.Functions w C.Values (fun v => (f v).run) fun v => (f v).run := by
  intro w' v u _ hv
  cases hC.values.mp hv
  exact hC.imp (hC.runs_function (h v)) fun _ _ _ _ e => hC.values.mpr e

/-- Building the same grammar on both sides gives the same parser. -/
theorem runs_build {gr : Grammar W} (h : gr.Library (fun _ => False) (known w)) :
    C.Runs w C.Parsers (Eval.ofBuild gr.build) (Eval.ofBuild gr.build) := by
  intro w₁ σ τ r hle hs hr
  have hσ : (Eval.ofBuild gr.build).Comes σ _ := comes_of_forall (fun _ => rfl) not_exhausted_ok
  have hτ : (Eval.ofBuild gr.build).Comes τ _ := comes_of_forall (fun _ => rfl) not_exhausted_ok
  cases hr.unique hσ
  obtain ⟨P, hP, closed, hp⟩ :=
    (h.mono (fun _ h => h) fun _ => hC.known_mono hle).scoped σ (hC.closed hs)
  obtain ⟨same, alike⟩ := gr.build_grows.alike (hC.alike hs)
  have still : (gr.build σ).2.Still := by
    intro i x hx
    rw [gr.build_grows.frame σ] at hx
    exact hC.still hs i x hx
  have clear (υ : Store W) : υ.Clear (gr.build υ).2 := by
    rw [gr.build_grows.frame υ]
    exact ⟨rfl, rfl, rfl, rfl⟩
  have hs := hC.later hs alike still (gr.build_grows.grows σ) (gr.build_grows.grows τ) (clear σ)
    (clear τ)
  obtain ⟨w₂, hle₂, hs₂, known₂⟩ := hC.learn hs hP closed
  exact ⟨_, hτ, w₂, hle₂, hs₂, hC.parsers.mpr ⟨same, known₂ _ hp⟩⟩

/-- Building the grammars that a function of the caller gives. -/
theorem runs_built {f g : Value → Action W (Grammar W)} (h : C.Binders w f g) :
    C.Functions w C.Parsers (fun v => built (f v)) fun v => built (g v) := by
  obtain ⟨rfl, h, hQ⟩ := hC.binders.mp h
  intro w₁ v u h₁ hv
  cases hC.values.mp hv
  refine hC.bind (composed_action _) (hC.runs_action (h v) (hQ v)) ?_
  rintro w₂ gr _ h₂ ⟨rfl, hg⟩
  exact hC.runs_build (hg.mono (fun _ h => h) fun _ => hC.known_mono (hC.trans h₁ h₂))

mutual

theorem codes_of_body : ∀ {b : Body W}, b.Library (fun _ => False) (known w) →
    C.Codes w (.body b) (.body b)
  | .some _ _, h => .some (hC.parsers.mpr ⟨rfl, h.1⟩) fun _ v _ _ e =>
      hC.tokens.mp e ▸ hC.runs_function (h.2 v)
  | .pure _, _ => .pure (hC.values.mpr rfl)
  | .fail m, _ => .fail m
  | .finished _, h => .finished (hC.parsers.mpr ⟨rfl, h⟩)
  | .undeclared, _ => .undeclared
  | .seq _ _ c, h => .seq c (hC.parsers.mpr ⟨rfl, h.1⟩) (hC.parsers.mpr ⟨rfl, h.2⟩)
  | .alt _ _, h => .alt (hC.parsers.mpr ⟨rfl, h.1⟩) (hC.parsers.mpr ⟨rfl, h.2⟩)
  | .map _ _, h => .map (hC.parsers.mpr ⟨rfl, h.1⟩) (hC.functions h.2)
  | .bind _ _, h => .bind (hC.parsers.mpr ⟨rfl, h.1⟩) (hC.binders.mpr ⟨rfl, h.2⟩)
  | .ignore _, h => .ignore (codes_of_library h)
  | .attempt _, h => .attempt (hC.parsers.mpr ⟨rfl, h⟩)
  | .many _ _, h => .many (hC.parsers.mpr ⟨rfl, h.1⟩) (hC.parsers.mpr ⟨rfl, h.2⟩)
  | .cell _ _, h => h.1.elim
  | .native _, h => h.elim
  | .after _ _, h => h.elim

/-- Parsers of the library correspond to themselves. -/
theorem codes_of_library : ∀ {c : Code W}, c.Library (fun _ => False) (known w) → C.Codes w c c
  | .body _, h => codes_of_body h
  | .method _, h => .method (hC.parsers.mpr ⟨rfl, h⟩)

end

/-- Parsers that are known are there on both sides. -/
theorem found {σ τ : Store W} {p q : ParserId} (hs : C.Stores w σ τ) (h : C.Parsers w p q) :
    ∃ c d : Cell W, σ.parsers[p.index]? = some c ∧ τ.parsers[q.index]? = some d ∧
      c.name = d.name ∧ Option.Rel (C.Codes w) c.direct d.direct ∧
      Option.Rel (C.Codes w) c.logged d.logged := by
  obtain ⟨rfl, hp⟩ := hC.parsers.mp h
  obtain ⟨c, hc, direct, logged⟩ := hC.closed hs p hp
  refine ⟨c, c, hc, (hC.alike hs).parsers ▸ hc, rfl, ?_, ?_⟩
  · cases h : c.direct with
    | none => exact .none
    | some code => exact .some (hC.codes_of_library (direct code h))
  · cases h : c.logged with
    | none => exact .none
    | some code => exact .some (hC.codes_of_library (logged code h))

/-- Corresponding results are joined. -/
theorem join {v u v' u' : Value} (c : Combine) (h : C.Values w v u) (h' : C.Values w v' u') :
    C.Runs w C.Values (c.join v v') (c.join u u') := by
  cases hC.values.mp h
  cases hC.values.mp h'
  exact hC.imp (hC.runs_quiet (quiet_join c _ _)) fun _ _ _ _ h => hC.values.mpr h.1

end Even

end ResumableParsing.Correspondence
