import ResumableParsing.Proofs.Grammar.Library

/-!
# Building keeps sets of parsers closed

A grammar of the library over a closed set of parsers builds parsers that start each other and
parsers of the set. So the set, together with the new parsers, is closed again.

* `Scoped`: building leaves a larger closed set
* `Grammar.Library.scoped`: grammars of the library do
* `closed_define`: defining a parser of the set as another one does
-/

namespace ResumableParsing

variable {W α β : Type} {R : Reach → Prop} {P : ParserId → Prop}

/-- Over the closed set `P`, building leaves a larger closed set, for which the result has the
property `Q`. -/
def Scoped (R : Reach → Prop) (P : ParserId → Prop) (b : Build W α)
    (Q : (ParserId → Prop) → α → Prop) : Prop :=
  ∀ σ, Closed R P σ → ∃ P', (∀ p, P p → P' p) ∧ Closed R P' (b σ).2 ∧ Q P' (b σ).1

/-- The parser that is built is in the larger set. -/
abbrev Scoped.Parser (W : Type) (R : Reach → Prop) (P : ParserId → Prop)
    (b : Build W ParserId) : Prop :=
  Scoped R P b fun P q => P q

/-- The run function of a parser of the set, as another definition captures it. -/
theorem Closed.code {σ : Store W} (hσ : Closed R P σ) {p : ParserId} (hp : P p) :
    ((p.cell σ).1.code p).Library R P := by
  obtain ⟨c, hc, hd, -⟩ := hσ p hp
  rw [cell_of_some hc]
  rcases c.code_cases p with h | h
  · exact hd _ h
  · rw [h]
    exact hp

namespace Scoped

theorem pure {a : α} {Q : (ParserId → Prop) → α → Prop} (h : Q P a) :
    Scoped R P (Pure.pure a : Build W α) Q := fun _ hσ => ⟨P, fun _ hp => hp, hσ, h⟩

theorem bind {b : Build W α} {f : α → Build W β} {Q : (ParserId → Prop) → α → Prop}
    {Q' : (ParserId → Prop) → β → Prop} (h : Scoped R P b Q)
    (h' : ∀ P' a, (∀ p, P p → P' p) → Q P' a → Scoped R P' (f a) Q') :
    Scoped R P (b >>= f) Q' := by
  intro σ hσ
  obtain ⟨P₁, h₁, hσ₁, ha⟩ := h σ hσ
  obtain ⟨P₂, h₂, hσ₂, hb⟩ := h' P₁ _ h₁ ha (b σ).2 hσ₁
  exact ⟨P₂, fun p hp => h₂ p (h₁ p hp), hσ₂, hb⟩

theorem get : Scoped R P (MonadState.get : Build W (Store W)) fun _ _ => True :=
  fun _ hσ => ⟨P, fun _ hp => hp, hσ, trivial⟩

theorem name (p : ParserId) : Scoped R P (p.name : Build W String) fun _ _ => True :=
  fun _ hσ => ⟨P, fun _ hp => hp, hσ, trivial⟩

theorem cell {p : ParserId} (hp : P p) :
    Scoped R P (p.cell : Build W (Cell W)) fun P c => (c.code p).Library R P :=
  fun _ hσ => ⟨P, fun _ hp => hp, hσ, hσ.code hp⟩

/-- A new parser that starts only itself and parsers of the set. -/
theorem make_of {σ : Store W} (hσ : Closed R P σ) {c : Cell W}
    (hc : ∀ P', (∀ p, P p → P' p) → P' ⟨σ.parsers.size⟩ →
      ∀ code, c.direct = some code ∨ c.logged = some code → code.Library R P') :
    ∃ P', (∀ p, P p → P' p) ∧ Closed R P' (ParserId.make c σ).2 ∧ P' (ParserId.make c σ).1 := by
  let P' : ParserId → Prop := fun p => P p ∨ p = ⟨σ.parsers.size⟩
  have hP : ∀ p, P p → P' p := fun _ hp => .inl hp
  refine ⟨P', hP, ?_, .inr rfl⟩
  have hc := hc P' hP (.inr rfl)
  rintro p (hp | rfl)
  · obtain ⟨d, hd, h₁, h₂⟩ := hσ.later ((Build.Grows.make c).grows σ) p hp
    exact ⟨d, hd, fun code h => (h₁ code h).mono (fun _ h => h) hP,
      fun code h => (h₂ code h).mono (fun _ h => h) hP⟩
  · exact ⟨c, Array.getElem?_push_size, fun code h => hc code (.inl h),
      fun code h => hc code (.inr h)⟩

/-- A new parser without definition. -/
theorem make (name : String) : Scoped.Parser W R P (ParserId.make { name := name }) :=
  fun _ hσ => make_of hσ fun _ _ _ code h => by simp at h

/-- A new parser with a run function that starts only itself and parsers of the set. -/
theorem body {name : String} {b : ParserId → Body W}
    (hb : ∀ P' self, (∀ p, P p → P' p) → P' self → (b self).Library R P') :
    Scoped.Parser W R P (Build.body name b) := by
  intro σ hσ
  refine make_of hσ fun P' hP self code h => ?_
  rw [Cell.define] at h
  split at h
  · rcases h with h | h <;> cases h
    exact hb P' _ hP self
  · rcases h with h | h <;> cases h
    exact hb P' _ hP self

/-- Changing what is not a run function. -/
theorem alter {p : ParserId} {f : Cell W → Cell W}
    (hf : ∀ c, (f c).direct = c.direct ∧ (f c).logged = c.logged) :
    Scoped R P (p.alter f) fun _ _ => True :=
  fun σ hσ => ⟨P, fun _ hp => hp, hσ.later ((Build.Grows.alter p hf).grows σ), trivial⟩

theorem named {p : ParserId} (hp : P p) (name : String) : Scoped.Parser W R P (p.named name) :=
  bind (alter fun _ => ⟨rfl, rfl⟩) fun _ _ hP _ => pure (hP p hp)

/-! ### The combinators -/

section

variable {p q : ParserId}

theorem one {f : Value → Action W Bool} (hf : ∀ v, (f v).Reaches R) :
    Scoped.Parser W R P (Build.some f) := by
  apply body
  exact fun _ _ _ self => ⟨self, hf⟩

theorem token (v : Value) : Scoped.Parser W R P (Build.token v) :=
  bind get fun _ _ _ _ => bind (one fun _ => trivial) fun _ _ _ hp => named hp _

theorem const (v : Value) : Scoped.Parser W R P (Build.pure v) := by
  refine bind get fun _ σ _ _ => ?_
  apply body
  exact fun _ _ _ _ => trivial

theorem seq (hp : P p) (hq : P q) (c : Combine) : Scoped.Parser W R P (Build.seq p q c) := by
  apply body
  exact fun _ _ hP _ => ⟨hP p hp, hP q hq⟩

theorem skip (hp : P p) : Scoped.Parser W R P (Build.skip p) := by
  refine bind (cell hp) fun P' c _ hc => bind (Q := fun P q => P q) ?_ fun P' i _ hi => ?_
  · apply body
    exact fun _ _ hP _ => Code.Library.mono (fun _ h => h) hP hc
  · exact bind (alter fun _ => ⟨rfl, rfl⟩) fun _ _ hP _ => pure (hP i hi)

theorem plus (hp : P p) (hq : P q) : Scoped.Parser W R P (Build.plus p q) := by
  refine bind (cell hp) fun P₁ a h₁ _ => bind (cell (h₁ q hq)) fun P₂ b h₂ _ => ?_
  have hp := h₂ p (h₁ p hp)
  have hq := h₂ q (h₁ q hq)
  cases a.ignored <;> cases b.ignored
  · exact bind (seq hp hq .group) fun _ _ _ hr => named hr _
  · exact bind (seq hp hq .first) fun _ _ _ hr => named hr _
  · exact bind (seq hp hq .second) fun _ _ _ hr => named hr _
  · exact bind (bind (seq hp hq .second) fun _ _ _ hr => skip hr) fun _ _ _ hr => named hr _

theorem or (hp : P p) (hq : P q) : Scoped.Parser W R P (Build.or p q) := by
  refine bind (name p) fun P₁ _ h₁ _ => bind (name q) fun P₂ _ h₂ _ => ?_
  apply body
  exact fun _ _ hP _ => ⟨hP p (h₂ p (h₁ p hp)), hP q (h₂ q (h₁ q hq))⟩

theorem map (hp : P p) {f : Value → Action W Value} (hf : ∀ v, (f v).Reaches R) :
    Scoped.Parser W R P (Build.map p f) := by
  refine bind (name p) fun P₁ _ h₁ _ => ?_
  apply body
  exact fun _ _ hP _ => ⟨hP p (h₁ p hp), hf⟩

theorem bindParser (hp : P p) {f : Value → Action W (Grammar W)} (hf : ∀ v, (f v).Reaches R)
    (hg : ∀ v, (f v).Yields (Grammar.Library R P)) : Scoped.Parser W R P (Build.bind p f) := by
  refine bind (name p) fun P₁ _ h₁ _ => ?_
  apply body
  exact fun _ _ hP _ => ⟨hP p (h₁ p hp), hf,
    fun v m σ g σ' h => (hg v m σ g σ' h).mono (fun _ h => h) fun p hp => hP p (h₁ p hp)⟩

theorem attempt (hp : P p) : Scoped.Parser W R P (Build.attempt p) := by
  refine bind (name p) fun P₁ _ h₁ _ => ?_
  apply body
  exact fun _ _ hP _ => hP p (h₁ p hp)

theorem optional (hp : P p) (v : Value) : Scoped.Parser W R P (Build.optional p v) :=
  bind (const v) fun _ _ h₁ hq => bind (or (h₁ p hp) hq) fun _ _ _ hr =>
    bind (name p) fun _ _ h₃ _ => named (h₃ _ hr) _

theorem many (hp : P p) : Scoped.Parser W R P (Build.many p) := by
  refine bind (name p) fun P₁ _ h₁ _ => ?_
  apply body
  exact fun _ _ hP self => ⟨self, hP p (h₁ p hp)⟩

theorem oneplus (hp : P p) : Scoped.Parser W R P (Build.oneplus p) :=
  bind (many hp) fun _ _ h₁ hr => bind (seq (h₁ p hp) hr .cons) fun _ _ _ hq =>
    bind (name p) fun _ _ h₃ _ => bind (name p) fun _ _ h₄ _ => named (h₄ _ (h₃ _ hq)) _

theorem noItems : Scoped.Parser W R P (Build.noItems) := const _

theorem repeated (hp : P p) (n : Nat) {last : ParserId} (hl : P last) :
    Scoped.Parser W R P (Build.repeated p n last) := by
  induction n generalizing P last with
  | zero => exact pure hl
  | succ n ih => exact bind (seq hp hl .cons) fun _ _ hP hq => ih (hP p hp) hq

theorem times (n : Int) (hp : P p) : Scoped.Parser W R P (Build.times n p) :=
  bind noItems fun _ _ h₁ hl => bind (repeated (h₁ p hp) _ hl) fun _ _ _ hq =>
    bind (name p) fun _ _ h₃ _ => named (h₃ _ hq) _

theorem upTo (hp : P p) (n : Nat) {last : ParserId} (hl : P last) :
    Scoped.Parser W R P (Build.upTo p n last) := by
  induction n generalizing P last with
  | zero => exact pure hl
  | succ n ih =>
    exact bind (seq hp hl .cons) fun _ _ h₁ hq => bind (optional hq _) fun _ _ h₂ hr =>
      ih (h₂ p (h₁ p hp)) hr

theorem betweenTimes (low : Int) (high : Option Int) (hp : P p) :
    Scoped.Parser W R P (Build.betweenTimes low high p) := by
  have rest {P : ParserId → Prop} (hp : P p) {extra : ParserId} (he : P extra) (limit : String) :
      Scoped.Parser W R P (do
        let name := toString low ++ ".." ++ limit ++ " * " ++ (← p.name)
        (← Build.seq (← Build.times low p) extra .append).named name) :=
    bind (name p) fun _ _ h₁ _ => bind (times low (h₁ p hp)) fun _ _ h₂ hq =>
      bind (seq hq (h₂ _ (h₁ _ he)) .append) fun _ _ _ hr => named hr _
  cases high with
  | none => exact bind (many hp) fun _ _ hP he => rest (hP p hp) he _
  | some h =>
    exact bind noItems fun _ _ h₁ hl => bind (upTo (h₁ p hp) _ hl) fun _ _ h₂ he =>
      rest (h₂ p (h₁ p hp)) he _

theorem sepBy1 (hp : P p) (hq : P q) : Scoped.Parser W R P (Build.sepBy1 p q) :=
  bind (seq hq hp .second) fun _ _ h₁ hr => bind (many hr) fun _ _ h₂ hr =>
    bind (seq (h₂ p (h₁ p hp)) hr .cons) fun _ _ _ ht => bind (name p) fun _ _ h₄ _ =>
      bind (name q) fun _ _ h₅ _ => named (h₅ _ (h₄ _ ht)) _

theorem sepBy (hp : P p) (hq : P q) : Scoped.Parser W R P (Build.sepBy p q) :=
  bind (sepBy1 hp hq) fun _ _ _ hr => optional hr _

theorem chain {ps : List ParserId} (hps : ∀ p ∈ ps, P p) {last : ParserId} (hl : P last) :
    Scoped.Parser W R P (ps.foldrM (fun p q => Build.seq p q .cons) last) := by
  induction ps generalizing P with
  | nil => exact pure hl
  | cons p ps ih =>
    rw [List.foldrM_cons]
    refine bind (ih (fun q hq => hps q (List.mem_cons_of_mem p hq)) hl) fun _ _ hP hq => ?_
    exact seq (hP p (hps p List.mem_cons_self)) hq .cons

theorem names (ps : List ParserId) :
    Scoped R P (ps.mapM ParserId.name : Build W (List String)) fun _ _ => True := by
  induction ps generalizing P with
  | nil => exact pure trivial
  | cons p ps ih =>
    rw [List.mapM_cons]
    exact bind (name p) fun _ _ _ _ => bind ih fun _ _ _ _ => pure trivial

theorem sequence {ps : List ParserId} (hps : ∀ p ∈ ps, P p) :
    Scoped.Parser W R P (Build.sequence ps) :=
  bind noItems fun _ _ hP hl => bind (chain (fun p hp => hP p (hps p hp)) hl) fun _ _ _ hq =>
    bind (names ps) fun _ _ h₃ _ => named (h₃ _ hq) _

theorem reaches_listOf (v : Value) : (Build.listOf v : Action W Value).Reaches R := by
  cases v with
  | stream s => exact fun _ => trivial
  | list vs => trivial
  | tuple vs => trivial
  | group vs => trivial
  | text t => trivial
  | dict entries => trivial
  | reply r => trivial
  | _ => trivial

theorem listed (hp : P p) : Scoped.Parser W R P (Build.listed p) :=
  bind (map hp reaches_listOf) fun _ _ _ hq => bind (name p) fun _ _ h₂ _ => named (h₂ _ hq) _

end

end Scoped

/-! ## Definitions -/

/-- A parser of the set may be defined as another one. -/
theorem closed_define {σ : Store W} (hσ : Closed R P σ) {p source : ParserId} (hs : P source) :
    Closed R P (p.define source σ).2 := by
  intro q hq
  obtain ⟨d, hd, h₁, h₂⟩ := hσ q hq
  obtain ⟨d', hd', direct, logged⟩ := define_codes p source hd
  refine ⟨d', hd', fun code h => ?_, fun code h => ?_⟩
  · rcases direct code h with h | rfl
    · exact h₁ code h
    · exact hσ.code hs
  · rcases logged code h with h | rfl
    · exact h₂ code h
    · exact hσ.code hs

namespace Scoped

theorem wrap {p : ParserId} (hp : P p) : Scoped.Parser W R P (Build.wrap p) :=
  bind (make "") fun P' q hP hq => by
    intro σ hσ
    exact ⟨P', fun _ h => h, closed_define hσ (hP p hp), hq⟩

/-- Several grammars, from left to right. -/
theorem all {gs : List (Grammar W)}
    (h : ∀ g ∈ gs, ∀ P', (∀ p, P p → P' p) → Scoped.Parser W R P' g.build) :
    Scoped R P (Grammar.buildAll gs) fun P' ps => ∀ p ∈ ps, P' p := by
  induction gs generalizing P with
  | nil => exact pure (by simp)
  | cons g gs ih =>
    refine bind (h g List.mem_cons_self P fun _ h => h) fun P₁ p h₁ hp => ?_
    refine bind (ih fun g hg P' hP => ?_) fun P₂ ps h₂ hps => ?_
    · exact h g (List.mem_cons_of_mem _ hg) P' fun p hp => hP p (h₁ p hp)
    · refine pure fun q hq => ?_
      rcases List.mem_cons.mp hq with rfl | hq
      · exact h₂ _ hp
      · exact hps q hq

end Scoped

/-- A grammar of the library over a closed set leaves a closed set, which its parser is in. -/
theorem Grammar.Library.scoped {g : Grammar W} (h : g.Library R P) :
    Scoped.Parser W R P g.build := by
  -- Parts that are built before only enlarge the set, so the claim is made of all larger sets.
  suffices H : ∀ P', (∀ p, P p → P' p) → Scoped.Parser W R P' g.build from H P fun _ h => h
  induction h with
  | ref h => exact fun P' hP => .pure (hP _ h)
  | some h => exact fun P' hP => .one h
  | token v => exact fun P' hP => .token v
  | pure v => exact fun P' hP => .const v
  | fail m =>
    intro P' hP
    apply Scoped.body
    exact fun _ _ _ _ => trivial
  | finished h => exact fun P' hP => .pure (hP _ h)
  | plus _ _ ihp ihq =>
    exact fun P' hP => .bind (ihp P' hP) fun P₁ p h₁ hp =>
      .bind (ihq P₁ fun p hp => h₁ p (hP p hp)) fun _ _ h₂ hq => .plus (h₂ p hp) hq
  | or _ _ ihp ihq =>
    exact fun P' hP => .bind (ihp P' hP) fun P₁ p h₁ hp =>
      .bind (ihq P₁ fun p hp => h₁ p (hP p hp)) fun _ _ h₂ hq => .or (h₂ p hp) hq
  | map _ h ih => exact fun P' hP => .bind (ih P' hP) fun _ _ _ hp => .map hp h
  | bind _ h hg ih ihg =>
    exact fun P' hP => .bind (ih P' hP) fun _ _ h₁ hp => .bindParser hp h
      fun v m σ g σ' e => (hg v m σ g σ' e).mono (fun _ h => h) fun p hp => h₁ p (hP p hp)
  | skip _ ih => exact fun P' hP => .bind (ih P' hP) fun _ _ _ hp => .skip hp
  | attempt _ ih => exact fun P' hP => .bind (ih P' hP) fun _ _ _ hp => .attempt hp
  | optional v _ ih => exact fun P' hP => .bind (ih P' hP) fun _ _ _ hp => .optional hp v
  | many _ ih => exact fun P' hP => .bind (ih P' hP) fun _ _ _ hp => .many hp
  | oneplus _ ih => exact fun P' hP => .bind (ih P' hP) fun _ _ _ hp => .oneplus hp
  | times n _ ih => exact fun P' hP => .bind (ih P' hP) fun _ _ _ hp => .times n hp
  | betweenTimes low high _ ih =>
    exact fun P' hP => .bind (ih P' hP) fun _ _ _ hp => .betweenTimes low high hp
  | sepBy1 _ _ ihp ihq =>
    exact fun P' hP => .bind (ihp P' hP) fun P₁ p h₁ hp =>
      .bind (ihq P₁ fun p hp => h₁ p (hP p hp)) fun _ _ h₂ hq => .sepBy1 (h₂ p hp) hq
  | sepBy _ _ ihp ihq =>
    exact fun P' hP => .bind (ihp P' hP) fun P₁ p h₁ hp =>
      .bind (ihq P₁ fun p hp => h₁ p (hP p hp)) fun _ _ h₂ hq => .sepBy (h₂ p hp) hq
  | sequence _ ih =>
    exact fun P' hP => .bind (.all fun g hg P₁ h₁ => ih g hg P₁ fun p hp => h₁ p (hP p hp))
      fun _ _ _ hps => .sequence hps
  | listed _ ih => exact fun P' hP => .bind (ih P' hP) fun _ _ _ hp => .listed hp
  | named name _ ih => exact fun P' hP => .bind (ih P' hP) fun _ _ _ hp => .named hp name
  | wrap _ ih => exact fun P' hP => .bind (ih P' hP) fun _ _ _ hp => .wrap hp
  | forward =>
    intro P' hP
    apply Scoped.body
    exact fun _ _ _ _ => trivial
  | undefined name => exact fun P' hP => .make name
  | cell v hr h =>
    intro P' hP
    apply Scoped.body
    exact fun _ _ h₁ _ => ⟨hr, h₁ _ (hP _ h)⟩

/-- A store without parsers of the caller. -/
theorem closed_initial (world : W) (watch : Value → W → W) :
    Closed R (fun p => p = .finished) (Store.initial world watch) := by
  rintro p rfl
  refine ⟨_, rfl, ?_, ?_⟩
  · rintro code ⟨⟩
    rfl
  · rintro code ⟨⟩

end ResumableParsing
