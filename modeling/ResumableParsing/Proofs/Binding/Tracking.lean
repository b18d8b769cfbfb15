import ResumableParsing.Proofs.Binding.Processes
import ResumableParsing.Proofs.Choice.Associativity
import ResumableParsing.Proofs.Lineages.Values

/-!
# Processes that track one another

Two processes that are put together in the same way go side by side, although one of them logs other
messages, draws other serial numbers, or builds parsers that the other one does not. In plain states
and inside chunks, what they arrive at is the same then.

* `Correspondence.Tolerant`: bookkeeping and new parsers do not matter to corresponding runs
* `Correspondence.Begins`: parsers and pure functions correspond to themselves
* `Correspondence.Tracks`: what the left process arrives at, the right one does as well
* `tracks_start`, `tracks_bind`, `tracks_act`, `tracks_after`: putting processes together
* `Process.Alike`: the same replies in plain states and inside chunks
* `Process.alike_of_tracks`: processes that track one another reply alike
-/

namespace ResumableParsing

variable {W α β : Type}

/-! ## Going side by side -/

namespace Correspondence

variable {C : Correspondence W} {chunks : Int → Stream Value}

/-- From the world on, runs with answered requests correspond to one another, and messages, serial
numbers and new parsers do not matter to them. -/
structure Tolerant (C : Correspondence W) (chunks : Int → Stream Value) (w : C.World) : Prop where
  /-- Where the left run arrives, the right one arrives at something that corresponds. -/
  arrives : ∀ {w' : C.World} {p p' : ParserId} {s t : State Value} {σ τ : Store W}
    {y : EStateM.Result Stop (Store W) (Finish W)}, C.Le w w' → C.Stores w' σ τ →
    C.States w' s t → C.Parsers w' p p' → p.Arrives chunks s σ y →
    ∃ y', p'.Arrives chunks t τ y' ∧ C.Ends w' C.Finishes y y'
  /-- The stores may be enlarged. -/
  enlarged : ∀ {w' : C.World} {σ σ' τ τ' : Store W}, C.Stores w' σ τ → σ.Enlarged σ' →
    τ.Enlarged τ' → C.Stores w' σ' τ'

/-- From the world on, parsers of the set and pure functions correspond to themselves. -/
structure Begins (C : Correspondence W) (chunks : Int → Stream Value) (P : ParserId → Prop)
    (w : C.World) : Prop where
  /-- The runs correspond. -/
  lawful : C.Lawful
  /-- Bookkeeping and new parsers do not matter. -/
  tolerant : C.Tolerant chunks w
  /-- Parsers of the set. -/
  parsers : ∀ p, P p → C.Parsers w p p
  /-- Data. -/
  values : ∀ v, (Pairing.only P).Like v v → C.Values w v v
  /-- Pure functions that give grammars over the set. -/
  binders : ∀ f : Value → Action W (Grammar W),
    (Pairing.only P).Functions Grammar.Paired f f → C.Binders w f f
  /-- Pure functions that give values. -/
  maps : ∀ h : Value → Action W Value, (Pairing.only P).Functions Pairing.Like h h →
    C.Functions w C.Values (fun v => (h v).run) fun v => (h v).run

theorem Begins.of_pairs {P : ParserId → Prop} {w : C.World} {pairing : C.World → Pairing}
    (hC : C.Lawful) (pairs : C.Pairs pairing) (tolerant : C.Tolerant chunks w)
    (only : pairing w = .only P) : C.Begins chunks P w where
  lawful := hC
  tolerant := tolerant
  parsers p hp := by
    rw [pairs.parsers]
    change (pairing w).parsers p p
    rw [only]
    exact ⟨rfl, hp⟩
  values v hv := by
    rw [pairs.values]
    change (pairing w).Like v v
    rwa [only]
  binders f hf := by
    rw [pairs.functions]
    change (pairing w).Functions Grammar.Paired f f
    rwa [only]
  maps h hh := pairs.maps (only ▸ hh)

/-- Where the left process arrives at something, the right one arrives at something that
corresponds. -/
def Tracks (C : Correspondence W) (w : C.World) (A A' : Process W) : Prop :=
  ∀ (w' : C.World) (s t : State Value) (σ τ : Store W)
    (y : EStateM.Result Stop (Store W) (Finish W)), C.Le w w' → C.Stores w' σ τ →
    C.States w' s t → A s σ y → ∃ y', A' t τ y' ∧ C.Ends w' C.Finishes y y'

variable {w w' : C.World} {A A' : Process W} {B B' : Value → Process W}

theorem Tolerant.mono (hC : C.Ordered) (h : C.Tolerant chunks w) (hle : C.Le w w') :
    C.Tolerant chunks w' where
  arrives hle' := h.arrives (hC.trans hle hle')
  enlarged := h.enlarged

/-- Behind consumed input, ends still correspond. -/
theorem ends_behind {y y' : EStateM.Result Stop (Store W) (Finish W)} (d : Bool)
    (h : C.Ends w C.Finishes y y') :
    C.Ends w C.Finishes (Finish.behind d y) (Finish.behind d y') := by
  cases y with
  | error e σ =>
    cases y' with
    | ok f τ => exact h.elim
    | error e' τ => exact h
  | ok f σ =>
    cases y' with
    | error e τ => exact h.elim
    | ok f' τ =>
      obtain ⟨w', hle, hs, finishes⟩ := h
      cases finishes with
      | reply hr =>
        cases hr with
        | ok c hv ht =>
          rw [Finish.behind_ok, Finish.behind_ok]
          exact ⟨w', hle, hs, .reply (.ok _ hv ht)⟩
        | err c he ht =>
          rw [Finish.behind_err, Finish.behind_err]
          exact ⟨w', hle, hs, .reply (.err _ he ht)⟩

theorem tracks_start (hC : C.Lawful) (h : C.Tolerant chunks w) {p q : ParserId}
    (hp : C.Parsers w p q) : C.Tracks w (p.process chunks) (q.process chunks) :=
  fun _ _ _ _ _ _ hle hs ht run => h.arrives hle hs ht (hC.parsers_mono hle hp) run

theorem tracks_pure (hC : C.Lawful) {v u : Value} (hv : C.Values w v u) :
    C.Tracks w (.pure v) (.pure u) := by
  rintro w₁ s t σ τ _ hle hs ht rfl
  exact ⟨_, rfl, w₁, hC.refl w₁, hs, .reply (.ok false (hC.values_mono hle hv) ht)⟩

/-- Something that only enlarges the stores is done first. -/
theorem tracks_after (h : C.Tolerant chunks w) {f f' : Store W → Store W}
    (hf : ∀ σ : Store W, σ.Enlarged (f σ)) (hf' : ∀ σ : Store W, σ.Enlarged (f' σ))
    (hA : C.Tracks w A A') : C.Tracks w (A.after f) (A'.after f') :=
  fun w₁ s t σ τ y hle hs ht run =>
    hA w₁ s t (f σ) (f' τ) y hle (h.enlarged hs (hf σ) (hf' τ)) ht run

/-- One process after the other. The world grows with the first one. -/
theorem tracks_bind (hC : C.Lawful) (hA : C.Tracks w A A')
    (hB : ∀ w' v u, C.Le w w' → C.Values w' v u → C.Tracks w' (B v) (B' u)) :
    C.Tracks w (A.bind B) (A'.bind B') := by
  intro w₁ s t σ τ y hle hs ht run
  cases run with
  | failed first =>
    obtain ⟨y', first', ends⟩ := hA w₁ s t σ τ _ hle hs ht first
    have alike := ends
    obtain ⟨f, τ', w₂, rfl, -, -, finishes⟩ := ends.of_ok
    cases finishes with
    | reply hr =>
      cases hr with
      | err d he ht' => exact ⟨_, .failed first', alike⟩
  | stop first =>
    obtain ⟨y', first', ends⟩ := hA w₁ s t σ τ _ hle hs ht first
    obtain ⟨τ', w₂, rfl, -⟩ := ends.of_error
    exact ⟨_, .stop first', ends⟩
  | @next d v _ s₁ _ σ₁ y first second =>
    obtain ⟨y', first', ends⟩ := hA w₁ s t σ τ _ hle hs ht first
    obtain ⟨f, τ₁, w₂, rfl, hle₂, hs₂, finishes⟩ := ends.of_ok
    cases finishes with
    | reply hr =>
      cases hr with
      | @ok _ u _ t₁ _ hv ht₁ =>
        -- The second process begins in the larger world to which the first one has led.
        have onward := hB w₂ v u (hC.trans hle (hC.le hle₂)) hv
        obtain ⟨y', second', ends⟩ :=
          onward w₂ s₁ t₁ σ₁ τ₁ y (hC.le (hC.refl w₂)) hs₂ ht₁ second
        exact ⟨_, .next first' second', ends_behind d (hC.ends_mono hle₂ ends)⟩

/-- A process behind a computation. -/
theorem tracks_act (hC : C.Lawful) {x : Eval W α} {x' : Eval W β} {Q : C.World → α → β → Prop}
    {D : α → Process W} {D' : β → Process W} (hx : C.Runs w Q x x')
    (hD : ∀ w' a b, C.Le w w' → Q w' a b → C.Tracks w' (D a) (D' b)) :
    C.Tracks w (.act x D) (.act x' D') := by
  intro w₁ s t σ τ y hle hs ht run
  cases run with
  | stop first =>
    obtain ⟨r, first', ends⟩ := hx w₁ σ τ _ hle hs first
    obtain ⟨τ', w₂, rfl, -⟩ := ends.of_error
    exact ⟨_, .stop first', ends⟩
  | next first second =>
    obtain ⟨r, first', ends⟩ := hx w₁ σ τ _ hle hs first
    obtain ⟨b, τ₁, w₂, rfl, hle₂, hs₂, hq⟩ := ends.of_ok
    have onward := hD w₂ _ b (hC.trans hle (hC.le hle₂)) hq
    obtain ⟨y', second', ends⟩ := onward w₂ s t _ τ₁ y (hC.le (hC.refl w₂)) hs₂
      (hC.states_mono (hC.le hle₂) ht) second
    exact ⟨_, .next first' second', hC.ends_mono hle₂ ends⟩

/-- Functions of the caller that give corresponding grammars. -/
theorem tracks_given (hC : C.Lawful) (h : C.Tolerant chunks w)
    {f g : Value → Action W (Grammar W)} (hf : C.Binders w f g) {v u : Value}
    (hv : C.Values w v u) : C.Tracks w (.given chunks (f v)) (.given chunks (g u)) :=
  tracks_act hC (hC.binders hf w v u (hC.le (hC.refl w)) hv) fun _ _ _ hle hp =>
    tracks_start hC (h.mono hC.toOrdered hle) hp

end Correspondence

/-! ## Plain states -/

/-- Over streams with the same elements, bookkeeping and new parsers do not matter. -/
theorem Storage.tolerant (w : (setting W).correspondence.World) (chunks : Int → Stream Value) :
    (setting W).correspondence.Tolerant chunks w where
  arrives _ hs ht hp run := (keepsArrivals W chunks).arrives hs ht hp run
  enlarged := stores_enlarged

/-! ## States inside chunks -/

namespace Lineages

variable {w : World} {chunks : Int → Stream Value} {f g : Finish W} {p q : ParserId}
  {s t : State Value}

/-- Parses that end alike do so as well when their requests are answered by chunks with the same
elements. -/
theorem runs_answer (hch : ∀ n, Chunks w (chunks n) (chunks n)) (k : Nat) (hf : Finishes w f g) :
    (correspondence W).Runs w Finishes (Finish.answer chunks k f) (Finish.answer chunks k g) := by
  have hC := ordered W
  induction k generalizing w f g with
  | zero => exact hC.pure fun _ hle => hf.mono hle
  | succ k ih =>
    have wait := hf
    cases hf with
    | reply hr => exact hC.pure fun _ hle => wait.mono hle
    | @request n p i j v v' l l' hv hk =>
      simp only [Finish.answer, resume_eq_arrive, bind_assoc]
      refine hC.bind (composed_arrive _ _) (runs_arrive wait (hch n)) fun w₁ t t' h₁ ht => ?_
      refine hC.bind (composed_complete t) (runs_complete ht) fun w₂ f g h₂ hf => ?_
      exact ih (fun m => (hch m).mono (World.Le.trans h₁ h₂)) hf

/-- Runs of corresponding parsers in corresponding states arrive alike. -/
theorem tracks_arrives {σ τ : Store W} {y : EStateM.Result Stop (Store W) (Finish W)}
    (hch : ∀ n, Chunks w (chunks n) (chunks n)) (hs : Stores w σ τ)
    (ht : (correspondence W).States w s t) (hp : (correspondence W).Parsers w p q)
    (run : p.Arrives chunks s σ y) :
    ∃ y', q.Arrives chunks t τ y' ∧ (correspondence W).Ends w (correspondence W).Finishes y y' := by
  have hC := ordered W
  obtain ⟨hy, k, run⟩ := run
  have runs : (correspondence W).Runs w Finishes (p.runWith chunks k s) (q.runWith chunks k t) :=
    hC.bind (composed_complete _) (runs_complete (.run hp ht .nil)) fun w' f g hle hf =>
      runs_answer (fun n => (hch n).mono hle) k hf
  obtain ⟨y', run', ends⟩ := runs w σ τ y (.refl w) hs run
  cases y with
  | error e σ' =>
    obtain ⟨τ', w', rfl, -⟩ := ends.of_error
    exact ⟨_, ⟨by simp, k, run'⟩, ends⟩
  | ok f σ' =>
    obtain ⟨f', τ', w', rfl, hle, hs', finishes⟩ := ends.of_ok
    cases finishes with
    | reply hr => exact ⟨_, ⟨by simp, k, run'⟩, w', hle, hs', .reply hr⟩
    -- A run that has arrived does not wait for a chunk.
    | request => exact absurd rfl (hy _ _)

/-- Inside chunks, bookkeeping and new parsers do not matter. -/
theorem tolerant (hch : ∀ n, Chunks w (chunks n) (chunks n)) :
    (correspondence W).Tolerant chunks w where
  arrives hle hs ht hp run := tracks_arrives (fun n => (hch n).mono hle) hs ht hp run
  enlarged := by
    intro w' σ σ' τ τ' hs hσ hτ
    have side {S : Side} {υ υ' : Store W} (h : S.Holds υ) (k : υ.Enlarged υ') :
        S.Holds υ' ∧ υ.Spares S.outputs υ' := by
      have parsers (i : Nat) (c : Cell W) (hc : υ.parsers[i]? = some c) := k.parser hc
      obtain ⟨log, n, more, -, rfl⟩ := k
      exact ⟨h.congr rfl rfl rfl rfl rfl, parsers, rfl, Store.thunks_of_tails fun _ _ => rfl⟩
    have hs : Stores w' σ τ := hs
    obtain ⟨left, spares⟩ := side hs.left hσ
    obtain ⟨right, spares'⟩ := side hs.right hτ
    exact hs.later (.refl _) left spares (.refl _) right spares'

end Lineages

/-! ## The same replies -/

/-- Both runs end with the same reply in the same chunk, or break off for the same reason. -/
inductive Finish.Matches : EStateM.Result Stop (Store W) (Finish W) →
    EStateM.Result Stop (Store W) (Finish W) → Prop where
  | reply {r r' : Reply Value} {σ τ : Store W} : r.Matches σ τ r' →
      r.state.chunk? = r'.state.chunk? → Matches (.ok (.reply r) σ) (.ok (.reply r') τ)
  | stop (e : Stop) (σ τ : Store W) : Matches (.error e σ) (.error e τ)

theorem Lineages.matches_ends {w : World} {y y' : EStateM.Result Stop (Store W) (Finish W)}
    (h : (correspondence W).Ends w (correspondence W).Finishes y y') : Finish.Matches y y' := by
  cases y with
  | error e σ =>
    cases y' with
    | ok f τ => exact h.elim
    | error e' τ =>
      obtain ⟨rfl, -⟩ := h
      exact .stop e σ τ
  | ok f σ =>
    cases y' with
    | error e τ => exact h.elim
    | ok f' τ =>
      obtain ⟨w', -, hs, finishes⟩ := h
      cases finishes with
      | @reply r r' hr =>
        refine .reply (matches_reply hs hr) ?_
        have place {s t : State Value} (hst : (correspondence W).States w' s t) :
            s.chunk? = t.chunk? := by
          obtain ⟨x, -, hs, ht⟩ := hst
          cases hs
          cases ht
          rfl
        cases hr with
        | ok d hv hst => exact place hst
        | err d he hst => exact place hst

/-- The right process replies in the store as the left one does: in plain states over a stream of
data, and in states inside chunks, with requests answered by the chunks of their numbers. -/
structure Process.Alike (σ : Store W) (A A' : (Int → Stream Value) → Process W) : Prop where
  /-- In plain states the replies are the same. -/
  plain : ∀ (chunks : Int → Stream Value) (i : Stream Value) (x : Elements) (watched : Bool)
      (position : Int) (user : Value) (y : EStateM.Result Stop (Store W) (Finish W)),
    i.Supplies σ x → (∀ v ∈ x, v.Settled) → A chunks (.plain watched i position user) σ y →
    ∃ y', A' chunks (.plain watched i position user) σ y' ∧ Finish.Corresponds y y'
  /-- Inside chunks they are. -/
  chunked : ∀ (chunks : Int → Stream Value) (S : Side) (s : State Value) (x : Place)
      (y : EStateM.Result Stop (Store W) (Finish W)),
    S.Holds σ → S.Sits s x → (∀ n, ∃ z, S.Chunk (chunks n) z) → A chunks s σ y →
    ∃ y', A' chunks s σ y' ∧ Finish.Matches y y'

/-- Processes that track one another reply alike, if they do so wherever parsers of the set and pure
functions correspond to themselves. -/
theorem Process.alike_of_tracks {P : ParserId → Prop} {σ : Store W} (pure : σ.Pure P)
    {A A' : (Int → Stream Value) → Process W}
    (h : ∀ (chunks : Int → Stream Value) (C : Correspondence W) (w : C.World),
      C.Begins chunks P w → C.Tracks w (A chunks) (A' chunks)) : Process.Alike σ A A' where
  plain chunks i x watched position user y hi data run := by
    obtain ⟨κ, r, fits, holds⟩ := hi
    let w : (Storage.setting W).correspondence.World := (.only P, ⟨κ, κ⟩)
    have lawful := (Storage.lawful W).lawful
    have begins : (Storage.setting W).correspondence.Begins chunks P w :=
      .of_pairs lawful (Storage.lawful W).pairs (Storage.tolerant w chunks) rfl
    have stores : (Storage.setting W).correspondence.Stores w σ σ := by
      refine ⟨pure.agree, fits, fits, ?_, ?_⟩
      · rintro i ⟨j, ⟨⟩⟩
      · rintro j ⟨i, ⟨⟩⟩
    obtain ⟨y', run', ends⟩ := h chunks _ w begins w _ (.plain watched i position user) σ σ y
      (lawful.le (lawful.refl w)) stores ⟨x, .plain holds holds data⟩ run
    exact ⟨y', run', Storage.corresponds_ends ends⟩
  chunked chunks S s x y hS hs hch run := by
    let w : (Lineages.correspondence W).World := Lineages.World.mk (.only P) S S x.user
    have chunk (n : Int) : Lineages.Chunks w (chunks n) (chunks n) := by
      obtain ⟨z, hz⟩ := hch n
      exact ⟨z, hz, hz⟩
    have begins : (Lineages.correspondence W).Begins chunks P w :=
      .of_pairs (Lineages.lawful W) (Lineages.pairs W) (Lineages.tolerant chunk) rfl
    have stores : Lineages.Stores w σ σ := ⟨pure.agree.defines, fun _ _ h => h.elim, hS, hS⟩
    obtain ⟨y', run', ends⟩ := h chunks _ w begins w s s σ σ y (Lineages.World.Le.refl w) stores
      ⟨x, rfl, hs, hs⟩ run
    exact ⟨y', run', Lineages.matches_ends ends⟩

/-- What replies alike does so under other names. -/
theorem Process.Alike.congr {σ : Store W} {A A' B B' : (Int → Stream Value) → Process W}
    (alike : Process.Alike σ A A') (hA : ∀ chunks s y, B chunks s σ y ↔ A chunks s σ y)
    (hA' : ∀ chunks s y, B' chunks s σ y ↔ A' chunks s σ y) : Process.Alike σ B B' where
  plain chunks i x watched position user y hi data run := by
    obtain ⟨y', run', same⟩ :=
      alike.plain chunks i x watched position user y hi data ((hA _ _ _).mp run)
    exact ⟨y', (hA' _ _ _).mpr run', same⟩
  chunked chunks S s x y hS hs hch run := by
    obtain ⟨y', run', same⟩ := alike.chunked chunks S s x y hS hs hch ((hA _ _ _).mp run)
    exact ⟨y', (hA' _ _ _).mpr run', same⟩

end ResumableParsing
