import ResumableParsing.Proofs.Grammar.Core

/-!
# What programs in direct style come to

A program comes to something if it does so within every bound that is large enough. What a parser
comes to is found by following its run function.

* `Direct.Comes`: what a program comes to without asking for chunks
* `Direct.Comes.act`, `Direct.Comes.call`: one step after another
* `Direct.Comes.reply`, `Direct.Comes.stop`: so the run of a parser comes to the same
* `ParserId.Runs.comes`, `ParserId.Captured.comes`: run functions
-/

namespace ResumableParsing

variable {W : Type}

/-- Without asking for chunks, and within every bound that is large enough, the program comes to
`u`. -/
def Direct.Comes (x : Direct W (Reply Value)) (σ : Store W) (u : Upshot) (τ : Store W) : Prop :=
  ∃ n₀, ∀ n ≥ n₀, x.Ends (.within n) σ [] u τ

/-- The program does not wait for a chunk. -/
def Upshot.IsOver : Upshot → Prop
  | .reply _ => True
  | .stop _ => True
  | .waits _ => False

namespace Direct.Comes

variable {β : Type} {σ σ₁ τ : Store W} {u : Upshot} {r : Reply Value} {e : Stop} {j : Job W}
  {k : Reply Value → Direct W (Reply Value)}

theorem done (r : Reply Value) (σ : Store W) : (Direct.done r : Direct W _).Comes σ (.reply r) σ :=
  ⟨0, fun _ _ => .done⟩

theorem act {x : Eval W β} {f : β → Direct W (Reply Value)} {b : β} (hx : x.Comes σ (.ok b σ₁))
    (hf : (f b).Comes σ₁ u τ) : (Direct.act x f).Comes σ u τ := by
  obtain ⟨-, n, hx⟩ := hx
  obtain ⟨n', hf⟩ := hf
  exact ⟨max n n', fun m hm => .act (hx m (by omega)) (hf m (by omega))⟩

/-- What comes after a step that is known. -/
theorem of_act {x : Eval W β} {f : β → Direct W (Reply Value)} {b : β}
    (hx : x.Comes σ (.ok b σ₁)) (h : (Direct.act x f).Comes σ u τ) : (f b).Comes σ₁ u τ := by
  obtain ⟨-, n, hx⟩ := hx
  obtain ⟨n', h⟩ := h
  refine ⟨max n n', fun m hm => ?_⟩
  have first : x (.within m) σ = .ok b σ₁ := hx m (by omega)
  cases h m (by omega) with
  | act e ends =>
    cases first.symm.trans e
    exact ends
  | actStop e => cases first.symm.trans e

theorem actStop {x : Eval W β} {f : β → Direct W (Reply Value)} (hx : x.Comes σ (.error e τ)) :
    (Direct.act x f).Comes σ (.stop e) τ := by
  obtain ⟨-, n, hx⟩ := hx
  exact ⟨n, fun m hm => .actStop (hx m hm)⟩

theorem call (hj : j.direct.Comes σ (.reply r) σ₁) (hk : (k r).Comes σ₁ u τ) :
    (Direct.call j k).Comes σ u τ := by
  obtain ⟨n, hj⟩ := hj
  obtain ⟨n', hk⟩ := hk
  exact ⟨max n n', fun m hm => .call (hj m (by omega)) (hk m (by omega))⟩

theorem callStop (hj : j.direct.Comes σ (.stop e) τ) : (Direct.call j k).Comes σ (.stop e) τ := by
  obtain ⟨n, hj⟩ := hj
  exact ⟨n, fun m hm => .callStop (hj m hm)⟩

/-- A job that is started, and whose reply is the reply of the program. -/
theorem start (hu : u.IsOver) (hj : j.direct.Comes σ u τ) :
    (Direct.reply j).Comes σ u τ := by
  cases u with
  | reply r => exact call hj (done r τ)
  | stop e => exact callStop hj
  | waits n => exact hu.elim

/-- What such a program comes to, the job does. -/
theorem started (hu : u.IsOver) (h : (Direct.reply j).Comes σ u τ) : j.direct.Comes σ u τ := by
  obtain ⟨n₀, h⟩ := h
  refine ⟨n₀, fun n hn => ?_⟩
  have ends := h n hn
  generalize hcs : ([] : Answers) = cs at ends
  cases ends with
  | @call _ _ r _ σ₁ _ cs ds _ hj hk =>
    obtain ⟨rfl, rfl⟩ := List.append_eq_nil_iff.mp hcs.symm
    cases hk
    exact hj
  | callStop hj =>
    subst hcs
    exact hj
  | callWaits hj => exact hu.elim

/-! ### Runs of parsers -/

variable {p : ParserId} {s : State Value}

/-- The run of a parser comes to the reply. -/
theorem reply (h : (Job.parser p s).direct.Comes σ (.reply r) τ) :
    (p.run s).Comes σ (.ok (.reply r) τ) := by
  obtain ⟨n, h⟩ := h
  exact comes_of_evaluates (h n (Nat.le_refl n))

/-- The run of a parser breaks off. -/
theorem stop (h : (Job.parser p s).direct.Comes σ (.stop e) τ) (he : e ≠ .exhausted) :
    (p.run s).Comes σ (.error e τ) := by
  obtain ⟨n, h⟩ := h
  obtain ⟨k, run⟩ := runFor_of_evaluates [] (h n (Nat.le_refl n))
  have ends : (Task.run p s []).runFor (1 + k) (.within n) σ = .error e τ := run 1
  obtain ⟨j, reaches⟩ := reaches_of_runFor ends (not_exhausted_error he)
  exact comes_complete.mpr ⟨j, reaches⟩

end Direct.Comes

/-! ## Run functions -/

section

variable {σ τ : Store W} {p : ParserId} {code : Code W} {s : State Value} {u : Upshot}

theorem comes_found {c : Cell W} (h : σ.parsers[p.index]? = some c) : p.found.Comes σ (.ok c σ) :=
  comes_of_forall (fun n => found_eq h (.within n)) not_exhausted_ok

theorem composed_found (p : ParserId) : Composed (p.found : Eval W (Cell W)) :=
  .bind .get fun _ => .deref _

theorem comes_debug (message : Store W → String) (σ : Store W) :
    ∃ σ₁, σ.Noted σ₁ ∧ (Eval.debug message).Comes σ (.ok () σ₁) := by
  refine ⟨σ.noted (message σ), .noted _ σ, ?_⟩
  exact comes_of_forall (fun n => Eval.run_debug message (.within n) σ) not_exhausted_ok

/-- A parser comes to what its run function comes to, perhaps after the attempt has been logged. -/
theorem ParserId.Runs.comes (h : p.Runs σ code) (s : State Value) : ∃ σ₁, σ.Noted σ₁ ∧
    ∀ u τ, u.IsOver → (Job.code code s).direct.Comes σ₁ u τ →
      (Job.parser p s).direct.Comes σ u τ := by
  obtain ⟨c, hc, ⟨hd, -⟩ | ⟨hd, hl⟩⟩ := h
  · refine ⟨σ, .refl σ, fun u τ hu h => .act (comes_found hc) ?_⟩
    rw [Direct.done_bind, hd]
    exact .start hu h
  · obtain ⟨σ₁, noted, debug⟩ := comes_debug (fun σ => "trying " ++ σ.parserName p) σ
    refine ⟨σ₁, noted, fun u τ hu h => .act (comes_found hc) ?_⟩
    rw [Direct.done_bind, hd]
    refine .act debug (.act (comes_found (noted.parsers ▸ hc)) ?_)
    rw [Direct.done_bind, hl]
    exact .start hu h

/-- What a parser comes to, the run function comes to that another definition captures. -/
theorem ParserId.Captured.comes (h : p.Captured σ code) (hu : u.IsOver)
    (hp : (Job.parser p s).direct.Comes σ u τ) : (Job.code code s).direct.Comes σ u τ := by
  obtain ⟨c, hc, rfl⟩ := h
  -- The cell is looked up first, and the rest is what the run function does.
  have rest := hp.of_act (comes_found hc)
  rw [Direct.done_bind] at rest
  rw [Cell.code]
  cases hd : c.direct with
  | some code =>
    rw [hd] at rest
    exact rest.started hu
  | none =>
    rw [hd] at rest
    exact rest

end

end ResumableParsing
