import ResumableParsing.Proofs.Store.Comes
import ResumableParsing.Proofs.Store.Quiet

/-!
# Quiet computations are blind

A quiet computation cannot tell stores apart that are alike: it has the same outcome in both of
them, leaves stores that are alike, and changes nothing that belongs to states, results and
sessions. For that the tails in the stores must be quiet as well.

* `Store.Still`: all tails are quiet
* `Store.Beside`, `Store.Clear`: nothing has changed that belongs to parsers, states, results and
  sessions, or to the last three
* `Twins`: the same outcome in two stores
* `Quiet.twins`: quiet computations have the same outcome in stores that are alike
-/

namespace ResumableParsing

variable {W α β : Type}

/-- All tails are quiet. -/
def Store.Still (σ : Store W) : Prop :=
  ∀ (i : Nat) (x : Memo (Tail W) (Option (Stream Value))), σ.tails[i]? = some x → x.thunk.Quiet

/-- What quiet computations leave alone is the same. -/
structure Store.Beside (σ τ : Store W) : Prop where
  /-- Parsers. -/
  parsers : τ.parsers = σ.parsers
  /-- Memories of states inside chunks. -/
  advances : τ.advances = σ.advances
  /-- Results. -/
  results : τ.results = σ.results
  /-- Buffers. -/
  buffers : τ.buffers = σ.buffers
  /-- Sessions. -/
  sessions : τ.sessions = σ.sessions

theorem Store.Beside.refl (σ : Store W) : σ.Beside σ := ⟨rfl, rfl, rfl, rfl, rfl⟩

theorem Store.Beside.trans {σ τ υ : Store W} (h : σ.Beside τ) (h' : τ.Beside υ) : σ.Beside υ :=
  ⟨h'.parsers.trans h.parsers, h'.advances.trans h.advances, h'.results.trans h.results,
    h'.buffers.trans h.buffers, h'.sessions.trans h.sessions⟩

/-- What belongs to states, results and sessions is the same. -/
structure Store.Clear (σ τ : Store W) : Prop where
  /-- Memories of states inside chunks. -/
  advances : τ.advances = σ.advances
  /-- Results. -/
  results : τ.results = σ.results
  /-- Buffers. -/
  buffers : τ.buffers = σ.buffers
  /-- Sessions. -/
  sessions : τ.sessions = σ.sessions

theorem Store.Clear.refl (σ : Store W) : σ.Clear σ := ⟨rfl, rfl, rfl, rfl⟩

theorem Store.Beside.clear {σ τ : Store W} (h : σ.Beside τ) : σ.Clear τ :=
  ⟨h.advances, h.results, h.buffers, h.sessions⟩

/-- The same outcome, in stores that are alike. On the right the computation began in `τ`. -/
def Twins (τ : Store W) :
    EStateM.Result Stop (Store W) α → EStateM.Result Stop (Store W) α → Prop
  | .ok a σ, .ok b τ' => a = b ∧ σ.Alike τ' ∧ σ.Still ∧ τ.Beside τ'
  | .error e σ, .error f τ' => e = f ∧ σ.Alike τ' ∧ σ.Still ∧ τ.Beside τ'
  | _, _ => False

/-- The computation has the same outcome in stores that are alike. -/
def Blind (m : Means W) (x : Eval W α) : Prop :=
  ∀ σ τ : Store W, σ.Alike τ → σ.Still → Twins τ (x m σ) (x m τ)

section

variable {m : Means W} {σ τ υ : Store W}

theorem Twins.beside {r r' : EStateM.Result Stop (Store W) α} (h : Twins τ r r')
    (k : υ.Beside τ) : Twins υ r r' := by
  cases r with
  | ok a σ =>
    cases r' with
    | ok b τ' => exact ⟨h.1, h.2.1, h.2.2.1, k.trans h.2.2.2⟩
    | error e τ' => exact h
  | error e σ =>
    cases r' with
    | ok b τ' => exact h
    | error f τ' => exact ⟨h.1, h.2.1, h.2.2.1, k.trans h.2.2.2⟩

theorem Blind.bind {x : Eval W α} {f : α → Eval W β} (hx : Blind m x) (hf : ∀ a, Blind m (f a)) :
    Blind m (x >>= f) := by
  intro σ τ alike still
  have h := hx σ τ alike still
  rw [Eval.run_bind, Eval.run_bind]
  cases e : x m σ with
  | ok a σ₁ =>
    cases e' : x m τ with
    | ok b τ₁ =>
      rw [e, e'] at h
      obtain ⟨rfl, alike₁, still₁, beside⟩ := h
      exact (hf a σ₁ τ₁ alike₁ still₁).beside beside
    | error f τ₁ =>
      rw [e, e'] at h
      exact h.elim
  | error e₁ σ₁ =>
    cases e' : x m τ with
    | ok b τ₁ =>
      rw [e, e'] at h
      exact h.elim
    | error f τ₁ =>
      rw [e, e'] at h
      exact h

theorem Quiet.blind (ht : ∀ i, Blind m (Eval.force (.tail i)))
    (hc : ∀ i, Blind m (Eval.force (.cell i))) {x : Eval W α} (h : Quiet x) : Blind m x := by
  induction h with
  | change f hf hq =>
    intro σ τ alike still
    rw [hf, hf]
    obtain ⟨h₁, h₂⟩ := hq.alike alike
    refine ⟨h₁, h₂, fun i x hx => ?_, hq.parsers τ, hq.advances τ, hq.results τ, hq.buffers τ,
      hq.sessions τ⟩
    rcases hq.tails σ i x hx with hx | hx
    · exact still i x hx
    · exact hx
  | stop e => exact fun σ τ alike still => ⟨rfl, alike, still, .refl τ⟩
  | bind _ _ ihx ihf => exact ihx.bind ihf
  | tail i => exact ht i
  | cell i => exact hc i
  | loop _ _ ih => exact fun σ τ => ih m.steps σ τ

/-! ## Deferred parts -/

/-- Where a shelf belongs to what is alike. -/
structure Shelf.Common {θ : Type} (shelf : Shelf W θ α) : Prop where
  /-- The same parts are found. -/
  find : ∀ {σ τ : Store W} (i : Nat), σ.Alike τ → shelf.find i σ = shelf.find i τ
  /-- Replacing what is known leaves stores alike. -/
  put : ∀ {σ τ : Store W} (i : Nat) (slot : Slot α), σ.Alike τ →
    (shelf.put i slot σ).Alike (shelf.put i slot τ)
  /-- It does not change what computes tails. -/
  still : ∀ {σ : Store W} (i : Nat) (slot : Slot α), σ.Still → (shelf.put i slot σ).Still
  /-- It changes nothing else. -/
  beside : ∀ (σ : Store W) (i : Nat) (slot : Slot α), σ.Beside (shelf.put i slot σ)

theorem Store.Still.putTail (h : σ.Still) (i : Nat) (slot : Slot (Option (Stream Value))) :
    (Shelf.tails.put i slot σ).Still := by
  intro j x hx
  obtain ⟨y, hy, same⟩ := Memo.thunk_putSlot hx
  rw [same]
  exact h j y hy

theorem Shelf.common_tails : (tails : Shelf W _ _).Common where
  find i h := by simp only [tails, h.tails]
  put i slot h := { h with tails := by simp only [tails, h.tails] }
  still i slot h := h.putTail i slot
  beside σ i slot := ⟨rfl, rfl, rfl, rfl, rfl⟩

theorem Shelf.common_cells : (cells : Shelf W _ _).Common where
  find i h := by simp only [cells, h.cells]
  put i slot h := { h with cells := by simp only [cells, h.cells] }
  still i slot h := h
  beside σ i slot := ⟨rfl, rfl, rfl, rfl, rfl⟩

/-- Stores that are alike give the same values of deferred parts. -/
theorem Shelf.Common.blind {θ : Type} {shelf : Shelf W θ α} (h : shelf.Common)
    {compute : θ → Eval W α} (m' : Means W) {i : Nat}
    (hc : ∀ (σ : Store W) (y : Memo θ α), σ.Still → shelf.find i σ = some y →
      Blind m (compute y.thunk)) :
    Blind m' fun _ => shelf.get i fun t => compute t m := by
  intro σ τ alike still
  change Twins τ (shelf.get i _ σ) (shelf.get i _ τ)
  rw [Shelf.get, Shelf.get, ← h.find i alike]
  cases hy : shelf.find i σ with
  | none => exact ⟨rfl, alike, still, .refl τ⟩
  | some y =>
    simp only
    cases y.slot with
    | known a => exact ⟨rfl, alike, still, .refl τ⟩
    | busy => exact ⟨rfl, alike, still, .refl τ⟩
    | unset =>
      simp only
      have twins := hc σ y still hy _ _ (h.put i .busy alike) (h.still i .busy still)
      have twins := twins.beside (h.beside τ i .busy)
      cases e : compute y.thunk m (shelf.put i .busy σ) with
      | ok a σ₁ =>
        cases e' : compute y.thunk m (shelf.put i .busy τ) with
        | error f τ₁ =>
          rw [e, e'] at twins
          exact twins.elim
        | ok b τ₁ =>
          rw [e, e'] at twins
          obtain ⟨rfl, alike₁, still₁, beside⟩ := twins
          exact ⟨rfl, h.put i _ alike₁, h.still i _ still₁, beside.trans (h.beside τ₁ i _)⟩
      | error e₁ σ₁ =>
        cases e' : compute y.thunk m (shelf.put i .busy τ) with
        | ok b τ₁ =>
          rw [e, e'] at twins
          exact twins.elim
        | error f τ₁ =>
          rw [e, e'] at twins
          obtain ⟨rfl, alike₁, still₁, beside⟩ := twins
          exact ⟨rfl, h.put i _ alike₁, h.still i _ still₁, beside.trans (h.beside τ₁ i _)⟩

end

theorem blind_force (n : Nat) : (∀ i, Blind (.within n) (Eval.force (.tail i) : Eval W _)) ∧
    ∀ i, Blind (.within n) (Eval.force (.cell i) : Eval W _) := by
  induction n with
  | zero =>
    constructor
    · exact fun i σ τ alike still => ⟨rfl, alike, still, .refl τ⟩
    · exact fun i σ τ alike still => ⟨rfl, alike, still, .refl τ⟩
  | succ n ih =>
    constructor
    · intro i
      exact Shelf.common_tails.blind (.within (n + 1)) fun σ y still hy =>
        (quiet_compute (still i.index y hy)).blind ih.1 ih.2
    · intro i
      exact Shelf.common_cells.blind (.within (n + 1)) fun σ y still hy =>
        (quiet_pull y.thunk).blind ih.1 ih.2

/-- Quiet computations have the same outcome in stores that are alike. -/
theorem Quiet.twins {x : Eval W α} (h : Quiet x) (n : Nat) : Blind (.within n) x :=
  h.blind (blind_force n).1 (blind_force n).2

/-- What a quiet computation comes to in one store, it comes to in the other one. -/
theorem Quiet.comes {x : Eval W α} (h : Quiet x) {σ τ : Store W} (alike : σ.Alike τ)
    (still : σ.Still) {r : EStateM.Result Stop (Store W) α} (hr : x.Comes σ r) :
    ∃ r', x.Comes τ r' ∧ Twins τ r r' := by
  obtain ⟨he, n, hr⟩ := hr
  have twins := h.twins n σ τ alike still
  rw [show x (.within n) σ = r from hr n (Nat.le_refl n)] at twins
  refine ⟨x (.within n) τ, h.composed.comes rfl ?_, twins⟩
  rintro ⟨υ, e⟩
  rw [show x (.within n) τ = _ from e] at twins
  cases r with
  | ok a σ' => exact twins
  | error e σ' =>
    obtain ⟨rfl, -⟩ := twins
    exact he ⟨σ', rfl⟩

/-- A quiet computation leaves alone what belongs to parsers, states, results and sessions. -/
theorem Quiet.beside {x : Eval W α} (h : Quiet x) {σ : Store W} (still : σ.Still)
    {r : EStateM.Result Stop (Store W) α} (hr : x.Comes σ r) : σ.Beside (left r) := by
  obtain ⟨r', hr', twins⟩ := h.comes (.refl σ) still hr
  cases hr.unique hr'
  cases r with
  | ok a σ' => exact twins.2.2.2
  | error e σ' => exact twins.2.2.2

end ResumableParsing
