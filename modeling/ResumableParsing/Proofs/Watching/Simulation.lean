import ResumableParsing.Proofs.Correspondence.Even
import ResumableParsing.Proofs.Watching.Flags

/-!
# Watched and unwatched runs

A state inside a chunk is moved past its first token in one step if its inner state is an unwatched
plain state, and in three steps, by the parser of the inner state, if it is watched. Both ways fill
the same memory with the same state behind the token, and both look at the chunk in the same order.
So two runs that differ only in who is watched stay at the same place.

* `Aligned`: arrays that correspond element by element
* `Watching.World`, `Watching.Stores`: two stores that differ only in who is watched
* `Watching.even`, `Watching.faithful`: everything but moving past tokens is the same on both sides
-/

namespace ResumableParsing

variable {W α β : Type}

/-! ## Arrays element by element -/

/-- The arrays correspond element by element. -/
structure Aligned (R : α → β → Prop) (a : Array α) (b : Array β) : Prop where
  /-- They have as many elements. -/
  size : a.size = b.size
  /-- The elements correspond. -/
  get : ∀ (i : Nat) (x : α) (y : β), a[i]? = some x → b[i]? = some y → R x y

namespace Aligned

variable {R : α → β → Prop} {a : Array α} {b : Array β} {i : Nat} {x : α} {y : β}

theorem found (h : Aligned R a b) (hx : a[i]? = some x) : ∃ y, b[i]? = some y ∧ R x y := by
  have hi : i < b.size := h.size ▸ (Array.getElem?_eq_some_iff.mp hx).1
  have hy : b[i]? = some b[i] := Array.getElem?_eq_getElem hi
  exact ⟨b[i], hy, h.get i x b[i] hx hy⟩

theorem missing (h : Aligned R a b) (hx : a[i]? = none) : b[i]? = none := by
  rw [Array.getElem?_eq_none_iff] at hx ⊢
  exact h.size ▸ hx

theorem push (h : Aligned R a b) (hxy : R x y) : Aligned R (a.push x) (b.push y) where
  size := by rw [Array.size_push, Array.size_push, h.size]
  get j x' y' hx hy := by
    rw [Array.getElem?_push, h.size] at hx
    rw [Array.getElem?_push] at hy
    split at hx
    · rename_i e
      rw [if_pos e] at hy
      cases hx
      cases hy
      exact hxy
    · rename_i e
      rw [if_neg e] at hy
      exact h.get j x' y' hx hy

theorem modify (h : Aligned R a b) (i : Nat) {f : α → α} {g : β → β}
    (hfg : ∀ x y, a[i]? = some x → b[i]? = some y → R x y → R (f x) (g y)) :
    Aligned R (a.modify i f) (b.modify i g) where
  size := by rw [Array.size_modify, Array.size_modify, h.size]
  get j x y hx hy := by
    rw [Array.getElem?_modify] at hx hy
    split at hx
    · rename_i e
      subst e
      rw [if_pos rfl] at hy
      obtain ⟨x₀, hx₀, rfl⟩ := Option.map_eq_some_iff.mp hx
      obtain ⟨y₀, hy₀, rfl⟩ := Option.map_eq_some_iff.mp hy
      exact hfg x₀ y₀ hx₀ hy₀ (h.get i x₀ y₀ hx₀ hy₀)
    · rename_i e
      rw [if_neg e] at hy
      exact h.get j x y hx hy

end Aligned

/-! ## What corresponds -/

namespace Watching

/-- Both states lie at the same place of a chunk. -/
inductive Within : State Value → State Value → Prop where
  | intro (a : AdvanceId) (chunk : Int) (watched watched' : Bool) (input : Stream Value)
      (position : Int) (user : Value) :
      Within (.chunked a chunk (.plain watched input position user))
        (.chunked a chunk (.plain watched' input position user))

theorem Within.alike {s t : State Value} (h : Within s t) : s.Alike t := by
  cases h
  exact .chunked _ _ (.plain ..)

/-- The same is remembered of the step past a token. -/
inductive Remembers : Advance → Advance → Prop where
  | unknown (token : Option Value) : Remembers ⟨token, none, false⟩ ⟨token, none, false⟩
  | within (token : Option Value) {s t : State Value} :
      Within s t → Remembers ⟨token, some s, false⟩ ⟨token, some t, false⟩
  | across (token : Option Value) (watched watched' : Bool) (input : Stream Value) (position : Int)
      (user : Value) :
      Remembers ⟨token, some (.plain watched input position user), true⟩
        ⟨token, some (.plain watched' input position user), true⟩

/-- As much is known of the results. -/
inductive Slots : Slot Value → Slot Value → Prop where
  | unset : Slots .unset .unset
  | busy : Slots .busy .busy
  | known {v u : Value} : v.Alike u → Slots (.known v) (.known u)

/-- The results are computed by programs that ask the same things, and as much is known of them. -/
structure Results (m n : Memo (Action W Value) Value) : Prop where
  /-- The programs. -/
  thunk : m.thunk.Matches n.thunk
  /-- What is known. -/
  slot : Slots m.slot n.slot

/-- What is known of two runs: the parsers that occur in them, and stores that they have come
through. -/
structure World (W : Type) where
  /-- The parsers. -/
  known : ParserId → Prop
  /-- A store of the left run. -/
  left : Store W
  /-- The store of the right run at that moment. -/
  right : Store W

/-- More is known, and both runs have gone on. -/
structure World.Le (w w' : World W) : Prop where
  /-- The parsers stay. -/
  known : ∀ p, w.known p → w'.known p
  /-- The left run has gone on. -/
  left : w.left.Grows w'.left
  /-- So has the right one. -/
  right : w.right.Grows w'.right

theorem World.Le.refl (w : World W) : w.Le w := ⟨fun _ h => h, .refl _, .refl _⟩

theorem World.Le.trans {w w' w'' : World W} (h : w.Le w') (h' : w'.Le w'') : w.Le w'' :=
  ⟨fun p hp => h'.known p (h.known p hp), h.left.trans h'.left, h.right.trans h'.right⟩

/-- The stores differ only in who is watched. What the caller does with watched tokens does not
reach the world that the functions of the caller look at. -/
structure Stores (w : World W) (σ τ : Store W) : Prop where
  /-- What quiet computations look at is the same. -/
  alike : σ.Alike τ
  /-- Nothing is parsed when streams are read. -/
  still : σ.Still
  /-- The parsers only start one another. -/
  closed : Closed (fun _ => False) w.known σ
  /-- Watching is not seen. -/
  unseen : ∀ token world, σ.watch token world = world
  /-- The same is remembered of all steps past tokens. -/
  advances : Aligned Remembers σ.advances τ.advances
  /-- The same results are waited for or known. -/
  results : Aligned Results σ.results τ.results
  /-- The chunks are the same. -/
  buffers : σ.buffers = τ.buffers
  /-- There are as many sessions. -/
  sessions : σ.sessions.size = τ.sessions.size
  /-- The left run has come through the store of the world. -/
  left : w.left.Grows σ
  /-- So has the right one. -/
  right : w.right.Grows τ

/-- Both stores have changed, and still differ only in who is watched. -/
theorem Stores.change {w : World W} {σ σ' τ τ' : Store W} (h : Stores w σ τ) (left : σ.Grows σ')
    (right : τ.Grows τ') (alike : σ'.Alike τ') (still : σ'.Still)
    (advances : Aligned Remembers σ'.advances τ'.advances)
    (results : Aligned Results σ'.results τ'.results) (buffers : σ'.buffers = τ'.buffers)
    (sessions : σ'.sessions.size = τ'.sessions.size) : Stores w σ' τ' :=
  ⟨alike, still, h.closed.later left, left.watch ▸ h.unseen, advances, results, buffers, sessions,
    h.left.trans left, h.right.trans right⟩

/-- Both runs are remembered to have come through these stores. -/
theorem Stores.observe {w : World W} {σ τ : Store W} (h : Stores w σ τ) :
    w.Le ⟨w.known, σ, τ⟩ ∧ Stores ⟨w.known, σ, τ⟩ σ τ :=
  ⟨⟨fun _ hp => hp, h.left, h.right⟩, { h with left := .refl σ, right := .refl τ }⟩

/-- Both states are about to be moved past their first token. -/
inductive Moving : (Continuation W → Task W) → (Continuation W → Task W) → Prop where
  | cross (a : AdvanceId) (chunk : Int) (watched watched' : Bool) (input : Stream Value)
      (position : Int) (user : Value) :
      Moving (fun k => .cross a chunk (.plain watched input position user) k)
        (fun k => .cross a chunk (.plain watched' input position user) k)

/-- What corresponds in two runs that differ only in who is watched. -/
def correspondence (W : Type) : Correspondence W where
  World := World W
  Le := World.Le
  During := World.Le
  Stores := Stores
  Values _ v u := v = u
  Tokens _ v u := v = u
  Parsers w p q := p = q ∧ w.known p
  Binders w f g := f = g ∧ Correspondence.Binder w.known f
  States _ := Within
  Occupied _ := Within
  Moving _ := Moving
  Pausing _ _ _ _ := False

/-! ## Everything but moving past tokens -/

/-- Values and parsers are the same on both sides. -/
theorem even (W : Type) : (correspondence W).Even World.known where
  refl := World.Le.refl
  trans h h' := World.Le.trans h h'
  during_trans h h' := World.Le.trans h h'
  le h := h
  values := Iff.rfl
  tokens := Iff.rfl
  parsers := Iff.rfl
  binders := Iff.rfl
  known_mono hle := World.Le.known hle _
  alike h := Stores.alike h
  still h := Stores.still h
  closed h := Stores.closed h
  later := by
    intro w σ τ σ' τ' h alike still grows grows' clear clear'
    have h : Stores w σ τ := h
    refine h.change grows grows' alike still ?_ ?_ ?_ ?_
    · rw [clear.advances, clear'.advances]
      exact h.advances
    · rw [clear.results, clear'.results]
      exact h.results
    · rw [clear.buffers, clear'.buffers]
      exact h.buffers
    · rw [clear.sessions, clear'.sessions]
      exact h.sessions
  learn := by
    intro w σ τ P h hP closed
    have h : Stores w σ τ := h
    have le : w.Le { w with known := P } := ⟨hP, .refl _, .refl _⟩
    exact ⟨{ w with known := P }, le, { h with closed := closed }, fun _ hp => hp⟩

section

variable {w : World W} {s t : State Value}

/-- Changes of both stores that always succeed. -/
theorem runs_change {x : Eval W α} {y : Eval W β} {f : Store W → α × Store W}
    {g : Store W → β × Store W} {Q : World W → α → β → Prop}
    (hx : ∀ m σ, x m σ = .ok (f σ).1 (f σ).2) (hy : ∀ m σ, y m σ = .ok (g σ).1 (g σ).2)
    (composed : Composed x) (composed' : Composed y)
    (h : ∀ w' σ τ, w.Le w' → Stores w' σ τ → σ.Grows (f σ).2 → τ.Grows (g τ).2 →
      ∃ w'', w'.Le w'' ∧ Stores w'' (f σ).2 (g τ).2 ∧ Q w'' (f σ).1 (g τ).1) :
    (correspondence W).Runs w Q x y := by
  intro w' σ τ r hle hs hr
  have left := comes_change hx σ
  have right := comes_change hy τ
  cases hr.unique left
  exact ⟨_, right, h w' σ τ hle hs (composed.grows_of_comes left) (composed'.grows_of_comes right)⟩

theorem runs_modifyGet {f : Store W → α × Store W} {g : Store W → β × Store W}
    {Q : World W → α → β → Prop} (composed : Composed (modifyGet f : Eval W α))
    (composed' : Composed (modifyGet g : Eval W β))
    (h : ∀ w' σ τ, w.Le w' → Stores w' σ τ → σ.Grows (f σ).2 → τ.Grows (g τ).2 →
      ∃ w'', w'.Le w'' ∧ Stores w'' (f σ).2 (g τ).2 ∧ Q w'' (f σ).1 (g τ).1) :
    (correspondence W).Runs w Q (modifyGet f) (modifyGet g) :=
  runs_change (fun _ _ => rfl) (fun _ _ => rfl) composed composed' h

/-- There is a token on both sides or on none. -/
theorem runs_isEmpty (h : Within s t) : (correspondence W).Runs w
    (fun _ a b => a = b ∧ (a = false → Within s t)) s.input.isEmpty t.input.isEmpty := by
  rw [h.alike.input_eq]
  exact (even W).imp ((even W).runs_quiet (quiet_isEmpty t.input))
    fun _ _ _ _ e => ⟨e.1, fun _ => h⟩

/-- It is the same token. -/
theorem runs_first (h : Within s t) :
    (correspondence W).Runs w (correspondence W).Tokens s.input.first t.input.first := by
  rw [h.alike.input_eq]
  exact (even W).imp ((even W).runs_quiet (quiet_first t.input)) fun _ _ _ _ e => e.1

/-- The memory of the step past a token changes alike on both sides. -/
theorem runs_alter (a : AdvanceId) {f g : Advance → Advance}
    (h : ∀ m n, Remembers m n → Remembers (f m) (g n)) :
    (correspondence W).Runs w (fun _ _ _ => True) (a.alter f) (a.alter g) := by
  refine runs_change (fun _ _ => rfl) (fun _ _ => rfl) (composed_alter a f) (composed_alter a g)
    (f := fun σ => ((), { σ with advances := σ.advances.modify a.index f }))
    (g := fun τ => ((), { τ with advances := τ.advances.modify a.index g }))
    fun w' σ τ _ hs left right => ⟨w', .refl w', ?_, trivial⟩
  exact hs.change left right { hs.alike with } hs.still
    (hs.advances.modify _ fun m n _ _ hmn => h m n hmn) hs.results hs.buffers hs.sessions

/-- Both states are asked to move past the token. -/
theorem runs_next (h : Within s t) (v : Value) (k l : Continuation W) :
    (correspondence W).Runs w
      (fun _ x y => ∃ m m', Moving m m' ∧ x = m k ∧ y = m' l) (s.next v k) (t.next v l) := by
  cases h with
  | intro a chunk watched watched' input position user =>
    refine (even W).bind (composed_alter a _) (runs_alter a fun m n hmn => ?_) fun w' _ _ _ _ =>
      (even W).pure fun _ _ => ⟨_, _, .cross a chunk watched watched' input position user, rfl, rfl⟩
    cases hmn with
    | unknown => exact .unknown _
    | within _ hst => exact .within _ hst
    | across => exact .across ..

/-- As long as they do not move past tokens, the runs stay at the same place. -/
theorem faithful (W : Type) : (correspondence W).Faithful where
  toOrdered := (even W).toOrdered
  values_mono _ h := h
  tokens_mono _ h := h
  parsers_mono hle h := ⟨h.1, World.Le.known hle _ h.2⟩
  binders_mono hle h := ⟨h.1, h.2.mono (World.Le.known hle)⟩
  states_mono _ h := h
  occupied_mono _ h := h
  moving_mono _ h := h
  tokens_values h := h
  position h := (Within.alike h).position_eq
  none _ := rfl
  nil _ := rfl
  ignore h := congrArg Value.ignore h
  binders := (even W).runs_built
  found := (even W).found
  debug _ := (even W).runs_debug
  serial _ := (even W).imp ((even W).runs_quiet .serial) fun _ _ _ _ _ => trivial
  isEmpty := runs_isEmpty
  first := runs_first
  render hs h := by
    cases h
    exact (Stores.alike hs).render _
  join := (even W).join
  next h v u hv := by
    cases hv
    exact runs_next h v

end

end Watching

end ResumableParsing
