import Mathlib.Logic.Relation
import ResumableParsing.Proofs.Stream.Account

/-!
# Streams that share an iterator

Any number of streams may be read from one iterator. Each cell of theirs asks it when it is asked
for the first time, so every element that the iterator gives is kept in exactly one cell, and along
each stream the elements stand in the order in which they have been taken.

* `IteratorId.Aloof`: asking the iterator leaves its cells alone
* `Sharing`, `Sharing.Step`: streams over one iterator, and what is done with them
* `Sharing.Step.kept`: every step keeps the account of the cells
* `Sharing.Fair`: how the streams answer
* `iterators_are_taken_once`: so every history leaves it
-/

namespace ResumableParsing

variable {W : Type}

/-! ## Asking an iterator -/

/-- As long as `I` holds, asking the iterator leaves the cells alone that are filled from it. It is
not asked by itself on the way. -/
structure IteratorId.Aloof (it : IteratorId) (I : Store W → Prop) : Prop where
  /-- The cells stay as they are when the iterator is asked. -/
  asks : ∀ {σ : Store W} {z : EStateM.Result Stop (Store W) (Option Value)}, I σ →
    it.next.Comes σ z → I (left z) ∧ (left z).over it = σ.over it
  /-- Something else is known of one of the cells. -/
  put : ∀ {σ : Store W} {c : CellId} {slot : CellSlot} (slot' : CellSlot), I σ →
    σ.over it c = some slot → I (Shelf.cells.put c.index slot' σ)
  /-- There is another cell. -/
  push : ∀ {σ : Store W}, I σ → I { σ with cells := σ.cells.push ⟨it, .unset⟩ }

/-- An iterator that does not walk along a stream. -/
def Iterator.Plain : Iterator W → Prop
  | .walk .. => False
  | _ => True

theorem Iterator.Plain.moved {x : Iterator W} (h : x.Plain) : x.moved.Plain := by
  cases x with
  | walk => exact h
  | _ => trivial

/-- What such an iterator answers, and the world then. -/
def Iterator.answer : Iterator W → W → Except Stop (Option Value) × W
  | .caller answer asked, w =>
    let (p, w) := answer asked w
    (match p with
      | .item v => .ok (some v)
      | .finished => .ok none
      | .failed f => .error (.raised f), w)
  | .items q i, w => (.ok (q.items.get? i), w)
  | .walk .., w => (.ok none, w)
  | .spent, w => (.ok none, w)

/-- An answer with the store that is left. -/
def answered (a : Except Stop (Option Value)) (σ : Store W) :
    EStateM.Result Stop (Store W) (Option Value) :=
  match a with
  | .ok o => .ok o σ
  | .error e => .error e σ

theorem left_answered (a : Except Stop (Option Value)) (σ : Store W) :
    left (answered a σ) = σ := by
  cases a <;> rfl

/-- What it comes to when such an iterator is asked. It moves on by one. -/
def IteratorId.respond (it : IteratorId) (now : Iterator W) (σ : Store W) :
    EStateM.Result Stop (Store W) (Option Value) :=
  answered (now.answer σ.world).1 { σ with
    iterators := σ.iterators.modify it.index Iterator.moved
    world := (now.answer σ.world).2 }

/-- The answer without the store. -/
def outcome : EStateM.Result Stop (Store W) (Option Value) → Except Stop (Option Value)
  | .ok o _ => .ok o
  | .error e _ => .error e

section

variable {σ : Store W} {it : IteratorId} {now : Iterator W}

/-- Such an iterator answers within every bound. -/
theorem exec_next (found : σ.iterators[it.index]? = some now) (plain : now.Plain) (n : Nat) :
    it.next.exec n σ = it.respond now σ := by
  cases now with
  | walk => exact plain.elim
  | spent =>
    simp [Eval.exec, IteratorId.next, IteratorId.alter, found, Iterator.answer, answered,
      IteratorId.respond]
  | items q i =>
    simp [Eval.exec, IteratorId.next, IteratorId.alter, found, Iterator.answer, answered,
      IteratorId.respond]
  | caller answer asked =>
    cases given : (answer asked σ.world).1 <;>
      simp [Eval.exec, IteratorId.next, IteratorId.alter, found, Iterator.answer, answered,
        IteratorId.respond, given]

/-- So it always answers. -/
theorem comes_next (found : σ.iterators[it.index]? = some now) (plain : now.Plain) :
    it.next.Comes σ (it.respond now σ) := by
  refine comes_of_forall (exec_next found plain) ?_
  rintro ⟨τ, exhausted⟩
  cases now with
  | walk => exact plain.elim
  | spent => cases exhausted
  | items q i => cases exhausted
  | caller answer asked =>
    cases given : (answer asked σ.world).1 <;>
      simp [IteratorId.respond, Iterator.answer, answered, given] at exhausted

/-- Asking such an iterator leaves its cells alone. -/
theorem IteratorId.aloof_plain (it : IteratorId) :
    it.Aloof fun σ : Store W => ∃ now, σ.iterators[it.index]? = some now ∧ now.Plain where
  asks := by
    rintro σ z ⟨now, found, plain⟩ hz
    cases hz.unique (comes_next found plain)
    rw [IteratorId.respond, left_answered]
    refine ⟨⟨now.moved, ?_, ?_⟩, rfl⟩
    · rw [Array.getElem?_modify, if_pos rfl, found]
      rfl
    · exact plain.moved
  put slot' h _ := h
  push h := h

end

/-! ## Streams over one iterator -/

/-- Streams over one iterator, and what has been done with them. -/
structure Sharing (W : Type) where
  /-- The store. -/
  store : Store W
  /-- The first cells of the streams that have been made. -/
  made : List CellId := []
  /-- The streams that somebody holds. -/
  held : List (Stream Value) := []
  /-- The cells that have been asked. -/
  asked : List CellId := []
  /-- The answers of the iterator. -/
  given : List (Except Stop (Option Value)) := []

/-- The elements that the iterator has given. -/
def Sharing.taken (r : Sharing W) : List Value :=
  r.given.filterMap fun | .ok o => o | .error _ => none

/-- What a question to a stream asks for: the cells that it looks at, and the answers that it gets
from the iterator. -/
inductive Stream.Requires (it : IteratorId) (σ : Store W) :
    Stream Value → List CellId → List (Except Stop (Option Value)) → Prop where
  | nil : Requires it σ .nil [] []
  | known {c : CellId} {o : Option (Value × Stream Value)} :
      σ.over it c = some (.known o) → Requires it σ (.pulled c) [c] []
  | unset {c : CellId} {z : EStateM.Result Stop (Store W) (Option Value)} :
      σ.over it c = some .unset → it.next.Comes (c.busy σ) z →
      Requires it σ (.pulled c) [c] [outcome z]

/-- What is done with the streams: another one is made, one of them is asked, or something else
happens, as long as nobody else asks the iterator or reads its cells. -/
inductive Sharing.Step (it : IteratorId) (I : Store W → Prop) : Sharing W → Sharing W → Prop where
  | asStream {r : Sharing W} {c : CellId} {τ : Store W} :
      (Source.iterator it).asStream.Comes r.store (.ok (.pulled c) τ) → Step it I r
        { r with store := τ, made := c :: r.made, held := .pulled c :: r.held }
  | fromIterable {r : Sharing W} {c : CellId} {τ : Store W} :
      (Source.iterator it).fromIterable.Comes r.store (.ok (.pulled c) τ) → Step it I r
        { r with store := τ, made := c :: r.made, held := .pulled c :: r.held }
  | ask {r : Sharing W} {s : Stream Value} {q : Stream.Question} {cs : List CellId}
      {as : List (Except Stop (Option Value))}
      {y : EStateM.Result Stop (Store W) Stream.Finding} : s ∈ r.held →
      (s.ask q).Comes r.store y → s.Requires it r.store cs as → Step it I r
        { r with
          store := left y
          held := Stream.holds r.held y
          asked := cs ++ r.asked
          given := r.given ++ as }
  | other {r : Sharing W} {τ : Store W} : I τ → τ.over it = r.store.over it →
      τ.iterators[it.index]? = r.store.iterators[it.index]? → Step it I r { r with store := τ }

/-- Before any stream is made. -/
def Sharing.start (σ : Store W) : Sharing W := { store := σ }

/-- How the streams answer. -/
structure Sharing.Fair (it : IteratorId) (I : Store W → Prop) (σ₀ : Store W) (r : Sharing W) :
    Prop where
  /-- Streams that are held are at the end or at a cell that is filled from the iterator. -/
  held : ∀ s ∈ r.held, s = .nil ∨ ∃ c, s = .pulled c ∧ (r.store.over it c).isSome
  /-- A cell that has been determined answers from what is known of it. -/
  known : ∀ (c : CellId) (o : Option (Value × Stream Value)) (q : Stream.Question),
    r.store.over it c = some (.known o) →
    ((Stream.pulled c).ask q).Comes r.store (q.found o r.store)
  /-- It answers the same for ever, and the answers of the iterator are only added to. -/
  later : ∀ r', Relation.ReflTransGen (Sharing.Step it I) r r' → r.given <+: r'.given ∧
    ∀ c o, r.store.over it c = some (.known o) → r'.store.over it c = some (.known o)
  /-- Any other cell asks the iterator, just once. -/
  unset : ∀ (c : CellId) (q : Stream.Question) y, r.store.over it c = some .unset →
    (((Stream.pulled c).ask q).Comes r.store y ↔
      ∃ z, it.next.Comes (c.busy r.store) z ∧ y = c.filled it q z)
  /-- If the iterator raises a fault, so does the stream. Nothing is stored, and the cell is tried
  again the next time. -/
  raises : ∀ (c : CellId) (q : Stream.Question) e υ, r.store.over it c = some .unset →
    it.next.Comes (c.busy r.store) (.error e υ) →
    ∃ τ, ((Stream.pulled c).ask q).Comes r.store (.error e τ) ∧ τ.over it = r.store.over it
  /-- Whatever is asked is a step, and a walk is a series of them. -/
  asks : ∀ s ∈ r.held, ∀ (q : Stream.Question) y, (s.ask q).Comes r.store y →
    ∃ r', Sharing.Step it I r r' ∧ r'.store = left y ∧ r'.held = Stream.holds r.held y
  walks : ∀ s ∈ r.held, ∀ (n : Nat) (done : List Value) y, (s.walkFrom n done).Comes r.store y →
    ∃ r', Relation.ReflTransGen (Sharing.Step it I) r r' ∧ r'.store = left y
  /-- An iterator of the caller has been asked as often as it has answered. -/
  counted : ∀ answer n, σ₀.iterators[it.index]? = some (.caller answer n) →
    r.store.iterators[it.index]? = some (.caller answer (n + r.given.length))

section

variable {it : IteratorId} {I : Store W → Prop} {σ υ : Store W} {c : CellId} {q : Stream.Question}
  {v : Value} {r r' : Sharing W} {cells : List CellId}

/-! ### What becomes of a cell -/

/-- A cell that takes an element leads to a new one. -/
theorem CellId.filled_some (aloof : it.Aloof I) (unset : σ.over it c = some .unset)
    (invariant : I υ) (same : υ.over it = (c.busy σ).over it) (v : Value) : ∃ d τ,
      σ.over it d = none ∧ c.filled it q (.ok (some v) υ) = q.found (some (v, .pulled d)) τ ∧ I τ ∧
      τ.over it = Function.update
        (Function.update (σ.over it) c (some (.known (some (v, .pulled d))))) d (some .unset) := by
  let d : CellId := ⟨υ.cells.size⟩
  rw [Store.over_busy unset] at same
  have new := Store.over_size υ it
  rw [same] at new
  have ne : d ≠ c := by
    intro e
    rw [show (⟨υ.cells.size⟩ : CellId) = c from e, Function.update_self] at new
    cases new
  rw [Function.update_of_ne ne] at new
  have pushed := Store.over_push υ it
  rw [same] at pushed
  -- The cell is still busy when the next one is made, and it is filled after that.
  have busy : { υ with cells := υ.cells.push ⟨it, .unset⟩ }.over it c = some .busy := by
    rw [pushed, Function.update_of_ne ne.symm, Function.update_self]
  refine ⟨d, _, new, rfl, aloof.put _ (aloof.push invariant) busy, ?_⟩
  rw [Store.over_put busy, pushed, Function.update_comm ne, Function.update_idem]

/-- A cell at the end. -/
theorem CellId.filled_none (aloof : it.Aloof I) (unset : σ.over it c = some .unset)
    (invariant : I υ) (same : υ.over it = (c.busy σ).over it) : ∃ τ,
      c.filled it q (.ok none υ) = q.found none τ ∧ I τ ∧
      τ.over it = Function.update (σ.over it) c (some (.known none)) := by
  rw [Store.over_busy unset] at same
  have busy : υ.over it c = some .busy := by rw [same, Function.update_self]
  refine ⟨_, rfl, aloof.put _ invariant busy, ?_⟩
  rw [Store.over_put busy, same, Function.update_idem]

/-- A cell whose iterator raises a fault is as it was. -/
theorem CellId.filled_error (aloof : it.Aloof I) (unset : σ.over it c = some .unset)
    (invariant : I υ) (same : υ.over it = (c.busy σ).over it) (e : Stop) : ∃ τ,
      c.filled it q (.error e υ) = .error e τ ∧ I τ ∧ τ.over it = σ.over it := by
  rw [Store.over_busy unset] at same
  have busy : υ.over it c = some .busy := by rw [same, Function.update_self]
  refine ⟨_, rfl, aloof.put _ invariant busy, ?_⟩
  rw [Store.over_put busy, same, Function.update_idem, ← unset, Function.update_eq_self]

/-! ### Single steps -/

/-- What is kept by every step. -/
structure Sharing.Kept (it : IteratorId) (I : Store W → Prop) (r : Sharing W)
    (cells : List CellId) : Prop where
  /-- Asking the iterator leaves its cells alone. -/
  invariant : I r.store
  /-- The account is right. -/
  account : Account (r.store.over it) r.made r.asked r.taken cells
  /-- Streams that are held are at the end or at a cell that is filled from the iterator. -/
  held : ∀ s ∈ r.held, s = .nil ∨ ∃ c, s = .pulled c ∧ (r.store.over it c).isSome

/-- A stream is made. -/
theorem Sharing.Kept.make (h : r.Kept it I cells) (aloof : it.Aloof I) {c : CellId} {τ : Store W}
    (run : (Stream.ofIterator it).Comes r.store (.ok (.pulled c) τ)) :
    Kept it I { r with store := τ, made := c :: r.made, held := .pulled c :: r.held } cells := by
  cases run.unique (comes_newCell it r.store)
  have new := Store.over_size r.store it
  have view := Store.over_push r.store it
  constructor
  case invariant => exact aloof.push h.invariant
  case account => exact view ▸ h.account.make new
  case held =>
    intro s mem
    rcases List.mem_cons.mp mem with rfl | mem
    · exact .inr ⟨_, rfl, by rw [view, Function.update_self]; rfl⟩
    · rcases h.held s mem with rfl | ⟨c, rfl, some⟩
      · exact .inl rfl
      · refine .inr ⟨c, rfl, ?_⟩
        -- The new cell has not been there before, so it is none of those that are held.
        have ne : c ≠ ⟨r.store.cells.size⟩ := by
          rintro rfl
          simp [new] at some
        rw [view, Function.update_of_ne ne]
        exact some

/-- Streams that are held after a question. -/
theorem Sharing.Kept.holds (h : r.Kept it I cells) {τ : Store W} {o : Option (Value × Stream Value)}
    (kept : ∀ c, (r.store.over it c).isSome → (τ.over it c).isSome)
    (next : ∀ v t, o = some (v, t) → ∃ d, t = .pulled d ∧ (τ.over it d).isSome) :
    ∀ s ∈ Stream.holds r.held (q.found o τ),
      s = .nil ∨ ∃ c, s = .pulled c ∧ (τ.over it c).isSome := by
  have before : ∀ s ∈ r.held, s = .nil ∨ ∃ c, s = .pulled c ∧ (τ.over it c).isSome := by
    intro s mem
    rcases h.held s mem with rfl | ⟨c, rfl, some⟩
    · exact .inl rfl
    · exact .inr ⟨c, rfl, kept c some⟩
  cases q with
  | isEmpty => exact before
  | first => rcases o with _ | ⟨v, t⟩ <;> exact before
  | rest =>
    intro s mem
    rcases o with _ | ⟨v, t⟩
    · rcases List.mem_cons.mp mem with rfl | mem
      · exact .inl rfl
      · exact before s mem
    · rcases List.mem_cons.mp mem with rfl | mem
      · exact .inr (next v _ rfl)
      · exact before s mem

theorem Sharing.taken_append (r : Sharing W) (as : List (Except Stop (Option Value))) :
    ({ r with given := r.given ++ as } : Sharing W).taken =
      r.taken ++ as.filterMap fun | .ok o => o | .error _ => none :=
  List.filterMap_append

/-- A stream that is held is asked. -/
theorem Sharing.Kept.ask (h : r.Kept it I cells) (aloof : it.Aloof I) {s : Stream Value}
    {cs : List CellId} {as : List (Except Stop (Option Value))}
    {y : EStateM.Result Stop (Store W) Stream.Finding} (run : (s.ask q).Comes r.store y)
    (requires : s.Requires it r.store cs as) : ∃ cells', Kept it I
      { r with
        store := left y
        held := Stream.holds r.held y
        asked := cs ++ r.asked
        given := r.given ++ as } cells' := by
  cases requires with
  | nil =>
    cases run.unique comes_ask_nil
    refine ⟨cells, ?_, ?_, ?_⟩
    · rw [Stream.Question.left_found]
      exact h.invariant
    · rw [Stream.Question.left_found, List.append_nil]
      exact h.account
    · rw [Stream.Question.left_found]
      exact h.holds (fun _ some => some) (by simp)
  | @known c o known =>
    cases run.unique (comes_ask_known (Store.over_eq_some.mp known))
    refine ⟨cells, ?_, ?_, ?_⟩
    · rw [Stream.Question.left_found]
      exact h.invariant
    · rw [Stream.Question.left_found, List.append_nil]
      exact { h.account with
        asked := fun d o hd => List.mem_cons_of_mem c (h.account.asked d o hd) }
    · rw [Stream.Question.left_found]
      refine h.holds (fun _ some => some) ?_
      rintro v t rfl
      exact h.account.next c v t known
  | @unset c z unset hz =>
    obtain ⟨z', hz', rfl⟩ := (comes_ask_unset (Store.over_eq_some.mp unset)).mp run
    cases hz'.unique hz
    obtain ⟨invariant, same⟩ := aloof.asks (aloof.put .busy h.invariant unset) hz
    -- Only the cell that has been asked, and perhaps a new one, differ from what they were.
    rcases z with ⟨_ | v, υ⟩ | ⟨e, υ⟩
    · obtain ⟨τ, eq, invariant, view⟩ :=
        CellId.filled_none (q := q) (υ := υ) aloof unset invariant same
      rw [eq]
      refine ⟨cells, ?_, ?_, ?_⟩
      · rw [Stream.Question.left_found]
        exact invariant
      · rw [Stream.Question.left_found, view]
        exact (r.taken_append _).symm ▸ (List.append_nil r.taken).symm ▸ h.account.finish unset
      · rw [Stream.Question.left_found]
        refine h.holds (fun d some => ?_) (by simp)
        rw [view]
        by_cases same : d = c
        · simp [same]
        · simpa [same] using some
    · obtain ⟨d, τ, new, eq, invariant, view⟩ :=
        CellId.filled_some (q := q) (υ := υ) aloof unset invariant same v
      rw [eq]
      refine ⟨cells ++ [c], ?_, ?_, ?_⟩
      · rw [Stream.Question.left_found]
        exact invariant
      · rw [Stream.Question.left_found, view]
        exact (r.taken_append _).symm ▸ h.account.take unset new v
      · rw [Stream.Question.left_found]
        refine h.holds (fun e some => ?_) ?_
        · rw [view]
          by_cases last : e = d
          · simp [last]
          · rw [Function.update_of_ne last]
            by_cases same : e = c
            · simp [same]
            · simpa [same] using some
        · rintro _ _ ⟨⟩
          exact ⟨d, rfl, by rw [view, Function.update_self]; rfl⟩
    · obtain ⟨τ, eq, invariant, view⟩ := CellId.filled_error (q := q)
        (υ := υ) aloof unset invariant same e
      rw [eq]
      refine ⟨cells, invariant, ?_, ?_⟩
      · have account : Account (τ.over it) r.made (c :: r.asked) r.taken cells := by
          rw [view]
          exact { h.account with
            asked := fun d o hd => List.mem_cons_of_mem c (h.account.asked d o hd) }
        exact (r.taken_append _).symm ▸ (List.append_nil r.taken).symm ▸ account
      · intro s mem
        rcases h.held s mem with rfl | ⟨d, rfl, some⟩
        · exact .inl rfl
        · exact .inr ⟨d, rfl, (congrArg Option.isSome (congrFun view d)).trans some⟩

/-- Every step keeps the account. -/
theorem Sharing.Step.kept (aloof : it.Aloof I) (step : Sharing.Step it I r r')
    (h : r.Kept it I cells) : ∃ cells', r'.Kept it I cells' := by
  cases step with
  | asStream run => exact ⟨cells, h.make aloof run⟩
  | fromIterable run => exact ⟨cells, h.make aloof run⟩
  | ask _ run requires => exact h.ask aloof run requires
  | other invariant same _ =>
    refine ⟨cells, invariant, ?_, ?_⟩
    · exact same ▸ h.account
    · intro s mem
      rcases h.held s mem with rfl | ⟨c, rfl, some⟩
      · exact .inl rfl
      · exact .inr ⟨c, rfl, (congrArg Option.isSome (congrFun same c)).trans some⟩

/-! ### What stays -/

/-- What is known of a cell is known in later stores. -/
theorem Store.Grows.over {τ : Store W} (g : σ.Grows τ) {o : Option (Value × Stream Value)}
    (h : σ.over it c = some (.known o)) : τ.over it c = some (.known o) := by
  obtain ⟨⟨thunk, slot⟩, found, rfl, kept⟩ := g.cells _ _ (Store.over_eq_some.mp h)
  obtain rfl : slot = .known o := by simpa using kept
  exact Store.over_eq_some.mpr found

theorem Sharing.Step.later (step : Sharing.Step it I r r') : r.given <+: r'.given ∧
    ∀ c o, r.store.over it c = some (.known o) → r'.store.over it c = some (.known o) := by
  cases step with
  | asStream run =>
    exact ⟨List.prefix_rfl, fun c o h => ((composed_asStream _).grows_of_comes run).over h⟩
  | fromIterable run =>
    have composed : Composed ((Source.iterator it).fromIterable : Eval W _) :=
      .bind (.pure it) composed_ofIterator
    exact ⟨List.prefix_rfl, fun c o h => (composed.grows_of_comes run).over h⟩
  | ask _ run _ =>
    exact ⟨List.prefix_append _ _, fun c o h =>
      ((Stream.composed_ask _ _).grows_of_comes run).over h⟩
  | other _ same _ => exact ⟨List.prefix_rfl, fun c o h => same ▸ h⟩

theorem CellId.iterators_filled (c : CellId) (it : IteratorId) (q : Stream.Question)
    (z : EStateM.Result Stop (Store W) (Option Value)) :
    (left (c.filled it q z)).iterators = (left z).iterators := by
  rcases z with ⟨_ | v, υ⟩ | ⟨e, υ⟩
  · rw [filled, Stream.Question.left_found]
    rfl
  · rw [filled, Stream.Question.left_found]
    rfl
  · rfl

/-- An iterator of the caller counts how often it has been asked. -/
theorem Sharing.Step.counted (step : Sharing.Step it I r r') {answer : Nat → W → Pull × W} {n : Nat}
    (h : r.store.iterators[it.index]? = some (.caller answer n)) :
    ∃ k, r'.given.length = r.given.length + k ∧
      r'.store.iterators[it.index]? = some (.caller answer (n + k)) := by
  cases step with
  | asStream run =>
    cases run.unique (comes_newCell it r.store)
    exact ⟨0, rfl, h⟩
  | fromIterable run =>
    cases run.unique (comes_bind_ok (comes_pure it _) (comes_newCell it r.store))
    exact ⟨0, rfl, h⟩
  | other _ _ same => exact ⟨0, rfl, same.trans h⟩
  | ask _ run requires =>
    cases requires with
    | nil =>
      cases run.unique comes_ask_nil
      exact ⟨0, by simp, by rw [Stream.Question.left_found]; exact h⟩
    | known known =>
      cases run.unique (comes_ask_known (Store.over_eq_some.mp known))
      exact ⟨0, by simp, by rw [Stream.Question.left_found]; exact h⟩
    -- Only here the iterator is asked, and once.
    | @unset c z unset hz =>
      obtain ⟨z', hz', rfl⟩ := (comes_ask_unset (Store.over_eq_some.mp unset)).mp run
      cases hz'.unique hz
      refine ⟨1, by simp, ?_⟩
      have found : (c.busy r.store).iterators[it.index]? = some (.caller answer n) := h
      rw [CellId.iterators_filled]
      cases hz.unique (comes_next found trivial)
      rw [IteratorId.respond, left_answered]
      change ((c.busy r.store).iterators.modify it.index Iterator.moved)[it.index]? = _
      rw [Array.getElem?_modify, if_pos rfl, found]
      rfl

/-- Whatever is asked of a stream that is held is a step. -/
theorem Sharing.Kept.step (h : r.Kept it I cells) {s : Stream Value} (mem : s ∈ r.held)
    {y : EStateM.Result Stop (Store W) Stream.Finding} (run : (s.ask q).Comes r.store y) :
    ∃ r', Sharing.Step it I r r' ∧ r'.store = left y ∧ r'.held = Stream.holds r.held y := by
  suffices requires : ∃ cs as, s.Requires it r.store cs as by
    obtain ⟨cs, as, requires⟩ := requires
    exact ⟨_, .ask mem run requires, rfl, rfl⟩
  rcases h.held s mem with rfl | ⟨c, rfl, some⟩
  · exact ⟨_, _, .nil⟩
  · obtain ⟨slot, found⟩ := Option.isSome_iff_exists.mp some
    cases slot with
    | busy => exact absurd found (h.account.idle c)
    | known o => exact ⟨_, _, .known found⟩
    | unset =>
      obtain ⟨z, hz, -⟩ := (comes_ask_unset (Store.over_eq_some.mp found)).mp run
      exact ⟨_, _, .unset found hz⟩

/-- So is a series of questions. -/
theorem Sharing.Kept.inquiry (aloof : it.Aloof I) (h : r.Kept it I cells)
    {held : List (Stream Value)} {τ : Store W} (inquiry : Stream.Inquiry r.held r.store held τ) :
    ∃ r', Relation.ReflTransGen (Sharing.Step it I) r r' ∧ r'.store = τ ∧ r'.held = held := by
  generalize hh : r.held = held₀ at inquiry
  generalize hs : r.store = σ₀ at inquiry
  induction inquiry generalizing r cells with
  | done => exact ⟨r, .refl, hs, hh⟩
  | ask mem run _ ih =>
    subst hh hs
    obtain ⟨r₁, step, hs, hh⟩ := h.step mem run
    obtain ⟨cells₁, h₁⟩ := step.kept aloof h
    obtain ⟨r₂, steps, rest⟩ := ih h₁ hh hs
    exact ⟨r₂, .head step steps, rest⟩

/-! ### Histories -/

/-- The account is kept by every history. -/
theorem Sharing.exists_kept (aloof : it.Aloof I) (invariant : I σ)
    (fresh : ∀ c, σ.over it c = none)
    (history : Relation.ReflTransGen (Sharing.Step it I) (.start σ) r) :
    ∃ cells, r.Kept it I cells := by
  induction history with
  | refl => exact ⟨[], invariant, .start fresh, by simp [Sharing.start]⟩
  | tail _ step ih =>
    obtain ⟨cells, kept⟩ := ih
    exact step.kept aloof kept

theorem Sharing.history_later (onward : Relation.ReflTransGen (Sharing.Step it I) r r') :
    r.given <+: r'.given ∧
      ∀ c o, r.store.over it c = some (.known o) → r'.store.over it c = some (.known o) := by
  induction onward with
  | refl => exact ⟨List.prefix_rfl, fun c o known => known⟩
  | tail _ step ih =>
    obtain ⟨given, known⟩ := step.later
    exact ⟨ih.1.trans given, fun c o h => known c o (ih.2 c o h)⟩

theorem Sharing.history_counted
    (history : Relation.ReflTransGen (Sharing.Step it I) (.start σ) r)
    {answer : Nat → W → Pull × W} {n : Nat}
    (found : σ.iterators[it.index]? = some (.caller answer n)) :
    r.store.iterators[it.index]? = some (.caller answer (n + r.given.length)) := by
  induction history with
  | refl => exact found
  | tail _ step ih =>
    obtain ⟨k, length, moved⟩ := step.counted ih
    rw [length, ← Nat.add_assoc]
    exact moved

end

/-- Streams over one iterator take each of its elements once, and lose none. Any number of streams
are made over an iterator that has no streams yet, and their cells are asked in any order and any
number of times, by single questions or by walks; what the iterator answers may be elements, the
end, or faults. Then each element that it has given is held by exactly one cell, in the order in
which the elements have been taken along each stream, and with only one stream, cell by cell.
Nothing is known of a cell that has not been asked, and what is known of a cell stays. A question to
a cell of which nothing is known asks the iterator once; if that raises a fault, nothing is stored,
and the cell is tried again the next time. -/
theorem iterators_are_taken_once {it : IteratorId} {I : Store W → Prop} (aloof : it.Aloof I)
    {σ : Store W} (invariant : I σ) (fresh : ∀ c, σ.over it c = none) {r : Sharing W}
    (history : Relation.ReflTransGen (Sharing.Step it I) (.start σ) r) :
    ∃ cells, Account (r.store.over it) r.made r.asked r.taken cells ∧ r.Fair it I σ := by
  obtain ⟨cells, kept⟩ := Sharing.exists_kept aloof invariant fresh history
  refine ⟨cells, kept.account, ?_⟩
  constructor
  case held => exact kept.held
  case known => exact fun c o q known => comes_ask_known (Store.over_eq_some.mp known)
  case later => exact fun r' onward => Sharing.history_later onward
  case unset => exact fun c q y unset => comes_ask_unset (Store.over_eq_some.mp unset)
  case raises =>
    intro c q e υ unset run
    obtain ⟨invariant, same⟩ := aloof.asks (aloof.put .busy kept.invariant unset) run
    obtain ⟨τ, eq, -, view⟩ :=
      CellId.filled_error (q := q) (υ := υ) aloof unset invariant same e
    exact ⟨τ, (comes_ask_unset (Store.over_eq_some.mp unset)).mpr ⟨_, run, eq.symm⟩, view⟩
  case asks => exact fun s mem q y run => kept.step mem run
  case walks =>
    intro s mem n done y run
    obtain ⟨held, inquiry⟩ := Stream.Inquiry.walk mem run
    obtain ⟨r', steps, store, -⟩ := kept.inquiry aloof inquiry
    exact ⟨r', steps, store⟩
  case counted => exact fun answer n found => Sharing.history_counted history found

/-- Two streams over an iterator that raises a fault between two elements. The first stream takes
one of them, the second one meets the fault, and takes the other one when it is asked again. -/
theorem iterators_are_taken_once_fault_between :
    let answer (n : Nat) (w : Unit) : Pull × Unit :=
      (match n with
        | 0 => .item (.int 1)
        | 1 => .failed .emptyStream
        | 2 => .item (.int 2)
        | _ => .finished, w)
    let σ : Store Unit :=
      { world := (), watch := fun _ _ => (), iterators := #[.caller answer 0] }
    let I : Store Unit → Prop := fun τ => ∃ now, τ.iterators[0]? = some now ∧ now.Plain
    IteratorId.Aloof ⟨0⟩ I ∧ I σ ∧ (∀ c, σ.over ⟨0⟩ c = none) ∧
      ∃ r, Relation.ReflTransGen (Sharing.Step ⟨0⟩ I) (.start σ) r ∧ r.given.length = 3 ∧
        ∃ cells, Account (r.store.over ⟨0⟩) r.made r.asked [.int 1, .int 2] cells := by
  intro answer σ I
  let it : IteratorId := ⟨0⟩
  have aloof : it.Aloof I := it.aloof_plain
  have fresh : ∀ c, σ.over it c = none := fun c => rfl
  let filled (v : Value) (n : Nat) : Memo IteratorId (Option (Value × Stream Value)) :=
    ⟨it, .known (some (v, .pulled ⟨n⟩))⟩
  let σ₁ : Store Unit := { σ with cells := #[⟨it, .unset⟩] }
  let σ₂ : Store Unit := { σ with cells := #[⟨it, .unset⟩, ⟨it, .unset⟩] }
  let σ₃ : Store Unit := { σ with
    iterators := #[.caller answer 1], cells := #[filled (.int 1) 2, ⟨it, .unset⟩, ⟨it, .unset⟩] }
  let σ₄ : Store Unit := { σ₃ with iterators := #[.caller answer 2] }
  let σ₅ : Store Unit := { σ with
    iterators := #[.caller answer 3]
    cells := #[filled (.int 1) 2, filled (.int 2) 3, ⟨it, .unset⟩, ⟨it, .unset⟩] }
  let r₂ : Sharing Unit := { store := σ₂, made := [⟨1⟩, ⟨0⟩], held := [.pulled ⟨1⟩, .pulled ⟨0⟩] }
  let given : List (Except Stop (Option Value)) :=
    [.ok (some (.int 1)), .error (.raised .emptyStream), .ok (some (.int 2))]
  let r₅ : Sharing Unit := { r₂ with store := σ₅, asked := [⟨1⟩, ⟨1⟩, ⟨0⟩], given := given }
  have made : Relation.ReflTransGen (Sharing.Step it I) (.start σ) r₂ :=
    .tail (.single (.asStream (comes_newCell it σ))) (.asStream (comes_newCell it σ₁))
  -- A cell of which nothing is known is asked for its first element.
  have asks {r r' : Sharing Unit} {n : Nat} (c : CellId) (held : .pulled c ∈ r.held)
      (found : r.store.iterators[it.index]? = some (.caller answer n))
      (unset : r.store.over it c = some .unset)
      (after : r' = { r with
        store := left (c.filled it .first (it.respond (.caller answer n) (c.busy r.store)))
        held := Stream.holds r.held
          (c.filled it .first (it.respond (.caller answer n) (c.busy r.store)))
        asked := c :: r.asked
        given := r.given ++ [outcome (it.respond (.caller answer n) (c.busy r.store))] }) :
      Sharing.Step it I r r' := by
    have run : it.next.Comes (c.busy r.store) _ := comes_next found trivial
    rw [after]
    exact .ask held ((comes_ask_unset (Store.over_eq_some.mp unset)).mpr ⟨_, run, rfl⟩)
      (.unset unset run)
  have first : Sharing.Step it I r₂
      { r₂ with store := σ₃, asked := [⟨0⟩], given := given.take 1 } :=
    asks ⟨0⟩ (by simp [r₂]) rfl rfl rfl
  have fault : Sharing.Step it I { r₂ with store := σ₃, asked := [⟨0⟩], given := given.take 1 }
      { r₂ with store := σ₄, asked := [⟨1⟩, ⟨0⟩], given := given.take 2 } :=
    asks ⟨1⟩ (by simp [r₂]) rfl rfl rfl
  have second : Sharing.Step it I
      { r₂ with store := σ₄, asked := [⟨1⟩, ⟨0⟩], given := given.take 2 } r₅ :=
    asks ⟨1⟩ (by simp [r₂]) rfl rfl rfl
  have history := ((made.tail first).tail fault).tail second
  have invariant : I σ := ⟨_, rfl, trivial⟩
  obtain ⟨cells, account, -⟩ := iterators_are_taken_once aloof invariant fresh history
  exact ⟨aloof, invariant, fresh, r₅, history, rfl, cells, account⟩

end ResumableParsing
