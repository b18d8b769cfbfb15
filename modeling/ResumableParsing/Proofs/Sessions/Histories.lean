import ResumableParsing.Proofs.Sessions.Calls
import ResumableParsing.Proofs.Store.Comes

/-!
# Histories are persistent lists

A history is a buffer and a number of chunks in it. Histories made from one another write to the
same buffer as long as they do not diverge, so that a buffer is longer than most histories in it. A
history still shows the chunks of its own path, and these only, whatever is appended to histories in
its buffer.

* `History.Shows`: the list of chunks that a history shows
* `History.shows_iff_lists`: the chunks that are shown are those at the beginning of the buffer
* `History.Obtained`: histories obtained so far, with the chunks of their paths
* `histories_are_lists`: every history shows the chunks of its path, and can be appended to
-/

namespace ResumableParsing

variable {W : Type}

/-- The history shows this list of chunks. -/
structure History.Shows (σ : Store W) (h : History) (path : List (Stream Value)) : Prop where
  /-- The length is that of the list. -/
  size : h.size = path.length
  /-- The buffer is not shorter. -/
  within : ∃ buffer : Array (Stream Value), σ.buffers[h.buffer.index]? = some buffer ∧
    h.size ≤ buffer.size
  /-- The chunks come in the order of the list. -/
  chunks : h.chunks.Comes σ (.ok path σ)
  /-- A number inside the list has the chunk of the list. -/
  inside : ∀ (i : Nat) (hi : i < path.length), (h.chunk i).Comes σ (.ok path[i] σ)
  /-- No other number has a chunk. -/
  outside : ∀ i : Int, ¬(0 ≤ i ∧ i < path.length) →
    (h.chunk i).Comes σ (.error (.raised (.chunkOutOfRange i)) σ)

section

variable {σ τ : Store W} {h : History} {path : List (Stream Value)}

/-! ## What is shown -/

/-- There is no chunk outside the history. -/
theorem History.Lists.chunk_outside (hl : h.Lists σ path) {i : Int}
    (hi : ¬(0 ≤ i ∧ i < path.length)) :
    (h.chunk i).Comes σ (.error (.raised (.chunkOutOfRange i)) σ) := by
  obtain ⟨buffer, hb, hs, hp⟩ := hl
  rw [History.chunk, hs, if_neg hi]
  exact comes_fault _ σ

theorem History.Lists.shows (hl : h.Lists σ path) : h.Shows σ path := by
  obtain ⟨buffer, hb, hs, hp⟩ := id hl
  have shorter : h.size ≤ buffer.size := by
    rw [hs, ← Array.length_toList]
    exact hp.length_le
  refine ⟨hs, ⟨buffer, hb, shorter⟩, ?_, fun i hi => ?_, fun i hi => hl.chunk_outside hi⟩
  · exact comes_of_forall (fun _ => hl.chunks_eq _) not_exhausted_ok
  · have found : path[i]? = some path[i] := List.getElem?_eq_getElem hi
    exact comes_of_forall (fun _ => hl.chunk_eq found _) not_exhausted_ok

/-- The chunks that are shown are those at the beginning of the buffer. -/
theorem History.lists_take {buffer : Array (Stream Value)}
    (hb : σ.buffers[h.buffer.index]? = some buffer) (hs : h.size ≤ buffer.size) :
    h.Lists σ (buffer.toList.take h.size) := by
  refine ⟨buffer, hb, ?_, List.take_prefix _ _⟩
  rw [List.length_take, Array.length_toList, Nat.min_eq_left hs]

theorem History.shows_iff_lists : h.Shows σ path ↔ h.Lists σ path := by
  constructor
  · intro shows
    obtain ⟨buffer, hb, hs⟩ := shows.within
    -- The history also lists the beginning of its buffer, and it shows one list only.
    have lists := History.lists_take hb hs
    have same := shows.chunks.unique lists.shows.chunks
    cases same
    exact lists
  · exact History.Lists.shows

/-- What a history shows, it shows after every computation. -/
theorem History.Shows.later {α : Type} {x : Eval W α} {y : EStateM.Result Stop (Store W) α}
    (shows : h.Shows σ path) (hx : Composed x) (hy : x.Comes σ y) : h.Shows (left y) path := by
  rw [History.shows_iff_lists] at shows ⊢
  exact shows.later (hx.grows_of_comes hy).carries

/-! ## One more chunk -/

/-- A history can be appended to. The new history shows one chunk more, and every other history what
it showed before. -/
theorem History.Shows.append (shows : h.Shows σ path) (c : Stream Value) :
    ∃ h' τ, (h.append c).Comes σ (.ok h' τ) ∧ h'.Shows τ (path ++ [c]) ∧
      ∀ (g : History) (cs : List (Stream Value)), g.Shows σ cs → g.Shows τ cs := by
  obtain ⟨h', buffers, lists, e⟩ := (History.shows_iff_lists.mp shows).append_eq c
  have comes : (h.append c).Comes σ (.ok h' { σ with buffers := buffers }) :=
    comes_of_forall (fun _ => e σ _ rfl) not_exhausted_ok
  exact ⟨h', _, comes, lists.shows, fun g cs hg => hg.later (composed_appendChunk h c) comes⟩

/-- A new history shows nothing. -/
theorem History.shows_empty (comes : History.empty.Comes σ (.ok h τ)) : h.Shows τ [] := by
  have made : (History.empty : Eval W History).Comes σ
      (.ok ⟨⟨σ.buffers.size⟩, 0⟩ { σ with buffers := σ.buffers.push #[] }) :=
    comes_of_forall (fun _ => rfl) not_exhausted_ok
  cases comes.unique made
  exact History.Lists.shows ⟨#[], by simp, rfl, List.nil_prefix⟩

end

/-! ## Histories obtained so far -/

/-- `Obtained σ pool`: these are histories obtained so far, each with the chunks that were appended
on its own path. -/
inductive History.Obtained : Store W → List (History × List (Stream Value)) → Prop where
  /-- At first there are none. -/
  | none (σ : Store W) : Obtained σ []
  /-- A history that is there already, such as that of a session. -/
  | given {σ : Store W} {pool : List (History × List (Stream Value))} {h : History}
      {buffer : Array (Stream Value)} : Obtained σ pool →
      σ.buffers[h.buffer.index]? = some buffer → h.size ≤ buffer.size →
      Obtained σ ((h, buffer.toList.take h.size) :: pool)
  /-- A new history. -/
  | empty {σ τ : Store W} {pool : List (History × List (Stream Value))} {h : History} :
      Obtained σ pool → History.empty.Comes σ (.ok h τ) → Obtained τ ((h, []) :: pool)
  /-- One of the histories, with one more chunk. -/
  | append {σ τ : Store W} {pool : List (History × List (Stream Value))} {h h' : History}
      {path : List (Stream Value)} {c : Stream Value} : Obtained σ pool → (h, path) ∈ pool →
      (h.append c).Comes σ (.ok h' τ) → Obtained τ ((h', path ++ [c]) :: pool)
  /-- Other computations come in between: calls on sessions append to histories too. -/
  | meanwhile {σ : Store W} {pool : List (History × List (Stream Value))} {α : Type}
      {x : Eval W α} {y : EStateM.Result Stop (Store W) α} : Obtained σ pool → Composed x →
      x.Comes σ y → Obtained (left y) pool

/-- Every history obtained so far shows the chunks of its path. -/
theorem History.Obtained.shows {σ : Store W} {pool : List (History × List (Stream Value))}
    (obtained : History.Obtained σ pool) :
    ∀ (h : History) (path : List (Stream Value)), (h, path) ∈ pool → h.Shows σ path := by
  induction obtained with
  | none => intro h path member; cases member
  | given obtained hb hs ih =>
    intro h path member
    cases member with
    | head => exact (History.lists_take hb hs).shows
    | tail _ member => exact ih h path member
  | empty obtained comes ih =>
    intro h path member
    cases member with
    | head => exact History.shows_empty comes
    | tail _ member => exact (ih h path member).later composed_newHistory comes
  | @append σ τ pool g g' way c obtained hg comes ih =>
    obtain ⟨g'', τ', comes', shows, kept⟩ := (ih g way hg).append c
    -- What the append came to is what it comes to for a history that shows its path.
    cases comes.unique comes'
    intro h path member
    cases member with
    | head => exact shows
    | tail _ member => exact kept h path (ih h path member)
  | meanwhile obtained hx comes ih =>
    intro h path member
    exact (ih h path member).later hx comes

/-- Histories are persistent lists over shared buffers. However histories were obtained from one
another, each shows the list of the chunks appended on its own path: by its length, which its buffer
never falls short of, by its chunks in order, and by their numbers, outside of which there is no
chunk. Every history can be appended to, and this changes nothing of what any history shows. -/
theorem histories_are_lists {σ : Store W} {pool : List (History × List (Stream Value))}
    (obtained : History.Obtained σ pool) {h : History} {path : List (Stream Value)}
    (member : (h, path) ∈ pool) :
    h.Shows σ path ∧ ∀ c, ∃ h' τ, (h.append c).Comes σ (.ok h' τ) ∧ h'.Shows τ (path ++ [c]) ∧
      ∀ (g : History) (cs : List (Stream Value)), g.Shows σ cs → g.Shows τ cs :=
  have shows := obtained.shows h path member
  ⟨shows, fun c => shows.append c⟩

/-- Two histories made from one diverge, the second after the first has grown the buffer. -/
theorem histories_are_lists_after_divergence :
    let a : Stream Value := .cons 0 (.int 1) .nil
    let b : Stream Value := .cons 0 (.int 2) .nil
    let c : Stream Value := .cons 0 (.int 3) .nil
    let σ : Store Unit := { world := (), watch := fun _ _ => (), buffers := #[#[a, b], #[a, c]] }
    let pool : List (History × List (Stream Value)) :=
      [(⟨⟨1⟩, 2⟩, [a, c]), (⟨⟨0⟩, 2⟩, [a, b]), (⟨⟨0⟩, 1⟩, [a]), (⟨⟨0⟩, 0⟩, [])]
    History.Obtained σ pool ∧ (⟨⟨0⟩, 1⟩, [a]) ∈ pool ∧ (⟨⟨0⟩, 1⟩ : History).Shows σ [a] := by
  intro a b c σ pool
  let before (buffers : Array (Array (Stream Value))) : Store Unit := { σ with buffers := buffers }
  have comes {x : Eval Unit History} {h : History} {τ υ : Array (Array (Stream Value))}
      (e : ∀ m, x m (before τ) = .ok h (before υ)) : x.Comes (before τ) (.ok h (before υ)) :=
    comes_of_forall (fun _ => e _) not_exhausted_ok
  have start : History.Obtained (before #[#[]]) [(⟨⟨0⟩, 0⟩, [])] :=
    .empty (.none (before #[])) (comes fun _ => rfl)
  have first : History.Obtained (before #[#[a]]) [(⟨⟨0⟩, 1⟩, [a]), (⟨⟨0⟩, 0⟩, [])] :=
    start.append (.head _) (comes fun _ => rfl)
  have newer : History.Obtained (before #[#[a, b]])
      [(⟨⟨0⟩, 2⟩, [a, b]), (⟨⟨0⟩, 1⟩, [a]), (⟨⟨0⟩, 0⟩, [])] :=
    first.append (.head _) (comes fun _ => rfl)
  have obtained : History.Obtained σ pool :=
    newer.append (.tail _ (.head _)) (comes fun _ => rfl)
  have member : (⟨⟨0⟩, 1⟩, [a]) ∈ pool := .tail _ (.tail _ (.head _))
  exact ⟨obtained, member, (histories_are_lists obtained member).1⟩

end ResumableParsing
