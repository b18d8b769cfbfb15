import ResumableParsing.Proofs.Grammar.Scope
import ResumableParsing.Proofs.Sessions.Ways
import ResumableParsing.Proofs.Store.Quiet

/-!
# The book of all sessions

Sessions share what states inside chunks remember, and the buffers of their chunks. The book says
of each memory to which place on which way it belongs. Whatever happens to the store, it stays true
to the book: memories remember what is true of their places, and each session waits for the chunk
behind its history.

* `Book`: the parsers, and the places that memories belong to
* `State.On`, `Continuation.On`, `Request.On`: parts of a parse that runs along a way
* `Session.Kept`: what is true of a session between two chunks
* `Book.Holds`: what is true of the store
* `Book.Holds.later`, `Book.Holds.inChunk`, `Book.Holds.alter`: changes that keep it true
-/

namespace ResumableParsing

variable {W α : Type}

/-- The parsers of all runs, and the places that the memories of states inside chunks belong to. -/
structure Book where
  /-- The parsers. -/
  parsers : ParserId → Prop
  /-- The place of the state with this memory. -/
  owner : Nat → Option Spot

/-- More parsers and more places. -/
structure Book.Le (b b' : Book) : Prop where
  /-- The parsers stay. -/
  parsers : ∀ p, b.parsers p → b'.parsers p
  /-- The places stay. -/
  owner : ∀ a x, b.owner a = some x → b'.owner a = some x

theorem Book.Le.refl (b : Book) : b.Le b := ⟨fun _ h => h, fun _ _ h => h⟩

theorem Book.Le.trans {b b' b'' : Book} (h : b.Le b') (h' : b'.Le b'') : b.Le b'' :=
  ⟨fun p hp => h'.parsers p (h.parsers p hp), fun a x hx => h'.owner a x (h.owner a x hx)⟩

/-! ## Parts of a parse -/

/-- A state of a run along a way, or of a run outside chunks. -/
def State.On (b : Book) : Option Way → State Value → Prop
  | none, .plain .. => True
  | some w, .chunked a n inner =>
    ∃ x, b.owner a.index = some x ∧ x.inner = inner ∧ n = x.before.length ∧ x.Lies w
  | _, _ => False

/-- A frame of such a run. A state inside a chunk is moved directly, so none of them crosses over
by means of the inner state, and none gives replies to the caller. -/
def Frame.On (R : Reach → Prop) (b : Book) (mode : Option Way) : Frame W → Prop
  | .seqFirst q _ => b.parsers q
  | .seqSecond .. => True
  | .altFirst q start => b.parsers q ∧ start.On b mode
  | .altSecond _ => True
  | .map f => ∀ v, (f v).Reaches R
  | .bind f => (∀ v, (f v).Reaches R) ∧ ∀ v, (f v).Yields (Grammar.Library R b.parsers)
  | .consume => True
  | .ignore => True
  | .attempt start => start.On b mode
  | .manyItem self p start => b.parsers self ∧ b.parsers p ∧ start.On b mode
  | .manyRest _ => True
  | .matched _ => True
  | .crossed .. => False
  | .after .. => False

/-- A continuation of such a run. -/
def Continuation.On (R : Reach → Prop) (b : Book) (mode : Option Way) (k : Continuation W) : Prop :=
  ∀ f ∈ k, Frame.On R b mode f

/-- A parse on the way that has read some chunks to their end and waits for the next one. -/
def Request.On (R : Reach → Prop) (b : Book) (σ : Store W) (w : Way) (q : Request W) : Prop :=
  ∃ (chunks : List (Stream Value)) (j : Stream Value) (p : Int) (u : Value),
    chunks ≠ [] ∧ chunks <+: w.chunks ∧ q.chunk = chunks.length ∧ Passed σ w.origin chunks p ∧
    q.state = .plain false j p u ∧ Continuation.On R b (some w) q.continuation

/-- A tail that is a parse starts from a state that has its place. -/
def Tail.On (R : Reach → Prop) (b : Book) : Tail W → Prop
  | .append .. => True
  | .parse p s => b.parsers p ∧ ∃ mode, s.On b mode
  | .action a => a.Reaches R

/-- What is remembered of the step past the first token of the place `x` is true. -/
structure Advance.Right (b : Book) (σ : Store W) (x : Spot) (m : Advance) : Prop where
  /-- Nobody finds the chunk exhausted before somebody has moved. -/
  unknown : m.next = none → m.exhausted = false
  /-- There are more tokens in the chunk. -/
  within : ∀ t, m.next = some t → m.exhausted = false →
    ∃ (w : Bool) (i j : Stream Value) (p : Int) (u : Value) (a : AdvanceId),
      x.inner = .plain w i p u ∧ i.Occupied σ ∧ i.Next σ j ∧ j.Occupied σ ∧
      t = .chunked a x.before.length (.plain w j (p + 1) u) ∧
      b.owner a.index = some { x with inner := .plain w j (p + 1) u }
  /-- The chunk is exhausted. -/
  across : ∀ t, m.next = some t → m.exhausted = true →
    ∃ (w : Bool) (i j : Stream Value) (p : Int) (u : Value),
      x.inner = .plain w i p u ∧ i.Occupied σ ∧ i.Next σ j ∧ j.Vacant σ ∧
      t = .plain w j (p + 1) u

/-! ## Sessions -/

/-- What sessions rely on is there in a later store as well. -/
structure Store.Carries (σ τ : Store W) : Prop where
  /-- What is known of streams. -/
  knows : σ.Knows τ
  /-- Chunks. -/
  buffers : ∀ (i : Nat) (b : Array (Stream Value)), σ.buffers[i]? = some b →
    ∃ c : Array (Stream Value), τ.buffers[i]? = some c ∧ b.toList <+: c.toList
  /-- The computations behind results. -/
  results : ∀ (i : Nat) (x : Memo (Action W Value) Value), σ.results[i]? = some x →
    ∃ y : Memo (Action W Value) Value, τ.results[i]? = some y ∧ y.thunk = x.thunk

theorem Store.Grows.carries {σ τ : Store W} (k : σ.Grows τ) : σ.Carries τ where
  knows := k.knows
  buffers := k.buffers
  results i x hx := by
    obtain ⟨y, hy, ht, -⟩ := k.results i x hx
    exact ⟨y, hy, ht⟩

/-- The history lists these chunks. -/
def History.Lists (σ : Store W) (h : History) (chunks : List (Stream Value)) : Prop :=
  ∃ buffer : Array (Stream Value), σ.buffers[h.buffer.index]? = some buffer ∧
    h.size = chunks.length ∧ chunks <+: buffer.toList

/-- How far a session has come along the way of its chunks: it has not read any, or it has read all
of them and waits for the next one, or its parse is over. -/
def Stage.Kept (R : Reach → Prop) (b : Book) (σ : Store W) (w : Way) (handlers : Handlers W) :
    Stage W → Prop
  | .ready p s => b.parsers p ∧ w.chunks = [] ∧ ∃ i u, s = .plain false i w.origin u
  | .waiting q => q.On R b σ w ∧ q.chunk = w.chunks.length
  | .complete r => (∀ c ∈ w.chunks.dropLast, c.Occupied σ) ∧
    ∃ x reply, σ.results[r.index]? = some x ∧ x.thunk = handlers.call reply

/-- What is true of a session between two chunks. -/
def Session.Kept (R : Reach → Prop) (b : Book) (σ : Store W) (s : Session W) : Prop :=
  ∃ w : Way, s.chunks.Lists σ w.chunks ∧ s.stage.Kept R b σ w s.handlers

/-- What is true of the store. The results in `B` are being computed. -/
structure Book.Holds (R : Reach → Prop) (B : Nat → Prop) (b : Book) (σ : Store W) : Prop where
  /-- The parsers only start one another. -/
  closed : Closed R b.parsers σ
  /-- Tails have their place. -/
  tails : ∀ (i : Nat) (x : Memo (Tail W) (Option (Stream Value))), σ.tails[i]? = some x →
    x.thunk.On R b
  /-- Positions are right. -/
  right : ∀ a x, b.owner a = some x → x.Right σ
  /-- Memories remember what is true. -/
  memory : ∀ a x, b.owner a = some x → ∃ m, σ.advances[a]? = some m ∧ m.Right b σ x
  /-- No other results are being computed. -/
  results : ∀ (i : Nat) (x : Memo (Action W Value) Value), σ.results[i]? = some x →
    x.slot = .busy → B i
  /-- Sessions are kept. -/
  sessions : ∀ (i : Nat) (s : Session W), σ.sessions[i]? = some s → s.Kept R b σ

section

variable {R : Reach → Prop} {B : Nat → Prop} {b b' : Book} {σ τ : Store W} {mode : Option Way}
  {w w' : Way}

/-! ## More parsers and places, and later stores -/

theorem State.On.mono (h : b.Le b') {s : State Value} (hs : s.On b mode) : s.On b' mode := by
  cases s with
  | plain => cases mode <;> exact hs
  | chunked a n inner =>
    cases mode with
    | none => exact hs
    | some w =>
      obtain ⟨x, hx, hs⟩ := hs
      exact ⟨x, h.owner _ _ hx, hs⟩

theorem State.On.widen (h : w.Le w') {s : State Value} (hs : s.On b (some w)) :
    s.On b (some w') := by
  cases s with
  | plain => exact hs
  | chunked a n inner =>
    obtain ⟨x, hx, hi, hn, hl⟩ := hs
    exact ⟨x, hx, hi, hn, hl.mono h⟩

theorem Frame.On.mono (h : b.Le b') {f : Frame W} (hf : f.On R b mode) : f.On R b' mode := by
  cases f with
  | seqFirst q c => exact h.parsers _ hf
  | altFirst q start => exact ⟨h.parsers _ hf.1, hf.2.mono h⟩
  | bind f =>
    exact ⟨hf.1, fun v m σ g σ' e => (hf.2 v m σ g σ' e).mono (fun _ hr => hr) h.parsers⟩
  | attempt start => exact State.On.mono h hf
  | manyItem self p start => exact ⟨h.parsers _ hf.1, h.parsers _ hf.2.1, hf.2.2.mono h⟩
  | _ => exact hf

theorem Frame.On.widen (h : w.Le w') {f : Frame W} (hf : f.On R b (some w)) :
    f.On R b (some w') := by
  cases f with
  | altFirst q start => exact ⟨hf.1, hf.2.widen h⟩
  | attempt start => exact State.On.widen h hf
  | manyItem self p start => exact ⟨hf.1, hf.2.1, hf.2.2.widen h⟩
  | _ => exact hf

theorem Continuation.On.mono (h : b.Le b') {k : Continuation W} (hk : Continuation.On R b mode k) :
    Continuation.On R b' mode k := fun f hf => (hk f hf).mono h

theorem Continuation.On.cons {f : Frame W} {k : Continuation W} (hf : f.On R b mode)
    (hk : Continuation.On R b mode k) : Continuation.On R b mode (f :: k) := by
  intro g hg
  cases hg with
  | head => exact hf
  | tail _ hg => exact hk g hg

theorem Request.On.mono (h : b.Le b') (k : σ.Knows τ) {q : Request W} (hq : q.On R b σ w) :
    q.On R b' τ w := by
  obtain ⟨chunks, j, p, u, hne, hl, hn, hp, hs, hk⟩ := hq
  exact ⟨chunks, j, p, u, hne, hl, hn, hp.later k, hs, hk.mono h⟩

theorem Request.On.widen (h : w.Le w') {q : Request W} (hq : q.On R b σ w) : q.On R b σ w' := by
  obtain ⟨chunks, j, p, u, hne, hl, hn, hp, hs, hk⟩ := hq
  exact ⟨chunks, j, p, u, hne, hl.trans h.chunks, hn, h.origin ▸ hp, hs,
    fun f hf => (hk f hf).widen h⟩

theorem Tail.On.mono (h : b.Le b') {t : Tail W} (ht : t.On R b) : t.On R b' := by
  cases t with
  | parse p s =>
    obtain ⟨hp, mode, hs⟩ := ht
    exact ⟨h.parsers p hp, mode, hs.mono h⟩
  | _ => exact ht

theorem Tail.Quiet.on {t : Tail W} (h : t.Quiet) : t.On R b := by
  cases t with
  | parse p s => exact h.elim
  | append => trivial
  | action a => exact Action.Reaches.mono (fun _ h => h.elim) h

theorem Advance.Right.mono {x : Spot} {m : Advance} (h : m.Right b σ x) (hb : b.Le b')
    (k : σ.Knows τ) : m.Right b' τ x where
  unknown := h.unknown
  within t ht he := by
    obtain ⟨w, i, j, p, u, a, hi, ho, hn, hj, ht, ha⟩ := h.within t ht he
    exact ⟨w, i, j, p, u, a, hi, ho.later k, hn.later k, hj.later k, ht, hb.owner _ _ ha⟩
  across t ht he := by
    obtain ⟨w, i, j, p, u, hi, ho, hn, hj, ht⟩ := h.across t ht he
    exact ⟨w, i, j, p, u, hi, ho.later k, hn.later k, hj.later k, ht⟩

theorem History.Lists.later {h : History} {chunks : List (Stream Value)} (hl : h.Lists σ chunks)
    (k : σ.Carries τ) : h.Lists τ chunks := by
  obtain ⟨buffer, hb, hs, hp⟩ := hl
  obtain ⟨buffer', hb', hp'⟩ := k.buffers _ _ hb
  exact ⟨buffer', hb', hs, hp.trans hp'⟩

theorem Stage.Kept.later {handlers : Handlers W} {s : Stage W} (h : s.Kept R b σ w handlers)
    (hb : b.Le b') (k : σ.Carries τ) : s.Kept R b' τ w handlers := by
  cases s with
  | ready p t => exact ⟨hb.parsers p h.1, h.2⟩
  | waiting q => exact ⟨h.1.mono hb k.knows, h.2⟩
  | complete r =>
    obtain ⟨hc, x, reply, hx, hr⟩ := h
    obtain ⟨y, hy, ht⟩ := k.results _ _ hx
    exact ⟨fun c hm => (hc c hm).later k.knows, y, reply, hy, ht.trans hr⟩

theorem Session.Kept.later {s : Session W} (h : s.Kept R b σ) (hb : b.Le b') (k : σ.Carries τ) :
    s.Kept R b' τ := by
  obtain ⟨w, hl, hs⟩ := h
  exact ⟨w, hl.later k, hs.later hb k⟩

namespace Book.Holds

/-! ## Changes that keep the book true -/

/-- A later store, with tails that have their place and the same memories and sessions, in which no
results but those in `B'` are being computed. -/
theorem carry {B' : Nat → Prop} (h : b.Holds R B σ) (k : σ.Carries τ)
    (hc : Closed R b.parsers τ)
    (ht : ∀ (i : Nat) (x : Memo (Tail W) (Option (Stream Value))), τ.tails[i]? = some x →
      x.thunk.On R b)
    (ha : τ.advances = σ.advances)
    (hr : ∀ (i : Nat) (x : Memo (Action W Value) Value), τ.results[i]? = some x →
      x.slot = .busy → B' i)
    (hs : τ.sessions = σ.sessions) : b.Holds R B' τ where
  closed := hc
  tails := ht
  right a x hx := (h.right a x hx).later k.knows
  memory a x hx := by
    obtain ⟨m, hm, hf⟩ := h.memory a x hx
    exact ⟨m, by rw [ha, hm], hf.mono (.refl b) k.knows⟩
  results := hr
  sessions i s hi := (h.sessions i s (hs ▸ hi)).later (.refl b) k

theorem later (h : b.Holds R B σ) (k : σ.Grows τ)
    (ht : ∀ (i : Nat) (x : Memo (Tail W) (Option (Stream Value))), τ.tails[i]? = some x →
      x.thunk.On R b)
    (ha : τ.advances = σ.advances)
    (hr : ∀ (i : Nat) (x : Memo (Action W Value) Value), τ.results[i]? = some x →
      x.slot = .busy → B i)
    (hs : τ.sessions = σ.sessions) : b.Holds R B τ :=
  h.carry k.carries (h.closed.later k) ht ha hr hs

theorem change (h : b.Holds R B σ) {f : Store W → α × Store W} (hf : QuietChange f) :
    b.Holds R B (f σ).2 := by
  refine h.later (hf.grows σ) (fun i x hx => ?_) (hf.advances σ) ?_ (hf.sessions σ)
  · rcases hf.tails σ i x hx with hx | hx
    · exact h.tails i x hx
    · exact hx.on
  · rw [hf.results σ]
    exact h.results

theorem size_unowned (h : b.Holds R B σ) : b.owner σ.advances.size = none := by
  cases ho : b.owner σ.advances.size with
  | none => rfl
  | some x =>
    obtain ⟨m, hm, -⟩ := h.memory _ x ho
    simp at hm

theorem grows_pushAdvance (σ : Store W) :
    σ.Grows { σ with advances := σ.advances.push {} } :=
  { Store.Grows.refl σ with advances := by simp }

/-- A memory that belongs to no place is made. -/
theorem pushAdvance (h : b.Holds R B σ) :
    b.Holds R B { σ with advances := σ.advances.push {} } where
  closed := h.closed.later (grows_pushAdvance σ)
  tails := h.tails
  right a x hx := (h.right a x hx).later (grows_pushAdvance σ).knows
  memory a x hx := by
    obtain ⟨m, hm, hf⟩ := h.memory a x hx
    obtain ⟨hlt, rfl⟩ := Array.getElem?_eq_some_iff.mp hm
    exact ⟨σ.advances[a], Array.getElem?_push_lt hlt,
      hf.mono (.refl b) (grows_pushAdvance σ).knows⟩
  results := h.results
  sessions i s hs := (h.sessions i s hs).later (.refl b) (grows_pushAdvance σ).carries

/-- A state is made at a place with the right position. -/
theorem inChunk (h : b.Holds R B σ) {x : Spot} (hx : x.Right σ) :
    ∃ b', b.Le b' ∧ b'.Holds R B { σ with advances := σ.advances.push {} } ∧
      b'.owner σ.advances.size = some x := by
  let b' : Book := { b with owner := fun a => if a = σ.advances.size then some x else b.owner a }
  have hle : b.Le b' := by
    refine ⟨fun _ hp => hp, fun a y hy => ?_⟩
    have ha : a ≠ σ.advances.size := by
      rintro rfl
      rw [h.size_unowned] at hy
      cases hy
    simp only [b', if_neg ha, hy]
  have k := grows_pushAdvance σ
  have pushed := h.pushAdvance
  refine ⟨b', hle, ?_, by simp [b']⟩
  refine { pushed with
    tails := fun i t ht => (pushed.tails i t ht).mono hle
    right := fun a y hy => ?_
    memory := fun a y hy => ?_
    sessions := fun i s hs => (pushed.sessions i s hs).later hle (Store.Grows.refl _).carries }
  · by_cases ha : a = σ.advances.size
    · simp only [b', if_pos ha, Option.some.injEq] at hy
      exact hy ▸ hx.later k.knows
    · simp only [b', if_neg ha] at hy
      exact pushed.right a y hy
  · by_cases ha : a = σ.advances.size
    · -- Nothing is remembered of the new place yet.
      subst ha
      exact ⟨{}, Array.getElem?_push_size, ⟨fun _ => rfl, by simp, by simp⟩⟩
    · simp only [b', if_neg ha] at hy
      obtain ⟨m, hm, hf⟩ := pushed.memory a y hy
      exact ⟨m, hm, hf.mono hle ⟨fun h => h, fun h => h⟩⟩

theorem grows_alter (σ : Store W) (a : AdvanceId) (f : Advance → Advance) :
    σ.Grows { σ with advances := σ.advances.modify a.index f } :=
  { Store.Grows.refl σ with advances := by simp }

/-- A memory is changed so that it remembers what is true. -/
theorem alter (h : b.Holds R B σ) (a : AdvanceId) {f : Advance → Advance}
    (hf : ∀ x m, b.owner a.index = some x → m.Right b σ x → (f m).Right b σ x) :
    b.Holds R B { σ with advances := σ.advances.modify a.index f } := by
  have k := grows_alter σ a f
  refine ⟨h.closed.later k, h.tails, fun c x hx => (h.right c x hx).later k.knows, fun c x hx => ?_,
    h.results, fun i s hs => (h.sessions i s hs).later (.refl b) k.carries⟩
  obtain ⟨m, hm, hr⟩ := h.memory c x hx
  change ∃ m', (σ.advances.modify a.index f)[c]? = some m' ∧ _
  rw [Array.getElem?_modify, hm]
  split
  · next hc =>
    subst hc
    exact ⟨f m, rfl, (hf x m hx hr).mono (.refl b) k.knows⟩
  · exact ⟨m, rfl, hr.mono (.refl b) k.knows⟩

/-- Building a grammar of the library adds parsers. -/
theorem build (h : b.Holds R B σ) {g : Grammar W} (hg : g.Library R b.parsers) :
    ∃ b', b.Le b' ∧ b'.Holds R B (g.build σ).2 ∧ b'.parsers (g.build σ).1 := by
  obtain ⟨P, hP, hclosed, hq⟩ := hg.scoped σ h.closed
  have frame := g.build_grows.frame σ
  have k := g.build_grows.grows σ
  have hle : b.Le { b with parsers := P } := ⟨hP, fun _ _ h => h⟩
  refine ⟨_, hle, ⟨hclosed, fun i x hx => ?_, fun a x hx => (h.right a x hx).later k.knows,
    fun a x hx => ?_, fun i x hx => ?_, fun i s hs => ?_⟩, hq⟩
  · rw [frame] at hx
    exact (h.tails i x hx).mono hle
  · obtain ⟨m, hm, hr⟩ := h.memory a x hx
    exact ⟨m, by rw [frame, hm], hr.mono hle k.knows⟩
  · rw [frame] at hx
    exact h.results i x hx
  · rw [frame] at hs
    exact (h.sessions i s hs).later hle k.carries

/-- What is remembered of a place is found there. -/
theorem found (h : b.Holds R B σ) {a : AdvanceId} {x : Spot} (hx : b.owner a.index = some x) :
    ∃ m : Advance, m.Right b σ x ∧ ∀ means, a.memory means σ = .ok m σ := by
  obtain ⟨m, hm, hr⟩ := h.memory _ x hx
  exact ⟨m, hr, fun means => by simp [AdvanceId.memory, hm]⟩

end Book.Holds

end

end ResumableParsing
