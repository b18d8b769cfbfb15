import ResumableParsing.Proofs.Direct.Engine
import ResumableParsing.Proofs.Reading.Consumption
import ResumableParsing.Proofs.Sessions.Steps

/-!
# Driving sessions keeps the book

A chunk is put behind the history of a session, and the parse goes on along the way of all its
chunks. Wherever it goes back to, the requests for old chunks are answered from the history; so a
parse that waits at the end waits for the chunk behind the history.

* `Stage.opening`, `Session.opening`: the first task of a parse that gets a chunk
* `Session.drive`, `Session.settle`: what is left to do then, and at the end
* `Source.Empty`, `Stream.Void`: sources without elements give chunks in which none are found
* `keeps_replay`: requests are answered from the history
* `keeps_forceProvide`, `keeps_provide`, `keeps_finish`: the operations of sessions
* `steady`: deferred parts keep the book, however deeply their computations are nested
-/

namespace ResumableParsing

variable {W α : Type}

/-! ## Opening a drive -/

/-- The first task of a session that gets its next chunk; nothing if it is complete. -/
def Stage.opening (chunk : Stream Value) : Stage W → Eval W (Option (Task W))
  | .ready p s => do
    let start ← State.inChunk 0 (← s.setInput chunk)
    return some (.run p start [])
  | .waiting q => some <$> q.arrive chunk
  | .complete _ => return none

/-- The history with the chunk of a source behind it, and the first task of the session. -/
def Session.opening (source : Source) (s : Session W) : Eval W (History × Option (Task W)) := do
  let chunk ← source.asStream
  let chunks ← s.chunks.append chunk
  return (chunks, ← s.stage.opening chunk)

/-- The answers to requests for old chunks, as many as the bound allows. -/
def Finish.replayed (chunks : History) (f : Finish W) : Eval W (Finish W) := do
  Finish.replay chunks (← read).steps f

/-- The session that comes out when the parse has ended or waits. -/
def Session.settle (s : Session W) (chunks : History) (f : Finish W) : Eval W SessionId := do
  SessionId.make { s with stage := ← f.stage s.handlers chunks, chunks := chunks }

/-- What is left to do after the opening: all steps, the answers to requests for old chunks, and the
session that comes out. -/
def Session.drive (s : Session W) (chunks : History) (t : Task W) : Eval W SessionId := do
  let f ← t.complete
  let f ← f.replayed chunks
  s.settle chunks f

/-- The session `i` gets a chunk. If it is complete all the same, it stays as it is. -/
def Session.receive (source : Source) (i : SessionId) (s : Session W) : Eval W SessionId := do
  match ← s.opening source with
  | (_, none) => return i
  | (chunks, some t) => s.drive chunks t

theorem feed_eq_opening (chunk : Stream Value) (s : Stage W) :
    s.feed chunk = do
      match ← s.opening chunk with
      | none => return none
      | some t => return some (← t.complete) := by
  cases s with
  | ready p s => simp [Stage.feed, Stage.opening, ParserId.run]
  | waiting q => simp [Stage.feed, Stage.opening, resume_eq_arrive]
  | complete r => simp [Stage.feed, Stage.opening]

/-- A session that gets a chunk is opened, and then driven. -/
theorem forceProvide_eq (source : Source) (i : SessionId) :
    (i.forceProvide source : Eval W SessionId) = (do
      let s ← i.session
      if s.isDone then return i else s.receive source i) := by
  unfold SessionId.forceProvide
  congr 1
  funext s
  split
  · rfl
  · simp only [Session.receive, Session.opening, feed_eq_opening, bind_assoc, pure_bind]
    congr 1
    funext chunk
    congr 1
    funext chunks
    congr 1
    funext t
    cases t <;> simp [Session.drive, Session.settle, Finish.replayed]

/-! ## Sources without elements -/

/-- The source gives this chunk. -/
def Source.Gives (σ : Store W) (source : Source) (chunk : Stream Value) : Prop :=
  ∃ m τ, source.asStream m σ = .ok chunk τ

/-- The source has no elements. -/
def Source.Empty (σ : Store W) : Source → Prop
  | .none => True
  | .stream s => s.Vacant σ
  | .sequence q => q.size = 0
  | .iterator it => ∃ x, σ.iterators[it.index]? = some x ∧ x.Barren

/-- No element will be found in the stream. -/
def Stream.Void (σ : Store W) (s : Stream Value) : Prop :=
  s.Vacant σ ∨ ∃ c, s = .pulled c ∧ σ.Dry c.index

section

variable {σ τ : Store W} {s : Stream Value}

theorem Stream.Void.later (h : s.Void σ) (k : σ.Grows τ) : s.Void τ := by
  rcases h with h | ⟨c, rfl, h⟩
  · exact .inl (h.later k.knows)
  · exact .inr ⟨c, rfl, k.dry _ h⟩

theorem Stream.Void.not_occupied (h : s.Void σ) : ¬s.Occupied σ := by
  rcases h with h | ⟨c, rfl, x, it, hx, hn, -⟩
  · exact fun ho => ho.not_vacant h
  · rintro ⟨v, y, hy, hk⟩
    rw [hx] at hy
    cases hy
    exact hn v hk

/-- A source without elements gives a chunk in which none will be found. -/
theorem Source.Empty.void {source : Source} (h : source.Empty σ) {m : Means W}
    (e : source.asStream m σ = .ok s τ) : s.Void τ := by
  cases source with
  | none =>
    cases e
    exact .inl trivial
  | stream t =>
    cases e
    exact .inl h
  | sequence q =>
    cases e
    refine .inl ?_
    simp only [Stream.Vacant, Stream.viewIsEmpty, show q.size = 0 from h]
    decide
  | iterator it =>
    obtain ⟨x, hx, hb⟩ := h
    cases e
    exact .inr ⟨_, rfl, _, x, Array.getElem?_push_size, by simp, hx, hb⟩

end

section

variable {R : Reach → Prop} {S : Prop} {B : Nat → Prop} {n : Nat} {b b' : Book} {σ τ : Store W}
  {mode : Option Way} {w : Way}

/-! ## Histories -/

/-- A chunk of the history is found there. -/
theorem History.Lists.chunk_eq {h : History} {cs : List (Stream Value)} (hl : h.Lists σ cs)
    {i : Nat} {c : Stream Value} (hc : cs[i]? = some c) (m : Means W) :
    h.chunk i m σ = .ok c σ := by
  obtain ⟨buffer, hb, hs, hp⟩ := hl
  have hi : i < cs.length := (List.getElem?_eq_some_iff.mp hc).1
  have inside : 0 ≤ (i : Int) ∧ (i : Int) < h.size := by omega
  have found : buffer[i]? = some c := by
    obtain ⟨more, hm⟩ := hp
    rw [← Array.getElem?_toList, ← hm, List.getElem?_append_left hi, hc]
  rw [History.chunk, if_pos inside]
  simp [History.contents, hb, found]

/-- The chunks of the history are all found. -/
theorem History.Lists.chunks_eq {h : History} {cs : List (Stream Value)} (hl : h.Lists σ cs)
    (m : Means W) : h.chunks m σ = .ok cs σ := by
  obtain ⟨buffer, hb, hs, more, hm⟩ := hl
  simp [History.chunks, History.contents, hb, ← hm, hs]

/-- The history gets one more chunk, in the same buffer or in a copy of it. Only the buffers matter.
-/
theorem History.Lists.append_eq {h : History} {cs : List (Stream Value)} (hl : h.Lists σ cs)
    (c : Stream Value) : ∃ h' buffers, h'.Lists { σ with buffers := buffers } (cs ++ [c]) ∧
      ∀ (τ : Store W) m, τ.buffers = σ.buffers →
        h.append c m τ = .ok h' { τ with buffers := buffers } := by
  obtain ⟨buffer, hb, hs, hp⟩ := hl
  have contents (τ : Store W) (m : Means W) (same : τ.buffers = σ.buffers) :
      h.contents m τ = .ok buffer τ := by simp [History.contents, same, hb]
  -- A list that is the whole buffer grows in place; any other one is copied first.
  by_cases hsize : h.size = buffer.size
  · have whole : cs = buffer.toList := by
      have length : buffer.toList.length = buffer.size := Array.length_toList
      exact hp.eq_of_length (by omega)
    refine ⟨{ h with size := h.size + 1 }, σ.buffers.modify h.buffer.index fun b => b.push c,
      ⟨buffer.push c, ?_, ?_, ?_⟩, fun τ m same => ?_⟩
    · simp [Array.getElem?_modify, hb]
    · simp [hs]
    · simp [whole]
    · simp [History.append, contents τ m same, hsize, same]
  · have taken : (buffer.extract 0 h.size).toList = cs := by
      obtain ⟨more, hm⟩ := hp
      simp [← hm, hs]
    refine ⟨⟨⟨σ.buffers.size⟩, h.size + 1⟩, σ.buffers.push ((buffer.extract 0 h.size).push c),
      ⟨(buffer.extract 0 h.size).push c, ?_, ?_, ?_⟩, fun τ m same => ?_⟩
    · simp
    · simp [hs]
    · simp only [Array.toList_push, taken, List.prefix_refl]
    · simp [History.append, contents τ m same, hsize, same]

theorem keeps_append (h : b.Holds R B σ) {hist : History} {cs : List (Stream Value)}
    (hl : hist.Lists σ cs) (c : Stream Value) :
    Keeps R S B n b σ (hist.append c) fun hist' _ τ => hist'.Lists τ (cs ++ [c]) := by
  obtain ⟨hist', buffers, hl', e⟩ := hl.append_eq c
  have k : σ.Grows { σ with buffers := buffers } := by
    have k := (composed_appendChunk hist c).grows_within 0 σ
    rwa [Eval.exec, e σ _ rfl] at k
  exact .change (fun m => e σ m rfl) ⟨.refl b, h.later k h.tails rfl h.results rfl, k⟩ hl'

/-! ## Going on in a chunk -/

/-- A parse is at the beginning of a chunk of the way. -/
theorem keeps_inChunk (h : b.Holds R B σ) {cs : List (Stream Value)} {c : Stream Value} {p : Int}
    (hp : Passed σ w.origin cs p) (hc : cs ++ [c] <+: w.chunks) (u : Value) :
    Keeps R S B n b σ (State.inChunk cs.length (.plain false c p u))
      fun s b' _ => s.On b' (some w) := by
  obtain ⟨b', hle, h', ha⟩ := h.inChunk (Spot.right_start hp c u)
  exact .change (fun _ => rfl) ⟨hle, h', Book.Holds.grows_pushAdvance σ⟩
    ⟨_, ha, rfl, rfl, rfl, hc⟩

/-- A parse that waits for a chunk of the way goes on there. -/
theorem keeps_arrive (h : b.Holds R B σ) {q : Request W} (hq : q.On R b σ w) {i : Nat}
    (hi : q.chunk = i) {c : Stream Value} (hc : w.chunks[i]? = some c) :
    Keeps R S B n b σ (q.arrive c) fun t b' τ => t.On R b' τ (some w) := by
  obtain ⟨cs, j, p, u, -, hl, hn, hp, hs, hk⟩ := hq
  obtain rfl : i = cs.length := by omega
  have next : cs ++ [c] <+: w.chunks := by
    obtain ⟨more, hm⟩ := hl
    rw [← hm, List.getElem?_append_right (Nat.le_refl _), Nat.sub_self] at hc
    rw [← hm, List.prefix_append_right_inj]
    cases more with
    | nil => cases hc
    | cons d more =>
      cases hc
      exact ⟨more, rfl⟩
  refine Keeps.of_eq (y := do
    let s ← State.inChunk cs.length (.plain false c p u)
    return Task.arrive s q.continuation) (fun means => ?_) ?_
  · simp [Request.arrive, State.setInput, State.alter, hs, hn]
  · exact (keeps_inChunk h hp next u).bind fun s b₁ σ₁ s₁ hs _ =>
      .pure s₁.holds ⟨hs, hk.mono s₁.le⟩

/-- Requests for chunks of the history are answered. A parse that waits after that waits for the
chunk behind the history. -/
theorem keeps_replay (hF : Steady W R S n) (m : Nat) (h : b.Holds R B σ) {hist : History}
    (hl : hist.Lists σ w.chunks) {f : Finish W} (hf : f.On R b σ (some w)) :
    Keeps R S B n b σ (Finish.replay hist m f) fun f b' τ => f.On R b' τ (some w) ∧
      ∀ q, f = .request q → q.chunk = w.chunks.length := by
  induction m generalizing f b σ with
  | zero => exact .throw h
  | succ m ih =>
    cases f with
    | reply r => exact .pure h ⟨hf, by simp⟩
    | request q =>
      obtain ⟨_, ⟨⟩, hq⟩ := hf
      obtain ⟨cs, -, -, -, -, hc, hn, -⟩ := id hq
      obtain ⟨-, -, hs, -⟩ := id hl
      have hle := hc.length_le
      -- The chunk stands in the history, or the parse waits for the next one.
      by_cases hh : hist.has q.chunk
      · have hlt : cs.length < w.chunks.length := by
          have : q.chunk < hist.size := by simpa [History.has] using hh
          omega
        have found := List.getElem?_eq_getElem hlt
        refine Keeps.of_eq (y := q.arrive w.chunks[cs.length] >>= Task.complete >>=
          Finish.replay hist m) (fun means => ?_) ?_
        · simp only [Finish.replay, if_pos hh]
          simp only [Eval.run_bind, hn, hl.chunk_eq found, resume_eq_arrive]
        rw [bind_assoc]
        refine (keeps_arrive h hq hn found).bind fun t b₁ σ₁ s₁ ht _ => ?_
        refine (keeps_complete hF s₁.holds ht).bind fun f b₂ σ₂ s₂ hf _ => ?_
        exact ih s₂.holds (hl.later (s₁.grows.trans s₂.grows).carries) hf
      · simp only [Finish.replay, if_neg hh]
        refine .pure h ⟨⟨w, rfl, hq⟩, ?_⟩
        rintro _ ⟨⟩
        have : ¬q.chunk < hist.size := by simpa [History.has] using hh
        omega

/-! ## The operations of sessions -/

theorem keeps_make (h : b.Holds R B σ) {s : Session W} (hs : s.Kept R b σ) :
    Keeps R S B n b σ (SessionId.make s) fun j _ τ => τ.sessions[j.index]? = some s := by
  have k := (composed_makeSession s).grows_within 0 σ
  refine .change (fun _ => rfl) ⟨.refl b, ⟨h.closed.later k, h.tails, fun a x hx =>
    (h.right a x hx).later k.knows, fun a x hx => ?_, h.results, fun i t ht => ?_⟩, k⟩
    Array.getElem?_push_size
  · obtain ⟨m, hm, hr⟩ := h.memory a x hx
    exact ⟨m, hm, hr.mono (.refl b) k.knows⟩
  · change (σ.sessions.push s)[i]? = some t at ht
    rw [Array.getElem?_push] at ht
    split at ht
    · cases ht
      exact hs.later (.refl b) k.carries
    · exact (h.sessions i t ht).later (.refl b) k.carries

/-- The stage of a session whose parse has ended or waits. -/
theorem keeps_stage (hF : Steady W R S n) (h : b.Holds R B σ) {handlers : Handlers W}
    {hist : History} {f : Finish W} (hf : f.On R b σ (some w))
    (hq : ∀ q, f = .request q → q.chunk = w.chunks.length)
    (hc : ∀ c ∈ w.chunks.dropLast, c.Occupied σ) :
    Keeps R S B n b σ (f.stage handlers hist)
      fun stage b' τ => stage.Kept R b' τ w handlers := by
  cases f with
  | request q =>
    obtain ⟨_, ⟨⟩, hf⟩ := hf
    exact ((Quiet.debug _).keeps hF h).bind fun _ b₁ σ₁ s₁ _ _ =>
      .pure s₁.holds ⟨hf.mono s₁.le s₁.grows.knows, hq q rfl⟩
  | reply r =>
    let σ' : Store W := { σ with results := σ.results.push ⟨handlers.call r, .unset⟩ }
    have k : σ.Grows σ' := { Store.Grows.refl σ with results := .push _ _ }
    -- The new result is not busy, so nothing has to be known of it.
    have made : b.Holds R B σ' := by
      refine h.later k h.tails rfl (fun i x hx hb => ?_) rfl
      change (σ.results.push _)[i]? = some x at hx
      rw [Array.getElem?_push] at hx
      split at hx
      · cases hx
        cases hb
      · exact h.results i x hx hb
    refine Keeps.bind (Q := fun i _ τ => (∀ c ∈ w.chunks.dropLast, c.Occupied τ) ∧
      τ.results[i.index]? = some ⟨handlers.call r, .unset⟩)
      (.change (τ := σ') (fun _ => rfl) ⟨.refl b, made, k⟩
        ⟨fun c hm => (hc c hm).later k.knows, Array.getElem?_push_size⟩) ?_
    rintro i b₁ σ₁ s₁ ⟨hc, hi⟩ -
    refine ((Quiet.debug _).keeps hF s₁.holds).bind fun _ b₂ σ₂ s₂ _ _ => .pure s₂.holds ?_
    obtain ⟨x, hx, ht, -⟩ := s₂.grows.results _ _ hi
    exact ⟨fun c hm => (hc c hm).later s₂.grows.knows, x, r, hx, ht⟩

/-- A session before its next chunk has only seen chunks with elements. -/
theorem Stage.Kept.occupied {stage : Stage W} {handlers : Handlers W}
    (h : stage.Kept R b σ w handlers) (hd : ∀ r, stage ≠ .complete r) {c : Stream Value}
    (hc : c ∈ w.chunks) : c.Occupied σ := by
  cases stage with
  | ready p s =>
    obtain ⟨-, hn, -⟩ := h
    simp [hn] at hc
  | waiting q =>
    obtain ⟨⟨cs, _, p, _, -, hl, hn, hp, -⟩, hq⟩ := h
    obtain rfl : cs = w.chunks := hl.eq_of_length (by omega)
    exact hp.occupied hc
  | complete r => exact absurd rfl (hd r)

/-- The way of a session is one chunk longer once it is opened. -/
theorem keeps_opening (hF : Steady W R S n) (h : b.Holds R B σ) {s : Session W}
    (hl : s.chunks.Lists σ w.chunks) (hs : s.stage.Kept R b σ w s.handlers)
    (hd : s.isDone = false) (source : Source) :
    Keeps R S B n b σ (s.opening source) fun x b' τ => ∃ c t,
      x.2 = some t ∧ source.Gives σ c ∧ (source.Empty σ → c.Void τ) ∧
        x.1.Lists τ (w.chunks ++ [c]) ∧
      t.On R b' τ (some ⟨w.origin, w.chunks ++ [c]⟩) := by
  refine ((quiet_asStream source).keeps hF h).bind fun c b₁ σ₁ s₁ _ e₁ => ?_
  refine (keeps_append s₁.holds (hl.later s₁.grows.carries) c).bind fun hist b₂ σ₂ s₂ hl₂ _ => ?_
  have s₂' := s₁.trans s₂
  have gives : source.Gives σ c := ⟨_, _, e₁⟩
  have void (τ : Store W) (k : σ₂.Grows τ) (he : source.Empty σ) : c.Void τ :=
    (he.void e₁).later (s₂.grows.trans k)
  have longer : w.Le ⟨w.origin, w.chunks ++ [c]⟩ := ⟨rfl, List.prefix_append _ _⟩
  -- The parse is opened in the same way whether it has to be started or waits for the chunk.
  refine Keeps.bind (Q := fun t b' τ => ∃ u, t = some u ∧
    u.On R b' τ (some ⟨w.origin, w.chunks ++ [c]⟩)) ?_ fun t b₃ σ₃ s₃ ht _ => ?_
  · cases hstage : s.stage with
    | ready p t =>
      rw [hstage] at hs
      obtain ⟨hp, hn, i, u, rfl⟩ := hs
      refine Keeps.of_eq (y := do
        let s ← State.inChunk ([] : List (Stream Value)).length (.plain false c w.origin u)
        return some (Task.run p s [])) (fun means => ?_) ?_
      · simp [Stage.opening, State.setInput, State.alter]
      refine (keeps_inChunk s₂.holds (w := ⟨w.origin, w.chunks ++ [c]⟩) (.nil σ₂ w.origin)
        (by simp [hn]) u).bind fun t b₃ σ₃ s₃ ht _ => .pure s₃.holds ⟨_, rfl, ?_⟩
      exact ⟨s₃.le.parsers _ (s₂'.le.parsers _ hp), ht, by simp [Continuation.On]⟩
    | waiting q =>
      rw [hstage] at hs
      obtain ⟨hq, hn⟩ := hs
      have hq := (hq.mono s₂'.le s₂'.grows.knows).widen longer
      exact (keeps_arrive s₂.holds hq hn (c := c) (by simp)).map _ fun t b' τ _ ht => ⟨t, rfl, ht⟩
    | complete r => simp [Session.isDone, hstage] at hd
  · obtain ⟨u, rfl, hu⟩ := ht
    exact .pure s₃.holds ⟨c, u, rfl, gives, void σ₃ s₃.grows, hl₂.later s₃.grows.carries, hu⟩

/-- The session that comes out of a drive has the chunks of the drive as its history. -/
theorem keeps_drive (hF : Steady W R S n) (h : b.Holds R B σ) {s : Session W} {hist : History}
    (hl : hist.Lists σ w.chunks) (hc : ∀ c ∈ w.chunks.dropLast, c.Occupied σ) {t : Task W}
    (ht : t.On R b σ (some w)) :
    Keeps R S B n b σ (s.drive hist t) fun j b' τ => ∃ s',
      τ.sessions[j.index]? = some s' ∧ s'.chunks.Lists τ w.chunks ∧ s'.handlers = s.handlers ∧
      s'.stage.Kept R b' τ w s.handlers := by
  refine (keeps_complete hF h ht).bind fun f b₁ σ₁ s₁ hf _ => ?_
  refine Keeps.bind (x := f.replayed hist) (.steps (g := fun m => Finish.replay hist m f)
    (keeps_replay hF n s₁.holds (hl.later s₁.grows.carries) hf)) fun f b₂ σ₂ s₂ hf _ => ?_
  have s₂' := s₁.trans s₂
  refine (keeps_stage hF s₂.holds hf.1 hf.2 (fun c hm => (hc c hm).later s₂'.grows.knows)).bind
    fun stage b₃ σ₃ s₃ hs _ => ?_
  have hl₃ := hl.later (s₂'.trans s₃).grows.carries
  refine (keeps_make s₃.holds (s := { s with stage := stage, chunks := hist }) ⟨w, hl₃, hs⟩).imp
    fun j b₄ σ₄ s₄ hj => ⟨_, hj, hl₃.later s₄.grows.carries, rfl, hs.later s₄.le s₄.grows.carries⟩

/-- A session that is not complete is opened when it gets a chunk. -/
theorem forceProvide_pending_eq {i : SessionId} {s : Session W} (hi : σ.sessions[i.index]? = some s)
    (hd : s.isDone = false) (source : Source) (m : Means W) :
    i.forceProvide source m σ = s.receive source i m σ := by
  simp [forceProvide_eq, SessionId.session, hi, hd]

/-- A session that is not complete gets a chunk. -/
theorem keeps_forceProvide_pending (hF : Steady W R S n) (h : b.Holds R B σ) {i : SessionId}
    {s : Session W} (hi : σ.sessions[i.index]? = some s)
    (hl : s.chunks.Lists σ w.chunks) (hs : s.stage.Kept R b σ w s.handlers)
    (hd : s.isDone = false) (source : Source) :
    Keeps R S B n b σ (i.forceProvide source) fun j b' τ => ∃ s' c,
      τ.sessions[j.index]? = some s' ∧ source.Gives σ c ∧ (source.Empty σ → c.Void τ) ∧
      s'.chunks.Lists τ (w.chunks ++ [c]) ∧ s'.handlers = s.handlers ∧
      s'.stage.Kept R b' τ ⟨w.origin, w.chunks ++ [c]⟩ s.handlers := by
  have open_ : ∀ r, s.stage ≠ .complete r := by
    intro r hr
    simp [Session.isDone, hr] at hd
  refine Keeps.of_eq (y := s.receive source i) (forceProvide_pending_eq hi hd source) ?_
  refine (keeps_opening hF h hl hs hd source).bind fun x b₁ σ₁ s₁ hx _ => ?_
  obtain ⟨hist, t⟩ := x
  obtain ⟨c, t, rfl, gives, hv, hl₁, ht⟩ := hx
  refine (keeps_drive hF s₁.holds hl₁ (fun d hm => ?_) ht).imp fun j b₂ σ₂ s₂ hj => ?_
  · rw [List.dropLast_concat] at hm
    exact (hs.occupied open_ hm).later s₁.grows.knows
  · obtain ⟨s', hj, hl', hh, hs'⟩ := hj
    exact ⟨s', c, hj, gives, fun he => (hv he).later s₂.grows, hl', hh, hs'⟩

/-- A complete session stays as it is. -/
theorem forceProvide_complete {i : SessionId} {s : Session W} (source : Source)
    (hi : σ.sessions[i.index]? = some s) (hd : s.isDone = true) (m : Means W) :
    i.forceProvide source m σ = .ok i σ := by
  simp [forceProvide_eq, SessionId.session, hi, hd]

/-- The session goes along the way of its chunks, which begins at the position of the state `t`. If
it has not been started, it will start in that state. -/
def SessionId.Along (R : Reach → Prop) (b : Book) (σ : Store W) (i : SessionId)
    (t : State Value) : Prop :=
  ∃ (s : Session W) (w : Way), σ.sessions[i.index]? = some s ∧ s.chunks.Lists σ w.chunks ∧
    s.stage.Kept R b σ w s.handlers ∧ w.origin = t.position ∧
    ∀ p u, s.stage = .ready p u → u = t

theorem SessionId.Along.later {i : SessionId} {t : State Value} (h : i.Along R b σ t)
    (hb : b.Le b') (k : σ.Grows τ) : i.Along R b' τ t := by
  obtain ⟨s, w, hi, hl, hs, ho, ht⟩ := h
  exact ⟨s, w, k.sessions _ _ hi, hl.later k.carries, hs.later hb k.carries, ho, ht⟩

/-- Every session that is there goes along some way. -/
theorem Book.Holds.along (h : b.Holds R B σ) {i : SessionId} {s : Session W}
    (hi : σ.sessions[i.index]? = some s) : ∃ t, i.Along R b σ t := by
  obtain ⟨w, hl, hs⟩ := h.sessions _ s hi
  cases hstage : s.stage with
  | ready p u =>
    obtain ⟨-, -, j, v, rfl⟩ : (Stage.ready p u).Kept R b σ w s.handlers := hstage ▸ hs
    exact ⟨.plain false j w.origin v, s, w, hi, hl, hs, rfl, by simp [hstage]⟩
  | _ => exact ⟨.plain false .nil w.origin .none, s, w, hi, hl, hs, rfl, by simp [hstage]⟩

/-- A session that gets a chunk goes further along its way. -/
theorem keeps_forceProvide_along (hF : Steady W R S n) (h : b.Holds R B σ) {i : SessionId}
    {t : State Value} (ha : i.Along R b σ t) (source : Source) :
    Keeps R S B n b σ (i.forceProvide source) fun j b' τ => j.Along R b' τ t := by
  obtain ⟨s, w, hi, hl, hs, ho, ht⟩ := id ha
  cases hd : s.isDone with
  | true => exact .change (forceProvide_complete source hi hd) (.refl h) ha
  | false =>
    refine (keeps_forceProvide_pending hF h hi hl hs hd source).imp fun j b' τ s₁ hj => ?_
    obtain ⟨s', c, hj, -, -, hl', hh, hs'⟩ := hj
    refine ⟨s', ⟨w.origin, w.chunks ++ [c]⟩, hj, hl', hh ▸ hs', ho, fun p u hr => ?_⟩
    rw [hr] at hs'
    simp [Stage.Kept] at hs'

/-- A session gets a chunk. -/
theorem keeps_forceProvide (hF : Steady W R S n) (h : b.Holds R B σ) (i : SessionId)
    (source : Source) :
    Keeps R S B n b σ (i.forceProvide source) fun _ _ _ => True := by
  cases hi : σ.sessions[i.index]? with
  | none =>
    refine Keeps.of_eq (y := throw .dangling) (fun m => ?_) (.throw h)
    simp [forceProvide_eq, SessionId.session, hi]
  | some s =>
    obtain ⟨t, ha⟩ := h.along hi
    exact (keeps_forceProvide_along hF h ha source).imp fun _ _ _ _ _ => trivial

/-- A session gets a chunk, unless that is empty. -/
theorem keeps_provide (hF : Steady W R S n) (h : b.Holds R B σ) {i : SessionId}
    {t : State Value} (ha : i.Along R b σ t) (source : Source) :
    Keeps R S B n b σ (i.provide source) fun j b' τ => j.Along R b' τ t := by
  refine ((quiet_asStream source).keeps hF h).bind fun c b₁ σ₁ s₁ _ _ => ?_
  refine ((quiet_isEmpty c).keeps hF s₁.holds).bind fun empty b₂ σ₂ s₂ _ _ => ?_
  have s₂' := s₁.trans s₂
  have ha := ha.later s₂'.le s₂'.grows
  cases empty with
  | true => exact .pure s₂.holds ha
  | false => exact keeps_forceProvide_along hF s₂.holds ha _

/-- A session starts. -/
theorem keeps_startSession (hF : Steady W R S n) (h : b.Holds R B σ) {p : ParserId}
    (hp : b.parsers p) (i : Stream Value) (position : Int) (u : Value) (handlers : Handlers W) :
    Keeps R S B n b σ (p.startSession (.plain false i position u) handlers)
      fun j b' τ => j.Along R b' τ (.plain false i position u) := by
  let σ' : Store W := { σ with buffers := σ.buffers.push #[] }
  have k : σ.Grows σ' := by
    refine { Store.Grows.refl σ with buffers := fun i b hb => ⟨b, ?_, List.prefix_refl _⟩ }
    obtain ⟨hi, rfl⟩ := Array.getElem?_eq_some_iff.mp hb
    exact Array.getElem?_push_lt hi
  refine Keeps.bind (Q := fun hist _ τ => hist.Lists τ [])
    (.change (τ := σ') (fun _ => rfl) ⟨.refl b, h.later k h.tails rfl h.results rfl, k⟩
      ⟨#[], Array.getElem?_push_size, rfl, List.nil_prefix⟩) fun hist b₁ σ₁ s₁ hl _ => ?_
  have kept : Stage.Kept R b₁ σ₁ ⟨position, []⟩ handlers
      (.ready p (.plain false i position u)) := ⟨s₁.le.parsers p hp, rfl, i, u, rfl⟩
  refine (keeps_make s₁.holds (s := ⟨.ready p (.plain false i position u), handlers, hist⟩)
    ⟨_, hl, kept⟩).bind fun j b₂ σ₂ s₂ hj _ => ?_
  refine keeps_provide hF s₂.holds ⟨_, ⟨position, []⟩, hj, hl.later s₂.grows.carries,
    kept.later s₂.le s₂.grows.carries, rfl, ?_⟩ _
  rintro p u ⟨⟩
  rfl

/-- The end of the input is given to a session until it is complete. -/
theorem keeps_completeFor (hF : Steady W R S n) (m : Nat) (h : b.Holds R B σ) (i : SessionId) :
    Keeps R S B n b σ (i.completeFor m) fun _ _ _ => True := by
  induction m generalizing b σ i with
  | zero => exact .throw h
  | succ m ih =>
    refine (keeps_forceProvide hF h i .none).bind fun j b₁ σ₁ s₁ _ _ => ?_
    rw [SessionId.session, bind_assoc]
    refine Keeps.get (.deref s₁.holds fun s _ => ?_)
    cases s.stage with
    | complete r => exact .pure s₁.holds trivial
    | _ => exact ih s₁.holds j

/-- The result of a session is asked for. -/
theorem keeps_finish (hF : Steady W R S n) (hS : ¬S) (h : b.Holds R B σ) (i : SessionId) :
    Keeps R S B n b σ i.finish fun _ _ _ => True := by
  refine Keeps.steps (g := fun m => i.completeFor m >>= fun r => Eval.force (.result r)) ?_
  exact (keeps_completeFor hF n h i).bind fun r b₁ σ₁ s₁ _ _ => hF.result hS r B b₁ σ₁ s₁.holds

/-! ## Deferred parts -/

/-- Tails are computed. -/
theorem keeps_compute (hF : Steady W R S n) (h : b.Holds R B σ) {t : Tail W} (ht : t.On R b) :
    Keeps R S B n b σ t.compute fun _ _ _ => True := by
  cases t with
  | append s u => exact (quiet_compute (t := .append s u) trivial).keeps hF h
  | action a => exact (keeps_action hF (fun _ => ht) h).map _ fun _ _ _ _ _ => trivial
  | parse p s =>
    obtain ⟨hp, mode, hs⟩ := ht
    have start : (Task.run p s []).On R b σ mode := ⟨hp, hs, by simp [Continuation.On]⟩
    rw [Tail.compute, ParserId.parseState, bind_assoc]
    refine (keeps_complete hF h start).bind fun f b₁ σ₁ s₁ _ _ => ?_
    rcases f with (⟨d, v, t⟩ | ⟨d, e, t⟩) | q
    · exact ((quiet_ofValue v).keeps hF s₁.holds).bind fun _ _ _ s₂ _ _ => .pure s₂.holds trivial
    · exact .fault s₁.holds
    · exact .pure s₁.holds trivial

/-- How a part of the store is marked while it is computed, and afterwards: the results in `B'` are
being computed meanwhile. -/
structure Shelf.Kept {θ : Type} (R : Reach → Prop) (B B' : Nat → Prop) (shelf : Shelf W θ α)
    (i : Nat) : Prop where
  /-- The part is marked as busy. -/
  busy : ∀ {b : Book} {σ : Store W}, b.Holds R B σ →
    (∀ y, shelf.find i σ = some y → y.slot = .unset) → b.Holds R B' (shelf.put i .busy σ)
  /-- The mark is taken away. -/
  done : ∀ {b : Book} {σ : Store W} {slot : Slot α}, b.Holds R B' σ → slot ≠ .busy →
    (∀ y, shelf.find i σ = some y → y.slot = .busy) → b.Holds R B (shelf.put i slot σ)

/-- A part is computed so that the book is kept if the computation behind it keeps it. -/
theorem keeps_get {θ : Type} {shelf : Shelf W θ α} {B' : Nat → Prop} {i : Nat} {x : θ → Eval W α}
    {y : Eval W α} (hl : shelf.Lawful) (hk : shelf.Kept R B B' i) (hy : Composed y)
    (within : y (.within (n + 1)) σ = shelf.get i (fun t => x t (.within n)) σ)
    (aside : S → ∀ other, y (.aside other (n + 1)) σ =
    shelf.get i (fun t => x t (.aside other n)) σ)
    (h : b.Holds R B σ)
    (hc : ∀ z, shelf.find i σ = some z → b.Holds R B' (shelf.put i .busy σ) →
      Keeps R S B' n b (shelf.put i .busy σ) (x z.thunk) fun _ _ _ => True) :
    Keeps R S B (n + 1) b σ y fun _ _ _ => True := by
  have grows := hy.grows_within (n + 1) σ
  rw [Eval.exec, within] at grows
  constructor
  · rw [within]
    suffices H : ∃ b', b.Le b' ∧ b'.Holds R B (left (shelf.get i (fun t => x t (.within n)) σ)) by
      obtain ⟨b', hle, h'⟩ := H
      exact ⟨b', ⟨hle, h', grows⟩, fun _ _ _ => trivial⟩
    rw [Shelf.get]
    cases hz : shelf.find i σ with
    | none => exact ⟨b, .refl b, h⟩
    | some z =>
      simp only
      cases hs : z.slot with
      | known a => exact ⟨b, .refl b, h⟩
      | busy => exact ⟨b, .refl b, h⟩
      | unset =>
        have unset : ∀ y, shelf.find i σ = some y → y.slot = .unset := by
          intro y hy
          rw [hz] at hy
          cases hy
          exact hs
        have h₀ := hk.busy h unset
        obtain ⟨b', s', -⟩ := (hc z hz h₀).since
        have marked : shelf.find i (shelf.put i .busy σ) = some { z with slot := .busy } := by
          rw [hl.find_put, hz]
          rfl
        -- The mark stays until it is taken away here.
        have still : ∀ y, shelf.find i (left (x z.thunk (.within n) (shelf.put i .busy σ))) =
            some y → y.slot = .busy := by
          intro y hy
          obtain ⟨y', hy', hs'⟩ := hl.find s'.grows marked
          rw [hy] at hy'
          cases hy'
          rcases hs' with hs' | hs'
          · cases hs'
          · exact hs'
        simp only
        cases e : x z.thunk (.within n) (shelf.put i .busy σ) with
        | ok a τ =>
          rw [e] at s' still
          exact ⟨b', s'.le, hk.done s'.holds (by simp) still⟩
        | error f τ =>
          rw [e] at s' still
          exact ⟨b', s'.le, hk.done s'.holds (by simp) still⟩
  · intro s other
    rw [within, aside s, Shelf.get, Shelf.get]
    cases hz : shelf.find i σ with
    | none => rfl
    | some z =>
      simp only
      cases hs : z.slot with
      | known a => rfl
      | busy => rfl
      | unset =>
        have unset : ∀ y, shelf.find i σ = some y → y.slot = .unset := by
          intro y hy
          rw [hz] at hy
          cases hy
          exact hs
        simp only [(hc z hz (hk.busy h unset)).aside s other]

/-- A tail is marked in another way. -/
theorem Book.Holds.putTail (h : b.Holds R B σ) {i : Nat} (slot : Slot (Option (Stream Value)))
    (hi : ∀ x, σ.tails[i]? = some x → ∀ v, x.slot ≠ .known v) :
    b.Holds R B (Shelf.tails.put i slot σ) := by
  have k : σ.Carries (Shelf.tails.put i slot σ) := by
    refine ⟨⟨fun k => k.putSlot hi, fun k => k⟩, fun j c hc => ⟨c, hc, List.prefix_refl _⟩,
      fun j x hx => ⟨x, hx, rfl⟩⟩
  refine h.carry k h.closed (fun j x hx => ?_) rfl h.results rfl
  change (Memo.putSlot σ.tails i slot)[j]? = some x at hx
  rw [Memo.putSlot, Array.getElem?_modify] at hx
  split at hx
  · obtain ⟨y, hy, rfl⟩ := Option.map_eq_some_iff.mp hx
    exact h.tails j y hy
  · exact h.tails j x hx

/-- A cell is marked in another way. -/
theorem Book.Holds.putCell (h : b.Holds R B σ) {i : Nat}
    (slot : Slot (Option (Value × Stream Value)))
    (hi : ∀ x, σ.cells[i]? = some x → ∀ v, x.slot ≠ .known v) :
    b.Holds R B (Shelf.cells.put i slot σ) := by
  have k : σ.Carries (Shelf.cells.put i slot σ) := by
    refine ⟨⟨fun k => k, fun k => k.putSlot hi⟩, fun j c hc => ⟨c, hc, List.prefix_refl _⟩,
      fun j x hx => ⟨x, hx, rfl⟩⟩
  exact h.carry k h.closed h.tails rfl h.results rfl

/-- A result is marked in another way. -/
theorem Book.Holds.putResult {B' : Nat → Prop} (h : b.Holds R B σ) {i : Nat} (slot : Slot Value)
    (hB : ∀ j ≠ i, B j → B' j) (hi : slot = .busy → B' i) :
    b.Holds R B' (Shelf.results.put i slot σ) := by
  have put (j : Nat) : (Shelf.results.put i slot σ).results[j]? =
      if i = j then σ.results[j]?.map fun x => { x with slot := slot } else σ.results[j]? :=
    Array.getElem?_modify
  refine h.carry ⟨⟨fun k => k, fun k => k⟩, fun j c hc => ⟨c, hc, List.prefix_refl _⟩,
    fun j x hx => ?_⟩ h.closed h.tails rfl (fun j x hx hb => ?_) rfl
  · rw [put, hx]
    split
    · exact ⟨_, rfl, rfl⟩
    · exact ⟨x, rfl, rfl⟩
  · rw [put] at hx
    split at hx
    · next hj =>
      obtain ⟨y, -, rfl⟩ := Option.map_eq_some_iff.mp hx
      exact hj ▸ hi hb
    · next hj => exact hB j (Ne.symm hj) (h.results j x hx hb)

theorem Shelf.kept_tails (i : Nat) : (tails : Shelf W _ _).Kept R B B i where
  busy h hi := h.putTail _ fun x hx v hv => by
    rw [hi x hx] at hv
    cases hv
  done h _ hi := h.putTail _ fun x hx v hv => by
    rw [hi x hx] at hv
    cases hv

theorem Shelf.kept_cells (i : Nat) : (cells : Shelf W _ _).Kept R B B i where
  busy h hi := h.putCell _ fun x hx v hv => by
    rw [hi x hx] at hv
    cases hv
  done h _ hi := h.putCell _ fun x hx v hv => by
    rw [hi x hx] at hv
    cases hv

theorem Shelf.kept_results (i : Nat) :
    (results : Shelf W _ _).Kept R B (fun j => B j ∨ j = i) i where
  busy h _ := h.putResult _ (fun _ _ hj => .inl hj) fun _ => .inr rfl
  done h hs _ := h.putResult _ (fun _ hj hB => hB.resolve_right hj) fun e => absurd e hs

/-- Deferred parts keep the book, however deeply their computations are nested. -/
theorem steady (hS : S → ¬R .results ∧ ¬R .sessions) (n : Nat) : Steady W R S n := by
  induction n with
  | zero =>
    exact ⟨hS, fun i B b σ h => .exhausted rfl (fun _ _ => rfl) h,
      fun i B b σ h => .exhausted rfl (fun _ _ => rfl) h,
      fun hn i B b σ h => .exhausted rfl (fun s => absurd s hn) h,
      fun hn i B b σ h => .exhausted rfl (fun s => absurd s hn) h⟩
  | succ n ih =>
    refine ⟨hS, fun i B b σ h => ?_, fun i B b σ h => ?_, fun hn i B b σ h => ?_,
      fun hn i B b σ h => ?_⟩
    · exact keeps_get Shelf.lawful_tails (Shelf.kept_tails i.index)
        (.force _) rfl (fun _ _ => rfl) h
        fun z hz h₀ => keeps_compute ih h₀ (h.tails _ z hz)
    · exact keeps_get Shelf.lawful_cells (Shelf.kept_cells i.index)
        (.force _) rfl (fun _ _ => rfl) h
        fun z _ h₀ => (quiet_pull z.thunk).keeps ih h₀
    · exact keeps_get Shelf.lawful_results (Shelf.kept_results i.index) (.force _) rfl
        (fun s => absurd s hn) h fun z _ h₀ => keeps_action ih (fun s => absurd s hn) h₀
    · exact ⟨(keeps_finish ih hn h i).since, fun s => absurd s hn⟩

end

end ResumableParsing
