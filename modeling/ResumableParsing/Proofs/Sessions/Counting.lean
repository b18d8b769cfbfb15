import ResumableParsing.Proofs.Sessions.Calls
import ResumableParsing.Proofs.Sessions.Moves

/-!
# The chunks of a session are counted

The number of a chunk stands in the states inside it, in the requests for it, and in the length of
the history. During every drive of every session they agree: each state lies in a chunk of the
history at the position that the chunks before it and the tokens of its own chunk make up, each
request asks for a chunk of the history or for the next one, and it is answered with the chunk of
that number.

* `State.Counted`, `Work.Counted`: the numbers agree
* `chunks_are_counted`: they agree whatever calls have been made before
-/

namespace ResumableParsing

variable {W : Type}

/-! ## Counting -/

/-- The state lies in a chunk of the list, at the position that the chunks before and the tokens
read of its own chunk make up. It has tokens left unless that chunk was empty from the start. -/
def State.Counted (σ : Store W) (origin : Int) (chunks : List (Stream Value)) (t : State Value) :
    Prop :=
  ∃ (a : AdvanceId) (k : Nat) (chunk rest : Stream Value) (p : Int) (tokens : Nat) (u : Value),
    t = .chunked a k (.plain false rest (p + tokens) u) ∧ chunks[k]? = some chunk ∧
    Passed σ origin (chunks.take k) p ∧ chunk.After σ tokens rest ∧
    (rest.Occupied σ ∨ tokens = 0 ∧ rest = chunk)

/-- Where a drive over a history is, the numbers of chunks agree with the list of the chunks. A
request for a chunk of the history is answered with the chunk of that number. -/
def Work.Counted (σ : Store W) (origin : Int) (hist : History) (chunks : List (Stream Value)) :
    Work W → Prop
  | .task t => t.state.Counted σ origin chunks
  | .rest (.reply r) => r.state.Counted σ origin chunks
  | .rest (.request q) => ∃ k : Nat, q.chunk = k ∧ 0 < k ∧ k ≤ chunks.length ∧
    (hist.has q.chunk = true ↔ k < chunks.length) ∧
    ∀ c, chunks[k]? = some c → ∀ m, hist.chunk q.chunk m σ = .ok c σ

section

variable {R : Reach → Prop} {B : Nat → Prop} {n : Nat} {b : Book} {σ τ : Store W} {w : Way}

theorem State.On.counted (h : b.Holds R B σ) {t : State Value} (ht : t.On b (some w)) :
    t.Counted σ w.origin w.chunks := by
  cases t with
  | plain => exact ht.elim
  | chunked a c inner =>
    obtain ⟨x, hx, rfl, rfl, hl⟩ := ht
    obtain ⟨p, k, i, u, hi, hp, ha, ho⟩ := h.right _ _ hx
    obtain ⟨more, hm⟩ := hl.chunks
    refine ⟨a, x.before.length, x.chunk, i, p, k, u, by rw [hi], ?_, ?_, ha, ?_⟩
    · simp [← hm]
    · rw [← hm, List.append_assoc, List.take_left, ← hl.origin]
      exact hp
    · rcases ho with rfl | ho
      · cases ha
        exact .inr ⟨rfl, rfl⟩
      · exact .inl ho

theorem Work.On.counted (h : b.Holds R B σ) {hist : History} (hl : hist.Lists σ w.chunks)
    {a : Work W} (ha : a.On R b σ w) : a.Counted σ w.origin hist w.chunks := by
  cases a with
  | task t =>
    cases t with
    | run p s k => exact State.On.counted h ha.2.1
    | code c s k => exact State.On.counted h ha.2.1
    | settle s k => exact State.On.counted h ha.1
    | cross a c inner k => exact State.On.counted h ha.1
    | deliver r k => exact State.On.counted h ha.1
  | rest f =>
    cases f with
    | reply r => exact State.On.counted h ha
    | request q =>
      obtain ⟨_, ⟨⟩, cs, _, _, _, hne, hp, hn, -⟩ := ha
      obtain ⟨-, -, hs, -⟩ := id hl
      refine ⟨cs.length, hn, List.length_pos_iff.mpr hne, hp.length_le, ?_, fun c hc m => ?_⟩
      · simp [History.has, hn, hs]
      · rw [hn]
        exact hl.chunk_eq hc m

end

/-! ## Counting during all drives -/

/-- The chunks of the session `i`, whose parse starts in the state `start`, are counted rightly. -/
structure Session.CountsChunks (σ : Store W) (i : SessionId) (start : State Value) (s : Session W)
    (chunks : List (Stream Value)) : Prop where
  /-- The session is there. -/
  found : σ.sessions[i.index]? = some s
  /-- Its history lists the chunks. -/
  lists : s.chunks.Lists σ chunks
  /-- A session that has not been started has no chunks. -/
  ready : ∀ p t, s.stage = .ready p t → t = start ∧ chunks = []
  /-- A session that waits, waits for the chunk behind its history. -/
  waiting : ∀ q, s.stage = .waiting q → q.chunk = chunks.length
  /-- While it gets a chunk from a source, its history has that chunk behind the others. Wherever
  the drive is, the numbers of chunks agree with the history, and positions are counted from the
  state that the parse has started in. -/
  during : ∀ n source hist a τ, i.During (.within n) source σ hist a τ → ∃ chunk,
    source.Gives σ chunk ∧ hist.Lists τ (chunks ++ [chunk]) ∧
    a.Counted τ start.position hist (chunks ++ [chunk])
  /-- The session that comes out has this history. -/
  given : ∀ n source j τ, s.isDone = false → (i.forceProvide source).exec n σ = .ok j τ →
    ∃ s' chunk, source.Gives σ chunk ∧ τ.sessions[j.index]? = some s' ∧
      s'.chunks.Lists τ (chunks ++ [chunk])

/-- Whatever calls have been made on sessions of parsers of the library, the chunks of each session
are counted rightly. -/
theorem chunks_are_counted {P : ParserId → Prop} {σ₀ σ : Store W}
    {pool : List (Obtained W)} (opens : σ₀.Opens (fun _ => True) P)
    (calls : Calls P [] σ₀ pool σ) {x : Obtained W} (hx : x ∈ pool) :
    ∃ s chunks, Session.CountsChunks σ x.session x.start s chunks := by
  have hF (n : Nat) : Steady W (fun _ => True) False n := steady (fun f => f.elim) n
  obtain ⟨b, h⟩ := calls.holds opens
  obtain ⟨s, w, hs, hl, kept, ho, hr⟩ := h.along _ hx
  refine ⟨s, w.chunks, hs, hl, fun p t ht => ⟨hr p t ht, ?_⟩, fun q hq => ?_,
    fun n source hist a τ during => ?_, fun n source j τ hd e => ?_⟩
  · rw [ht] at kept
    exact kept.2.1
  · rw [hq] at kept
    exact kept.2
  · obtain ⟨c, b', gives, since, hl', ha⟩ := during.keeps (hF n) h.holds hs hl kept
    exact ⟨c, gives, hl', ho ▸ ha.counted since.holds (w := ⟨w.origin, w.chunks ++ [c]⟩) hl'⟩
  · obtain ⟨b', -, hq⟩ :=
      (keeps_forceProvide_pending (hF n) h.holds hs hl kept hd source).since
    obtain ⟨s', c, hj, gives, -, hl', -⟩ := hq j τ e
    exact ⟨s', c, gives, hj, hl'⟩

/-- A session that starts at position 5 and has got one chunk. -/
theorem chunks_are_counted_one_chunk :
    let made := (Grammar.many (.some fun _ => .done true) : Grammar Unit).build
      (Store.initial () fun _ _ => ())
    let start : State Value := .plain false .nil 5 .none
    let chunk : Stream Value := .cons 0 (.int 7) .nil
    ∃ j σ k τ s chunks, (made.1.startSession start .value).exec 9 made.2 = .ok j σ ∧
      (j.provide (.stream chunk)).exec 9 σ = .ok k τ ∧
      Session.CountsChunks τ k start s chunks := by
  intro made start chunk
  have library : (Grammar.many (.some fun _ => .done true) : Grammar Unit).Library
      (fun _ => True) fun p => p = .finished := .many (.some fun _ => trivial)
  obtain ⟨P, opens, hp⟩ := library.opens () fun _ _ => ()
  have script : succeeded ((do
      let j ← made.1.startSession start .value
      j.provide (.stream chunk) : Eval Unit SessionId).exec 9 made.2) = true := by decide +kernel
  obtain ⟨k, τ, script⟩ := exists_of_succeeded script
  obtain ⟨j, σ, started, provided⟩ := ok_of_bind script
  have calls := (Calls.none : Calls P [] made.2 [] made.2).started (n := 9) hp started
  have calls := calls.provided (n := 9) List.mem_cons_self provided
  obtain ⟨s, chunks, counts⟩ := chunks_are_counted opens calls List.mem_cons_self
  exact ⟨j, σ, k, τ, s, chunks, started, provided, counts⟩

end ResumableParsing
