import ResumableParsing.Proofs.Transparency.Simulation

/-!
# Sessions beside a plain run

A session that is fed the chunks of the input goes the way of the plain run, chunk by chunk. While
it waits for a chunk, the plain run is at a corresponding place, with fewer steps left each time.
After going back the parse asks for chunks it has seen, and finds them in the history.

* `Division.Filed`: what the history of the session holds
* `Division.Paused.resumes`: a parse that waits goes on in a new chunk
* `Division.drives`: it goes on until it needs a chunk that is not there yet
* `Division.Pending`, `Division.Done`: how far a session has come
* `Division.forceProvide_pending`: what a session does with its next chunk
-/

namespace ResumableParsing

variable {W α β : Type}

namespace Division

variable {d : Division} {w w' : World} {σ τ τ' : Store W} {n m : Nat} {c : History}
  {y : Aim W}

theorem Stores.aside (h : d.Stores w σ τ) (alike : τ.Alike τ') (k : τ.Grows τ')
    (ha : τ'.advances = τ.advances) : d.Stores w σ τ' :=
  h.later (h.alike.trans alike) h.still (.refl σ) k ha

/-! ## Histories -/

/-- The history consists of the first chunks of the input. -/
structure Filed (d : Division) (n : Nat) (c : History) (τ : Store W) : Prop where
  /-- There are so many. -/
  size : c.size = n
  /-- They stand at the beginning of the buffer. -/
  chunks : ∃ b : Array (Stream Value), τ.buffers[c.buffer.index]? = some b ∧ n ≤ b.size ∧
    ∀ k < n, b[k]? = some (d.chunk k)

theorem Filed.later (h : d.Filed n c τ) (k : τ.Grows τ') : d.Filed n c τ' := by
  obtain ⟨b, hb, hn, hc⟩ := h.chunks
  obtain ⟨b', hb', t, ht⟩ := k.buffers _ b hb
  have size : b'.size = b.size + t.length := by
    rw [← Array.length_toList, ← ht, List.length_append, Array.length_toList]
  refine ⟨h.size, b', hb', by omega, fun i hi => ?_⟩
  have hi' : i < b.toList.length := by
    rw [Array.length_toList]
    omega
  rw [← Array.getElem?_toList, ← ht, List.getElem?_append_left hi', Array.getElem?_toList]
  exact hc i hi

theorem Filed.chunk (h : d.Filed n c τ) {k : Nat} (hk : k < n) (m : Means W) :
    c.chunk k m τ = .ok (d.chunk k) τ := by
  obtain ⟨b, hb, -, hc⟩ := h.chunks
  have inside : (0 : Int) ≤ k ∧ (k : Int) < c.size := by
    rw [h.size]
    omega
  rw [History.chunk, if_pos inside]
  simp [History.contents, hb, hc k hk]

/-- The next chunk is added, to the same buffer or to a copy of it. -/
theorem Filed.append (h : d.Filed n c τ) : ∃ c' τ', (∀ m, c.append (d.chunk n) m τ = .ok c' τ') ∧
    d.Filed (n + 1) c' τ' ∧ τ' = { τ with buffers := τ'.buffers } := by
  obtain ⟨b, hb, hn, hc⟩ := h.chunks
  have contents (m : Means W) : c.contents m τ = .ok b τ := by simp [History.contents, hb]
  have pushed {b' : Array (Stream Value)} (hs : b'.size = n)
      (hk : ∀ k < n, b'[k]? = some (d.chunk k)) (k : Nat) (hk' : k < n + 1) :
      (b'.push (d.chunk n))[k]? = some (d.chunk k) := by
    rcases Nat.lt_succ_iff_lt_or_eq.mp hk' with hk' | rfl
    · rw [Array.getElem?_push_lt (by omega), ← hk k hk', Array.getElem?_eq_getElem (by omega)]
    · rw [← hs, Array.getElem?_push_size]
  -- A buffer that has gone on without this history is copied up to its end.
  by_cases hs : c.size = b.size
  · let f : Array (Stream Value) → Array (Stream Value) := fun b => b.push (d.chunk n)
    refine ⟨{ c with size := c.size + 1 },
      { τ with buffers := τ.buffers.modify c.buffer.index f }, fun m => ?_, ?_, rfl⟩
    · simp only [History.append, Eval.run_bind, contents, if_pos hs]
      rfl
    · have hb' : b.size = n := by rw [← hs, h.size]
      refine ⟨by rw [h.size], f b, ?_, ?_, pushed hb' hc⟩
      · simp [Array.getElem?_modify, hb]
      · simp [f, hb']
  · let b' := (b.extract 0 c.size).push (d.chunk n)
    refine ⟨⟨⟨τ.buffers.size⟩, c.size + 1⟩, { τ with buffers := τ.buffers.push b' }, fun m => ?_,
      ?_, rfl⟩
    · simp only [History.append, Eval.run_bind, contents, if_neg hs]
      rfl
    · have hb' : (b.extract 0 c.size).size = n := by
        rw [Array.size_extract, h.size]
        omega
      refine ⟨by rw [h.size], b', ?_, ?_, pushed hb' fun k hk => ?_⟩
      · simp
      · simp [b', hb']
      · have hk' : k < min c.size b.size - 0 := by
          rw [h.size]
          omega
        rw [Array.getElem?_extract, if_pos hk', Nat.zero_add]
        exact hc k hk

/-! ## Going on -/

/-- What a run inside chunks comes to, beside a plain run with the aim `y`: a corresponding end, or
it waits for the chunk of the number `n`, and the plain run has at most `m` steps left. -/
inductive Comes (d : Division) (n m : Nat) (y : Aim W) :
    EStateM.Result Stop (Store W) (Finish W) → Prop where
  | reply {w : World} {r r' : Reply Value} {σ τ : Store W} :
      y.Ends (.ok (.reply r) σ) → d.Stores w σ τ → (d.correspondence W).Replies w r r' →
      Comes d n m y (.ok (.reply r') τ)
  | error {w : World} {e : Stop} {σ τ : Store W} :
      y.Ends (.error e σ) → d.Stores w σ τ → Comes d n m y (.error e τ)
  | request {w : World} {m' : Nat} {q : Request W} {σ τ : Store W} :
      m' ≤ m → w.given = n → q.chunk = n → d.Stores w σ τ →
      (d.correspondence W).Paused w m' σ y q → Comes d n m y (.ok (.request q) τ)

/-- A run inside chunks is about to go on beside a plain run, which has `m` steps left. -/
def Abreast (d : Division) (w : World) (m : Nat) (y : Aim W) (u : Task W) (τ : Store W) : Prop :=
  ∃ t σ, d.Stores w σ τ ∧ (d.correspondence W).Tasks w t u ∧ y.At m t σ

/-- While there are `n` chunks, no task of the plain run is marked. -/
def Clear (d : Division) (n : Nat) (y : Aim W) : Prop :=
  ∀ (w : World) t u, w.given = n → (d.correspondence W).Tasks w t u → ¬y.marked t

/-- A parse that waits goes on in its chunk. -/
theorem resumes {q : Request W} (hs : d.Stores w σ τ)
    (hq : (d.correspondence W).Paused w m σ y q) (hn : q.chunk < w.given) :
    ∃ m' w' u τ', m' < m ∧ w'.given = w.given ∧ d.Abreast w' m' y u τ' ∧ τ.Grows τ' ∧
      ∀ (f : Finish W → Eval W β) z, (u.complete >>= f).Comes τ' z →
        (q.resume (d.chunk q.chunk) >>= f).Comes τ z := by
  cases hq with
  | @intro x n s v u k l hz hv hk leads =>
    cases hz with
    | @intro i j c position user hi hc =>
      have hn : c + 1 < w.given := by
        have hn : ((c + 1 : Nat) : Int) < w.given := hn
        omega
      cases leads with
      | @tail m _ _ reaches =>
        let inner : State Value := .plain false (d.chunk (c + 1 : Nat)) position user
        let τ' : Store W := { τ with advances := τ.advances.push {} }
        have made (bound : Nat) : State.inChunk (c + 1 : Nat) inner (.within bound) τ =
            .ok (.chunked ⟨τ.advances.size⟩ (c + 1 : Nat) inner) τ' := rfl
        obtain ⟨g, a, hg, holds, ha, -, owner, -⟩ :=
          hs.holds.inChunk (s := inner) trivial trivial (made 0)
        cases ha
        let w' : World := { w with ghost := g }
        have hw : w.Le w' := ⟨fun _ h => h, hg, Nat.le_refl _⟩
        have hs' : d.Stores w' σ τ' := ⟨{ hs.alike with }, hs.still, holds, hs.closed⟩
        have states : d.Split w' (d.part (c + 1)) _
          (.chunked ⟨τ.advances.size⟩ (c + 1 : Nat) inner) :=
          .intro (i := i) (d.after_eq c ▸ hi) (d.chunk_spells (c + 1)) d.length_le_of_part hn owner
        have tasks : (d.correspondence W).Tasks w'
            (.arrive (.plain false i position user) (.matched v :: k))
            (.arrive (.chunked ⟨τ.advances.size⟩ (c + 1 : Nat) inner) (.matched u :: l)) :=
          .arrive ⟨_, states⟩ hv (lawful.continuations_mono hw hk)
        refine ⟨m, w', _, τ', Nat.lt_succ_self m, rfl, ⟨_, σ, hs', tasks, reaches⟩, ?_, ?_⟩
        · exact { Store.Grows.refl τ with advances := by simp [τ'] }
        · intro f z hz
          have input : (State.plain false j position user).setInput (d.chunk (c + 1 : Nat)) =
              (Pure.pure inner : Eval W (State Value)) := rfl
          simp only [Request.resume, input, pure_bind, bind_assoc]
          exact comes_bind_ok (comes_of_forall made not_exhausted_ok) hz

theorem Comes.mono {m' : Nat} {z : EStateM.Result Stop (Store W) (Finish W)}
    (h : d.Comes n m y z) (hm : m ≤ m') : d.Comes n m' y z := by
  cases h with
  | reply hy hs hr => exact .reply hy hs hr
  | error hy hs => exact .error hy hs
  | request hm' hw hq hs hp => exact .request (Nat.le_trans hm' hm) hw hq hs hp

/-- A parse never waits for a chunk behind the next one. -/
theorem chunk_of_paused {q : Request W} (h : (d.correspondence W).Paused w m σ y q) :
    ∃ k : Nat, q.chunk = k ∧ k ≤ w.given := by
  cases h with
  | intro hz hv hk leads =>
    cases hz with
    | intro hi hc => exact ⟨_, rfl, hc⟩

theorem drives_for {u : Task W} (clear : d.Clear n y) (hw : w.given = n) (hf : d.Filed n c τ)
    (h : d.Abreast w m y u τ) :
    ∃ k z, (u.complete >>= Finish.replay c k).Comes τ z ∧ d.Comes n m y z := by
  induction m using Nat.strongRecOn generalizing w τ u with
  | ind m ih =>
    obtain ⟨t, σ, hs, ht, hy⟩ := h
    have here (w' : World) (t u) (hle : (d.correspondence W).During w w')
        (h : (d.correspondence W).Tasks w' t u) : ¬y.marked t :=
      clear w' t u (hle.2.symm.trans hw) h
    -- The run is over, or it waits for a chunk and the plain run has fewer steps left.
    rcases lawful.reaches here ht hs hy with
      ⟨i, z, z', hu, ended, ends⟩ | ⟨i, q, τ', w', m', σ', hu, hw', hs', hm, paused⟩
    · have complete := comes_complete.mpr ⟨i, hu⟩
      cases z with
      | error e σ' =>
        obtain ⟨τ', w', rfl, -, hs'⟩ := ends.of_error
        exact ⟨0, _, comes_bind_error complete, .error ended hs'⟩
      | ok f σ' =>
        obtain ⟨f', τ', w', rfl, -, hs', finishes⟩ := ends.of_ok
        cases finishes with
        | reply hr => exact ⟨1, _, comes_bind_ok complete (comes_pure _ _), .reply ended hs' hr⟩
    · have complete := comes_complete.mpr ⟨i, hu⟩
      have given : w'.given = n := by rw [← hw'.2, hw]
      have k' : τ.Grows τ' := (composed_complete u).grows_of_comes complete
      have hf' := hf.later k'
      obtain ⟨j, hj, hle⟩ := chunk_of_paused paused
      by_cases hlt : j < n
      · -- The chunk is in the history.
        have has : c.has q.chunk = true := by
          simp [History.has, hj, hf.size, hlt]
        have chunk (b : Nat) : c.chunk q.chunk (.within b) τ' = .ok (d.chunk q.chunk) τ' := by
          rw [hj]
          exact hf'.chunk hlt _
        obtain ⟨m'', w'', u', τ'', hm'', hw'', abreast, k'', resume⟩ :=
          resumes (β := Finish W) hs' paused (by omega)
        obtain ⟨k, z, hz, comes⟩ := ih m'' (by omega) (hw''.trans given) (hf'.later k'') abreast
        refine ⟨k + 1, z, comes_bind_ok complete ?_, comes.mono (by omega)⟩
        simp only [Finish.replay, has, if_true]
        exact comes_bind_ok (comes_of_forall chunk not_exhausted_ok) (resume _ z hz)
      -- No chunk is skipped, so it waits for the next one.
      · have hj : q.chunk = n := by omega
        have has : c.has q.chunk = false := by
          simp [History.has, hj, hf.size]
        refine ⟨1, _, comes_bind_ok complete ?_, .request hm given hj hs' paused⟩
        simp only [Finish.replay, has, Bool.false_eq_true, if_false]
        exact comes_pure _ _

/-- A run inside chunks goes on until it needs a chunk that is not there yet. -/
theorem drives {u : Task W} (clear : d.Clear n y) (hw : w.given = n) (hf : d.Filed n c τ)
    (h : d.Abreast w m y u τ) :
    ∃ z, (do let f ← u.complete; Finish.replay c (← read).steps f).Comes τ z ∧ d.Comes n m y z := by
  obtain ⟨k, z, hz, comes⟩ := drives_for clear hw hf h
  refine ⟨z, ?_, comes⟩
  rcases hz.of_bind (composed_complete u) with ⟨f, τ', hu, hf⟩ | ⟨e, τ', hu, rfl⟩
  · exact comes_bind_ok hu (comes_loop (fun n => composed_replayFor c n f)
      (fun n => exhausted_or_replay c n f) hf)
  · exact comes_bind_error hu

/-! ## Sessions -/

variable {h : Handlers W} {i : SessionId}

/-- The plain run is over, and the handler will be called for a reply like the one of that run. -/
def Answers (d : Division) (h : Handlers W) (y : Aim W) (result : ResultId) (τ : Store W) : Prop :=
  ∃ (w : World) (r r' : Reply Value) (σ : Store W), y.Ends (.ok (.reply r) σ) ∧ d.Stores w σ τ ∧
    (d.correspondence W).Replies w r r' ∧ τ.results[result.index]? = some ⟨h.call r', .unset⟩

/-- The session is complete, and so is the plain run. -/
def Done (d : Division) (h : Handlers W) (y : Aim W) (i : SessionId) (τ : Store W) : Prop :=
  ∃ (s : Session W) (result : ResultId), τ.sessions[i.index]? = some s ∧
    s.stage = .complete result ∧ d.Answers h y result τ

/-- The session has received `n` chunks, and the plain run has fewer than `m` steps left, even if
starting counts as one. -/
inductive Pending (d : Division) (h : Handlers W) (n m : Nat) (y : Aim W) (τ : Store W) :
    Session W → Prop where
  | ready {w : World} {m' : Nat} {p : ParserId} {i j : Stream Value} {position : Int}
      {user : Value} {σ : Store W} {c : History} :
      n = 0 → m' + 1 < m → w.parsers p → d.Filed 0 c τ → d.Stores w σ τ →
      i.Spells (d.part 0 ++ d.after 0) →
      y.At m' (.run p (.plain false i position user) []) σ →
      Pending d h n m y τ ⟨.ready p (.plain false j position user), h, c⟩
  | waiting {w : World} {m' : Nat} {q : Request W} {σ : Store W} {c : History} :
      m' < m → w.given = n → q.chunk = n → d.Filed n c τ → d.Stores w σ τ →
      (d.correspondence W).Paused w m' σ y q → Pending d h n m y τ ⟨.waiting q, h, c⟩

/-- What a session comes to with more chunks. If it still waits then, the number of chunks that it
has received and the number of steps left are as `P` says. -/
inductive Provided (d : Division) (h : Handlers W) (P : Nat → Nat → Prop) (y : Aim W) :
    EStateM.Result Stop (Store W) SessionId → Prop where
  | error {w : World} {e : Stop} {σ τ : Store W} :
      y.Ends (.error e σ) → d.Stores w σ τ → Provided d h P y (.error e τ)
  | done {i : SessionId} {τ : Store W} : d.Done h y i τ → Provided d h P y (.ok i τ)
  | pending {n m : Nat} {i : SessionId} {τ : Store W} {s : Session W} :
      P n m → τ.sessions[i.index]? = some s → d.Pending h n m y τ s → Provided d h P y (.ok i τ)

theorem paused_mono {q : Request W} (hq : (d.correspondence W).Paused w m σ y q) (hw : w.Le w') :
    (d.correspondence W).Paused w' m σ y q := by
  cases hq with
  | intro hz hv hk leads =>
    refine .intro ?_ hv (lawful.continuations_mono hw hk) leads
    cases hz with
    | intro hi hc => exact .intro hi (Nat.lt_of_lt_of_le hc hw.given)

/-- A session goes on with the next chunk, which is in its history already. -/
theorem feeds {s : Session W} (hs : d.Pending h n m y τ s) (alike : τ.Alike τ') (k : τ.Grows τ')
    (ha : τ'.advances = τ.advances) : ∃ m' w u υ, m' + 1 < m ∧ w.given = n + 1 ∧
      d.Abreast w m' y u υ ∧ τ'.Grows υ ∧
      ∀ (f : Option (Finish W) → Eval W β) z, (u.complete >>= fun e => f (some e)).Comes υ z →
        (s.stage.feed (d.chunk n) >>= f).Comes τ' z := by
  cases hs with
  | @ready w m' p i j position user σ c hn hm hp hc hs hi reaches =>
    subst hn
    let inner : State Value := .plain false (d.chunk (0 : Nat)) position user
    let υ : Store W := { τ' with advances := τ'.advances.push {} }
    have made (bound : Nat) : State.inChunk (0 : Nat) inner (.within bound) τ' =
        .ok (.chunked ⟨τ'.advances.size⟩ (0 : Nat) inner) υ := rfl
    have hs := hs.aside alike k ha
    obtain ⟨g, a, hg, holds, e, -, owner, -⟩ :=
      hs.holds.inChunk (s := inner) trivial trivial (made 0)
    cases e
    let w' : World := { w with ghost := g, given := 1 }
    have hs' : d.Stores w' σ υ := ⟨{ hs.alike with }, hs.still, holds, hs.closed⟩
    have states : d.Split w' (d.part 0) (.plain false i position user)
        (.chunked ⟨τ'.advances.size⟩ (0 : Nat) inner) :=
      .intro hi (d.chunk_spells 0) d.length_le_of_part Nat.zero_lt_one owner
    have tasks : (d.correspondence W).Tasks w' (.run p (.plain false i position user) [])
        (.run p (.chunked ⟨τ'.advances.size⟩ (0 : Nat) inner) []) :=
      .run ⟨rfl, hp⟩ ⟨_, states⟩ .nil
    refine ⟨m', w', _, υ, hm, rfl, ⟨_, σ, hs', tasks, reaches⟩, ?_, ?_⟩
    · exact { Store.Grows.refl τ' with advances := by simp [υ] }
    · intro f z hz
      have input : (State.plain false j position user).setInput (d.chunk (0 : Nat)) =
          (Pure.pure inner : Eval W (State Value)) := rfl
      simp only [Stage.feed, input, pure_bind, bind_assoc]
      exact comes_bind_ok (comes_of_forall made not_exhausted_ok) hz
  | @waiting w m' q σ c hm hw hq hc hs paused =>
    -- One more chunk is there, and the plain run stays where it is.
    let w' : World := { w with given := n + 1 }
    have le : w.Le w' := ⟨fun _ h => h, .refl _, by simp only [w']; omega⟩
    have hs : d.Stores w' σ τ' :=
      have hs := hs.aside alike k ha
      ⟨hs.alike, hs.still, hs.holds, hs.closed⟩
    obtain ⟨m'', w'', u, υ, hm', given, abreast, k', resume⟩ :=
      resumes (β := β) hs (paused_mono paused le) (by simp only [w']; omega)
    refine ⟨m'', w'', u, υ, by omega, given, abreast, k', fun f z hz => ?_⟩
    simp only [Stage.feed, bind_assoc, pure_bind]
    rw [← hq]
    exact resume _ z hz

/-- A new session. -/
theorem makes (hs : d.Stores w σ τ) (s : Session W) : ∃ i τ',
    (SessionId.make s).Comes τ (.ok i τ') ∧ d.Stores w σ τ' ∧ τ.Grows τ' ∧
      τ'.sessions[i.index]? = some s ∧ τ'.results = τ.results := by
  let τ' : Store W := { τ with sessions := τ.sessions.push s }
  have made : (SessionId.make s).Comes τ (.ok ⟨τ.sessions.size⟩ τ') :=
    comes_of_forall (fun _ => rfl) not_exhausted_ok
  have k : τ.Grows τ' := (composed_makeSession s).grows_of_comes made
  refine ⟨_, τ', made, hs.aside { Store.Alike.refl τ with } k rfl, k, ?_, rfl⟩
  simp [τ']

/-- How far the session has come when its parse ends or waits. -/
theorem settles {m' : Nat} {f : Finish W} (hm : m' + 1 < m) (hf : d.Comes (n + 1) m' y (.ok f τ))
    (hc : d.Filed (n + 1) c τ) :
    ∃ z, (f.stage h c >>= fun stage => SessionId.make ⟨stage, h, c⟩).Comes τ z ∧
      d.Provided h (fun n' m' => n' = n + 1 ∧ m' < m) y z := by
  cases hf with
  | @reply w r r' σ _ hy hs hr =>
    let τ₁ : Store W := { τ with results := τ.results.push ⟨h.call r', .unset⟩ }
    have grown : τ.Grows τ₁ := { Store.Grows.refl τ with results := .push _ _ }
    have hs₁ : d.Stores w σ τ₁ := hs.aside { Store.Alike.refl τ with } grown rfl
    have stage : ((Finish.reply r').stage h c).Comes τ (.ok (.complete ⟨τ.results.size⟩) _) :=
      comes_of_forall (fun _ => rfl) not_exhausted_ok
    have hs₂ := hs₁.log_right ("completed after " ++ toString c.size ++ " chunks")
    obtain ⟨i, τ', made, hs', -, session, results⟩ := makes hs₂ ⟨.complete ⟨τ.results.size⟩, h, c⟩
    refine ⟨_, comes_bind_ok stage made, .done ⟨_, _, session, rfl, w, r, r', σ, hy, hs', hr, ?_⟩⟩
    rw [results]
    split <;> simp [τ₁]
  | @request w m'' q σ _ hm' hw hq hs paused =>
    have stage : ((Finish.request q).stage h c).Comes τ (.ok (.waiting q) _) :=
      comes_of_forall (fun _ => rfl) not_exhausted_ok
    have k := (composed_stage h c (.request q)).grows_of_comes stage
    have hs₁ := hs.log_right ("suspended, waiting for chunk " ++ toString q.chunk)
    obtain ⟨i, τ', made, hs', k', session, -⟩ := makes hs₁ ⟨.waiting q, h, c⟩
    have hc' := (hc.later k).later k'
    exact ⟨_, comes_bind_ok stage made, .pending (m := m'' + 1) ⟨rfl, by omega⟩ session
      (.waiting (Nat.lt_succ_self m'') hw hq hc' hs' paused)⟩

/-- What a session does with its next chunk. -/
theorem forceProvide_pending {s : Session W} (clear : d.Clear (n + 1) y) (chunk : Source)
    (chunk_eq : (chunk.asStream : Eval W (Stream Value)) = pure (d.chunk n))
    (hi : τ.sessions[i.index]? = some s) (hs : d.Pending h n m y τ s) :
    ∃ z, (i.forceProvide chunk).Comes τ z ∧
      d.Provided h (fun n' m' => n' = n + 1 ∧ m' < m) y z := by
  have session : i.session.Comes τ (.ok s τ) := by
    refine comes_of_forall (fun b => ?_) not_exhausted_ok
    simp [Eval.exec, SessionId.session, hi]
  have waits : s.isDone = false ∧ s.handlers = h ∧ d.Filed n s.chunks τ := by
    cases hs with
    | ready hn hm hp hc hs hi reaches => exact ⟨rfl, rfl, hn ▸ hc⟩
    | waiting hm hw hq hc hs paused => exact ⟨rfl, rfl, hc⟩
  obtain ⟨isDone, rfl, hc⟩ := waits
  obtain ⟨c', τ₁, append, hc', frame⟩ := hc.append
  have append : (s.chunks.append (d.chunk n)).Comes τ (.ok c' τ₁) :=
    comes_of_forall (fun b => append _) not_exhausted_ok
  have k := (composed_appendChunk s.chunks (d.chunk n)).grows_of_comes append
  have alike : τ.Alike τ₁ := by
    rw [frame]
    exact { Store.Alike.refl τ with }
  obtain ⟨m', w, u, τ₂, hm', given, abreast, k', feed⟩ :=
    feeds (β := SessionId) hs alike k (by rw [frame])
  obtain ⟨z, drive, comes⟩ := drives clear given (hc'.later k') abreast
  have driven : Composed (do let f ← u.complete; Finish.replay c' (← read).steps f) :=
    .bind (composed_complete u) fun f => composed_replay c' f
  -- What the drive comes to decides how far the new session has come.
  have goes : ∃ z', ((do let f ← u.complete; Finish.replay c' (← read).steps f) >>= fun f =>
      f.stage s.handlers c' >>= fun stage => SessionId.make ⟨stage, s.handlers, c'⟩).Comes τ₂ z' ∧
        d.Provided s.handlers (fun n' m' => n' = n + 1 ∧ m' < m) y z' := by
    cases z with
    | error e τ₃ =>
      cases comes with
      | error hy hs' => exact ⟨_, comes_bind_error drive, .error hy hs'⟩
    | ok f τ₃ =>
      have hc₃ := (hc'.later k').later (driven.grows_of_comes drive)
      obtain ⟨z', made, provided⟩ := settles (h := s.handlers) hm' comes hc₃
      exact ⟨z', comes_bind_ok drive made, provided⟩
  obtain ⟨z', goes, provided⟩ := goes
  refine ⟨z', comes_bind_ok session ?_, provided⟩
  simp only [isDone, Bool.false_eq_true, if_false, chunk_eq, pure_bind]
  refine comes_bind_ok append (feed _ _ ?_)
  simp only [bind_assoc] at goes
  exact goes

end Division

end ResumableParsing
