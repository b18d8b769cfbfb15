import ResumableParsing.Proofs.Transparency.Sessions

/-!
# Chunk boundaries do not matter

However a sequence of tokens is divided into chunks, a session that is fed the chunks and finished
answers for the reply that a plain run gives on the whole. Functions of the caller leave the same
world behind, so they are called with the same arguments in the same order.

* `ParserId.runInChunks`: a session from its start to its end
* `Reply.Agrees`: replies that say the same
* `Division.provides`, `Division.completes`: all chunks, and the end of the input
* `chunks_are_transparent`: a session agrees with a plain run
-/

namespace ResumableParsing

variable {W α : Type}

/-- Provides chunks one after the other. -/
def SessionId.provideAll (chunks : List (Stream Value)) (i : SessionId) : Eval W SessionId :=
  chunks.foldlM (fun i c => i.provide (.stream c)) i

/-- Starts a session in a state, provides the chunks and finishes. -/
def ParserId.runInChunks (p : ParserId) (s : State Value) (h : Handlers W)
    (chunks : List (Stream Value)) : Eval W Value := do
  let i ← p.startSession s h
  let i ← i.provideAll chunks
  i.finish

/-! ## What agrees -/

/-- The errors say the same of the same place. -/
structure ParseError.Agrees (e f : ParseError Value) : Prop where
  /-- What went wrong. -/
  reason : e.reason = f.reason
  /-- What could have stood there. -/
  expected : e.expected = f.expected
  /-- Whether it comes from a choice. -/
  merged : e.merged = f.merged
  /-- Where it went wrong. -/
  position : e.state.position = f.state.position
  /-- The user state at that place. -/
  user : e.state.user = f.state.user

/-- The replies say the same: they differ at most in how their states divide the input. -/
inductive Reply.Agrees : Reply Value → Reply Value → Prop where
  | ok {s t : State Value} (d : Bool) (v : Value) :
      s.position = t.position → s.user = t.user → Agrees (.ok d v s) (.ok d v t)
  | err {e f : ParseError Value} {s t : State Value} (d : Bool) :
      e.Agrees f → s.position = t.position → s.user = t.user → Agrees (.err d e s) (.err d f t)

theorem ParseError.Agrees.symm {e f : ParseError Value} (h : e.Agrees f) : f.Agrees e :=
  ⟨h.reason.symm, h.expected.symm, h.merged.symm, h.position.symm, h.user.symm⟩

theorem ParseError.Agrees.trans {e f g : ParseError Value} (h : e.Agrees f) (h' : f.Agrees g) :
    e.Agrees g :=
  ⟨h.reason.trans h'.reason, h.expected.trans h'.expected, h.merged.trans h'.merged,
    h.position.trans h'.position, h.user.trans h'.user⟩

theorem Reply.Agrees.symm {r r' : Reply Value} (h : r.Agrees r') : r'.Agrees r := by
  cases h with
  | ok d v hp hu => exact .ok d v hp.symm hu.symm
  | err d he hp hu => exact .err d he.symm hp.symm hu.symm

theorem Reply.Agrees.trans {r r' r'' : Reply Value} (h : r.Agrees r') (h' : r'.Agrees r'') :
    r.Agrees r'' := by
  cases h with
  | ok d v hp hu =>
    cases h' with
    | ok _ _ hp' hu' => exact .ok d v (hp.trans hp') (hu.trans hu')
  | err d he hp hu =>
    cases h' with
    | err _ he' hp' hu' => exact .err d (he.trans he') (hp.trans hp') (hu.trans hu')

/-- Replies agree if they correspond, where values and parsers are the same and the states say the
same of their place. -/
theorem Correspondence.Even.agrees {C : Correspondence W} {known : C.World → ParserId → Prop}
    (hC : C.Even known) {w : C.World}
    (place : ∀ s t, C.States w s t → s.position = t.position ∧ s.user = t.user)
    {r r' : Reply Value} (h : C.Replies w r r') : r.Agrees r' := by
  cases h with
  | ok b hv hs =>
    cases hC.values.mp hv
    exact .ok b _ (place _ _ hs).1 (place _ _ hs).2
  | err b he hs =>
    have expected := he.expected.imp (S := Eq) fun _ _ h => (hC.parsers.mp h).1
    rw [List.forall₂_eq_eq_eq] at expected
    exact .err b ⟨he.reason, expected, he.merged, (place _ _ he.state).1, (place _ _ he.state).2⟩
      (place _ _ hs).1 (place _ _ hs).2

/-- Errors that agree have the same text. -/
theorem ParseError.Agrees.text {e f : ParseError Value} (h : e.Agrees f) {σ τ : Store W}
    (k : σ.Alike τ) : e.text σ.names = f.text τ.names := by
  simp only [ParseError.text, ParseError.expectedNames, ParseError.message, h.expected, h.reason,
    k.names]

/-- The same outcome, in stores that differ in what belongs to states, results and sessions. -/
def AlikeEnds : EStateM.Result Stop (Store W) α → EStateM.Result Stop (Store W) α → Prop
  | .ok a σ, .ok b τ => a = b ∧ σ.Alike τ
  | .error e σ, .error f τ => e = f ∧ σ.Alike τ
  | _, _ => False

/-- The handler is called when a result is asked for that is not known. -/
theorem comes_force_result {σ : Store W} {i : ResultId} {a : Action W Value}
    (hi : σ.results[i.index]? = some ⟨a, .unset⟩) {z : EStateM.Result Stop (Store W) Value}
    (hz : a.run.Comes (Shelf.results.put i.index .busy σ) z) :
    ∃ z', (Eval.force (.result i)).Comes σ z' ∧ AlikeEnds z z' := by
  have found : Shelf.results.find i.index σ = some ⟨a, .unset⟩ := hi
  refine ⟨_, Shelf.comes_get_unset (force_result i) found hz, ?_⟩
  -- What is noted of the result afterwards belongs to results.
  cases z with
  | ok v τ => exact ⟨rfl, { Store.Alike.refl τ with }⟩
  | error e τ => exact ⟨rfl, { Store.Alike.refl τ with }⟩

namespace Division

variable {d : Division} {w : World} {σ τ : Store W} {n m : Nat} {h : Handlers W} {i : SessionId}
  {y : Aim W}

theorem Split.agrees {ys : List Value} {s t : State Value} (h : d.Split w ys s t) :
    s.position = t.position ∧ s.user = t.user := by
  cases h
  exact ⟨rfl, rfl⟩

theorem agrees {r r' : Reply Value} (h : (d.correspondence W).Replies w r r') : r.Agrees r' := by
  refine d.even.agrees (fun s t hs => ?_) h
  obtain ⟨ys, split⟩ := hs
  exact split.agrees

/-! ## All chunks -/

/-- A complete session stays as it is. -/
theorem forceProvide_done (hd : d.Done h y i τ) (chunk : Source) :
    (i.forceProvide chunk).Comes τ (.ok i τ) := by
  obtain ⟨s, result, hi, hs, -⟩ := hd
  refine comes_of_forall (fun b => ?_) not_exhausted_ok
  simp [Eval.exec, SessionId.forceProvide, SessionId.session, hi, Session.isDone, hs]

/-- An empty chunk changes nothing. -/
theorem comes_provide {c : Stream Value} {vs : List Value} (hc : c.Spells vs)
    {z : EStateM.Result Stop (Store W) SessionId}
    (hz : (if vs.isEmpty then pure i else i.forceProvide (.stream c) : Eval W SessionId).Comes
      τ z) :
    (i.provide (.stream c)).Comes τ z :=
  comes_bind_ok (comes_pure c τ)
    (comes_bind_ok (comes_of_forall (fun _ => hc.isEmpty _ τ) not_exhausted_ok) hz)

theorem provides_done {rest : List (Stream Value × List Value)}
    (spells : ∀ x ∈ rest, x.1.Spells x.2) (hd : d.Done h y i τ) :
    (i.provideAll (rest.map Prod.fst)).Comes τ (.ok i τ) := by
  induction rest with
  | nil => exact comes_pure i τ
  | cons x rest ih =>
    have hx := spells x List.mem_cons_self
    have stays : (i.provide (.stream x.1)).Comes τ (.ok i τ) := by
      refine comes_provide hx ?_
      split
      · exact comes_pure i τ
      · exact forceProvide_done hd _
    exact comes_bind_ok stays (ih fun x hx => spells x (List.mem_cons_of_mem _ hx))

/-- A session is fed the chunks that are left. -/
theorem provides {rest : List (Stream Value × List Value)} {s : Session W}
    (clear : ∀ k ≤ d.pieces.length, d.Clear k y) (spells : ∀ x ∈ rest, x.1.Spells x.2)
    (left : d.pieces.drop n = rest.filter fun x => !x.2.isEmpty) (hn : n ≤ d.pieces.length)
    (hi : τ.sessions[i.index]? = some s) (hs : d.Pending h n m y τ s) :
    ∃ z, (i.provideAll (rest.map Prod.fst)).Comes τ z ∧
      d.Provided h (fun n' _ => n' = d.pieces.length) y z := by
  induction rest generalizing n m i τ s with
  | nil =>
    have hn : n = d.pieces.length := Nat.le_antisymm hn (List.drop_eq_nil_iff.mp left)
    exact ⟨_, comes_pure i τ, .pending hn hi hs⟩
  | cons x rest ih =>
    have hx := spells x List.mem_cons_self
    have spells (x) (hx : x ∈ rest) := spells x (List.mem_cons_of_mem _ hx)
    cases he : x.2.isEmpty with
    | true =>
      -- An empty chunk is passed over, and is none of the pieces.
      rw [List.filter_cons_of_neg (by simp [he])] at left
      obtain ⟨z, hz, provided⟩ := ih spells left hn hi hs
      refine ⟨z, comes_bind_ok (comes_provide hx ?_) hz, provided⟩
      rw [he]
      exact comes_pure i τ
    | false =>
      rw [List.filter_cons_of_pos (by simp [he])] at left
      have next : d.pieces[n]? = some x := by
        rw [← List.head?_drop, left]
        rfl
      have hn : n + 1 ≤ d.pieces.length := (List.getElem?_eq_some_iff.mp next).1
      have chunk : d.chunk n = x.1 := by
        rw [Division.chunk, Int.toNat_natCast, next]
      have left : d.pieces.drop (n + 1) = rest.filter fun x => !x.2.isEmpty := by
        rw [← List.drop_drop, left]
        rfl
      obtain ⟨z, hz, provided⟩ := forceProvide_pending (clear _ hn) (.stream x.1)
        (congrArg Pure.pure chunk.symm) hi hs
      have hz : (i.provide (.stream x.1)).Comes τ z := by
        refine comes_provide hx ?_
        rwa [he]
      cases provided with
      | error hy hs' => exact ⟨_, comes_bind_error hz, .error hy hs'⟩
      | done hd => exact ⟨_, comes_bind_ok hz (provides_done spells hd), .done hd⟩
      | pending hnm hi' hs' =>
        obtain ⟨rfl, -⟩ := hnm
        obtain ⟨z', hz', provided⟩ := ih spells left hn hi' hs'
        exact ⟨z', comes_bind_ok hz hz', provided⟩

/-! ## The end of the input -/

/-- What a session comes to at the end of the input. -/
def Completed (d : Division) (h : Handlers W) (y : Aim W) :
    EStateM.Result Stop (Store W) ResultId → Prop
  | .ok result τ => d.Answers h y result τ
  | .error e τ => ∃ (w : World) (σ : Store W), y.Ends (.error e σ) ∧ d.Stores w σ τ

/-- The result of a complete session. -/
theorem completes_done (hd : d.Done h y i τ) (k : Nat) :
    ∃ result, (do
      match (← i.session).stage with
      | .complete result => return result
      | _ => i.completeFor k : Eval W ResultId).Comes τ (.ok result τ) ∧
      d.Answers h y result τ := by
  obtain ⟨s, result, hi, hs, answers⟩ := hd
  refine ⟨result, comes_of_forall (fun b => ?_) not_exhausted_ok, answers⟩
  simp [Eval.exec, SessionId.session, hi, hs]

/-- Once all chunks are there, a session is told of the end of the input until it is complete. Each
time the plain run has fewer steps left. -/
theorem completes_pending {s : Session W} (clear : ∀ k, d.Clear k y) (hn : d.pieces.length ≤ n)
    (hi : τ.sessions[i.index]? = some s) (hs : d.Pending h n m y τ s) :
    ∃ k z, (i.completeFor k).Comes τ z ∧ d.Completed h y z := by
  induction m using Nat.strongRecOn generalizing n i τ s with
  | ind m ih =>
    -- Behind the last piece there is the empty stream, as at the end of the input.
    have chunk : d.chunk n = .nil := by
      rw [Division.chunk, Int.toNat_natCast, List.getElem?_eq_none hn]
    obtain ⟨z, hz, provided⟩ := forceProvide_pending (clear _) .none
      (congrArg Pure.pure chunk.symm) hi hs
    cases provided with
    | error hy hs' => exact ⟨1, _, comes_bind_error hz, _, _, hy, hs'⟩
    | done hd =>
      obtain ⟨result, complete, answers⟩ := completes_done hd 0
      exact ⟨1, _, comes_bind_ok hz complete, answers⟩
    | @pending _ _ i' τ' s' hnm hi' hs' =>
      obtain ⟨rfl, hm⟩ := hnm
      obtain ⟨k, z', hz', completed⟩ := ih _ hm (by omega) hi' hs'
      refine ⟨k + 1, z', comes_bind_ok hz ?_, completed⟩
      have session : i'.session.Comes τ' (.ok s' τ') := by
        refine comes_of_forall (fun b => ?_) not_exhausted_ok
        simp [Eval.exec, SessionId.session, hi']
      refine comes_bind_ok session ?_
      cases hs' <;> exact hz'

/-- A complete session is not driven any further. -/
theorem completeFor_done (hd : d.Done h y i τ) : ∃ result,
    (do i.completeFor (← read).steps : Eval W ResultId).Comes τ (.ok result τ) ∧
      d.Answers h y result τ := by
  obtain ⟨result, complete, answers⟩ := completes_done hd 0
  have once : (i.completeFor 1).Comes τ _ := comes_bind_ok (forceProvide_done hd .none) complete
  exact ⟨result, comes_loop (fun n => composed_completeFor n i)
    (fun n => exhausted_or_completeFor n i) once, answers⟩

theorem completes {z : EStateM.Result Stop (Store W) SessionId} (clear : ∀ k, d.Clear k y)
    (hz : d.Provided h (fun n _ => n = d.pieces.length) y z) :
    (∃ e τ w σ, z = .error e τ ∧ y.Ends (.error e σ) ∧ d.Stores w σ τ) ∨
    ∃ i τ z', z = .ok i τ ∧ (do i.completeFor (← read).steps).Comes τ z' ∧ d.Completed h y z' := by
  cases hz with
  | error hy hs => exact .inl ⟨_, _, _, _, rfl, hy, hs⟩
  | @done i τ hd =>
    obtain ⟨result, complete, answers⟩ := completeFor_done hd
    exact .inr ⟨i, τ, _, rfl, complete, answers⟩
  | @pending n m i τ s hn hi hs =>
    obtain ⟨k, z', hz', completed⟩ := completes_pending clear (Nat.le_of_eq hn.symm) hi hs
    exact .inr ⟨i, τ, z', rfl, comes_loop (fun n => composed_completeFor n i)
      (fun n => exhausted_or_completeFor n i) hz', completed⟩

/-! ## Whole sessions -/

/-- Chunks of which the empty ones are left out. -/
def ofPieces (pieces : List (Stream Value × List Value)) (spells : ∀ x ∈ pieces, x.1.Spells x.2) :
    Division where
  pieces := pieces.filter fun x => !x.2.isEmpty
  spells x hx := spells x (List.mem_of_mem_filter hx)
  nonempty x hx := by simpa using (List.mem_filter.mp hx).2

theorem flatten_ofPieces (pieces : List (Stream Value × List Value)) :
    ((pieces.filter fun x => !x.2.isEmpty).map Prod.snd).flatten =
      (pieces.map Prod.snd).flatten := by
  induction pieces with
  | nil => rfl
  | cons x pieces ih =>
    cases hx : x.2 with
    | nil => simp [hx, ih]
    | cons v vs => simp [hx, ih]

theorem part_zero_append_after (d : Division) :
    d.part 0 ++ d.after 0 = (d.pieces.map Prod.snd).flatten := by
  rw [part, after]
  cases d.pieces with
  | nil => rfl
  | cons x pieces => rfl

/-- How far a session has come that is fed all chunks, if the plain run on the whole comes to an
end.
-/
theorem session_provided {P : ParserId → Prop} {p : ParserId} {σ : Store W}
    (closed : Closed (fun _ => False) P σ) (still : σ.Still) (hp : P p) (h : Handlers W)
    {whole first : Stream Value} {start : List Value} {rest : List (Stream Value × List Value)}
    (spells : ∀ x ∈ (first, start) :: rest, x.1.Spells x.2)
    (hw : whole.Spells (start ++ (rest.map Prod.snd).flatten)) {position : Int} {user : Value}
    (clear : ∀ k ≤ (ofPieces _ spells).pieces.length, (ofPieces _ spells).Clear k y)
    (hy : y.At m (.run p (.plain false whole position user) []) σ) :
    ∃ z, (do
      let i ← p.startSession (.plain false first position user) h
      i.provideAll (rest.map Prod.fst)).Comes σ z ∧
      (ofPieces _ spells).Provided h (fun n _ => n = (ofPieces _ spells).pieces.length) y z := by
  let d := ofPieces _ spells
  let c : History := ⟨⟨σ.buffers.size⟩, 0⟩
  let s : Session W := ⟨.ready p (.plain false first position user), h, c⟩
  let τ : Store W :=
    { σ with buffers := σ.buffers.push #[], sessions := σ.sessions.push s }
  have filed : d.Filed 0 c τ := by
    refine ⟨rfl, #[], ?_, Nat.le_refl 0, fun k hk => absurd hk (Nat.not_lt_zero k)⟩
    simp [τ, c]
  have stores : d.Stores ⟨P, ⟨fun _ => False, fun _ => none⟩, 0⟩ σ τ := by
    refine ⟨{ Store.Alike.refl σ with }, still,
      ⟨fun p hp => hp.elim, fun _ i x hx => ?_, ?_⟩, closed⟩
    · exact (still i x hx).fit
    · rintro - a c s ⟨⟩
  -- Leaving out empty chunks leaves out no tokens.
  have whole_eq : d.part 0 ++ d.after 0 = start ++ (rest.map Prod.snd).flatten := by
    rw [d.part_zero_append_after]
    exact flatten_ofPieces ((first, start) :: rest)
  have pending : d.Pending h 0 (m + 2) y τ s :=
    .ready rfl (Nat.lt_succ_self _) hp filed stores (whole_eq ▸ hw) hy
  have session : τ.sessions[σ.sessions.size]? = some s := by simp [τ]
  obtain ⟨z, hz, provided⟩ := provides (d := d) (n := 0) (i := ⟨σ.sessions.size⟩) clear spells rfl
    (Nat.zero_le _) session pending
  refine ⟨z, ?_, provided⟩
  have made : (do SessionId.make ⟨.ready p (.plain false first position user), h,
      ← History.empty⟩ : Eval W SessionId).Comes σ (.ok ⟨σ.sessions.size⟩ τ) :=
    comes_of_forall (fun _ => rfl) not_exhausted_ok
  have both := comes_bind_ok (f := SessionId.provideAll (first :: rest.map Prod.fst)) made hz
  simp only [ParserId.startSession, SessionId.provideAll, bind_assoc, State.input] at both ⊢
  exact both

/-- A session that is fed all chunks and told of the end of the input is complete, if the plain run
on the whole comes to an end. -/
theorem session_completes {P : ParserId → Prop} {p : ParserId} {σ : Store W}
    (closed : Closed (fun _ => False) P σ) (still : σ.Still) (hp : P p) (h : Handlers W)
    {whole first : Stream Value} {start : List Value} {rest : List (Stream Value × List Value)}
    (spells : ∀ x ∈ (first, start) :: rest, x.1.Spells x.2)
    (hw : whole.Spells (start ++ (rest.map Prod.snd).flatten)) {position : Int} {user : Value}
    {y : EStateM.Result Stop (Store W) (Finish W)}
    (hy : (p.run (.plain false whole position user)).Comes σ y) :
    ∃ z, (do
      let i ← p.startSession (.plain false first position user) h
      let i ← i.provideAll (rest.map Prod.fst)
      i.completeFor (← read).steps).Comes σ z ∧
      (ofPieces _ spells).Completed h (.plain y) z := by
  obtain ⟨m, reaches⟩ := comes_complete.mp hy
  have clear (k : Nat) : (ofPieces _ spells).Clear k (.plain y) := fun _ _ _ _ _ marked => marked
  obtain ⟨z, hz, provided⟩ := session_provided closed still hp h spells hw (fun k _ => clear k)
    (Aim.at_plain reaches)
  have goes {z' : EStateM.Result Stop (Store W) ResultId}
      (hz' : ((do
        let i ← p.startSession (.plain false first position user) h
        i.provideAll (rest.map Prod.fst)) >>= fun i =>
          (do i.completeFor (← read).steps)).Comes σ z') :
      (do
        let i ← p.startSession (.plain false first position user) h
        let i ← i.provideAll (rest.map Prod.fst)
        i.completeFor (← read).steps).Comes σ z' := by
    rwa [bind_assoc] at hz'
  rcases completes clear provided with
    ⟨e, τ', w, σ', rfl, hy', hs⟩ | ⟨i, τ', z', rfl, hz', completed⟩
  · exact ⟨_, goes (comes_bind_error hz), w, σ', hy', hs⟩
  · exact ⟨z', goes (comes_bind_ok hz hz'), completed⟩

end Division

/-- A session agrees with a plain run. The parser is put together from the primitives and
combinators of the library, with functions of the caller that leave states, results and sessions
alone, and no stream is being parsed lazily. The session starts in a plain state that holds a first
part of the tokens, is provided with the rest in chunks, and is finished.

If the plain run on all the tokens ends with a reply, then what the session comes to is what its
handler comes to for a reply that agrees, called in a store that is alike. If the plain run raises a
fault, the session raises the same fault. Stores that are alike hold the same world of the caller:
whatever functions of the caller note there of their calls is the same on both sides. -/
theorem chunks_are_transparent {P : ParserId → Prop} {p : ParserId} {σ : Store W}
    (closed : Closed (fun _ => False) P σ) (still : σ.Still) (hp : P p) (h : Handlers W)
    {whole first : Stream Value} {start : List Value} {rest : List (Stream Value × List Value)}
    (hf : first.Spells start) (hr : ∀ x ∈ rest, x.1.Spells x.2)
    (hw : whole.Spells (start ++ (rest.map Prod.snd).flatten)) (position : Int) (user : Value) :
    (∀ f τ, (p.run (.plain false whole position user)).Comes σ (.ok f τ) →
      ∃ r r' τ', f = .reply r ∧ r.Agrees r' ∧ τ.Alike τ' ∧
        ∀ z, (h.call r').run.Comes τ' z → ∃ z', AlikeEnds z z' ∧
          (p.runInChunks (.plain false first position user) h (rest.map Prod.fst)).Comes σ z') ∧
    (∀ e τ, (p.run (.plain false whole position user)).Comes σ (.error e τ) → ∃ τ', τ.Alike τ' ∧
      (p.runInChunks (.plain false first position user) h (rest.map Prod.fst)).Comes σ
        (.error e τ')) := by
  have spells : ∀ x ∈ (first, start) :: rest, x.1.Spells x.2 := by
    rintro x hx
    rcases List.mem_cons.mp hx with rfl | hx
    · exact hf
    · exact hr x hx
  have goes {z : EStateM.Result Stop (Store W) Value}
      (hz : ((do
        let i ← p.startSession (.plain false first position user) h
        let i ← i.provideAll (rest.map Prod.fst)
        i.completeFor (← read).steps) >>= fun result => Eval.force (.result result)).Comes σ z) :
      (p.runInChunks (.plain false first position user) h (rest.map Prod.fst)).Comes σ z := by
    simp only [ParserId.runInChunks, SessionId.finish, bind_assoc] at hz ⊢
    exact hz
  constructor
  · intro f τ hy
    obtain ⟨z, hz, completed⟩ := Division.session_completes closed still hp h spells hw hy
    cases z with
    | error e τ' =>
      obtain ⟨w, σ', ⟨hy', -⟩, -⟩ := completed
      cases hy'
    | ok result τ' =>
      obtain ⟨w, r, r', σ', ⟨hy', -⟩, hs, hr', slot⟩ := completed
      cases hy'
      refine ⟨r, r', Shelf.results.put result.index .busy τ', rfl, Division.agrees hr',
        { hs.alike with }, fun z' hz' => ?_⟩
      obtain ⟨z'', force, alike⟩ := comes_force_result slot hz'
      exact ⟨z'', alike, goes (comes_bind_ok hz force)⟩
  · intro e τ hy
    obtain ⟨z, hz, completed⟩ := Division.session_completes closed still hp h spells hw hy
    cases z with
    | ok result τ' =>
      obtain ⟨w, r, r', σ', ⟨hy', -⟩, -⟩ := completed
      cases hy'
    | error e' τ' =>
      obtain ⟨w, σ', ⟨hy', -⟩, hs⟩ := completed
      cases hy'
      exact ⟨τ', hs.alike, goes (comes_bind_error hz)⟩

/-- The second token is refused, so the parse goes back to the chunk of the first one. -/
theorem chunks_are_transparent_going_back :
    let one : Cell Unit := { direct := some (.body (.some ⟨0⟩ fun v => .done (v.beq (.int 1)))) }
    let two : Cell Unit := { direct := some (.body (.seq ⟨0⟩ ⟨0⟩ .group)) }
    let attempt : Cell Unit := { direct := some (.body (.attempt ⟨1⟩)) }
    let either : Cell Unit := { direct := some (.body (.alt ⟨2⟩ ⟨0⟩)) }
    let σ : Store Unit :=
      { world := (), watch := fun _ _ => (), parsers := #[one, two, attempt, either] }
    let chunk (n : Int) : Stream Value := .cons 0 (.int n) .nil
    ∃ τ, ((⟨3⟩ : ParserId).runInChunks (.plain false .nil 0 .none) .value
      [chunk 1, .nil, chunk 2]).Comes σ (.ok (.int 1) τ) := by
  intro one two attempt either σ chunk
  let P : ParserId → Prop := fun p => p.index < 4
  have closed : Closed (fun _ => False) P σ := by
    have body {b : Body Unit} (hb : b.Library (fun _ => False) P) (code : Code Unit)
        (h : some (Code.body b) = some code) : code.Library (fun _ => False) P := by
      cases h
      exact hb
    have none (code : Code Unit) (h : none = some code) : code.Library (fun _ => False) P := by
      cases h
    have start (n : Nat) (h : n < 4) : P ⟨n⟩ := h
    rintro ⟨_ | _ | _ | _ | n⟩ hp
    · exact ⟨one, rfl, body ⟨start 0 (by decide), fun _ => trivial⟩, none⟩
    · exact ⟨two, rfl, body ⟨start 0 (by decide), start 0 (by decide)⟩, none⟩
    · exact ⟨attempt, rfl, body (start 1 (by decide)), none⟩
    · exact ⟨either, rfl, body ⟨start 2 (by decide), start 0 (by decide)⟩, none⟩
    · exact absurd (show n + 4 < 4 from hp) (by omega)
  have still : σ.Still := by rintro i x ⟨⟩
  have spells (n : Int) : (chunk n).Spells [.int n] := .cons .nil
  have rest : ∀ x ∈ [(chunk 1, [.int 1]), (.nil, []), (chunk 2, [.int 2])], x.1.Spells x.2 := by
    simp [spells, Stream.Spells.nil]
  have whole : (Stream.cons 0 (.int 1) (chunk 2)).Spells [.int 1, .int 2] := .cons (spells 2)
  obtain ⟨υ, plain⟩ : ∃ υ, ((⟨3⟩ : ParserId).run (.plain false (.cons 0 (.int 1) (chunk 2)) 0
      .none)).Comes σ (.ok (.reply (.ok true (.int 1) (.plain false (chunk 2) 1 .none))) υ) :=
    ⟨_, (composed_complete _).comes (n := 40) rfl not_exhausted_ok⟩
  obtain ⟨r, r', τ, hr, agrees, -, answer⟩ :=
    (chunks_are_transparent closed still (by decide) .value .nil rest whole 0 .none).1 _ _ plain
  cases hr
  cases agrees with
  | ok d v position user =>
    obtain ⟨z, alike, hz⟩ := answer _ (comes_pure _ τ)
    cases z with
    | error e τ' => exact alike.elim
    | ok v τ' =>
      obtain ⟨rfl, -⟩ := alike
      exact ⟨τ', hz⟩

end ResumableParsing
