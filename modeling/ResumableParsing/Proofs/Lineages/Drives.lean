import ResumableParsing.Proofs.Lineages.Simulation
import ResumableParsing.Proofs.Sessions.Calls
import ResumableParsing.Proofs.Sessions.Moves

/-!
# Driving a session in two stores

A session in a shared store and the same session in a store of its own get corresponding chunks.
Then the sessions that come out correspond as well, however the buffers have been shared and
whatever has been computed before; and at the end of the input the parses of both end with
corresponding replies.

* `Lineages.Follows`: what the left computation comes to, the right one follows
* `Lineages.Sessions`, `Lineages.Unfinished`: corresponding sessions
* `Lineages.follows_forceProvide`, `Lineages.follows_provide`, `Lineages.follows_startSession`: the
  operations that give sessions
* `Lineages.follows_completeFor`: the parses of corresponding sessions end alike
-/

namespace ResumableParsing

variable {W α β γ δ : Type}

/-! ## Records of sessions -/

/-- Nothing has changed but that there are more buffers, results and sessions. -/
structure Store.Records (σ τ : Store W) : Prop where
  /-- The rest is as it was. -/
  rest : τ = { σ with results := τ.results, buffers := τ.buffers, sessions := τ.sessions }
  /-- Nothing has become of the results. -/
  slots : τ.slots = σ.slots

theorem Store.Records.holds {S : Side} {σ τ : Store W} (h : S.Holds σ) (records : σ.Records τ) :
    S.Holds τ := by
  refine h.congr ?_ ?_ ?_ ?_ records.slots <;> rw [records.rest]

theorem Store.Records.spares {σ τ : Store W} (records : σ.Records τ) (T : TailId → Prop) :
    σ.Spares T τ := by
  rw [records.rest]
  exact ⟨fun _ _ h => h, rfl, Store.thunks_of_tails fun _ _ => rfl⟩

/-! ## Results that nobody has asked for -/

/-- If the parse has ended, then its result is not one of the first `n` ones, and nobody has asked
for it. -/
def Stage.Unasked (n : Nat) (σ : Store W) (a : Stage W) : Prop :=
  ∀ i, a = .complete i → n ≤ i.index ∧ σ.slots i.index = .unset

theorem Stage.Unasked.of_pending {n : Nat} {σ : Store W} {a : Stage W}
    (h : ∀ i, a ≠ .complete i) : a.Unasked n σ := fun i hi => absurd hi (h i)

namespace SessionId

/-- The parse of the session has ended with the result. -/
def HasResult (i : SessionId) (σ : Store W) (k : ResultId) : Prop :=
  ∃ s, σ.sessions[i.index]? = some s ∧ s.stage = .complete k

/-- If the session has a result, then this is not one of the first `n` ones, and nobody has asked
for it. -/
def Unasked (n : Nat) (σ : Store W) (i : SessionId) : Prop :=
  ∀ k, i.HasResult σ k → n ≤ k.index ∧ σ.slots k.index = .unset

section

variable {n : Nat} {σ τ : Store W} {i : SessionId} {s : Session W} {k : ResultId}

theorem HasResult.later (h : i.HasResult σ k) (grows : σ.Grows τ) : i.HasResult τ k := by
  obtain ⟨s, hi, hk⟩ := h
  exact ⟨s, grows.sessions _ _ hi, hk⟩

/-- Sessions do not get results, other sessions are made. -/
theorem HasResult.earlier (h : i.HasResult τ k) (hi : σ.sessions[i.index]? = some s)
    (grows : σ.Grows τ) : i.HasResult σ k := by
  obtain ⟨t, ht, hk⟩ := h
  cases (grows.sessions _ _ hi).symm.trans ht
  exact ⟨s, hi, hk⟩

theorem Unasked.later (h : i.Unasked n σ) (hi : σ.sessions[i.index]? = some s) (grows : σ.Grows τ)
    (slots : ∀ k, i.HasResult σ k → τ.slots k.index = σ.slots k.index) : i.Unasked n τ := by
  intro k hk
  have hk := hk.earlier hi grows
  rw [slots k hk]
  exact h k hk

/-- Nothing is asked of a session that is not complete. -/
theorem unasked_of_pending (hi : σ.sessions[i.index]? = some s) (hd : s.isDone = false) (n : Nat) :
    i.Unasked n σ := by
  rintro k ⟨t, ht, hk⟩
  cases hi.symm.trans ht
  rw [Session.isDone, hk] at hd
  cases hd

end

end SessionId

/-! ## The end of a parse -/

/-- The first half of `finish`: the session is fed with ends of the input until its parse is over.
The handlers have not been called yet. -/
def SessionId.completion (i : SessionId) : Eval W ResultId := do
  i.completeFor (← read).steps

theorem SessionId.finish_eq (i : SessionId) : (i.finish : Eval W Value) =
    i.completion >>= fun result => Eval.force (.result result) := by
  rw [SessionId.finish, SessionId.completion, bind_assoc]

theorem composed_completion (i : SessionId) : Composed (i.completion : Eval W ResultId) :=
  .loop (fun n => composed_completeFor n i) fun n => exhausted_or_completeFor n i

namespace Lineages

/-! ## Computations in two stores -/

/-- Both stores have gone on, and more is known of them. -/
structure Onward (w : World) (σ τ : Store W) (w' : World) (σ' τ' : Store W) : Prop where
  /-- More is known, and no handler has been called. -/
  during : w.During w'
  /-- The stores are as the world tells. -/
  stores : Stores w' σ' τ'
  /-- What is known stays known on the left. -/
  left : σ.Grows σ'
  /-- So it does on the right. -/
  right : τ.Grows τ'

/-- The ends correspond: the same reason to break off, or results as `Q` says. -/
def Ends (w : World) (σ τ : Store W) (Q : World → Store W → Store W → α → β → Prop) :
    EStateM.Result Stop (Store W) α → EStateM.Result Stop (Store W) β → Prop
  | .ok a σ', .ok b τ' => ∃ w', Onward w σ τ w' σ' τ' ∧ Q w' σ' τ' a b
  | .error e σ', .error f τ' => e = f ∧ ∃ w', Onward w σ τ w' σ' τ'
  | _, _ => False

/-- Whatever the left computation comes to, the right one comes to a corresponding end. -/
def Follows (w : World) (σ τ : Store W) (Q : World → Store W → Store W → α → β → Prop)
    (x : Eval W α) (y : Eval W β) : Prop :=
  ∀ r, x.Comes σ r → ∃ r', y.Comes τ r' ∧ Ends w σ τ Q r r'

section

variable {w w' : World} {σ σ' τ τ' : Store W} {x : Eval W α} {y : Eval W β}
  {Q : World → Store W → Store W → α → β → Prop} {R : World → Store W → Store W → γ → δ → Prop}

theorem Onward.refl (h : Stores w σ τ) : Onward w σ τ w σ τ := ⟨.refl w, h, .refl σ, .refl τ⟩

theorem Onward.trans {w'' : World} {σ'' τ'' : Store W} (h : Onward w σ τ w' σ' τ')
    (h' : Onward w' σ' τ' w'' σ'' τ'') : Onward w σ τ w'' σ'' τ'' :=
  ⟨h.during.trans h'.during, h'.stores, h.left.trans h'.left, h.right.trans h'.right⟩

theorem Onward.le (h : Onward w σ τ w' σ' τ') : w.Le w' := h.during.toLe

/-- Nothing has become of the results on the left. -/
theorem Onward.leftSlots (hs : Stores w σ τ) (h : Onward w σ τ w' σ' τ') : σ'.slots = σ.slots :=
  h.stores.left.slots.trans (h.during.leftSlots.trans hs.left.slots.symm)

/-- Nor of those on the right. -/
theorem Onward.rightSlots (hs : Stores w σ τ) (h : Onward w σ τ w' σ' τ') : τ'.slots = τ.slots :=
  h.stores.right.slots.trans (h.during.rightSlots.trans hs.right.slots.symm)

/-- Records have been made on both sides. -/
theorem Onward.records (h : Stores w σ τ) (left : σ.Records σ') (right : τ.Records τ')
    (grows : σ.Grows σ') (grows' : τ.Grows τ') : Onward w σ τ w σ' τ' :=
  ⟨.refl w, h.later (.refl _) (left.holds h.left) (left.spares _) (.refl _) (right.holds h.right)
    (right.spares _), grows, grows'⟩

theorem Ends.trans {r : EStateM.Result Stop (Store W) α} {r' : EStateM.Result Stop (Store W) β}
    (h : Onward w σ τ w' σ' τ') (ends : Ends w' σ' τ' Q r r') : Ends w σ τ Q r r' := by
  cases r with
  | ok a σ'' =>
    cases r' with
    | error f τ'' => exact ends
    | ok b τ'' =>
      obtain ⟨w'', onward, hq⟩ := ends
      exact ⟨w'', h.trans onward, hq⟩
  | error e σ'' =>
    cases r' with
    | ok b τ'' => exact ends
    | error f τ'' =>
      obtain ⟨rfl, w'', onward⟩ := ends
      exact ⟨rfl, w'', h.trans onward⟩

theorem follows_of_runs (hs : Stores w σ τ) (hx : Composed x) (hy : Composed y)
    {Q : World → α → β → Prop} (h : (correspondence W).Runs w Q x y) :
    Follows w σ τ (fun w' _ _ => Q w') x y := by
  intro r hr
  obtain ⟨r', hr', ends⟩ := h w σ τ r (.refl w) hs hr
  have grows := hx.grows_of_comes hr
  have grows' := hy.grows_of_comes hr'
  refine ⟨r', hr', ?_⟩
  cases r with
  | ok a σ' =>
    cases r' with
    | error f τ' => exact ends
    | ok b τ' =>
      obtain ⟨w', hle, hs', hq⟩ := ends
      exact ⟨w', ⟨hle, hs', grows, grows'⟩, hq⟩
  | error e σ' =>
    cases r' with
    | ok b τ' => exact ends
    | error f τ' =>
      obtain ⟨rfl, w', hle, hs'⟩ := ends
      exact ⟨rfl, w', hle, hs', grows, grows'⟩

theorem follows_pure (hs : Stores w σ τ) {a : α} {b : β} (h : Q w σ τ a b) :
    Follows w σ τ Q (pure a) (pure b) := by
  intro r hr
  cases hr.unique (comes_pure a σ)
  exact ⟨_, comes_pure b τ, w, .refl hs, h⟩

theorem follows_fault (hs : Stores w σ τ) (f : Fault) :
    Follows w σ τ Q (Eval.fault f) (Eval.fault f) := by
  intro r hr
  cases hr.unique (comes_fault f σ)
  exact ⟨_, comes_fault f τ, rfl, w, .refl hs⟩

theorem follows_bind {f : α → Eval W γ} {g : β → Eval W δ} (hx : Composed x)
    (h : Follows w σ τ Q x y)
    (hf : ∀ w' σ' τ' a b, Onward w σ τ w' σ' τ' → Q w' σ' τ' a b →
      Follows w' σ' τ' R (f a) (g b)) : Follows w σ τ R (x >>= f) (y >>= g) := by
  intro r hr
  rcases hr.of_bind hx with ⟨a, σ', ha, hr⟩ | ⟨e, σ', he, rfl⟩
  · obtain ⟨r₁, hy, ends⟩ := h _ ha
    cases r₁ with
    | error f τ' => exact ends.elim
    | ok b τ' =>
      obtain ⟨w', onward, hq⟩ := ends
      obtain ⟨r', hr', ends⟩ := hf w' σ' τ' a b onward hq r hr
      exact ⟨r', comes_bind_ok hy hr', ends.trans onward⟩
  · obtain ⟨r₁, hy, ends⟩ := h _ he
    cases r₁ with
    | ok b τ' => exact ends.elim
    | error f τ' =>
      obtain ⟨rfl, ends⟩ := ends
      exact ⟨_, comes_bind_error hy, rfl, ends⟩

/-- Computations that do the same in these stores. -/
theorem Follows.congr {x' : Eval W α} {y' : Eval W β} (hx : ∀ m, x m σ = x' m σ)
    (hy : ∀ m, y m τ = y' m τ) (h : Follows w σ τ Q x' y') : Follows w σ τ Q x y := by
  intro r hr
  obtain ⟨r', hr', ends⟩ := h r (hr.congr fun m => (hx m).symm)
  exact ⟨r', hr'.congr hy, ends⟩

/-- Both computations make records. -/
theorem follows_record (hs : Stores w σ τ) {a : α} {b : β} (hx : ∀ m, x m σ = .ok a σ')
    (hy : ∀ m, y m τ = .ok b τ') (left : σ.Records σ') (right : τ.Records τ')
    (composed : Composed x)
    (composed' : Composed y) (h : Onward w σ τ w σ' τ' → Q w σ' τ' a b) : Follows w σ τ Q x y := by
  intro r hr
  have ha : x.Comes σ (.ok a σ') := comes_of_forall (fun _ => hx _) not_exhausted_ok
  have hb : y.Comes τ (.ok b τ') := comes_of_forall (fun _ => hy _) not_exhausted_ok
  cases hr.unique ha
  have onward := Onward.records hs left right (composed.grows_of_comes ha)
    (composed'.grows_of_comes hb)
  exact ⟨_, hb, w, onward, h onward⟩

/-- A loop takes as many rounds on the right as on the left. -/
theorem follows_loop {f : Nat → Eval W α} {g : Nat → Eval W β} (hf : ∀ n, Composed (f n))
    (hg : ∀ n, Composed (g n)) (hr : ∀ n m σ, Exhausted (g n m σ) ∨ g (n + 1) m σ = g n m σ)
    (h : ∀ n, Follows w σ τ Q (f n) (g n)) :
    Follows w σ τ Q (do f (← read).steps) (do g (← read).steps) := by
  intro r hx
  obtain ⟨n, hx⟩ := of_comes_loop hf hx
  obtain ⟨r', hy, ends⟩ := h n r hx
  exact ⟨r', comes_loop hg hr hy, ends⟩

/-- Nothing follows a computation that is short of steps. -/
theorem follows_exhausted : Follows w σ τ Q (throw .exhausted) y := by
  -- Only ends that more steps do not change are ends of a computation.
  rintro r ⟨he, n, hn⟩
  exact absurd ⟨σ, (hn n (Nat.le_refl n)).symm⟩ he

end

/-! ## Corresponding sessions -/

/-- The streams are chunks with the same elements. -/
def Chunks (w : World) (c d : Stream Value) : Prop := ∃ x, w.left.Chunk c x ∧ w.right.Chunk d x

/-- The results are the handlers' answers to corresponding replies. -/
def Results (w : World) (σ τ : Store W) (h : Handlers W) (i j : ResultId) : Prop :=
  ∃ m n r r', (correspondence W).Replies w r r' ∧
    σ.results[i.index]? = some m ∧ m.thunk = h.call r ∧
    τ.results[j.index]? = some n ∧ n.thunk = h.call r'

/-- Both parses are to start in corresponding states, wait behind corresponding tokens, or have
ended with corresponding replies. -/
inductive Stages (w : World) (σ τ : Store W) (h : Handlers W) : Stage W → Stage W → Prop where
  | ready {p q : ParserId} {i j : Stream Value} {n : Int} : w.pairing.parsers p q →
      Stages w σ τ h (.ready p (.plain false i n w.user)) (.ready q (.plain false j n w.user))
  | waiting {r r' : Request W} : Finishes w (.request r) (.request r') →
      Stages w σ τ h (.waiting r) (.waiting r')
  | complete {i j : ResultId} : Results w σ τ h i j → Stages w σ τ h (.complete i) (.complete j)

/-- The sessions have the same handlers, chunks with the same elements, and have come as far. -/
structure Paired (w : World) (σ τ : Store W) (h : Handlers W) (s t : Session W) : Prop where
  /-- The handlers of the left one. -/
  left : s.handlers = h
  /-- The handlers of the right one. -/
  right : t.handlers = h
  /-- The chunks. -/
  chunks : ∃ cs ds, s.chunks.Lists σ cs ∧ t.chunks.Lists τ ds ∧ List.Forall₂ (Chunks w) cs ds
  /-- How far they have come. -/
  stage : Stages w σ τ h s.stage t.stage

/-- Corresponding sessions. -/
def Sessions (w : World) (σ τ : Store W) (h : Handlers W) (i j : SessionId) : Prop :=
  ∃ s t, σ.sessions[i.index]? = some s ∧ τ.sessions[j.index]? = some t ∧ Paired w σ τ h s t

/-- Corresponding sessions of which none has been finished. The result of the left one is not one of
the first `n` ones. -/
structure Unfinished (n : Nat) (w : World) (σ τ : Store W) (h : Handlers W) (i j : SessionId) :
    Prop where
  /-- They correspond. -/
  sessions : Sessions w σ τ h i j
  /-- The left one has not been finished. -/
  left : i.Unasked n σ
  /-- Nor has the right one. -/
  right : j.Unasked 0 τ

section

variable {w w' : World} {σ σ' τ τ' : Store W} {h : Handlers W} {c d : Stream Value}
  {s t : Session W} {f g : Finish W} {n : Nat}

/-! ### Later stores -/

theorem Chunks.mono (hle : w.Le w') (hc : Chunks w c d) : Chunks w' c d := by
  obtain ⟨x, hc, hd⟩ := hc
  exact ⟨x, hc.mono hle.left, hd.mono hle.right⟩

/-- Both of them are empty, or none is. -/
theorem Chunks.isEmpty (hc : Chunks w c d) :
    (correspondence W).Runs w (fun _ a b => a = b) c.isEmpty d.isEmpty := by
  obtain ⟨x, ⟨⟨r, hc⟩, -⟩, ⟨r', hd⟩, -⟩ := hc
  exact runs_of_finds (Side.finds_contents hc.readable.isEmpty)
    (Side.finds_contents hd.readable.isEmpty)
    fun _ a b _ ha hb => Bool.eq_iff_iff.mpr (ha.trans hb.symm)

theorem Finishes.mono (hle : w.Le w') (hf : Finishes w f g) : Finishes w' f g := by
  have hC := lawful W
  cases hf with
  | reply hr => exact .reply (hC.replies_mono hle hr)
  | request hv hk =>
    rw [← hle.user]
    exact .request (hv.mono hle.pairing) (hC.continuations_mono hle hk)

theorem Results.later (hle : w.Le w') (left : σ.Grows σ') (right : τ.Grows τ') {i j : ResultId}
    (hr : Results w σ τ h i j) : Results w' σ' τ' h i j := by
  obtain ⟨m, n, r, r', replies, hm, em, hn, en⟩ := hr
  obtain ⟨m', hm', same, -⟩ := left.results _ m hm
  obtain ⟨n', hn', same', -⟩ := right.results _ n hn
  exact ⟨m', n', r, r', (lawful W).replies_mono hle replies, hm', same.trans em, hn',
    same'.trans en⟩

theorem Stages.later (hle : w.Le w') (left : σ.Grows σ') (right : τ.Grows τ') {a b : Stage W}
    (hab : Stages w σ τ h a b) : Stages w' σ' τ' h a b := by
  cases hab with
  | ready hp =>
    rw [← hle.user]
    exact .ready (hle.pairing.parsers _ _ hp)
  | waiting hr => exact .waiting (hr.mono hle)
  | complete hr => exact .complete (hr.later hle left right)

theorem Paired.later (hle : w.Le w') (left : σ.Grows σ') (right : τ.Grows τ')
    (hst : Paired w σ τ h s t) : Paired w' σ' τ' h s t := by
  obtain ⟨hs, ht, ⟨cs, ds, hc, hd, chunks⟩, stage⟩ := hst
  exact ⟨hs, ht, ⟨cs, ds, hc.later left.carries, hd.later right.carries,
    chunks.imp fun _ _ => Chunks.mono hle⟩, stage.later hle left right⟩

theorem Sessions.later (hle : w.Le w') (left : σ.Grows σ') (right : τ.Grows τ') {i j : SessionId}
    (hij : Sessions w σ τ h i j) : Sessions w' σ' τ' h i j := by
  obtain ⟨s, t, hs, ht, paired⟩ := hij
  exact ⟨s, t, left.sessions _ s hs, right.sessions _ t ht, paired.later hle left right⟩

theorem Unfinished.later (hs : Stores w σ τ) (on : Onward w σ τ w' σ' τ') {i j : SessionId}
    (hij : Unfinished n w σ τ h i j) : Unfinished n w' σ' τ' h i j := by
  have sessions := hij.sessions
  obtain ⟨s, t, hi, hj, -⟩ := hij.sessions
  exact ⟨sessions.later on.le on.left on.right,
    hij.left.later hi on.left fun k _ => congrFun (on.leftSlots hs) k.index,
    hij.right.later hj on.right fun k _ => congrFun (on.rightSlots hs) k.index⟩

/-- Both sessions are complete, or neither is. -/
theorem Stages.isDone_eq (hst : Stages w σ τ h s.stage t.stage) : s.isDone = t.isDone := by
  rw [Session.isDone, Session.isDone]
  generalize s.stage = a at hst
  generalize t.stage = b at hst
  cases hst <;> rfl

/-! ### Chunks -/

/-- Both histories get one more chunk. -/
theorem follows_append (hs : Stores w σ τ) {l l' : History} {cs ds : List (Stream Value)}
    (hl : l.Lists σ cs) (hl' : l'.Lists τ ds) (c d : Stream Value) :
    Follows w σ τ (fun _ σ' τ' l l' => l.Lists σ' (cs ++ [c]) ∧ l'.Lists τ' (ds ++ [d]))
      (l.append c) (l'.append d) := by
  obtain ⟨k, buffers, lists, append⟩ := hl.append_eq c
  obtain ⟨k', buffers', lists', append'⟩ := hl'.append_eq d
  exact follows_record hs (fun m => append σ m rfl) (fun m => append' τ m rfl) ⟨rfl, rfl⟩
    ⟨rfl, rfl⟩ (composed_appendChunk l c) (composed_appendChunk l' d)
    fun _ => ⟨lists, lists'⟩

/-- Chunks of the same number are found in both histories. -/
theorem follows_chunk (hs : Stores w σ τ) {l l' : History} {cs ds : List (Stream Value)}
    (hl : l.Lists σ cs) (hl' : l'.Lists τ ds) (chunks : List.Forall₂ (Chunks w) cs ds) {n : Int}
    (has : l.has n = true) : Follows w σ τ (fun w' _ _ => Chunks w') (l.chunk n) (l'.chunk n) := by
  have size : l.size = cs.length := hl.choose_spec.2.1
  have size' : l'.size = ds.length := hl'.choose_spec.2.1
  have length := chunks.length_eq
  have inside : n < l.size := by simpa [History.has] using has
  -- A number below zero is a fault on both sides.
  by_cases hn : 0 ≤ n
  · obtain ⟨k, rfl⟩ := Int.eq_ofNat_of_zero_le hn
    have hk : k < cs.length := by omega
    have hk' : k < ds.length := by omega
    have found : cs[k]? = some cs[k] := List.getElem?_eq_getElem hk
    have found' : ds[k]? = some ds[k] := List.getElem?_eq_getElem hk'
    refine Follows.congr (fun m => hl.chunk_eq found m) (fun m => hl'.chunk_eq found' m) ?_
    exact follows_pure hs (List.Forall₂.get chunks hk hk')
  · rw [History.chunk, History.chunk, if_neg (by omega), if_neg (by omega)]
    exact follows_fault hs _

/-! ### Going on -/

/-- Both parses are at the beginning of a chunk. -/
theorem runs_inChunk (hc : Chunks w c d) (n p : Int) :
    (correspondence W).Runs w (correspondence W).States
      (State.inChunk n (.plain false c p w.user)) (State.inChunk n (.plain false d p w.user)) := by
  obtain ⟨x, hc, hd⟩ := hc
  exact runs_of_finds (Side.finds_inChunk (x := ⟨n, x, p, w.user⟩) hc)
    (Side.finds_inChunk (x := ⟨n, x, p, w.user⟩) hd)
    fun _ _ _ hle hs ht => ⟨_, hle.user.symm, hs, ht⟩

/-- Both parses that wait arrive there. -/
theorem runs_arrive {r r' : Request W} (hr : Finishes w (.request r) (.request r'))
    (hc : Chunks w c d) :
    (correspondence W).Runs w (correspondence W).Tasks (r.arrive c) (r'.arrive d) := by
  have hC := ordered W
  cases hr with
  | @request n p i j v v' k l hv hk =>
    simp only [Request.arrive, State.setInput, State.alter, pure_bind]
    refine hC.bind (composed_inChunk n _) (runs_inChunk hc n p) fun w₁ s t h₁ hst =>
      hC.pure fun w₂ h₂ => ?_
    have hle : w.Le w₂ := World.Le.trans h₁ h₂
    exact .arrive ((lawful W).states_mono h₂ hst) (hv.mono hle.pairing)
      ((lawful W).continuations_mono hle hk)

/-- Both parses are opened with the chunks, unless they are complete. -/
theorem runs_opening {a b : Stage W} (hab : Stages w σ τ h a b) (hc : Chunks w c d) :
    (correspondence W).Runs w (fun w' => Option.Rel ((correspondence W).Tasks w'))
      (a.opening c) (b.opening d) := by
  have hC := ordered W
  cases hab with
  | @ready p q i j n hp =>
    simp only [Stage.opening, State.setInput, State.alter, pure_bind]
    refine hC.bind (composed_inChunk 0 _) (runs_inChunk hc 0 n) fun w₁ s t h₁ hst =>
      hC.pure fun w₂ h₂ => ?_
    have hle : w.Le w₂ := World.Le.trans h₁ h₂
    exact .some (.run (hle.pairing.parsers _ _ hp) ((lawful W).states_mono h₂ hst) .nil)
  | @waiting r r' hr =>
    rw [Stage.opening, Stage.opening, map_eq_pure_bind, map_eq_pure_bind]
    refine hC.bind (composed_arrive r c) (runs_arrive hr hc) fun w₁ t u _ ht =>
      hC.pure fun w₂ h₂ => ?_
    exact .some ((lawful W).tasks_mono h₂ ht)
  | complete _ => exact hC.pure fun _ _ => .none

/-- Requests for old chunks are answered alike. -/
theorem follows_replay (n : Nat) (hs : Stores w σ τ) {l l' : History} {cs ds : List (Stream Value)}
    (hl : l.Lists σ cs) (hl' : l'.Lists τ ds) (chunks : List.Forall₂ (Chunks w) cs ds)
    (hf : Finishes w f g) :
    Follows w σ τ (fun w' _ _ => Finishes w') (Finish.replay l n f) (Finish.replay l' n g) := by
  induction n generalizing w σ τ f g with
  | zero => exact follows_exhausted
  | succ n ih =>
    have wait := hf
    cases hf with
    | reply hr => exact follows_pure hs (.reply hr)
    | @request m p i j v v' k k' hv hk =>
      have size := hl.choose_spec.2.1
      have size' := hl'.choose_spec.2.1
      -- Both histories are equally long, so both have the chunk or neither has.
      have same : l.has m = l'.has m := by
        rw [History.has, History.has, size, size', chunks.length_eq]
      simp only [Finish.replay, ← same]
      split
      · next has =>
        refine follows_bind (composed_chunk _ m) (follows_chunk hs hl hl' chunks has)
          fun w₁ σ₁ τ₁ c d onward hc => ?_
        simp only [resume_eq_arrive, bind_assoc]
        have arrive := runs_arrive (wait.mono onward.le) hc
        refine follows_bind (composed_arrive _ c) (follows_of_runs onward.stores
          (composed_arrive _ c) (composed_arrive _ d) arrive) fun w₂ σ₂ τ₂ t t' onward₂ ht => ?_
        refine follows_bind (composed_complete t) (follows_of_runs onward₂.stores
          (composed_complete t) (composed_complete t') (runs_complete ht))
          fun w₃ σ₃ τ₃ f g onward₃ hf => ?_
        have onward := (onward.trans onward₂).trans onward₃
        exact ih onward.stores (hl.later onward.left.carries) (hl'.later onward.right.carries)
          (chunks.imp fun _ _ => Chunks.mono onward.le) hf
      · exact follows_pure hs wait

/-- Whether a parse waits or has ended is noted alike. -/
theorem follows_stage (hs : Stores w σ τ) (hf : Finishes w f g) (hn : n ≤ σ.results.size)
    (l l' : History) : Follows w σ τ (fun w' σ' τ' a b => Stages w' σ' τ' h a b ∧
      a.Unasked n σ' ∧ b.Unasked 0 τ') (f.stage h l) (g.stage h l') := by
  have debug (w : World) (m m' : Store W → String) :
      (correspondence W).Runs w (fun _ _ _ => True) (Eval.debug m) (Eval.debug m') :=
    (lawful W).debug w m m'
  have wait := hf
  cases hf with
  | request =>
    refine follows_bind (.debug _) (follows_of_runs hs (.debug _) (.debug _) (debug w _ _))
      fun w₁ σ₁ τ₁ _ _ onward _ => follows_pure onward.stores ?_
    exact ⟨.waiting (wait.mono onward.le), .of_pending nofun, .of_pending nofun⟩
  | @reply r r' hr =>
    -- The results are new, so they have been neither asked for nor found before.
    have made : Follows w σ τ (fun w' σ' τ' i j => Results w' σ' τ' h i j ∧
        (n ≤ i.index ∧ σ'.slots i.index = .unset) ∧ τ'.slots j.index = .unset)
        (ResultId.make (h.call r)) (ResultId.make (h.call r')) := by
      refine follows_record hs (fun _ => rfl) (fun _ => rfl) ⟨rfl, σ.slots_push _⟩
        ⟨rfl, τ.slots_push _⟩ (composed_makeResult _) (composed_makeResult _)
        fun _ => ⟨?_, ⟨hn, ?_⟩, ?_⟩
      · exact ⟨_, _, r, r', hr, Array.getElem?_push_size, rfl, Array.getElem?_push_size, rfl⟩
      · exact Store.slots_of_some (m := ⟨h.call r, .unset⟩) Array.getElem?_push_size
      · exact Store.slots_of_some (m := ⟨h.call r', .unset⟩) Array.getElem?_push_size
    refine follows_bind (composed_makeResult _) made fun w₁ σ₁ τ₁ i j onward hij => ?_
    obtain ⟨hij, ⟨hi, left⟩, right⟩ := hij
    refine follows_bind (.debug _) (follows_of_runs onward.stores (.debug _) (.debug _)
      (debug w₁ _ _)) fun w₂ σ₂ τ₂ _ _ onward₂ _ => follows_pure onward₂.stores
        ⟨.complete (hij.later onward₂.le onward₂.left onward₂.right), ?_, ?_⟩
    · rintro _ ⟨⟩
      rw [onward₂.leftSlots onward.stores]
      exact ⟨hi, left⟩
    · rintro _ ⟨⟩
      rw [onward₂.rightSlots onward.stores]
      exact ⟨Nat.zero_le _, right⟩

/-- Corresponding sessions are made. -/
theorem follows_make (hs : Stores w σ τ) (hst : Paired w σ τ h s t) (left : s.stage.Unasked n σ)
    (right : t.stage.Unasked 0 τ) :
    Follows w σ τ (fun w' σ' τ' => Unfinished n w' σ' τ' h) (SessionId.make s)
      (SessionId.make t) := by
  refine follows_record hs (fun _ => rfl) (fun _ => rfl) ⟨rfl, rfl⟩ ⟨rfl, rfl⟩
    (composed_makeSession s) (composed_makeSession t) fun onward => ⟨?_, ?_, ?_⟩
  · exact ⟨s, t, Array.getElem?_push_size, Array.getElem?_push_size,
      hst.later onward.le onward.left onward.right⟩
  · rintro k ⟨s', hs', hk⟩
    cases Array.getElem?_push_size.symm.trans hs'
    exact left k hk
  · rintro k ⟨t', ht', hk⟩
    cases Array.getElem?_push_size.symm.trans ht'
    exact right k hk

/-- Both parses are driven as far as their chunks go. -/
theorem follows_drive (hs : Stores w σ τ) (hn : n ≤ σ.results.size) (left : s.handlers = h)
    (right : t.handlers = h)
    {l l' : History} {cs ds : List (Stream Value)} (hl : l.Lists σ cs) (hl' : l'.Lists τ ds)
    (chunks : List.Forall₂ (Chunks w) cs ds) {x y : Task W}
    (hxy : (correspondence W).Tasks w x y) :
    Follows w σ τ (fun w' σ' τ' => Unfinished n w' σ' τ' h) (s.drive l x) (t.drive l' y) := by
  refine follows_bind (composed_complete x) (follows_of_runs hs (composed_complete x)
    (composed_complete y) (runs_complete hxy)) fun w₁ σ₁ τ₁ f g on₁ hf => ?_
  have hl₁ := hl.later on₁.left.carries
  have hl₁' := hl'.later on₁.right.carries
  have chunks₁ := chunks.imp fun _ _ => Chunks.mono on₁.le
  have replay : Follows w₁ σ₁ τ₁ (fun w' _ _ => Finishes w') (f.replayed l) (g.replayed l') :=
    follows_loop (fun n => composed_replayFor l n f) (fun n => composed_replayFor l' n g)
      (fun n => exhausted_or_replay l' n g)
      fun n => follows_replay n on₁.stores hl₁ hl₁' chunks₁ hf
  refine follows_bind (composed_replay l f) replay fun w₂ σ₂ τ₂ f g on₂ hf => ?_
  rw [Session.settle, Session.settle, left, right]
  have more : n ≤ σ₂.results.size := hn.trans (on₁.left.trans on₂.left).results.size_le
  refine follows_bind (composed_stage h l f) (follows_stage on₂.stores hf more l l')
    fun w₃ σ₃ τ₃ a b on₃ hab => ?_
  have on := on₂.trans on₃
  exact follows_make on₃.stores ⟨rfl, rfl, ⟨cs, ds, hl₁.later on.left.carries,
    hl₁'.later on.right.carries, chunks₁.imp fun _ _ => Chunks.mono on.le⟩, hab.1⟩ hab.2.1 hab.2.2

/-! ## The operations of sessions -/

/-- Corresponding sessions get corresponding chunks. -/
theorem follows_forceProvide (hs : Stores w σ τ) (hn : n ≤ σ.results.size) {i j : SessionId}
    (hij : Unfinished n w σ τ h i j) {x y : Source} (hx : (x.asStream : Eval W _) = pure c)
    (hy : (y.asStream : Eval W _) = pure d) (hc : Chunks w c d) :
    Follows w σ τ (fun w' σ' τ' => Unfinished n w' σ' τ' h) (i.forceProvide x)
      (j.forceProvide y) := by
  have sessions := hij
  obtain ⟨s, t, hi, hj, paired⟩ := hij.sessions
  -- A complete session stays as it is, so both have to be complete or none.
  have same := paired.stage.isDone_eq
  cases hd : s.isDone with
  | true =>
    exact .congr (forceProvide_complete x hi hd) (forceProvide_complete y hj (same ▸ hd))
      (follows_pure hs sessions)
  | false =>
    refine .congr (forceProvide_pending_eq hi hd x) (forceProvide_pending_eq hj (same ▸ hd) y) ?_
    obtain ⟨left, right, ⟨cs, ds, hl, hl', chunks⟩, stage⟩ := paired
    simp only [Session.receive, Session.opening, hx, hy, pure_bind, bind_assoc]
    refine follows_bind (composed_appendChunk _ c) (follows_append hs hl hl' c d)
      fun w₁ σ₁ τ₁ l l' on₁ lists => ?_
    have stage₁ := stage.later on₁.le on₁.left on₁.right
    refine follows_bind (composed_openStage c _)
      (follows_of_runs on₁.stores (composed_openStage c _) (composed_openStage d _)
        (runs_opening stage₁ (hc.mono on₁.le)))
      fun w₂ σ₂ τ₂ a b on₂ hab => ?_
    have on := on₁.trans on₂
    cases hab with
    | none => exact follows_pure on₂.stores (sessions.later hs on)
    | some htu =>
      refine follows_drive on₂.stores (hn.trans on.left.results.size_le) left right
        (lists.1.later on₂.left.carries) (lists.2.later on₂.right.carries) ?_ htu
      exact List.rel_append (chunks.imp fun _ _ => Chunks.mono on.le)
        (.cons (hc.mono on.le) .nil)

/-- So they do if the chunks are passed over where they are empty. -/
theorem follows_provide (hs : Stores w σ τ) (hn : n ≤ σ.results.size) {i j : SessionId}
    (hij : Unfinished n w σ τ h i j) (hc : Chunks w c d) :
    Follows w σ τ (fun w' σ' τ' => Unfinished n w' σ' τ' h) (i.provide (.stream c))
      (j.provide (.stream d)) := by
  simp only [SessionId.provide, Source.asStream, pure_bind]
  refine follows_bind (composed_isEmpty c) (follows_of_runs hs (composed_isEmpty c)
    (composed_isEmpty d) hc.isEmpty) ?_
  rintro w₁ σ₁ τ₁ empty _ on rfl
  have hij := hij.later hs on
  split
  · exact follows_pure on.stores hij
  · exact follows_forceProvide on.stores (hn.trans on.left.results.size_le) hij rfl rfl
      (hc.mono on.le)

/-- Corresponding sessions are started. -/
theorem follows_startSession (hs : Stores w σ τ) (hn : n ≤ σ.results.size) {p q : ParserId}
    (hp : w.pairing.parsers p q) (hc : Chunks w c d) (k : Int) :
    Follows w σ τ (fun w' σ' τ' => Unfinished n w' σ' τ' h)
      (p.startSession (.plain false c k w.user) h)
      (q.startSession (.plain false d k w.user) h) := by
  have opened : Follows w σ τ (fun _ σ' τ' l l' => l.Lists σ' [] ∧ l'.Lists τ' [])
      History.empty History.empty := by
    refine follows_record hs (fun _ => rfl) (fun _ => rfl) ⟨rfl, rfl⟩ ⟨rfl, rfl⟩
      composed_newHistory composed_newHistory fun _ =>
        ⟨⟨#[], ?_, rfl, List.nil_prefix⟩, ⟨#[], ?_, rfl, List.nil_prefix⟩⟩
    · exact Array.getElem?_push_size
    · exact Array.getElem?_push_size
  refine follows_bind composed_newHistory opened fun w₁ σ₁ τ₁ l l' on₁ lists => ?_
  rw [← on₁.le.user]
  refine follows_bind (composed_makeSession _) (follows_make on₁.stores (h := h) (n := n) ⟨rfl, rfl,
    ⟨[], [], lists.1, lists.2, .nil⟩, .ready (on₁.le.pairing.parsers _ _ hp)⟩
    (.of_pending nofun) (.of_pending nofun)) fun w₂ σ₂ τ₂ i j on₂ hij => ?_
  have on := on₁.trans on₂
  exact follows_provide on₂.stores (hn.trans on.left.results.size_le) hij (hc.mono on.le)

/-- A session is looked up. -/
theorem session_eq {i : SessionId} (hi : σ.sessions[i.index]? = some s) (m : Means W) :
    i.session m σ = .ok s σ := by
  simp [SessionId.session, hi]

theorem session_bind_eq {i : SessionId} (hi : σ.sessions[i.index]? = some s)
    (f : Session W → Eval W α) (m : Means W) : (i.session >>= f) m σ = f s m σ := by
  simp [session_eq hi]

/-- Corresponding sessions are complete after the same number of empty chunks, and their results
have not been asked for. -/
theorem follows_completeFor (k : Nat) (hs : Stores w σ τ) (hn : n ≤ σ.results.size)
    {i j : SessionId} (hij : Unfinished n w σ τ h i j) :
    Follows w σ τ (fun w' σ' τ' m m' => Results w' σ' τ' h m m' ∧
      (n ≤ m.index ∧ σ'.slots m.index = .unset) ∧ τ'.slots m'.index = .unset)
      (i.completeFor k) (j.completeFor k) := by
  induction k generalizing w σ τ i j with
  | zero => exact follows_exhausted
  | succ k ih =>
    have empty : Chunks w .nil .nil := by
      have data : ∀ v ∈ (.nil : Elements), v.Settled :=
        fun v hv => absurd hv (Stream'.Seq.notMem_nil v)
      exact ⟨.nil, ⟨⟨0, .nil⟩, data⟩, ⟨0, .nil⟩, data⟩
    refine follows_bind (composed_forceProvide _ i) (follows_forceProvide hs hn hij rfl rfl empty)
      fun w₁ σ₁ τ₁ i j on hij => ?_
    have more := hn.trans on.left.results.size_le
    obtain ⟨s, t, hi, hj, -, -, -, stage⟩ := hij.sessions
    refine .congr (session_bind_eq hi _) (session_bind_eq hj _) ?_
    generalize e : s.stage = a at stage
    generalize e' : t.stage = b at stage
    cases stage with
    | ready _ => exact ih on.stores more hij
    | waiting _ => exact ih on.stores more hij
    | complete hr =>
      exact follows_pure on.stores
        ⟨hr, hij.left _ ⟨s, hi, e⟩, (hij.right _ ⟨t, hj, e'⟩).2⟩

end

end Lineages

end ResumableParsing
