import ResumableParsing.Proofs.Lineages.Pools
import ResumableParsing.Proofs.Storage.Agreement

/-!
# Sessions are values

Sessions that are made from one another share the buffer of their chunks, the streams of the chunks,
what the states inside of them remember, and the tails of lazy cells. Nothing of this is seen. A
session is what a session is that has been fed the same chunks all alone, whatever has been done
with others that have the same beginning, and whatever has been raised on the way. Only names are
shared: a parser that gets another name gets it for all sessions.

* `Value.Matches`, `Reply.Matches`: what is the same, although the one store may know more than the
  other
* `SessionId.Agree`: what two sessions come to at the end of the input
* `SessionId.Same`: sessions that cannot be told apart
* `sessions_are_values`: sessions of a pool are what sessions all alone are
* `sessions_share_names_and_world`: what they share nevertheless
-/

namespace ResumableParsing

open Lineages

variable {W : Type}

/-! ## What is the same in two stores -/

/-- The values are the same, each in its own store: they are put together in the same way from data
and from deferred tails. What belongs together is computed alike, but it may be known in one of the
stores only. -/
def Value.Matches (σ τ : Store W) (v u : Value) : Prop :=
  ∃ w : World, Stores w σ τ ∧ w.pairing.Like v u

/-- The computations give the same value, or they break off for the same reason. -/
inductive Value.Ends : EStateM.Result Stop (Store W) Value → EStateM.Result Stop (Store W) Value →
    Prop where
  | value {v u : Value} {σ τ : Store W} : v.Matches σ τ u → Ends (.ok v σ) (.ok u τ)
  | stop (e : Stop) (σ τ : Store W) : Ends (.error e σ) (.error e τ)

/-- The replies have the same outcome and the same contents. -/
inductive Reply.Matches (σ τ : Store W) : Reply Value → Reply Value → Prop where
  | ok {v u : Value} {s t : State Value} (d : Bool) : v.Matches σ τ u → s.Corresponds σ τ t →
      Matches σ τ (.ok d v s) (.ok d u t)
  | err {e f : ParseError Value} {s t : State Value} (d : Bool) : e.Corresponds σ τ f →
      s.Corresponds σ τ t → Matches σ τ (.err d e s) (.err d f t)

/-- What the session `i` of one store and the session `j` of another one come to at the end of the
input. Their parses end with replies that are the same, for which the handlers are called, and the
answers are put together in the same way from what is the same, or the same is raised. Or both
parses break off for the same reason, and no handler is called. -/
inductive SessionId.Agree (h : Handlers W) (σ τ : Store W) (i j : SessionId) :
    EStateM.Result Stop (Store W) Value → EStateM.Result Stop (Store W) Value → Prop where
  | answer {s s' : Reply Value} {w : World} {r r' : EStateM.Result Stop (Store W) Value} :
      i.EndsWith h σ s → j.EndsWith h τ s' → s.Matches (left r) (left r') s' →
      Stores w (left r) (left r') → Lineages.Alike w r r' → Agree h σ τ i j r r'
  | stop (e : Stop) {σ' τ' : Store W} : i.completion.Comes σ (.error e σ') →
      j.completion.Comes τ (.error e τ') → Agree h σ τ i j (.error e σ') (.error e τ')

/-- The chunks have the same elements, each in its own store. -/
def Stream.Matches (σ τ : Store W) (c d : Stream Value) : Prop :=
  ∃ x, c.Supplies σ x ∧ d.Supplies τ x

/-- The session `i` of one store is what the session `j` of another one is. -/
structure SessionId.Same (h : Handlers W) (σ τ : Store W) (i j : SessionId) : Prop where
  /-- Both are complete or none is, and they have got the same chunks. -/
  found : ∃ s t cs ds, i.session.Comes σ (.ok s σ) ∧ j.session.Comes τ (.ok t τ) ∧
    s.isDone = t.isDone ∧ s.chunks.chunks.Comes σ (.ok cs σ) ∧ t.chunks.chunks.Comes τ (.ok ds τ) ∧
    List.Forall₂ (Stream.Matches σ τ) cs ds
  /-- What the one comes to at the end of the input, the other one comes to. -/
  forth : ∀ r, i.finish.Comes σ r → ∃ r', j.finish.Comes τ r' ∧ SessionId.Agree h σ τ i j r r'
  /-- So it is the other way round. -/
  back : ∀ r', j.finish.Comes τ r' → ∃ r, i.finish.Comes σ r ∧ SessionId.Agree h σ τ i j r r'

section

variable {w : World} {σ τ : Store W}

/-- A pure function of the caller does not tell values apart that are the same. -/
theorem Value.Matches.observed {v u : Value} (h : v.Matches σ τ u) {f : Value → Action W Value}
    (pure : ∀ k : Pairing, k.Functions Pairing.Like f f) {r : EStateM.Result Stop (Store W) Value}
    (hr : (f v).run.Comes σ r) : ∃ r', (f u).run.Comes τ r' ∧ Value.Ends r r' := by
  obtain ⟨w, stores, like⟩ := h
  have alike := (pairs W).action (w := w) (fun _ _ _ _ hle h => h.mono hle)
    (pure _ _ v u (.refl _) like)
  obtain ⟨r', hr', ends⟩ := alike w σ τ r (.refl w) stores hr
  refine ⟨r', hr', ?_⟩
  cases r with
  | error e σ' =>
    obtain ⟨τ', -, rfl, -⟩ := ends.of_error
    exact .stop e σ' τ'
  | ok a σ' =>
    obtain ⟨b, τ', w', rfl, -, stores', like'⟩ := ends.of_ok
    exact .value ⟨w', stores', like'⟩

namespace Lineages

/-! ## What two stores tell -/

theorem supplies_chunk {S : Side} (hS : S.Holds σ) {c : Stream Value} {x : Elements}
    (hc : S.Chunk c x) : c.Supplies σ x := by
  obtain ⟨⟨r, hc⟩, -⟩ := hc
  exact ⟨S.contents, r, hS.fits, hc⟩

theorem matches_chunks (hs : Stores w σ τ) {c d : Stream Value} (h : Chunks w c d) :
    c.Matches σ τ d := by
  obtain ⟨x, hc, hd⟩ := h
  exact ⟨x, supplies_chunk hs.left hc, supplies_chunk hs.right hd⟩

theorem corresponds_state (hs : Stores w σ τ) {s t : State Value}
    (h : (correspondence W).States w s t) : s.Corresponds σ τ t := by
  obtain ⟨x, -, hs', ht⟩ := h
  obtain ⟨a, i, rfl, -, hi⟩ := hs'.here
  obtain ⟨b, j, rfl, -, hj⟩ := ht.here
  exact ⟨rfl, rfl, x.tokens, supplies_chunk hs.left hi, supplies_chunk hs.right hj⟩

theorem corresponds_error (hs : Stores w σ τ) {e f : ParseError Value}
    (h : (correspondence W).Errors w e f) : e.Corresponds σ τ f :=
  ⟨congrArg Reason.message h.reason, hs.defines.expectedNames_eq h.expected,
    corresponds_state hs h.state⟩

theorem matches_reply (hs : Stores w σ τ) {r r' : Reply Value}
    (h : (correspondence W).Replies w r r') : r.Matches σ τ r' := by
  cases h with
  | ok d hv ht => exact .ok d ⟨w, hs, hv⟩ (corresponds_state hs ht)
  | err d he ht => exact .err d (corresponds_error hs he) (corresponds_state hs ht)

theorem Ending.agree {h : Handlers W} {i j : SessionId}
    {r r' : EStateM.Result Stop (Store W) Value} (hs : Stores w (left r) (left r'))
    (ending : Ending w σ τ h i j r r') : SessionId.Agree h σ τ i j r r' := by
  cases ending with
  | stop e hi hj => exact .stop e hi hj
  | answer ends ends' replies alike =>
    exact .answer ends ends' (matches_reply hs replies) hs alike

/-- Sessions that mirror one another come to the same at the end of the input. -/
theorem Mirrored.agree {S R : Side} {l : Path W} {i j : SessionId}
    (mirrored : Mirrored S R σ τ l i j) (pure : l.handlers.Pure l.user) :
    (∀ r, i.finish.Comes σ r →
      ∃ r', j.finish.Comes τ r' ∧ SessionId.Agree l.handlers σ τ i j r r') ∧
    ∀ r', j.finish.Comes τ r' →
      ∃ r, i.finish.Comes σ r ∧ SessionId.Agree l.handlers σ τ i j r r' := by
  obtain ⟨⟨w, -, hu, stores, sessions⟩, ⟨v, -, hv, stores', sessions'⟩, fresh, asked⟩ := mirrored
  rcases asked with unasked | answered
  -- Neither session has been finished, so the handlers are called on both sides.
  · have forth (r) (hr : i.finish.Comes σ r) :
        ∃ r', j.finish.Comes τ r' ∧ SessionId.Agree l.handlers σ τ i j r r' := by
      obtain ⟨r', hr', w', finished⟩ := finished stores (hu ▸ pure) ⟨sessions, unasked, fresh⟩ hr
      exact ⟨r', hr', finished.ending.agree finished.stores⟩
    refine ⟨forth, fun r' hr' => ?_⟩
    -- The other direction is led by the second session, but told about the first one.
    obtain ⟨r, hr, -⟩ := finished stores' (hv ▸ pure) ⟨sessions', fresh, unasked⟩ hr'
    obtain ⟨r'', hr'', agree⟩ := forth r hr
    cases hr'.unique hr''
    exact ⟨r, hr, agree⟩
  · cases answered with
    | intro hk known finish _ stores ending =>
      have agree := ending.agree stores
      refine ⟨fun r hr => ?_, fun r' hr' => ?_⟩
      · cases hr.unique (hk.finish known)
        exact ⟨_, finish, agree⟩
      · cases hr'.unique finish
        exact ⟨_, hk.finish known, agree⟩

/-- They cannot be told apart. -/
theorem Mirrored.same {S R : Side} {l : Path W} {i j : SessionId}
    (mirrored : Mirrored S R σ τ l i j) (pure : l.handlers.Pure l.user) :
    SessionId.Same l.handlers σ τ i j := by
  obtain ⟨forth, back⟩ := mirrored.agree pure
  obtain ⟨w, -, -, stores, s, t, hi, hj, -, -, ⟨cs, ds, hc, hd, chunks⟩, stage⟩ := mirrored.forth
  exact ⟨⟨s, t, cs, ds, comes_of_forall (fun _ => session_eq hi _) not_exhausted_ok,
    comes_of_forall (fun _ => session_eq hj _) not_exhausted_ok, stage.isDone_eq,
    comes_of_forall (fun _ => hc.chunks_eq _) not_exhausted_ok,
    comes_of_forall (fun _ => hd.chunks_eq _) not_exhausted_ok,
    chunks.imp fun _ _ => matches_chunks stores⟩, forth, back⟩

end Lineages

end

/-! ## Calls within a number of steps -/

section

variable {α : Type} {x : Eval W α} {a : α} {σ τ : Store W}

/-- What the computation gives within a number of steps, if it gives something. -/
def Eval.given (x : Eval W α) (bound : Nat) (σ : Store W) : Option (α × Store W) :=
  match x.exec bound σ with
  | .ok a τ => some (a, τ)
  | .error .. => none

theorem comes_of_given {bound : Nat} (hx : Composed x) (h : x.given bound σ = some (a, τ)) :
    x.Comes σ (.ok a τ) := by
  rw [Eval.given] at h
  split at h
  · rename_i b υ run
    cases h
    exact hx.comes run not_exhausted_ok
  · cases h

/-- What can be changed of the parsers: their names, and whether their results are ignored. -/
def Store.labels (σ : Store W) : List (String × Bool) :=
  σ.parsers.toList.map fun c => (c.name, c.ignored)

theorem keepsParsers_of_labels {α : Type} {x : Eval W α} {y : EStateM.Result Stop (Store W) α}
    (hx : Composed x) (run : x.Comes σ y) (same : (left y).labels = σ.labels) :
    σ.KeepsParsers (left y) := by
  intro i c hc
  obtain ⟨d, hd, direct, logged⟩ := (hx.grows_of_comes run).parsers i c hc
  have label : ((left y).labels)[i]? = some (c.name, c.ignored) := by
    rw [same, Store.labels, List.getElem?_map, Array.getElem?_toList, hc, Option.map_some]
  rw [Store.labels, List.getElem?_map, Array.getElem?_toList, hd, Option.map_some,
    Option.some.injEq, Prod.mk.injEq] at label
  obtain ⟨name, ignored, direct', logged'⟩ := d
  obtain ⟨rfl, rfl⟩ := label
  cases direct
  cases logged
  exact hd

/-- What is expected at the end of the input, if the parse fails there within a number of steps and
this is raised, and what is left then. -/
def SessionId.expects (i : SessionId) (bound : Nat) (σ : Store W) :
    Option (List String × Store W) :=
  match i.completion.exec bound σ with
  | .ok k τ =>
    match τ.results[k.index]?, (Eval.force (.result k) : Eval W Value).exec bound τ with
    | some ⟨.raise (.noParse e), _⟩, .error (.raised (.noParse _)) υ =>
      some (e.expectedNames υ.names, υ)
    | _, _ => none
  | .error .. => none

theorem SessionId.fails_of_expects {i : SessionId} {bound : Nat} {names : List String}
    (h : i.expects bound σ = some (names, τ)) :
    ∃ k υ m e f, i.completion.Comes σ (.ok k υ) ∧ υ.results[k.index]? = some m ∧
      m.thunk = .raise (.noParse e) ∧ i.finish.Comes σ (.error (.raised (.noParse f)) τ) ∧
      e.expectedNames τ.names = names := by
  rw [expects] at h
  split at h
  · rename_i k υ complete
    have complete := (composed_completion i).comes complete not_exhausted_ok
    split at h
    · rename_i e _ f ω hm force
      cases h
      have force := (Composed.force _).comes force (not_exhausted_error (by simp))
      refine ⟨k, υ, _, e, f, complete, hm, rfl, ?_, rfl⟩
      rw [finish_eq]
      exact comes_bind_ok complete force
    · cases h
  · cases h

/-- The value at the end of the input, if it is a number and is there within a number of steps. -/
def SessionId.counts (i : SessionId) (bound : Nat) (σ : Store W) : Option Int :=
  match i.finish.exec bound σ with
  | .ok (.int n) _ => some n
  | .ok .. | .error .. => none

theorem SessionId.comes_of_counts {i : SessionId} {bound : Nat} {n : Int}
    (h : i.counts bound σ = some n) : ∃ τ, i.finish.Comes σ (.ok (.int n) τ) := by
  rw [counts] at h
  split at h
  · rename_i n τ run
    cases h
    exact ⟨τ, (composed_finish i).comes run not_exhausted_ok⟩
  all_goals cases h

end

/-! ## Chunks of data -/

namespace Lineages

variable {K : Store W → Store W → Prop} {P : ParserId → Prop} {σ : Store W}

/-- A session with handlers that give the value or raise the error. It is started without input, and
provided with chunks. -/
def Path.provided (p : ParserId) (chunks : List (Stream Value)) : Path W :=
  ⟨p, .done .nil, 0, .none, .value, chunks.map fun c => ⟨.done c, false⟩⟩

theorem comes_fresh_start {p : ParserId} {r : EStateM.Result Stop (Store W) SessionId}
    (h : (p.startSession (.plain false .nil 0 .none) .value).Comes σ r) :
    (Path.provided p []).fresh.Comes σ r := by
  have started : (Path.start (.provided p [])).Comes σ r :=
    comes_bind_ok (comes_pure Stream.nil σ) h
  simpa only [Path.fresh, Path.provided, List.map_nil, List.foldlM_nil, bind_pure] using started

theorem comes_fresh_provide {p : ParserId} {chunks : List (Stream Value)} {i : SessionId}
    {τ : Store W} {c : Stream Value} {r : EStateM.Result Stop (Store W) SessionId}
    (h : (Path.provided p chunks).fresh.Comes σ (.ok i τ))
    (hr : (i.provide (.stream c)).Comes τ r) :
    (Path.provided p (chunks ++ [c])).fresh.Comes σ r := by
  have fed : Path.provided p (chunks ++ [c]) =
      (Path.provided p chunks : Path W).fed ⟨.done c, false⟩ := by
    rw [Path.provided, Path.fed, List.map_append]
    rfl
  rw [fed]
  exact fresh_fed h (comes_pure c τ) hr

/-- The strict stream of a list. -/
def chunk (vs : List Value) : Stream Value := vs.foldr (.cons 0) .nil

theorem supplies_chunk_done {vs : List Value} (settled : ∀ v ∈ vs, v.Settled) :
    (Action.done (chunk vs) : Action W (Stream Value)).Supplies (Stream'.Seq.ofList vs) := by
  have holds : Contents.empty.Holds 1 (chunk vs) (Stream'.Seq.ofList vs) := by
    clear settled
    induction vs with
    | nil => exact .nil
    | cons v vs ih =>
      rw [Stream'.Seq.ofList_cons]
      exact .cons ih
  refine ⟨⟨0, .done holds⟩, ?_⟩
  clear holds
  induction vs with
  | nil => exact fun v hv => absurd hv (Stream'.Seq.notMem_nil v)
  | cons u vs ih =>
    intro v hv
    rw [Stream'.Seq.ofList_cons] at hv
    rcases Stream'.Seq.eq_or_mem_of_mem_cons hv with rfl | hv
    · exact settled v (.head _)
    · exact ih (fun v hv => settled v (.tail _ hv)) v hv

/-- Before any session is started, all streams are made. -/
theorem Calls.supplied (refl : ∀ σ, K σ σ) {chunks : List (List Value)}
    (settled : ∀ vs ∈ chunks, ∀ v ∈ vs, v.Settled) :
    Calls K P σ ⟨chunks.map fun vs => ⟨chunk vs, .done (chunk vs)⟩, []⟩ σ := by
  induction chunks with
  | nil => exact .none
  | cons vs chunks ih =>
    have before := ih fun us h => settled us (.tail _ h)
    exact before.more (.make (supplies_chunk_done (settled vs (.head _))) (comes_pure _ σ)) (refl σ)

end Lineages

/-! ## Sessions of a pool -/

/-- Sessions are values, whatever is shared below them.

The parsers are put together from the primitives and combinators of the library, with pure functions
of the caller, and the handlers are pure as well. Streams are made in a store, sessions are started,
fed and finished there, in any order and each of them as often as one likes, and any of these calls
may raise something. No call gives another name to a parser that is there. Then a session that is
started in the store as it has been in the beginning, and fed only with the chunks on the path of a
session of the pool, comes into being. It is complete if and only if the one of the pool is, it has
the same chunks, and at the end of the input it comes to the same: the handlers are called for
replies with the same value or error, the same position and user state, and they answer alike, or
the same is raised, or both go on forever. -/
theorem sessions_are_values {P : ParserId → Prop} {σ₀ σ : Store W} {pool : Pool W}
    (pure : σ₀.Pure P) (calls : Lineages.Calls Store.KeepsParsers P σ₀ pool σ) {m : Member W}
    (hm : m ∈ pool.sessions) : ∃ j τ, m.path.fresh.Comes σ₀ (.ok j τ) ∧
      SessionId.Same m.path.handlers σ τ m.session j := by
  obtain ⟨S, R, between⟩ := calls.between pure
  obtain ⟨j, τ, fresh, mirrored⟩ := between.sessions m hm
  exact ⟨j, τ, fresh, mirrored.same (between.pure m hm)⟩

section

variable {σ τ : Store W} {i j : SessionId}

/-- Sessions that are the same expect the same at the end of the input. -/
theorem SessionId.Same.expects (same : SessionId.Same .value σ τ i j) {bound : Nat}
    {names names' : List String} {σ' τ' : Store W} (hi : i.expects bound σ = some (names, σ'))
    (hj : j.expects bound τ = some (names', τ')) : names = names' := by
  obtain ⟨k, υ, m, e, _, complete, hm, thunk, fails, rfl⟩ := SessionId.fails_of_expects hi
  obtain ⟨l, ω, n, f, _, complete', hn, thunk', fails', rfl⟩ := SessionId.fails_of_expects hj
  obtain ⟨z, hz, agree⟩ := same.forth _ fails
  cases hz.unique fails'
  cases agree with
  | stop _ broken => cases complete.unique broken
  | answer ends ends' alike =>
    -- The handlers raise the errors of the replies that they are called for.
    obtain ⟨_, _, _, complete₁, hm₁, call⟩ := ends
    cases complete.unique complete₁
    cases hm.symm.trans hm₁
    obtain ⟨_, _, _, complete₁', hn₁, call'⟩ := ends'
    cases complete'.unique complete₁'
    cases hn.symm.trans hn₁
    cases alike with
    | ok => cases thunk.symm.trans call
    | err d error _ =>
      cases thunk.symm.trans call
      cases thunk'.symm.trans call'
      exact error.names

/-- Sessions that are the same give the same numbers. -/
theorem SessionId.Same.counts {h : Handlers W} (same : SessionId.Same h σ τ i j) {bound : Nat}
    {m n : Int} (hi : i.counts bound σ = some m) (hj : j.counts bound τ = some n) : m = n := by
  obtain ⟨σ', finish⟩ := SessionId.comes_of_counts hi
  obtain ⟨τ', finish'⟩ := SessionId.comes_of_counts hj
  obtain ⟨z, hz, agree⟩ := same.forth _ finish
  cases hz.unique finish'
  cases agree with
  | answer _ _ _ _ alike =>
    cases alike with
    | value h =>
      cases h with
      | like h =>
        cases h
        rfl
      | kept => rfl

end

/-- Two sessions are made from one. The first one is complete, and its handlers read the parsed
stream into a list, which is kept. The second one fails, and its failure is raised. -/
theorem sessions_are_values_after_failure :
    let start : Store Unit := .initial () fun _ _ => ()
    let x := (Grammar.token (.text (.ofString "x"))).build start
    let xs := (Grammar.oneplus (.ref x.1)).build x.2
    let path (feeds : List (Feed Unit)) : Path Unit :=
      ⟨xs.1, .done .nil, 0, .none, .applying Build.listOf, feeds⟩
    let token (t : String) : Feed Unit := ⟨.done (chunk [.text (.ofString t)]), false⟩
    ∃ P pool σ i j, xs.2.Pure P ∧ Lineages.Calls Store.KeepsParsers P xs.2 pool σ ∧
      ⟨i, path [token "x", ⟨.done .nil, true⟩]⟩ ∈ pool.sessions ∧
      ⟨j, path [token "y"]⟩ ∈ pool.sessions ∧
      ∃ k τ, (path [token "x", ⟨.done .nil, true⟩]).fresh.Comes xs.2 (.ok k τ) ∧
        SessionId.Same (.applying Build.listOf) σ τ i k := by
  intro start x xs path token
  obtain ⟨Q, -, pureX, hx⟩ := Grammar.Pure.builds (pure_initial () fun _ _ => ())
    (g := .token (.text (.ofString "x"))) (.token (fun _ _ => rfl) (.same (.text _)))
  obtain ⟨P, -, pure, hp⟩ := Grammar.Pure.builds pureX
    (g := .oneplus (.ref x.1)) (.oneplus (.ref ⟨rfl, hx⟩))
  have handlers : (Handlers.applying Build.listOf : Handlers Unit).Pure .none :=
    Handlers.pure_applying (fun _ => functions_listOf) _
  let ys : List Value := [.text (.ofString "x")]
  let zs : List Value := [.text (.ofString "y")]
  -- The sessions are evaluated. Their labels show that no parser has got another name.
  have run : (do
      let (s, σ₁) ← (xs.1.startSession (.plain false .nil 0 .none)
        (.applying Build.listOf)).given 60 xs.2
      let (i, σ₂) ← (s.provide (.stream (chunk ys))).given 60 σ₁
      let (c, σ₃) ← (i.forceProvide (.stream .nil)).given 60 σ₂
      let (v, σ₄) ← c.finish.given 60 σ₃
      let (j, σ₅) ← (s.provide (.stream (chunk zs))).given 60 σ₄
      let (_, σ₆) ← j.expects 60 σ₅
      let vs ← v.sequence?
      let labels := [σ₁.labels, σ₂.labels, σ₃.labels, σ₄.labels, σ₅.labels, σ₆.labels]
      return ([s.index, i.index, c.index, j.index, vs.length], labels)) =
      some ([0, 1, 2, 3, 1], .replicate 6 xs.2.labels) := by decide +kernel
  simp only [Option.bind_eq_bind, Option.bind_eq_some_iff, Prod.exists, Option.pure_def,
    Option.some.injEq, Prod.mk.injEq, List.replicate_succ, List.cons.injEq] at run
  obtain ⟨⟨s⟩, σ₁, hs, ⟨i⟩, σ₂, hi, ⟨c⟩, σ₃, hc, v, σ₄, hv, ⟨j⟩, σ₅, hj, names, σ₆, fails, vs, -,
    ⟨rfl, rfl, rfl, rfl, -⟩, l₁, l₂, l₃, l₄, l₅, l₆, -⟩ := run
  have starts := comes_of_given (composed_startSession _ _ _) hs
  have feedX := comes_of_given (composed_provide _ _) hi
  have ends := comes_of_given (composed_forceProvide _ _) hc
  have answers := comes_of_given (composed_finish _) hv
  have feedY := comes_of_given (composed_provide _ _) hj
  obtain ⟨-, -, -, -, e, -, -, -, finish, -⟩ := SessionId.fails_of_expects fails
  have made : Lineages.Calls Store.KeepsParsers P xs.2
      ⟨[[], ys, zs].map fun vs => ⟨chunk vs, .done (chunk vs)⟩, []⟩ xs.2 :=
    .supplied (fun _ _ _ h => h) (by simp [ys, zs, Value.Settled.text])
  have started := made.more (.start (.head _) hp handlers starts)
    (keepsParsers_of_labels (composed_startSession _ _ _) starts l₁)
  have fed := started.more (.feed false (.head _) (.tail _ (.head _)) feedX)
    (keepsParsers_of_labels (composed_provide _ _) feedX (l₂.trans l₁.symm))
  rw [Pool.feed_of_ne (by decide)] at fed
  have ended := fed.more (.feed true (.head _) (.head _) ends)
    (keepsParsers_of_labels (composed_forceProvide _ _) ends (l₃.trans l₂.symm))
  rw [Pool.feed_of_ne (by decide)] at ended
  have answered := ended.more (.finish (.head _) answers)
    (keepsParsers_of_labels (composed_finish _) answers (l₄.trans l₃.symm))
  have forked := answered.more
    (.feed false (.tail _ (.tail _ (.head _))) (.tail _ (.tail _ (.head _))) feedY)
    (keepsParsers_of_labels (composed_provide _ _) feedY (l₅.trans l₄.symm))
  rw [Pool.feed_of_ne (by decide)] at forked
  have raised := forked.more (.finish (.head _) finish)
    (keepsParsers_of_labels (composed_finish _) finish (l₆.trans l₅.symm))
  refine ⟨P, _, σ₆, ⟨2⟩, ⟨3⟩, pure, raised, .tail _ (.head _), .head _, ?_⟩
  exact sessions_are_values (m := ⟨⟨2⟩, path [token "x", ⟨.done .nil, true⟩]⟩) pure raised
    (.tail _ (.head _))

/-- A token, or two tokens of which the second is read under the other name that it gets between
them. -/
def Grammar.renaming (x : ParserId) : Grammar Unit :=
  .or (.ref x) (.bind (.some fun _ => .done true) fun _ => .done (.named (.ref x) "renamed"))

/-- A token, for which the caller counts in its world how often this has been parsed. -/
def Grammar.counting : Grammar Nat :=
  .map (.some fun _ => .done true) fun _ => .inspect fun n => .update (· + 1) (.done (.int n))

/-- There are calls that change the store as `K` allows, after which a session in the pool is not
what a session is that has been fed the same chunks all alone. -/
def Store.Strays (K : Store W → Store W → Prop) (P : ParserId → Prop) (σ₀ : Store W) : Prop :=
  ∃ (pool : Pool W) (σ : Store W) (m : Member W) (j : SessionId) (τ : Store W),
    Lineages.Calls K P σ₀ pool σ ∧ m ∈ pool.sessions ∧ m.path.fresh.Comes σ₀ (.ok j τ) ∧
    ¬SessionId.Same m.path.handlers σ τ m.session j

/-- A function of the caller gives another name to a parser, in one session. The session that this
one is made from then expects the parser under its new name. -/
theorem strays_renaming :
    let x := (Grammar.token (.text (.ofString "x"))).build (.initial () fun _ _ => ())
    let either := (Grammar.renaming x.1).build x.2
    ∃ P, either.2.Pure P ∧ either.2.Strays (fun _ _ => True) P := by
  intro x either
  obtain ⟨Q, -, pureX, hx⟩ := Grammar.Pure.builds (pure_initial () fun _ _ => ())
    (g := .token (.text (.ofString "x"))) (.token (fun _ _ => rfl) (.same (.text _)))
  let rename (_ : Value) : Action Unit (Grammar Unit) := .done (.named (.ref x.1) "renamed")
  have renames : (Pairing.only Q).Functions Grammar.Paired rename rename :=
    fun l v u hle hv => .done (.named "renamed" (.ref (hle.parsers _ _ ⟨rfl, hx⟩)))
  obtain ⟨P, -, pure, hp⟩ := Grammar.Pure.builds pureX (g := .renaming x.1)
    (.or (.ref ⟨rfl, hx⟩) (.bind _ (.some fun _ _ _ _ => .done rfl) renames fun _ _ _ _ h => h))
  let tokens : List Value := [.text (.ofString "9"), .text (.ofString "r")]
  have run : (do
      let (i, τ) ← (either.1.startSession (.plain false .nil 0 .none) .value).given 60 either.2
      let (j, σ) ← (i.provide (.stream (chunk tokens))).given 60 τ
      let (names, _) ← i.expects 60 σ
      let (names', _) ← i.expects 60 τ
      return ([i.index, j.index], [names, names'])) =
      some ([0, 1], [["renamed", "some(...)"], ["'x'", "some(...)"]]) := by
    decide +kernel
  simp only [Option.bind_eq_bind, Option.bind_eq_some_iff, Prod.exists, Option.pure_def,
    Option.some.injEq, Prod.mk.injEq, List.cons.injEq] at run
  obtain ⟨⟨i⟩, τ, hi, ⟨j⟩, σ, hj, names, σ', fails, names', τ', fails', ⟨rfl, rfl, -⟩, rfl, rfl,
    -⟩ := run
  have starts := comes_of_given (composed_startSession _ _ _) hi
  have feeds := comes_of_given (composed_provide _ _) hj
  have made : Lineages.Calls (fun _ _ => True) P either.2
      ⟨[[], tokens].map fun vs => ⟨chunk vs, .done (chunk vs)⟩, []⟩ either.2 :=
    .supplied (fun _ => trivial) (by simp [tokens, Value.Settled.text])
  have started := made.more (.start (.head _) hp (Handlers.pure_value .none) starts) trivial
  have fed := started.more (.feed false (.head _) (.tail _ (.head _)) feeds) trivial
  rw [Pool.feed_of_ne (by decide)] at fed
  refine ⟨P, pure, _, σ, ⟨⟨0⟩, .provided either.1 []⟩, ⟨0⟩, τ, fed, .tail _ (.head _),
    comes_fresh_start starts, fun same => ?_⟩
  have names : ["renamed", "some(...)"] = ["'x'", "some(...)"] := same.expects fails fails'
  simp at names

/-- A function of the caller counts in the world. The second of two sessions that have been fed the
same chunk comes to another number than a session all alone. -/
theorem strays_counting :
    let count := Grammar.counting.build (.initial 0 fun _ n => n)
    count.2.Strays Store.KeepsParsers fun p => p = count.1 := by
  intro count
  let tokens : List Value := [.int 1, .int 2]
  have run : (do
      let (s, σ₁) ← (count.1.startSession (.plain false .nil 0 .none) .value).given 60 count.2
      let (i, σ₂) ← (s.provide (.stream (chunk tokens))).given 60 σ₁
      let (j, σ₃) ← (s.provide (.stream (chunk tokens))).given 60 σ₂
      let labels := [σ₁.labels, σ₂.labels, σ₃.labels]
      return ([s.index, i.index, j.index], [← i.counts 60 σ₂, ← j.counts 60 σ₃], labels)) =
      some ([0, 1, 2], [0, 1], .replicate 3 count.2.labels) := by
    decide +kernel
  simp only [Option.bind_eq_bind, Option.bind_eq_some_iff, Prod.exists, Option.pure_def,
    Option.some.injEq, Prod.mk.injEq, List.replicate_succ, List.cons.injEq] at run
  obtain ⟨⟨s⟩, σ₁, hs, ⟨i⟩, σ₂, hi, ⟨j⟩, σ₃, hj, m, first, n, second, ⟨rfl, rfl, rfl, -⟩,
    ⟨rfl, rfl, -⟩, l₁, l₂, l₃, -⟩ := run
  have starts := comes_of_given (composed_startSession _ _ _) hs
  have feeds := comes_of_given (composed_provide _ _) hi
  have again := comes_of_given (composed_provide _ _) hj
  have made : Lineages.Calls Store.KeepsParsers (fun p => p = count.1) count.2
      ⟨[[], tokens].map fun vs => ⟨chunk vs, .done (chunk vs)⟩, []⟩ count.2 :=
    .supplied (fun _ _ _ h => h) (by simp [tokens, Value.Settled.int])
  have started := made.more (.start (.head _) rfl (Handlers.pure_value .none) starts)
    (keepsParsers_of_labels (composed_startSession _ _ _) starts l₁)
  have fed := started.more (.feed false (.head _) (.tail _ (.head _)) feeds)
    (keepsParsers_of_labels (composed_provide _ _) feeds (l₂.trans l₁.symm))
  rw [Pool.feed_of_ne (by decide)] at fed
  have twice := fed.more (.feed false (.tail _ (.head _)) (.tail _ (.head _)) again)
    (keepsParsers_of_labels (composed_provide _ _) again (l₃.trans l₂.symm))
  rw [Pool.feed_of_ne (by decide)] at twice
  refine ⟨_, σ₃, ⟨⟨2⟩, .provided count.1 [chunk tokens]⟩, ⟨1⟩, σ₂, twice, .head _,
    comes_fresh_provide (comes_fresh_start starts) feeds, fun same => ?_⟩
  have counts : (1 : Int) = 0 := same.counts second first
  simp at counts

/-- Sessions are not values where a function of the caller gives another name to a parser, although
all functions are pure; nor are they where a function keeps count in the world, although all parsers
keep their names. -/
theorem sessions_share_names_and_world :
    let x := (Grammar.token (.text (.ofString "x"))).build (.initial () fun _ _ => ())
    let either := (Grammar.renaming x.1).build x.2
    let count := Grammar.counting.build (.initial 0 fun _ n => n)
    (∃ P, either.2.Pure P ∧ either.2.Strays (fun _ _ => True) P) ∧
      count.2.Strays Store.KeepsParsers fun p => p = count.1 :=
  ⟨strays_renaming, strays_counting⟩

end ResumableParsing
