import ResumableParsing.Proofs.Transparency.Chunks
import ResumableParsing.Proofs.Transparency.Extension

/-!
# When sessions are complete

While it is fed chunks, a session goes on beside the plain run on all of them until that run moves
past the last token. There it has to wait, because more tokens may follow. If the plain run never
moves there, the session is complete with the last chunk, and no tokens that follow could change its
result.

* `Division.clear_pastLast`: inside the chunks the plain run is not past the last token
* `Division.met_of_pending`: where a session waits after the last chunk, it is
* `sessions_complete_in_time`: when a session is complete, and what its result stands for
-/

namespace ResumableParsing

variable {W : Type}

/-! ## Sessions that wait and sessions that are complete -/

namespace Division

variable {d : Division} {τ : Store W} {n m : Nat} {h : Handlers W} {y : Aim W}

/-- A task that corresponds to one inside the chunks is not past the last token. -/
theorem clear_pastLast (hy : y.marked = Task.PastLast) (hn : n ≤ d.pieces.length) :
    d.Clear n y := by
  intro w t u hw ht past
  rw [hy] at past
  cases ht with
  | run => exact past
  | code => exact past
  | deliver hr hk =>
    cases hk with
    | nil => exact past
    | cons hf hk => cases hf <;> exact past
  | arrive hs hv hk =>
    obtain ⟨ys, split⟩ := hs
    cases split with
    | intro hi hj ends hc ho =>
      -- Nothing is left, so the chunk would have to lie behind the last one.
      have nothing := List.append_eq_nil_iff.mp (hi.nil_of_empty past)
      have behind := ends nothing.1
      omega
  | moving hm hv hk =>
    cases hm with
    | intro => exact past

/-- If a session waits after the last chunk, the plain run has moved past the last token. -/
theorem met_of_pending (hy : y.marked = Task.PastLast) (hn : n = d.pieces.length) (pos : 0 < n)
    {s : Session W} (hs : d.Pending h n m y τ s) : y.met := by
  cases hs with
  | ready start => omega
  | waiting hm hw hq hc hs paused =>
    cases paused with
    | intro hz hv hk leads =>
      cases hz with
      | @intro i j c position user hi hc =>
        have behind : d.after c = [] := by
          refine d.after_eq_nil ?_
          have hq : ((c + 1 : Nat) : Int) = n := hq
          omega
        cases leads with
        | tail going =>
          rw [behind] at hi
          refine going.meets.mp (.here ?_)
          rw [hy]
          exact hi

theorem isDone_of_pending {s : Session W} (hs : d.Pending h n m y τ s) : s.isDone = false := by
  cases hs <;> rfl

end Division

/-! ## Longer inputs -/

/-- The same reply comes of a longer input, if the run does not move past the last token of the
shorter one. -/
theorem Extension.replies {P : ParserId → Prop} {p : ParserId} {σ υ : Store W}
    (closed : Closed (fun _ => False) P σ) (still : σ.Still) (hp : P p)
    {whole longer : Stream Value} {vs more : List Value} (hw : whole.Spells vs)
    (hl : longer.Spells (vs ++ more)) (some : vs ≠ []) {position : Int} {user : Value}
    {r : Reply Value} (hy : (p.run (.plain false whole position user)).Comes σ (.ok (.reply r) υ))
    (clear : ¬p.MovesPastLast (.plain false whole position user) σ) :
    ∃ r' υ', (p.run (.plain false longer position user)).Comes σ (.ok (.reply r') υ') ∧
      r.Agrees r' ∧ υ.Alike υ' := by
  obtain ⟨n, reaches⟩ := comes_complete.mp hy
  have states : Longer more (.plain false whole position user)
    (.plain false longer position user) :=
    .intro hw hl some
  have tasks : (correspondence W more).Tasks P (.run p (.plain false whole position user) [])
      (.run p (.plain false longer position user) []) := .run ⟨rfl, hp⟩ states .nil
  obtain ⟨y', reaches', ends⟩ := follows reaches clear tasks ⟨.refl σ, still, closed⟩
  obtain ⟨f, υ', P', rfl, -, stores, finishes⟩ := ends.of_ok
  cases finishes with
  | reply replies =>
    refine ⟨_, υ', comes_complete.mpr ⟨n, reaches'⟩, ?_, Stores.alike stores⟩
    refine (even W more).agrees (fun s t hs => ?_) replies
    cases hs
    exact ⟨rfl, rfl⟩

/-! ## When a session is complete -/

/-- A session is complete in time. The parser is put together from the primitives and combinators of
the library, with functions of the caller that leave states, results and sessions alone, and no
stream is being parsed lazily. The session starts in a plain state without tokens and is provided
with one or more chunks, none of them empty, and the plain run on all the tokens ends with a reply.

Then the session is complete with the last chunk if and only if the plain run never moves past the
last token, not even on a path that it gives up later. Once it is complete, what `finish` comes to
is what its handler comes to for a reply, and whatever tokens follow, the plain run on all of them
gives a reply that agrees with it. -/
theorem sessions_complete_in_time {P : ParserId → Prop} {p : ParserId} {σ υ : Store W}
    (closed : Closed (fun _ => False) P σ) (still : σ.Still) (hp : P p) (h : Handlers W)
    {whole first : Stream Value} {chunks : List (Stream Value × List Value)}
    (hf : first.Spells []) (hs : ∀ x ∈ chunks, x.1.Spells x.2) (filled : ∀ x ∈ chunks, x.2 ≠ [])
    (some : chunks ≠ []) (hw : whole.Spells (chunks.map Prod.snd).flatten) (position : Int)
    (user : Value) {r : Reply Value}
    (hy : (p.run (.plain false whole position user)).Comes σ (.ok (.reply r) υ)) :
    ∃ i s τ,
      (do
        let i ← p.startSession (.plain false first position user) h
        i.provideAll (chunks.map Prod.fst)).Comes σ (.ok i τ) ∧
      τ.sessions[i.index]? = Option.some s ∧
      (s.isDone = true ↔ ¬p.MovesPastLast (.plain false whole position user) σ) ∧
      (s.isDone = true → ∃ r' τ',
        (∀ z, (h.call r').run.Comes τ' z → ∃ z', AlikeEnds z z' ∧ i.finish.Comes τ z') ∧
        ∀ more longer, longer.Spells ((chunks.map Prod.snd).flatten ++ more) → ∃ r'' υ',
          (p.run (.plain false longer position user)).Comes σ (.ok (.reply r'') υ') ∧
          r''.Agrees r' ∧ υ'.Alike τ') := by
  have spells : ∀ x ∈ (first, []) :: chunks, x.1.Spells x.2 := by
    intro x hx
    rcases List.mem_cons.mp hx with rfl | hx
    · exact hf
    · exact hs x hx
  obtain ⟨x, hx⟩ := List.exists_mem_of_ne_nil chunks some
  have tokens : (chunks.map Prod.snd).flatten ≠ [] := fun e =>
    filled x hx (List.flatten_eq_nil_iff.mp e _ (List.mem_map_of_mem hx))
  have pos : 0 < (Division.ofPieces _ spells).pieces.length := by
    refine List.length_pos_of_mem (List.mem_filter.mpr ⟨List.mem_cons_of_mem _ hx, ?_⟩)
    simpa using filled x hx
  obtain ⟨m, reaches⟩ := comes_complete.mp hy
  let t : Task W := .run p (.plain false whole position user) []
  let y : Aim W := ⟨Task.PastLast, t.Meets Task.PastLast σ, .ok (.reply r) υ⟩
  have begins : y.At m t σ := ⟨reaches, Iff.rfl⟩
  obtain ⟨z, hz, provided⟩ := Division.session_provided closed still hp h spells hw
    (fun k hk => Division.clear_pastLast rfl hk) begins
  cases provided with
  | error ended _ =>
    obtain ⟨e, -⟩ := ended
    cases e
  | @pending n _ i τ s hn hi hs =>
    have waits := Division.isDone_of_pending hs
    have met : y.met := Division.met_of_pending rfl hn (hn ▸ pos) hs
    refine ⟨i, s, τ, hz, hi, ?_, fun isDone => ?_⟩
    · exact iff_of_false (by simp [waits]) (fun clear => clear met)
    · rw [waits] at isDone
      cases isDone
  | @done i τ hd =>
    obtain ⟨s, _, hi, stage, _, _, _, _, ⟨-, clear⟩, -⟩ := id hd
    have isDone : s.isDone = true := by simp [Session.isDone, stage]
    refine ⟨i, s, τ, hz, hi, iff_of_true isDone clear, fun _ => ?_⟩
    obtain ⟨result, complete, w, r₀, r', σ', ⟨e, -⟩, stores, replies, slot⟩ :=
      Division.completeFor_done hd
    cases e
    refine ⟨r', Shelf.results.put result.index .busy τ, fun z hz => ?_, fun more longer hl => ?_⟩
    · obtain ⟨z', force, alike⟩ := comes_force_result slot hz
      have finish := comes_bind_ok (f := fun result => Eval.force (.result result)) complete force
      rw [bind_assoc] at finish
      exact ⟨z', alike, finish⟩
    · obtain ⟨r'', υ', run, agrees, alike⟩ :=
        Extension.replies closed still hp hw hl tokens hy clear
      refine ⟨r'', υ', run, agrees.symm.trans (Division.agrees replies), ?_⟩
      exact alike.symm.trans { stores.alike with }

/-- One token is read of two: the session is complete as soon as the second one is there. -/
theorem sessions_complete_in_time_one_of_two :
    let one : Cell Unit := { direct := some (.body (.some ⟨0⟩ fun v => .done (v.beq (.int 1)))) }
    let σ : Store Unit := { world := (), watch := fun _ _ => (), parsers := #[one] }
    let chunk (n : Int) : Stream Value := .cons 0 (.int n) .nil
    ∃ i s τ τ',
      (do
        let i ← (⟨0⟩ : ParserId).startSession (.plain false .nil 0 .none) .value
        i.provideAll [chunk 1, chunk 2]).Comes σ (.ok i τ) ∧
      τ.sessions[i.index]? = some s ∧ s.isDone = true ∧ i.finish.Comes τ (.ok (.int 1) τ') := by
  intro one σ chunk
  let whole : Stream Value := .cons 0 (.int 1) (chunk 2)
  have closed : Closed (fun _ => False) (fun p => p = ⟨0⟩) σ := by
    rintro p rfl
    refine ⟨one, rfl, fun code h => ?_, fun code h => ?_⟩ <;> cases h
    exact ⟨rfl, fun _ => trivial⟩
  have still : σ.Still := by rintro i x ⟨⟩
  have spells (n : Int) : (chunk n).Spells [.int n] := .cons .nil
  have start : whole.Spells [.int 1, .int 2] := .cons (spells 2)
  have step {t t' : Task Unit} (h : ∀ n, t.step.exec n σ = .ok (.tail t') σ) :
      t.step.Comes σ (.ok (.tail t') σ) := comes_of_forall h not_exhausted_ok
  have plain : ((⟨0⟩ : ParserId).run (.plain false whole 0 .none)).Comes σ
      (.ok (.reply (.ok true (.int 1) (.plain false (chunk 2) 1 .none))) σ) :=
    (composed_complete _).comes (n := 10) rfl not_exhausted_ok
  have clear : ¬(⟨0⟩ : ParserId).MovesPastLast (.plain false whole 0 .none) σ := by
    have occupied : ¬(chunk 2).Spells [] := fun empty => by cases (spells 2).nil_of_empty empty
    rw [ParserId.MovesPastLast, Task.meets_of_tail (fun h => h) (step fun _ => rfl),
      Task.meets_of_tail (fun h => h) (step fun _ => rfl),
      Task.meets_of_tail (fun h => h) (step fun _ => rfl),
      Task.meets_of_tail occupied (step fun _ => rfl)]
    exact Task.not_meets_of_value (fun h => h) (comes_of_forall (fun _ => rfl) not_exhausted_ok)
  let chunks : List (Stream Value × List Value) := [(chunk 1, [.int 1]), (chunk 2, [.int 2])]
  have spelled : ∀ x ∈ chunks, x.1.Spells x.2 := by simp [chunks, spells]
  obtain ⟨i, s, τ, run, found, complete, finishes⟩ := sessions_complete_in_time closed still rfl
    .value .nil spelled (by simp [chunks]) (by simp [chunks]) start 0 .none plain
  have isDone := complete.mpr clear
  obtain ⟨r', τ', finish, stable⟩ := finishes isDone
  obtain ⟨r'', υ', again, agrees, -⟩ := stable [] whole start
  cases again.unique plain
  cases agrees with
  | ok d v position user =>
    obtain ⟨z, alike, hz⟩ := finish _ (comes_pure _ τ')
    cases z with
    | error e υ => exact alike.elim
    | ok v υ =>
      obtain ⟨rfl, -⟩ := alike
      exact ⟨i, s, τ, υ, run, found, isDone, hz⟩

end ResumableParsing
