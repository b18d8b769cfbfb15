import ResumableParsing.Proofs.Watching.Simulation

/-!
# Moving past a token, watched and unwatched

The parser of a watched state takes two steps of its own before the state behind the token is known.
Taken together with the step that asks for it, they do what an unwatched state does in one step,
apart from telling the caller and from a message to the log.

* `Step.Leads`: what a step has come to, and what the run comes to from there
* `AdvanceId.crossing`: moving past a token, in all its steps
* `crossing_of_reaches`, `reaches_of_crossing`: runs that begin with it
* `Watching.crosses`: it leads to the same place on both sides
* `Watching.runs_complete`: whole runs stay at the same place
-/

namespace ResumableParsing

variable {W : Type}

/-! ## Runs behind a step -/

/-- What a step has come to leads to the end of the run, with fewer than `n` steps before the last.
-/
inductive Step.Leads (n : Nat) : EStateM.Result Stop (Store W) (Step (Task W) (Finish W)) →
    EStateM.Result Stop (Store W) (Finish W) → Prop where
  | value {f : Finish W} {σ : Store W} : Leads n (.ok (.value f) σ) (.ok f σ)
  | error {e : Stop} {σ : Store W} : Leads n (.error e σ) (.error e σ)
  | tail {m : Nat} {t : Task W} {σ : Store W} {z : EStateM.Result Stop (Store W) (Finish W)} :
      m < n → t.Reaches m σ z → Leads n (.ok (.tail t) σ) z

section

variable {m n : Nat} {t : Task W} {σ : Store W} {z : EStateM.Result Stop (Store W) (Finish W)}
  {r : EStateM.Result Stop (Store W) (Step (Task W) (Finish W))}

theorem Step.Leads.mono (h : Leads m r z) (hle : m ≤ n) : Leads n r z := by
  cases h with
  | value => exact .value
  | error => exact .error
  | tail hm hz => exact .tail (Nat.lt_of_lt_of_le hm hle) hz

theorem Task.Reaches.leads (h : t.Reaches n σ z) : ∃ r, t.step.Comes σ r ∧ Step.Leads n r z := by
  cases h with
  | value h => exact ⟨_, h, .value⟩
  | error h => exact ⟨_, h, .error⟩
  | tail h hz => exact ⟨_, h, .tail (Nat.lt_succ_self _) hz⟩

theorem Step.Leads.reaches (h : Leads n r z) (hr : t.step.Comes σ r) : ∃ m, t.Reaches m σ z := by
  cases h with
  | value => exact ⟨0, .value hr⟩
  | error => exact ⟨0, .error hr⟩
  | tail _ hz => exact ⟨_, .tail hr hz⟩

end

/-! ## All steps past a token -/

/-- The caller is told of the token if the state is watched, and the rest of the input is found. -/
def State.told (watched : Bool) (token : Value) (input : Stream Value) (position : Int)
    (user : Value) : Eval W (State Value) := do
  if watched then modify fun σ => { σ with world := σ.watch token σ.world }
  (State.plain watched input position user).advance

/-- The state behind the token. The parser of a watched state announces itself. -/
def State.behind (watched : Bool) (token : Value) (input : Stream Value) (position : Int)
    (user : Value) : Eval W (State Value) := do
  let s ← State.told watched token input position user
  if watched then Eval.debug fun _ => "trying " ++ Task.settleName
  return s

/-- The state behind the token is remembered, and the run goes there. -/
def AdvanceId.reach (a : AdvanceId) (chunk : Int) (k : Continuation W) (s : State Value) :
    Eval W (Step (Task W) (Finish W)) := do
  a.remember chunk s
  (← a.memory).go chunk k

/-- Moving past the first token of a state inside a chunk, in all its steps. -/
def AdvanceId.crossing (a : AdvanceId) (chunk : Int) (watched : Bool) (input : Stream Value)
    (position : Int) (user : Value) (k : Continuation W) : Eval W (Step (Task W) (Finish W)) := do
  let m ← a.memory
  if m.next.isSome then m.go chunk k
  else a.reach chunk k (← State.behind watched (m.token.getD .none) input position user)

section

variable {a : AdvanceId} {chunk position : Int} {watched : Bool} {input : Stream Value}
  {user token : Value} {k : Continuation W} {n : Nat} {σ : Store W} {s : State Value}

theorem quiet_told : Quiet (State.told watched token input position user : Eval W _) := by
  cases watched with
  | false => exact quiet_advance ..
  | true => exact .bind (.watch token) fun _ => quiet_advance ..

theorem quiet_behind : Quiet (State.behind watched token input position user : Eval W _) := by
  refine .bind quiet_told fun s => ?_
  cases watched with
  | false => exact .pure s
  | true => exact .bind (.debug _) fun _ => .pure s

/-- An unwatched state takes all steps at once. -/
theorem step_unwatched : (Task.cross a chunk (.plain false input position user) k).step =
    a.crossing chunk false input position user k := by
  simp [Task.step, AdvanceId.cross, AdvanceId.crossing, AdvanceId.reach, State.behind, State.told]

/-- A watched state is asked for its parser first. -/
theorem step_watched : (Task.cross a chunk (.plain true input position user) k).step = (do
    let m ← a.memory
    if m.next.isSome then m.go chunk k
    else
      return .tail (.settle (← State.told true (m.token.getD .none) input position user)
        (.crossed a chunk :: k))) := by
  simp [Task.step, AdvanceId.cross, State.next, State.told]

theorem comes_settle (s : State Value) (k : Continuation W) (σ : Store W) :
    ∃ τ, (Task.settle s k).step.Comes σ (.ok (.tail (.arrive s k)) τ) ∧
      (Eval.debug fun _ => "trying " ++ Task.settleName : Eval W Unit).Comes σ (.ok () τ) :=
  ⟨_, comes_of_forall (fun _ => rfl) not_exhausted_ok,
    comes_of_forall (fun _ => rfl) not_exhausted_ok⟩

/-- A run that moves past a token takes all the steps for that first. -/
theorem crossing_of_reaches {z : EStateM.Result Stop (Store W) (Finish W)}
    (h : (Task.cross a chunk (.plain watched input position user) k).Reaches n σ z) :
    ∃ r, (a.crossing chunk watched input position user k).Comes σ r ∧ Step.Leads n r z := by
  obtain ⟨r, hr, leads⟩ := h.leads
  cases watched with
  | false =>
    rw [step_unwatched] at hr
    exact ⟨r, hr, leads⟩
  | true =>
    rw [step_watched] at hr
    rcases hr.of_bind (composed_memory a) with ⟨m, σ₁, hm, hr⟩ | ⟨e, σ₁, hm, rfl⟩
    · by_cases known : m.next.isSome
      · rw [if_pos known] at hr
        refine ⟨r, comes_bind_ok hm ?_, leads⟩
        rw [if_pos known]
        exact hr
      · rw [if_neg known] at hr
        have crossing {r} (h : (State.behind true (m.token.getD .none) input position user >>=
            a.reach chunk k).Comes σ₁ r) :
            (a.crossing chunk true input position user k).Comes σ r := by
          refine comes_bind_ok hm ?_
          rw [if_neg known]
          exact h
        rcases hr.of_bind quiet_told.composed with ⟨s, σ₂, hs, hr⟩ | ⟨e, σ₂, hs, rfl⟩
        · cases hr.unique (comes_pure _ σ₂)
          -- Two more steps, of which the first only writes to the log.
          cases leads with
          | tail hlt hz =>
            obtain ⟨σ₃, settle, debug⟩ := comes_settle s (.crossed a chunk :: k) σ₂
            obtain ⟨r₁, hr₁, leads₁⟩ := hz.leads
            cases hr₁.unique settle
            cases leads₁ with
            | tail hlt₁ hz₁ =>
              obtain ⟨r₂, hr₂, leads₂⟩ := hz₁.leads
              have behind : (State.behind true (m.token.getD .none) input position user).Comes σ₁
                  (.ok s σ₃) := comes_bind_ok hs (comes_bind_ok debug (comes_pure s σ₃))
              exact ⟨r₂, crossing (comes_bind_ok behind hr₂), leads₂.mono (by omega)⟩
        · cases leads with
          | error => exact ⟨_, crossing (comes_bind_error (comes_bind_error hs)), .error⟩
    · exact ⟨_, comes_bind_error hm, leads⟩

/-- What all the steps lead to, the run comes to. -/
theorem reaches_of_crossing {z : EStateM.Result Stop (Store W) (Finish W)}
    {r : EStateM.Result Stop (Store W) (Step (Task W) (Finish W))}
    (hr : (a.crossing chunk watched input position user k).Comes σ r) (leads : Step.Leads n r z) :
    ∃ m, (Task.cross a chunk (.plain watched input position user) k).Reaches m σ z := by
  cases watched with
  | false =>
    rw [← step_unwatched] at hr
    exact leads.reaches hr
  | true =>
    have step {r} (h : (Task.cross a chunk (.plain true input position user) k).step.Comes σ r)
        {n} (leads : Step.Leads n r z) := leads.reaches h
    rw [step_watched] at step
    rcases hr.of_bind (composed_memory a) with ⟨m, σ₁, hm, hr⟩ | ⟨e, σ₁, hm, rfl⟩
    · by_cases known : m.next.isSome
      · rw [if_pos known] at hr
        refine step (comes_bind_ok hm ?_) leads
        rw [if_pos known]
        exact hr
      · rw [if_neg known] at hr
        rcases hr.of_bind quiet_behind.composed with ⟨s, σ₃, hs, hr⟩ | ⟨e, σ₂, hs, rfl⟩
        · rcases hs.of_bind quiet_told.composed with ⟨s', σ₂, hs, hd⟩ | ⟨e, σ₂, hs, e'⟩
          -- The message to the log is a step of its own in the run.
          · obtain ⟨τ, settle, debug⟩ := comes_settle s' (.crossed a chunk :: k) σ₂
            cases hd.unique (comes_bind_ok debug (comes_pure s' τ))
            obtain ⟨l, arrive⟩ := leads.reaches (t := .arrive s (.crossed a chunk :: k)) hr
            refine step (comes_bind_ok hm ?_) (.tail (Nat.lt_succ_self _) (.tail settle arrive))
            rw [if_neg known]
            exact comes_bind_ok hs (comes_pure _ σ₂)
          · cases e'
        · rcases hs.of_bind quiet_told.composed with ⟨s', σ₃, hs, hd⟩ | ⟨e', σ₃, hs, same⟩
          · obtain ⟨τ, -, debug⟩ := comes_settle s' (.crossed a chunk :: k) σ₃
            cases hd.unique (comes_bind_ok debug (comes_pure s' τ))
          · cases same
            refine step (comes_bind_ok hm ?_) leads
            rw [if_neg known]
            exact comes_bind_error hs
    · exact step (comes_bind_error hm) leads

/-! ### What is remembered -/

theorem comes_memory {m : Advance} (found : σ.advances[a.index]? = some m) :
    (a.memory : Eval W Advance).Comes σ (.ok m σ) :=
  comes_of_forall (fun n => by simp [Eval.exec, AdvanceId.memory, found]) not_exhausted_ok

theorem comes_memory_missing (missing : σ.advances[a.index]? = none) :
    (a.memory : Eval W Advance).Comes σ (.error .dangling σ) := by
  refine comes_of_forall (fun n => by simp [Eval.exec, AdvanceId.memory, missing]) ?_
  rintro ⟨τ, e⟩
  cases e

/-- What is done once the chunk has been looked at behind the token. -/
def AdvanceId.note (a : AdvanceId) (chunk : Int) (k : Continuation W) (s : State Value)
    (empty : Bool) : Eval W (Step (Task W) (Finish W)) := do
  if empty then a.alter fun m => { m with next := some s, exhausted := true }
  else
    let t ← State.inChunk chunk s
    a.alter fun m => { m with next := some t }
  (← a.memory).go chunk k

theorem composed_note (empty : Bool) : Composed (a.note chunk k s empty) := by
  have go : Composed (do (← a.memory).go chunk k) :=
    .bind (composed_memory a) fun m => composed_go m chunk k
  cases empty with
  | true => exact .bind (composed_alter a _) fun _ => go
  | false =>
    exact .bind (composed_inChunk chunk s) fun _ => .bind (composed_alter a _) fun _ => go

theorem reach_eq : a.reach chunk k s = s.input.isEmpty >>= fun empty => a.note chunk k s empty := by
  rw [AdvanceId.reach, AdvanceId.remember, bind_assoc]
  congr 1
  funext empty
  cases empty <;> simp [AdvanceId.note]

/-- The state behind the token is kept. -/
def Advance.goes (exhausted : Bool) (s : State Value) (m : Advance) : Advance :=
  { m with next := some s, exhausted := exhausted }

/-- The chunk is exhausted behind the token. -/
theorem note_end {token : Option Value} (found : σ.advances[a.index]? = some ⟨token, none, false⟩)
    (m : Means W) : a.note chunk k s true m σ = .ok (.value (.request ⟨chunk + 1, s, k⟩))
      { σ with advances := σ.advances.modify a.index (Advance.goes true s) } := by
  simp [AdvanceId.note, AdvanceId.alter, AdvanceId.memory, Advance.go, Array.getElem?_modify, found]
  rfl

/-- Changes of an element that come to the same. -/
theorem modify_congr {α : Type} {x : Array α} {f g : α → α} {i : Nat} {v : α}
    (found : x[i]? = some v) (same : f v = g v) : x.modify i f = x.modify i g := by
  refine Array.ext_getElem? fun j => ?_
  rw [Array.getElem?_modify, Array.getElem?_modify]
  split
  · next e => rw [← e, found, Option.map_some, Option.map_some, same]
  · rfl

/-- There are more tokens in the chunk. -/
theorem note_more {token : Option Value} (found : σ.advances[a.index]? = some ⟨token, none, false⟩)
    (m : Means W) : a.note chunk k s false m σ =
      .ok (.tail (.arrive (.chunked ⟨σ.advances.size⟩ chunk s) k))
        { σ with
          advances := (σ.advances.push {}).modify a.index
            (Advance.goes false (.chunked ⟨σ.advances.size⟩ chunk s)) } := by
  have found' := getElem?_push_of_eq_some found {}
  have change := modify_congr (f := fun m : Advance => { m with next := some _ })
    (g := Advance.goes false (.chunked ⟨σ.advances.size⟩ chunk s)) found' rfl
  rw [← change]
  simp [AdvanceId.note, AdvanceId.alter, AdvanceId.memory, Advance.go, State.inChunk,
    Array.getElem?_modify, found']

end

/-! ## Both sides -/

namespace Watching

/-- Past their tokens both runs are at the same place of the chunk, or both wait for the next chunk.
-/
inductive Crosses (k l : Continuation W) :
    Step (Task W) (Finish W) → Step (Task W) (Finish W) → Prop where
  | within {s t : State Value} :
      Within s t → Crosses k l (.tail (.arrive s k)) (.tail (.arrive t l))
  | across (n : Int) (watched watched' : Bool) (input : Stream Value) (position : Int)
      (user : Value) :
      Crosses k l (.value (.request ⟨n, .plain watched input position user, k⟩))
        (.value (.request ⟨n, .plain watched' input position user, l⟩))

section

variable {w : World W} {σ τ : Store W} {a : AdvanceId} {chunk position : Int} {watched : Bool}
  {input : Stream Value} {user token : Value} {k : Continuation W}

/-- Telling the caller does not change what can be seen. -/
theorem told_eq (unseen : ∀ token world, σ.watch token world = world) (m : Means W) :
    State.told watched token input position user m σ =
      (State.plain watched input position user).advance m σ := by
  cases watched with
  | false => simp [State.told]
  | true => simp [State.told, unseen]

/-- The states behind the token differ only in who is watched. -/
theorem runs_behind (watched' : Bool) : (correspondence W).Runs w
    (fun _ s t => ∃ rest, s = .plain watched rest (position + 1) user ∧
      t = .plain watched' rest (position + 1) user)
    (State.behind watched token input position user)
    (State.behind watched' token input position user) := by
  have hC := even W
  refine hC.bind quiet_told.composed
    (Q := fun _ s t => ∃ rest, s = .plain watched rest (position + 1) user ∧
      t = .plain watched' rest (position + 1) user) ?_ ?_
  · intro w₁ σ τ r hle hs hr
    have hs : Stores w₁ σ τ := hs
    have unseen : ∀ token world, τ.watch token world = world := hs.alike.watch ▸ hs.unseen
    have advance : (correspondence W).Runs w₁ (fun _ s t => ∃ rest,
        s = .plain watched rest (position + 1) user ∧ t = .plain watched' rest (position + 1) user)
        (State.plain watched input position user).advance
        (State.plain watched' input position user).advance := by
      refine hC.bind (composed_rest input) (hC.runs_quiet (quiet_rest input)) ?_
      rintro w₂ rest _ - ⟨rfl, -⟩
      exact hC.pure fun _ _ => ⟨rest, rfl, rfl⟩
    obtain ⟨r', hr', ends⟩ := advance w₁ σ τ r (.refl w₁) hs
      (hr.congr fun m => (told_eq hs.unseen m).symm)
    exact ⟨r', hr'.congr fun m => told_eq unseen m, ends⟩
  · rintro w₁ _ _ - ⟨rest, rfl, rfl⟩ w₂ σ τ r - hs hr
    -- Either side may write to the log.
    let logged (watched : Bool) (σ : Store W) : Store W :=
      if watched then (if σ.logging then { σ with log := ("trying " ++ Task.settleName) :: σ.log }
        else σ) else σ
    have announce (watched : Bool) (s : State Value) (σ : Store W) :
        (do if watched then Eval.debug fun _ => "trying " ++ Task.settleName
            return s : Eval W (State Value)).Comes σ (.ok s (logged watched σ)) := by
      refine comes_of_forall (fun n => ?_) not_exhausted_ok
      cases watched <;> simp [Eval.exec, logged]
    cases hr.unique (announce watched _ σ)
    refine ⟨_, announce watched' _ τ, w₂, .refl w₂, ?_, rest, rfl, rfl⟩
    have left : Stores w₂ (logged watched σ) τ := by
      cases watched with
      | false => exact hs
      | true => exact hC.log hs _
    cases watched' with
    | false => exact left
    | true => exact hC.log_right left _

theorem crosses_go {m n : Advance} (h : Remembers m n) (known : m.next.isSome) (chunk : Int)
    (k l : Continuation W) :
    ∃ x y, m.go chunk k = pure x ∧ n.go chunk l = pure y ∧ Crosses k l x y := by
  cases h with
  | unknown => cases known
  | within _ hst => exact ⟨_, _, rfl, rfl, .within hst⟩
  | across _ v v' i p u => exact ⟨_, _, rfl, rfl, .across _ v v' i p u⟩

/-- The same is remembered on both sides. -/
theorem crosses_note (hs : Stores w σ τ) (watched' : Bool) (l : Continuation W)
    {m : Option Value} {rest : Stream Value} (empty : Bool)
    (found : σ.advances[a.index]? = some ⟨m, none, false⟩)
    {r : EStateM.Result Stop (Store W) (Step (Task W) (Finish W))}
    (hr : (a.note chunk k (.plain watched rest position user) empty).Comes σ r) :
    ∃ r', (a.note chunk l (.plain watched' rest position user) empty).Comes τ r' ∧
      (correspondence W).Ends w (fun _ => Crosses k l) r r' := by
  obtain ⟨n, found', remembers⟩ := hs.advances.found found
  cases remembers
  have grows := (composed_note empty).grows_of_comes hr
  cases empty with
  | true =>
    cases hr.unique (comes_of_forall (fun _ => note_end found _) not_exhausted_ok)
    have right : (a.note chunk l (.plain watched' rest position user) true).Comes τ _ :=
      comes_of_forall (fun _ => note_end found' _) not_exhausted_ok
    refine ⟨_, right, w, .refl w, ?_, .across ..⟩
    have advances : Aligned Remembers
        (σ.advances.modify a.index (Advance.goes true (.plain watched rest position user)))
        (τ.advances.modify a.index (Advance.goes true (.plain watched' rest position user))) :=
      hs.advances.modify _ fun x y hx hy _ => by
        cases found.symm.trans hx
        cases found'.symm.trans hy
        exact .across ..
    exact hs.change grows ((composed_note true).grows_of_comes right)
      { hs.alike with } hs.still advances
      hs.results hs.buffers hs.sessions
  | false =>
    cases hr.unique (comes_of_forall (fun _ => note_more found _) not_exhausted_ok)
    have right : (a.note chunk l (.plain watched' rest position user) false).Comes τ _ :=
      comes_of_forall (fun _ => note_more found' _) not_exhausted_ok
    -- The new memory has the same number on both sides.
    have same : τ.advances.size = σ.advances.size := hs.advances.size.symm
    have within : Within (.chunked ⟨σ.advances.size⟩ chunk (.plain watched rest position user))
        (.chunked ⟨τ.advances.size⟩ chunk (.plain watched' rest position user)) := by
      rw [same]
      exact .intro ..
    refine ⟨_, right, w, .refl w, ?_, .within within⟩
    have advances : Aligned Remembers
        ((σ.advances.push {}).modify a.index (Advance.goes false
          (.chunked ⟨σ.advances.size⟩ chunk (.plain watched rest position user))))
        ((τ.advances.push {}).modify a.index (Advance.goes false
          (.chunked ⟨τ.advances.size⟩ chunk (.plain watched' rest position user)))) := by
      refine (hs.advances.push (.unknown none)).modify _ fun x y hx hy _ => ?_
      cases (getElem?_push_of_eq_some found {}).symm.trans hx
      cases (getElem?_push_of_eq_some found' {}).symm.trans hy
      exact .within m within
    exact hs.change grows ((composed_note false).grows_of_comes right)
      { hs.alike with } hs.still advances
      hs.results hs.buffers hs.sessions

/-- Quiet computations with corresponding ends leave what is remembered of steps past tokens alone,
so what follows them may rely on it. -/
theorem comes_after_quiet {α β γ δ : Type} {x : Eval W α} {y : Eval W β} {f : α → Eval W γ}
    {g : β → Eval W δ} {Q : World W → α → β → Prop} {R : World W → γ → δ → Prop} (hx : Quiet x)
    (runs : (correspondence W).Runs w Q x y) (hs : Stores w σ τ)
    {r : EStateM.Result Stop (Store W) γ} (hr : (x >>= f).Comes σ r)
    (next : ∀ w' a b σ' τ', Q w' a b → Stores w' σ' τ' → σ'.advances = σ.advances →
      (f a).Comes σ' r → ∃ r', (g b).Comes τ' r' ∧ (correspondence W).Ends w' R r r') :
    ∃ r', (y >>= g).Comes τ r' ∧ (correspondence W).Ends w R r r' := by
  rcases hr.of_bind hx.composed with ⟨a, σ', ha, hr⟩ | ⟨e, σ', he, rfl⟩
  · obtain ⟨r₁, hb, ends⟩ := runs w σ τ _ (.refl w) hs ha
    obtain ⟨b, τ', w', rfl, hle, hs', hab⟩ := ends.of_ok
    have same : σ'.advances = σ.advances := (hx.beside hs.still ha).clear.advances
    obtain ⟨r', hr', ends⟩ := next w' a b σ' τ' hab hs' same hr
    exact ⟨r', comes_bind_ok hb hr', (even W).ends_mono hle ends⟩
  · obtain ⟨r₁, hb, ends⟩ := runs w σ τ _ (.refl w) hs he
    obtain ⟨τ', w', rfl, hle, hs'⟩ := ends.of_error
    exact ⟨_, comes_bind_error hb, rfl, w', hle, hs'⟩

/-- Moving past a token leads to the same place on both sides. -/
theorem crosses (hs : Stores w σ τ) (watched' : Bool) (l : Continuation W)
    {r : EStateM.Result Stop (Store W) (Step (Task W) (Finish W))}
    (hr : (a.crossing chunk watched input position user k).Comes σ r) :
    ∃ r', (a.crossing chunk watched' input position user l).Comes τ r' ∧
      (correspondence W).Ends w (fun _ => Crosses k l) r r' := by
  have hC := even W
  cases found : σ.advances[a.index]? with
  | none =>
    have missing := hs.advances.missing found
    cases hr.unique (comes_bind_error (comes_memory_missing found))
    exact ⟨_, comes_bind_error (comes_memory_missing missing), rfl, w, .refl w, hs⟩
  | some m =>
    obtain ⟨n, found', remembers⟩ := hs.advances.found found
    have left := comes_memory found
    have right := comes_memory found'
    rcases hr.of_bind (composed_memory a) with ⟨m', σ', hm, hr⟩ | ⟨e, σ', hm, -⟩
    swap
    · cases hm.unique left
    cases hm.unique left
    have same : m.next.isSome = n.next.isSome := by cases remembers <;> rfl
    by_cases known : m.next.isSome
    · obtain ⟨x, y, hx, hy, cross⟩ := crosses_go remembers known chunk k l
      rw [if_pos known, hx] at hr
      cases hr.unique (comes_pure x σ)
      refine ⟨.ok y τ, comes_bind_ok right ?_, w, .refl w, hs, cross⟩
      rw [if_pos (same ▸ known), hy]
      exact comes_pure y τ
    · rw [if_neg known] at hr
      have unknown : ∃ token, m = ⟨token, none, false⟩ ∧ n = ⟨token, none, false⟩ := by
        cases remembers with
        | unknown token => exact ⟨token, rfl, rfl⟩
        | within => exact absurd rfl known
        | across => exact absurd rfl known
      obtain ⟨token, rfl, rfl⟩ := unknown
      -- Looking at the chunk leaves the memory alone, so it is still empty afterwards.
      suffices h : ∃ r', (State.behind watched' (token.getD .none) input position user >>=
          a.reach chunk l).Comes τ r' ∧ (correspondence W).Ends w (fun _ => Crosses k l) r r' by
        obtain ⟨r', hr', ends⟩ := h
        refine ⟨r', comes_bind_ok right ?_, ends⟩
        exact hr'
      refine comes_after_quiet quiet_behind (runs_behind watched') hs hr ?_
      rintro w₁ _ _ σ₁ τ₁ ⟨rest, rfl, rfl⟩ hs₁ kept hr
      simp only [reach_eq] at hr ⊢
      refine comes_after_quiet (quiet_isEmpty rest) (hC.runs_quiet (quiet_isEmpty rest)) hs₁ hr ?_
      rintro w₂ empty _ σ₂ τ₂ ⟨rfl, -⟩ hs₂ kept' hr
      have found₂ : σ₂.advances[a.index]? = some ⟨token, none, false⟩ :=
        (kept'.trans kept) ▸ found
      exact crosses_note hs₂ watched' l empty found₂ hr

end

/-! ## Whole runs -/

/-- Both runs have ended with replies that differ only in who is watched, or wait for the same
chunk. -/
inductive Finishes (w : World W) : Finish W → Finish W → Prop where
  | reply {r r' : Reply Value} :
      (correspondence W).Replies w r r' → Finishes w (.reply r) (.reply r')
  | request (n : Int) (watched watched' : Bool) (input : Stream Value) (position : Int)
      (user v : Value)
      {k l : Continuation W} : List.Forall₂ ((correspondence W).Frames w) k l →
      Finishes w (.request ⟨n, .plain watched input position user, .matched v :: k⟩)
        (.request ⟨n, .plain watched' input position user, .matched v :: l⟩)

section

variable {w : World W} {σ τ : Store W} {t u : Task W}

/-- What is left after corresponding steps: corresponding tasks, or the ends of both runs. -/
inductive Goes (w : World W) : Step (Task W) (Finish W) → Step (Task W) (Finish W) → Prop where
  | tail {t u : Task W} : (correspondence W).Tasks w t u → Goes w (.tail t) (.tail u)
  | value {f g : Finish W} : Finishes w f g → Goes w (.value f) (.value g)

/-- Corresponding steps lead to corresponding ends, if tasks do from which there are fewer steps to
go. -/
theorem leads_along {n : Nat} {r r' : EStateM.Result Stop (Store W) (Step (Task W) (Finish W))}
    {z : EStateM.Result Stop (Store W) (Finish W)} (ends : (correspondence W).Ends w Goes r r')
    (leads : Step.Leads n r z)
    (fewer : ∀ m < n, ∀ (w : World W) (t u : Task W) (σ τ : Store W),
      (correspondence W).Tasks w t u → Stores w σ τ → t.Reaches m σ z →
      ∃ m' z', u.Reaches m' τ z' ∧ (correspondence W).Ends w Finishes z z') :
    ∃ m z', Step.Leads m r' z' ∧ (correspondence W).Ends w Finishes z z' := by
  cases leads with
  | error =>
    obtain ⟨τ, w', rfl, hle, hs⟩ := ends.of_error
    exact ⟨0, _, .error, ends⟩
  | value =>
    obtain ⟨x, τ, w', rfl, hle, hs, goes⟩ := ends.of_ok
    cases goes with
    | value finishes => exact ⟨0, _, .value, w', hle, hs, finishes⟩
  | tail hlt hz =>
    obtain ⟨x, τ, w', rfl, hle, hs, goes⟩ := ends.of_ok
    cases goes with
    | tail ht =>
      obtain ⟨m, z', hz', ends⟩ := fewer _ hlt w' _ _ _ _ ht hs hz
      exact ⟨m + 1, z', .tail (Nat.lt_succ_self m) hz', (even W).ends_mono hle ends⟩

theorem reaches {n : Nat} {z : EStateM.Result Stop (Store W) (Finish W)}
    (ht : (correspondence W).Tasks w t u) (hs : Stores w σ τ) (hz : t.Reaches n σ z) :
    ∃ m z', u.Reaches m τ z' ∧ (correspondence W).Ends w Finishes z z' := by
  -- The induction is on the steps of the left run. Moving past a token counts as one step.
  induction n using Nat.strongRecOn generalizing w t u σ τ with
  | ind n ih =>
    have hC := faithful W
    have fewer (m : Nat) (hm : m < n) (w : World W) (t u : Task W) (σ τ : Store W)
        (ht : (correspondence W).Tasks w t u) (hs : Stores w σ τ) (hz : t.Reaches m σ z) :
        ∃ m' z', u.Reaches m' τ z' ∧ (correspondence W).Ends w Finishes z z' := ih m hm ht hs hz
    rcases hC.goes ht with steps | ⟨_, _, v, _, k, l, moves, rfl, hk, rfl, rfl⟩
    · obtain ⟨r, hr, leads⟩ := hz.leads
      obtain ⟨r', hr', ends⟩ := steps w σ τ r (.refl w) hs hr
      have goes : (correspondence W).Ends w Goes r r' := by
        refine ends.imp fun w' x y _ _ _ steps => ?_
        cases steps with
        | tail ht => exact .tail ht
        | reply replies => exact .value (.reply replies)
        | pause pausing => exact pausing.elim
      obtain ⟨m, z', leads', ends⟩ := leads_along goes leads fewer
      obtain ⟨m', hz'⟩ := leads'.reaches hr'
      exact ⟨m', z', hz', ends⟩
    · cases moves with
      | cross a chunk watched watched' input position user =>
        obtain ⟨r, hr, leads⟩ := crossing_of_reaches hz
        obtain ⟨r', hr', ends⟩ := crosses hs watched' (.matched v :: l) hr
        have goes : (correspondence W).Ends w Goes r r' := by
          refine ends.imp fun w' x y _ hle _ cross => ?_
          have hk := hC.continuations_mono hle hk
          cases cross with
          | within hst => exact .tail (.arrive hst rfl hk)
          | across n v₁ v₂ i p u => exact .value (.request _ _ _ _ _ _ _ hk)
        obtain ⟨m, z', leads', ends⟩ := leads_along goes leads fewer
        obtain ⟨m', hz'⟩ := reaches_of_crossing hr' leads'
        exact ⟨m', z', hz', ends⟩

/-- Corresponding tasks come to corresponding ends. -/
theorem runs_complete (ht : (correspondence W).Tasks w t u) :
    (correspondence W).Runs w Finishes t.complete u.complete := by
  intro w' σ τ r hle hs hr
  obtain ⟨n, hn⟩ := comes_complete.mp hr
  obtain ⟨m, z, hz, ends⟩ := reaches ((faithful W).tasks_mono hle ht) hs hn
  exact ⟨z, comes_complete.mpr ⟨m, hz⟩, ends⟩

end

end Watching

end ResumableParsing
