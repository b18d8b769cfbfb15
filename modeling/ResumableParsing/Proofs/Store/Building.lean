import ResumableParsing.Grammar.Build
import ResumableParsing.Proofs.Store.Composed

/-!
# Growth while parsers are built

Building a grammar adds parsers and may give existing ones other names. It gives no existing parser
another run function.

* `define_codes`: what a parser can run after a definition
* `Build.Grows`: the store grows by parsers alone
* `Grammar.build_grows`: it does so for every grammar
-/

namespace ResumableParsing

variable {W α β : Type}

/-! ## Cells -/

section

variable {σ : Store W} {p q : ParserId} {c d : Cell W}

/-- The cell of a parser that is there. -/
theorem cell_of_some (hc : σ.parsers[p.index]? = some c) : (p.cell σ).1 = c := by
  change σ.parsers[p.index]?.getD {} = c
  rw [hc, Option.getD_some]

/-- What another definition captures of a parser is its run function, or its logging method. -/
theorem Cell.code_cases (c : Cell W) (p : ParserId) :
    c.direct = some (c.code p) ∨ c.code p = .method p := by
  unfold Cell.code
  cases c.direct with
  | none => exact .inr rfl
  | some code => exact .inl rfl

theorem define_parsers (p source : ParserId) (σ : Store W) :
    (p.define source σ).2.parsers = σ.parsers.modify p.index fun d =>
      { d.define σ.logging ((source.cell σ).1.code source) with name := (source.cell σ).1.name } :=
  rfl

/-- After a definition every parser has the codes that it had, or the one that is captured. -/
theorem define_codes (p source : ParserId) (hd : σ.parsers[q.index]? = some d) :
    ∃ d', (p.define source σ).2.parsers[q.index]? = some d' ∧
      (∀ code, d'.direct = some code →
        d.direct = some code ∨ code = (source.cell σ).1.code source) ∧
      (∀ code, d'.logged = some code →
        d.logged = some code ∨ code = (source.cell σ).1.code source) := by
  rw [define_parsers, Array.getElem?_modify, hd]
  split
  · refine ⟨_, rfl, ?_⟩
    unfold Cell.define
    cases σ.logging with
    | true => exact ⟨fun code h => .inl h, fun code h => .inr (Option.some.inj h).symm⟩
    | false => exact ⟨fun code h => .inr (Option.some.inj h).symm, fun code h => .inl h⟩
  · exact ⟨d, rfl, fun code h => .inl h, fun code h => .inl h⟩

end

/-! ## The combinators -/

/-- The store grows while parsers are built, nothing but parsers is added, and what is added does
not depend on what belongs to states, results and sessions. -/
structure Build.Grows (b : Build W α) : Prop where
  /-- What is known stays known. -/
  grows : ∀ σ : Store W, σ.Grows (b σ).2
  /-- Only parsers are added. -/
  frame : ∀ σ : Store W, (b σ).2 = { σ with parsers := (b σ).2.parsers }
  /-- The same parsers are added to stores that are alike. -/
  alike : ∀ {σ τ : Store W}, σ.Alike τ → (b σ).1 = (b τ).1 ∧ (b σ).2.Alike (b τ).2

/-- No deferred part is computed while parsers are built. -/
theorem Build.Grows.adds {b : Build W α} (h : Build.Grows b) (σ : Store W) : σ.Adds (b σ).2 := by
  have grows := h.grows σ
  rw [h.frame σ] at grows ⊢
  exact { Store.Adds.refl σ with toGrows := grows }

namespace Build.Grows

theorem pure (a : α) : Grows (Pure.pure a : Build W α) := ⟨.refl, fun _ => rfl, fun h => ⟨rfl, h⟩⟩

theorem bind {b : Build W α} {f : α → Build W β} (h : Grows b) (h' : ∀ a, Grows (f a)) :
    Grows (b >>= f) where
  grows σ := (h.grows σ).trans ((h' (b σ).1).grows (b σ).2)
  frame σ := by
    change (f (b σ).1 (b σ).2).2 = { σ with parsers := (f (b σ).1 (b σ).2).2.parsers }
    rw [(h' (b σ).1).frame, h.frame]
  alike {σ τ} k := by
    obtain ⟨h₁, h₂⟩ := h.alike k
    have k' := (h' (b σ).1).alike h₂
    rw [h₁] at k'
    change (f (b σ).1 (b σ).2).1 = (f (b τ).1 (b τ).2).1 ∧
      (f (b σ).1 (b σ).2).2.Alike (f (b τ).1 (b τ).2).2
    rwa [h₁]

/-- Looking at the store. -/
theorem look {g : Store W → α} (h : ∀ {σ τ : Store W}, σ.Alike τ → g σ = g τ) :
    Grows (do return g (← MonadState.get) : Build W α) :=
  ⟨.refl, fun _ => rfl, fun k => ⟨h k, k⟩⟩

/-- Looking at the store, and going on with what is seen. -/
theorem bind_look {g : Store W → α} {f : α → Build W β}
    (h : ∀ {σ τ : Store W}, σ.Alike τ → g σ = g τ) (h' : ∀ a, Grows (f a)) :
    Grows (do f (g (← MonadState.get))) := by
  have hb := bind (look h) h'
  rwa [bind_assoc] at hb

theorem name (p : ParserId) : Grows (p.name : Build W String) :=
  look fun h => by simp [Store.parserName, h.parsers]

theorem cell (p : ParserId) : Grows (p.cell : Build W (Cell W)) := look fun h => by simp [h.parsers]

theorem make (c : Cell W) : Grows (ParserId.make c) where
  grows σ := by
    refine { Store.Grows.refl σ with parsers := fun i d h => ⟨d, ?_, rfl, rfl⟩ }
    obtain ⟨hi, rfl⟩ := Array.getElem?_eq_some_iff.mp h
    exact Array.getElem?_push_lt hi
  frame σ := rfl
  alike k := by
    refine ⟨?_, { k with parsers := ?_ }⟩
    · exact congrArg (fun a : Array (Cell W) => (⟨a.size⟩ : ParserId)) k.parsers
    · exact congrArg (fun a : Array (Cell W) => a.push c) k.parsers

theorem alter (p : ParserId) {f : Cell W → Cell W}
    (hf : ∀ c, (f c).direct = c.direct ∧ (f c).logged = c.logged) : Grows (p.alter f) where
  grows σ := by
    refine { Store.Grows.refl σ with parsers := fun i d h => ?_ }
    change ∃ e : Cell W, (σ.parsers.modify p.index f)[i]? = .some e ∧ _
    rw [Array.getElem?_modify, h]
    split
    · exact ⟨f d, rfl, hf d⟩
    · exact ⟨d, rfl, rfl, rfl⟩
  frame σ := rfl
  alike k := ⟨rfl, { k with
    parsers := congrArg (fun a : Array (Cell W) => a.modify p.index f) k.parsers }⟩

theorem named (p : ParserId) (name : String) : Grows (p.named name : Build W ParserId) :=
  bind (alter p fun _ => ⟨rfl, rfl⟩) fun _ => pure p

theorem body (name : String) (b : ParserId → Body W) : Grows (Build.body name b) :=
  bind_look (g := fun σ => (σ.parsers.size, σ.logging))
    (f := fun x => ParserId.make (({ name := name } : Cell W).define x.2 (.body (b ⟨x.1⟩))))
    (fun h => by rw [h.parsers, h.logging]) fun _ => make _

theorem one (accepts : Value → Action W Bool) : Grows (Build.some accepts) := body _ _

theorem token (v : Value) : Grows (Build.token v : Build W ParserId) :=
  bind_look (g := fun σ => σ.render (Build.tokenName v))
    (f := fun name => do (← Build.some fun t => .done (t.beq v)).named name) (fun h => h.render _)
    fun _ => bind (one _) fun p => named p _

theorem const (v : Value) : Grows (Build.pure v : Build W ParserId) :=
  bind_look (g := fun σ => σ.render v)
    (f := fun text => Build.body ("(pure " ++ text ++ ")") fun _ => .pure v) (fun h => h.render v)
    fun _ => body _ _

theorem fail (message : String) : Grows (Build.fail message : Build W ParserId) := body _ _

theorem forward : Grows (Build.forward : Build W ParserId) := body _ _

theorem seq (p q : ParserId) (c : Combine) : Grows (Build.seq p q c : Build W ParserId) := body _ _

theorem skip (p : ParserId) : Grows (Build.skip p : Build W ParserId) :=
  bind (cell p) fun _ => bind (body _ _) fun i => bind (alter i fun _ => ⟨rfl, rfl⟩) fun _ => pure i

theorem plus (p q : ParserId) : Grows (Build.plus p q : Build W ParserId) := by
  refine bind (cell p) fun a => bind (cell q) fun b => ?_
  cases a.ignored <;> cases b.ignored
  · exact bind (seq p q .group) fun r => named r _
  · exact bind (seq p q .first) fun r => named r _
  · exact bind (seq p q .second) fun r => named r _
  · exact bind (bind (seq p q .second) fun r => skip r) fun r => named r _

theorem or (p q : ParserId) : Grows (Build.or p q : Build W ParserId) :=
  bind (name p) fun _ => bind (name q) fun _ => body _ _

theorem map (p : ParserId) (f : Value → Action W Value) : Grows (Build.map p f) :=
  bind (name p) fun _ => body _ _

theorem optional (p : ParserId) (v : Value) : Grows (Build.optional p v : Build W ParserId) :=
  bind (const v) fun q => bind (or p q) fun r => bind (name p) fun _ => named r _

theorem many (p : ParserId) : Grows (Build.many p : Build W ParserId) :=
  bind (name p) fun _ => body _ _

theorem oneplus (p : ParserId) : Grows (Build.oneplus p : Build W ParserId) :=
  bind (many p) fun r => bind (seq p r .cons) fun q => bind (name p) fun _ =>
    bind (name p) fun _ => named q _

theorem noItems : Grows (Build.noItems : Build W ParserId) := const _

theorem repeated (p : ParserId) (n : Nat) (last : ParserId) :
    Grows (Build.repeated p n last : Build W ParserId) := by
  induction n generalizing last with
  | zero => exact pure last
  | succ n ih => exact bind (seq p last .cons) fun q => ih q

theorem times (n : Int) (p : ParserId) : Grows (Build.times n p : Build W ParserId) :=
  bind noItems fun last => bind (repeated p _ last) fun q => bind (name p) fun _ => named q _

theorem upTo (p : ParserId) (n : Nat) (last : ParserId) :
    Grows (Build.upTo p n last : Build W ParserId) := by
  induction n generalizing last with
  | zero => exact pure last
  | succ n ih => exact bind (seq p last .cons) fun q => bind (optional q _) fun r => ih r

theorem betweenTimes (low : Int) (high : Option Int) (p : ParserId) :
    Grows (Build.betweenTimes low high p : Build W ParserId) := by
  have rest (extra : ParserId) (limit : String) : Grows (do
      let name := toString low ++ ".." ++ limit ++ " * " ++ (← p.name)
      (← Build.seq (← Build.times low p) extra .append).named name : Build W ParserId) :=
    bind (name p) fun _ => bind (times low p) fun q => bind (seq q extra .append) fun r => named r _
  cases high with
  | none => exact bind (many p) fun extra => rest extra _
  | some h => exact bind noItems fun last => bind (upTo p _ last) fun extra => rest extra _

theorem sepBy1 (p separator : ParserId) : Grows (Build.sepBy1 p separator : Build W ParserId) :=
  bind (seq separator p .second) fun q => bind (many q) fun r => bind (seq p r .cons) fun t =>
    bind (name p) fun _ => bind (name separator) fun _ => named t _

theorem sepBy (p separator : ParserId) : Grows (Build.sepBy p separator : Build W ParserId) :=
  bind (sepBy1 p separator) fun q => optional q _

theorem sequence (ps : List ParserId) : Grows (Build.sequence ps : Build W ParserId) := by
  have fold (last : ParserId) :
      Grows (ps.foldrM (fun p q => Build.seq p q .cons) last : Build W ParserId) := by
    induction ps with
    | nil => exact pure last
    | cons p ps ih =>
      rw [List.foldrM_cons]
      exact bind ih fun q => seq p q .cons
  have names : Grows (ps.mapM ParserId.name : Build W (List String)) := by
    clear fold
    induction ps with
    | nil => exact pure []
    | cons p ps ih =>
      rw [List.mapM_cons]
      exact bind (name p) fun n => bind ih fun ns => pure (n :: ns)
  exact bind noItems fun last => bind (fold last) fun q => bind names fun _ => named q _

theorem listed (p : ParserId) : Grows (Build.listed p : Build W ParserId) :=
  bind (map p _) fun q => bind (name p) fun _ => named q _

/-- Only the new parser gets a definition. -/
theorem wrap (p : ParserId) : Grows (Build.wrap p : Build W ParserId) where
  grows σ := by
    refine { Store.Grows.refl σ with parsers := fun i d h => ⟨d, ?_, rfl, rfl⟩ }
    obtain ⟨hi, rfl⟩ := Array.getElem?_eq_some_iff.mp h
    change ((σ.parsers.push {}).modify σ.parsers.size _)[i]? = _
    rw [Array.getElem?_modify, if_neg (by omega), Array.getElem?_push_lt hi]
  frame σ := rfl
  alike {σ τ} k := by
    let made (x : Array (Cell W) × Bool) : Array (Cell W) :=
      let source := (x.1.push {})[p.index]?.getD {}
      (x.1.push {}).modify x.1.size fun d =>
        { d.define x.2 (source.code p) with name := source.name }
    have same : (σ.parsers, σ.logging) = (τ.parsers, τ.logging) := by rw [k.parsers, k.logging]
    refine ⟨?_, { k with parsers := ?_ }⟩
    · exact congrArg (fun a : Array (Cell W) => (⟨a.size⟩ : ParserId)) k.parsers
    · exact congrArg made same

end Build.Grows

/-! ## Whole grammars -/

mutual

theorem Grammar.build_grows (g : Grammar W) : Build.Grows g.build := by
  cases g with
  | ref p => exact .pure p
  | some f => exact .one f
  | token v => exact .token v
  | pure v => exact .const v
  | fail m => exact .fail m
  | finished => exact .pure _
  | plus p q => exact .bind p.build_grows fun _ => .bind q.build_grows fun _ => .plus _ _
  | or p q => exact .bind p.build_grows fun _ => .bind q.build_grows fun _ => .or _ _
  | map p f => exact .bind p.build_grows fun _ => .map _ _
  | bind p f => exact .bind p.build_grows fun _ => .bind (.name _) fun _ => .body _ _
  | skip p => exact .bind p.build_grows fun _ => .skip _
  | attempt p => exact .bind p.build_grows fun _ => .bind (.name _) fun _ => .body _ _
  | optional p v => exact .bind p.build_grows fun _ => .optional _ _
  | many p => exact .bind p.build_grows fun _ => .many _
  | oneplus p => exact .bind p.build_grows fun _ => .oneplus _
  | times n p => exact .bind p.build_grows fun _ => .times _ _
  | betweenTimes low high p => exact .bind p.build_grows fun _ => .betweenTimes _ _ _
  | sepBy1 p q => exact .bind p.build_grows fun _ => .bind q.build_grows fun _ => .sepBy1 _ _
  | sepBy p q => exact .bind p.build_grows fun _ => .bind q.build_grows fun _ => .sepBy _ _
  | sequence ps => exact .bind (Grammar.buildAll_grows ps) fun _ => .sequence _
  | listed p => exact .bind p.build_grows fun _ => .listed _
  | named p name => exact .bind p.build_grows fun _ => .named _ _
  | wrap p => exact .bind p.build_grows fun _ => .wrap _
  | forward => exact .forward
  | undefined name => exact .make _
  | native name f => exact .body _ _
  | after name p f => exact .bind p.build_grows fun _ => .body _ _
  | cell v again => exact .body _ _

theorem Grammar.buildAll_grows (gs : List (Grammar W)) : Build.Grows (Grammar.buildAll gs) := by
  cases gs with
  | nil => exact .pure []
  | cons g gs =>
    exact .bind g.build_grows fun p => .bind (Grammar.buildAll_grows gs) fun ps => .pure (p :: ps)

end

end ResumableParsing
