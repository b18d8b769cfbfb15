import ResumableParsing.Proofs.Logging.Building

/-!
# Names of parsers

Parsers are named when they are built, after the names that others have then. What they do does not
depend on these names: in stores that differ in names alone the same is built, but for names.

* `Store.renamed`: other names
* `Store.SameButNames`: stores that differ in names alone
* `Build.SameButNames`, `Build.IgnoresNames`: builders that give the same in such stores
* `Grammar.build_ignoresNames`, `Program.build_ignoresNames`: grammars and programs
* `Logging.Stores.renamed`: stores that differ in logging, with other names
-/

namespace ResumableParsing

variable {W α β : Type}

/-! ## Stores that differ in names -/

/-- The cell without its name. -/
def Cell.unnamed (c : Cell W) : Cell W := { c with name := "" }

/-- The store, with other names of the parsers. -/
def Store.renamed (names : ParserId → String) (σ : Store W) : Store W :=
  { σ with parsers := σ.parsers.mapIdx fun i c => { c with name := names ⟨i⟩ } }

/-- The stores are the same but for the names of the parsers. -/
structure Store.SameButNames (σ τ : Store W) : Prop where
  /-- Everything besides parsers is the same. -/
  rest : τ = { σ with parsers := τ.parsers }
  /-- Without their names the parsers are the same. -/
  parsers : τ.parsers.map Cell.unnamed = σ.parsers.map Cell.unnamed

theorem Cell.code_eq {c d : Cell W} (h : c.unnamed = d.unnamed) (p : ParserId) :
    c.code p = d.code p := by
  change c.unnamed.code p = d.unnamed.code p
  rw [h]

theorem Cell.ignored_eq {c d : Cell W} (h : c.unnamed = d.unnamed) : c.ignored = d.ignored := by
  change c.unnamed.ignored = d.unnamed.ignored
  rw [h]

theorem Cell.inForce_eq {c d : Cell W} (h : c.unnamed = d.unnamed) : c.inForce = d.inForce := by
  change c.unnamed.inForce = d.unnamed.inForce
  rw [h]

theorem Store.getElem?_renamed (names : ParserId → String) (σ : Store W) (i : Nat) :
    (σ.renamed names).parsers[i]? = σ.parsers[i]?.map fun c => { c with name := names ⟨i⟩ } :=
  Array.getElem?_mapIdx

/-- A store and the one with other names. -/
theorem Store.sameButNames_renamed (σ : Store W) (names : ParserId → String) :
    σ.SameButNames (σ.renamed names) := by
  refine ⟨rfl, ?_⟩
  apply Array.ext_getElem?
  intro i
  rw [Array.getElem?_map, Array.getElem?_map, getElem?_renamed, Option.map_map]
  rfl

namespace Store.SameButNames

variable {σ τ υ : Store W}

theorem refl (σ : Store W) : σ.SameButNames σ := ⟨rfl, rfl⟩

theorem trans (h : σ.SameButNames τ) (h' : τ.SameButNames υ) : σ.SameButNames υ :=
  ⟨by rw [h'.rest, h.rest], h'.parsers.trans h.parsers⟩

theorem size (h : σ.SameButNames τ) : τ.parsers.size = σ.parsers.size := by
  simpa using congrArg Array.size h.parsers

theorem logging (h : σ.SameButNames τ) : τ.logging = σ.logging := by rw [h.rest]

/-- The same parsers are there. -/
theorem cells (h : σ.SameButNames τ) (i : Nat) :
    σ.parsers[i]?.map Cell.unnamed = τ.parsers[i]?.map Cell.unnamed := by
  rw [← Array.getElem?_map, ← h.parsers, Array.getElem?_map]

theorem cell (h : σ.SameButNames τ) (p : ParserId) :
    (p.cell σ).1.unnamed = (p.cell τ).1.unnamed := by
  have same := h.cells p.index
  have unnamed (x : Option (Cell W)) : (x.getD {}).unnamed = (x.map Cell.unnamed).getD {} := by
    cases x <;> rfl
  change (σ.parsers[p.index]?.getD {}).unnamed = (τ.parsers[p.index]?.getD {}).unnamed
  rw [unnamed, unnamed, same]

/-- With the same names the stores are the same. -/
theorem renamed_eq (h : σ.SameButNames τ) (names : ParserId → String) :
    σ.renamed names = τ.renamed names := by
  have parsers : (σ.renamed names).parsers = (τ.renamed names).parsers := by
    apply Array.ext_getElem?
    intro i
    -- The names that are given replace those that there are.
    have unnamed (σ : Store W) : (σ.renamed names).parsers[i]? =
        (σ.parsers[i]?.map Cell.unnamed).map fun c => { c with name := names ⟨i⟩ } := by
      rw [getElem?_renamed, Option.map_map]
      rfl
    rw [unnamed, unnamed, h.cells]
  have rest : τ.renamed names = { σ.renamed names with parsers := (τ.renamed names).parsers } := by
    rw [h.rest]
    rfl
  rw [rest, ← parsers]

end Store.SameButNames

/-! ## Builders -/

/-- In stores that are the same but for names, the builders give corresponding results, and they
leave stores that are the same but for names. -/
def Build.SameButNames (R : α → α → Prop) (b c : Build W α) : Prop :=
  ∀ σ τ : Store W, σ.SameButNames τ → R (b σ).1 (c τ).1 ∧ (b σ).2.SameButNames (c τ).2

namespace Build.SameButNames

section

variable {R : α → α → Prop} {R' : β → β → Prop} {b c : Build W α} {f g : α → Build W β}

theorem pure {a a' : α} (h : R a a') : SameButNames R (Pure.pure a : Build W α) (Pure.pure a') :=
  fun _ _ k => ⟨h, k⟩

theorem bind (h : SameButNames R b c) (h' : ∀ x y, R x y → SameButNames R' (f x) (g y)) :
    SameButNames R' (b >>= f) (c >>= g) := by
  intro σ τ k
  obtain ⟨same, k'⟩ := h σ τ k
  exact h' _ _ same _ _ k'

theorem look {k : Store W → α} (h : ∀ σ τ : Store W, σ.SameButNames τ → R (k σ) (k τ)) :
    SameButNames R (do return k (← MonadState.get)) (do return k (← MonadState.get)) :=
  fun σ τ same => ⟨h σ τ same, same⟩

/-- Looking at the store, and going on with what is seen. -/
theorem bind_look {k : Store W → α} (h : ∀ σ τ : Store W, σ.SameButNames τ → R (k σ) (k τ))
    (h' : ∀ x y, R x y → SameButNames R' (f x) (g y)) :
    SameButNames R' (do f (k (← MonadState.get))) (do g (k (← MonadState.get))) := by
  have both := bind (look h) h'
  rwa [bind_assoc, bind_assoc] at both

/-- The names of a parser may differ. -/
theorem name (p : ParserId) :
    SameButNames (fun _ _ => True) (p.name : Build W String) p.name :=
  look fun _ _ _ => trivial

theorem cell (p : ParserId) :
    SameButNames (fun c d => c.unnamed = d.unnamed) (p.cell : Build W (Cell W)) p.cell :=
  fun _ _ k => ⟨k.cell p, k⟩

/-- Cells are added that differ in their names. -/
theorem make {c d : Cell W} (h : c.unnamed = d.unnamed) :
    SameButNames Eq (ParserId.make c) (ParserId.make d) := by
  intro σ τ k
  refine ⟨congrArg ParserId.mk k.size.symm, ?_, ?_⟩
  · change { τ with parsers := τ.parsers.push d } = _
    rw [k.rest]
    rfl
  · change (τ.parsers.push d).map _ = (σ.parsers.push c).map _
    rw [Array.map_push, Array.map_push, k.parsers, h]

/-- A cell is changed in ways that differ in names. -/
theorem alter (p : ParserId) {f g : Cell W → Cell W}
    (h : ∀ c d, c.unnamed = d.unnamed → (f c).unnamed = (g d).unnamed) :
    SameButNames Eq (p.alter f) (p.alter g) := by
  intro σ τ k
  refine ⟨rfl, ?_, ?_⟩
  · change { τ with parsers := τ.parsers.modify p.index g } = _
    rw [k.rest]
    rfl
  · change (τ.parsers.modify p.index g).map _ = (σ.parsers.modify p.index f).map _
    apply Array.ext_getElem?
    intro i
    rw [Array.getElem?_map, Array.getElem?_map, Array.getElem?_modify, Array.getElem?_modify]
    have same := k.cells i
    split
    -- The cell is there in both stores or in none.
    · generalize σ.parsers[i]? = x at same ⊢
      generalize τ.parsers[i]? = y at same ⊢
      cases x <;> cases y
      · rfl
      · cases same
      · cases same
      · exact congrArg Option.some (h _ _ (Option.some.inj same)).symm
    · exact same.symm

end

theorem named (p : ParserId) (x y : String) :
    SameButNames Eq (p.named x : Build W ParserId) (p.named y) :=
  bind (alter p fun _ _ h => h) fun _ _ _ => pure rfl

theorem unnamed_define {c d : Cell W} (h : c.unnamed = d.unnamed) (logging : Bool) (code : Code W)
    (x y : String) : ({ c.define logging code with name := x } : Cell W).unnamed =
      ({ d.define logging code with name := y } : Cell W).unnamed := by
  have defined (c : Cell W) (x : String) :
      ({ c.define logging code with name := x } : Cell W).unnamed =
        c.unnamed.define logging code := by
    cases logging <;> rfl
  exact (defined c x).trans ((congrArg (Cell.define · logging code) h).trans (defined d y).symm)

theorem body (x y : String) (b : ParserId → Body W) :
    SameButNames Eq (Build.body x b) (Build.body y b) := by
  refine bind_look (R := Eq) (k := fun σ => (σ.parsers.size, σ.logging))
    (f := fun z => ParserId.make (({ name := x } : Cell W).define z.2 (.body (b ⟨z.1⟩))))
    (g := fun z => ParserId.make (({ name := y } : Cell W).define z.2 (.body (b ⟨z.1⟩))))
    (fun _ _ k => by rw [k.size, k.logging]) ?_
  rintro ⟨size, logging⟩ _ rfl
  refine make ?_
  cases logging <;> rfl

end Build.SameButNames

/-- In stores that are the same but for names, the builder gives the same, and it leaves stores that
are the same but for names. -/
abbrev Build.IgnoresNames (b : Build W α) : Prop := Build.SameButNames Eq b b

namespace Build.IgnoresNames

theorem pure (a : α) : IgnoresNames (Pure.pure a : Build W α) := SameButNames.pure rfl

theorem bind {b : Build W α} {f : α → Build W β} (h : IgnoresNames b)
    (h' : ∀ a, IgnoresNames (f a)) : IgnoresNames (b >>= f) :=
  SameButNames.bind h fun a _ same => same ▸ h' a

/-- What is built may depend on the name of a parser by names only. -/
theorem naming (p : ParserId) {f : String → Build W α} (h : ∀ x y, SameButNames Eq (f x) (f y)) :
    IgnoresNames (do f (← p.name)) :=
  SameButNames.bind (.name p) fun x y _ => h x y

/-- A parser is built, and named after the text of a value. -/
theorem rendering (v : Value) {f : String → Build W α} (h : ∀ x y, SameButNames Eq (f x) (f y)) :
    IgnoresNames (do f ((← MonadState.get).render v)) :=
  SameButNames.bind_look (R := fun _ _ => True) (k := fun σ => σ.render v) (fun _ _ _ => trivial)
    fun x y _ => h x y

/-- The parser that is built gets one name or another. -/
theorem called {b : Build W ParserId} (h : IgnoresNames b) (x y : String) :
    SameButNames Eq (do (← b).named x) (do (← b).named y) :=
  SameButNames.bind h fun p _ same => same ▸ .named p x y

theorem define (p q : ParserId) : IgnoresNames (p.define q : Build W Unit) := by
  refine SameButNames.bind (.cell q) fun c d h =>
    .bind_look (R := Eq) (k := fun σ => σ.logging)
      (f := fun logging => p.alter fun e => { e.define logging (c.code q) with name := c.name })
      (g := fun logging => p.alter fun e => { e.define logging (d.code q) with name := d.name })
      (fun _ _ k => k.logging.symm) ?_
  rintro logging _ rfl
  refine .alter p fun e e' same => ?_
  rw [Cell.code_eq h]
  exact SameButNames.unnamed_define same logging _ _ _

theorem body (name : String) (b : ParserId → Body W) : IgnoresNames (Build.body name b) :=
  SameButNames.body name name b

theorem token (v : Value) : IgnoresNames (Build.token v : Build W ParserId) :=
  rendering _ fun x y => called (body _ _) x y

theorem const (v : Value) : IgnoresNames (Build.pure v : Build W ParserId) :=
  rendering v (f := fun text => Build.body ("(pure " ++ text ++ ")") fun _ => .pure v)
    fun _ _ => .body _ _ _

theorem seq (p q : ParserId) (c : Combine) : IgnoresNames (Build.seq p q c : Build W ParserId) :=
  body _ _

theorem skip (p : ParserId) : IgnoresNames (Build.skip p : Build W ParserId) := by
  refine SameButNames.bind (.cell p) fun c d h => ?_
  -- The run function that is taken over is the same, and the name of the new parser is another one.
  rw [Cell.code_eq h]
  refine SameButNames.bind (.body _ _ _) ?_
  rintro i _ rfl
  refine bind (.alter i fun c d h => ?_) fun _ => pure i
  exact congrArg (fun c : Cell W => { c with ignored := true }) h

theorem plus (p q : ParserId) : IgnoresNames (Build.plus p q : Build W ParserId) := by
  refine SameButNames.bind (.cell p) fun a a' ha => .bind (.cell q) fun b b' hb => ?_
  rw [Cell.ignored_eq ha, Cell.ignored_eq hb]
  cases a'.ignored <;> cases b'.ignored
  · exact called (seq p q .group) _ _
  · exact called (seq p q .first) _ _
  · exact called (seq p q .second) _ _
  · exact called (bind (seq p q .second) skip) _ _

theorem or (p q : ParserId) : IgnoresNames (Build.or p q : Build W ParserId) :=
  naming p fun _ _ => .bind (.name q) fun _ _ _ => .body _ _ _

theorem map (p : ParserId) (f : Value → Action W Value) : IgnoresNames (Build.map p f) :=
  naming p fun _ _ => .body _ _ _

theorem optional (p : ParserId) (v : Value) :
    IgnoresNames (Build.optional p v : Build W ParserId) :=
  bind (const v) fun q => bind (or p q) fun r => naming p fun _ _ => .named r _ _

theorem many (p : ParserId) : IgnoresNames (Build.many p : Build W ParserId) :=
  naming p fun _ _ => .body _ _ _

theorem oneplus (p : ParserId) : IgnoresNames (Build.oneplus p : Build W ParserId) :=
  bind (many p) fun r => bind (seq p r .cons) fun q => naming p fun _ _ =>
    .bind (.name p) fun _ _ _ => .named q _ _

theorem repeated (p : ParserId) (n : Nat) (last : ParserId) :
    IgnoresNames (Build.repeated p n last : Build W ParserId) := by
  induction n generalizing last with
  | zero => exact pure last
  | succ n ih => exact bind (seq p last .cons) ih

theorem times (n : Int) (p : ParserId) : IgnoresNames (Build.times n p : Build W ParserId) :=
  bind (const _) fun last => bind (repeated p _ last) fun q => naming p fun _ _ => .named q _ _

theorem upTo (p : ParserId) (n : Nat) (last : ParserId) :
    IgnoresNames (Build.upTo p n last : Build W ParserId) := by
  induction n generalizing last with
  | zero => exact pure last
  | succ n ih => exact bind (seq p last .cons) fun q => bind (optional q _) ih

theorem betweenTimes (low : Int) (high : Option Int) (p : ParserId) :
    IgnoresNames (Build.betweenTimes low high p : Build W ParserId) := by
  have rest (extra : ParserId) (limit : String) : IgnoresNames (do
      let name := toString low ++ ".." ++ limit ++ " * " ++ (← p.name)
      (← Build.seq (← Build.times low p) extra .append).named name : Build W ParserId) :=
    naming p fun x y => called (bind (times low p) fun q => seq q extra .append) _ _
  cases high with
  | none => exact bind (many p) fun extra => rest extra _
  | some h => exact bind (const _) fun last => bind (upTo p _ last) fun extra => rest extra _

theorem sepBy1 (p separator : ParserId) :
    IgnoresNames (Build.sepBy1 p separator : Build W ParserId) :=
  bind (seq separator p .second) fun q => bind (many q) fun r => bind (seq p r .cons) fun t =>
    naming p fun _ _ => .bind (.name separator) fun _ _ _ => .named t _ _

theorem sepBy (p separator : ParserId) :
    IgnoresNames (Build.sepBy p separator : Build W ParserId) :=
  bind (sepBy1 p separator) fun q => optional q _

theorem sequence (ps : List ParserId) : IgnoresNames (Build.sequence ps : Build W ParserId) := by
  have fold (last : ParserId) :
      IgnoresNames (ps.foldrM (fun p q => Build.seq p q .cons) last : Build W ParserId) := by
    induction ps with
    | nil => exact pure last
    | cons p ps ih =>
      rw [List.foldrM_cons]
      exact bind ih fun q => seq p q .cons
  have names : SameButNames (fun _ _ => True) (ps.mapM ParserId.name : Build W (List String))
      (ps.mapM ParserId.name) := by
    clear fold
    induction ps with
    | nil => exact .pure trivial
    | cons p ps ih =>
      rw [List.mapM_cons]
      exact .bind (.name p) fun _ _ _ => .bind ih fun _ _ _ => .pure trivial
  exact bind (const _) fun last => bind (fold last) fun q =>
    SameButNames.bind names fun _ _ _ => .named q _ _

theorem listed (p : ParserId) : IgnoresNames (Build.listed p : Build W ParserId) :=
  bind (map p _) fun q => naming p fun _ _ => .named q _ _

theorem wrap (p : ParserId) : IgnoresNames (Build.wrap p : Build W ParserId) :=
  bind (.make rfl) fun q => bind (define q p) fun _ => pure q

end Build.IgnoresNames

/-! ## Grammars and programs -/

mutual

theorem Grammar.build_ignoresNames (g : Grammar W) : Build.IgnoresNames g.build := by
  cases g with
  | ref p => exact .pure _
  | some f => exact .body _ _
  | token v => exact .token v
  | pure v => exact .const v
  | fail m => exact .body _ _
  | finished => exact .pure _
  | plus p q =>
    exact .bind p.build_ignoresNames fun _ => .bind q.build_ignoresNames (.plus _)
  | or p q =>
    exact .bind p.build_ignoresNames fun _ => .bind q.build_ignoresNames (.or _)
  | map p f => exact .bind p.build_ignoresNames fun _ => .map _ _
  | bind p f =>
    exact .bind p.build_ignoresNames fun _ => .naming _ fun _ _ => .body _ _ _
  | skip p => exact .bind p.build_ignoresNames .skip
  | attempt p =>
    exact .bind p.build_ignoresNames fun _ => .naming _ fun _ _ => .body _ _ _
  | optional p v => exact .bind p.build_ignoresNames fun _ => .optional _ _
  | many p => exact .bind p.build_ignoresNames .many
  | oneplus p => exact .bind p.build_ignoresNames .oneplus
  | times n p => exact .bind p.build_ignoresNames (.times n)
  | betweenTimes low high p => exact .bind p.build_ignoresNames (.betweenTimes low high)
  | sepBy1 p q =>
    exact .bind p.build_ignoresNames fun _ => .bind q.build_ignoresNames (.sepBy1 _)
  | sepBy p q =>
    exact .bind p.build_ignoresNames fun _ => .bind q.build_ignoresNames (.sepBy _)
  | sequence ps => exact .bind (Grammar.buildAll_ignoresNames ps) .sequence
  | listed p => exact .bind p.build_ignoresNames .listed
  | named p name => exact .bind p.build_ignoresNames fun q => .named q _ _
  | wrap p => exact .bind p.build_ignoresNames .wrap
  | forward => exact .body _ _
  | undefined name => exact .make rfl
  | native name f => exact .body _ _
  | after name p f => exact .bind p.build_ignoresNames fun _ => .body _ _
  | cell v again => exact .body _ _

theorem Grammar.buildAll_ignoresNames (gs : List (Grammar W)) :
    Build.IgnoresNames (Grammar.buildAll gs) := by
  cases gs with
  | nil => exact .pure _
  | cons g gs =>
    exact .bind g.build_ignoresNames fun p =>
      .bind (Grammar.buildAll_ignoresNames gs) fun ps => .pure _

end

theorem Program.build_ignoresNames (program : Program W α) :
    Build.IgnoresNames program.build := by
  induction program with
  | done a => exact .pure _
  | declare k ih => exact .bind (.body _ _) ih
  | make g k ih => exact .bind g.build_ignoresNames ih
  | define p q next ih => exact .bind (.define p q) fun _ => ih

/-! ## Stores that differ in logging -/

section

variable {M : Prop} {K F : ParserId → Prop} {σ τ : Store W} {c : Cell W}

/-- A parser that has got a name is kept as it is otherwise. -/
theorem Logging.kept_renamed (F : ParserId → Prop) (σ : Store W) (names : ParserId → String) :
    Kept F F σ.parsers (σ.renamed names).parsers := by
  intro p c settled hc
  refine ⟨settled, { c with name := names p }, ?_, rfl⟩
  rw [Store.getElem?_renamed, hc]
  rfl

theorem Store.renamed_eq_some {names : ParserId → String} {p : ParserId}
    (h : (σ.renamed names).parsers[p.index]? = some c) :
    ∃ d, σ.parsers[p.index]? = some d ∧ c = { d with name := names p } := by
  rw [getElem?_renamed] at h
  obtain ⟨d, hd, rfl⟩ := Option.map_eq_some_iff.mp h
  exact ⟨d, hd, rfl⟩

theorem Logging.Definable.renamed {p : ParserId} (names : ParserId → String)
    (h : Definable σ p) : Definable (σ.renamed names) p := by
  intro c hc on
  obtain ⟨d, found, rfl⟩ := Store.renamed_eq_some hc
  exact h d found on

/-- Parsers may get other names on both sides. -/
theorem Logging.Stores.renamed (h : Stores M K F σ τ) (names : ParserId → String) :
    Stores M K F (σ.renamed names) (τ.renamed names) where
  rest := by
    unfold Store.renamed
    rw [h.rest]
  size := by simpa [Store.renamed] using h.size
  cells p c d hc hd := by
    obtain ⟨c, left, rfl⟩ := Store.renamed_eq_some hc
    obtain ⟨d, right, rfl⟩ := Store.renamed_eq_some hd
    have cells := (h.cells p c d left right).mono (fun _ h => h) (kept_renamed F σ names)
      (kept_renamed F τ names) id
    exact ⟨rfl, cells.ignored, cells.inForce⟩
  known p hp := by simpa [Store.renamed] using h.known p hp
  declared p hp := by simpa [Store.renamed] using h.declared p hp
  definable p hp := (h.definable p hp).imp (.renamed names) (.renamed names)
  truthful := { h.truthful with }

end

end ResumableParsing
