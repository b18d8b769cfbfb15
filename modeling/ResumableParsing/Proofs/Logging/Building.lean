import ResumableParsing.Proofs.Logging.Stores

/-!
# Building in stores that differ in logging

An orderly grammar is built alike in stores that differ in logging: the parsers have the same places
and the same names, and they do the same. So are the parsers of an orderly program, which are
declared before they are defined.

* `Logging.Builds`: what is built alike
* `Logging.builds_skip`, `Logging.builds_wrap`: run functions that are taken over
* `Grammar.Orderly.builds`: orderly grammars
* `Logging.Stores.define`: definitions
* `Program.Orderly.built`: orderly programs
-/

namespace ResumableParsing

variable {W α β : Type} {M : Prop} {K F : ParserId → Prop}

namespace Logging

/-! ## New parsers -/

/-- The builder gives the same on both sides, and `R` holds of the result and of the stores
afterwards. -/
def Both (b : Build W α) (σ τ : Store W) (R : α → Store W → Store W → Prop) : Prop :=
  (b τ).1 = (b σ).1 ∧ R (b σ).1 (b σ).2 (b τ).2

/-- What is built first is the same on both sides, and so is what is built from it. -/
theorem Both.bind {b : Build W α} {f : α → Build W β} {σ τ : Store W}
    {R : α → Store W → Store W → Prop} {R' : β → Store W → Store W → Prop} (h : Both b σ τ R)
    (h' : ∀ a σ' τ', R a σ' τ' → Both (f a) σ' τ' R') : Both (b >>= f) σ τ R' := by
  obtain ⟨same, h⟩ := h
  change (f (b τ).1 (b τ).2).1 = (f (b σ).1 (b σ).2).1 ∧ R' _ _ (f (b τ).1 (b τ).2).2
  rw [same]
  exact h' _ _ _ h

theorem Both.imp {b : Build W α} {σ τ : Store W} {R R' : α → Store W → Store W → Prop}
    (h : Both b σ τ R) (h' : ∀ a σ' τ', R a σ' τ' → R' a σ' τ') : Both b σ τ R' :=
  ⟨h.1, h' _ _ _ h.2⟩

/-- The same is built on both sides, and the stores still differ in logging only. Before there are
`n` parsers, and afterwards `R` holds of their number and of the result. -/
def Builds (M : Prop) (K F : ParserId → Prop) (n : Nat) (b : Build W α) (R : Nat → α → Prop) :
    Prop :=
  ∀ σ τ : Store W, Stores M K F σ τ → σ.parsers.size = n → Both b σ τ fun a σ' τ' =>
    Stores M K F σ' τ' ∧ n ≤ σ'.parsers.size ∧ R σ'.parsers.size a

/-- The parser is there, and is not to be defined. -/
def Settled (F : ParserId → Prop) (n : Nat) (p : ParserId) : Prop := p.index < n ∧ ¬F p

/-- Besides, it was not known. -/
def New (K F : ParserId → Prop) (n : Nat) (p : ParserId) : Prop := Settled F n p ∧ ¬K p

theorem Settled.later {n n' : Nat} {p : ParserId} (h : Settled F n p) (hn : n ≤ n') :
    Settled F n' p :=
  ⟨Nat.lt_of_lt_of_le h.1 hn, h.2⟩

theorem New.later {n n' : Nat} {p : ParserId} (h : New K F n p) (hn : n ≤ n') : New K F n' p :=
  ⟨h.1.later hn, h.2⟩

section

variable {σ τ : Store W}

/-- The next parser is not known yet, and not to be defined. -/
theorem Stores.new (h : Stores M K F σ τ) : New K F (σ.parsers.size + 1) ⟨σ.parsers.size⟩ := by
  refine ⟨⟨Nat.lt_succ_self _, fun declared => ?_⟩, fun known => ?_⟩
  · exact absurd (h.declared _ declared) (Nat.lt_irrefl _)
  · exact absurd (h.known _ known) (Nat.lt_irrefl _)

/-- Parsers are added on both sides. They do the same, or are declared. -/
theorem Stores.push {F' : ParserId → Prop} (h : Stores M K F σ τ) {c d : Cell W}
    (hF : ∀ p, F' p → F p ∨ p = ⟨σ.parsers.size⟩) (stay : ∀ p, F p → F' p)
    (new : F' ⟨σ.parsers.size⟩ →
      (σ.logging = true → c.direct = none) ∧ (τ.logging = true → d.direct = none))
    (same : ∀ a b, Kept F F' σ.parsers a → Kept F F' τ.parsers b →
      Cells M K F' a b ⟨σ.parsers.size⟩ c d) :
    Stores M K F' { σ with parsers := σ.parsers.push c }
      { τ with parsers := τ.parsers.push d } := by
  have kept {a : Array (Cell W)} (size : a.size = σ.parsers.size) (x : Cell W) :
      Kept F F' a (a.push x) := by
    intro p e settled he
    obtain ⟨hi, rfl⟩ := Array.getElem?_eq_some_iff.mp he
    refine ⟨fun declared => ?_, _, Array.getElem?_push_lt hi, rfl⟩
    rcases hF p declared with old | rfl
    · exact settled old
    · exact absurd hi (by simp [size])
  refine {
    rest := by rw [h.rest]
    size := by simp [h.size]
    known := fun p hp => Nat.lt_of_lt_of_le (h.known p hp) (by simp)
    truthful := { h.truthful with }
    cells := fun p e e' he he' => ?cells
    declared := fun p hp => ?declared
    definable := fun p hp => ?definable }
  case cells =>
    simp only [Array.getElem?_push, h.size] at he he'
    split at he
    · next last =>
      obtain rfl := Option.some.inj he
      obtain rfl := Option.some.inj (by simpa [last] using he')
      obtain rfl : p = ⟨σ.parsers.size⟩ := congrArg ParserId.mk last
      exact same _ _ (kept rfl c) (kept h.size d)
    · next other =>
      rw [if_neg other] at he'
      exact (h.cells p e e' he he').mono (fun _ h => h) (kept rfl c) (kept h.size d) (stay p)
  case declared =>
    rw [Array.size_push]
    rcases hF p hp with old | rfl
    · exact Nat.lt_succ_of_lt (h.declared p old)
    · exact Nat.lt_succ_self _
  case definable =>
    rcases hF p hp with old | rfl
    · have there := h.declared p old
      -- Parsers that were to be defined before are still as they were.
      have before {a : Array (Cell W)} {x e : Cell W} (there : p.index < a.size)
          (he : (a.push x)[p.index]? = some e) : a[p.index]? = some e := by
        rwa [Array.getElem?_push, if_neg (Nat.ne_of_lt there)] at he
      exact ⟨fun e he => (h.definable p old).1 e (before there he),
        fun e he => (h.definable p old).2 e (before (h.size ▸ there) he)⟩
    · have last {a : Array (Cell W)} {x e : Cell W} (size : a.size = σ.parsers.size)
          (he : (a.push x)[σ.parsers.size]? = some e) : x = e := by
        simpa [← size] using he
      refine ⟨fun e he => ?_, fun e he => ?_⟩
      · exact last rfl he ▸ (new hp).1
      · exact last h.size he ▸ (new hp).2

theorem define_ignored (c : Cell W) (logging : Bool) (code : Code W) :
    (c.define logging code).ignored = c.ignored := by
  unfold Cell.define
  cases logging <;> rfl

theorem define_direct (c : Cell W) {logging : Bool} (h : logging = true) (code : Code W) :
    (c.define logging code).direct = c.direct := by
  subst h
  rfl

/-- A definition is the one that the parser goes by, unless it is hidden by another one. -/
theorem inForce_define {c : Cell W} {logging : Bool} (code : Code W)
    (h : logging = true → c.direct = none) : (c.define logging code).inForce = some code := by
  unfold Cell.inForce Cell.define
  cases logging with
  | false => rfl
  | true => simp [h rfl]

/-- A new parser with a definition. -/
def made (name : String) (ignored : Bool) (σ : Store W) (code : Code W) : Cell W :=
  let c := ({ name := name } : Cell W).define σ.logging code
  { c with ignored := ignored }

/-- New parsers with definitions that do the same do the same. -/
theorem cells_made {c d : Code W} {a b : Array (Cell W)} (codes : Codes M K F a b c d)
    (name : String) (ignored : Bool) (p : ParserId) :
    Cells M K F a b p (made name ignored σ c) (made name ignored τ d) := by
  have inForce (σ : Store W) (c : Code W) : (made name ignored σ c).inForce = some c :=
    inForce_define (c := { name := name }) _ fun _ => rfl
  refine ⟨?_, rfl, ?_⟩
  · unfold made Cell.define
    cases σ.logging <;> cases τ.logging <;> rfl
  · rw [inForce, inForce]
    exact .some codes

end

/-! ## Putting builders together -/

section

variable {n : Nat} {b : Build W α} {R : Nat → α → Prop}

theorem builds_pure {a : α} (h : R n a) : Builds M K F n (pure a : Build W α) R := by
  intro σ τ hs hn
  subst hn
  exact ⟨rfl, hs, Nat.le_refl _, h⟩

theorem builds_bind {f : α → Build W β} {R' : Nat → β → Prop} (h : Builds M K F n b R)
    (h' : ∀ n' a, n ≤ n' → R n' a → Builds M K F n' (f a) R') :
    Builds M K F n (b >>= f) R' := by
  intro σ τ hs hn
  refine (h σ τ hs hn).bind ?_
  rintro a σ' τ' ⟨hs', more, ha⟩
  refine (h' _ a more ha σ' τ' hs' rfl).imp ?_
  rintro b σ'' τ'' ⟨hs'', more', hb⟩
  exact ⟨hs'', Nat.le_trans more more', hb⟩

/-- Looking at what is the same in both stores, and going on with what is seen. -/
theorem builds_look {g : Store W → β} {f : β → Build W α}
    (h : ∀ σ τ : Store W, Stores M K F σ τ → g τ = g σ) (h' : ∀ x, Builds M K F n (f x) R) :
    Builds M K F n (do f (g (← get))) R := by
  intro σ τ hs hn
  change (f (g τ) τ).1 = (f (g σ) σ).1 ∧ Stores M K F (f (g σ) σ).2 (f (g τ) τ).2 ∧ _
  rw [h σ τ hs]
  exact h' (g σ) σ τ hs hn

theorem builds_name (p : ParserId) {f : String → Build W α}
    (h : ∀ x, Builds M K F n (f x) R) : Builds M K F n (p.name >>= f) R :=
  builds_look (g := fun σ => σ.parserName p) (fun _ _ hs => by rw [hs.parserName]) h

/-- A builder that adds one parser, which does the same on both sides. -/
theorem builds_push {b : Build W ParserId} (cell : Store W → Cell W)
    (hb : ∀ σ, σ.parsers.size = n → b σ = (⟨σ.parsers.size⟩,
      { σ with parsers := σ.parsers.push (cell σ) }))
    (same : ∀ σ τ, Stores M K F σ τ → σ.parsers.size = n → ∀ a b, Kept F F σ.parsers a →
      Kept F F τ.parsers b → ∀ p, Cells M K F a b p (cell σ) (cell τ)) :
    Builds M K F n b (New K F) := by
  intro σ τ hs hn
  have cells := same σ τ hs hn
  unfold Both
  rw [hb σ hn, hb τ (hs.size.trans hn)]
  refine ⟨congrArg ParserId.mk hs.size, ?_, ?_, ?_⟩
  · refine hs.push (fun _ => .inl) (fun _ h => h) (fun declared => ?_) fun a b ha hb =>
      cells a b ha hb _
    exact absurd declared hs.new.1.2
  · simp [hn]
  · simpa using hs.new

/-- The parser has a definition, and name and definition are the same on both sides. -/
theorem builds_make {b : Build W ParserId} (name : Store W → String) (ignored : Bool)
    (code : Store W → Code W)
    (hb : ∀ σ, σ.parsers.size = n → b σ = (⟨σ.parsers.size⟩,
      { σ with parsers := σ.parsers.push (made (name σ) ignored σ (code σ)) }))
    (same : ∀ σ τ, Stores M K F σ τ → σ.parsers.size = n →
      name τ = name σ ∧ Codes M K F σ.parsers τ.parsers (code σ) (code τ)) :
    Builds M K F n b (New K F) := by
  refine builds_push _ hb fun σ τ hs hn a b ha hb p => ?_
  obtain ⟨names, codes⟩ := same σ τ hs hn
  rw [names]
  exact cells_made (codes.mono (fun _ h => h) ha hb) (name σ) ignored p

theorem builds_body (name : String) {x : ParserId → Body W} (hx : ∀ p, (x p).Truthful M K) :
    Builds M K F n (Build.body name x) (New K F) := by
  apply builds_make (fun _ => name) false fun σ => .body (x ⟨σ.parsers.size⟩)
  · intro σ _
    change (_, { σ with parsers := σ.parsers.push _ }) = _
    unfold made Cell.define
    cases σ.logging <;> rfl
  · intro σ τ hs _
    rw [hs.size]
    exact ⟨rfl, .body (hx _)⟩

/-- What is taken over from a settled parser does the same on both sides. -/
theorem Stores.taken {σ τ : Store W} {p : ParserId} (h : Stores M K F σ τ)
    (hp : Settled F σ.parsers.size p) : (p.cell τ).1.name = (p.cell σ).1.name ∧
      Codes M K F σ.parsers τ.parsers ((p.cell σ).1.code p) ((p.cell τ).1.code p) := by
  obtain ⟨c, d, hc, hd, same⟩ := h.parser hp.1
  rw [cell_of_some hc, cell_of_some hd]
  exact ⟨same.name.symm, same.code hp.2 hc hd⟩

theorem modify_push (a : Array (Cell W)) (c : Cell W) (f : Cell W → Cell W) :
    (a.push c).modify a.size f = a.push (f c) := by
  apply Array.ext_getElem?
  intro i
  rw [Array.getElem?_modify, Array.getElem?_push, Array.getElem?_push]
  by_cases h : i = a.size
  · simp [h]
  · rw [if_neg (Ne.symm h), if_neg h, if_neg h]

theorem builds_skip {p : ParserId} (hp : Settled F n p) :
    Builds M K F n (Build.skip p : Build W ParserId) (New K F) := by
  apply builds_make (fun σ => (p.cell σ).1.name) true
    fun σ => .body (.ignore ((p.cell σ).1.code p))
  · intro σ _
    change (_, { σ with parsers := Array.modify (σ.parsers.push _) σ.parsers.size _ }) = _
    rw [modify_push]
    rfl
  · intro σ τ hs hn
    subst hn
    exact ⟨(hs.taken hp).1, .ignore (hs.taken hp).2⟩

theorem builds_wrap {p : ParserId} (hp : Settled F n p) :
    Builds M K F n (Build.wrap p : Build W ParserId) (New K F) := by
  apply builds_make (fun σ => (p.cell σ).1.name) false fun σ => (p.cell σ).1.code p
  · intro σ hn
    subst hn
    -- The other parser is looked up when the new one is there already.
    have there : (σ.parsers.push {})[p.index]? = σ.parsers[p.index]? := by
      rw [Array.getElem?_push, if_neg (Nat.ne_of_lt hp.1)]
    let copy (c d : Cell W) : Cell W := { d.define σ.logging (c.code p) with name := c.name }
    have copied (c : Cell W) : copy c {} = made c.name false σ (c.code p) := by
      unfold copy made Cell.define
      cases σ.logging <;> rfl
    let source : Cell W := (σ.parsers.push {})[p.index]?.getD {}
    change (_, { σ with parsers := (σ.parsers.push {}).modify σ.parsers.size (copy source) }) = _
    have old : source = (p.cell σ).1 := congrArg (Option.getD · {}) there
    rw [modify_push, old, copied]
  · intro σ τ hs hn
    subst hn
    exact hs.taken hp

/-! ### Changes of a parser -/

theorem getElem?_modify_eq_some {a : Array (Cell W)} {f : Cell W → Cell W} {i j : Nat}
    {e : Cell W} :
    (a.modify i f)[j]? = some e ↔
      if i = j then ∃ c, a[j]? = some c ∧ f c = e else a[j]? = some e := by
  rw [Array.getElem?_modify]
  split
  · exact Option.map_eq_some_iff
  · rfl

theorem Kept.modify {F' : ParserId → Prop} (hF : ∀ q, F' q → F q) (a : Array (Cell W))
    {p : ParserId} {f : Cell W → Cell W} (hf : F p ∨ ∀ c, (f c).logged = c.logged) :
    Kept F F' a (a.modify p.index f) := by
  intro q e settled he
  refine ⟨mt (hF q) settled, ?_⟩
  by_cases same : p.index = q.index
  · rcases hf with declared | hf
    · obtain rfl : p = q := congrArg ParserId.mk same
      exact absurd declared settled
    · exact ⟨f e, getElem?_modify_eq_some.mpr (by rw [if_pos same]; exact ⟨e, he, rfl⟩), hf e⟩
  · exact ⟨e, getElem?_modify_eq_some.mpr (by rwa [if_neg same]), rfl⟩

theorem Definable.modify {σ : Store W} {p q : ParserId} {f : Cell W → Cell W} (h : Definable σ q)
    (hf : ∀ c, σ.logging = true → (f c).direct = c.direct) :
    Definable { σ with parsers := σ.parsers.modify p.index f } q := by
  intro e he logging
  rw [getElem?_modify_eq_some] at he
  split at he
  · obtain ⟨c, hc, rfl⟩ := he
    exact (hf c logging).trans (h c hc logging)
  · exact h e he logging

/-- A parser is changed on both sides, and others are not. -/
theorem Stores.modify {G : ParserId → Prop} {σ τ : Store W} {p : ParserId} {f g : Cell W → Cell W}
    (h : Stores M K F σ τ) (hF : ∀ q, G q → F q) (stay : ∀ q, F q → q ≠ p → G q)
    (hf : ∀ c, σ.logging = true → (f c).direct = c.direct)
    (hg : ∀ c, τ.logging = true → (g c).direct = c.direct)
    (kept : F p ∨ ∀ c, (f c).logged = c.logged) (kept' : F p ∨ ∀ c, (g c).logged = c.logged)
    (same : ∀ c d a b, σ.parsers[p.index]? = some c → τ.parsers[p.index]? = some d →
      Kept F G σ.parsers a → Kept F G τ.parsers b → Cells M K G a b p (f c) (g d)) :
    Stores M K G { σ with parsers := σ.parsers.modify p.index f }
      { τ with parsers := τ.parsers.modify p.index g } where
  rest := by rw [h.rest]
  size := by simp [h.size]
  cells q c d hc hd := by
    have ha : Kept F G σ.parsers (σ.parsers.modify p.index f) := .modify hF _ kept
    have hb : Kept F G τ.parsers (τ.parsers.modify p.index g) := .modify hF _ kept'
    rw [getElem?_modify_eq_some] at hc hd
    by_cases here : p.index = q.index
    · rw [if_pos here] at hc hd
      obtain ⟨c, hc, rfl⟩ := hc
      obtain ⟨d, hd, rfl⟩ := hd
      obtain rfl : p = q := congrArg ParserId.mk here
      exact same c d _ _ hc hd ha hb
    · rw [if_neg here] at hc hd
      refine (h.cells q c d hc hd).mono (fun _ h => h) ha hb fun declared => stay q declared ?_
      exact fun e => here (congrArg ParserId.index e.symm)
  known q hq := by simpa using h.known q hq
  declared q hq := by simpa using h.declared q (hF q hq)
  definable q hq := ⟨(h.definable q (hF q hq)).1.modify hf, (h.definable q (hF q hq)).2.modify hg⟩
  truthful := { h.truthful with }

theorem builds_named {p : ParserId} (name : String) {R : Nat → ParserId → Prop} (h : R n p) :
    Builds M K F n (p.named name : Build W ParserId) R := by
  intro σ τ hs hn
  subst hn
  refine ⟨rfl, ?_, ?_, ?_⟩
  · exact hs.modify (p := p) (fun _ h => h) (fun _ h _ => h) (fun _ _ => rfl) (fun _ _ => rfl)
      (.inr fun _ => rfl) (.inr fun _ => rfl) fun c d a b hc hd ha hb =>
        have same := hs.cells p c d hc hd
        ⟨rfl, same.ignored, same.inForce.mono (fun _ h => h) ha hb id⟩
  · exact Nat.le_of_eq (Array.size_modify ..).symm
  · change R (σ.parsers.modify p.index _).size p
    rwa [Array.size_modify]

/-- A declared parser is defined as a settled one. -/
theorem Stores.define {F' : ParserId → Prop} {σ τ : Store W} {p q : ParserId}
    (h : Stores M K F σ τ) (declared : F p) (hq : Settled F σ.parsers.size q)
    (hF : ∀ q, F' q → F q) (stay : ∀ q, F q → q ≠ p → F' q) :
    Stores M K F' (p.define q σ).2 (p.define q τ).2 := by
  obtain ⟨name, codes⟩ := h.taken hq
  refine h.modify (p := p) hF stay ?_ ?_ (.inl declared) (.inl declared) ?_
  · exact fun c logging => define_direct c logging _
  · exact fun c logging => define_direct c logging _
  · intro c d a b hc hd ha hb
    have same := h.cells p c d hc hd
    obtain ⟨bare, bare'⟩ := h.definable p declared
    refine ⟨name.symm, ?_, ?_⟩
    · exact (define_ignored ..).trans (same.ignored.trans (define_ignored ..).symm)
    · have left : (c.define σ.logging ((q.cell σ).1.code q)).inForce = _ :=
        inForce_define _ (bare c hc)
      have right := inForce_define ((q.cell τ).1.code q) (bare' d hd)
      exact left ▸ right ▸ .some (codes.mono (fun _ h => h) ha hb)

end

/-! ## The combinators -/

section

variable {n : Nat}

theorem builds_some {f : Value → Action W Bool} (hf : ∀ v, (f v).Truthful M) :
    Builds M K F n (Build.some f) (New K F) :=
  builds_body _ fun _ => hf

theorem builds_token (v : Value) :
    Builds M K F n (Build.token v : Build W ParserId) (New K F) :=
  builds_look (g := fun σ => σ.render (Build.tokenName v))
    (f := fun name => do (← Build.some fun t => .done (t.beq v)).named name)
    (fun _ _ hs => hs.render _) fun _ => builds_bind (builds_some fun _ => trivial)
      fun _ _ _ hp => builds_named _ hp

theorem builds_const (v : Value) :
    Builds M K F n (Build.pure v : Build W ParserId) (New K F) :=
  builds_look (g := fun σ => σ.render v)
    (f := fun text => Build.body ("(pure " ++ text ++ ")") fun _ => .pure v)
    (fun _ _ hs => hs.render v) fun _ => builds_body _ fun _ => trivial

theorem builds_fail (message : String) :
    Builds M K F n (Build.fail message : Build W ParserId) (New K F) :=
  builds_body _ fun _ => trivial

theorem builds_undefined (name : String) (hM : M) :
    Builds M K F n (Build.undefined name : Build W ParserId) (New K F) :=
  builds_push (fun _ => { name := name }) (fun _ _ => rfl)
    fun _ _ _ _ _ _ _ _ _ => ⟨rfl, rfl, .none hM⟩

theorem builds_seq (p q : ParserId) (c : Combine) :
    Builds M K F n (Build.seq p q c : Build W ParserId) (New K F) :=
  builds_body _ fun _ => trivial

theorem builds_skipSeq (p q : ParserId) :
    Builds M K F n (Build.skipSeq p q : Build W ParserId) (New K F) :=
  builds_bind (builds_seq p q .second) fun _ _ _ hr => builds_skip hr.1

/-- What sequential combination looks at in a parser. -/
theorem Stores.cell {σ τ : Store W} (h : Stores M K F σ τ) (p : ParserId) :
    (p.cell τ).1.name = (p.cell σ).1.name ∧ (p.cell τ).1.ignored = (p.cell σ).1.ignored := by
  cases hc : σ.parsers[p.index]? with
  | none =>
    have missing {σ : Store W} (hc : σ.parsers[p.index]? = none) : (p.cell σ).1 = {} :=
      congrArg (Option.getD · ({} : Cell W)) hc
    rw [missing hc, missing (h.dangling hc)]
    exact ⟨rfl, rfl⟩
  | some c =>
    obtain ⟨c, d, hc, hd, same⟩ := h.parser (Array.getElem?_eq_some_iff.mp hc).1
    rw [cell_of_some hc, cell_of_some hd]
    exact ⟨same.name.symm, same.ignored.symm⟩

/-- Looking at a parser, and going on with its name and its mark. -/
theorem builds_cell (p : ParserId) {R : Nat → β → Prop} {f : Cell W → Build W β}
    (h : ∀ c, Builds M K F n (f c) R)
    (hf : ∀ c d : Cell W, c.name = d.name → c.ignored = d.ignored → f c = f d) :
    Builds M K F n (p.cell >>= f) R := by
  intro σ τ hs hn
  obtain ⟨name, ignored⟩ := hs.cell p
  change (f (p.cell τ).1 τ).1 = (f (p.cell σ).1 σ).1 ∧
    Stores M K F (f (p.cell σ).1 σ).2 (f (p.cell τ).1 τ).2 ∧ _
  rw [hf _ _ name ignored]
  exact h _ σ τ hs hn

theorem builds_plus (p q : ParserId) :
    Builds M K F n (Build.plus p q : Build W ParserId) (New K F) := by
  refine builds_cell p (fun a => builds_cell q (fun b => ?_) ?_) ?_
  · cases a.ignored <;> cases b.ignored
    · exact builds_bind (builds_seq p q .group) fun _ _ _ hr => builds_named _ hr
    · exact builds_bind (builds_seq p q .first) fun _ _ _ hr => builds_named _ hr
    · exact builds_bind (builds_seq p q .second) fun _ _ _ hr => builds_named _ hr
    · exact builds_bind (builds_skipSeq p q) fun _ _ _ hr => builds_named _ hr
  · exact fun b b' name ignored => by rw [name, ignored]
  · exact fun a a' name ignored => by rw [name, ignored]

theorem builds_or (p q : ParserId) :
    Builds M K F n (Build.or p q : Build W ParserId) (New K F) :=
  builds_name p fun _ => builds_name q fun _ => builds_body _ fun _ => trivial

theorem builds_map (p : ParserId) {f : Value → Action W Value} (hf : ∀ v, (f v).Truthful M) :
    Builds M K F n (Build.map p f) (New K F) :=
  builds_name p fun _ => builds_body _ fun _ => hf

theorem builds_bindParser (p : ParserId) {f : Value → Action W (Grammar W)}
    (hf : ∀ v, (f v).Truthful M) (hg : ∀ v, (f v).Yields (Grammar.Orderly M K K)) :
    Builds M K F n (Build.bind p f) (New K F) :=
  builds_name p fun _ => builds_body _ fun _ => ⟨hf, hg⟩

theorem builds_attempt (p : ParserId) :
    Builds M K F n (Build.attempt p : Build W ParserId) (New K F) :=
  builds_name p fun _ => builds_body _ fun _ => trivial

theorem builds_optional (p : ParserId) (v : Value) :
    Builds M K F n (Build.optional p v : Build W ParserId) (New K F) :=
  builds_bind (builds_const v) fun _ q _ _ => builds_bind (builds_or p q) fun _ _ _ hr =>
    builds_name p fun _ => builds_named _ hr

theorem builds_many (p : ParserId) :
    Builds M K F n (Build.many p : Build W ParserId) (New K F) :=
  builds_name p fun _ => builds_body _ fun _ => trivial

theorem builds_oneplus (p : ParserId) :
    Builds M K F n (Build.oneplus p : Build W ParserId) (New K F) :=
  builds_bind (builds_many p) fun _ r _ _ => builds_bind (builds_seq p r .cons) fun _ _ _ hq =>
    builds_name p fun _ => builds_name p fun _ => builds_named _ hq

theorem builds_repeated (p : ParserId) (m : Nat) {last : ParserId} (h : New K F n last) :
    Builds M K F n (Build.repeated p m last : Build W ParserId) (New K F) := by
  induction m generalizing n last with
  | zero => exact builds_pure h
  | succ m ih => exact builds_bind (builds_seq p last .cons) fun _ _ _ hq => ih hq

theorem builds_times (m : Int) (p : ParserId) :
    Builds M K F n (Build.times m p : Build W ParserId) (New K F) :=
  builds_bind (builds_const _) fun _ _ _ hl => builds_bind (builds_repeated p _ hl) fun _ _ _ hq =>
    builds_name p fun _ => builds_named _ hq

theorem builds_upTo (p : ParserId) (m : Nat) {last : ParserId} (h : New K F n last) :
    Builds M K F n (Build.upTo p m last : Build W ParserId) (New K F) := by
  induction m generalizing n last with
  | zero => exact builds_pure h
  | succ m ih =>
    exact builds_bind (builds_seq p last .cons) fun _ q _ _ =>
      builds_bind (builds_optional q _) fun _ _ _ hr => ih hr

theorem builds_betweenTimes (low : Int) (high : Option Int) (p : ParserId) :
    Builds M K F n (Build.betweenTimes low high p : Build W ParserId) (New K F) := by
  have rest (n : Nat) (extra : ParserId) (limit : String) : Builds M K F n (do
      let name := toString low ++ ".." ++ limit ++ " * " ++ (← p.name)
      (← Build.seq (← Build.times low p) extra .append).named name : Build W ParserId)
      (New K F) :=
    builds_name p fun _ => builds_bind (builds_times low p) fun _ q _ _ =>
      builds_bind (builds_seq q extra .append) fun _ _ _ hr => builds_named _ hr
  cases high with
  | none => exact builds_bind (builds_many p) fun _ extra _ _ => rest _ extra _
  | some h =>
    exact builds_bind (builds_const _) fun _ _ _ hl => builds_bind (builds_upTo p _ hl)
      fun _ extra _ _ => rest _ extra _

theorem builds_sepBy1 (p separator : ParserId) :
    Builds M K F n (Build.sepBy1 p separator : Build W ParserId) (New K F) :=
  builds_bind (builds_seq separator p .second) fun _ q _ _ => builds_bind (builds_many q)
    fun _ r _ _ => builds_bind (builds_seq p r .cons) fun _ _ _ ht =>
      builds_name p fun _ => builds_name separator fun _ => builds_named _ ht

theorem builds_sepBy (p separator : ParserId) :
    Builds M K F n (Build.sepBy p separator : Build W ParserId) (New K F) :=
  builds_bind (builds_sepBy1 p separator) fun _ q _ _ => builds_optional q _

theorem builds_sequence (ps : List ParserId) :
    Builds M K F n (Build.sequence ps : Build W ParserId) (New K F) := by
  have fold (n : Nat) {last : ParserId} (hl : New K F n last) : Builds M K F n
      (ps.foldrM (fun p q => Build.seq p q .cons) last : Build W ParserId) (New K F) := by
    induction ps with
    | nil => exact builds_pure hl
    | cons p ps ih =>
      rw [List.foldrM_cons]
      exact builds_bind ih fun _ q _ _ => builds_seq p q .cons
  have names (n : Nat) :
      Builds M K F n (ps.mapM ParserId.name : Build W (List String)) fun _ _ => True := by
    clear fold
    induction ps with
    | nil => exact builds_pure trivial
    | cons p ps ih =>
      rw [List.mapM_cons]
      exact builds_name p fun _ => builds_bind ih fun _ _ _ _ => builds_pure trivial
  exact builds_bind (builds_const _) fun _ _ _ hl => builds_bind (fold _ hl) fun n _ _ hq =>
    builds_bind (names n) fun _ _ hn _ => builds_named _ (hq.later hn)

theorem truthful_listOf (v : Value) : (Build.listOf v : Action W Value).Truthful M := by
  unfold Build.listOf
  split
  · exact fun _ => trivial
  · trivial
  · split
    · trivial
    · exact False.elim

theorem builds_listed (p : ParserId) :
    Builds M K F n (Build.listed p : Build W ParserId) (New K F) :=
  builds_bind (builds_map p truthful_listOf) fun _ _ _ hq =>
    builds_name p fun _ => builds_named _ hq

end

/-! ## Whole grammars -/

/-- A grammar that refers to a parser gives this one, any other grammar gives a new one. -/
structure Stands (K F : ParserId → Prop) (g : Grammar W) (n : Nat) (p : ParserId) : Prop where
  new : g.standsFor = none → New K F n p
  known : ∀ i, g.standsFor = some i → p = i

section

variable {S : ParserId → Prop} {n : Nat} {g : Grammar W}

theorem Stands.of_new {p : ParserId} (hg : g.standsFor = none) (h : New K F n p) :
    Stands K F g n p :=
  ⟨fun _ => h, by simp [hg]⟩

/-- A parser that may be taken over is settled. -/
theorem Stands.settled {p : ParserId} (h : Stands K F g n p) (hS : ∀ p, S p → Settled F n p)
    (hg : ∀ i, g.standsFor = some i → S i) : Settled F n p := by
  cases stands : g.standsFor with
  | none => exact (h.new stands).1
  | some i =>
    obtain rfl := h.known i stands
    exact hS p (hg p stands)

/-- A combinator makes a new parser. -/
theorem Builds.gives {b : Build W ParserId} (h : Builds M K F n b (New K F))
    (hg : g.standsFor = none) : Builds M K F n b (Stands K F g) := by
  intro σ τ hs hn
  obtain ⟨same, hs', more, hp⟩ := h σ τ hs hn
  exact ⟨same, hs', more, .of_new hg hp⟩

/-- The parsers of several grammars are built from left to right. -/
theorem builds_all {gs : List (Grammar W)}
    (h : ∀ g ∈ gs, ∀ n' ≥ n, Builds M K F n' g.build (Stands K F g)) :
    Builds M K F n (Grammar.buildAll gs) fun _ _ => True := by
  induction gs generalizing n with
  | nil => exact builds_pure trivial
  | cons g gs ih =>
    refine builds_bind (h g List.mem_cons_self n (Nat.le_refl n)) fun n₁ p h₁ _ => ?_
    refine builds_bind (ih fun g hg n' hn => ?_) fun _ ps _ _ => builds_pure trivial
    exact h g (List.mem_cons_of_mem _ hg) n' (Nat.le_trans h₁ hn)

end

end Logging

open Logging

/-- Orderly grammars are built alike. -/
theorem Grammar.Orderly.builds {S : ParserId → Prop} {n : Nat} {g : Grammar W}
    (h : g.Orderly M K S) (hS : ∀ p, S p → Settled F n p) :
    Builds M K F n g.build (Stands K F g) := by
  -- What is settled stays settled while more parsers are made.
  have later {S : ParserId → Prop} {n n' : Nat} (hS : ∀ p, S p → Settled F n p) (hn : n ≤ n')
      (p : ParserId) (hp : S p) : Settled F n' p := (hS p hp).later hn
  induction h generalizing n with
  | ref p => exact builds_pure ⟨by simp [Grammar.standsFor], fun i hi => Option.some.inj hi⟩
  | finished => exact builds_pure ⟨by simp [Grammar.standsFor], fun i hi => Option.some.inj hi⟩
  | named name _ ih =>
    exact builds_bind (ih hS) fun _ p _ hp => builds_named name ⟨hp.new, hp.known⟩
  | some hf => exact (builds_some hf).gives rfl
  | token v => exact (builds_token v).gives rfl
  | pure v => exact (builds_const v).gives rfl
  | fail m => exact (builds_fail m).gives rfl
  | plus _ _ ihp ihq =>
    exact (builds_bind (ihp hS) fun _ p hn _ => builds_bind (ihq (later hS hn)) fun _ q _ _ =>
      builds_plus p q).gives rfl
  | or _ _ ihp ihq =>
    exact (builds_bind (ihp hS) fun _ p hn _ => builds_bind (ihq (later hS hn)) fun _ q _ _ =>
      builds_or p q).gives rfl
  | map _ hf ih => exact (builds_bind (ih hS) fun _ p _ _ => builds_map p hf).gives rfl
  | bind _ hf hg ih _ =>
    exact (builds_bind (ih hS) fun _ p _ _ => builds_bindParser p hf hg).gives rfl
  | skip _ hi ih =>
    exact (builds_bind (ih hS) fun _ p hn hp =>
      builds_skip (hp.settled (later hS hn) hi)).gives rfl
  | attempt _ ih => exact (builds_bind (ih hS) fun _ p _ _ => builds_attempt p).gives rfl
  | optional v _ ih => exact (builds_bind (ih hS) fun _ p _ _ => builds_optional p v).gives rfl
  | many _ ih => exact (builds_bind (ih hS) fun _ p _ _ => builds_many p).gives rfl
  | oneplus _ ih => exact (builds_bind (ih hS) fun _ p _ _ => builds_oneplus p).gives rfl
  | times m _ ih => exact (builds_bind (ih hS) fun _ p _ _ => builds_times m p).gives rfl
  | betweenTimes low high _ ih =>
    exact (builds_bind (ih hS) fun _ p _ _ => builds_betweenTimes low high p).gives rfl
  | sepBy1 _ _ ihp ihq =>
    exact (builds_bind (ihp hS) fun _ p hn _ => builds_bind (ihq (later hS hn)) fun _ q _ _ =>
      builds_sepBy1 p q).gives rfl
  | sepBy _ _ ihp ihq =>
    exact (builds_bind (ihp hS) fun _ p hn _ => builds_bind (ihq (later hS hn)) fun _ q _ _ =>
      builds_sepBy p q).gives rfl
  | sequence _ ih =>
    exact (builds_bind (builds_all fun g hg _ hn => ih g hg (later hS hn)) fun _ ps _ _ =>
      builds_sequence ps).gives rfl
  | listed _ ih => exact (builds_bind (ih hS) fun _ p _ _ => builds_listed p).gives rfl
  | wrap _ hi ih =>
    exact (builds_bind (ih hS) fun _ p hn hp =>
      builds_wrap (hp.settled (later hS hn) hi)).gives rfl
  | forward hM =>
    apply Builds.gives _ rfl
    apply builds_body
    exact fun _ => hM
  | undefined name hM => exact (builds_undefined name hM).gives rfl
  | native name hf =>
    apply Builds.gives _ rfl
    apply builds_body
    exact fun _ => hf
  | after name _ hf ih =>
    refine (builds_bind (ih hS) fun _ p _ _ => ?_).gives rfl
    apply builds_body
    exact fun _ => hf
  | cell v again =>
    apply Builds.gives _ rfl
    apply builds_body
    exact fun _ => trivial

/-! ## Whole programs -/

section

variable {σ τ : Store W}

/-- A parser is declared. -/
theorem Logging.Stores.declare (h : Stores M K F σ τ) : Both Build.forward σ τ fun p σ' τ' =>
    ¬K p ∧ Stores M K (fun i => F i ∨ i = p) σ' τ' := by
  refine ⟨congrArg ParserId.mk h.size, h.new.2, ?_⟩
  refine h.push (fun _ hp => hp) (fun _ => .inl) (fun _ => ?_) ?_
  · exact ⟨fun on => define_direct _ on _, fun on => define_direct _ on _⟩
  refine fun a b _ _ => ⟨?_, ?_, .opened (.inr rfl)⟩
  · unfold Cell.define
    cases σ.logging <;> cases τ.logging <;> rfl
  · unfold Cell.define
    cases σ.logging <;> cases τ.logging <;> rfl

/-- One more parser is known. -/
theorem Logging.Stores.learning (h : Stores M K F σ τ) {p : ParserId}
    (hp : p.index < σ.parsers.size) : Stores M (fun i => K i ∨ i = p) F σ τ :=
  h.knowing (fun _ => .inl) fun i hi => hi.elim (h.known i) fun e => e ▸ hp

/-- A settled parser is known, and not to be defined. -/
theorem Logging.Stores.settled (h : Stores M K F σ τ) (p : ParserId) (hp : K p ∧ ¬F p) :
    Settled F σ.parsers.size p :=
  ⟨h.known p hp.1, hp.2⟩

/-- Orderly programs build alike in stores that differ in logging. -/
theorem Program.Orderly.built {Q : (K F : ParserId → Prop) → α → Prop} {program : Program W α}
    (h : program.Orderly M Q K F) (hs : Stores M K F σ τ) : Both program.build σ τ fun a σ' τ' =>
      ∃ K' F', Q K' F' a ∧ Stores M K' F' σ' τ' := by
  induction h generalizing σ τ with
  | done hQ => exact ⟨rfl, _, _, hQ, hs⟩
  | declare _ ih =>
    refine hs.declare.bind ?_
    rintro p σ' τ' ⟨fresh, hs'⟩
    exact ih p fresh (hs'.learning (hs'.declared p (.inr rfl)))
  | make hg own _ ih =>
    refine (hg.builds hs.settled σ τ hs rfl).bind ?_
    rintro p σ' τ' ⟨hs', -, gives⟩
    have new := gives.new own
    exact ih p new.2 (hs'.learning new.1.1)
  | refer hg stands _ _ ih =>
    refine (hg.builds hs.settled σ τ hs rfl).bind ?_
    rintro p σ' τ' ⟨hs', -, gives⟩
    obtain rfl := gives.known _ stands
    exact ih hs'
  | define declared known settled hF stay _ ih =>
    exact ih (hs.define declared ⟨hs.known _ known, settled⟩ hF stay)

end

end ResumableParsing
