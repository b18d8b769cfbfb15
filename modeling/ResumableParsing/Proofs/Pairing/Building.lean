import ResumableParsing.Proofs.Pairing.Streams

/-!
# Building corresponding grammars

Over stores that agree, corresponding grammars build parsers that have the same names and do
corresponding things. So the stores agree about the new parsers as well.

* `Pairing.Builds`: building that leaves stores that agree
* `Pairing.Builds.body`, `Pairing.Builds.plus` and so on: the combinators
* `Grammar.Paired.builds`: corresponding grammars
* `Grammar.Pure.builds`: building keeps the functions of parsers pure
-/

namespace ResumableParsing

variable {W α β γ δ : Type}

namespace Pairing

/-- Both sides have made new parsers, in the same order, and nothing else. -/
structure Made (k l : Pairing) (σ τ σ' τ' : Store W) : Prop where
  /-- More belongs together. -/
  le : k.Le l
  /-- The stores agree about the new parsers as well. -/
  defines : l.Defines σ' τ'
  /-- There are no new tails. -/
  tails : l.tails = k.tails
  /-- On the left there are only new parsers. -/
  left : σ' = { σ with parsers := σ'.parsers }
  /-- So there are on the right. -/
  right : τ' = { τ with parsers := τ'.parsers }
  /-- The first new parser belongs to the first one of the other side, and so on. -/
  parsers : ∀ p q, l.parsers p q → k.parsers p q ∨
    (σ.parsers.size ≤ p.index ∧ p.index + τ.parsers.size = q.index + σ.parsers.size)
  /-- Parsers stay. -/
  grows : σ.parsers.size ≤ σ'.parsers.size
  /-- There are as many new ones on both sides. -/
  sizes : σ'.parsers.size + τ.parsers.size = τ'.parsers.size + σ.parsers.size

theorem Made.refl {k : Pairing} {σ τ : Store W} (h : k.Defines σ τ) : k.Made k σ τ σ τ :=
  ⟨.refl k, h, rfl, rfl, rfl, fun _ _ h => .inl h, Nat.le_refl _, Nat.add_comm _ _⟩

theorem Made.trans {k l m : Pairing} {σ σ' σ'' τ τ' τ'' : Store W} (h : k.Made l σ τ σ' τ')
    (h' : l.Made m σ' τ' σ'' τ'') : k.Made m σ τ σ'' τ'' where
  le := h.le.trans h'.le
  defines := h'.defines
  tails := h'.tails.trans h.tails
  left := by rw [h'.left, h.left]
  right := by rw [h'.right, h.right]
  parsers p q hp := by
    have sizes := h.sizes
    have grows := h.grows
    rcases h'.parsers p q hp with hp | hp
    · exact h.parsers p q hp
    · exact .inr (by omega)
  grows := Nat.le_trans h.grows h'.grows
  sizes := by
    have sizes := h.sizes
    have sizes' := h'.sizes
    omega

/-- New parsers leave the tails alone. -/
theorem Made.reach {k l : Pairing} {σ σ' τ τ' : Store W} (h : k.Made l σ τ σ' τ')
    (agree : k.Agree σ τ) : k.Reach l σ τ σ' τ' := by
  have tails : σ'.tails = σ.tails ∧ τ'.tails = τ.tails := by
    rw [h.left, h.right]
    exact ⟨rfl, rfl⟩
  have left : l.left = k.left := by simp only [funext_iff, Pairing.left, h.tails, implies_true]
  have right : l.right = k.right := by simp only [funext_iff, Pairing.right, h.tails, implies_true]
  refine ⟨h.le, { h.defines with tails := ?_, tailsUnique := h.tails ▸ agree.tailsUnique }, ?_, ?_⟩
  · intro i j ht
    rw [h.tails] at ht
    obtain ⟨a, b, ha, hb, thunk, slot⟩ := agree.tails i j ht
    exact ⟨a, b, tails.1 ▸ ha, tails.2 ▸ hb, thunk.mono h.le, slot.mono h.le⟩
  · rw [h.left, left]
    exact .bookkeeping _ σ _ _ _
  · rw [h.right, right]
    exact .bookkeeping _ τ _ _ _

/-- Over stores that agree about the parsers, both sides build, and what they build corresponds as
`Q` says. -/
def Builds (k : Pairing) (Q : Pairing → α → β → Prop) (b : Build W α) (c : Build W β) : Prop :=
  ∀ l σ τ, k.Le l → l.Defines σ τ →
    ∃ l', l.Made l' σ τ (b σ).2 (c τ).2 ∧ Q l' (b σ).1 (c τ).1

/-- The parsers that are built belong together. -/
abbrev BuildsParsers (k : Pairing) (b c : Build W ParserId) : Prop := k.Builds parsers b c

/-- The parsers are added to what belongs together. -/
def enlist (k : Pairing) (p q : ParserId) : Pairing where
  tails := k.tails
  parsers a b := k.parsers a b ∨ (a = p ∧ b = q)

theorem le_enlist (k : Pairing) (p q : ParserId) : k.Le (k.enlist p q) :=
  ⟨fun _ _ h => h, fun _ _ h => .inl h⟩

namespace Builds

variable {k l : Pairing} {Q : Pairing → α → β → Prop} {R : Pairing → γ → δ → Prop}
  {p q p' q' : ParserId}

theorem pure {a : α} {b : β} (h : ∀ l, k.Le l → Q l a b) :
    k.Builds Q (Pure.pure a : Build W α) (Pure.pure b) :=
  fun l _ _ hle defines => ⟨l, .refl defines, h l hle⟩

theorem bind {b : Build W α} {c : Build W β} {f : α → Build W γ} {g : β → Build W δ}
    (h : k.Builds Q b c) (hf : ∀ l x y, k.Le l → Q l x y → l.Builds R (f x) (g y)) :
    k.Builds R (b >>= f) (c >>= g) := by
  intro l σ τ hle defines
  obtain ⟨l', made, hq⟩ := h l σ τ hle defines
  obtain ⟨l'', made', hr⟩ := hf l' _ _ (hle.trans made.le) hq l' _ _ (.refl l') made.defines
  exact ⟨l'', made.trans made', hr⟩

theorem mono {b : Build W α} {c : Build W β} (hle : k.Le l) (h : k.Builds Q b c) :
    l.Builds Q b c := fun _ σ τ hle' => h _ σ τ (hle.trans hle')

/-- Both sides look at the store. -/
theorem get {f : Store W → Build W γ} {g : Store W → Build W δ}
    (h : ∀ l σ τ, k.Le l → l.Defines σ τ → l.Builds R (f σ) (g τ)) :
    k.Builds R (MonadState.get >>= f) (MonadState.get >>= g) :=
  fun l σ τ hle defines => h l σ τ hle defines l σ τ (.refl l) defines

theorem cell (h : k.parsers p q) : k.Builds (W := W) Cell.Paired p.cell q.cell := by
  intro l σ τ hle defines
  obtain ⟨c, d, hc, hd, paired⟩ := defines.parsers p q (hle.parsers p q h)
  refine ⟨l, .refl defines, ?_⟩
  rwa [cell_of_some hc, cell_of_some hd]

theorem name (h : k.parsers p q) :
    k.Builds (W := W) (fun _ a b => a = b) p.name q.name := by
  intro l σ τ hle defines
  obtain ⟨c, d, hc, hd, paired⟩ := defines.parsers p q (hle.parsers p q h)
  refine ⟨l, .refl defines, ?_⟩
  change σ.parserName p = τ.parserName q
  rw [Store.parserName, Store.parserName, hc, hd]
  exact paired.name

/-- What another definition captures. -/
theorem code {c d : Cell W} (h : c.Paired k d) (hp : k.parsers p q) :
    (c.code p).Paired k (d.code q) := by
  have direct := h.direct
  rw [Cell.code, Cell.code]
  cases hc : c.direct <;> cases hd : d.direct <;> rw [hc, hd] at direct <;> cases direct
  · exact .method hp
  · next h => exact h

/-- A definition on both sides. -/
theorem paired_define {c d : Cell W} (h : c.Paired k d) {x y : Code W} (hx : x.Paired k y)
    (logging : Bool) : (c.define logging x).Paired k (d.define logging y) := by
  rw [Cell.define, Cell.define]
  split
  · exact { h with logged := .some hx }
  · exact { h with direct := .some hx }

/-- A new parser on both sides. -/
theorem made_make {σ τ : Store W} (defines : k.Defines σ τ) {c d : Cell W}
    (h : c.Paired (k.enlist ⟨σ.parsers.size⟩ ⟨τ.parsers.size⟩) d) :
    k.Made (k.enlist ⟨σ.parsers.size⟩ ⟨τ.parsers.size⟩) σ τ
      { σ with parsers := σ.parsers.push c } { τ with parsers := τ.parsers.push d } := by
  have hle := k.le_enlist ⟨σ.parsers.size⟩ ⟨τ.parsers.size⟩
  -- Parsers that belong together are in the stores, so the new ones are not among them.
  have left (q : ParserId) (hp : k.parsers ⟨σ.parsers.size⟩ q) : False := by
    obtain ⟨a, -, ha, -⟩ := defines.parsers _ q hp
    exact Nat.lt_irrefl _ (Array.getElem?_eq_some_iff.mp ha).1
  have right (p : ParserId) (hp : k.parsers p ⟨τ.parsers.size⟩) : False := by
    obtain ⟨-, b, -, hb, -⟩ := defines.parsers p _ hp
    exact Nat.lt_irrefl _ (Array.getElem?_eq_some_iff.mp hb).1
  refine ⟨hle, ⟨?_, biUnique_adjoin defines.parsersUnique left right, defines.logging⟩,
    rfl, rfl, rfl, ?_, by simp, by simp only [Array.size_push]; omega⟩
  · rintro p q (hp | ⟨rfl, rfl⟩)
    · obtain ⟨a, b, ha, hb, paired⟩ := defines.parsers p q hp
      exact ⟨a, b, getElem?_push_of_eq_some ha _, getElem?_push_of_eq_some hb _, paired.mono hle⟩
    · exact ⟨c, d, Array.getElem?_push_size, Array.getElem?_push_size, h⟩
  · rintro p q (hp | ⟨rfl, rfl⟩)
    · exact .inl hp
    · exact .inr ⟨Nat.le_refl _, Nat.add_comm _ _⟩

theorem paired_empty (k : Pairing) (name : String) :
    Cell.Paired (W := W) k { name := name } { name := name } := ⟨rfl, rfl, .none, .none⟩

/-- A new parser without definition. -/
theorem make (name : String) : k.BuildsParsers (W := W) (ParserId.make { name := name })
    (ParserId.make { name := name }) :=
  fun _ _ _ _ defines => ⟨_, made_make defines (paired_empty _ name), .inr ⟨rfl, rfl⟩⟩

/-- A new parser with a run function. -/
theorem body {name name' : String} (hn : name = name') {b b' : ParserId → Body W}
    (hb : ∀ l p q, k.Le l → l.parsers p q → Code.Paired l (.body (b p)) (.body (b' q))) :
    k.BuildsParsers (Build.body name b) (Build.body name' b') := by
  subst hn
  intro l σ τ hle defines
  have self : (l.enlist ⟨σ.parsers.size⟩ ⟨τ.parsers.size⟩).parsers _ _ := .inr ⟨rfl, rfl⟩
  have code := hb _ _ _ (hle.trans (l.le_enlist _ _)) self
  refine ⟨_, made_make defines ?_, self⟩
  rw [defines.logging]
  exact paired_define (paired_empty _ name) code _

/-- Changing a parser on both sides. -/
theorem alter (h : k.parsers p q) {f g : Cell W → Cell W}
    (hf : ∀ l c d, k.Le l → c.Paired l d → (f c).Paired l (g d)) :
    k.Builds (fun _ _ _ => True) (p.alter f) (q.alter g) := by
  intro l σ τ hle defines
  have h := hle.parsers p q h
  have size (σ : Store W) (p : ParserId) (f : Cell W → Cell W) :
      (p.alter f σ).2.parsers.size = σ.parsers.size := Array.size_modify
  refine ⟨l, ⟨.refl l, { defines with parsers := fun a b hab => ?_ }, rfl, rfl, rfl,
    fun _ _ h => .inl h, Nat.le_of_eq (size σ p f).symm, ?_⟩, trivial⟩
  · obtain ⟨c, d, hc, hd, paired⟩ := defines.parsers a b hab
    change ∃ c d, (σ.parsers.modify p.index f)[a.index]? = some c ∧
      (τ.parsers.modify q.index g)[b.index]? = some d ∧ c.Paired l d
    rw [Array.getElem?_modify, Array.getElem?_modify, hc, hd]
    -- Parsers belong together one to one, so both of the pair are changed or neither is.
    by_cases e : p = a
    · subst e
      cases defines.parsersUnique.2 h hab
      rw [if_pos rfl, if_pos rfl]
      exact ⟨_, _, rfl, rfl, hf l c d hle paired⟩
    · rw [if_neg fun e' => e (congrArg ParserId.mk e'), if_neg]
      · exact ⟨c, d, rfl, rfl, paired⟩
      · intro e'
        obtain rfl : q = b := congrArg ParserId.mk e'
        exact e (defines.parsersUnique.1 h hab)
  · rw [size, size, Nat.add_comm]

theorem named (h : k.parsers p q) {name name' : String} (hn : name = name') :
    k.BuildsParsers (W := W) (p.named name) (q.named name') := by
  subst hn
  refine bind (alter h fun _ _ _ _ paired => { paired with name := rfl }) fun l _ _ hle _ => ?_
  exact pure fun l' hle' => hle'.parsers p q (hle.parsers p q h)

theorem define (h : k.parsers p q) {s t : ParserId} (hs : k.parsers s t) :
    k.Builds (W := W) (fun _ _ _ => True) (p.define s) (q.define t) := by
  refine bind (cell hs) fun l c d hle paired => get fun l' σ τ hle' defines => ?_
  have hle := hle.trans hle'
  rw [defines.logging]
  refine alter (hle.parsers p q h) fun l'' a b hle'' hab => ?_
  have paired := paired.mono (hle'.trans hle'')
  have captured := code paired ((hle.trans hle'').parsers s t hs)
  exact { paired_define hab captured _ with name := paired.name }

/-! ### The combinators -/

theorem seq (h : k.parsers p p') (h' : k.parsers q q') (c : Combine) :
    k.BuildsParsers (W := W) (Build.seq p q c) (Build.seq p' q' c) := by
  apply body rfl
  exact fun l _ _ hle _ => .seq c (hle.parsers _ _ h) (hle.parsers _ _ h')

theorem one {f g : Value → Action W Bool} (hf : k.Predicates f g) :
    k.BuildsParsers (Build.some f) (Build.some g) := by
  apply body rfl
  exact fun l _ _ hle self => .some self (hf.mono hle)

theorem token {v w : Value} (same : ∀ t : Value, t.Settled → t.beq v = t.beq w)
    (h : k.Like (Build.tokenName v) (Build.tokenName w)) :
    k.BuildsParsers (W := W) (Build.token v) (Build.token w) := by
  refine get fun l σ τ hle _ => bind (one fun l' t _ settled => ?_) fun l' _ _ _ hp => ?_
  · exact .done (same t settled)
  · exact named hp ((h.mono hle).render σ.names τ.names)

theorem const {v w : Value} (h : k.Like v w) :
    k.BuildsParsers (W := W) (Build.pure v) (Build.pure w) := by
  refine get fun l σ τ hle _ => ?_
  have h := h.mono hle
  apply body
  · rw [Store.render, Store.render, h.render σ.names τ.names]
  · exact fun l' _ _ hle' _ => .pure (h.mono hle')

theorem skip (h : k.parsers p q) :
    k.BuildsParsers (W := W) (Build.skip p) (Build.skip q) := by
  refine bind (cell h) fun l c d hle paired => bind (Q := parsers) ?_ fun l' i j hle' hi => ?_
  · apply body paired.name
    intro l' _ _ hle' _
    exact .ignore (code (paired.mono hle') ((hle.trans hle').parsers _ _ h))
  · refine bind (alter hi fun _ _ _ _ hc => { hc with ignored := rfl }) fun l'' _ _ hle'' _ => ?_
    exact pure fun _ hle => hle.parsers _ _ (hle''.parsers _ _ hi)

theorem plus (h : k.parsers p p') (h' : k.parsers q q') :
    k.BuildsParsers (W := W) (Build.plus p q) (Build.plus p' q') := by
  refine bind (cell h) fun l a a' hle ha => bind (cell (hle.parsers _ _ h'))
    fun l' b b' hle' hb => ?_
  have ha := ha.mono hle'
  have hle := hle.trans hle'
  have h := hle.parsers _ _ h
  have h' := hle.parsers _ _ h'
  rw [ha.ignored, hb.ignored, ha.name, hb.name]
  cases a'.ignored <;> cases b'.ignored
  · exact bind (seq h h' .group) fun _ _ _ _ hr => named hr rfl
  · exact bind (seq h h' .first) fun _ _ _ _ hr => named hr rfl
  · exact bind (seq h h' .second) fun _ _ _ _ hr => named hr rfl
  · exact bind (bind (seq h h' .second) fun _ _ _ _ hr => skip hr) fun _ _ _ _ hr => named hr rfl

theorem or (h : k.parsers p p') (h' : k.parsers q q') :
    k.BuildsParsers (W := W) (Build.or p q) (Build.or p' q') := by
  refine bind (name h) ?_
  rintro l a _ hle rfl
  refine bind (name (hle.parsers _ _ h')) ?_
  rintro l' b _ hle' rfl
  have hle := hle.trans hle'
  apply body rfl
  exact fun _ _ _ hle'' _ =>
    .alt ((hle.trans hle'').parsers _ _ h) ((hle.trans hle'').parsers _ _ h')

theorem map (h : k.parsers p q) {f g : Value → Action W Value} (hf : k.Functions Like f g) :
    k.BuildsParsers (Build.map p f) (Build.map q g) := by
  refine bind (name h) ?_
  rintro l a _ hle rfl
  apply body rfl
  exact fun _ _ _ hle' _ =>
    .map ((hle.trans hle').parsers _ _ h) (hf.mono (hle.trans hle'))

theorem binder (h : k.parsers p q) {f g : Value → Action W (Grammar W)}
    (hf : k.Functions Grammar.Paired f g) : k.BuildsParsers (Build.bind p f) (Build.bind q g) := by
  refine bind (name h) ?_
  rintro l a _ hle rfl
  apply body rfl
  exact fun _ _ _ hle' _ =>
    .bind ((hle.trans hle').parsers _ _ h) (hf.mono (hle.trans hle'))

theorem attempt (h : k.parsers p q) :
    k.BuildsParsers (W := W) (Build.attempt p) (Build.attempt q) := by
  refine bind (name h) ?_
  rintro l a _ hle rfl
  apply body rfl
  exact fun _ _ _ hle' _ => .attempt ((hle.trans hle').parsers _ _ h)

/-- Renaming after another look at a name. -/
theorem bind_name {r r' : ParserId} (h : k.parsers p q) (hr : k.parsers r r')
    (f : String → String) :
    k.BuildsParsers (W := W) (do r.named (f (← p.name))) (do r'.named (f (← q.name))) := by
  refine bind (name h) ?_
  rintro l a _ hle rfl
  exact named (hle.parsers _ _ hr) rfl

theorem optional (h : k.parsers p q) {v w : Value} (hv : k.Like v w) :
    k.BuildsParsers (W := W) (Build.optional p v) (Build.optional q w) :=
  bind (const hv) fun _ _ _ h₁ hq => bind (or (h₁.parsers _ _ h) hq) fun _ _ _ h₂ hr =>
    bind_name ((h₁.trans h₂).parsers _ _ h) hr _

theorem many (h : k.parsers p q) : k.BuildsParsers (W := W) (Build.many p) (Build.many q) := by
  refine bind (name h) ?_
  rintro l a _ hle rfl
  apply body rfl
  exact fun _ _ _ hle' self => .many self ((hle.trans hle').parsers _ _ h)

theorem oneplus (h : k.parsers p q) :
    k.BuildsParsers (W := W) (Build.oneplus p) (Build.oneplus q) := by
  refine bind (many h) fun l _ _ h₁ hr => bind (seq (h₁.parsers _ _ h) hr .cons) ?_
  intro l' _ _ h₂ hq
  have h := (h₁.trans h₂).parsers _ _ h
  refine bind (name h) ?_
  rintro l'' a _ h₃ rfl
  exact bind_name (h₃.parsers _ _ h) (h₃.parsers _ _ hq) _

theorem noItems : k.BuildsParsers (W := W) Build.noItems Build.noItems := const .nil

theorem repeated (h : k.parsers p q) (n : Nat) {last last' : ParserId}
    (hl : k.parsers last last') :
    k.BuildsParsers (W := W) (Build.repeated p n last) (Build.repeated q n last') := by
  induction n generalizing k last last' with
  | zero => exact pure fun _ hle => hle.parsers _ _ hl
  | succ n ih => exact bind (seq h hl .cons) fun _ _ _ hle hq => ih (hle.parsers _ _ h) hq

theorem times (n : Int) (h : k.parsers p q) :
    k.BuildsParsers (W := W) (Build.times n p) (Build.times n q) :=
  bind noItems fun _ _ _ h₁ hl => bind (repeated (h₁.parsers _ _ h) _ hl) fun _ _ _ h₂ hq =>
    bind_name ((h₁.trans h₂).parsers _ _ h) hq _

theorem upTo (h : k.parsers p q) (n : Nat) {last last' : ParserId} (hl : k.parsers last last') :
    k.BuildsParsers (W := W) (Build.upTo p n last) (Build.upTo q n last') := by
  induction n generalizing k last last' with
  | zero => exact pure fun _ hle => hle.parsers _ _ hl
  | succ n ih =>
    exact bind (seq h hl .cons) fun _ _ _ h₁ hq => bind (optional hq .nil) fun _ _ _ h₂ hr =>
      ih ((h₁.trans h₂).parsers _ _ h) hr

theorem betweenTimes (low : Int) (high : Option Int) (h : k.parsers p q) :
    k.BuildsParsers (W := W) (Build.betweenTimes low high p) (Build.betweenTimes low high q) := by
  have rest {k : Pairing} (h : k.parsers p q) {extra extra' : ParserId}
      (he : k.parsers extra extra') (limit : String) : k.BuildsParsers (W := W) (do
        let name := toString low ++ ".." ++ limit ++ " * " ++ (← p.name)
        (← Build.seq (← Build.times low p) extra .append).named name) (do
        let name := toString low ++ ".." ++ limit ++ " * " ++ (← q.name)
        (← Build.seq (← Build.times low q) extra' .append).named name) := by
    refine bind (name h) ?_
    rintro l a _ h₁ rfl
    exact bind (times low (h₁.parsers _ _ h)) fun _ _ _ h₂ hq =>
      bind (seq hq ((h₁.trans h₂).parsers _ _ he) .append) fun _ _ _ _ hr => named hr rfl
  cases high with
  | none => exact bind (many h) fun _ _ _ hle he => rest (hle.parsers _ _ h) he _
  | some high =>
    exact bind noItems fun _ _ _ h₁ hl => bind (upTo (h₁.parsers _ _ h) _ hl) fun _ _ _ h₂ he =>
      rest ((h₁.trans h₂).parsers _ _ h) he _

theorem sepBy1 (h : k.parsers p p') (h' : k.parsers q q') :
    k.BuildsParsers (W := W) (Build.sepBy1 p q) (Build.sepBy1 p' q') := by
  refine bind (seq h' h .second) fun _ _ _ h₁ hr => bind (many hr) fun _ _ _ h₂ hr => ?_
  refine bind (seq ((h₁.trans h₂).parsers _ _ h) hr .cons) fun _ _ _ h₃ ht => ?_
  have hle := (h₁.trans h₂).trans h₃
  refine bind (name (hle.parsers _ _ h)) ?_
  rintro l a _ h₄ rfl
  exact bind_name ((hle.trans h₄).parsers _ _ h') (h₄.parsers _ _ ht) _

theorem sepBy (h : k.parsers p p') (h' : k.parsers q q') :
    k.BuildsParsers (W := W) (Build.sepBy p q) (Build.sepBy p' q') :=
  bind (sepBy1 h h') fun _ _ _ _ hr => optional hr .nil

theorem chain {ps qs : List ParserId} (h : List.Forall₂ k.parsers ps qs) {last last' : ParserId}
    (hl : k.parsers last last') : k.BuildsParsers (W := W)
      (ps.foldrM (fun p q => Build.seq p q .cons) last)
      (qs.foldrM (fun p q => Build.seq p q .cons) last') := by
  induction h with
  | nil => exact pure fun _ hle => hle.parsers _ _ hl
  | cons hp _ ih =>
    rw [List.foldrM_cons, List.foldrM_cons]
    exact bind ih fun _ _ _ hle hq => seq (hle.parsers _ _ hp) hq .cons

theorem names {ps qs : List ParserId} (h : List.Forall₂ k.parsers ps qs) :
    k.Builds (W := W) (fun _ a b => a = b) (ps.mapM ParserId.name) (qs.mapM ParserId.name) := by
  induction h with
  | nil => exact pure fun _ _ => rfl
  | cons hp _ ih =>
    rw [List.mapM_cons, List.mapM_cons]
    refine bind (name hp) ?_
    rintro l a _ hle rfl
    refine bind (ih.mono hle) ?_
    rintro l' as _ _ rfl
    exact pure fun _ _ => rfl

theorem sequence {ps qs : List ParserId} (h : List.Forall₂ k.parsers ps qs) :
    k.BuildsParsers (W := W) (Build.sequence ps) (Build.sequence qs) := by
  refine bind noItems fun _ _ _ h₁ hl => ?_
  have h := h.imp fun _ _ => h₁.parsers _ _
  refine bind (chain h hl) fun _ _ _ h₂ hq => ?_
  refine bind (names (h.imp fun _ _ => h₂.parsers _ _)) ?_
  rintro l a _ h₃ rfl
  exact named (h₃.parsers _ _ hq) rfl

theorem listed (h : k.parsers p q) :
    k.BuildsParsers (W := W) (Build.listed p) (Build.listed q) :=
  bind (map h functions_listOf) fun _ _ _ hle hr => bind_name (hle.parsers _ _ h) hr id

theorem wrap (h : k.parsers p q) : k.BuildsParsers (W := W) (Build.wrap p) (Build.wrap q) :=
  bind (make "") fun _ _ _ hle hr => bind (define hr (hle.parsers _ _ h)) fun _ _ _ hle' _ =>
    pure fun _ hle => hle.parsers _ _ (hle'.parsers _ _ hr)

/-- Several grammars, from left to right. -/
theorem all {gs hs : List (Grammar W)} (size : gs.length = hs.length)
    (h : ∀ x ∈ gs.zip hs, k.BuildsParsers x.1.build x.2.build) :
    k.Builds (fun l => List.Forall₂ l.parsers) (Grammar.buildAll gs) (Grammar.buildAll hs) := by
  induction gs generalizing k hs with
  | nil =>
    obtain rfl := List.length_eq_zero_iff.mp size.symm
    exact pure fun _ _ => .nil
  | cons g gs ih =>
    obtain ⟨g', hs, rfl⟩ := List.exists_cons_of_length_eq_add_one size.symm
    refine bind (h (g, g') (by simp)) fun l p q hle hp => ?_
    refine bind (ih (by simpa using size) fun x hx => (h x (by simp [hx])).mono hle) ?_
    intro l' ps qs hle' hps
    exact pure fun _ hle => .cons ((hle'.trans hle).parsers _ _ hp)
      (hps.imp fun _ _ => hle.parsers _ _)

end Builds

end Pairing

/-- Corresponding grammars build corresponding parsers. -/
theorem Grammar.Paired.builds {k : Pairing} {g h : Grammar W} (hg : g.Paired k h) :
    k.BuildsParsers g.build h.build := by
  induction hg with
  | ref hp => exact .pure fun _ hle => hle.parsers _ _ hp
  | some hf => exact .one hf
  | token same hn => exact .token same hn
  | pure hv => exact .const hv
  | fail m =>
    apply Pairing.Builds.body rfl
    exact fun _ _ _ _ _ => .fail m
  | finished hp => exact .pure fun _ hle => hle.parsers _ _ hp
  | plus _ _ ihp ihq =>
    exact .bind ihp fun _ _ _ hle hr => .bind (ihq.mono hle) fun _ _ _ hle' hs =>
      .plus (hle'.parsers _ _ hr) hs
  | or _ _ ihp ihq =>
    exact .bind ihp fun _ _ _ hle hr => .bind (ihq.mono hle) fun _ _ _ hle' hs =>
      .or (hle'.parsers _ _ hr) hs
  | map _ hf ih => exact .bind ih fun _ _ _ hle hr => .map hr (hf.mono hle)
  | bind R _ hf hR ih _ => exact .bind ih fun _ _ _ hle hr => .binder hr ((hf.imp hR).mono hle)
  | skip _ ih => exact .bind ih fun _ _ _ _ hr => .skip hr
  | attempt _ ih => exact .bind ih fun _ _ _ _ hr => .attempt hr
  | optional _ hv ih => exact .bind ih fun _ _ _ hle hr => .optional hr (hv.mono hle)
  | many _ ih => exact .bind ih fun _ _ _ _ hr => .many hr
  | oneplus _ ih => exact .bind ih fun _ _ _ _ hr => .oneplus hr
  | times n _ ih => exact .bind ih fun _ _ _ _ hr => .times n hr
  | betweenTimes low high _ ih => exact .bind ih fun _ _ _ _ hr => .betweenTimes low high hr
  | sepBy1 _ _ ihp ihq =>
    exact .bind ihp fun _ _ _ hle hr => .bind (ihq.mono hle) fun _ _ _ hle' hs =>
      .sepBy1 (hle'.parsers _ _ hr) hs
  | sepBy _ _ ihp ihq =>
    exact .bind ihp fun _ _ _ hle hr => .bind (ihq.mono hle) fun _ _ _ hle' hs =>
      .sepBy (hle'.parsers _ _ hr) hs
  | sequence size _ ih => exact .bind (.all size ih) fun _ _ _ _ hr => .sequence hr
  | listed _ ih => exact .bind ih fun _ _ _ _ hr => .listed hr
  | named name _ ih => exact .bind ih fun _ _ _ _ hr => .named hr rfl
  | wrap _ ih => exact .bind ih fun _ _ _ _ hr => .wrap hr
  | forward =>
    apply Pairing.Builds.body rfl
    exact fun _ _ _ _ _ => .undeclared
  | undefined name => exact .make name

/-! ## Parsers whose functions are pure -/

/-- A store agrees with itself about parsers whose functions are pure. -/
theorem Store.Pure.agree {σ : Store W} {P : ParserId → Prop} (h : σ.Pure P) :
    (Pairing.only P).Agree σ σ where
  tails _ _ h := h.elim
  tailsUnique := ⟨fun _ _ _ h => h.elim, fun _ _ _ h => h.elim⟩
  parsers := by
    rintro p _ ⟨rfl, hp⟩
    obtain ⟨c, hc, paired⟩ := h p hp
    exact ⟨c, c, hc, hc, paired⟩
  parsersUnique := by
    constructor
    · rintro p q r ⟨rfl, -⟩ ⟨rfl, -⟩
      rfl
    · rintro p q r ⟨rfl, -⟩ ⟨rfl, -⟩
      rfl
  logging := rfl

/-- Building twice over the same store gives the same parsers, and they are pure. -/
theorem Pairing.Builds.pureParsers {σ : Store W} {P : ParserId → Prop} (h : σ.Pure P)
    {Q : Pairing → α → α → Prop} {b : Build W α} (hb : (Pairing.only P).Builds Q b b) :
    ∃ P', (∀ p, P p → P' p) ∧ (b σ).2.Pure P' ∧ Q (.only P') (b σ).1 (b σ).1 := by
  obtain ⟨l, made, hq⟩ := hb _ σ σ (.refl _) h.agree.defines
  -- The new parsers belong to themselves, and there are no tails.
  have self {p q : ParserId} (hp : l.parsers p q) : p = q := by
    rcases made.parsers p q hp with ⟨rfl, -⟩ | hp
    · rfl
    · have index : p.index = q.index := by omega
      exact congrArg ParserId.mk index
  have only : l = .only fun p => l.parsers p p := by
    obtain ⟨tails, parsers⟩ := l
    have ht : tails = fun _ _ => False := made.tails
    subst ht
    simp only [Pairing.only, Pairing.mk.injEq, true_and]
    funext p q
    exact propext ⟨fun hp => ⟨self hp, (self hp) ▸ hp⟩, fun ⟨e, hp⟩ => e ▸ hp⟩
  refine ⟨fun p => l.parsers p p, fun p hp => made.le.parsers p p ⟨rfl, hp⟩, fun p hp => ?_, ?_⟩
  · obtain ⟨c, d, hc, hd, paired⟩ := made.defines.parsers p p hp
    cases hc.symm.trans hd
    exact ⟨c, hc, only ▸ paired⟩
  · exact only ▸ hq

/-- A grammar whose functions are pure leaves parsers whose functions are pure. -/
theorem Grammar.Pure.builds {σ : Store W} {P : ParserId → Prop} (h : σ.Pure P) {g : Grammar W}
    (hg : g.Pure P) : ∃ P', (∀ p, P p → P' p) ∧ (g.build σ).2.Pure P' ∧ P' (g.build σ).1 := by
  obtain ⟨P', hP, pure, -, hp⟩ := Pairing.Builds.pureParsers h (Grammar.Paired.builds hg)
  exact ⟨P', hP, pure, hp⟩

/-- The parser of a store without parsers of the caller. -/
theorem pure_initial (world : W) (watch : Value → W → W) :
    (Store.initial world watch).Pure fun p => p = .finished := by
  rintro p rfl
  exact ⟨_, rfl, rfl, rfl, .some (.finished ⟨rfl, rfl⟩), .none⟩

end ResumableParsing
