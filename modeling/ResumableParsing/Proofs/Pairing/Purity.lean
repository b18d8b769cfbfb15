import ResumableParsing.Grammar.Build
import ResumableParsing.Proofs.Pairing.Basic

/-!
# Pure functions of the caller

A pure function gives what it gives by its arguments alone. It neither looks at the world nor
changes it, and of streams it sees the elements, not which stream it has been given. So it treats
corresponding arguments alike, whatever belongs together in the two runs.

* `Action.Paired`: programs of the caller that ask corresponding things of the library
* `Grammar.Paired`, `Code.Paired`: grammars and run functions with corresponding functions
* `Grammar.Pure`, `Store.Pure`: grammars and parsers whose functions are pure
* `functions_listOf`: reading a stream into a list is pure
* `Cell.Paired.mono`: what corresponds corresponds for good
-/

namespace ResumableParsing

variable {W α β : Type}

/-! ## Programs of the caller -/

/-- The sources correspond. -/
inductive Pairing.Sources (k : Pairing) : Source → Source → Prop where
  | none : Sources k .none .none
  | stream {s t : Stream Value} : k.Streams s t → Sources k (.stream s) (.stream t)
  | sequence {p q : Sequence Value} : p.items = q.items →
      (∀ i v, p.items.get? i = some v → v.Settled) → Sources k (.sequence p) (.sequence q)

/-- The programs ask corresponding things of the library, and with corresponding answers they go on
alike, up to results that correspond as `R` says. They leave the world alone. -/
inductive Action.Paired (R : Pairing → α → β → Prop) :
    Pairing → Action W α → Action W β → Prop where
  | done {k : Pairing} {a : α} {b : β} : R k a b → Paired R k (.done a) (.done b)
  | raise {k : Pairing} (f : Fault) : Paired R k (.raise f) (.raise f)
  | serial {k : Pairing} {f : Nat → Action W α} {g : Nat → Action W β} :
      (∀ m n, Paired R k (f m) (g n)) → Paired R k (.serial f) (.serial g)
  | asStream {k : Pairing} {s t : Source} {f : Stream Value → Action W α}
      {g : Stream Value → Action W β} : k.Sources s t →
      (∀ l s t, k.Le l → l.Streams s t → Paired R l (f s) (g t)) →
      Paired R k (.asStream s f) (.asStream t g)
  | isEmpty {k : Pairing} {s t : Stream Value} {f : Bool → Action W α} {g : Bool → Action W β} :
      k.Streams s t → (∀ b, Paired R k (f b) (g b)) → Paired R k (.isEmpty s f) (.isEmpty t g)
  | first {k : Pairing} {s t : Stream Value} {f : Value → Action W α} {g : Value → Action W β} :
      k.Streams s t → (∀ l v w, k.Le l → l.Like v w → Paired R l (f v) (g w)) →
      Paired R k (.first s f) (.first t g)
  | rest {k : Pairing} {s t : Stream Value} {f : Stream Value → Action W α}
      {g : Stream Value → Action W β} : k.Streams s t →
      (∀ l s t, k.Le l → l.Streams s t → Paired R l (f s) (g t)) →
      Paired R k (.rest s f) (.rest t g)
  | append {k : Pairing} {a b c d : Stream Value} {f : Stream Value → Action W α}
      {g : Stream Value → Action W β} : k.Streams a c → k.Streams b d →
      (∀ l s t, k.Le l → l.Streams s t → Paired R l (f s) (g t)) →
      Paired R k (.append a b f) (.append c d g)
  | toList {k : Pairing} {s t : Stream Value} {f : List Value → Action W α}
      {g : List Value → Action W β} : k.Streams s t →
      (∀ l vs ws, k.Le l → List.Forall₂ l.Like vs ws → Paired R l (f vs) (g ws)) →
      Paired R k (.toList s f) (.toList t g)
  | render {k : Pairing} {v w : Value} {f : String → Action W α} {g : String → Action W β} :
      k.Like v w → (∀ t, Paired R k (f t) (g t)) → Paired R k (.render v f) (.render w g)

/-- Functions that treat corresponding values alike, now and later. -/
def Pairing.Functions (k : Pairing) (R : Pairing → α → β → Prop) (f : Value → Action W α)
    (g : Value → Action W β) : Prop :=
  ∀ l v w, k.Le l → l.Like v w → (f v).Paired R l (g w)

/-- Predicates that say the same of every token. -/
def Pairing.Predicates (k : Pairing) (f g : Value → Action W Bool) : Prop :=
  ∀ l v, k.Le l → v.Settled → (f v).Paired (fun _ a b => a = b) l (g v)

/-! ## Grammars and parsers -/

/-- The grammars are put together in the same way from corresponding functions, parsers and
values. -/
inductive Grammar.Paired : Pairing → Grammar W → Grammar W → Prop where
  | ref {k : Pairing} {p q : ParserId} : k.parsers p q → Paired k (.ref p) (.ref q)
  | some {k : Pairing} {f g : Value → Action W Bool} :
      k.Predicates f g → Paired k (.some f) (.some g)
  | token {k : Pairing} {v w : Value} : (∀ t : Value, t.Settled → t.beq v = t.beq w) →
      k.Like (Build.tokenName v) (Build.tokenName w) → Paired k (.token v) (.token w)
  | pure {k : Pairing} {v w : Value} : k.Like v w → Paired k (.pure v) (.pure w)
  | fail {k : Pairing} (message : String) : Paired k (.fail message) (.fail message)
  | finished {k : Pairing} : k.parsers .finished .finished → Paired k .finished .finished
  | plus {k : Pairing} {p q p' q' : Grammar W} :
      Paired k p p' → Paired k q q' → Paired k (.plus p q) (.plus p' q')
  | or {k : Pairing} {p q p' q' : Grammar W} :
      Paired k p p' → Paired k q q' → Paired k (.or p q) (.or p' q')
  | map {k : Pairing} {p q : Grammar W} {f g : Value → Action W Value} :
      Paired k p q → k.Functions Pairing.Like f g → Paired k (.map p f) (.map q g)
  | bind {k : Pairing} {p q : Grammar W} {f g : Value → Action W (Grammar W)}
      (R : Pairing → Grammar W → Grammar W → Prop) : Paired k p q → k.Functions R f g →
      (∀ l x y, k.Le l → R l x y → Paired l x y) → Paired k (.bind p f) (.bind q g)
  | skip {k : Pairing} {p q : Grammar W} : Paired k p q → Paired k (.skip p) (.skip q)
  | attempt {k : Pairing} {p q : Grammar W} : Paired k p q → Paired k (.attempt p) (.attempt q)
  | optional {k : Pairing} {p q : Grammar W} {v w : Value} :
      Paired k p q → k.Like v w → Paired k (.optional p v) (.optional q w)
  | many {k : Pairing} {p q : Grammar W} : Paired k p q → Paired k (.many p) (.many q)
  | oneplus {k : Pairing} {p q : Grammar W} : Paired k p q → Paired k (.oneplus p) (.oneplus q)
  | times {k : Pairing} {p q : Grammar W} (n : Int) :
      Paired k p q → Paired k (.times n p) (.times n q)
  | betweenTimes {k : Pairing} {p q : Grammar W} (low : Int) (high : Option Int) :
      Paired k p q → Paired k (.betweenTimes low high p) (.betweenTimes low high q)
  | sepBy1 {k : Pairing} {p q p' q' : Grammar W} :
      Paired k p p' → Paired k q q' → Paired k (.sepBy1 p q) (.sepBy1 p' q')
  | sepBy {k : Pairing} {p q p' q' : Grammar W} :
      Paired k p p' → Paired k q q' → Paired k (.sepBy p q) (.sepBy p' q')
  | sequence {k : Pairing} {ps qs : List (Grammar W)} : ps.length = qs.length →
      (∀ x ∈ ps.zip qs, Paired k x.1 x.2) → Paired k (.sequence ps) (.sequence qs)
  | listed {k : Pairing} {p q : Grammar W} : Paired k p q → Paired k (.listed p) (.listed q)
  | named {k : Pairing} {p q : Grammar W} (name : String) :
      Paired k p q → Paired k (.named p name) (.named q name)
  | wrap {k : Pairing} {p q : Grammar W} : Paired k p q → Paired k (.wrap p) (.wrap q)
  | forward {k : Pairing} : Paired k .forward .forward
  | undefined {k : Pairing} (name : String) : Paired k (.undefined name) (.undefined name)

/-- The run functions do corresponding things. -/
inductive Code.Paired (k : Pairing) : Code W → Code W → Prop where
  | some {p q : ParserId} {f g : Value → Action W Bool} : k.parsers p q → k.Predicates f g →
      Paired k (.body (.some p f)) (.body (.some q g))
  | pure {v w : Value} : k.Like v w → Paired k (.body (.pure v)) (.body (.pure w))
  | fail (message : String) : Paired k (.body (.fail message)) (.body (.fail message))
  | finished {p q : ParserId} :
      k.parsers p q → Paired k (.body (.finished p)) (.body (.finished q))
  | undeclared : Paired k (.body .undeclared) (.body .undeclared)
  | seq {p q p' q' : ParserId} (c : Combine) : k.parsers p p' → k.parsers q q' →
      Paired k (.body (.seq p q c)) (.body (.seq p' q' c))
  | alt {p q p' q' : ParserId} : k.parsers p p' → k.parsers q q' →
      Paired k (.body (.alt p q)) (.body (.alt p' q'))
  | map {p q : ParserId} {f g : Value → Action W Value} : k.parsers p q →
      k.Functions Pairing.Like f g → Paired k (.body (.map p f)) (.body (.map q g))
  | bind {p q : ParserId} {f g : Value → Action W (Grammar W)} : k.parsers p q →
      k.Functions Grammar.Paired f g → Paired k (.body (.bind p f)) (.body (.bind q g))
  | ignore {c d : Code W} : Paired k c d → Paired k (.body (.ignore c)) (.body (.ignore d))
  | attempt {p q : ParserId} : k.parsers p q → Paired k (.body (.attempt p)) (.body (.attempt q))
  | many {self p self' p' : ParserId} : k.parsers self self' → k.parsers p p' →
      Paired k (.body (.many self p)) (.body (.many self' p'))
  | method {p q : ParserId} : k.parsers p q → Paired k (.method p) (.method q)

/-- The parsers have the same name and do corresponding things. -/
structure Cell.Paired (k : Pairing) (c d : Cell W) : Prop where
  /-- They have the same name. -/
  name : c.name = d.name
  /-- Both results are left out of groups, or none is. -/
  ignored : c.ignored = d.ignored
  /-- The run functions correspond. -/
  direct : Option.Rel (Code.Paired k) c.direct d.direct
  /-- The definitions behind the logging method correspond. -/
  logged : Option.Rel (Code.Paired k) c.logged d.logged

/-! ## Purity -/

/-- A grammar over a set of parsers whose functions are pure and whose values are data. -/
def Grammar.Pure (P : ParserId → Prop) (g : Grammar W) : Prop := g.Paired (.only P) g

/-- The parsers of a set only start one another, their functions are pure and their values are
data. -/
def Store.Pure (σ : Store W) (P : ParserId → Prop) : Prop :=
  ∀ p, P p → ∃ c : Cell W, σ.parsers[p.index]? = some c ∧ c.Paired (.only P) c

/-! ## Larger pairings -/

section

variable {k l : Pairing}

theorem Pairing.Sources.mono (hle : k.Le l) {s t : Source} (h : k.Sources s t) :
    l.Sources s t := by
  cases h with
  | none => exact .none
  | stream h => exact .stream (h.mono hle)
  | sequence items settled => exact .sequence items settled

/-- Results may correspond in another way as well. -/
theorem Action.Paired.imp {R R' : Pairing → α → β → Prop} {a : Action W α} {b : Action W β}
    (h : a.Paired R k b) (hR : ∀ l x y, k.Le l → R l x y → R' l x y) : a.Paired R' k b := by
  induction h with
  | done h => exact .done (hR _ _ _ (.refl _) h)
  | raise f => exact .raise f
  | serial _ ih => exact .serial fun m n => ih m n hR
  | asStream hs _ ih =>
    exact .asStream hs fun _ s t hle h => ih _ s t hle h fun _ x y hle' => hR _ x y (hle.trans hle')
  | isEmpty hs _ ih => exact .isEmpty hs fun b => ih b hR
  | first hs _ ih =>
    exact .first hs fun _ v w hle h => ih _ v w hle h fun _ x y hle' => hR _ x y (hle.trans hle')
  | rest hs _ ih =>
    exact .rest hs fun _ s t hle h => ih _ s t hle h fun _ x y hle' => hR _ x y (hle.trans hle')
  | append ha hb _ ih =>
    exact .append ha hb fun _ s t hle h => ih _ s t hle h
      fun _ x y hle' => hR _ x y (hle.trans hle')
  | toList hs _ ih =>
    exact .toList hs fun _ s t hle h => ih _ s t hle h fun _ x y hle' => hR _ x y (hle.trans hle')
  | render hv _ ih => exact .render hv fun t => ih t hR

theorem Pairing.Functions.imp {R R' : Pairing → α → β → Prop} {f : Value → Action W α}
    {g : Value → Action W β} (h : k.Functions R f g) (hR : ∀ l x y, k.Le l → R l x y → R' l x y) :
    k.Functions R' f g :=
  fun _ v w hle hv => (h _ v w hle hv).imp fun _ x y hle' => hR _ x y (hle.trans hle')

theorem Pairing.Functions.mono {R : Pairing → α → β → Prop} {f : Value → Action W α}
    {g : Value → Action W β} (hle : k.Le l) (h : k.Functions R f g) : l.Functions R f g :=
  fun _ v w hle' => h _ v w (hle.trans hle')

theorem Pairing.Predicates.mono {f g : Value → Action W Bool} (hle : k.Le l)
    (h : k.Predicates f g) : l.Predicates f g := fun _ v hle' => h _ v (hle.trans hle')

theorem Pairing.like_list {vs ws : List Value} (h : List.Forall₂ k.Like vs ws) :
    k.Like (.list vs) (.list ws) := by
  obtain ⟨size, each⟩ := List.forall₂_iff_zip.mp h
  exact .list size fun _ hp => each hp

/-- The elements of a result as a list are found by its contents alone. -/
theorem functions_listOf :
    k.Functions (W := W) Pairing.Like Build.listOf Build.listOf := by
  intro l v w _ h
  have read {s t : Stream Value} (h : l.Streams s t) :
      (Build.listOf (W := W) (.stream s)).Paired Pairing.Like l (Build.listOf (.stream t)) :=
    .toList h fun _ _ _ _ h => .done (Pairing.like_list h)
  cases h with
  | same settled =>
    cases settled with
    | nil => exact read (.same .nil)
    | cons hv hs => exact read (.same (.cons hv hs))
    | view h => exact read (.same (.view h))
    | dict hk hv =>
      refine .done (.same (.list fun v hv => ?_))
      obtain ⟨e, he, rfl⟩ := List.mem_map.mp hv
      exact hk e he
    | text t =>
      refine .done (.same (.list fun v hv => ?_))
      obtain ⟨p, -, rfl⟩ := List.mem_map.mp hv
      exact .text _
    | list each => exact .done (.same (.list each))
    | tuple each => exact .done (.same (.list each))
    | group each => exact .done (.same (.list each))
    | _ => exact .raise _
  | nil => exact read .nil
  | cons hv hs => exact read (.cons hv hs)
  | lazy hv ht => exact read (.lazy hv ht)
  | view items h => exact read (.view items h)
  | list size each => exact .done (.list size each)
  | tuple size each => exact .done (.list size each)
  | group size each => exact .done (.list size each)
  | dict size hk hv =>
    refine .done (.list (by simp [size]) fun p hp => ?_)
    rw [List.zip_map] at hp
    obtain ⟨e, he, rfl⟩ := List.mem_map.mp hp
    exact hk e he
  | _ => exact .raise _

theorem Code.Paired.mono (hle : k.Le l) {c d : Code W} (h : c.Paired k d) : c.Paired l d := by
  induction h with
  | some h hf => exact .some (hle.parsers _ _ h) (hf.mono hle)
  | pure h => exact .pure (h.mono hle)
  | fail m => exact .fail m
  | finished h => exact .finished (hle.parsers _ _ h)
  | undeclared => exact .undeclared
  | seq c h h' => exact .seq c (hle.parsers _ _ h) (hle.parsers _ _ h')
  | alt h h' => exact .alt (hle.parsers _ _ h) (hle.parsers _ _ h')
  | map h hf => exact .map (hle.parsers _ _ h) (hf.mono hle)
  | bind h hf => exact .bind (hle.parsers _ _ h) (hf.mono hle)
  | ignore _ ih => exact .ignore ih
  | attempt h => exact .attempt (hle.parsers _ _ h)
  | many h h' => exact .many (hle.parsers _ _ h) (hle.parsers _ _ h')
  | method h => exact .method (hle.parsers _ _ h)

theorem rel_imp {R R' : α → β → Prop} (hR : ∀ a b, R a b → R' a b) {x : Option α} {y : Option β}
    (h : Option.Rel R x y) : Option.Rel R' x y := by
  cases h with
  | none => exact .none
  | some h => exact .some (hR _ _ h)

theorem Cell.Paired.mono (hle : k.Le l) {c d : Cell W} (h : c.Paired k d) : c.Paired l d where
  name := h.name
  ignored := h.ignored
  direct := rel_imp (fun _ _ => Code.Paired.mono hle) h.direct
  logged := rel_imp (fun _ _ => Code.Paired.mono hle) h.logged

end

end ResumableParsing
