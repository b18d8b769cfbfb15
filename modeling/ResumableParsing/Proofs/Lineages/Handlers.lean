import ResumableParsing.Proofs.Pairing.Purity
import ResumableParsing.Session.Basic

/-!
# Pure handlers

What a parse ends with is handed to functions of the caller, the handlers of its session: the value
or the error, and the state in which the parse has ended. A handler is pure if it makes its answer
from these alone. So it answers alike if it is called in two stores for replies that correspond.

A pure handler runs such programs as other pure functions do, on values and streams. It may read the
tokens that are left, make other states, and ask for the texts of errors and states. It may raise
what it likes, the error of the parse included, and its answer may hold whatever it has got.

* `Scope`: what corresponds when a handler is called on both sides
* `Scope.Values`: corresponding answers
* `Action.Uniform`: programs that treat alike what corresponds
* `Handlers.Pure`: handlers that answer corresponding replies alike
* `Handlers.pure_applying`, `Handlers.pure_value`: some that do
-/

namespace ResumableParsing

variable {W α β : Type}

/-! ## What handlers come across -/

/-- What corresponds when a handler is called on both sides. -/
structure Scope where
  /-- Deferred tails and parsers. -/
  pairing : Pairing
  /-- Streams of the tokens that are left. -/
  inputs : Stream Value → Stream Value → Prop
  /-- The user state of the parse, which is the same on both sides. -/
  user : Value

namespace Scope

/-- More corresponds. -/
structure Le (k l : Scope) : Prop where
  /-- Tails and parsers still do. -/
  pairing : k.pairing.Le l.pairing
  /-- Streams of tokens still do. -/
  inputs : ∀ s t, k.inputs s t → l.inputs s t
  /-- The user state is the same. -/
  user : l.user = k.user

/-- The value is the same on both sides: data, or the user state of the parse. -/
def Kept (k : Scope) (v : Value) : Prop := v = k.user ∨ v.Settled

/-- The states lie in the chunk of the same number, with corresponding tokens left, at the same
position and with the same user state. -/
inductive States (k : Scope) : State Value → State Value → Prop where
  | intro {a b : AdvanceId} {n p : Int} {u : Value} {i j : Stream Value} : k.Kept u →
      k.inputs i j →
      States k (.chunked a n (.plain false i p u)) (.chunked b n (.plain false j p u))

/-- The errors have the same reason at corresponding states, where corresponding parsers were
expected. -/
structure Errors (k : Scope) (e f : ParseError Value) : Prop where
  /-- What went wrong. -/
  reason : e.reason = f.reason
  /-- Where it went wrong. -/
  state : k.States e.state f.state
  /-- What could have stood there. -/
  expected : List.Forall₂ k.pairing.parsers e.expected f.expected
  /-- Whether it comes from a choice. -/
  merged : e.merged = f.merged

/-- The replies have the same outcome, and corresponding contents. -/
inductive Replies (k : Scope) : Reply Value → Reply Value → Prop where
  | ok {v u : Value} {s t : State Value} (d : Bool) :
      k.pairing.Like v u → k.States s t → Replies k (.ok d v s) (.ok d u t)
  | err {e f : ParseError Value} {s t : State Value} (d : Bool) :
      k.Errors e f → k.States s t → Replies k (.err d e s) (.err d f t)

/-- The values are put together in the same way from what corresponds: values, tokens that are left,
errors, states and replies. -/
inductive Values (k : Scope) : Value → Value → Prop where
  | like {v u : Value} : k.pairing.Like v u → Values k v u
  | kept {v : Value} : k.Kept v → Values k v v
  | input {s t : Stream Value} : k.inputs s t → Values k (.stream s) (.stream t)
  | failure {e f : ParseError Value} : k.Errors e f → Values k (.failure e) (.failure f)
  | state {s t : State Value} : k.States s t → Values k (.state s) (.state t)
  | ok {v u : Value} {s t : State Value} (d : Bool) : Values k v u → k.States s t →
      Values k (.reply (.ok d v s)) (.reply (.ok d u t))
  | err {e f : ParseError Value} {s t : State Value} (d : Bool) : k.Errors e f → k.States s t →
      Values k (.reply (.err d e s)) (.reply (.err d f t))
  | list {xs ys : List Value} : xs.length = ys.length → (∀ p ∈ xs.zip ys, Values k p.1 p.2) →
      Values k (.list xs) (.list ys)
  | tuple {xs ys : List Value} : xs.length = ys.length → (∀ p ∈ xs.zip ys, Values k p.1 p.2) →
      Values k (.tuple xs) (.tuple ys)
  | group {xs ys : List Value} : xs.length = ys.length → (∀ p ∈ xs.zip ys, Values k p.1 p.2) →
      Values k (.group xs) (.group ys)
  | dict {xs ys : List (Value × Value)} : xs.length = ys.length →
      (∀ p ∈ xs.zip ys, Values k p.1.1 p.2.1) → (∀ p ∈ xs.zip ys, Values k p.1.2 p.2.2) →
      Values k (.dict xs) (.dict ys)
  | ignored {v u : Value} : Values k v u → Values k (.ignored v) (.ignored u)
  | token {m n v u : Value} : Values k m n → Values k v u → Values k (.token m v) (.token n u)
  | cons {m n : Nat} {v u : Value} {s t : Stream Value} : Values k v u →
      Values k (.stream s) (.stream t) → Values k (.stream (.cons m v s)) (.stream (.cons n u t))

section

variable {k l m : Scope}

theorem Le.refl (k : Scope) : k.Le k := ⟨.refl _, fun _ _ h => h, rfl⟩

theorem Le.trans (h : k.Le l) (h' : l.Le m) : k.Le m :=
  ⟨h.pairing.trans h'.pairing, fun s t hs => h'.inputs s t (h.inputs s t hs),
    h'.user.trans h.user⟩

theorem Kept.mono (hle : k.Le l) {v : Value} (h : k.Kept v) : l.Kept v :=
  h.imp_left fun e => e.trans hle.user.symm

theorem States.mono (hle : k.Le l) {s t : State Value} (h : k.States s t) : l.States s t := by
  cases h with
  | intro kept hi => exact .intro (kept.mono hle) (hle.inputs _ _ hi)

theorem Errors.mono (hle : k.Le l) {e f : ParseError Value} (h : k.Errors e f) : l.Errors e f where
  reason := h.reason
  state := h.state.mono hle
  expected := h.expected.imp hle.pairing.parsers
  merged := h.merged

theorem Values.mono (hle : k.Le l) {v u : Value} (h : k.Values v u) : l.Values v u := by
  induction h with
  | like h => exact .like (h.mono hle.pairing)
  | kept h => exact .kept (h.mono hle)
  | input h => exact .input (hle.inputs _ _ h)
  | failure h => exact .failure (h.mono hle)
  | state h => exact .state (h.mono hle)
  | ok d _ hs ih => exact .ok d ih (hs.mono hle)
  | err d he hs => exact .err d (he.mono hle) (hs.mono hle)
  | list size _ ih => exact .list size ih
  | tuple size _ ih => exact .tuple size ih
  | group size _ ih => exact .group size ih
  | dict size _ _ ihk ihv => exact .dict size ihk ihv
  | ignored _ ih => exact .ignored ih
  | token _ _ ihm ihv => exact .token ihm ihv
  | cons _ _ ihv ihs => exact .cons ihv ihs

end

end Scope

/-! ## Pure handlers -/

/-- The programs ask for corresponding things, and they go on alike with corresponding answers. They
look at nothing that is not handed to them, and change nothing. -/
inductive Action.Uniform : Scope → Action W Value → Action W Value → Prop where
  | done {k : Scope} {v u : Value} : k.Values v u → Uniform k (.done v) (.done u)
  | raise {k : Scope} (f : Fault) : Uniform k (.raise f) (.raise f)
  | refuse {k : Scope} {e f : ParseError Value} : k.Errors e f →
      Uniform k (.raise (.noParse e)) (.raise (.noParse f))
  /-- They begin with what other functions of the caller do, on values and streams. -/
  | program {k : Scope} {α β : Type} {Q : Pairing → α → β → Prop} {a : Action W α} {b : Action W β}
      {f : α → Action W Value} {g : β → Action W Value} :
      (∀ l m x y, l.Le m → Q l x y → Q m x y) → a.Paired Q k.pairing b →
      (∀ l x y, k.Le l → Q l.pairing x y → Uniform l (f x) (g y)) →
      Uniform k (a.bind f) (b.bind g)
  | isEmpty {k : Scope} {s t : Stream Value} {f g : Bool → Action W Value} : k.inputs s t →
      (∀ b, Uniform k (f b) (g b)) → Uniform k (.isEmpty s f) (.isEmpty t g)
  | first {k : Scope} {s t : Stream Value} {f g : Value → Action W Value} : k.inputs s t →
      (∀ v, v.Settled → Uniform k (f v) (g v)) → Uniform k (.first s f) (.first t g)
  | rest {k : Scope} {s t : Stream Value} {f g : Stream Value → Action W Value} : k.inputs s t →
      (∀ l i j, k.Le l → l.inputs i j → Uniform l (f i) (g j)) → Uniform k (.rest s f) (.rest t g)
  | toList {k : Scope} {s t : Stream Value} {f g : List Value → Action W Value} : k.inputs s t →
      (∀ vs, (∀ v ∈ vs, v.Settled) → Uniform k (f vs) (g vs)) →
      Uniform k (.toList s f) (.toList t g)
  /-- They ask for texts that are the same wherever corresponding parsers have the same names. -/
  | render {k : Scope} {v u : Value} {f g : String → Action W Value} :
      (∀ n m : Names, (∀ p q, k.pairing.parsers p q → n.parser p = m.parser q) →
        v.render n = u.render m) →
      (∀ t, Uniform k (f t) (g t)) → Uniform k (.render v f) (.render u g)
  | setInput {k : Scope} {s t : State Value} {i j : Stream Value}
      {f g : State Value → Action W Value} : k.States s t → k.inputs i j →
      (∀ l s t, k.Le l → l.States s t → Uniform l (f s) (g t)) →
      Uniform k (.setInput s i f) (.setInput t j g)
  | setPosition {k : Scope} {s t : State Value} (p : Int) {f g : State Value → Action W Value} :
      k.States s t → (∀ l s t, k.Le l → l.States s t → Uniform l (f s) (g t)) →
      Uniform k (.setPosition s p f) (.setPosition t p g)
  | setUser {k : Scope} {s t : State Value} {u : Value} {f g : State Value → Action W Value} :
      k.States s t → k.Kept u → (∀ l s t, k.Le l → l.States s t → Uniform l (f s) (g t)) →
      Uniform k (.setUser s u f) (.setUser t u g)

/-- The handlers answer corresponding replies alike, at the end of a parse with the user state. -/
def Handlers.Pure (h : Handlers W) (user : Value) : Prop :=
  ∀ (k : Scope) (r r' : Reply Value), k.user = user → k.Replies r r' →
    (h.call r).Uniform k (h.call r')

theorem Action.bind_done_right (a : Action W α) : a.bind .done = a := by
  induction a with
  | done a => rfl
  | raise f => rfl
  | update g next ih => rw [bind, ih]
  | _ => simp only [bind, *]

/-- What other functions of the caller do, handlers may do. -/
theorem Action.Paired.uniform {k : Scope} {a b : Action W Value}
    (h : a.Paired Pairing.Like k.pairing b) : a.Uniform k b := by
  rw [← a.bind_done_right, ← b.bind_done_right]
  exact .program (fun _ _ _ _ hle h => h.mono hle) h fun _ _ _ _ h => .done (.like h)

/-- Applies a function to the parsed value, or raises the error of the parse. -/
def Handlers.applying (f : Value → Action W Value) : Handlers W where
  ok v _ := f v
  err e _ := .raise (.noParse e)

/-- This is pure if the function is. -/
theorem Handlers.pure_applying {f : Value → Action W Value}
    (pure : ∀ k : Pairing, k.Functions Pairing.Like f f) (user : Value) :
    (Handlers.applying f).Pure user := by
  intro k r r' _ replies
  cases replies with
  | ok d hv _ => exact (pure k.pairing _ _ _ (.refl _) hv).uniform
  | err d he _ => exact .refuse he

/-- Giving the value itself is pure. -/
theorem Handlers.pure_value (user : Value) : (Handlers.value : Handlers W).Pure user :=
  pure_applying (fun _ _ _ _ _ hv => .done hv) user

end ResumableParsing
