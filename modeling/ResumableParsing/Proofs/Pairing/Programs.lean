import ResumableParsing.Proofs.Correspondence.Steps
import ResumableParsing.Proofs.Pairing.Building

/-!
# Corresponding programs of the caller

Whatever two runs look like otherwise: if corresponding streams have corresponding rests, and new
lazy cells with corresponding tails belong together, then everything that is put together from such
steps comes to corresponding ends. Streams are read into lists and put after one another, results in
sequence are joined, and pure programs of the caller run, alike.

* `Correspondence.Reads`: rests and lazy cells correspond
* `Correspondence.Reads.toList`, `Correspondence.Reads.append`: reading and making streams
* `Correspondence.Reads.action`: programs of the caller
* `Correspondence.Reads.join`: the results of parsers in sequence
* `Correspondence.Pairs`: values and parsers correspond as the pairing says
* `Correspondence.Pairs.found`, `Correspondence.Pairs.binders`: so do parsers and what is built
-/

namespace ResumableParsing

variable {W α β : Type}

/-- Streams that a pairing relates are read alike, and lazy cells are made alike. -/
structure Correspondence.Reads (C : Correspondence W) (pairing : C.World → Pairing) : Prop
    extends C.Ordered where
  /-- More belongs together in larger worlds. -/
  pairing_le : ∀ {w w'}, C.Le w w' → (pairing w).Le (pairing w')
  /-- Serial numbers are drawn on both sides. -/
  serial : ∀ w, C.Runs w (fun _ _ _ => True) Eval.serial Eval.serial
  /-- The rests of corresponding streams correspond. -/
  rest : ∀ {w s t}, (pairing w).Streams s t →
    C.Runs w (fun w' => (pairing w').Streams) s.rest t.rest
  /-- So do lazy cells with corresponding tails. -/
  lazyCell : ∀ {w v u x y}, (pairing w).Like v u → x.Paired (pairing w) y →
    C.Runs w (fun w' => (pairing w').Streams) (Stream.lazyCell v x) (Stream.lazyCell u y)

namespace Correspondence.Reads

variable {C : Correspondence W} {pairing : C.World → Pairing} (hC : C.Reads pairing)
  {w w' : C.World} {s t : Stream Value}

include hC

/-! ## Streams -/

theorem streams (h : ∀ w', C.Le w w' → (pairing w').Streams s t) :
    C.Runs w (fun w' => (pairing w').Streams) (pure s) (pure t) := hC.pure h

theorem isEmpty (h : (pairing w).Streams s t) :
    C.Runs w (fun _ a b => a = b) s.isEmpty t.isEmpty := by
  obtain ⟨b, hs, ht⟩ := h.isEmpty_eq (W := W)
  rw [hs, ht]
  exact hC.pure fun _ _ => rfl

theorem first (h : (pairing w).Streams s t) :
    C.Runs w (fun w' => (pairing w').Like) s.first t.first := by
  rcases h.first_eq (W := W) with ⟨v, u, hs, ht, hv⟩ | ⟨f, hs, ht⟩
  · rw [hs, ht]
    exact hC.pure fun _ hle => hv.mono (hC.pairing_le hle)
  · rw [hs, ht]
    exact hC.fault f

theorem append {a b c d : Stream Value} (h : (pairing w).Streams a c)
    (h' : (pairing w).Streams b d) :
    C.Runs w (fun w' => (pairing w').Streams) (a.append b) (c.append d) := by
  refine hC.bind (composed_isEmpty a) (hC.isEmpty h) ?_
  rintro w₁ empty _ hle rfl
  have h := h.mono (hC.pairing_le hle)
  have h' := h'.mono (hC.pairing_le hle)
  split
  · exact hC.pure fun _ hle' => h'.mono (hC.pairing_le hle')
  · refine hC.bind (composed_first a) (hC.first h) fun w₂ v u hle' hv => ?_
    have hle' := hC.pairing_le hle'
    exact hC.lazyCell hv (.append (h.mono hle') (h'.mono hle'))

theorem consCell {v u : Value} (hv : (pairing w).Like v u) (hs : (pairing w).Streams s t) :
    C.Runs w (fun w' => (pairing w').Streams) (Stream.consCell v s) (Stream.consCell u t) := by
  refine hC.bind .serial (hC.serial w) fun w₁ _ _ hle _ => hC.pure fun w₂ hle' => ?_
  have hle := hC.pairing_le (hC.trans hle hle')
  exact .cons (hv.mono hle) (hs.mono hle)

theorem asStream {s t : Source} (h : (pairing w).Sources s t) :
    C.Runs w (fun w' => (pairing w').Streams) s.asStream t.asStream := by
  cases h with
  | none => exact hC.pure fun _ _ => .nil
  | stream h => exact hC.pure fun _ hle => h.mono (hC.pairing_le hle)
  | sequence items settled =>
    refine hC.bind .serial (hC.serial w) fun _ _ _ _ _ => hC.pure fun _ _ => ?_
    exact Pairing.streams_view items settled 0 _ _

theorem ofValue {v u : Value} (h : (pairing w).Like v u) :
    C.Runs w (fun w' => (pairing w').Streams) (Stream.ofValue v) (Stream.ofValue u) := by
  have given {s t : Stream Value} (h : (pairing w).Streams s t) :
      C.Runs w (fun w' => (pairing w').Streams) (Stream.ofValue (.stream s))
        (Stream.ofValue (.stream t)) :=
    hC.pure fun _ hle => h.mono (hC.pairing_le hle)
  cases h with
  | same settled =>
    cases v with
    | stream s => exact given (.same settled)
    | _ => exact hC.fault _
  | nil => exact given .nil
  | cons hv hs => exact given (.cons hv hs)
  | lazy hv ht => exact given (.lazy hv ht)
  | view items h => exact given (.view items h)
  | _ => exact hC.fault _

theorem toListFrom (n : Nat) {vs us : List Value} (hv : List.Forall₂ (pairing w).Like vs us)
    (h : (pairing w).Streams s t) :
    C.Runs w (fun w' => List.Forall₂ (pairing w').Like) (Stream.toListFrom n vs s)
      (Stream.toListFrom n us t) := by
  induction n generalizing w vs us s t with
  | zero => exact runs_exhausted
  | succ n ih =>
    refine hC.bind (composed_isEmpty s) (hC.isEmpty h) ?_
    rintro w₁ empty _ hle rfl
    have hle := hC.pairing_le hle
    have hv := hv.imp fun _ _ => Pairing.Like.mono hle
    have h := h.mono hle
    split
    · refine hC.pure fun _ hle' => List.forall₂_reverse_iff.mpr ?_
      exact hv.imp fun _ _ => Pairing.Like.mono (hC.pairing_le hle')
    · refine hC.bind (composed_first s) (hC.first h) fun w₂ v u h₁ hvu => ?_
      have h₁ := hC.pairing_le h₁
      refine hC.bind (composed_rest s) (hC.rest (h.mono h₁)) fun w₃ s t h₂ hs => ?_
      have h₂ := hC.pairing_le h₂
      exact ih (.cons (hvu.mono h₂) (hv.imp fun _ _ => Pairing.Like.mono (h₁.trans h₂))) hs

theorem toList (h : (pairing w).Streams s t) :
    C.Runs w (fun w' => List.Forall₂ (pairing w').Like) s.toList t.toList := by
  refine runs_loop (fun n => composed_toListFrom n [] s) (fun n => composed_toListFrom n [] t)
    (fun n => exhausted_or_toListFrom n [] t) fun n => hC.toListFrom n .nil h

/-! ## Programs of the caller -/

/-- Programs of the caller that ask corresponding things come to corresponding ends, also if more
belongs together by now. -/
theorem action_of_le {R : Pairing → α → β → Prop}
    (hR : ∀ (k l : Pairing) (a : α) (b : β), k.Le l → R k a b → R l a b) {k : Pairing}
    {a : Action W α} {b : Action W β} (h : a.Paired R k b) (hle : k.Le (pairing w)) :
    C.Runs w (fun w' => R (pairing w')) a.run b.run := by
  induction h generalizing w with
  | done h => exact hC.pure fun _ hle' => hR _ _ _ _ (hle.trans (hC.pairing_le hle')) h
  | raise f => exact hC.fault f
  | serial _ ih =>
    exact hC.bind .serial (hC.serial w) fun w' a b hle' _ =>
      ih a b (hle.trans (hC.pairing_le hle'))
  | asStream hs _ ih =>
    exact hC.bind (composed_asStream _) (hC.asStream (hs.mono hle)) fun w' s t hle' h =>
      ih _ s t (hle.trans (hC.pairing_le hle')) h (.refl _)
  | isEmpty hs _ ih =>
    refine hC.bind (composed_isEmpty _) (hC.isEmpty (hs.mono hle)) ?_
    rintro w' b _ hle' rfl
    exact ih b (hle.trans (hC.pairing_le hle'))
  | first hs _ ih =>
    exact hC.bind (composed_first _) (hC.first (hs.mono hle)) fun w' v u hle' h =>
      ih _ v u (hle.trans (hC.pairing_le hle')) h (.refl _)
  | rest hs _ ih =>
    exact hC.bind (composed_rest _) (hC.rest (hs.mono hle)) fun w' s t hle' h =>
      ih _ s t (hle.trans (hC.pairing_le hle')) h (.refl _)
  | append ha hb _ ih =>
    exact hC.bind (composed_append _ _) (hC.append (ha.mono hle) (hb.mono hle))
      fun w' s t hle' h => ih _ s t (hle.trans (hC.pairing_le hle')) h (.refl _)
  | toList hs _ ih =>
    exact hC.bind (composed_toList _) (hC.toList (hs.mono hle)) fun w' vs us hle' h =>
      ih _ vs us (hle.trans (hC.pairing_le hle')) h (.refl _)
  | render hv _ ih =>
    refine hC.get fun w' σ τ hle' _ => ?_
    rw [Store.render, Store.render, (hv.mono hle).render σ.names τ.names]
    exact ih _ (hle.trans (hC.pairing_le hle'))

theorem action {R : Pairing → α → β → Prop}
    (hR : ∀ (k l : Pairing) (a : α) (b : β), k.Le l → R k a b → R l a b) {a : Action W α}
    {b : Action W β} (h : a.Paired R (pairing w) b) :
    C.Runs w (fun w' => R (pairing w')) a.run b.run := hC.action_of_le hR h (.refl _)

/-! ## Results in sequence -/

/-- Corresponding results are joined to corresponding results. -/
theorem join (c : Combine) {v u v' u' : Value} (h : (pairing w).Like v u)
    (h' : (pairing w).Like v' u') :
    C.Runs w (fun w' => (pairing w').Like) (c.join v v') (c.join u u') := by
  have given {a b : Value} (h : (pairing w).Like a b) :
      C.Runs w (fun w' => (pairing w').Like) (Pure.pure a) (Pure.pure b) :=
    hC.pure fun _ hle => h.mono (hC.pairing_le hle)
  have made {x y : Eval W (Stream Value)} (hx : Composed x)
      (h : C.Runs w (fun w' => (pairing w').Streams) x y) :
      C.Runs w (fun w' => (pairing w').Like) (do return .stream (← x)) (do return .stream (← y)) :=
    hC.bind hx h fun _ _ _ _ hs => hC.pure fun _ hle => hs.mono (hC.pairing_le hle)
  cases c with
  | first => exact given h
  | second => exact given h'
  | group =>
    have joined {v w : Value} : Combine.group.join (W := W) v w = Pure.pure (v.beside w) := by
      cases v <;> rfl
    rw [joined, joined]
    exact given (h.beside h')
  | cons =>
    -- What is put in front of something that is no stream has a tail that raises a fault.
    have cell {s t : Stream Value} (hs : (pairing w).Streams s t) :=
      made (composed_consCell v s) (hC.consCell h hs)
    have refused := made (composed_lazyCell v (.action (.raise .notAStream)))
      (hC.lazyCell h (.refused .notAStream))
    cases h' with
    | same settled =>
      cases v' with
      | stream s => exact cell (.same settled)
      | _ => exact refused
    | nil => exact cell .nil
    | cons hv hs => exact cell (.cons hv hs)
    | lazy hv ht => exact cell (.lazy hv ht)
    | view items settled => exact cell (.view items settled)
    | _ => exact refused
  | append =>
    refine hC.bind (composed_ofValue v) (hC.ofValue h) fun w₁ a b hle hab => ?_
    have h' := h'.mono (hC.pairing_le hle)
    refine hC.bind (composed_ofValue v') (hC.ofValue h') fun w₂ c d hle' hcd => ?_
    refine hC.bind (composed_append a c) (hC.append (hab.mono (hC.pairing_le hle')) hcd)
      fun _ _ _ _ hs => ?_
    exact hC.pure fun _ hle => hs.mono (hC.pairing_le hle)

end Correspondence.Reads

/-! ## Functions of the caller, and parsers -/

/-- Values and parsers correspond as a pairing says, and so do functions of the caller. -/
structure Correspondence.Pairs (C : Correspondence W) (pairing : C.World → Pairing) : Prop
    extends C.Reads pairing where
  /-- Values correspond. -/
  values : C.Values = fun w => (pairing w).Like
  /-- Tokens are the same, and they are data. -/
  tokens : C.Tokens = fun _ v u => v = u ∧ v.Settled
  /-- Parsers correspond. -/
  parsers : C.Parsers = fun w => (pairing w).parsers
  /-- Functions that give grammars correspond. -/
  functions : C.Binders = fun w => (pairing w).Functions Grammar.Paired
  /-- The stores agree about the parsers. -/
  defines : ∀ {w σ τ}, C.Stores w σ τ → (pairing w).Defines σ τ
  /-- New parsers may be added on both sides. -/
  made : ∀ {w l σ τ σ' τ'}, C.Stores w σ τ → (pairing w).Made l σ τ σ' τ' →
    ∃ w', C.During w w' ∧ C.Stores w' σ' τ' ∧ pairing w' = l

namespace Correspondence.Pairs

variable {C : Correspondence W} {pairing : C.World → Pairing} (hC : C.Pairs pairing)
  {w w' : C.World}

include hC

/-- Functions that give values correspond. -/
theorem maps {f g : Value → Action W Value} (h : (pairing w).Functions Pairing.Like f g) :
    C.Functions w C.Values (fun v => (f v).run) fun v => (g v).run := by
  rw [Correspondence.Functions, hC.values]
  intro w' v u hle hv
  exact hC.action (fun _ _ _ _ hle h => h.mono hle) (h _ v u (hC.pairing_le hle) hv)

/-- Building corresponding parsers. -/
theorem builds {Q : Pairing → α → β → Prop} {b : Build W α} {c : Build W β}
    (h : (pairing w).Builds Q b c) :
    C.Runs w (fun w' => Q (pairing w')) (Eval.ofBuild b) (Eval.ofBuild c) := by
  intro w₁ σ τ r hle hs hr
  cases hr.unique (comes_of_forall (fun _ => rfl) not_exhausted_ok)
  obtain ⟨l, made, hq⟩ := h _ σ τ (hC.pairing_le hle) (hC.defines hs)
  obtain ⟨w₂, during, hs', rfl⟩ := hC.made hs made
  exact ⟨_, comes_of_forall (fun _ => rfl) not_exhausted_ok, w₂, during, hs', hq⟩

/-- Building the grammars that functions of the caller give. -/
theorem binders {f g : Value → Action W (Grammar W)} (h : C.Binders w f g) :
    C.Functions w C.Parsers (fun v => Correspondence.built (f v))
      fun v => Correspondence.built (g v) := by
  rw [hC.functions] at h
  rw [Correspondence.Functions, hC.values, hC.parsers]
  intro w' v u hle hv
  have paired := (h _ v u (hC.pairing_le hle) hv).imp fun l x y _ hxy => Grammar.Paired.builds hxy
  refine hC.bind (composed_action _)
    (hC.action (fun _ _ _ _ hle h => h.mono hle) paired) fun w'' x y _ hxy => ?_
  exact hC.builds hxy

theorem codes {c d : Code W} (h : c.Paired (pairing w) d) : C.Codes w c d := by
  have parser {p q : ParserId} (h : (pairing w).parsers p q) : C.Parsers w p q := by
    rwa [hC.parsers]
  have value {v u : Value} (h : (pairing w).Like v u) : C.Values w v u := by
    rwa [hC.values]
  induction h with
  | some hp hf =>
    refine .some (parser hp) ?_
    rw [hC.tokens]
    rintro w' v _ hle ⟨rfl, settled⟩
    exact hC.action (fun _ _ _ _ _ h => h) (hf _ v (hC.pairing_le hle) settled)
  | pure hv => exact .pure (value hv)
  | fail m => exact .fail m
  | finished hp => exact .finished (parser hp)
  | undeclared => exact .undeclared
  | seq c hp hq => exact .seq c (parser hp) (parser hq)
  | alt hp hq => exact .alt (parser hp) (parser hq)
  | map hp hf => exact .map (parser hp) (hC.maps hf)
  | bind hp hf =>
    refine .bind (parser hp) ?_
    rwa [hC.functions]
  | ignore _ ih => exact .ignore ih
  | attempt hp => exact .attempt (parser hp)
  | many hself hp => exact .many (parser hself) (parser hp)
  | method hp => exact .method (parser hp)

/-- Corresponding parsers are there, and they do corresponding things. -/
theorem found {σ τ : Store W} {p q : ParserId} (hs : C.Stores w σ τ) (h : C.Parsers w p q) :
    ∃ c d : Cell W, σ.parsers[p.index]? = some c ∧ τ.parsers[q.index]? = some d ∧
      c.name = d.name ∧ Option.Rel (C.Codes w) c.direct d.direct ∧
      Option.Rel (C.Codes w) c.logged d.logged := by
  rw [hC.parsers] at h
  obtain ⟨c, d, hc, hd, paired⟩ := (hC.defines hs).parsers p q h
  exact ⟨c, d, hc, hd, paired.name, rel_imp (fun _ _ h => hC.codes h) paired.direct,
    rel_imp (fun _ _ h => hC.codes h) paired.logged⟩

end Correspondence.Pairs

end ResumableParsing
