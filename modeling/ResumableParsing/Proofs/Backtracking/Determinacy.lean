import ResumableParsing.Proofs.Backtracking.Bridges

/-!
# The meaning of a grammar is unique

From two stores that agree, a grammar of pure functions derives the same thing of a list of tokens:
a failure, or a success after as many tokens with corresponding values. So nothing is derived of a
repetition whose part succeeds without taking a token: it would go on for ever.

* `Bridge.Same`: results that are the same
* `Grammar.Derives.unique`: a grammar derives one thing of a list of tokens
* `Grammar.Derives.pos_of_many`: the items of a repetition take tokens
-/

namespace ResumableParsing

variable {W : Type}

/-- Both fail, or both succeed after as many tokens with corresponding values. -/
inductive Bridge.Same (b : Bridge) : Option (Value × Nat) → Option (Value × Nat) → Prop where
  | none : Same b none none
  | some {v w : Value} {n : Nat} : b.Like v w → Same b (.some (v, n)) (.some (w, n))

section

variable {b : Bridge} {known : Declarations W} {g p q : Grammar W} {xs : List Value}
  {r r' : Option (Value × Nat)} {σ σ' υ υ' : Store W} {v x : Value} {n : Nat}

theorem settled_drop (data : ∀ x ∈ xs, x.Settled) (x : Value) (hx : x ∈ xs.drop n) : x.Settled :=
  data x (List.mem_of_mem_drop hx)

/-- A grammar of pure functions derives one thing of a list of tokens. -/
theorem Grammar.Derives.unique (h : g.Derives known xs σ r σ')
    (parts : ∀ q g, known q = .some g → g.Part known) (hg : g.Each (Grammar.Backtracking known))
    (data : ∀ x ∈ xs, x.Settled) (joins : b.Joins σ υ) (h' : g.Derives known xs υ r' υ') :
    ∃ c, b.Le c ∧ c.Joins σ' υ' ∧ c.Same r r' := by
  -- By induction on the first derivation: the second one ends with the same rule, as the results
  -- of the first part cannot differ.
  induction h generalizing b υ υ' r' with
  | ref hq derives ih =>
    cases h' with
    | ref hq' h' =>
      cases hq.symm.trans hq'
      refine ih ((parts _ _ hq).resolve_left ?_) data joins h'
      rintro rfl
      cases derives
  | accept test =>
    have settled := data _ List.mem_cons_self
    obtain ⟨_, c, test', hle, joins'⟩ := joins.tests hg.here settled test
    cases h' with
    | accept test'' =>
      cases test'.unique test''
      exact ⟨c, hle, joins', .some (.same settled)⟩
    | reject test'' => cases test'.unique test''
  | reject test =>
    obtain ⟨_, c, test', hle, joins'⟩ := joins.tests hg.here (data _ List.mem_cons_self) test
    cases h' with
    | accept test'' => cases test'.unique test''
    | reject test'' =>
      cases test'.unique test''
      exact ⟨c, hle, joins', .none⟩
  | lacking =>
    cases h' with
    | lacking => exact ⟨b, .refl b, joins, .none⟩
  | equal e =>
    cases h' with
    | equal _ => exact ⟨b, .refl b, joins, .some (.same (data _ List.mem_cons_self))⟩
    | unequal e' => cases e.symm.trans e'
  | unequal e =>
    cases h' with
    | unequal _ => exact ⟨b, .refl b, joins, .none⟩
    | equal e' => cases e.symm.trans e'
  | missing =>
    cases h' with
    | missing => exact ⟨b, .refl b, joins, .none⟩
  | pure =>
    cases h' with
    | pure => exact ⟨b, .refl b, joins, .some (.same hg.here)⟩
  | fail =>
    cases h' with
    | fail => exact ⟨b, .refl b, joins, .none⟩
  | finished =>
    cases h' with
    | finished => exact ⟨b, .refl b, joins, .some (.same .none)⟩
  | unfinished =>
    cases h' with
    | unfinished => exact ⟨b, .refl b, joins, .none⟩
  | plus _ _ ihp ihq =>
    have first := hg.operand List.mem_cons_self
    have second := hg.operand (List.mem_cons_of_mem _ List.mem_cons_self)
    cases h' with
    | plus hp hq =>
      obtain ⟨c, hle, joins, ⟨⟩ | hv⟩ := ihp first data joins hp
      obtain ⟨d, hle', joins, ⟨⟩ | hw⟩ := ihq second (settled_drop data) joins hq
      exact ⟨d, hle.trans hle', joins, .some ((hv.mono hle').beside hw)⟩
    | plusFirst hp =>
      obtain ⟨_, -, -, ⟨⟩⟩ := ihp first data joins hp
    | plusSecond hp hq =>
      obtain ⟨_, -, joins, ⟨⟩ | -⟩ := ihp first data joins hp
      obtain ⟨_, -, -, ⟨⟩⟩ := ihq second (settled_drop data) joins hq
  | plusFirst _ ih =>
    have first := hg.operand List.mem_cons_self
    cases h' with
    | plus hp _ => obtain ⟨_, -, -, ⟨⟩⟩ := ih first data joins hp
    | plusFirst hp => exact ih first data joins hp
    | plusSecond hp _ => obtain ⟨_, -, -, ⟨⟩⟩ := ih first data joins hp
  | plusSecond _ _ ihp ihq =>
    have first := hg.operand List.mem_cons_self
    have second := hg.operand (List.mem_cons_of_mem _ List.mem_cons_self)
    cases h' with
    | plus hp hq =>
      obtain ⟨_, -, joins, ⟨⟩ | -⟩ := ihp first data joins hp
      obtain ⟨_, -, -, ⟨⟩⟩ := ihq second (settled_drop data) joins hq
    | plusFirst hp =>
      obtain ⟨_, -, -, ⟨⟩⟩ := ihp first data joins hp
    | plusSecond hp hq =>
      obtain ⟨c, hle, joins, ⟨⟩ | -⟩ := ihp first data joins hp
      obtain ⟨d, hle', joins, same⟩ := ihq second (settled_drop data) joins hq
      exact ⟨d, hle.trans hle', joins, same⟩
  | nothing =>
    cases h' with
    | nothing => exact ⟨b, .refl b, joins, .some .nil⟩
  | sequence _ _ ihp ihq =>
    have first := hg.operand List.mem_cons_self
    cases h' with
    | sequence hp hq =>
      obtain ⟨c, hle, joins, ⟨⟩ | hv⟩ := ihp first data joins hp
      obtain ⟨d, hle', joins, ⟨⟩ | hs⟩ := ihq (hg.rest trivial) (settled_drop data) joins hq
      exact ⟨d, hle.trans hle', joins, .some (.cons (hv.mono hle') hs)⟩
    | sequenceFirst hp => obtain ⟨_, -, -, ⟨⟩⟩ := ihp first data joins hp
    | sequenceRest hp hq =>
      obtain ⟨_, -, joins, ⟨⟩ | -⟩ := ihp first data joins hp
      obtain ⟨_, -, -, ⟨⟩⟩ := ihq (hg.rest trivial) (settled_drop data) joins hq
  | sequenceFirst _ ih =>
    have first := hg.operand List.mem_cons_self
    cases h' with
    | sequence hp _ => obtain ⟨_, -, -, ⟨⟩⟩ := ih first data joins hp
    | sequenceFirst hp => exact ih first data joins hp
    | sequenceRest hp _ => obtain ⟨_, -, -, ⟨⟩⟩ := ih first data joins hp
  | sequenceRest _ _ ihp ihq =>
    have first := hg.operand List.mem_cons_self
    cases h' with
    | sequence hp hq =>
      obtain ⟨_, -, joins, ⟨⟩ | -⟩ := ihp first data joins hp
      obtain ⟨_, -, -, ⟨⟩⟩ := ihq (hg.rest trivial) (settled_drop data) joins hq
    | sequenceFirst hp => obtain ⟨_, -, -, ⟨⟩⟩ := ihp first data joins hp
    | sequenceRest hp hq =>
      obtain ⟨c, hle, joins, ⟨⟩ | -⟩ := ihp first data joins hp
      obtain ⟨d, hle', joins, same⟩ := ihq (hg.rest trivial) (settled_drop data) joins hq
      exact ⟨d, hle.trans hle', joins, same⟩
  | map _ given ih =>
    have first := hg.operand List.mem_cons_self
    cases h' with
    | map hp given' =>
      obtain ⟨c, hle, joins, ⟨⟩ | hv⟩ := ih first data joins hp
      obtain ⟨_, _, d, run, hle', joins, hx⟩ := joins.maps hg.here hv given
      cases run.unique given'
      exact ⟨d, hle.trans hle', joins, .some hx⟩
    | mapFails hp => obtain ⟨_, -, -, ⟨⟩⟩ := ih first data joins hp
  | mapFails _ ih =>
    have first := hg.operand List.mem_cons_self
    cases h' with
    | map hp _ => obtain ⟨_, -, -, ⟨⟩⟩ := ih first data joins hp
    | mapFails hp => exact ih first data joins hp
  | listed _ given ih =>
    have first := hg.operand List.mem_cons_self
    cases h' with
    | listed hp given' =>
      obtain ⟨c, hle, joins, ⟨⟩ | hv⟩ := ih first data joins hp
      obtain ⟨_, _, d, run, hle', joins, hx⟩ := joins.maps (fun _ => functions_listOf) hv given
      cases run.unique given'
      exact ⟨d, hle.trans hle', joins, .some hx⟩
    | listedFails hp => obtain ⟨_, -, -, ⟨⟩⟩ := ih first data joins hp
  | listedFails _ ih =>
    have first := hg.operand List.mem_cons_self
    cases h' with
    | listed hp _ => obtain ⟨_, -, -, ⟨⟩⟩ := ih first data joins hp
    | listedFails hp => exact ih first data joins hp
  | left _ ih =>
    have first := hg.operand List.mem_cons_self
    cases h' with
    | left hp => exact ih first data joins hp
    | right hp _ => obtain ⟨_, -, -, ⟨⟩⟩ := ih first data joins hp
  | right _ _ ihp ihq =>
    have first := hg.operand List.mem_cons_self
    have second := hg.operand (List.mem_cons_of_mem _ List.mem_cons_self)
    cases h' with
    | left hp => obtain ⟨_, -, -, ⟨⟩⟩ := ihp first data joins hp
    | right hp hq =>
      obtain ⟨c, hle, joins, -⟩ := ihp first data joins hp
      obtain ⟨d, hle', joins, same⟩ := ihq second data joins hq
      exact ⟨d, hle.trans hle', joins, same⟩
  | present _ ih =>
    have first := hg.operand List.mem_cons_self
    cases h' with
    | present hp => exact ih first data joins hp
    | absent hp => obtain ⟨_, -, -, ⟨⟩⟩ := ih first data joins hp
  | absent _ ih =>
    have first := hg.operand List.mem_cons_self
    cases h' with
    | present hp => obtain ⟨_, -, -, ⟨⟩⟩ := ih first data joins hp
    | absent hp =>
      obtain ⟨c, hle, joins, -⟩ := ih first data joins hp
      exact ⟨c, hle, joins, .some (.same hg.here.2)⟩
  | stop _ ih =>
    have first := hg.operand List.mem_cons_self
    cases h' with
    | stop hp =>
      obtain ⟨c, hle, joins, -⟩ := ih first data joins hp
      exact ⟨c, hle, joins, .some .nil⟩
    | more hp _ => obtain ⟨_, -, -, ⟨⟩⟩ := ih first data joins hp
  | more _ _ ihp ihq =>
    have first := hg.operand List.mem_cons_self
    cases h' with
    | stop hp => obtain ⟨_, -, -, ⟨⟩⟩ := ihp first data joins hp
    | more hp hq =>
      obtain ⟨c, hle, joins, ⟨⟩ | hv⟩ := ihp first data joins hp
      obtain ⟨d, hle', joins, ⟨⟩ | hs⟩ := ihq hg (settled_drop data) joins hq
      exact ⟨d, hle.trans hle', joins, .some (.cons (hv.mono hle') hs)⟩
  | attempt _ ih =>
    have first := hg.operand List.mem_cons_self
    cases h' with
    | attempt hp => exact ih first data joins hp

/-- Derivations only run programs of the caller. -/
theorem Grammar.Derives.logging (h : g.Derives known xs σ r σ') : σ'.logging = σ.logging := by
  have kept {α : Type} {a : Action W α} {x : α} {σ τ : Store W} (run : a.run.Comes σ (.ok x τ)) :
      τ.logging = σ.logging := ((composed_action a).grows_of_comes run).logging
  induction h with
  | accept run => exact kept run
  | reject run => exact kept run
  | map _ run ih => exact (kept run).trans ih
  | listed _ run ih => exact (kept run).trans ih
  | plus _ _ ihp ihq => exact ihq.trans ihp
  | plusSecond _ _ ihp ihq => exact ihq.trans ihp
  | sequence _ _ ihp ihq => exact ihq.trans ihp
  | sequenceRest _ _ ihp ihq => exact ihq.trans ihp
  | right _ _ ihp ihq => exact ihq.trans ihp
  | more _ _ ihp ihq => exact ihq.trans ihp
  | _ => first | rfl | assumption

/-- A repetition means nothing where its part succeeds without taking a token. -/
theorem Grammar.Derives.pos_of_many (h : (Grammar.many g).Derives known xs σ r σ')
    (parts : ∀ q g, known q = .some g → g.Part known) (hg : g.Each (Grammar.Backtracking known))
    (data : ∀ x ∈ xs, x.Settled) (same : υ.logging = σ.logging)
    (item : g.Derives known xs υ (.some (v, n)) υ') : 0 < n := by
  generalize hm : Grammar.many g = m at h
  have joins {σ : Store W} (same : υ.logging = σ.logging) :
      (⟨fun _ _ => False, .empty⟩ : Bridge).Joins υ σ := Bridge.joins_start (.empty υ) same
  induction h with
  | stop fails =>
    cases hm
    obtain ⟨_, -, -, ⟨⟩⟩ := item.unique parts hg data (joins same) fails
  | more one rest _ ih =>
    cases hm
    obtain ⟨_, -, -, ⟨⟩ | -⟩ := item.unique parts hg data (joins same) one
    by_contra hn
    obtain rfl : n = 0 := by omega
    exact hn (ih data (same.trans one.logging.symm) item rfl)
  | _ => cases hm

end

end ResumableParsing
