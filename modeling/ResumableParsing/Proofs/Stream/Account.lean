import Mathlib.Data.List.Chain
import Mathlib.Logic.Function.Basic
import ResumableParsing.Proofs.Stream.Questions

/-!
# The cells of an iterator

An iterator fills cells, which are made one after another. An account of them says which of its
elements stands in which cell, and how the cells lead to one another; it is kept when a cell is
made, takes an element, or finds the end.

* `Store.over`: what is known of the cells of an iterator
* `Leads`, `Account`: the cells that hold an element, and the elements that have been given
* `Account.make`, `Account.take`, `Account.finish`: what becomes of the account
-/

namespace ResumableParsing

variable {W : Type}

/-! ## The cells of an iterator -/

/-- What is known of a cell. -/
abbrev CellSlot := Slot (Option (Value × Stream Value))

/-- What is known of the cells that are filled from an iterator. -/
def Store.over (σ : Store W) (it : IteratorId) (c : CellId) : Option CellSlot :=
  match σ.cells[c.index]? with
  | some m => if m.thunk = it then some m.slot else none
  | none => none

section

variable {σ τ : Store W} {it : IteratorId} {c : CellId} {slot slot' : CellSlot}

theorem Store.over_eq_some : σ.over it c = some slot ↔ c.Is σ it slot := by
  rw [Store.over, CellId.Is]
  constructor
  · intro h
    split at h
    · next m found =>
      split at h
      · next same =>
        cases h
        rw [found, ← same]
      · cases h
    · cases h
  · intro h
    rw [h]
    exact if_pos rfl

/-- Something else is known of a cell. -/
theorem Store.over_put (h : σ.over it c = some slot) (slot' : CellSlot) :
    (Shelf.cells.put c.index slot' σ).over it = Function.update (σ.over it) c (some slot') := by
  have found : σ.cells[c.index]? = some ⟨it, slot⟩ := over_eq_some.mp h
  funext d
  rw [Store.over, find_put_cell]
  by_cases same : c = d
  · subst same
    rw [if_pos rfl, found, Function.update_self]
    exact if_pos rfl
  · rw [if_neg same, Function.update_of_ne (Ne.symm same), Store.over]

/-- There is another cell. -/
theorem Store.over_push (σ : Store W) (it : IteratorId) :
    { σ with cells := σ.cells.push ⟨it, .unset⟩ }.over it =
      Function.update (σ.over it) ⟨σ.cells.size⟩ (some .unset) := by
  funext d
  change (match (σ.cells.push ⟨it, .unset⟩)[d.index]? with
    | some m => if m.thunk = it then some m.slot else none
    | none => none) = _
  rw [Array.getElem?_push]
  by_cases same : d = ⟨σ.cells.size⟩
  · subst same
    rw [if_pos rfl, Function.update_self]
    exact if_pos rfl
  · have other : d.index ≠ σ.cells.size := fun e => same (congrArg CellId.mk e)
    rw [if_neg other, Function.update_of_ne same, Store.over]

/-- A cell that has not been made yet is not over the iterator. -/
theorem Store.over_size (σ : Store W) (it : IteratorId) : σ.over it ⟨σ.cells.size⟩ = none := by
  rw [Store.over, Array.getElem?_eq_none (Nat.le_refl _)]

theorem Store.over_busy (h : σ.over it c = some slot) :
    (c.busy σ).over it = Function.update (σ.over it) c (some .busy) := over_put h .busy

end

/-! ## Accounts -/

/-- Of one cell an element is known, and the other one holds what comes after it. -/
def Leads (view : CellId → Option CellSlot) (c d : CellId) : Prop :=
  ∃ v, view c = some (.known (some (v, .pulled d)))

/-- The cells that have taken an element from an iterator, in the order in which they did so, with
the elements that it has given. Here `view` says what is known of the cells, `made` are the first
cells of the streams, and `asked` are the cells that have been asked. -/
structure Account (view : CellId → Option CellSlot) (made asked : List CellId)
    (taken : List Value) (cells : List CellId) : Prop where
  /-- Each cell has taken one element. -/
  nodup : cells.Nodup
  /-- It holds that element. -/
  elements : List.Forall₂ (fun c v => ∃ t, view c = some (.known (some (v, t)))) cells taken
  /-- No other cell holds an element. -/
  complete : ∀ c v t, view c = some (.known (some (v, t))) → c ∈ cells
  /-- Nothing is known of a cell that has not been asked. -/
  asked : ∀ c o, view c = some (.known o) → c ∈ asked
  /-- No cell is left in the middle. -/
  idle : ∀ c, view c ≠ some .busy
  /-- What comes after an element is held by another cell. -/
  next : ∀ c v t, view c = some (.known (some (v, t))) →
    ∃ d, t = .pulled d ∧ (view d).isSome
  /-- Along each stream the elements stand in the order in which they have been taken. -/
  order : ∀ ds, List.IsChain (Leads view) ds → (∀ d ∈ ds, d ∈ cells) → ds.Sublist cells
  /-- Without any stream there are no cells. -/
  rooted : made = [] → ∀ c, view c = none
  /-- If there is only one stream, its cells, from the first one on, hold the elements one by
  one. -/
  single : ∀ c, made = [c] → ∃ last, List.IsChain (Leads view) (cells ++ [last]) ∧
    (cells ++ [last]).head? = some c ∧ ∀ d, (view d).isSome → d ∈ cells ∨ d = last

section

variable {view : CellId → Option CellSlot} {made asked cells : List CellId} {taken : List Value}
  {c d : CellId} {v : Value}

/-- As many elements have been taken as there are cells that hold one. -/
theorem Account.length (h : Account view made asked taken cells) : cells.length = taken.length :=
  h.elements.length_eq

/-- Before any stream is made. -/
theorem Account.start (h : ∀ c, view c = none) : Account view [] [] [] [] where
  nodup := .nil
  elements := .nil
  complete c v t hc := by simp [h] at hc
  asked c o hc := by simp [h] at hc
  idle c hc := by simp [h] at hc
  next c v t hc := by simp [h] at hc
  order ds _ hds := by
    cases ds with
    | nil => exact .slnil
    | cons d ds => exact absurd (hds d List.mem_cons_self) (List.not_mem_nil)
  rooted _ := h
  single c hc := by cases hc

/-- Something is known of a cell that holds no element; it is not any that has taken one. -/
theorem Account.not_mem (h : Account view made asked taken cells) {slot : CellSlot}
    (hc : view c = some slot) (other : ∀ v t, slot ≠ .known (some (v, t))) : c ∉ cells := by
  intro mem
  obtain ⟨i, hi, rfl⟩ := List.getElem_of_mem mem
  obtain ⟨t, found⟩ := (List.forall₂_iff_get.mp h.elements).2 i hi (h.length ▸ hi)
  simp only [List.get_eq_getElem] at found
  rw [hc] at found
  exact other _ _ (Option.some.inj found)

/-- What is known of cells that hold no element does not matter to the order of the elements. -/
theorem Leads.congr {view' : CellId → Option CellSlot}
    (h : ∀ c o, view' c = some (.known (some o)) ↔ view c = some (.known (some o))) :
    Leads view' = Leads view := by
  funext c d
  exact propext (exists_congr fun v => h c (v, .pulled d))

/-- The first cell of another stream. -/
theorem Account.make (h : Account view made asked taken cells) (hd : view d = none) :
    Account (Function.update view d (some .unset)) (d :: made) asked taken cells := by
  have known (c : CellId) (o : Option (Value × Stream Value)) :
      Function.update view d (some .unset) c = some (.known o) ↔ view c = some (.known o) := by
    by_cases same : c = d
    · subst same
      simp [hd]
    · rw [Function.update_of_ne same]
  have leads := Leads.congr fun c o => known c (some o)
  constructor
  case nodup => exact h.nodup
  case elements => exact h.elements.imp fun c v ⟨t, hc⟩ => ⟨t, (known c _).mpr hc⟩
  case complete => exact fun c v t hc => h.complete c v t ((known c _).mp hc)
  case asked => exact fun c o hc => h.asked c o ((known c o).mp hc)
  case idle =>
    intro c
    by_cases same : c = d
    · simp [same]
    · simpa [same] using h.idle c
  case next =>
    intro c v t hc
    obtain ⟨e, rfl, some⟩ := h.next c v t ((known c _).mp hc)
    refine ⟨e, rfl, ?_⟩
    by_cases same : e = d
    · simp [same]
    · simpa [same] using some
  case order => exact leads ▸ h.order
  case rooted => exact fun none => absurd none (List.cons_ne_nil _ _)
  case single =>
    rintro c only
    obtain ⟨rfl, rfl⟩ := List.cons.inj only
    -- There has been no stream before, so no element has been taken.
    have empty := h.rooted rfl
    have none : cells = [] := by
      cases cells with
      | nil => rfl
      | cons c cells =>
        cases h.elements with
        | cons hc _ => simp [empty] at hc
    subst none
    refine ⟨d, .singleton d, rfl, fun e he => .inr ?_⟩
    by_contra other
    simp [other, empty] at he

/-- A cell has found the end. -/
theorem Account.finish (h : Account view made asked taken cells) (hc : view c = some .unset) :
    Account (Function.update view c (some (.known none))) made (c :: asked) taken cells := by
  -- The end is no element: which cells are known to hold one does not change.
  have known (d : CellId) (o : Value × Stream Value) :
      Function.update view c (some (.known none)) d = some (.known (some o)) ↔
        view d = some (.known (some o)) := by
    by_cases same : d = c
    · subst same
      simp [hc]
    · rw [Function.update_of_ne same]
  have isSome (d : CellId) :
      (Function.update view c (some (.known none)) d).isSome = (view d).isSome := by
    by_cases same : d = c
    · simp [same, hc]
    · rw [Function.update_of_ne same]
  have leads := Leads.congr known
  constructor
  case nodup => exact h.nodup
  case elements => exact h.elements.imp fun d v ⟨t, hd⟩ => ⟨t, (known d _).mpr hd⟩
  case complete => exact fun d v t hd => h.complete d v t ((known d _).mp hd)
  case asked =>
    intro d o hd
    by_cases same : d = c
    · exact same ▸ List.mem_cons_self
    · rw [Function.update_of_ne same] at hd
      exact List.mem_cons_of_mem c (h.asked d o hd)
  case idle =>
    intro d
    by_cases same : d = c
    · simp [same]
    · simpa [same] using h.idle d
  case next =>
    intro d v t hd
    obtain ⟨e, rfl, some⟩ := h.next d v t ((known d _).mp hd)
    exact ⟨e, rfl, (isSome e).trans some⟩
  case order => exact leads ▸ h.order
  case rooted =>
    intro none
    rw [h.rooted none c] at hc
    cases hc
  case single =>
    intro d only
    obtain ⟨last, chain, first, all⟩ := h.single d only
    exact ⟨last, leads ▸ chain, first, fun e he => all e ((isSome e).symm.trans he)⟩

/-! ## Taking an element -/

/-- What is known of the cells once `c` has taken the element `v`, and `d` has been made for what
comes after it. -/
def taking (view : CellId → Option CellSlot) (c d : CellId) (v : Value) :
    CellId → Option CellSlot :=
  Function.update (Function.update view c (some (.known (some (v, .pulled d))))) d (some .unset)

section

variable {a b e : CellId} {o : Option (Value × Stream Value)} (hc : view c = some .unset)
  (hd : view d = none)

theorem taking_made : taking view c d v d = some .unset :=
  Function.update_self ..

theorem taking_other (hec : e ≠ c) (hed : e ≠ d) : taking view c d v e = view e := by
  rw [taking, Function.update_of_ne hed, Function.update_of_ne hec]

include hc hd

theorem taking_ne : c ≠ d := by
  rintro rfl
  cases hc.symm.trans hd

theorem taking_self : taking view c d v c = some (.known (some (v, .pulled d))) := by
  rw [taking, Function.update_of_ne (taking_ne hc hd), Function.update_self]

/-- What has been known stays known. -/
theorem taking_kept (he : view e = some (.known o)) : taking view c d v e = some (.known o) := by
  refine (taking_other ?_ ?_).trans he
  · rintro rfl
    cases hc.symm.trans he
  · rintro rfl
    cases hd.symm.trans he

/-- Nothing else is known, except for the element in the cell `c`. -/
theorem taking_known (he : taking view c d v e = some (.known o)) :
    e = c ∧ o = some (v, .pulled d) ∨ view e = some (.known o) := by
  by_cases hec : e = c
  · subst hec
    cases (taking_self hc hd).symm.trans he
    exact .inl ⟨rfl, rfl⟩
  · by_cases hed : e = d
    · subst hed
      cases taking_made.symm.trans he
    · exact .inr ((taking_other hec hed).symm.trans he)

theorem taking_leads (hab : Leads view a b) : Leads (taking view c d v) a b := by
  obtain ⟨w, ha⟩ := hab
  exact ⟨w, taking_kept hc hd ha⟩

theorem leads_of_taking (hac : a ≠ c) (hab : Leads (taking view c d v) a b) : Leads view a b := by
  obtain ⟨w, ha⟩ := hab
  exact ⟨w, (taking_known hc hd ha).resolve_left fun h => hac h.1⟩

/-- Behind the cell `c` there is only the cell `d`, which has taken nothing. -/
theorem Account.last_of_taking (h : Account view made asked taken cells) {ds : List CellId}
    (chain : List.IsChain (Leads (taking view c d v)) (ds ++ [e]))
    (within : ∀ a ∈ ds ++ [e], a ∈ cells ++ [c]) : ∀ a ∈ ds, a ≠ c := by
  have outside : d ∉ cells := by
    intro mem
    obtain ⟨i, hi, rfl⟩ := List.getElem_of_mem mem
    obtain ⟨t, found⟩ := (List.forall₂_iff_get.mp h.elements).2 i hi (h.length ▸ hi)
    simp only [List.get_eq_getElem] at found
    cases hd.symm.trans found
  rintro a mem rfl
  obtain ⟨l₁, l₂, rfl⟩ := List.append_of_mem mem
  obtain ⟨y, l₃, split⟩ : ∃ y l₃, l₂ ++ [e] = y :: l₃ := by cases l₂ <;> simp
  rw [List.append_assoc, List.cons_append, split] at chain within
  obtain ⟨-, ⟨w, leads⟩, -⟩ := List.isChain_append_cons_cons.mp chain
  cases (taking_self hc hd).symm.trans leads
  have := within d (by simp)
  simp [outside, (taking_ne hc hd).symm] at this

/-- The cell `c` can only stand at the end, so the order is kept. -/
theorem Account.order_of_taking (h : Account view made asked taken cells) {ds : List CellId}
    (chain : List.IsChain (Leads (taking view c d v)) ds) (within : ∀ a ∈ ds, a ∈ cells ++ [c]) :
    ds.Sublist (cells ++ [c]) := by
  rcases List.eq_nil_or_concat ds with rfl | ⟨es, e, rfl⟩
  · exact List.nil_sublist _
  · rw [List.concat_eq_append] at chain within ⊢
    have inner := h.last_of_taking hc hd chain within
    have inside : ∀ a ∈ es, a ∈ cells := by
      intro a mem
      simpa [inner a mem] using within a (by simp [mem])
    by_cases last : e = c
    · subst last
      have earlier := chain.left_of_append.imp_of_mem_imp fun a b ha _ =>
        leads_of_taking hc hd (inner a ha)
      exact (h.order es earlier inside).append_right _
    · have all : ∀ a ∈ es ++ [e], a ≠ c ∧ a ∈ cells := by
        intro a mem
        rcases List.mem_append.mp mem with mem | mem
        · exact ⟨inner a mem, inside a mem⟩
        · obtain rfl := List.mem_singleton.mp mem
          exact ⟨last, by simpa [last] using within a (by simp)⟩
      have earlier := chain.imp_of_mem_imp fun a b ha _ => leads_of_taking hc hd (all a ha).1
      exact (h.order _ earlier fun a ha => (all a ha).2).trans (List.sublist_append_left _ _)

/-- Of a single stream the cell `c` has been the last one, and now the cell `d` is. -/
theorem Account.single_of_taking (h : Account view [e] asked taken cells) :
    ∃ last, List.IsChain (Leads (taking view c d v)) (cells ++ [c] ++ [last]) ∧
      (cells ++ [c] ++ [last]).head? = some e ∧
      ∀ a, (taking view c d v a).isSome → a ∈ cells ++ [c] ∨ a = last := by
  have fresh : c ∉ cells := h.not_mem hc (by simp)
  obtain ⟨last, chain, first, all⟩ := h.single e rfl
  obtain rfl : c = last := (all c (by rw [hc]; rfl)).resolve_left fresh
  refine ⟨d, ?_, ?_, ?_⟩
  · refine List.isChain_append.mpr ⟨chain.imp fun a b => taking_leads hc hd, .singleton d, ?_⟩
    simp only [List.getLast?_append, List.getLast?_singleton, Option.some_or, List.head?_cons,
      Option.mem_def, Option.some.injEq]
    rintro _ rfl _ rfl
    exact ⟨v, taking_self hc hd⟩
  · rw [List.head?_append, first]
    rfl
  · intro a ha
    by_cases had : a = d
    · exact .inr had
    · refine .inl (List.mem_append.mpr ?_)
      by_cases hac : a = c
      · exact .inr (hac ▸ List.mem_cons_self)
      · rcases all a (by rwa [taking_other hac had] at ha) with mem | rfl
        · exact .inl mem
        · exact absurd rfl hac

/-- A cell has taken an element. It is the last one in its stream that has done so. -/
theorem Account.take (h : Account view made asked taken cells) (v : Value) :
    Account (taking view c d v) made (c :: asked) (taken ++ [v]) (cells ++ [c]) := by
  have fresh : c ∉ cells := h.not_mem hc (by simp)
  constructor
  case nodup =>
    refine List.nodup_append.mpr ⟨h.nodup, List.pairwise_singleton _ c, ?_⟩
    rintro a mem _ single rfl
    exact fresh (List.mem_singleton.mp single ▸ mem)
  case elements =>
    refine List.rel_append (h.elements.imp fun e w ⟨t, he⟩ => ⟨t, taking_kept hc hd he⟩) ?_
    exact .cons ⟨_, taking_self hc hd⟩ .nil
  case complete =>
    intro e w t he
    rcases taking_known hc hd he with ⟨rfl, -⟩ | he
    · exact List.mem_append_right _ List.mem_cons_self
    · exact List.mem_append_left _ (h.complete e w t he)
  case asked =>
    intro e o he
    rcases taking_known hc hd he with ⟨rfl, -⟩ | he
    · exact List.mem_cons_self
    · exact List.mem_cons_of_mem c (h.asked e o he)
  case idle =>
    intro e he
    by_cases hec : e = c
    · subst hec
      cases (taking_self hc hd).symm.trans he
    · by_cases hed : e = d
      · subst hed
        cases taking_made.symm.trans he
      · exact h.idle e ((taking_other hec hed).symm.trans he)
  case next =>
    intro e w t he
    rcases taking_known hc hd he with ⟨rfl, eq⟩ | he
    · cases eq
      exact ⟨d, rfl, by rw [taking_made]; rfl⟩
    · obtain ⟨f, rfl, some⟩ := h.next e w t he
      refine ⟨f, rfl, ?_⟩
      by_cases hfc : f = c
      · rw [hfc, taking_self hc hd]; rfl
      · by_cases hfd : f = d
        · rw [hfd, taking_made]; rfl
        · rw [taking_other hfc hfd]; exact some
  case order => exact fun ds => h.order_of_taking hc hd
  case rooted =>
    intro none
    rw [h.rooted none c] at hc
    cases hc
  case single =>
    rintro e rfl
    exact h.single_of_taking hc hd

end

end

end ResumableParsing
