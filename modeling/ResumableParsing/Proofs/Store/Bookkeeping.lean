import ResumableParsing.Proofs.Direct.Replies

/-!
# Stores that differ in bookkeeping

Messages in the log and serial numbers are not looked at by any parser. Between two runs of one
parser the library may change these, and may add tails of its own; everything else stays as the
first run has left it.

* `Store.Clerical`: messages have been logged, and serial numbers drawn
* `Store.Filed`: besides, later tails may have been made or computed
* `Store.Enlarged`: besides, parsers may have been built
-/

namespace ResumableParsing

variable {W : Type}

/-! ## Messages and serial numbers -/

/-- Messages have been logged, and serial numbers have been drawn. -/
def Store.Clerical (σ τ : Store W) : Prop :=
  ∃ log n, σ.nextSerial ≤ n ∧ τ = { σ with log := log, nextSerial := n }

/-- Messages have been logged, serial numbers have been drawn, and tails may have been made or
computed, but not those before the `k`-th. -/
def Store.Filed (k : Nat) (σ τ : Store W) : Prop :=
  ∃ log n tails, σ.nextSerial ≤ n ∧ (∀ i < k, tails[i]? = σ.tails[i]?) ∧
    τ = { σ with log := log, nextSerial := n, tails := tails }

/-- Messages have been logged, serial numbers have been drawn, and parsers may have been built. -/
def Store.Enlarged (σ τ : Store W) : Prop :=
  ∃ log n parsers, σ.nextSerial ≤ n ∧
    τ = { σ with log := log, nextSerial := n, parsers := σ.parsers ++ parsers }

/-- The store with so many serial numbers drawn. -/
def Store.drawn (n : Nat) (σ : Store W) : Store W := { σ with nextSerial := σ.nextSerial + n }

section

variable {σ τ υ : Store W} {j k : Nat}

namespace Store.Clerical

theorem refl (σ : Store W) : σ.Clerical σ := ⟨σ.log, σ.nextSerial, Nat.le_refl _, rfl⟩

theorem trans (h : σ.Clerical τ) (h' : τ.Clerical υ) : σ.Clerical υ := by
  obtain ⟨log, n, hn, rfl⟩ := h
  obtain ⟨log', n', hn', rfl⟩ := h'
  exact ⟨log', n', Nat.le_trans hn hn', rfl⟩

theorem drawn (n : Nat) (σ : Store W) : σ.Clerical (σ.drawn n) :=
  ⟨σ.log, σ.nextSerial + n, Nat.le_add_right _ _, rfl⟩

theorem grows (h : σ.Clerical τ) : σ.Grows τ := by
  obtain ⟨log, n, hn, rfl⟩ := h
  exact { Store.Grows.refl σ with nextSerial := hn }

theorem filed (h : σ.Clerical τ) (k : Nat) : σ.Filed k τ := by
  obtain ⟨log, n, hn, rfl⟩ := h
  exact ⟨log, n, σ.tails, hn, fun _ _ => rfl, rfl⟩

theorem enlarged (h : σ.Clerical τ) : σ.Enlarged τ := by
  obtain ⟨log, n, hn, rfl⟩ := h
  exact ⟨log, n, #[], hn, by rw [Array.append_empty]⟩

end Store.Clerical

namespace Store.Enlarged

theorem refl (σ : Store W) : σ.Enlarged σ := (Clerical.refl σ).enlarged

theorem trans (h : σ.Enlarged τ) (h' : τ.Enlarged υ) : σ.Enlarged υ := by
  obtain ⟨log, n, parsers, hn, rfl⟩ := h
  obtain ⟨log', n', parsers', hn', rfl⟩ := h'
  exact ⟨log', n', parsers ++ parsers', Nat.le_trans hn hn', by rw [Array.append_assoc]⟩

/-- A parser has been built. -/
theorem push (σ : Store W) (c : Cell W) : σ.Enlarged { σ with parsers := σ.parsers.push c } :=
  ⟨σ.log, σ.nextSerial, #[c], Nat.le_refl _, by rw [Array.push_eq_append]⟩

/-- Parsers that are there stay. -/
theorem parser (h : σ.Enlarged τ) {i : Nat} {c : Cell W} (hc : σ.parsers[i]? = some c) :
    τ.parsers[i]? = some c := by
  obtain ⟨log, n, parsers, -, rfl⟩ := h
  exact (Array.getElem?_append_left (Array.getElem?_eq_some_iff.mp hc).1).trans hc

end Store.Enlarged

theorem Store.Noted.clerical (h : σ.Noted τ) : σ.Clerical τ := by
  obtain ⟨log, rfl⟩ := h
  exact ⟨log, σ.nextSerial, Nat.le_refl _, rfl⟩

namespace Store.Filed

theorem refl (k : Nat) (σ : Store W) : σ.Filed k σ := (Clerical.refl σ).filed k

theorem trans (h : σ.Filed k τ) (h' : τ.Filed k υ) : σ.Filed k υ := by
  obtain ⟨log, n, tails, hn, ht, rfl⟩ := h
  obtain ⟨log', n', tails', hn', ht', rfl⟩ := h'
  exact ⟨log', n', tails', Nat.le_trans hn hn', fun i hi => (ht' i hi).trans (ht i hi), rfl⟩

theorem less (h : σ.Filed k τ) (hj : j ≤ k) : σ.Filed j τ := by
  obtain ⟨log, n, tails, hn, ht, rfl⟩ := h
  exact ⟨log, n, tails, hn, fun i hi => ht i (Nat.lt_of_lt_of_le hi hj), rfl⟩

/-- A tail from the `k`-th on is computed. -/
theorem put {i : TailId} (hi : k ≤ i.index) (slot : Slot (Option (Stream Value))) (σ : Store W) :
    σ.Filed k (Shelf.tails.put i.index slot σ) := by
  refine ⟨σ.log, σ.nextSerial, (Shelf.tails.put i.index slot σ).tails, Nat.le_refl _, ?_, rfl⟩
  exact fun j hj => Memo.putSlot_other σ.tails (by omega) slot

/-- A tail is made. -/
theorem push (hk : k ≤ σ.tails.size) (n : Nat) (m : Memo (Tail W) (Option (Stream Value))) :
    σ.Filed k { σ.drawn n with tails := σ.tails.push m } :=
  ⟨σ.log, σ.nextSerial + n, σ.tails.push m, Nat.le_add_right _ _,
    fun i hi => Array.getElem?_push_lt (by omega) |>.trans (Array.getElem?_eq_getElem _).symm, rfl⟩

end Store.Filed

end

end ResumableParsing
