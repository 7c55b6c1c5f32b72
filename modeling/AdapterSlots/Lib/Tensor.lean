import Mathlib.Algebra.BigOperators.Group.Finset.Sigma
import Mathlib.Algebra.BigOperators.Ring.Finset
import Mathlib.Tactic.Ring

/-!
# Matrices with a shape

Two-dimensional tensors in exact arithmetic. The shape is known only when the
program runs, so it is a part of the value; an entry outside it plays no part.
`matmul?`, `cat?` and `add?` look at the shapes first: they have no result
for shapes that do not go together, and a sum stretches a side of length one.

`linear` is `x wᵀ` with an optional bias. It is linear in the rows of the
weight, and for a product of two factors it can be computed through the inner
dimension (`sum_matmul`). `cat` puts matrices of one width on top of each other;
`locate` finds a row in its block.
-/

namespace Lib

structure Tensor (K : Type) where
  rows : ℕ
  cols : ℕ
  entry : ℕ → ℕ → K

namespace Tensor

variable {K : Type} [CommRing K]

instance : Inhabited (Tensor K) := ⟨⟨0, 0, fun _ _ => 0⟩⟩

def scale (t : Tensor K) (c : K) : Tensor K := { t with entry := fun i j => t.entry i j * c }

def matmul (b a : Tensor K) : Tensor K where
  rows := b.rows
  cols := a.cols
  entry i j := ∑ r ∈ Finset.range b.cols, b.entry i r * a.entry r j

def add (w d : Tensor K) : Tensor K := { w with entry := fun i j => w.entry i j + d.entry i j }

/-- One on top of the other. -/
def cat : List (Tensor K) → Tensor K
  | [] => default
  | t :: ts =>
      { rows := t.rows + (cat ts).rows
        cols := t.cols
        entry := fun i j => if i < t.rows then t.entry i j else (cat ts).entry (i - t.rows) j }

/-! ### Shapes -/

/-- `b @ a`. -/
def matmul? (b a : Tensor K) : Option (Tensor K) :=
  if b.cols = a.rows then some (b.matmul a) else none

/-- The widths of all parts agree. -/
def cat? (ts : List (Tensor K)) : Option (Tensor K) :=
  if ∀ t ∈ ts, ∀ t' ∈ ts, t.cols = t'.cols then some (cat ts) else none

/-- The common length of two sides in a sum. -/
def broadcast (m n : ℕ) : Option ℕ :=
  if m = n then some m else if m = 1 then some n else if n = 1 then some m else none

/-- Where index `i` of a side of length `n` lies in a side of length `m`. -/
def stretch (m n i : ℕ) : ℕ := if m = n then i else 0

/-- `w + d`. -/
def add? (w d : Tensor K) : Option (Tensor K) := do
  let rows ← broadcast w.rows d.rows
  let cols ← broadcast w.cols d.cols
  pure ⟨rows, cols, fun i j =>
    w.entry (stretch w.rows rows i) (stretch w.cols cols j)
      + d.entry (stretch d.rows rows i) (stretch d.cols cols j)⟩

theorem matmul?_eq_some {b a t : Tensor K} :
    b.matmul? a = some t ↔ b.cols = a.rows ∧ b.matmul a = t := by
  unfold matmul?
  by_cases h : b.cols = a.rows
  · rw [if_pos h, Option.some.injEq, and_iff_right h]
  · rw [if_neg h]
    exact iff_of_false (fun h => by cases h) fun h' => h h'.1

theorem cat?_of_cols {ts : List (Tensor K)} {n : ℕ} (h : ∀ t ∈ ts, t.cols = n) :
    cat? ts = some (cat ts) :=
  if_pos fun t ht t' ht' => (h t ht).trans (h t' ht').symm

/-- Tensors of one shape are added entry by entry. -/
theorem add?_of_shape {w d : Tensor K} (hrows : d.rows = w.rows) (hcols : d.cols = w.cols) :
    w.add? d = some (w.add d) := by
  unfold add? broadcast add
  rw [hrows, hcols, if_pos rfl, if_pos rfl]
  simp only [Option.pure_def, Option.bind_eq_bind, Option.bind_some, stretch, if_true]

theorem entry_cat_cons (t : Tensor K) (ts : List (Tensor K)) (i j : ℕ) : (cat (t :: ts)).entry i j
    = if i < t.rows then t.entry i j else (cat ts).entry (i - t.rows) j := rfl

/-- `x wᵀ`, and the bias if there is one. -/
def linear (x w : Tensor K) (bias : Option (ℕ → K)) : Tensor K where
  rows := x.rows
  cols := w.rows
  entry t i := ∑ j ∈ Finset.range w.cols, x.entry t j * w.entry i j + bias.elim 0 (· i)

/-! ### Blocks of rows -/

section Blocks

variable {β : Type} (size : β → ℕ)

/-- The block that holds a row, and the row in it. -/
def locate : List β → ℕ → Option (β × ℕ)
  | [], _ => none
  | c :: bs, i => if i < size c then some (c, i) else locate bs (i - size c)

/-- The rows of all blocks. -/
def blockTotal : List β → ℕ
  | [] => 0
  | c :: bs => size c + blockTotal bs

variable {size}

theorem exists_locate : ∀ {bs : List β} {i : ℕ}, i < blockTotal size bs →
    ∃ b r, locate size bs i = some (b, r) ∧ b ∈ bs ∧ r < size b
  | c :: bs, i, hi => by
      rw [locate]
      by_cases hc : i < size c
      · exact ⟨c, i, if_pos hc, List.mem_cons_self .., hc⟩
      · rw [if_neg hc]
        rw [blockTotal] at hi
        have hrest : i - size c < blockTotal size bs := by omega
        obtain ⟨b, r, hloc, hb, hr⟩ := exists_locate hrest
        exact ⟨b, r, hloc, List.mem_cons_of_mem _ hb, hr⟩

theorem rows_cat {f : β → Tensor K} : ∀ {bs : List β}, (∀ c ∈ bs, (f c).rows = size c) →
    (cat (bs.map f)).rows = blockTotal size bs
  | [], _ => rfl
  | c :: bs, h => by
      obtain ⟨hhead, htail⟩ := List.forall_mem_cons.mp h
      rw [List.map_cons, cat, blockTotal, hhead, rows_cat htail]

theorem cols_cat {ts : List (Tensor K)} {n : ℕ} (hne : ts ≠ []) (h : ∀ t ∈ ts, t.cols = n) :
    (cat ts).cols = n := by
  cases ts with
  | nil => exact absurd rfl hne
  | cons t ts => exact h t (List.mem_cons_self ..)

theorem entry_cat {f : β → Tensor K} {b : β} {r j : ℕ} : ∀ {bs : List β} {i : ℕ},
    (∀ c ∈ bs, (f c).rows = size c) → locate size bs i = some (b, r) →
    (cat (bs.map f)).entry i j = (f b).entry r j
  | c :: bs, i, hrows, hloc => by
      obtain ⟨hhead, htail⟩ := List.forall_mem_cons.mp hrows
      rw [locate] at hloc
      rw [List.map_cons, entry_cat_cons, hhead]
      by_cases hc : i < size c
      · rw [if_pos hc] at hloc ⊢
        obtain ⟨rfl, rfl⟩ := Prod.mk.inj (Option.some.inj hloc)
        rfl
      · rw [if_neg hc] at hloc ⊢
        exact entry_cat htail hloc

end Blocks

/-! ### Linear maps -/

/-- A row of the weight with something added to it. -/
theorem linear_of_row {x w v : Tensor K} {d : ℕ → K} {i : ℕ} (hcols : w.cols = v.cols)
    (hrow : ∀ j, w.entry i j = v.entry i j + d j) (bias : Option (ℕ → K)) (t : ℕ) :
    (x.linear w bias).entry t i = (x.linear v bias).entry t i
      + ∑ j ∈ Finset.range v.cols, x.entry t j * d j := by
  simp only [linear, hcols, hrow, mul_add, Finset.sum_add_distrib]
  ring

/-- Through the inner dimension. -/
theorem sum_matmul (x a b : Tensor K) (c : K) (t i : ℕ) :
    ∑ j ∈ Finset.range a.cols, x.entry t j * ((b.scale c).matmul a).entry i j
      = c * ((x.linear a none).linear b none).entry t i := by
  simp only [linear, matmul, scale, Option.elim_none, add_zero, Finset.mul_sum, Finset.sum_mul]
  rw [Finset.sum_comm]
  refine Finset.sum_congr rfl fun r _ => Finset.sum_congr rfl fun j _ => ?_
  ring

end Tensor

end Lib
