import Mathlib.Algebra.BigOperators.Group.Finset.Basic
import Mathlib.Algebra.BigOperators.Group.Finset.Piecewise
import Mathlib.Algebra.Order.BigOperators.Group.Finset
import AdapterSlots.Lib.Exec

/-!
# Reductions that the last arrival finishes

The parties of a tile add their shares to the tile's cells of a shared
workspace and then count themselves at the tile's counter. Whoever counts
last reads the sums, writes them out, and sets the cells and the counter
back to zero. A step touches one cell or one counter, a party takes the
cells in any order, and the steps of all parties interleave.

`TileInv` says where a tile stands: open, with the partial sums of what has
been added so far, or closed, with one party collecting and all the others
gone. A step keeps it (`Step.tileInv`), and at the end of a complete run every
tile is closed with nothing left to do (`tile_complete`): its sums are written
out by one party, and the scratch is as it was. Every run can be completed
(`exists_complete`), and none is longer than its work
(`length_add_totalWork_le`).
-/

namespace Lib

open Finset

/-- Party `p` adds `acc p i` to cell `i` of its tile. Cells and counters have their
addresses for themselves. -/
structure SplitReduction (P T I A R : Type) [DecidableEq T] where
  parties : Finset P
  tile : P → T
  parts : ℕ
  cells : T → Finset I
  wsAddr : T → I → A
  outAddr : T → I → A
  cntAddr : T → A
  acc : P → I → R
  card_tile : ∀ p ∈ parties, #{q ∈ parties | tile q = tile p} = parts
  wsAddr_inj : ∀ p ∈ parties, ∀ q ∈ parties, ∀ i ∈ cells (tile p), ∀ j ∈ cells (tile q),
    wsAddr (tile p) i = wsAddr (tile q) j → tile p = tile q ∧ i = j
  outAddr_inj : ∀ p ∈ parties, ∀ q ∈ parties, ∀ i ∈ cells (tile p), ∀ j ∈ cells (tile q),
    outAddr (tile p) i = outAddr (tile q) j → tile p = tile q ∧ i = j
  cntAddr_inj : ∀ p ∈ parties, ∀ q ∈ parties, cntAddr (tile p) = cntAddr (tile q) →
    tile p = tile q

namespace SplitReduction

/-- How far the last arrival is: the sums it has read, the cells it has written
out and set back, and whether it has set back the counter. -/
structure Collecting (I R : Type) where
  tot : I → Option R
  stored : Finset I
  reset : Finset I
  cntReset : Bool

inductive Phase (I R : Type)
  | adding (added : Finset I)
  | left
  | collecting (c : Collecting I R)

namespace Phase

variable {I R : Type} [DecidableEq I]

def hasAdded : Phase I R → I → Bool
  | adding added, i => decide (i ∈ added)
  | _, _ => true

def isLeft : Phase I R → Bool
  | left => true
  | _ => false

omit [DecidableEq I] in
theorem isLeft_iff {ph : Phase I R} : ph.isLeft = true ↔ ph = .left := by
  cases ph <;> simp [isLeft]

/-- What is left to do on a tile with these cells. -/
def work (cells : Finset I) : Phase I R → ℕ
  | adding added => #(cells \ added) + (3 * cells.card + 2)
  | left => 0
  | collecting c => #{i ∈ cells | c.tot i = none} + #(cells \ c.stored) + #(cells \ c.reset)
      + if c.cntReset then 0 else 1

def Finished (cells : Finset I) : Phase I R → Prop
  | adding _ => False
  | left => True
  | collecting c => cells ⊆ c.stored ∧ cells ⊆ c.reset ∧ c.cntReset = true

end Phase

/-- The shared memory and where every party is. -/
structure ReductionState (P I A R : Type) where
  ws : A → R
  cnt : A → ℕ
  out : A → R
  phase : P → Phase I R

inductive Action (I : Type)
  | add (i : I)
  | arrive
  | load (i : I)
  | store (i : I)
  | reset (i : I)
  | resetCnt

variable {P T I A R : Type} [DecidableEq T] {D : SplitReduction P T I A R}
  {s s' : ReductionState P I A R} {p q : P} {t : T} {i : I} {a : Action I}

/-- Nobody has begun. -/
def start (ws : A → R) (cnt : A → ℕ) (out : A → R) : ReductionState P I A R :=
  ⟨ws, cnt, out, fun _ => .adding ∅⟩

def Complete (D : SplitReduction P T I A R) (s : ReductionState P I A R) : Prop :=
  ∀ p ∈ D.parties, (s.phase p).Finished (D.cells (D.tile p))

def members (D : SplitReduction P T I A R) (t : T) : Finset P := {q ∈ D.parties | D.tile q = t}

theorem mem_members : q ∈ D.members t ↔ q ∈ D.parties ∧ D.tile q = t := Finset.mem_filter

theorem mem_members_self (hp : p ∈ D.parties) : p ∈ D.members (D.tile p) :=
  mem_members.mpr ⟨hp, rfl⟩

theorem card_members (hp : p ∈ D.members t) : #(D.members t) = D.parts := by
  obtain ⟨hin, rfl⟩ := mem_members.mp hp
  exact D.card_tile p hin

/-- The addresses of a tile do not meet those of another. -/
theorem wsAddr_ne (hp : p ∈ D.parties) (hq : q ∈ D.parties) (hne : D.tile q ≠ D.tile p)
    (hi : i ∈ D.cells (D.tile p)) : ∀ j ∈ D.cells (D.tile q),
    D.wsAddr (D.tile q) j ≠ D.wsAddr (D.tile p) i := fun j hj heq =>
  hne (D.wsAddr_inj q hq p hp j hj i hi heq).1

theorem outAddr_ne (hp : p ∈ D.parties) (hq : q ∈ D.parties) (hne : D.tile q ≠ D.tile p)
    (hi : i ∈ D.cells (D.tile p)) : ∀ j ∈ D.cells (D.tile q),
    D.outAddr (D.tile q) j ≠ D.outAddr (D.tile p) i := fun j hj heq =>
  hne (D.outAddr_inj q hq p hp j hj i hi heq).1

theorem cntAddr_ne (hp : p ∈ D.parties) (hq : q ∈ D.parties) (hne : D.tile q ≠ D.tile p) :
    D.cntAddr (D.tile q) ≠ D.cntAddr (D.tile p) := fun heq =>
  hne (D.cntAddr_inj q hq p hp heq)

/-- The parties of a tile that have gone. -/
def gone (D : SplitReduction P T I A R) (s : ReductionState P I A R) (t : T) : Finset P :=
  {q ∈ D.members t | (s.phase q).isLeft}

/-- A tile's share of the state is the same. -/
structure SameTile (D : SplitReduction P T I A R) (t : T) (s s' : ReductionState P I A R) :
    Prop where
  phase : ∀ q ∈ D.members t, s'.phase q = s.phase q
  cnt : s'.cnt (D.cntAddr t) = s.cnt (D.cntAddr t)
  ws : ∀ i ∈ D.cells t, s'.ws (D.wsAddr t i) = s.ws (D.wsAddr t i)
  out : ∀ i ∈ D.cells t, s'.out (D.outAddr t i) = s.out (D.outAddr t i)

theorem SameTile.gone_eq (h : SameTile D t s s') : D.gone s' t = D.gone s t :=
  Finset.filter_congr fun q hq => by rw [h.phase q hq]

section Gone

variable [DecidableEq P] {ph : Phase I R}

theorem gone_of_update (hs' : s'.phase = Function.update s.phase p ph)
    (hleft : ph.isLeft = (s.phase p).isLeft) : D.gone s' t = D.gone s t := by
  refine Finset.filter_congr fun q _ => ?_
  rw [hs', Function.update_apply]
  split
  · rename_i heq
    rw [heq, hleft]
  · rfl

theorem gone_insert (hp : p ∈ D.members t) (hs' : s'.phase = Function.update s.phase p .left) :
    D.gone s' t = insert p (D.gone s t) := by
  ext q
  rw [gone, gone, Finset.mem_insert, Finset.mem_filter, Finset.mem_filter, hs',
    Function.update_apply]
  split
  · rename_i heq
    simp [heq, hp, Phase.isLeft]
  · rename_i hne
    simp [hne]

/-- When one party is missing and it arrives, all others have gone. -/
theorem gone_eq_erase (hp : p ∈ D.members t) (hnot : p ∉ D.gone s t)
    (hcard : #(D.gone s t) = D.parts - 1) : D.gone s t = (D.members t).erase p := by
  refine Finset.eq_of_subset_of_card_le (fun q hq => ?_) ?_
  · obtain ⟨hmem, -⟩ := Finset.mem_filter.mp hq
    exact Finset.mem_erase.mpr ⟨fun heq => hnot (heq ▸ hq), hmem⟩
  · rw [Finset.card_erase_of_mem hp, card_members hp, hcard]

end Gone

variable [DecidableEq I] [AddCommMonoid R]

/-- The sum of all shares in a cell. -/
def total (D : SplitReduction P T I A R) (t : T) (i : I) : R := ∑ q ∈ D.members t, D.acc q i

/-- The sum of the shares that have been added. -/
def partialSum (D : SplitReduction P T I A R) (s : ReductionState P I A R) (t : T) (i : I) : R :=
  ∑ q ∈ D.members t, if (s.phase q).hasAdded i then D.acc q i else 0

theorem partialSum_eq_total (h : ∀ q ∈ D.members t, (s.phase q).hasAdded i = true) :
    D.partialSum s t i = D.total t i :=
  Finset.sum_congr rfl fun q hq => by rw [h q hq, if_pos rfl]

theorem SameTile.partialSum_eq (h : SameTile D t s s') (i : I) :
    D.partialSum s' t i = D.partialSum s t i :=
  Finset.sum_congr rfl fun q hq => by rw [h.phase q hq]

/-- Not all parties of the tile have arrived, and nobody collects. -/
structure Opened (D : SplitReduction P T I A R) (s : ReductionState P I A R) (t : T) : Prop where
  phase : ∀ q ∈ D.members t, ∀ c, s.phase q ≠ .collecting c
  cnt : s.cnt (D.cntAddr t) = #(D.gone s t)
  lt : #(D.gone s t) < D.parts
  ws : ∀ i ∈ D.cells t, s.ws (D.wsAddr t i) = D.partialSum s t i

/-- Party `p` collects, and all others have gone. -/
structure Closed (D : SplitReduction P T I A R) (s : ReductionState P I A R) (t : T) (p : P)
    (c : Collecting I R) : Prop where
  member : p ∈ D.members t
  phase : s.phase p = .collecting c
  others : ∀ q ∈ D.members t, q ≠ p → s.phase q = .left
  cnt : s.cnt (D.cntAddr t) = if c.cntReset then 0 else D.parts
  ws : ∀ i ∈ D.cells t, s.ws (D.wsAddr t i) = if i ∈ c.reset then 0 else D.total t i
  read : ∀ i ∈ D.cells t, ∀ v, c.tot i = some v → v = D.total t i
  reset : ∀ i ∈ c.reset, c.tot i ≠ none
  out : ∀ i ∈ D.cells t, i ∈ c.stored → s.out (D.outAddr t i) = D.total t i

def TileInv (D : SplitReduction P T I A R) (s : ReductionState P I A R) (t : T) : Prop :=
  Opened D s t ∨ ∃ p c, Closed D s t p c

theorem SameTile.opened (h : SameTile D t s s') (hinv : Opened D s t) : Opened D s' t where
  phase q hq := by
    rw [h.phase q hq]
    exact hinv.phase q hq
  cnt := by
    rw [h.cnt, h.gone_eq]
    exact hinv.cnt
  lt := h.gone_eq.symm ▸ hinv.lt
  ws i hi := by
    rw [h.ws i hi, h.partialSum_eq]
    exact hinv.ws i hi

theorem SameTile.closed {c : Collecting I R} (h : SameTile D t s s') (hinv : Closed D s t p c) :
    Closed D s' t p c where
  member := hinv.member
  phase := (h.phase p hinv.member).trans hinv.phase
  others q hq hne := (h.phase q hq).trans (hinv.others q hq hne)
  cnt := h.cnt.trans hinv.cnt
  ws i hi := (h.ws i hi).trans (hinv.ws i hi)
  read := hinv.read
  reset := hinv.reset
  out i hi hst := (h.out i hi).trans (hinv.out i hi hst)

theorem SameTile.tileInv (h : SameTile D t s s') : TileInv D s t → TileInv D s' t
  | .inl hinv => .inl (h.opened hinv)
  | .inr ⟨p, c, hinv⟩ => .inr ⟨p, c, h.closed hinv⟩

theorem TileInv.opened {added : Finset I} (h : TileInv D s t) (hp : p ∈ D.members t)
    (hphase : s.phase p = .adding added) : Opened D s t := by
  rcases h with hopen | ⟨q, c, hclosed⟩
  · exact hopen
  · by_cases heq : p = q
    · subst heq
      cases hphase.symm.trans hclosed.phase
    · cases hphase.symm.trans (hclosed.others p hp heq)

theorem TileInv.closed {c : Collecting I R} (h : TileInv D s t) (hp : p ∈ D.members t)
    (hphase : s.phase p = .collecting c) : Closed D s t p c := by
  rcases h with hopen | ⟨q, c', hclosed⟩
  · exact absurd hphase (hopen.phase p hp c)
  · by_cases heq : p = q
    · subst heq
      obtain rfl := Phase.collecting.inj (hphase.symm.trans hclosed.phase)
      exact hclosed
    · cases hphase.symm.trans (hclosed.others p hp heq)

/-! ### One phase changes -/

section Update

variable [DecidableEq P] {ph : Phase I R}

theorem partialSum_of_update (hs' : s'.phase = Function.update s.phase p ph)
    (hadded : ph.hasAdded i = (s.phase p).hasAdded i) :
    D.partialSum s' t i = D.partialSum s t i := by
  refine Finset.sum_congr rfl fun q _ => ?_
  rw [hs', Function.update_apply]
  split
  · rename_i heq
    rw [heq, hadded]
  · rfl

/-- A share that was missing is added. -/
theorem partialSum_add (hp : p ∈ D.members t) (hs' : s'.phase = Function.update s.phase p ph)
    (hold : (s.phase p).hasAdded i = false) (hnew : ph.hasAdded i = true) :
    D.partialSum s' t i = D.partialSum s t i + D.acc p i := by
  have hrest : ∀ q ∈ (D.members t).erase p, (if (s'.phase q).hasAdded i then D.acc q i else 0)
      = if (s.phase q).hasAdded i then D.acc q i else 0 := by
    intro q hq
    rw [hs', Function.update_of_ne (Finset.ne_of_mem_erase hq)]
  rw [partialSum, partialSum, ← Finset.sum_erase_add _ _ hp, ← Finset.sum_erase_add _ _ hp,
    Finset.sum_congr rfl hrest, hs', Function.update_self, hold, hnew]
  simp

/-- When the counter shows the last one, the others have gone. -/
theorem Opened.others_left (h : Opened D s t) (hp : p ∈ D.members t)
    (hnot : p ∉ D.gone s t) (hlast : s.cnt (D.cntAddr t) = D.parts - 1) :
    ∀ q ∈ D.members t, q ≠ p → s.phase q = .left := by
  intro q hq hne
  have hin : q ∈ D.gone s t := by
    rw [gone_eq_erase hp hnot (h.cnt.symm.trans hlast)]
    exact Finset.mem_erase.mpr ⟨hne, hq⟩
  exact Phase.isLeft_iff.mp (Finset.mem_filter.mp hin).2

theorem Opened.not_collecting (h : Opened D s t) (hph : ∀ c, ph ≠ .collecting c)
    (hs' : s'.phase = Function.update s.phase p ph) :
    ∀ q ∈ D.members t, ∀ c, s'.phase q ≠ .collecting c := by
  intro q hq c
  rw [hs', Function.update_apply]
  split
  · exact hph c
  · exact h.phase q hq c

theorem Closed.others_of_update {c : Collecting I R} (h : Closed D s t p c) :
    ∀ q ∈ D.members t, q ≠ p → Function.update s.phase p ph q = .left := fun q hq hne =>
  (Function.update_of_ne hne _ _).trans (h.others q hq hne)

end Update

/-! ## Steps -/

variable [DecidableEq P] [DecidableEq A]

/-- One step of one party. A party arrives when all its shares are added; the
counter's old value tells it whether it is the last one. The last one sets a
cell back and writes its sum out once it has read it. -/
inductive Step (D : SplitReduction P T I A R) :
    ReductionState P I A R → P × Action I → Unit → ReductionState P I A R → Prop
  | add {s : ReductionState P I A R} {p : P} {i : I} {added : Finset I} (hp : p ∈ D.parties)
      (hphase : s.phase p = .adding added) (hi : i ∈ D.cells (D.tile p)) (hnew : i ∉ added) :
      Step D s (p, .add i) ()
        { s with
          ws := Function.update s.ws (D.wsAddr (D.tile p) i)
            (s.ws (D.wsAddr (D.tile p) i) + D.acc p i)
          phase := Function.update s.phase p (.adding (insert i added)) }
  | arrive {s : ReductionState P I A R} {p : P} {added : Finset I} (hp : p ∈ D.parties)
      (hphase : s.phase p = .adding added) (hall : D.cells (D.tile p) ⊆ added) :
      Step D s (p, .arrive) ()
        { s with
          cnt := Function.update s.cnt (D.cntAddr (D.tile p)) (s.cnt (D.cntAddr (D.tile p)) + 1)
          phase := Function.update s.phase p
            (if s.cnt (D.cntAddr (D.tile p)) = D.parts - 1
              then .collecting ⟨fun _ => none, ∅, ∅, false⟩ else .left) }
  | load {s : ReductionState P I A R} {p : P} {i : I} {c : Collecting I R} (hp : p ∈ D.parties)
      (hphase : s.phase p = .collecting c) (hi : i ∈ D.cells (D.tile p)) (hnew : c.tot i = none) :
      Step D s (p, .load i) ()
        { s with
          phase := Function.update s.phase p (.collecting
            { c with tot := Function.update c.tot i (some (s.ws (D.wsAddr (D.tile p) i))) }) }
  | store {s : ReductionState P I A R} {p : P} {i : I} {v : R} {c : Collecting I R}
      (hp : p ∈ D.parties) (hphase : s.phase p = .collecting c) (hi : i ∈ D.cells (D.tile p))
      (hread : c.tot i = some v) (hnew : i ∉ c.stored) :
      Step D s (p, .store i) ()
        { s with
          out := Function.update s.out (D.outAddr (D.tile p) i) v
          phase := Function.update s.phase p
            (.collecting { c with stored := insert i c.stored }) }
  | reset {s : ReductionState P I A R} {p : P} {i : I} {v : R} {c : Collecting I R}
      (hp : p ∈ D.parties) (hphase : s.phase p = .collecting c) (hi : i ∈ D.cells (D.tile p))
      (hread : c.tot i = some v) (hnew : i ∉ c.reset) :
      Step D s (p, .reset i) ()
        { s with
          ws := Function.update s.ws (D.wsAddr (D.tile p) i) 0
          phase := Function.update s.phase p (.collecting { c with reset := insert i c.reset }) }
  | resetCnt {s : ReductionState P I A R} {p : P} {c : Collecting I R} (hp : p ∈ D.parties)
      (hphase : s.phase p = .collecting c) (hnew : c.cntReset = false) :
      Step D s (p, .resetCnt) ()
        { s with
          cnt := Function.update s.cnt (D.cntAddr (D.tile p)) 0
          phase := Function.update s.phase p (.collecting { c with cntReset := true }) }

theorem Step.mem_parties (h : Step D s (p, a) () s') : p ∈ D.parties := by
  cases h <;> assumption

/-! A step changes the phase of its party, and memory at the addresses of its tile. -/

theorem Step.phase_other (h : Step D s (p, a) () s') (hne : q ≠ p) :
    s'.phase q = s.phase q := by
  cases h <;> exact Function.update_of_ne hne _ _

theorem Step.ws_frame {x : A} (h : Step D s (p, a) () s')
    (hx : ∀ j ∈ D.cells (D.tile p), x ≠ D.wsAddr (D.tile p) j) : s'.ws x = s.ws x := by
  cases h with
  | add _ _ hi _ => exact Function.update_of_ne (hx _ hi) _ _
  | reset _ _ hi _ _ => exact Function.update_of_ne (hx _ hi) _ _
  | _ => rfl

theorem Step.cnt_frame {x : A} (h : Step D s (p, a) () s') (hx : x ≠ D.cntAddr (D.tile p)) :
    s'.cnt x = s.cnt x := by
  cases h with
  | arrive _ _ _ => exact Function.update_of_ne hx _ _
  | resetCnt _ _ _ => exact Function.update_of_ne hx _ _
  | _ => rfl

theorem Step.out_frame {x : A} (h : Step D s (p, a) () s')
    (hx : ∀ j ∈ D.cells (D.tile p), x ≠ D.outAddr (D.tile p) j) : s'.out x = s.out x := by
  cases h with
  | store _ _ hi _ _ => exact Function.update_of_ne (hx _ hi) _ _
  | _ => rfl

/-- A step leaves the other tiles alone. -/
theorem Step.sameTile (h : Step D s (p, a) () s') (hq : q ∈ D.parties)
    (hne : D.tile q ≠ D.tile p) : SameTile D (D.tile q) s s' where
  phase r hr := h.phase_other fun heq => hne (by rw [← (mem_members.mp hr).2, heq])
  cnt := h.cnt_frame (cntAddr_ne h.mem_parties hq hne)
  ws j hj := h.ws_frame fun _ hi => wsAddr_ne h.mem_parties hq hne hi j hj
  out j hj := h.out_frame fun _ hi => outAddr_ne h.mem_parties hq hne hi j hj

theorem Opened.add (h : Opened D s (D.tile p)) (hstep : Step D s (p, .add i) () s') :
    Opened D s' (D.tile p) := by
  cases hstep with
  | add hp hphase hi hnew =>
      refine ⟨h.not_collecting (fun c heq => by cases heq) rfl, ?_, ?_, fun j hj => ?_⟩
      · rw [gone_of_update (s := s) rfl (by rw [hphase]; rfl)]
        exact h.cnt
      · rw [gone_of_update (s := s) rfl (by rw [hphase]; rfl)]
        exact h.lt
      · by_cases heq : j = i
        · subst heq
          rw [partialSum_add (s := s) (mem_members_self hp) rfl
            (by simp [hphase, Phase.hasAdded, hnew]) (by simp [Phase.hasAdded])]
          simp only [Function.update_self, h.ws j hj]
        · have haddr : D.wsAddr (D.tile p) j ≠ D.wsAddr (D.tile p) i := fun haddr =>
            heq (D.wsAddr_inj p hp p hp j hj i hi haddr).2
          rw [partialSum_of_update (s := s) rfl (by simp [hphase, Phase.hasAdded, heq])]
          simp only [Function.update_of_ne haddr, h.ws j hj]

theorem Opened.arrive (h : Opened D s (D.tile p)) (hstep : Step D s (p, .arrive) () s') :
    TileInv D s' (D.tile p) := by
  cases hstep with
  | arrive hp hphase hall =>
      have hmem := mem_members_self hp
      have hadded : ∀ j ∈ D.cells (D.tile p), (s.phase p).hasAdded j = true := by
        intro j hj
        simp [hphase, Phase.hasAdded, hall hj]
      have hnot : p ∉ D.gone s (D.tile p) := by
        intro hin
        have hleft := (Finset.mem_filter.mp hin).2
        rw [hphase] at hleft
        cases hleft
      by_cases hlast : s.cnt (D.cntAddr (D.tile p)) = D.parts - 1
      · have hothers := h.others_left hmem hnot hlast
        have hpos := h.lt
        refine .inr ⟨p, ⟨fun _ => none, ∅, ∅, false⟩, ?_⟩
        constructor
        · exact hmem
        · simp [hlast]
        · intro q hq hne
          exact (Function.update_of_ne hne _ _).trans (hothers q hq hne)
        · simp only [Function.update_self, hlast]
          exact Nat.sub_add_cancel (by omega)
        · -- all shares are in, so the partial sums are the sums
          intro j hj
          refine (h.ws j hj).trans (partialSum_eq_total fun q hq => ?_)
          by_cases heq : q = p
          · exact heq ▸ hadded j hj
          · rw [hothers q hq heq]
            rfl
        · intro _ _ _ hread
          cases hread
        · intro _ hin
          exact absurd hin (Finset.notMem_empty _)
        · intro _ _ hin
          exact absurd hin (Finset.notMem_empty _)
      · have hgone : ∀ s'' : ReductionState P I A R,
            s''.phase = Function.update s.phase p .left →
            #(D.gone s'' (D.tile p)) = #(D.gone s (D.tile p)) + 1 := by
          intro s'' hs''
          rw [gone_insert hmem hs'', Finset.card_insert_of_notMem hnot]
        simp only [if_neg hlast]
        refine .inl ⟨h.not_collecting (fun c heq => by cases heq) rfl, ?_, ?_, fun j hj => ?_⟩
        · rw [hgone _ rfl]
          simp only [Function.update_self, h.cnt]
        · rw [hgone _ rfl]
          have := h.lt
          have := h.cnt
          omega
        · rw [partialSum_of_update (s := s) rfl (by rw [hadded j hj]; rfl)]
          exact h.ws j hj

theorem Closed.load {c : Collecting I R} (h : Closed D s (D.tile p) p c)
    (hstep : Step D s (p, .load i) () s') : ∃ c', Closed D s' (D.tile p) p c' := by
  cases hstep with
  | load hp hphase hi hnew =>
      obtain rfl := Phase.collecting.inj (h.phase.symm.trans hphase)
      -- the cell has not been set back, since it has not been read
      have hval : s.ws (D.wsAddr (D.tile p) i) = D.total (D.tile p) i := by
        rw [h.ws i hi, if_neg fun hin => h.reset i hin hnew]
      refine ⟨_, h.member, Function.update_self .., h.others_of_update, h.cnt, h.ws,
        fun j hj v hv => ?_, fun j hj => ?_, h.out⟩
      · simp only [Function.update_apply] at hv
        split at hv
        · rename_i heq
          rw [← Option.some.inj hv, hval, heq]
        · exact h.read j hj v hv
      · simp only [Function.update_apply]
        split
        · nofun
        · exact h.reset j hj

theorem Closed.store {c : Collecting I R} (h : Closed D s (D.tile p) p c)
    (hstep : Step D s (p, .store i) () s') : ∃ c', Closed D s' (D.tile p) p c' := by
  cases hstep with
  | store hp hphase hi hread hnew =>
      obtain rfl := Phase.collecting.inj (h.phase.symm.trans hphase)
      refine ⟨_, h.member, Function.update_self .., h.others_of_update, h.cnt, h.ws, h.read,
        h.reset, fun j hj hst => ?_⟩
      by_cases heq : j = i
      · subst heq
        exact (Function.update_self ..).trans (h.read j hj _ hread)
      · have haddr : D.outAddr (D.tile p) j ≠ D.outAddr (D.tile p) i := fun haddr =>
          heq (D.outAddr_inj p hp p hp j hj i hi haddr).2
        exact (Function.update_of_ne haddr _ _).trans
          (h.out j hj ((Finset.mem_insert.mp hst).resolve_left heq))

theorem Closed.reset_cell {c : Collecting I R} (h : Closed D s (D.tile p) p c)
    (hstep : Step D s (p, .reset i) () s') : ∃ c', Closed D s' (D.tile p) p c' := by
  cases hstep with
  | reset hp hphase hi hread hnew =>
      obtain rfl := Phase.collecting.inj (h.phase.symm.trans hphase)
      refine ⟨_, h.member, Function.update_self .., h.others_of_update, h.cnt, fun j hj => ?_,
        h.read, fun j hj => ?_, h.out⟩
      · by_cases heq : j = i
        · subst heq
          simp
        · have haddr : D.wsAddr (D.tile p) j ≠ D.wsAddr (D.tile p) i := fun haddr =>
            heq (D.wsAddr_inj p hp p hp j hj i hi haddr).2
          simp only [Function.update_of_ne haddr, h.ws j hj, Finset.mem_insert, heq, false_or]
      · rcases Finset.mem_insert.mp hj with rfl | hj
        · rw [hread]
          nofun
        · exact h.reset j hj

theorem Closed.resetCnt {c : Collecting I R} (h : Closed D s (D.tile p) p c)
    (hstep : Step D s (p, .resetCnt) () s') : ∃ c', Closed D s' (D.tile p) p c' := by
  cases hstep with
  | resetCnt hp hphase hnew =>
      obtain rfl := Phase.collecting.inj (h.phase.symm.trans hphase)
      exact ⟨_, h.member, Function.update_self .., h.others_of_update, Function.update_self ..,
        h.ws, h.read, h.reset, h.out⟩

/-- A step keeps every tile's invariant. -/
theorem Step.tileInv (h : Step D s (p, a) () s') (hq : q ∈ D.parties)
    (hinv : TileInv D s (D.tile q)) : TileInv D s' (D.tile q) := by
  by_cases hne : D.tile q = D.tile p
  · rw [hne] at hinv ⊢
    have hmem := mem_members_self h.mem_parties
    cases h with
    | add hp hphase hi hnew => exact .inl ((hinv.opened hmem hphase).add (.add hp hphase hi hnew))
    | arrive hp hphase hall => exact (hinv.opened hmem hphase).arrive (.arrive hp hphase hall)
    | load hp hphase hi hnew =>
        exact .inr ⟨p, (hinv.closed hmem hphase).load (.load hp hphase hi hnew)⟩
    | store hp hphase hi hread hnew =>
        exact .inr ⟨p, (hinv.closed hmem hphase).store (.store hp hphase hi hread hnew)⟩
    | reset hp hphase hi hread hnew =>
        exact .inr ⟨p, (hinv.closed hmem hphase).reset_cell (.reset hp hphase hi hread hnew)⟩
    | resetCnt hp hphase hnew =>
        exact .inr ⟨p, (hinv.closed hmem hphase).resetCnt (.resetCnt hp hphase hnew)⟩
  · exact (h.sameTile hq hne).tileInv hinv

/-! ## Runs -/

section Runs

variable {ws : A → R} {cnt : A → ℕ} {out : A → R} {s₀ : ReductionState P I A R}
  {tr : List (Event (ReductionState P I A R) (P × Action I) Unit)}

/-- The scratch of the parties' tiles is zero. -/
def Clean (D : SplitReduction P T I A R) (ws : A → R) (cnt : A → ℕ) : Prop :=
  ∀ p ∈ D.parties, cnt (D.cntAddr (D.tile p)) = 0
    ∧ ∀ i ∈ D.cells (D.tile p), ws (D.wsAddr (D.tile p) i) = 0

omit [DecidableEq P] [DecidableEq A] in
theorem start_tileInv (hclean : D.Clean ws cnt) (hp : p ∈ D.parties) :
    TileInv D (start ws cnt out) (D.tile p) := by
  have hgone : D.gone (start ws cnt out : ReductionState P I A R) (D.tile p) = ∅ :=
    Finset.filter_eq_empty_iff.mpr fun q _ => Bool.false_ne_true
  refine .inl ⟨fun q _ => nofun, ?_, ?_, fun i hi => ?_⟩
  · rw [hgone]
    exact (hclean p hp).1
  · rw [hgone, ← card_members (mem_members_self hp)]
    exact Finset.card_pos.mpr ⟨p, mem_members_self hp⟩
  · refine ((hclean p hp).2 i hi).trans (Finset.sum_eq_zero fun q _ => ?_).symm
    rfl

theorem tileInv_of_exec (h : Exec (Step D) (start ws cnt out) tr s) (hclean : D.Clean ws cnt)
    (hp : p ∈ D.parties) : TileInv D s (D.tile p) :=
  (h.invariant (fun s => TileInv D s (D.tile p)) (fun _ _ => True)
    (fun _ _ _ _ hinv _ hstep => hstep.tileInv hp hinv) (start_tileInv hclean hp)
    fun _ _ => trivial).1

/-- In a complete run every tile is closed, with nothing left to do. -/
theorem tile_complete (h : Exec (Step D) (start ws cnt out) tr s) (hclean : D.Clean ws cnt)
    (hcomplete : D.Complete s) (hp : p ∈ D.parties) :
    ∃ q c, Closed D s (D.tile p) q c ∧ D.cells (D.tile p) ⊆ c.stored
      ∧ D.cells (D.tile p) ⊆ c.reset ∧ c.cntReset = true := by
  rcases tileInv_of_exec h hclean hp with hopen | ⟨q, c, hclosed⟩
  · -- an open tile has parties that are not done
    refine absurd hopen.lt (Nat.not_lt.mpr (Nat.le_of_eq ?_))
    rw [gone, Finset.filter_true_of_mem fun q hq => ?_, card_members (mem_members_self hp)]
    obtain ⟨hq, heq⟩ := mem_members.mp hq
    have hfin := hcomplete q hq
    cases hphase : s.phase q with
    | adding added =>
        rw [hphase] at hfin
        exact hfin.elim
    | left => rfl
    | collecting c => exact absurd hphase (hopen.phase q (mem_members.mpr ⟨hq, heq⟩) c)
  · obtain ⟨hq, heq⟩ := mem_members.mp hclosed.member
    have hfin := hcomplete q hq
    rw [hclosed.phase, heq] at hfin
    exact ⟨q, c, hclosed, hfin⟩

/-- A complete run leaves the sums in the output. -/
theorem out_complete (h : Exec (Step D) (start ws cnt out) tr s) (hclean : D.Clean ws cnt)
    (hcomplete : D.Complete s) (hp : p ∈ D.parties) (hi : i ∈ D.cells (D.tile p)) :
    s.out (D.outAddr (D.tile p) i) = D.total (D.tile p) i := by
  obtain ⟨q, c, hclosed, hst, -⟩ := tile_complete h hclean hcomplete hp
  exact hclosed.out i hi (hst hi)

/-- What no step changes, no run changes. -/
theorem exec_frame {β : Type} (f : ReductionState P I A R → β)
    (hf : ∀ s p a s', Step D s (p, a) () s' → f s' = f s) (h : Exec (Step D) s₀ tr s) :
    f s = f s₀ :=
  (h.invariant (fun s => f s = f s₀) (fun _ _ => True)
    (fun s l _ s' heq _ hstep => (hf s l.1 l.2 s' hstep).trans heq) rfl fun _ _ => trivial).1

/-- A complete run leaves the scratch zero. -/
theorem clean_complete (h : Exec (Step D) (start ws cnt out) tr s) (hclean : D.Clean ws cnt)
    (hcomplete : D.Complete s) : D.Clean s.ws s.cnt := by
  intro p hp
  obtain ⟨q, c, hclosed, -, hre, hcnt⟩ := tile_complete h hclean hcomplete hp
  refine ⟨hclosed.cnt.trans (if_pos hcnt), fun i hi => ?_⟩
  exact (hclosed.ws i hi).trans (if_pos (hre hi))

/-- A complete run leaves the scratch as it was. -/
theorem scratch_complete (h : Exec (Step D) (start ws cnt out) tr s) (hclean : D.Clean ws cnt)
    (hcomplete : D.Complete s) : s.ws = ws ∧ s.cnt = cnt := by
  have hzero := clean_complete h hclean hcomplete
  constructor
  · funext x
    by_cases htile : ∃ p ∈ D.parties, ∃ i ∈ D.cells (D.tile p), x = D.wsAddr (D.tile p) i
    · obtain ⟨p, hp, i, hi, rfl⟩ := htile
      rw [(hzero p hp).2 i hi, (hclean p hp).2 i hi]
    · exact exec_frame (fun s => s.ws x) (fun _ _ _ _ hstep => hstep.ws_frame
        fun j hj heq => htile ⟨_, hstep.mem_parties, j, hj, heq⟩) h
  · funext x
    by_cases htile : ∃ p ∈ D.parties, x = D.cntAddr (D.tile p)
    · obtain ⟨p, hp, rfl⟩ := htile
      rw [(hzero p hp).1, (hclean p hp).1]
    · exact exec_frame (fun s => s.cnt x) (fun _ _ _ _ hstep => hstep.cnt_frame
        fun heq => htile ⟨_, hstep.mem_parties, heq⟩) h

/-! ### Who writes -/

theorem Step.collecting_mono (h : Step D s (p, a) () s') {c : Collecting I R}
    (hq : s.phase q = .collecting c) : ∃ c', s'.phase q = .collecting c' := by
  by_cases heq : q = p
  · subst heq
    cases h with
    | add _ hphase _ _ => cases hq.symm.trans hphase
    | arrive _ hphase _ => cases hq.symm.trans hphase
    | load _ _ _ _ => exact ⟨_, Function.update_self ..⟩
    | store _ _ _ _ _ => exact ⟨_, Function.update_self ..⟩
    | reset _ _ _ _ _ => exact ⟨_, Function.update_self ..⟩
    | resetCnt _ _ _ => exact ⟨_, Function.update_self ..⟩
  · exact ⟨c, (h.phase_other heq).trans hq⟩

/-- Who writes a cell out collects to the end. -/
theorem collecting_of_store (h : Exec (Step D) s₀ tr s) {e} (he : e ∈ tr)
    (hlabel : e.label = (p, .store i)) : p ∈ D.parties ∧ ∃ c, s.phase p = .collecting c := by
  obtain ⟨tr₁, tr₂, heq⟩ := List.append_of_mem he
  have hstep := h.step_of_mem e he
  rw [hlabel] at hstep
  have hpost : ∃ c, e.post.phase p = .collecting c := by
    generalize e.post = s₁ at hstep
    cases hstep with
    | store _ _ _ _ _ => exact ⟨_, Function.update_self ..⟩
  exact ⟨hstep.mem_parties, ((h.after_event heq).invariant
    (fun s => ∃ c, s.phase p = .collecting c) (fun _ _ => True)
    (fun _ _ _ _ hc _ hstep => hc.elim fun _ hc => hstep.collecting_mono hc) hpost
    fun _ _ => trivial).1⟩

theorem Step.stored_of (h : Step D s (p, a) () s') {c : Collecting I R}
    (hq : s'.phase q = .collecting c) (hi : i ∈ c.stored) :
    (p, a) = (q, .store i) ∨ ∃ c', s.phase q = .collecting c' ∧ i ∈ c'.stored := by
  by_cases heq : q = p
  · subst heq
    cases h with
    | add _ _ _ _ =>
        simp only [Function.update_self] at hq
        cases hq
    | arrive _ _ _ =>
        simp only [Function.update_self] at hq
        split at hq
        · rw [← Phase.collecting.inj hq] at hi
          exact absurd hi (Finset.notMem_empty i)
        · cases hq
    | load _ hphase _ _ =>
        simp only [Function.update_self] at hq
        obtain rfl := Phase.collecting.inj hq
        exact .inr ⟨_, hphase, hi⟩
    | store _ hphase _ _ _ =>
        simp only [Function.update_self] at hq
        obtain rfl := Phase.collecting.inj hq
        rcases Finset.mem_insert.mp hi with rfl | hi
        · exact .inl rfl
        · exact .inr ⟨_, hphase, hi⟩
    | reset _ hphase _ _ _ =>
        simp only [Function.update_self] at hq
        obtain rfl := Phase.collecting.inj hq
        exact .inr ⟨_, hphase, hi⟩
    | resetCnt _ hphase _ =>
        simp only [Function.update_self] at hq
        obtain rfl := Phase.collecting.inj hq
        exact .inr ⟨_, hphase, hi⟩
  · exact .inr ⟨c, (h.phase_other heq).symm.trans hq, hi⟩

/-- What a collecting party has written out, it has written out in this run. -/
theorem store_of_stored (h : Exec (Step D) (start ws cnt out) tr s) {c : Collecting I R}
    (hphase : s.phase p = .collecting c) (hi : i ∈ c.stored) :
    ∃ e ∈ tr, e.label = (p, .store i) := by
  induction h generalizing c with
  | nil => cases hphase
  | @snoc tr s s' l o _ hstep ih =>
      rcases hstep.stored_of hphase hi with hlabel | ⟨c', hphase', hi'⟩
      · exact ⟨⟨s, l, o, s'⟩, by simp, hlabel⟩
      · obtain ⟨e, he, hlabel⟩ := ih hphase' hi'
        exact ⟨e, List.mem_append_left _ he, hlabel⟩

/-- In a complete run one party writes out a tile. -/
theorem existsUnique_store (h : Exec (Step D) (start ws cnt out) tr s) (hclean : D.Clean ws cnt)
    (hcomplete : D.Complete s) (hp : p ∈ D.parties) (hcell : (D.cells (D.tile p)).Nonempty) :
    ∃! q, q ∈ D.members (D.tile p) ∧ ∃ e ∈ tr, ∃ i, e.label = (q, .store i) := by
  obtain ⟨q, c, hclosed, hst, -⟩ := tile_complete h hclean hcomplete hp
  obtain ⟨i, hi⟩ := hcell
  obtain ⟨e, he, hlabel⟩ := store_of_stored h hclosed.phase (hst hi)
  refine ⟨q, ⟨hclosed.member, e, he, i, hlabel⟩, ?_⟩
  rintro r ⟨hr, e', he', j, hlabel'⟩
  obtain ⟨-, c', hphase⟩ := collecting_of_store h he' hlabel'
  by_contra hne
  cases (hclosed.others r hr hne).symm.trans hphase

/-! ### Every run can be completed -/

def totalWork (D : SplitReduction P T I A R) (s : ReductionState P I A R) : ℕ :=
  ∑ p ∈ D.parties, (s.phase p).work (D.cells (D.tile p))

theorem Step.work_lt (h : Step D s (p, a) () s') :
    (s'.phase p).work (D.cells (D.tile p)) < (s.phase p).work (D.cells (D.tile p)) := by
  have hsdiff : ∀ {done : Finset I} {i}, i ∈ D.cells (D.tile p) → i ∉ done →
      #(D.cells (D.tile p) \ insert i done) < #(D.cells (D.tile p) \ done) := by
    intro done i hi hnew
    rw [Finset.sdiff_insert]
    exact Finset.card_erase_lt_of_mem (Finset.mem_sdiff.mpr ⟨hi, hnew⟩)
  cases h with
  | add hp hphase hi hnew =>
      have := hsdiff hi hnew
      simp only [Function.update_self, hphase, Phase.work]
      omega
  | arrive hp hphase hall =>
      simp only [Function.update_self, hphase]
      split
      · simp only [Phase.work, Finset.filter_true, Finset.sdiff_empty, Bool.false_eq_true, if_false]
        omega
      · simp only [Phase.work]
        omega
  | load hp hphase hi hnew =>
      rename_i i c
      have hread : {j ∈ D.cells (D.tile p) | Function.update c.tot i
          (some (s.ws (D.wsAddr (D.tile p) i))) j = none}
          = ({j ∈ D.cells (D.tile p) | c.tot j = none} : Finset I).erase i := by
        ext j
        by_cases heq : j = i
        · simp [heq]
        · simp [heq]
      have hmem : i ∈ ({j ∈ D.cells (D.tile p) | c.tot j = none} : Finset I) :=
        Finset.mem_filter.mpr ⟨hi, hnew⟩
      have := Finset.card_erase_lt_of_mem hmem
      simp only [Function.update_self, hphase, Phase.work, hread]
      omega
  | store hp hphase hi hread hnew =>
      have := hsdiff hi hnew
      simp only [Function.update_self, hphase, Phase.work]
      omega
  | reset hp hphase hi hread hnew =>
      have := hsdiff hi hnew
      simp only [Function.update_self, hphase, Phase.work]
      omega
  | resetCnt hp hphase hnew =>
      simp [hphase, Phase.work, hnew]

theorem Step.totalWork_lt (h : Step D s (p, a) () s') : D.totalWork s' < D.totalWork s := by
  refine Finset.sum_lt_sum (fun q _ => ?_) ⟨p, h.mem_parties, h.work_lt⟩
  by_cases heq : q = p
  · exact heq ▸ h.work_lt.le
  · rw [h.phase_other heq]

/-- No run is longer than its work. -/
theorem length_add_totalWork_le (h : Exec (Step D) s₀ tr s) :
    tr.length + D.totalWork s ≤ D.totalWork s₀ := by
  induction h with
  | nil => simp
  | snoc _ hstep ih =>
      have := hstep.totalWork_lt
      simp only [List.length_append, List.length_singleton]
      omega

/-- A party that is not done can take a step. -/
theorem exists_step (hp : p ∈ D.parties) (h : ¬ (s.phase p).Finished (D.cells (D.tile p))) :
    ∃ a s', Step D s (p, a) () s' := by
  cases hphase : s.phase p with
  | adding added =>
      by_cases hall : D.cells (D.tile p) ⊆ added
      · exact ⟨_, _, .arrive hp hphase hall⟩
      · obtain ⟨i, hi, hnew⟩ := Finset.not_subset.mp hall
        exact ⟨_, _, .add hp hphase hi hnew⟩
  | left =>
      rw [hphase] at h
      exact absurd trivial h
  | collecting c =>
      by_cases hread : ∃ i ∈ D.cells (D.tile p), c.tot i = none
      · obtain ⟨i, hi, hnew⟩ := hread
        exact ⟨_, _, .load hp hphase hi hnew⟩
      · have hsome : ∀ i ∈ D.cells (D.tile p), ∃ v, c.tot i = some v := fun i hi =>
          Option.ne_none_iff_exists'.mp fun hnone => hread ⟨i, hi, hnone⟩
        by_cases hst : D.cells (D.tile p) ⊆ c.stored
        · by_cases hre : D.cells (D.tile p) ⊆ c.reset
          · rw [hphase] at h
            exact ⟨_, _, .resetCnt hp hphase (Bool.eq_false_iff.mpr fun hcnt => h ⟨hst, hre, hcnt⟩)⟩
          · obtain ⟨i, hi, hnew⟩ := Finset.not_subset.mp hre
            obtain ⟨v, hv⟩ := hsome i hi
            exact ⟨_, _, .reset hp hphase hi hv hnew⟩
        · obtain ⟨i, hi, hnew⟩ := Finset.not_subset.mp hst
          obtain ⟨v, hv⟩ := hsome i hi
          exact ⟨_, _, .store hp hphase hi hv hnew⟩

/-- Every run can be completed. -/
theorem exists_complete (D : SplitReduction P T I A R) (s : ReductionState P I A R) :
    ∃ tr s', Exec (Step D) s tr s' ∧ D.Complete s' := by
  induction hw : D.totalWork s using Nat.strong_induction_on generalizing s with
  | _ n ih =>
      by_cases hcomplete : D.Complete s
      · exact ⟨[], s, .nil, hcomplete⟩
      · rw [Complete] at hcomplete
        push Not at hcomplete
        obtain ⟨p, hp, hnot⟩ := hcomplete
        obtain ⟨a, s₁, hstep⟩ := exists_step hp hnot
        obtain ⟨tr, s', hexec, hdone⟩ := ih _ (hw ▸ hstep.totalWork_lt) s₁ rfl
        exact ⟨_, s', .cons hstep hexec, hdone⟩

end Runs

end SplitReduction

end Lib
