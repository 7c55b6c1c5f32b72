import Mathlib.Data.List.Infix
import Mathlib.Tactic.Ring

/-!
# A queue served in batches

One queue of arrival times that is looked at now and then. A queue of `W` or
more gives as many full batches of `W` as it holds; a shorter queue leaves
as a whole once its head is late.

Two stations with the same arrivals and the same looks that differ in what
they call late drift apart: after a flush in one of them every later batch
is made of other arrivals. `Behind` is how far the second station can fall
behind the first one in full batches. Only one thing sets it back: it
flushes at a look behind which the first station still holds arrivals
(`run_behind`). With batches of at most two and a second station that is the
more patient one this does not happen (`setbacks_eq_zero`), with larger ones
it may happen in every round (`setbackRound`).
-/

namespace Lib

structure Station (K : Type) where
  queue : List K
  /-- Full batches so far. -/
  batches : ℕ

inductive Visit (K : Type) where
  | arrive (a : K)
  | look (t : K)

/-- The time of a visit. -/
def Visit.time {K : Type} : Visit K → K
  | .arrive a => a
  | .look t => t

namespace Station

variable {K : Type}

/-- The head is late at `t`. -/
def headLate (late : K → K → Bool) (t : K) (s : Station K) : Bool := s.queue.head?.any (late t)

/-- A short queue leaves at `t`. -/
def flushes (W : ℕ) (late : K → K → Bool) (t : K) (s : Station K) : Bool :=
  decide (s.queue.length < W) && s.headLate late t

def look (W : ℕ) (late : K → K → Bool) (t : K) (s : Station K) : Station K :=
  if W ≤ s.queue.length then
    ⟨s.queue.drop (s.queue.length / W * W), s.batches + s.queue.length / W⟩
  else if s.headLate late t then ⟨[], s.batches⟩
  else s

def serve (W : ℕ) (late : K → K → Bool) (s : Station K) : Visit K → Station K
  | .arrive a => { s with queue := s.queue ++ [a] }
  | .look t => s.look W late t

/-- A short queue leaves at the visit. -/
def flushesAt (W : ℕ) (late : K → K → Bool) (s : Station K) : Visit K → Bool
  | .arrive _ => false
  | .look t => s.flushes W late t

def run (W : ℕ) (late : K → K → Bool) : Station K → List (Visit K) → Station K :=
  List.foldl (serve W late)

section Look

variable {W : ℕ} {late : K → K → Bool} {t : K} {s : Station K}

/-- The three results of a look. -/
theorem look_cases (W : ℕ) (late : K → K → Bool) (t : K) (s : Station K) :
    (W ≤ s.queue.length ∧ s.flushes W late t = false ∧ s.look W late t
        = ⟨s.queue.drop (s.queue.length / W * W), s.batches + s.queue.length / W⟩)
      ∨ (s.queue.length < W ∧ s.flushes W late t = true ∧ s.look W late t = ⟨[], s.batches⟩)
      ∨ (s.queue.length < W ∧ s.flushes W late t = false ∧ s.look W late t = s) := by
  unfold look flushes
  by_cases hlong : W ≤ s.queue.length
  · rw [if_pos hlong, decide_eq_false (Nat.not_lt.mpr hlong)]
    exact .inl ⟨hlong, rfl, rfl⟩
  · have hshort : s.queue.length < W := Nat.not_le.mp hlong
    rw [if_neg hlong, decide_eq_true hshort]
    cases hlate : s.headLate late t with
    | true => exact .inr (.inl ⟨hshort, rfl, rfl⟩)
    | false => exact .inr (.inr ⟨hshort, rfl, rfl⟩)

theorem look_of_late (hshort : s.queue.length < W) (hlate : s.headLate late t = true) :
    s.look W late t = ⟨[], s.batches⟩ := by
  rw [look, if_neg (Nat.not_le.mpr hshort), if_pos hlate]

theorem look_of_early (hshort : s.queue.length < W) (hearly : s.headLate late t = false) :
    s.look W late t = s := by
  rw [look, if_neg (Nat.not_le.mpr hshort), hearly, if_neg Bool.false_ne_true]

variable (late t s) in
theorem length_look_lt (hW : 0 < W) : (s.look W late t).queue.length < W := by
  rcases look_cases W late t s with ⟨-, -, heq⟩ | ⟨-, -, heq⟩ | ⟨hshort, -, heq⟩
  · rw [heq, List.length_drop]
    have hmod := Nat.mod_lt s.queue.length hW
    have hdiv := Nat.div_add_mod' s.queue.length W
    omega
  · rw [heq]
    exact hW
  · rwa [heq]

variable (W late t s) in
/-- A look loses nothing but what it flushes. -/
theorem look_conserves :
    W * (s.look W late t).batches + (s.look W late t).queue.length
        + (if s.flushes W late t then s.queue.length else 0)
      = W * s.batches + s.queue.length := by
  rcases look_cases W late t s with ⟨-, hflush, heq⟩ | ⟨-, hflush, heq⟩ | ⟨-, hflush, heq⟩
  · have hdiv := Nat.div_add_mod' s.queue.length W
    have hsplit : W * (s.batches + s.queue.length / W)
        = W * s.batches + s.queue.length / W * W := by ring
    rw [heq, hflush, List.length_drop, hsplit, if_neg Bool.false_ne_true]
    omega
  · rw [heq, hflush, List.length_nil, if_pos rfl, Nat.add_zero]
  · rw [heq, hflush, if_neg Bool.false_ne_true, Nat.add_zero]

theorem look_of_flushes (h : s.flushes W late t = true) : (s.look W late t).queue = [] := by
  rcases look_cases W late t s with ⟨-, hflush, -⟩ | ⟨-, -, heq⟩ | ⟨-, hflush, -⟩
  · exact absurd (hflush.symm.trans h) Bool.false_ne_true
  · rw [heq]
  · exact absurd (hflush.symm.trans h) Bool.false_ne_true

theorem look_of_dvd (h : W ∣ s.queue.length) : (s.look W late t).queue = [] := by
  rcases look_cases W late t s with ⟨-, -, heq⟩ | ⟨-, -, heq⟩ | ⟨hshort, -, heq⟩
  · rw [heq, Nat.div_mul_cancel h]
    exact List.drop_length
  · rw [heq]
  · rw [heq]
    exact List.eq_nil_of_length_eq_zero (Nat.eq_zero_of_dvd_of_lt h hshort)

theorem queue_look_suffix : (s.look W late t).queue <:+ s.queue := by
  rcases look_cases W late t s with ⟨-, -, heq⟩ | ⟨-, -, heq⟩ | ⟨-, -, heq⟩
  · rw [heq]
    exact List.drop_suffix ..
  · rw [heq]
    exact List.nil_suffix
  · rw [heq]

end Look

/-! ## Two stations -/

section Two

variable {W : ℕ} {late late' : K → K → Bool}

/-- The second station flushes at a visit behind which the first one holds arrivals. -/
def setback (W : ℕ) (late late' : K → K → Bool) (s s' : Station K) (v : Visit K) : Bool :=
  s'.flushesAt W late' v && !(s.serve W late v).queue.isEmpty

/-- The setbacks of the second station in a run. -/
def setbacks (W : ℕ) (late late' : K → K → Bool) : Station K → Station K → List (Visit K) → ℕ
  | _, _, [] => 0
  | s, s', v :: vs =>
      (if setback W late late' s s' v then 1 else 0)
        + setbacks W late late' (s.serve W late v) (s'.serve W late' v) vs

/-- The second station is at most `d` batches behind, also when both count what they
hold. -/
structure Behind (W : ℕ) (s s' : Station K) (d : ℕ) : Prop where
  total : W * s.batches + s.queue.length ≤ W * (s'.batches + d) + s'.queue.length
  batches : s.batches ≤ s'.batches + d

theorem le_of_total {w w' q' : ℕ} (hq : q' < W) (h : W * w ≤ W * w' + q') : w ≤ w' := by
  by_contra hlt
  have hmul : W * (w' + 1) ≤ W * w := Nat.mul_le_mul_left W (Nat.not_le.mp hlt)
  rw [Nat.mul_add, Nat.mul_one] at hmul
  omega

theorem Behind.arrive {s s' : Station K} {d : ℕ} (h : Behind W s s' d) (a : K) :
    Behind W { s with queue := s.queue ++ [a] } { s' with queue := s'.queue ++ [a] } d := by
  refine ⟨?_, h.batches⟩
  have htotal := h.total
  simp only [List.length_append, List.length_singleton]
  omega

variable (late) in
/-- What the first station loses at a look is the gain of the second one. -/
theorem Behind.total_look {s s' : Station K} {d : ℕ} (h : Behind W s s' d) (t : K) :
    W * (s.look W late t).batches + (s.look W late t).queue.length
      ≤ W * (s'.batches + d) + s'.queue.length := by
  have htotal := h.total
  have hkeep := look_conserves W late t s
  omega

/-- The second station keeps what it does not give in batches. -/
theorem Behind.look_of_keep (hW : 0 < W) {s s' : Station K} {d : ℕ} (h : Behind W s s' d) {t : K}
    (hflush : s'.flushes W late' t = false) :
    Behind W (s.look W late t) (s'.look W late' t) d := by
  have hle := h.total_look late t
  have hkeep := look_conserves W late' t s'
  have hshort := length_look_lt late' t s' hW
  rw [hflush, if_neg Bool.false_ne_true, Nat.add_zero] at hkeep
  have hmul : ∀ w, W * (w + d) = W * w + W * d := fun w => Nat.mul_add ..
  have htotal : W * (s.look W late t).batches + (s.look W late t).queue.length
      ≤ W * ((s'.look W late' t).batches + d) + (s'.look W late' t).queue.length := by
    rw [hmul] at hle ⊢
    omega
  exact ⟨htotal, le_of_total hshort (by omega)⟩

variable (late) in
/-- The second station flushes less than a batch, which is a setback if the first one holds
arrivals. -/
theorem Behind.look_of_flush (hW : 0 < W) {s s' : Station K} {d : ℕ} (h : Behind W s s' d) (t : K)
    (hshort : s'.queue.length < W) :
    Behind W (s.look W late t) ⟨[], s'.batches⟩
      (d + if (s.look W late t).queue.isEmpty then 0 else 1) := by
  have hle := h.total_look late t
  cases hempty : (s.look W late t).queue.isEmpty with
  | true =>
      have hnil := List.isEmpty_iff.mp hempty
      have hbatches : (s.look W late t).batches ≤ s'.batches + d :=
        le_of_total hshort (by omega)
      refine ⟨?_, hbatches⟩
      rw [hnil]
      exact Nat.mul_le_mul_left W hbatches
  | false =>
      have hmul : W * (s'.batches + (d + 1)) = W * (s'.batches + d) + W := by ring
      rw [if_neg Bool.false_ne_true]
      refine ⟨?_, le_of_total hW ?_⟩
      · show _ ≤ W * (s'.batches + (d + 1)) + 0
        omega
      · show _ ≤ W * (s'.batches + (d + 1)) + 0
        omega

variable (late late') in
theorem Behind.look (hW : 0 < W) {s s' : Station K} {d : ℕ} (h : Behind W s s' d) (t : K) :
    Behind W (s.look W late t) (s'.look W late' t)
      (d + if setback W late late' s s' (.look t) then 1 else 0) := by
  rcases look_cases W late' t s' with ⟨-, hflush, -⟩ | ⟨hshort, hflush, heq⟩ | ⟨-, hflush, -⟩
  case inr.inl =>
    have hlook := h.look_of_flush late hW t hshort
    rw [setback, flushesAt, serve, hflush, heq, Bool.true_and]
    cases hempty : (s.look W late t).queue.isEmpty with
    | true => rwa [hempty] at hlook
    | false => rwa [hempty] at hlook
  all_goals
    rw [setback, flushesAt, hflush, Bool.false_and, if_neg Bool.false_ne_true, Nat.add_zero]
    exact h.look_of_keep hW hflush

variable (late late') in
theorem run_behind (hW : 0 < W) : ∀ (vs : List (Visit K)) {s s' : Station K} {d : ℕ},
    Behind W s s' d →
    Behind W (s.run W late vs) (s'.run W late' vs) (d + setbacks W late late' s s' vs)
  | [], _, _, _, h => h
  | .arrive a :: vs, s, s', d, h => by
      have hrun := run_behind hW vs (h.arrive a)
      rw [setbacks, setback, flushesAt, Bool.false_and, if_neg Bool.false_ne_true, Nat.zero_add]
      exact hrun
  | .look t :: vs, s, s', d, h => by
      have hrun := run_behind hW vs (h.look late late' hW t)
      rw [setbacks, ← Nat.add_assoc]
      exact hrun

/-! ### Batches of one and two -/

/-- Neither station holds a batch more than the other one, and what they hold are ends of
one list of arrivals. -/
structure Near (W : ℕ) (s s' : Station K) : Prop where
  left : s.queue.length < s'.queue.length + W
  right : s'.queue.length < s.queue.length + W
  arrivals : ∃ l, s.queue <:+ l ∧ s'.queue <:+ l

theorem Near.serve (hW : 0 < W) {s s' : Station K} (h : Near W s s') (v : Visit K) :
    Near W (s.serve W late v) (s'.serve W late' v) := by
  obtain ⟨l, hl, hl'⟩ := h.arrivals
  cases v with
  | arrive a =>
      have hleft := h.left
      have hright := h.right
      refine ⟨?_, ?_, l ++ [a], List.suffix_append_self_iff.mpr hl,
        List.suffix_append_self_iff.mpr hl'⟩
      · simp only [Station.serve, List.length_append]
        omega
      · simp only [Station.serve, List.length_append]
        omega
  | look t =>
      have hshort := length_look_lt late t s hW
      have hshort' := length_look_lt late' t s' hW
      exact ⟨Nat.lt_of_lt_of_le hshort (Nat.le_add_left ..),
        Nat.lt_of_lt_of_le hshort' (Nat.le_add_left ..),
        l, queue_look_suffix.trans hl, queue_look_suffix.trans hl'⟩

/-- At most two arrivals are gone after a look with batches of two, if the last one is late. -/
theorem queue_look_two {s : Station K} {t a : K} {l : List K} (hlen : s.queue.length ≤ 2)
    (hl : s.queue <:+ l) (ha : [a] <:+ l) (hlate : late t a = true) :
    (s.look 2 late t).queue = [] := by
  match hs : s.queue with
  | [] => exact look_of_dvd (by rw [hs]; exact Nat.dvd_zero 2)
  | [b] =>
      have hba : [b] = [a] := by
        rw [hs] at hl
        exact (List.suffix_of_suffix_length_le hl ha le_rfl).eq_of_length rfl
      obtain rfl := (List.cons.inj hba).1
      refine look_of_flushes ?_
      rw [flushes, headLate, hs, List.head?_cons, Option.any_some, hlate]
      rfl
  | [b, c] => exact look_of_dvd (by rw [hs]; exact Nat.dvd_refl 2)
  | b :: c :: d :: rest =>
      rw [hs] at hlen
      simp only [List.length_cons] at hlen
      omega

/-- A single late arrival is alone in the other queue as well, or is the second one of a
batch. -/
theorem Near.no_setback (hW : W ≤ 2) (hlate : ∀ t a, late' t a = true → late t a = true)
    {s s' : Station K} (h : Near W s s') (v : Visit K) :
    setback W late late' s s' v = false := by
  cases v with
  | arrive a => rfl
  | look t =>
      cases hflush : s'.flushes W late' t with
      | false => rw [setback, flushesAt, hflush, Bool.false_and]
      | true =>
          rw [flushes, Bool.and_eq_true, decide_eq_true_eq, headLate, Option.any_eq_true] at hflush
          obtain ⟨hshort, a, hhead, ha⟩ := hflush
          obtain ⟨q, hq⟩ := List.head?_eq_some_iff.mp hhead
          have hleft := h.left
          obtain ⟨l, hl, hl'⟩ := h.arrivals
          rw [hq] at hshort hleft hl'
          simp only [List.length_cons] at hshort hleft
          obtain rfl : q = [] := List.eq_nil_of_length_eq_zero (by omega)
          obtain rfl : W = 2 := by omega
          have hgone := queue_look_two (s := s) (by omega) hl hl' (hlate t a ha)
          rw [setback, Station.serve, hgone, List.isEmpty_nil, Bool.not_true, Bool.and_false]

theorem setbacks_eq_zero (hpos : 0 < W) (hW : W ≤ 2)
    (hlate : ∀ t a, late' t a = true → late t a = true) : ∀ (vs : List (Visit K))
    {s s' : Station K}, Near W s s' → setbacks W late late' s s' vs = 0
  | [], _, _, _ => rfl
  | v :: vs, s, s', h => by
      rw [setbacks, h.no_setback hW hlate v, setbacks_eq_zero hpos hW hlate vs (h.serve hpos v)]
      rfl

/-! ### Batches of three and more -/

/-- A round that costs the second station a batch. The arrival at `p` is late to the first
one at `t`, and to the second one at `u` when it has company; the rest of a batch follows.
At `w` nothing stays. -/
def setbackRound (W : ℕ) (p t u w : K) : List (Visit K) :=
  .arrive p :: .look t :: .arrive u :: .look u
    :: (List.replicate (W - 1) (.arrive u) ++ [.look u, .look w])

variable (W late) in
theorem run_arrivals (a : K) (vs : List (Visit K)) : ∀ (n : ℕ) (s : Station K),
    s.run W late (List.replicate n (.arrive a) ++ vs)
      = Station.run W late ⟨s.queue ++ List.replicate n a, s.batches⟩ vs
  | 0, s => by
      rw [List.replicate_zero, List.replicate_zero, List.append_nil]
      rfl
  | n + 1, s => by
      have hrun := run_arrivals a vs n ⟨s.queue ++ [a], s.batches⟩
      rw [List.append_assoc, List.singleton_append, ← List.replicate_succ] at hrun
      exact hrun

section Round

variable {p t u w : K} (hW : 3 ≤ W)

include hW

/-- The second arrival begins a full batch. -/
theorem run_setbackRound_left (hp : late t p = true) (hu : late u u = false) (n : ℕ) :
    Station.run W late ⟨[], n⟩ (setbackRound W p t u w) = ⟨[], n + 1⟩ := by
  have hone : Station.look W late t ⟨[p], n⟩ = ⟨[], n⟩ :=
    look_of_late (show 1 < W by omega) hp
  have hkeep : Station.look W late u ⟨[u], n⟩ = ⟨[u], n⟩ :=
    look_of_early (show 1 < W by omega) hu
  have hlen : ([u] ++ List.replicate (W - 1) u).length = W := by
    rw [List.length_append, List.length_replicate, List.length_singleton]
    omega
  have hbatch : Station.look W late u ⟨[u] ++ List.replicate (W - 1) u, n⟩ = ⟨[], n + 1⟩ := by
    rw [look, if_pos hlen.ge, hlen, Nat.div_self (by omega), Nat.one_mul]
    exact congrArg (Station.mk · (n + 1)) (List.drop_eq_nil_of_le hlen.le)
  have hnone : Station.look W late w ⟨[], n + 1⟩ = ⟨[], n + 1⟩ :=
    look_of_early (show 0 < W by omega) rfl
  show Station.run W late (Station.look W late t ⟨[p], n⟩) _ = _
  rw [hone]
  show Station.run W late (Station.look W late u ⟨[u], n⟩) _ = _
  rw [hkeep, run_arrivals]
  show Station.look W late w (Station.look W late u _) = _
  rw [hbatch, hnone]

/-- It leaves with the first one, and the rest is one short of a batch. -/
theorem run_setbackRound_right (hp : late t p = false) (hp' : late u p = true)
    (hu : late u u = false) (hw : late w u = true) (n : ℕ) :
    Station.run W late ⟨[], n⟩ (setbackRound W p t u w) = ⟨[], n⟩ := by
  have hkeep : Station.look W late t ⟨[p], n⟩ = ⟨[p], n⟩ :=
    look_of_early (show 1 < W by omega) hp
  have htwo : Station.look W late u ⟨[p, u], n⟩ = ⟨[], n⟩ :=
    look_of_late (show 2 < W by omega) hp'
  obtain ⟨m, rfl⟩ : ∃ m, W = m + 2 := ⟨W - 2, by omega⟩
  have hlen : (List.replicate (m + 1) u).length < m + 2 := by
    rw [List.length_replicate]
    exact Nat.lt_succ_self _
  have hrest : Station.look (m + 2) late u ⟨List.replicate (m + 1) u, n⟩
      = ⟨List.replicate (m + 1) u, n⟩ := look_of_early hlen hu
  have hgone : Station.look (m + 2) late w ⟨List.replicate (m + 1) u, n⟩ = ⟨[], n⟩ :=
    look_of_late hlen hw
  show Station.run (m + 2) late (Station.look (m + 2) late t ⟨[p], n⟩) _ = _
  rw [hkeep]
  show Station.run (m + 2) late (Station.look (m + 2) late u ⟨[p, u], n⟩) _ = _
  rw [htwo, run_arrivals]
  show Station.look (m + 2) late w (Station.look (m + 2) late u
    ⟨List.replicate (m + 1) u, n⟩) = _
  rw [hrest, hgone]

end Round

/-- The times of a round, in their order. -/
theorem time_setbackRound [Preorder K] {p t u w : K} (hp : p ≤ t) (ht : t ≤ u) (hu : u ≤ w) :
    (setbackRound W p t u w).Pairwise (fun v v' => v.time ≤ v'.time)
      ∧ ∀ v ∈ setbackRound W p t u w, p ≤ v.time ∧ v.time ≤ w := by
  have hfill : ∀ v ∈ List.replicate (W - 1) (Visit.arrive u), v.time = u := fun v hv =>
    congrArg Visit.time (List.eq_of_mem_replicate hv)
  have hlast : ∀ v ∈ List.replicate (W - 1) (Visit.arrive u) ++ [.look u, .look w],
      u ≤ v.time ∧ v.time ≤ w := by
    intro v hv
    rcases List.mem_append.mp hv with hv | hv
    · rw [hfill v hv]
      exact ⟨le_rfl, hu⟩
    · rcases List.mem_pair.mp hv with rfl | rfl
      · exact ⟨le_rfl, hu⟩
      · exact ⟨hu, le_rfl⟩
  have hpu := hp.trans ht
  constructor
  · have hpair : List.Pairwise (fun v v' : Visit K => v.time ≤ v'.time)
        (List.replicate (W - 1) (.arrive u) ++ [.look u, .look w]) := by
      refine List.pairwise_append.mpr ⟨List.pairwise_replicate.mpr (.inr le_rfl),
        List.pairwise_pair.mpr hu, fun v hv v' hv' => ?_⟩
      rw [hfill v hv]
      exact (hlast v' (List.mem_append_right _ hv')).1
    simp only [setbackRound, List.pairwise_cons, List.mem_cons, forall_eq_or_imp, Visit.time]
    exact ⟨⟨hp, hpu, hpu, fun v hv => hpu.trans (hlast v hv).1⟩,
      ⟨ht, ht, fun v hv => ht.trans (hlast v hv).1⟩, ⟨le_rfl, fun v hv => (hlast v hv).1⟩,
      fun v hv => (hlast v hv).1, hpair⟩
  · simp only [setbackRound, List.mem_cons, forall_eq_or_imp, Visit.time]
    exact ⟨⟨le_rfl, hpu.trans hu⟩, ⟨hp, ht.trans hu⟩, ⟨hpu, hu⟩, ⟨hpu, hu⟩,
      fun v hv => ⟨hpu.trans (hlast v hv).1, (hlast v hv).2⟩⟩

/-- Rounds that each empty the station and give `g` batches. -/
theorem run_rounds {round : ℕ → List (Visit K)} {g : ℕ}
    (h : ∀ i n, Station.run W late ⟨[], n⟩ (round i) = ⟨[], n + g⟩) (n : ℕ) :
    Station.run W late ⟨[], 0⟩ ((List.range n).flatMap round) = ⟨[], n * g⟩ := by
  induction n with
  | zero =>
      rw [Nat.zero_mul]
      rfl
  | succ n ih =>
      rw [List.range_succ, List.flatMap_append, List.flatMap_singleton, Nat.succ_mul, run,
        List.foldl_append]
      exact (congrArg (Station.run W late · (round n)) ih).trans (h n _)

end Two

end Station

end Lib
