import Mathlib.Tactic.Linarith
import AdapterSlots.FullWarps

/-!
# Warps lost to a longer deadline

Every list of visits is a run of the buffer (`LoneRun.ofVisits`), so what two
stations can do, two deadlines can do. With warps of three tokens or more any
two different deadlines can lose a warp in each of as many rounds as one likes
(`longer_tmax_loses`), and so a longer `T_max` is harmless exactly for warps
of one token or two (`longer_tmax_harmless_iff`).
-/

namespace AdapterSlots

open Lib

namespace AlignmentBuffer

variable {K : Type}

/-! ## Visits as calls -/

namespace TwinCall

/-- The calls of a list of visits: new sequences from `s` on, batches of at most `cap`. -/
def ofVisits (cap : ℤ) : ℕ → List (Visit K) → List (TwinCall K)
  | _, [] => []
  | s, .arrive t :: vs => .enqueue s t :: ofVisits cap (s + 1) vs
  | s, .look t :: vs => .formBatch (some cap) (some cap) t :: ofVisits cap s vs

theorem visit_ofVisits (cap : ℤ) : ∀ (s : ℕ) (vs : List (Visit K)),
    (ofVisits cap s vs).map visit = vs
  | _, [] => rfl
  | s, .arrive t :: vs => congrArg (Visit.arrive t :: ·) (visit_ofVisits cap (s + 1) vs)
  | s, .look t :: vs => congrArg (Visit.look t :: ·) (visit_ofVisits cap s vs)

theorem time_ofVisits (cap : ℤ) : ∀ (s : ℕ) (vs : List (Visit K)),
    (ofVisits cap s vs).map time = vs.map Visit.time
  | _, [] => rfl
  | s, .arrive t :: vs => congrArg (t :: ·) (time_ofVisits cap (s + 1) vs)
  | s, .look t :: vs => congrArg (t :: ·) (time_ofVisits cap s vs)

/-- Both runs have the same calls. -/
theorem right_ofVisits (cap : ℤ) (k : String) : ∀ (s : ℕ) (vs : List (Visit K)),
    (ofVisits cap s vs).map (right k) = (ofVisits cap s vs).map (left k)
  | _, [] => rfl
  | s, .arrive t :: vs => congrArg (BufferCall.enqueue k s t :: ·) (right_ofVisits cap k (s + 1) vs)
  | s, .look t :: vs =>
      congrArg (BufferCall.formBatch .threshold (some cap) t :: ·) (right_ofVisits cap k s vs)

end TwinCall

variable [Field K] [LinearOrder K]

section Calls

variable {b : AlignmentBuffer K} {k : String} {calls : List (BufferCall K)} {vs : List (Visit K)}
  {s : ℕ} {t : K} {m : Option ℤ}

theorem LoneRun.nil (hb : Lone k b) : LoneRun k b [] [] :=
  ⟨hb, .nil, List.nodup_nil, fun _ h => absurd h List.not_mem_nil,
    fun _ h => absurd h List.not_mem_nil⟩

theorem LoneRun.enqueue (hb : Lone k b) (hs : s ∉ b.seqEnqueue)
    (h : LoneRun k (b.enqueue k s t) calls vs) :
    LoneRun k b (.enqueue k s t :: calls) (.arrive t :: vs) := by
  refine ⟨hb, .cons (.enqueue s t) h.drives, ?_, fun s' hs' => ?_, fun e he => ?_⟩
  · have hnot : s ∉ enqueued calls := fun hs' =>
      h.fresh s hs' (mem_seqEnqueue_enqueue.mpr (.inl rfl))
    exact List.nodup_cons.mpr ⟨hnot, h.distinct⟩
  · rcases List.mem_cons.mp hs' with rfl | hs'
    · exact hs
    · exact fun hold => h.fresh s' hs' (mem_seqEnqueue_enqueue.mpr (.inr hold))
  · rcases List.mem_cons.mp he with rfl | he
    · exact trivial
    · exact h.room e he

theorem LoneRun.formBatch (hb : Lone k b) (hroom : ((b.queue k).length : ℤ) ≤ b.budget m)
    (h : LoneRun k (b.formBatch m t).1 calls vs) :
    LoneRun k b (.formBatch .threshold m t :: calls) (.look t :: vs) := by
  have hsame : (b.formBatch m t).1.seqEnqueue = b.seqEnqueue :=
    seqEnqueue_apply DispatchCall.threshold b m t
  refine ⟨hb, .cons (.formBatch m t) h.drives, h.distinct, fun s' hs' => ?_, fun e he => ?_⟩
  · exact hsame ▸ h.fresh s' hs'
  · rcases List.mem_cons.mp he with rfl | he
    · exact hroom
    · exact h.room e he

/-- Every list of visits is a run, with batches that hold all its tokens. -/
theorem LoneRun.ofVisits {cap : ℕ} : ∀ {vs : List (Visit K)} {s : ℕ} {b : AlignmentBuffer K},
    Lone k b → (∀ s' ∈ b.seqEnqueue, s' < s) → (b.queue k).length + vs.length ≤ cap →
    LoneRun k b ((TwinCall.ofVisits cap s vs).map (TwinCall.left k)) vs
  | [], _, _, hb, _, _ => LoneRun.nil hb
  | .arrive t :: vs, s, b, hb, hold, hcap => by
      have hs : s ∉ b.seqEnqueue := fun hmem => Nat.lt_irrefl s (hold s hmem)
      refine .enqueue hb hs (ofVisits (hb.enqueue hs t).lone (fun s' hs' => ?_) ?_)
      · rcases mem_seqEnqueue_enqueue.mp hs' with rfl | hs'
        · exact Nat.lt_succ_self _
        · exact (hold s' hs').trans (Nat.lt_succ_self s)
      · rw [queue_enqueue hs, if_pos rfl, List.length_append, List.length_singleton]
        rw [List.length_cons] at hcap
        omega
  | .look t :: vs, s, b, hb, hold, hcap => by
      rw [List.length_cons] at hcap
      have hroom : ((b.queue k).length : ℤ) ≤ b.budget (some (cap : ℤ)) :=
        show ((b.queue k).length : ℤ) ≤ cap by omega
      have hserved := hb.formBatch hroom t
      have hlen : ((b.formBatch (some (cap : ℤ)) t).1.queue k).length ≤ (b.queue k).length := by
        have hsuffix : ((b.formBatch (some (cap : ℤ)) t).1.station k).queue
            <:+ (b.station k).queue := hserved.station ▸ Station.queue_look_suffix
        have hle := hsuffix.length_le
        rwa [station, station, List.length_map, List.length_map] at hle
      have hsame : (b.formBatch (some (cap : ℤ)) t).1.seqEnqueue = b.seqEnqueue :=
        seqEnqueue_apply DispatchCall.threshold b (some (cap : ℤ)) t
      exact .formBatch hb hroom (ofVisits hserved.lone (hsame ▸ hold) (by omega))

end Calls

/-! ## Rounds that lose a warp -/

section Rounds

variable [IsStrictOrderedRing K] {W : ℕ} {d d' : K}

/-- Round `i` for the deadlines `d` and `d'`. A round takes two of the longer ones. -/
def lossRound (W : ℕ) (d d' : K) (i : ℕ) : List (Visit K) :=
  Station.setbackRound W (i * (2 * d')) (i * (2 * d') + d) (i * (2 * d') + d')
    (i * (2 * d') + 2 * d')

theorem run_lossRound (hW : 3 ≤ W) (hpos : 0 < d) (hlt : d < d') (i n : ℕ) :
    Station.run W (expired d) ⟨[], n⟩ (lossRound W d d' i) = ⟨[], n + 1⟩
      ∧ Station.run W (expired d') ⟨[], n⟩ (lossRound W d d' i) = ⟨[], n⟩ := by
  have hpos' := hpos.trans hlt
  refine ⟨Station.run_setbackRound_left hW ?_ ?_ n,
    Station.run_setbackRound_right hW ?_ ?_ ?_ ?_ n⟩
  · exact decide_eq_true (add_sub_cancel_left _ d).ge
  · exact decide_eq_false (by rw [sub_self]; exact hpos.not_ge)
  · exact decide_eq_false (by rw [add_sub_cancel_left]; exact hlt.not_ge)
  · exact decide_eq_true (add_sub_cancel_left _ d').ge
  · exact decide_eq_false (by rw [sub_self]; exact hpos'.not_ge)
  · exact decide_eq_true (by linarith)

variable (W) in
theorem time_lossRound (hpos : 0 < d) (hlt : d < d') (i : ℕ) :
    (lossRound W d d' i).Pairwise (fun v v' => v.time ≤ v'.time)
      ∧ ∀ v ∈ lossRound W d d' i, (i : K) * (2 * d') ≤ v.time
        ∧ v.time ≤ (i : K) * (2 * d') + 2 * d' :=
  Station.time_setbackRound (by linarith) (by linarith) (by linarith)

variable (W) in
theorem pairwise_lossRounds (hpos : 0 < d) (hlt : d < d') (n : ℕ) :
    ((List.range n).flatMap (lossRound W d d')).Pairwise fun v v' => v.time ≤ v'.time := by
  refine List.pairwise_flatMap.mpr ⟨fun i _ => (time_lossRound W hpos hlt i).1,
    List.pairwise_lt_range.imp fun {i j} hij v hv v' hv' => ?_⟩
  have hcast : (i : K) + 1 ≤ j := by exact_mod_cast hij
  have hstart : ((i : K) + 1) * (2 * d') ≤ j * (2 * d') :=
    mul_le_mul_of_nonneg_right hcast (by linarith)
  have hend := ((time_lossRound W hpos hlt i).2 v hv).2
  have hnext := ((time_lossRound W hpos hlt j).2 v' hv').1
  linarith

end Rounds

/-! ## Two values of `T_max` -/

section Deadlines

variable (adapters : List String) (k : String) {W : ℕ} (hW : 0 < W) {tmaxMs tmaxMs' sloMs : K}

variable (sloMs) in
/-- Every list of visits happens in both runs. -/
theorem exists_calls (vs : List (Visit K)) : ∃ calls : List (TwinCall K),
    calls.map TwinCall.visit = vs ∧ calls.map TwinCall.time = vs.map Visit.time
      ∧ ∀ tmaxMs : K, LoneRun k (init adapters W hW tmaxMs sloMs) (calls.map (TwinCall.left k)) vs
        ∧ LoneRun k (init adapters W hW tmaxMs sloMs) (calls.map (TwinCall.right k)) vs := by
  refine ⟨TwinCall.ofVisits vs.length 0 vs, TwinCall.visit_ofVisits .., TwinCall.time_ofVisits ..,
    fun tmaxMs => ?_⟩
  have hrun : LoneRun k (init adapters W hW tmaxMs sloMs)
      ((TwinCall.ofVisits vs.length 0 vs).map (TwinCall.left k)) vs := by
    refine .ofVisits Lone.init (fun s hs => absurd hs List.not_mem_nil) ?_
    rw [queue_init, List.length_nil, Nat.zero_add]
  exact ⟨hrun, (TwinCall.right_ofVisits ..).symm ▸ hrun⟩

variable [IsStrictOrderedRing K]

/-- With warps of three and two deadlines below `T_SLO`, the longer one can lose all of `n`
warps. -/
theorem longer_tmax_loses (hthree : 3 ≤ W) (hpos : 0 < tmaxMs) (hlt : tmaxMs < tmaxMs')
    (hslo : tmaxMs' ≤ sloMs) (n : ℕ) :
    ∃ calls : List (TwinCall K), (calls.map TwinCall.time).Pairwise (· ≤ ·)
      ∧ LoneRun k (init adapters W hW tmaxMs sloMs) (calls.map (TwinCall.left k))
        (calls.map TwinCall.visit)
      ∧ LoneRun k (init adapters W hW tmaxMs' sloMs) (calls.map (TwinCall.right k))
        (calls.map TwinCall.visit)
      ∧ fullWarpTokens W (history BufferCall.apply (init adapters W hW tmaxMs sloMs)
          (calls.map (TwinCall.left k))) = W * n
      ∧ fullWarpTokens W (history BufferCall.apply (init adapters W hW tmaxMs' sloMs)
          (calls.map (TwinCall.right k))) = 0 := by
  have hthousand : (0 : K) < 1000 := by norm_num
  have hd : 0 < tmaxMs / 1000 := div_pos hpos hthousand
  have hdd : tmaxMs / 1000 < tmaxMs' / 1000 := div_lt_div_of_pos_right hlt hthousand
  have hcap : tmaxMs' / 1000 ≤ sloMs / 1000 := div_le_div_of_nonneg_right hslo hthousand.le
  obtain ⟨calls, hvisit, htime, hruns⟩ := exists_calls adapters k hW sloMs
    ((List.range n).flatMap (lossRound W (tmaxMs / 1000) (tmaxMs' / 1000)))
  obtain ⟨hrun, -⟩ := hruns tmaxMs
  obtain ⟨-, hrun'⟩ := hruns tmaxMs'
  have hround := run_lossRound hthree hd hdd
  refine ⟨calls, ?_, hvisit ▸ hrun, hvisit ▸ hrun', ?_, ?_⟩
  · rw [htime]
    exact List.pairwise_map.mpr (pairwise_lossRounds W hd hdd n)
  · rw [hrun.fullWarpTokens_init, min_eq_left (hdd.le.trans hcap),
      Station.run_rounds (fun i m => (hround i m).1) n, Nat.mul_one]
  · rw [hrun'.fullWarpTokens_init, min_eq_left hcap,
      Station.run_rounds (g := 0) (fun i m => (hround i m).2) n, Nat.mul_zero, Nat.mul_zero]

/-- **Longer deadlines.** A longer `T_max` never costs full warps exactly if a warp is one
token or two. -/
theorem longer_tmax_harmless_iff (hpos : 0 < tmaxMs) (hle : tmaxMs ≤ tmaxMs')
    (hslo : tmaxMs' ≤ sloMs) :
    (∀ calls : List (TwinCall K), (calls.map TwinCall.time).Pairwise (· ≤ ·) →
        LoneRun k (init adapters W hW tmaxMs sloMs) (calls.map (TwinCall.left k))
          (calls.map TwinCall.visit) →
        LoneRun k (init adapters W hW tmaxMs' sloMs) (calls.map (TwinCall.right k))
          (calls.map TwinCall.visit) →
        fullWarpTokens W (history BufferCall.apply (init adapters W hW tmaxMs sloMs)
            (calls.map (TwinCall.left k)))
          ≤ fullWarpTokens W (history BufferCall.apply (init adapters W hW tmaxMs' sloMs)
            (calls.map (TwinCall.right k))))
      ↔ W ≤ 2 ∨ tmaxMs = tmaxMs' := by
  constructor
  · intro h
    by_contra hnot
    obtain ⟨hthree, hne⟩ := not_or.mp hnot
    obtain ⟨calls, htimes, hrun, hrun', htokens, htokens'⟩ := longer_tmax_loses adapters k hW
      (Nat.not_le.mp hthree) hpos (lt_of_le_of_ne hle hne) hslo 1
    have hle := h calls htimes hrun hrun'
    rw [htokens, htokens'] at hle
    omega
  · rintro (hsmall | rfl) calls - hrun hrun'
    · have hbound := hrun.tokens_le hrun'
      rwa [hrun.costlyFlushes_eq_zero hrun' hle hsmall, Nat.mul_zero, Nat.add_zero] at hbound
    · rw [hrun.fullWarpTokens_init, hrun'.fullWarpTokens_init]

end Deadlines

/-- With warps of four, two seconds can cost warps against one. -/
theorem warpsOfFour_not_harmless :
    ¬ ∀ calls : List (TwinCall ℚ), (calls.map TwinCall.time).Pairwise (· ≤ ·) →
      LoneRun "a" (init ["a"] 4 (by decide) 1000 5000) (calls.map (TwinCall.left "a"))
        (calls.map TwinCall.visit) →
      LoneRun "a" (init ["a"] 4 (by decide) 2000 5000) (calls.map (TwinCall.right "a"))
        (calls.map TwinCall.visit) →
      fullWarpTokens 4 (history BufferCall.apply (init ["a"] 4 (by decide) 1000 5000)
          (calls.map (TwinCall.left "a")))
        ≤ fullWarpTokens 4 (history BufferCall.apply (init ["a"] 4 (by decide) 2000 5000)
          (calls.map (TwinCall.right "a"))) := by
  intro h
  rcases (longer_tmax_harmless_iff ["a"] "a" (by decide) (by norm_num) (by norm_num)
    (by norm_num)).mp h with hsmall | heq
  · omega
  · norm_num at heq

end AlignmentBuffer

end AdapterSlots
