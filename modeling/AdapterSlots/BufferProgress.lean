import AdapterSlots.BufferRun
import AdapterSlots.BufferShape

/-!
# When a dispatch makes progress

A queue whose age has reached the deadline should not leave the batch
empty. Whether it does depends on the room: a queue of a warp or more hands
over whole warps only, so with room for less than a warp it hands over
nothing, and in three of the four variants it ends the loop as well.

`RuleShape` says what a rule does with one queue in terms of the room; the
three `visitBlocks_ne_nil_of_...` lemmas read off it when the loop takes
anything at all. `dispatch_progress_iff` is the statement about a call.

How much one adapter hands over depends on the queues visited before it.
What can be said before the loop runs is in `MayTake`, the numbers of
tokens a call can take at all, and in `KeptOut`, the queues it passes by.
-/

namespace AdapterSlots

open Lib

namespace AlignmentBuffer

variable {K : Type} [Field K] [LinearOrder K]

/-! ## Due queues -/

/-- The test a queue shorter than a warp has to pass. -/
def DispatchCall.ReleasesShort (c : DispatchCall K) (b : AlignmentBuffer K) (k : String) (qLen : ℕ)
    (age : K) : Prop :=
  match c with
  | .wgkp ranked _ nStar _ =>
      b.effNStar ranked nStar ≤ qLen
        ∨ ((b.effNStar ranked nStar + 1) / 2 ≤ qLen ∧ c.deadline b k / 2 < age)
        ∨ c.deadline b k ≤ age
  | _ => c.deadline b k ≤ age

instance (c : DispatchCall K) (b : AlignmentBuffer K) (k : String) (qLen : ℕ) (age : K) :
    Decidable (c.ReleasesShort b k qLen age) := by
  unfold DispatchCall.ReleasesShort
  cases c <;> infer_instance

/-- A queue that would leave, as a whole or in whole warps, if there was room. -/
def DispatchCall.Due (c : DispatchCall K) (b : AlignmentBuffer K) (t : K) (k : String) : Prop :=
  b.queue k ≠ []
    ∧ (b.W ≤ (b.queue k).length ∨ c.ReleasesShort b k (b.queue k).length (b.age k t))

instance (c : DispatchCall K) (b : AlignmentBuffer K) (t : K) (k : String) :
    Decidable (c.Due b t k) :=
  inferInstanceAs (Decidable (_ ∧ _))

/-- An expired queue passes the test of every variant. -/
theorem DispatchCall.due_of_expired {c : DispatchCall K} {b : AlignmentBuffer K} {t : K}
    {k : String} (hne : b.queue k ≠ []) (hage : c.deadline b k ≤ b.age k t) : c.Due b t k := by
  refine ⟨hne, .inr ?_⟩
  cases c with
  | threshold | erlang | cash => exact hage
  | wgkp => exact .inr (.inr hage)

/-! ## One queue -/

/-- What a rule does with a queue: a short one leaves when it is released, a
long one when there is room for a warp; `noRoom` is the verdict otherwise. -/
structure RuleShape (W : ℕ) (releases : String → ℕ → K → Prop) (noRoom : Verdict)
    (rule : String → ℕ → K → ℕ → Verdict) : Prop where
  short_take : ∀ {k qLen age room}, 0 < qLen → qLen < W → 0 < room → releases k qLen age →
    ∃ n p w o, rule k qLen age room = .take n p w o
  short_skip : ∀ {k qLen age room}, qLen < W → ¬ releases k qLen age →
    rule k qLen age room = .skip
  long_take : ∀ {k qLen age room}, W ≤ qLen → W ≤ room →
    ∃ n p w o, rule k qLen age room = .take n p w o
  long_noRoom : ∀ {k qLen age room}, W ≤ qLen → room < W → rule k qLen age room = noRoom

omit [Field K] [LinearOrder K] in
theorem wholeWarps_pos {W qLen room : ℕ} (hW : 0 < W) (hlong : W ≤ qLen) (hroom : W ≤ room) :
    0 < min (qLen / W) (room / W) * W :=
  Nat.mul_pos (Nat.lt_min.mpr ⟨Nat.div_pos hlong hW, Nat.div_pos hroom hW⟩) hW

omit [Field K] [LinearOrder K] in
theorem wholeWarps_eq_zero {W qLen room : ℕ} (hroom : room < W) :
    min (qLen / W) (room / W) * W = 0 := by
  rw [Nat.div_eq_of_lt hroom, Nat.min_zero, Nat.zero_mul]

omit [Field K] in
theorem ruleShape_deadlineRule {W : ℕ} (hW : 0 < W) (deadline : String → K) :
    RuleShape W (fun k _ age => deadline k ≤ age) .stop (deadlineRule W deadline) := by
  refine ⟨fun _ hlt _ hage => ?_, fun hlt hage => ?_, fun hlong hroom => ?_, fun hlong hroom => ?_⟩
  · rw [deadlineRule, if_neg (by omega), if_pos hage]
    exact ⟨_, _, _, _, rfl⟩
  · rw [deadlineRule, if_neg (by omega), if_neg hage]
  · simp only [deadlineRule, if_pos hlong, if_neg (wholeWarps_pos hW hlong hroom).ne']
    exact ⟨_, _, _, _, rfl⟩
  · simp only [deadlineRule, if_pos hlong, if_pos (wholeWarps_eq_zero hroom)]

theorem ruleShape_wgkpRule {W : ℕ} (hW : 0 < W) (eff half : ℕ) (deadline : String → K)
    (merged : List String) :
    RuleShape W (fun k qLen age => eff ≤ qLen ∨ (half ≤ qLen ∧ deadline k / 2 < age)
      ∨ deadline k ≤ age) .skip (wgkpRule W eff half deadline merged) := by
  refine ⟨fun {k qLen age room} hpos hlt hroom hage => ?_, fun hlt hage => ?_,
    fun hlong hroom => ?_, fun hlong hroom => ?_⟩
  · have hmin : min qLen room ≠ 0 := (Nat.lt_min.mpr ⟨hpos, hroom⟩).ne'
    refine ⟨_, wgkpRule_take ?_ hmin⟩
    rw [wgkpChoice_of_short hlt, if_pos hage]
  · exact wgkpRule_skip (by rw [wgkpChoice_of_short hlt, if_neg hage])
  · exact ⟨_, wgkpRule_take (wgkpChoice_of_long hlong) (wholeWarps_pos hW hlong hroom).ne'⟩
  · exact wgkpRule_skip ((wgkpChoice_of_long hlong).trans (wholeWarps_eq_zero hroom))

/-- The verdict on a queue of a warp or more when there is no room for a warp. -/
def DispatchCall.noRoom : DispatchCall K → Verdict
  | .wgkp _ _ _ _ => .skip
  | _ => .stop

theorem DispatchCall.ruleShape (c : DispatchCall K) (b : AlignmentBuffer K) :
    RuleShape b.W (c.ReleasesShort b) c.noRoom (c.rule b) := by
  cases c with
  | threshold => exact ruleShape_deadlineRule b.W_pos _
  | erlang _ => exact ruleShape_deadlineRule b.W_pos _
  | cash _ _ => exact ruleShape_deadlineRule b.W_pos _
  | wgkp _ _ _ _ => exact ruleShape_wgkpRule b.W_pos _ _ _ _

/-! ## The loop -/

section Loop

variable {c : DispatchCall K} {b : AlignmentBuffer K} {t : K} {budget : ℤ}

/-- While the batch is empty, a queue that is not due is passed over. -/
theorem visitBlocks_of_not_due (hm : 1 ≤ budget) {k : String} (ks : List String)
    (hdue : ¬ c.Due b t k) : visitBlocks (c.rule b) budget t (k :: ks) b 0
      = visitBlocks (c.rule b) budget t ks b 0 := by
  rw [visitBlocks, if_neg (by omega)]
  split
  · rfl
  · rename_i hlen
    have hne : b.queue k ≠ [] := fun h => hlen (by rw [h, List.length_nil])
    have hnot : b.W ≤ (b.queue k).length → False := fun h => hdue ⟨hne, .inl h⟩
    rw [(c.ruleShape b).short_skip (Nat.not_le.mp hnot) fun h => hdue ⟨hne, .inr h⟩]

/-- A due queue leaves when it is short or there is room for a warp. -/
theorem visitBlocks_of_due (hm : 1 ≤ budget) {k : String} (ks : List String) (hdue : c.Due b t k)
    (hroom : (b.queue k).length < b.W ∨ (b.W : ℤ) ≤ budget) :
    visitBlocks (c.rule b) budget t (k :: ks) b 0 ≠ [] := by
  have hpos := List.length_pos_iff.mpr hdue.1
  have htake : ∃ n p w o, c.rule b k (b.queue k).length (b.age k t) (budget - (0 : ℕ)).toNat
      = .take n p w o := by
    rcases Nat.lt_or_ge (b.queue k).length b.W with hshort | hlong
    · exact (c.ruleShape b).short_take hpos hshort (by omega)
        (hdue.2.resolve_left (Nat.not_le.mpr hshort))
    · exact (c.ruleShape b).long_take hlong (by omega)
  obtain ⟨n, p, w, o, hv⟩ := htake
  rw [visitBlocks, if_neg (by omega), if_neg hpos.ne', hv]
  exact List.cons_ne_nil _ _

/-- A queue of a warp or more without room for a warp gets the verdict
`noRoom`. -/
theorem visitBlocks_of_noRoom (hm : 1 ≤ budget) {k : String} (ks : List String)
    (hlong : b.W ≤ (b.queue k).length) (hroom : budget < b.W) :
    visitBlocks (c.rule b) budget t (k :: ks) b 0
      = if c.noRoom = .skip then visitBlocks (c.rule b) budget t ks b 0 else [] := by
  have hW := b.W_pos
  rw [visitBlocks, if_neg (by omega), if_neg (by omega),
    (c.ruleShape b).long_noRoom hlong (by omega)]
  cases c <;> rfl

/-- With room for a warp the loop takes from any due queue. -/
theorem visitBlocks_ne_nil_of_room (hm : 1 ≤ budget) (hroom : (b.W : ℤ) ≤ budget) :
    ∀ {ks : List String}, (∃ k ∈ ks, c.Due b t k) →
    visitBlocks (c.rule b) budget t ks b 0 ≠ []
  | [], h => by simp at h
  | k :: ks, h => by
      by_cases hdue : c.Due b t k
      · exact visitBlocks_of_due hm ks hdue (.inr hroom)
      · rw [visitBlocks_of_not_due hm ks hdue]
        rw [List.exists_mem_cons_iff] at h
        exact visitBlocks_ne_nil_of_room hm hroom (h.resolve_left hdue)

/-- Without, a loop that skips full queues takes from the short ones that are
due. -/
theorem visitBlocks_ne_nil_of_skip (hm : 1 ≤ budget) (hroom : budget < b.W)
    (hskip : c.noRoom = .skip) : ∀ ks : List String,
    visitBlocks (c.rule b) budget t ks b 0 ≠ []
      ↔ ∃ k ∈ ks, c.Due b t k ∧ (b.queue k).length < b.W
  | [] => by simp [visitBlocks]
  | k :: ks => by
      rw [List.exists_mem_cons_iff, ← visitBlocks_ne_nil_of_skip hm hroom hskip ks]
      by_cases hdue : c.Due b t k
      · rcases Nat.lt_or_ge (b.queue k).length b.W with hshort | hlong
        · exact iff_of_true (visitBlocks_of_due hm ks hdue (.inl hshort)) (.inl ⟨hdue, hshort⟩)
        · rw [visitBlocks_of_noRoom hm ks hlong hroom, if_pos hskip]
          exact ⟨.inr, fun h => h.resolve_left fun h => Nat.not_lt.mpr hlong h.2⟩
      · rw [visitBlocks_of_not_due hm ks hdue]
        exact ⟨.inr, fun h => h.resolve_left fun h => hdue h.1⟩

/-- A loop that stops at a full queue takes only when the first due queue is a
short one. -/
theorem visitBlocks_ne_nil_of_stop (hm : 1 ≤ budget) (hroom : budget < b.W)
    (hstop : c.noRoom ≠ .skip) : ∀ ks : List String,
    visitBlocks (c.rule b) budget t ks b 0 ≠ []
      ↔ ∃ k, ks.find? (fun k => decide (c.Due b t k)) = some k ∧ (b.queue k).length < b.W
  | [] => by simp [visitBlocks]
  | k :: ks => by
      rw [List.find?_cons]
      by_cases hdue : c.Due b t k
      · simp only [hdue, decide_true]
        rcases Nat.lt_or_ge (b.queue k).length b.W with hshort | hlong
        · exact iff_of_true (visitBlocks_of_due hm ks hdue (.inl hshort)) ⟨k, rfl, hshort⟩
        · rw [visitBlocks_of_noRoom hm ks hlong hroom, if_neg hstop]
          refine iff_of_false (fun h => h rfl) ?_
          rintro ⟨k', hk', hshort⟩
          obtain rfl := Option.some.inj hk'
          exact Nat.not_lt.mpr hlong hshort
      · simp only [hdue, decide_false]
        rw [visitBlocks_of_not_due hm ks hdue, visitBlocks_ne_nil_of_stop hm hroom hstop ks]

end Loop

/-! ## One call -/

/-- The batch is empty when no block is taken. -/
theorem batch_eq_nil_iff (c : DispatchCall K) (b : AlignmentBuffer K) (m : Option ℤ) (t : K) :
    (c.apply b m t).2 = [] ↔ c.plan b m t = [] := by
  rw [c.apply_eq_plan]
  have hfit := c.fits_plan b m t
  cases hP : c.plan b m t with
  | nil => exact iff_of_true rfl rfl
  | cons blk P =>
      rw [hP] at hfit
      refine iff_of_false (fun h => ?_) (List.cons_ne_nil _ _)
      have hlen := congrArg List.length h
      simp only [pairs, emitted, tokens, List.length_map, List.length_append, List.length_take,
        List.length_nil] at hlen
      have := hfit.1
      have := hfit.2.1
      omega

/-- A queue shorter than a warp leaves although there is no room for a warp:
`form_batch_wgkp` passes over the full queues, the other variants stop at
the first of them. -/
def DispatchCall.ShortQueueLeaves (c : DispatchCall K) (b : AlignmentBuffer K) (t : K) : Prop :=
  match c with
  | .wgkp _ _ _ _ => ∃ k ∈ c.visiting b, c.Due b t k ∧ (b.queue k).length < b.W
  | _ => ∃ k, (c.visiting b).find? (fun k => decide (c.Due b t k)) = some k
      ∧ (b.queue k).length < b.W

/-- **Progress.** When a visited queue has expired, a dispatch returns a token if
and only if it has room for a warp or a queue shorter than a warp leaves. -/
theorem dispatch_progress_iff (c : DispatchCall K) (b : AlignmentBuffer K) (t : K) (m : ℤ)
    (hm : 1 ≤ m)
    (hexpired : ∃ k ∈ c.visiting b, b.queue k ≠ [] ∧ c.deadline b k ≤ b.age k t) :
    (c.apply b (some m) t).2 ≠ [] ↔ (b.W : ℤ) ≤ m ∨ c.ShortQueueLeaves b t := by
  rw [ne_eq, batch_eq_nil_iff]
  show visitBlocks (c.rule b) m t (c.visiting b) b 0 ≠ [] ↔ _
  obtain ⟨k, hk, hne, hage⟩ := hexpired
  rcases Int.lt_or_le m b.W with hroom | hroom
  · rw [or_iff_right (Int.not_le.mpr hroom)]
    have hstop := visitBlocks_ne_nil_of_stop (c := c) (b := b) (t := t) hm hroom
    cases c with
    | threshold | erlang | cash => exact hstop (by simp [DispatchCall.noRoom]) _
    | wgkp => exact visitBlocks_ne_nil_of_skip hm hroom rfl _
  · exact iff_of_true
      (visitBlocks_ne_nil_of_room hm hroom ⟨k, hk, DispatchCall.due_of_expired hne hage⟩)
      (.inl hroom)

/-! ## The turn of one adapter -/

/-- The room in the batch when the loop comes to `k`; `none` when the loop has
ended before, or the batch is full. -/
def roomAt (rule : String → ℕ → K → ℕ → Verdict) (budget : ℤ) (tNow : K) (b : AlignmentBuffer K)
    (k : String) : List String → ℕ → Option ℕ
  | [], _ => none
  | k₀ :: ks, sent =>
      if budget ≤ sent then none
      else if k₀ = k then some (budget - sent).toNat
      else if (b.queue k₀).length = 0 then roomAt rule budget tNow b k ks sent
      else
        match rule k₀ (b.queue k₀).length (b.age k₀ tNow) (budget - sent).toNat with
        | .stop => none
        | .skip => roomAt rule budget tNow b k ks sent
        | .take n _ _ _ => roomAt rule budget tNow b k ks (sent + n)

section Turn

variable {rule : String → ℕ → K → ℕ → Verdict} {budget : ℤ} {t : K} {b : AlignmentBuffer K}

omit [LinearOrder K] in
theorem roomAt_pos {k : String} {room : ℕ} : ∀ {ks : List String} {sent : ℕ},
    roomAt rule budget t b k ks sent = some room → 0 < room
  | [], _, h => by cases h
  | k₀ :: ks, sent, h => by
      rw [roomAt] at h
      split at h
      · cases h
      · split at h
        · obtain rfl := Option.some.inj h
          omega
        · split at h
          · exact roomAt_pos h
          · split at h
            · cases h
            · exact roomAt_pos h
            · exact roomAt_pos h

omit [LinearOrder K] in
/-- The plan takes from `k` when the rule does at its turn. -/
theorem mem_dispatchPlan_iff {k : String} : ∀ {ks : List String} {sent : ℕ}, ks.Nodup →
    (k ∈ (dispatchPlan rule budget t b ks sent).map Block.adapter
      ↔ b.queue k ≠ [] ∧ ∃ room, roomAt rule budget t b k ks sent = some room
        ∧ ∃ n p w o, rule k (b.queue k).length (b.age k t) room = .take n p w o)
  | [], _, _ => by simp [dispatchPlan, roomAt]
  | k₀ :: ks, sent, hnd => by
      obtain ⟨hnot, hnd'⟩ := List.nodup_cons.mp hnd
      have hrest : ∀ sent, k₀ ∉ (dispatchPlan rule budget t b ks sent).map Block.adapter :=
        fun sent h => hnot <| by
          rw [← visitBlocks_eq_plan ks b sent hnd'] at h
          exact (adapters_visitBlocks ks b sent).subset h
      rw [dispatchPlan, roomAt]
      split
      · simp
      · by_cases hk : k₀ = k
        · subst hk
          simp only [if_true, Option.some.injEq, exists_eq_left']
          split
          · rename_i hempty
            refine iff_of_false (hrest _) fun h => h.1 (List.length_eq_zero_iff.mp hempty)
          · rename_i hne
            have hne' : b.queue k₀ ≠ [] := fun h => hne (by rw [h, List.length_nil])
            rw [and_iff_right hne']
            cases rule k₀ (b.queue k₀).length (b.age k₀ t) (budget - sent).toNat with
            | stop => simp
            | skip => exact iff_of_false (hrest _) (by simp)
            | take n p w o => exact iff_of_true (List.mem_cons_self ..) ⟨n, p, w, o, rfl⟩
        · simp only [if_neg hk]
          split
          · exact mem_dispatchPlan_iff hnd'
          · cases rule k₀ (b.queue k₀).length (b.age k₀ t) (budget - sent).toNat with
            | stop => simp
            | skip => exact mem_dispatchPlan_iff hnd'
            | take n p w o =>
                simp only
                rw [List.map_cons, List.mem_cons, mem_dispatchPlan_iff hnd']
                exact or_iff_right fun h => hk h.symm

end Turn

/-- The queue of `k` hands over tokens when `room` is left at its turn. -/
def DispatchCall.TakesAt (c : DispatchCall K) (b : AlignmentBuffer K) (t : K) (k : String)
    (room : ℕ) : Prop :=
  if b.W ≤ (b.queue k).length then b.W ≤ room
  else c.ReleasesShort b k (b.queue k).length (b.age k t)

instance (c : DispatchCall K) (b : AlignmentBuffer K) (t : K) (k : String) (room : ℕ) :
    Decidable (c.TakesAt b t k room) := by
  unfold DispatchCall.TakesAt
  infer_instance

theorem DispatchCall.take_iff (c : DispatchCall K) {b : AlignmentBuffer K} {t : K} {k : String}
    {room : ℕ} (hne : b.queue k ≠ []) (hroom : 0 < room) :
    (∃ n p w o, c.rule b k (b.queue k).length (b.age k t) room = .take n p w o)
      ↔ c.TakesAt b t k room := by
  have hshape := c.ruleShape b
  unfold DispatchCall.TakesAt
  split
  · rename_i hlong
    rcases Nat.lt_or_ge room b.W with hlt | hge
    · refine iff_of_false ?_ (Nat.not_le.mpr hlt)
      rintro ⟨n, p, w, o, hv⟩
      rw [hshape.long_noRoom hlong hlt] at hv
      cases c <;> cases hv
    · exact iff_of_true (hshape.long_take hlong hge) hge
  · rename_i hshort
    have hlt := Nat.not_le.mp hshort
    by_cases hrel : c.ReleasesShort b k (b.queue k).length (b.age k t)
    · exact iff_of_true (hshape.short_take (List.length_pos_iff.mpr hne) hlt hroom hrel) hrel
    · refine iff_of_false ?_ hrel
      rintro ⟨n, p, w, o, hv⟩
      rw [hshape.short_skip hlt hrel] at hv
      cases hv

/-- A call takes from `k` exactly when the loop gets to it and its queue hands
over tokens for the room that is left. -/
theorem DispatchCall.mem_plan_iff {c : DispatchCall K} (hc : c.RankedNodup) {b : AlignmentBuffer K}
    {m : Option ℤ} {t : K} {k : String} :
    k ∈ (c.plan b m t).map Block.adapter
      ↔ b.queue k ≠ [] ∧ ∃ room, roomAt (c.rule b) (b.budget m) t b k (c.visiting b) 0 = some room
        ∧ c.TakesAt b t k room := by
  rw [c.plan_eq_dispatchPlan hc, mem_dispatchPlan_iff (nodup_visiting hc b)]
  refine and_congr_right fun hne => exists_congr fun room => and_congr_right fun hroom => ?_
  exact c.take_iff hne (roomAt_pos hroom)

/-! ## Before the loop runs -/

/-- The call can take `n` tokens from the queue of `k`: the queue is visited and due, and the
budget allows it. A queue of a warp or more hands over whole warps, unless its adapter is
ranked twice. -/
structure DispatchCall.MayTake (c : DispatchCall K) (b : AlignmentBuffer K) (m : Option ℤ) (t : K)
    (k : String) (n : ℕ) : Prop where
  visited : k ∈ c.visiting b
  due : c.Due b t k
  pos : 0 < n
  budget : (n : ℤ) ≤ b.budget m
  warps : c.RankedNodup → b.W ≤ (b.queue k).length → b.W ∣ n

section MayTake

variable {c : DispatchCall K} {b b₀ : AlignmentBuffer K} {m : Option ℤ} {t : K} {k : String}

/-- A rule takes only from queues that are due. -/
theorem DispatchCall.due_of_take {room n w o : ℕ} {p : Bool} (hne : b.queue k ≠ [])
    (hv : c.rule b k (b.queue k).length (b.age k t) room = .take n p w o) : c.Due b t k := by
  by_contra hdue
  have hshort : (b.queue k).length < b.W := Nat.not_le.mp fun h => hdue ⟨hne, .inl h⟩
  rw [(c.ruleShape b).short_skip hshort fun h => hdue ⟨hne, .inr h⟩] at hv
  cases hv

/-- The first block of `k` finds its queue as it was before the loop. -/
theorem due_of_mem_visitBlocks {budget : ℤ} : ∀ {ks : List String} {b : AlignmentBuffer K}
    {sent : ℕ}, b.queue k = b₀.queue k → b.oldest k = b₀.oldest k →
    k ∈ (visitBlocks (c.rule b₀) budget t ks b sent).map Block.adapter → c.Due b₀ t k
  | [], _, _, _, _, h => by cases h
  | k₀ :: ks, b, sent, hq, ho, h => by
      rw [visitBlocks] at h
      split at h
      · cases h
      · split at h
        · exact due_of_mem_visitBlocks hq ho h
        · rename_i hlen
          split at h
          · cases h
          · exact due_of_mem_visitBlocks hq ho h
          · rename_i n p w o hv
            by_cases hk : k₀ = k
            · subst hk
              rw [hq, age_congr ho] at hv
              exact DispatchCall.due_of_take (fun hnil => hlen (by rw [hq, hnil]; rfl)) hv
            · rw [List.map_cons, List.mem_cons, or_iff_right fun h => hk h.symm] at h
              refine due_of_mem_visitBlocks ?_ ?_ h
              · rw [queue_popChunk, if_neg hk, hq]
              · rw [oldest_popChunk, if_neg hk, ho]

omit [LinearOrder K] in
/-- No adapter hands over more than fits into the budget. -/
theorem taken_visitBlocks_le {rule : String → ℕ → K → ℕ → Verdict} (hrule : RuleOk rule)
    (budget : ℤ) : ∀ (ks : List String) (b : AlignmentBuffer K) (sent : ℕ),
    (sent + taken (visitBlocks rule budget t ks b sent) k : ℤ) ≤ max budget sent
  | [], _, sent => by simp [visitBlocks, taken]
  | k₀ :: ks, b, sent => by
      rw [visitBlocks]
      split
      · simp [taken]
      · rename_i hroom
        split
        · exact taken_visitBlocks_le hrule budget ks b sent
        · rename_i hlen
          split
          · simp [taken]
          · exact taken_visitBlocks_le hrule budget ks b sent
          · rename_i n p w o hv
            obtain ⟨-, -, hle⟩ := hrule k₀ _ _ _ n p w o (by omega) (by omega) hv
            have hrest := taken_visitBlocks_le hrule budget ks (b.popChunk k₀ n w o t) (sent + n)
            simp only [taken]
            split <;> omega

/-- What a call takes is one of the numbers it may take. -/
theorem DispatchCall.mayTake_taken (h : 0 < taken (c.plan b m t) k) :
    c.MayTake b m t k (taken (c.plan b m t) k) := by
  have hmem : k ∈ (c.plan b m t).map Block.adapter := by
    by_contra hnot
    rw [taken_eq_zero hnot] at h
    exact Nat.lt_irrefl 0 h
  have hbudget : (0 + taken (c.plan b m t) k : ℤ) ≤ max (b.budget m) 0 :=
    taken_visitBlocks_le (c.ruleOk b) _ (c.visiting b) b 0
  refine ⟨(adapters_visitBlocks _ b 0).subset hmem, due_of_mem_visitBlocks rfl rfl hmem, h, ?_,
    fun hc hlong => ?_⟩
  · omega
  · obtain ⟨blk, hblk, rfl⟩ := List.mem_map.mp hmem
    rw [taken_of_mem (c.nodup_plan b m t hc) hblk]
    exact (c.shape_plan hc b m t).warps blk hblk hlong

end MayTake

/-- A due queue shorter than a warp, which leaves as a whole if there is room. -/
def DispatchCall.DueShort (c : DispatchCall K) (b : AlignmentBuffer K) (t : K) (k : String) :
    Prop :=
  c.Due b t k ∧ (b.queue k).length < b.W

instance (c : DispatchCall K) (b : AlignmentBuffer K) (t : K) (k : String) :
    Decidable (c.DueShort b t k) :=
  inferInstanceAs (Decidable (_ ∧ _))

/-- The tokens in the due short queues visited before `k`. -/
def DispatchCall.shortBefore (c : DispatchCall K) (b : AlignmentBuffer K) (t : K) (k : String)
    (ks : List String) : ℕ :=
  (((ks.takeWhile fun k' => decide (k' ≠ k)).filter fun k' => decide (c.DueShort b t k')).map
    fun k' => (b.queue k').length).sum

/-- The call passes the queue of `k` by: it is not due, it needs room for a warp that the
budget does not give, or due short queues visited before it fill the batch. -/
def DispatchCall.KeptOut (c : DispatchCall K) (b : AlignmentBuffer K) (m : Option ℤ) (t : K)
    (k : String) : Prop :=
  ¬ c.Due b t k
    ∨ (b.W ≤ (b.queue k).length ∧ b.budget m < b.W)
    ∨ b.budget m ≤ c.shortBefore b t k (c.visiting b)

instance (c : DispatchCall K) (b : AlignmentBuffer K) (m : Option ℤ) (t : K) (k : String) :
    Decidable (c.KeptOut b m t k) :=
  inferInstanceAs (Decidable (_ ∨ _))

section KeptOut

variable {c : DispatchCall K} {b : AlignmentBuffer K} {m : Option ℤ} {t : K} {k : String}

/-- From a queue shorter than a warp the rules take as much as fits. -/
theorem DispatchCall.eq_min_of_take {qLen room n w o : ℕ} {age : K} {p : Bool}
    (hshort : qLen < b.W) (hv : c.rule b k qLen age room = .take n p w o) : n = min qLen room := by
  have hdeadline : ∀ {deadline : String → K},
      deadlineRule b.W deadline k qLen age room = .take n p w o → n = min qLen room := by
    intro deadline h
    simp only [deadlineRule, if_neg (Nat.not_le.mpr hshort)] at h
    split at h
    · exact (Verdict.take.inj h).1.symm
    · cases h
  cases c with
  | threshold => exact hdeadline hv
  | erlang _ => exact hdeadline hv
  | cash _ _ => exact hdeadline hv
  | wgkp ranked tmaxK nStar merged =>
      simp only [DispatchCall.rule, wgkpRule] at hv
      split at hv
      · cases hv
      · rename_i hzero
        obtain ⟨rfl, -⟩ := Verdict.take.inj hv
        rw [wgkpChoice_of_short hshort] at hzero ⊢
        split at hzero
        · rw [if_pos ‹_›]
        · exact absurd rfl hzero

theorem DispatchCall.shortBefore_self (ks : List String) : c.shortBefore b t k (k :: ks) = 0 := by
  rw [DispatchCall.shortBefore, List.takeWhile_cons_of_neg (by simp)]
  rfl

theorem DispatchCall.shortBefore_cons {k₀ : String} (hk : k₀ ≠ k) (ks : List String) :
    c.shortBefore b t k (k₀ :: ks)
      = (if c.DueShort b t k₀ then (b.queue k₀).length else 0) + c.shortBefore b t k ks := by
  simp only [DispatchCall.shortBefore, List.takeWhile_cons, ne_eq, hk, not_false_eq_true,
    decide_true, if_true, List.filter_cons, decide_eq_true_eq]
  split
  · rw [List.map_cons, List.sum_cons]
  · rw [Nat.zero_add]

/-- A due short queue is not skipped while there is room. -/
theorem DispatchCall.DueShort.not_skip {k₀ : String} {room : ℕ} (h : c.DueShort b t k₀)
    (hroom : 0 < room) :
    c.rule b k₀ (b.queue k₀).length (b.age k₀ t) room ≠ .skip := by
  obtain ⟨⟨hne, hdue⟩, hshort⟩ := h
  obtain ⟨n, p, w, o, htake⟩ := (c.ruleShape b).short_take (List.length_pos_iff.mpr hne) hshort
    hroom (hdue.resolve_left (Nat.not_le.mpr hshort))
  rw [htake]
  exact Verdict.noConfusion

/-- When the loop comes to `k`, the due short queues before it are in the batch. -/
theorem roomAt_le {budget : ℤ} {room : ℕ} : ∀ {ks : List String} {sent : ℕ},
    roomAt (c.rule b) budget t b k ks sent = some room →
    (sent + c.shortBefore b t k ks + room : ℤ) ≤ budget
  | [], _, h => by cases h
  | k₀ :: ks, sent, h => by
      rw [roomAt] at h
      split at h
      · cases h
      · rename_i hbudget
        split at h
        · rename_i hk
          obtain rfl := hk
          obtain rfl := Option.some.inj h
          rw [DispatchCall.shortBefore_self]
          omega
        · rename_i hk
          rw [DispatchCall.shortBefore_cons hk]
          split at h
          · rename_i hempty
            have hnot : ¬ c.DueShort b t k₀ := fun hdue =>
              hdue.1.1 (List.length_eq_zero_iff.mp hempty)
            rw [if_neg hnot, Nat.zero_add]
            exact roomAt_le h
          · split at h
            · cases h
            · rename_i hskip
              have hnot : ¬ c.DueShort b t k₀ := fun hdue => hdue.not_skip (by omega) hskip
              rw [if_neg hnot, Nat.zero_add]
              exact roomAt_le h
            · rename_i n p w o htake
              have hpos := roomAt_pos h
              have hrest := roomAt_le h
              split
              · -- there is room left at `k`, so the whole queue of `k₀` was taken
                rename_i hdue
                have hn := DispatchCall.eq_min_of_take hdue.2 htake
                omega
              · omega

/-- Nothing is taken from a queue that is passed by. -/
theorem DispatchCall.KeptOut.not_mem_plan (hc : c.RankedNodup) (h : c.KeptOut b m t k) :
    k ∉ (c.plan b m t).map Block.adapter := by
  rw [DispatchCall.mem_plan_iff hc]
  rintro ⟨hne, room, hroom, htakes⟩
  have hpos := roomAt_pos hroom
  have hle := roomAt_le hroom
  rcases h with hdue | ⟨hlong, hbudget⟩ | hfull
  · refine hdue ⟨hne, ?_⟩
    unfold DispatchCall.TakesAt at htakes
    split at htakes
    · exact .inl ‹_›
    · exact .inr htakes
  · rw [DispatchCall.TakesAt, if_pos hlong] at htakes
    omega
  · omega

end KeptOut

/-! ### Two tokens and one -/

/-- Tokens of `a`, then one of `b`, in a buffer of warp width two. -/
def tokensOfAThenB (n : ℕ) : List (BufferCall ℚ) :=
  (List.range n).map (fun s => .enqueue "a" s 0) ++ [.enqueue "b" 9 0]

/-- One token of each: the first due queue is a short one. -/
theorem oneOfEach_progress :
    (DispatchCall.threshold.apply (final BufferCall.apply (init [] 2 (by decide) (5 : ℚ) 200)
      (tokensOfAThenB 1)) (some 1) 10).2 ≠ [] :=
  (dispatch_progress_iff .threshold (final BufferCall.apply (init [] 2 (by decide) (5 : ℚ) 200)
      (tokensOfAThenB 1)) 10 1 (by decide) ⟨"a", by decide +kernel⟩).mpr
    (.inr ⟨"a", by decide +kernel⟩)

/-- Two tokens of `a`: ten seconds later both queues have long expired, but the
full queue ends the loop when there is room for one token only. -/
theorem fullQueueFirst_no_progress :
    Exec BufferCall.Step (init [] 2 (by decide) (5 : ℚ) 200)
        (history BufferCall.apply (init [] 2 (by decide) 5 200) (tokensOfAThenB 2))
        (final BufferCall.apply (init [] 2 (by decide) 5 200) (tokensOfAThenB 2))
      ∧ ¬ ((∃ k ∈ DispatchCall.threshold.visiting (final BufferCall.apply
              (init [] 2 (by decide) (5 : ℚ) 200) (tokensOfAThenB 2)),
            (final BufferCall.apply (init [] 2 (by decide) (5 : ℚ) 200)
              (tokensOfAThenB 2)).queue k ≠ []
            ∧ DispatchCall.threshold.deadline (final BufferCall.apply
                (init [] 2 (by decide) (5 : ℚ) 200) (tokensOfAThenB 2)) k
              ≤ (final BufferCall.apply (init [] 2 (by decide) (5 : ℚ) 200)
                  (tokensOfAThenB 2)).age k 10) →
          (DispatchCall.threshold.apply (final BufferCall.apply
            (init [] 2 (by decide) (5 : ℚ) 200) (tokensOfAThenB 2)) (some 1) 10).2 ≠ []) := by
  refine ⟨exec_history .., fun h => h ⟨"b", by decide +kernel⟩ ?_⟩
  decide +kernel

end AlignmentBuffer

end AdapterSlots
