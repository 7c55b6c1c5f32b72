import Mathlib.Algebra.Field.Rat
import Mathlib.Algebra.Order.Ring.Unbundled.Rat
import Mathlib.Data.List.MinMax
import Mathlib.Data.Prod.Lex
import Mathlib.Data.Sum.Order
import AdapterSlots.Lib.Contiguous
import AdapterSlots.Lib.Dict
import AdapterSlots.KvAdmission

/-!
# The admission wrappers

`_schedule_prefills` and `_schedule_running` wrap vLLM's functions of the
same names. Around the inner call the queues are reordered, split and put
together again in nested `finally` blocks: grouping around adapter rotation
around KV-aware admission.

The inner call is a parameter, any procedure on the state of the scheduler.
`atInner` is the state it runs in; `schedulePrefills_eq` says what the
wrapper makes of the state it leaves, and `wrappers_conserve` what that means
for the requests.
-/

namespace AdapterSlots

open Lib

/-! ## Procedures -/

/-- A procedure on a state; the state is left also when it raises. -/
abbrev Proc (σ ε α : Type) := σ → σ × Except ε α

/-- `try: return p() finally: f()`. -/
def Proc.tryFinally {σ ε α : Type} (p : Proc σ ε α) (f : σ → σ) : Proc σ ε α := fun s =>
  let r := p s
  (f r.1, r.2)

/-! ## The scheduler -/

deriving instance DecidableEq for KvSeq
deriving instance DecidableEq for KvGroup

/-- A sequence group in the waiting or the running queue. -/
structure QueuedGroup (K : Type) where
  requestId : ℕ
  loraIntId : ℤ
  arrivalTime : K
  isPrefill : Bool
  kv : KvGroup
deriving DecidableEq

/-- `maxLoras` is `none` when LoRA is off. -/
structure AdmissionConfig (K : Type) where
  maxLoras : Option ℕ
  rotateAfterS : K
  admitGrouped : Bool
  groupMaxWaitS : K
  kvAdmission : Bool
  kv : KvConfig

/-- The state the wrappers touch; `canAllocate` is the closure that shadows the block
manager's own function, and `rest` is all else the inner calls may use. -/
structure AdmissionState (K X : Type) where
  waiting : List (QueuedGroup K)
  running : List (QueuedGroup K)
  draining : Finset ℤ
  freeBlocks : ℤ
  canAllocate : Option AdmitPass
  rest : X

/-- The arguments and clock readings of `_schedule_prefills`. `currLoras` lists the set
of the running adapters in its iteration order. -/
structure PrefillCall (K : Type) where
  currLoras : Option (List ℤ)
  groupTime : K
  holdoutTime : K

namespace Admission

variable {K X ε α : Type} [Field K] [LinearOrder K]

/-! ## Rotation -/

/-- One turn of the loop over the waiting queue: the oldest arrival for each adapter
that is not resident, and the waiting requests of every adapter. -/
def countWaiting (resident : List ℤ) (a : Dict ℤ K × Dict ℤ ℕ) (g : QueuedGroup K) :
    Dict ℤ K × Dict ℤ ℕ :=
  if g.loraIntId ≤ 0 then a
  else
    (if g.loraIntId ∈ resident then a.1
      else a.1.insert g.loraIntId (min (a.1.getD g.loraIntId g.arrivalTime) g.arrivalTime),
      a.2.insert g.loraIntId (a.2.getD g.loraIntId 0 + 1))

/-- `_rotation_holdout`: the new draining set, which is the set held back. -/
def rotationHoldout (cfg : AdmissionConfig K) (c : PrefillCall K) (s : AdmissionState K X) :
    Finset ℤ :=
  match cfg.maxLoras, c.currLoras with
  | some maxLoras, some (lid :: lids) =>
      let resident := lid :: lids
      let draining := s.draining ∩ resident.toFinset
      if resident.length < maxLoras then draining
      else
        let counts := s.waiting.foldl (countWaiting resident) (.empty, .empty)
        match counts.1.values.min? with
        | none => draining
        | some oldest =>
            if draining ≠ ∅ then draining
            else if cfg.rotateAfterS ≤ c.holdoutTime - oldest then
              match resident.argmin fun l => counts.2.getD l 0 with
              | none => draining
              | some victim => insert victim draining
            else draining
  | _, _ => ∅

/-! ## Orders of the queue -/

/-- The arrival order. -/
def byArrival (l : List (QueuedGroup K)) : List (QueuedGroup K) := sortByKey (·.arrivalTime) l

/-- The key of `_group_waiting_by_adapter`: aged requests come first. -/
def groupKey (cfg : AdmissionConfig K) (now : K) (count : Dict ℤ ℕ) (g : QueuedGroup K) :
    Lex (K ⊕ Lex (ℤ × Lex (ℤ × K))) :=
  if cfg.groupMaxWaitS ≤ now - g.arrivalTime then toLex (.inl g.arrivalTime)
  else toLex (.inr (toLex (-(count.getD g.loraIntId 0 : ℤ),
    toLex (g.loraIntId, g.arrivalTime))))

/-- `_group_waiting_by_adapter`. -/
def groupWaiting (cfg : AdmissionConfig K) (now : K) (l : List (QueuedGroup K)) :
    List (QueuedGroup K) :=
  let count : Dict ℤ ℕ := l.foldl
    (fun d g => d.insert g.loraIntId (d.getD g.loraIntId 0 + 1)) .empty
  sortByKey (groupKey cfg now count) l

/-! ## Prefill admission -/

section Prefills

variable (cfg : AdmissionConfig K) (c : PrefillCall K) (inner : Proc (AdmissionState K X) ε α)

/-- The pass `_schedule_prefills_admit` opens. -/
def beginPass (s : AdmissionState K X) : AdmissionState K X :=
  let owed := totalBy cfg.kv.owedBlocks (s.running.map QueuedGroup.kv)
  { s with canAllocate := some ⟨s.freeBlocks - owed, s.running.isEmpty⟩ }

def schedulePrefillsAdmit : Proc (AdmissionState K X) ε α :=
  if cfg.kvAdmission then fun s =>
    Proc.tryFinally inner (fun s => { s with canAllocate := none }) (beginPass cfg s)
  else inner

def schedulePrefillsRotated : Proc (AdmissionState K X) ε α := fun s =>
  let held := rotationHoldout cfg c s
  let s := { s with draining := held }
  if held ≠ ∅ then
    let keep := s.waiting.filter fun g => decide (g.loraIntId ∉ held)
    let out := s.waiting.filter fun g => decide (g.loraIntId ∈ held)
    Proc.tryFinally (schedulePrefillsAdmit cfg inner)
      (fun s => { s with waiting := byArrival (s.waiting ++ out) }) { s with waiting := keep }
  else schedulePrefillsAdmit cfg inner s

/-- `self._admit_grouped and len(self.waiting) > 1`. -/
def Grouping (s : AdmissionState K X) : Prop := cfg.admitGrouped ∧ 1 < s.waiting.length

instance (s : AdmissionState K X) : Decidable (Grouping cfg s) :=
  inferInstanceAs (Decidable (_ ∧ _))

def schedulePrefills : Proc (AdmissionState K X) ε α := fun s =>
  if Grouping cfg s then
    Proc.tryFinally (schedulePrefillsRotated cfg c inner)
      (fun s => { s with waiting := byArrival s.waiting })
      { s with waiting := groupWaiting cfg c.groupTime s.waiting }
  else schedulePrefillsRotated cfg c inner s

end Prefills

/-- `_schedule_running`; `empty` is `SchedulerRunningOutputs.create_empty()`. -/
def scheduleRunning (enableChunking : Bool) (empty : α) (inner : Proc (AdmissionState K X) ε α) :
    Proc (AdmissionState K X) ε α := fun s =>
  if s.running ≠ [] ∧ ¬ enableChunking then
    let pending := s.running.filter fun g => g.isPrefill
    if pending = [] then inner s
    else if pending.length = s.running.length then (s, .ok empty)
    else
      Proc.tryFinally inner (fun s => { s with running := pending ++ s.running })
        { s with running := s.running.filter fun g => !g.isPrefill }
  else inner s

/-! ## The inner call -/

section Inner

variable (cfg : AdmissionConfig K) (c : PrefillCall K)

/-- The queue in the order in which it is offered. -/
def offered (s : AdmissionState K X) : List (QueuedGroup K) :=
  if Grouping cfg s then groupWaiting cfg c.groupTime s.waiting else s.waiting

/-- The adapters held back in this call. -/
def heldBack (s : AdmissionState K X) : Finset ℤ :=
  rotationHoldout cfg c { s with waiting := offered cfg c s }

/-- The state in which vLLM's own `_schedule_prefills` runs. -/
def atInner (s : AdmissionState K X) : AdmissionState K X :=
  let s' := { s with
    draining := heldBack cfg c s
    waiting := (offered cfg c s).filter fun g => decide (g.loraIntId ∉ heldBack cfg c s) }
  if cfg.kvAdmission then beginPass cfg s' else s'

/-- The requests that sit the call out. -/
def sittingOut (s : AdmissionState K X) : List (QueuedGroup K) :=
  (offered cfg c s).filter fun g => decide (g.loraIntId ∈ heldBack cfg c s)

variable {cfg c}

omit [Field K] in
theorem byArrival_perm (l : List (QueuedGroup K)) : (byArrival l).Perm l := sortByKey_perm _ l

omit [Field K] in
theorem pairwise_byArrival (l : List (QueuedGroup K)) :
    (byArrival l).Pairwise fun g g' => g.arrivalTime ≤ g'.arrivalTime :=
  pairwise_sortByKey _ l

theorem offered_perm (s : AdmissionState K X) : (offered cfg c s).Perm s.waiting := by
  unfold offered
  split
  · exact sortByKey_perm _ _
  · exact List.Perm.refl _

theorem waiting_atInner (s : AdmissionState K X) : (atInner cfg c s).waiting
    = (offered cfg c s).filter fun g => decide (g.loraIntId ∉ heldBack cfg c s) := by
  unfold atInner
  simp only
  split <;> rfl

/-- The requests offered and those that sit out are the queue. -/
theorem atInner_perm (s : AdmissionState K X) :
    ((atInner cfg c s).waiting ++ sittingOut cfg c s).Perm s.waiting := by
  have hsplit := List.filter_append_perm (fun g => decide (g.loraIntId ∈ heldBack cfg c s))
    (offered cfg c s)
  rw [waiting_atInner, sittingOut]
  refine List.perm_append_comm.trans (.trans ?_ (hsplit.trans (offered_perm s)))
  exact List.Perm.append_left _ (.of_eq (List.filter_congr fun g _ => by simp))

variable {inner : Proc (AdmissionState K X) ε α}

/-- The closure a call leaves: none of its own. -/
def closureAfter (cfg : AdmissionConfig K) (s : AdmissionState K X) : Option AdmitPass :=
  if cfg.kvAdmission then none else s.canAllocate

/-- The queue the rotation layer leaves. -/
def rejoined (cfg : AdmissionConfig K) (c : PrefillCall K) (s : AdmissionState K X)
    (left : List (QueuedGroup K)) : List (QueuedGroup K) :=
  if heldBack cfg c s = ∅ then left else byArrival (left ++ sittingOut cfg c s)

omit [Field K] [LinearOrder K] in
theorem schedulePrefillsAdmit_eq (s : AdmissionState K X) :
    let r := inner (if cfg.kvAdmission then beginPass cfg s else s)
    schedulePrefillsAdmit cfg inner s
      = ({ r.1 with canAllocate := closureAfter cfg r.1 }, r.2) := by
  unfold schedulePrefillsAdmit closureAfter
  by_cases hkv : cfg.kvAdmission
  · simp only [hkv, if_true]
    rfl
  · simp only [hkv, if_false, Bool.false_eq_true]

theorem schedulePrefillsRotated_eq (s : AdmissionState K X) :
    let r := inner (atInner cfg c s)
    schedulePrefillsRotated cfg c inner { s with waiting := offered cfg c s }
      = ({ r.1 with
          waiting := rejoined cfg c s r.1.waiting
          canAllocate := closureAfter cfg r.1 }, r.2) := by
  have hadmit : schedulePrefillsAdmit cfg inner { s with
        draining := heldBack cfg c s
        waiting := (offered cfg c s).filter fun g => decide (g.loraIntId ∉ heldBack cfg c s) }
      = ({ (inner (atInner cfg c s)).1 with
          canAllocate := closureAfter cfg (inner (atInner cfg c s)).1 },
        (inner (atInner cfg c s)).2) := schedulePrefillsAdmit_eq _
  unfold schedulePrefillsRotated rejoined
  by_cases hheld : heldBack cfg c s = ∅
  · have hall : (offered cfg c s).filter (fun g => decide (g.loraIntId ∉ heldBack cfg c s))
        = offered cfg c s :=
      List.filter_eq_self.mpr fun g _ => by simp [hheld]
    have hheld' : rotationHoldout cfg c { s with waiting := offered cfg c s } = ∅ := hheld
    rw [hall] at hadmit
    simp only [hheld, hheld', ne_eq, not_true_eq_false, if_false, if_true] at hadmit ⊢
    exact hadmit
  · have hheld' : rotationHoldout cfg c { s with waiting := offered cfg c s } ≠ ∅ := hheld
    simp only [hheld, hheld', ne_eq, not_false_eq_true, if_true, if_false, Proc.tryFinally]
    exact congrArg (fun r : AdmissionState K X × Except ε α =>
      ({ r.1 with waiting := byArrival (r.1.waiting ++ sittingOut cfg c s) }, r.2)) hadmit

/-- What the wrapper makes of the state its inner call leaves. -/
theorem schedulePrefills_eq (s : AdmissionState K X) :
    let r := inner (atInner cfg c s)
    schedulePrefills cfg c inner s
      = ({ r.1 with
          waiting := if Grouping cfg s then byArrival (rejoined cfg c s r.1.waiting)
            else rejoined cfg c s r.1.waiting
          canAllocate := closureAfter cfg r.1 }, r.2) := by
  have hrotated : schedulePrefillsRotated cfg c inner { s with waiting := offered cfg c s } = _ :=
    schedulePrefillsRotated_eq s
  unfold schedulePrefills
  by_cases hgroup : Grouping cfg s
  · have hoffered : offered cfg c s = groupWaiting cfg c.groupTime s.waiting := if_pos hgroup
    rw [hoffered] at hrotated
    simp only [if_pos hgroup, Proc.tryFinally, hrotated]
  · have hoffered : offered cfg c s = s.waiting := if_neg hgroup
    rw [hoffered] at hrotated
    simp only [if_neg hgroup]
    exact hrotated

/-- The requests after the call are those the inner call left and those that sat it
out. -/
theorem waiting_schedulePrefills_perm (s : AdmissionState K X) :
    (schedulePrefills cfg c inner s).1.waiting.Perm
      ((inner (atInner cfg c s)).1.waiting ++ sittingOut cfg c s) := by
  have hperm : ∀ left, (rejoined cfg c s left).Perm (left ++ sittingOut cfg c s) := by
    intro left
    unfold rejoined
    split
    · rename_i hheld
      rw [sittingOut, hheld]
      simp
    · exact byArrival_perm _
  rw [schedulePrefills_eq]
  simp only
  split
  · exact (byArrival_perm _).trans (hperm _)
  · exact hperm _

/-- A queue that was reordered or split is in arrival order after the call. -/
theorem pairwise_schedulePrefills {s : AdmissionState K X}
    (h : Grouping cfg s ∨ heldBack cfg c s ≠ ∅) :
    (schedulePrefills cfg c inner s).1.waiting.Pairwise
      fun g g' => g.arrivalTime ≤ g'.arrivalTime := by
  rw [schedulePrefills_eq]
  simp only
  split
  · exact pairwise_byArrival _
  · rename_i hgroup
    rw [rejoined, if_neg (h.resolve_left hgroup)]
    exact pairwise_byArrival _

/-- The groups `_schedule_running` keeps from the inner call. -/
def keptPrefills (enableChunking : Bool) (s : AdmissionState K X) : List (QueuedGroup K) :=
  if enableChunking then [] else s.running.filter fun g => g.isPrefill

/-- What `_schedule_running` hands to the inner call: with chunking the queue as it is. -/
def atInnerRunning (enableChunking : Bool) (s : AdmissionState K X) : AdmissionState K X :=
  if enableChunking then s else { s with running := s.running.filter fun g => !g.isPrefill }

omit [Field K] [LinearOrder K] in
/-- The groups in the PREFILL stage go back to the front. -/
theorem scheduleRunning_spec (enableChunking : Bool) (empty : α) {s : AdmissionState K X}
    {p d : QueuedGroup K} (hp : p ∈ s.running) (hprefill : p.isPrefill) (hd : d ∈ s.running)
    (hdecode : ¬ d.isPrefill) :
    scheduleRunning enableChunking empty inner s
      = ({ (inner (atInnerRunning enableChunking s)).1 with
          running := keptPrefills enableChunking s
            ++ (inner (atInnerRunning enableChunking s)).1.running },
        (inner (atInnerRunning enableChunking s)).2) := by
  have hsome : s.running.filter (fun g => g.isPrefill) ≠ [] :=
    List.ne_nil_of_mem (List.mem_filter.mpr ⟨hp, hprefill⟩)
  have hnotall : (s.running.filter fun g => g.isPrefill).length ≠ s.running.length := fun heq =>
    hdecode (List.length_filter_eq_length_iff.mp heq d hd)
  unfold scheduleRunning
  cases enableChunking with
  | true =>
      rw [if_neg fun h => h.2 rfl]
      rfl
  | false =>
      rw [if_pos ⟨List.ne_nil_of_mem hp, by simp⟩]
      simp only [if_neg hsome, if_neg hnotall]
      rfl

omit [Field K] [LinearOrder K] in
/-- What is kept and what is handed over is the queue. -/
theorem atInnerRunning_perm (enableChunking : Bool) (s : AdmissionState K X) :
    (keptPrefills enableChunking s ++ (atInnerRunning enableChunking s).running).Perm
      s.running := by
  cases enableChunking with
  | true => exact List.Perm.refl _
  | false => exact List.filter_append_perm _ _

end Inner

/-- **The wrappers** lose no request. `removed` are the requests the inner prefill call
took out of the queue it was given, `taken` the groups the inner running call
took out of its own; either may return or raise. The PREFILL groups go back to the front
unless `enable_chunking` is set, when the inner call gets all groups. -/
theorem wrappers_conserve {β : Type} {cfg : AdmissionConfig K} {c : PrefillCall K}
    {inner : Proc (AdmissionState K X) ε α} {s : AdmissionState K X}
    {removed : List (QueuedGroup K)}
    (hremoved : ((inner (atInner cfg c s)).1.waiting ++ removed).Perm (atInner cfg c s).waiting)
    {innerRunning : Proc (AdmissionState K X) ε β} (enableChunking : Bool) (empty : β)
    {t : AdmissionState K X}
    {p d : QueuedGroup K} (hp : p ∈ t.running) (hprefill : p.isPrefill) (hd : d ∈ t.running)
    (hdecode : ¬ d.isPrefill) {taken : List (QueuedGroup K)}
    (htaken : ((innerRunning (atInnerRunning enableChunking t)).1.running ++ taken).Perm
      (atInnerRunning enableChunking t).running) :
    ((schedulePrefills cfg c inner s).2 = (inner (atInner cfg c s)).2
        ∧ ((schedulePrefills cfg c inner s).1.waiting ++ removed).Perm s.waiting
        ∧ (∀ g ∈ removed, g.loraIntId ∉ heldBack cfg c s)
        ∧ (Grouping cfg s ∨ heldBack cfg c s ≠ ∅ →
          (schedulePrefills cfg c inner s).1.waiting.Pairwise
            fun g g' => g.arrivalTime ≤ g'.arrivalTime))
      ∧ (scheduleRunning enableChunking empty innerRunning t).2
        = (innerRunning (atInnerRunning enableChunking t)).2
      ∧ (scheduleRunning enableChunking empty innerRunning t).1.running
        = keptPrefills enableChunking t
          ++ (innerRunning (atInnerRunning enableChunking t)).1.running
      ∧ ((scheduleRunning enableChunking empty innerRunning t).1.running ++ taken).Perm
        t.running := by
  have hresult : (schedulePrefills cfg c inner s).2 = (inner (atInner cfg c s)).2 := by
    rw [schedulePrefills_eq]
  rw [scheduleRunning_spec enableChunking empty hp hprefill hd hdecode]
  refine ⟨⟨hresult, ?_, fun g hg => ?_, pairwise_schedulePrefills⟩, rfl, rfl, ?_⟩
  · have hsplit : ((atInner cfg c s).waiting ++ sittingOut cfg c s).Perm s.waiting := atInner_perm s
    refine ((waiting_schedulePrefills_perm s).append_right removed).trans (.trans ?_ hsplit)
    rw [List.append_assoc]
    refine (List.Perm.append_left _ List.perm_append_comm).trans ?_
    rw [← List.append_assoc]
    exact hremoved.append_right _
  · have hoffered := hremoved.subset (List.mem_append_right _ hg)
    rw [waiting_atInner] at hoffered
    exact of_decide_eq_true (List.mem_filter.mp hoffered).2
  · show (_ ++ _ ++ taken).Perm t.running
    rw [List.append_assoc]
    exact (List.Perm.append_left _ htaken).trans (atInnerRunning_perm enableChunking t)

/-! ### A call that raises -/

/-- One LoRA slot, with every layer switched on. -/
def oneSlotConfig : AdmissionConfig ℚ where
  maxLoras := some 1
  rotateAfterS := 3
  admitGrouped := true
  groupMaxWaitS := 30
  kvAdmission := true
  kv := ⟨16, by decide, 4096⟩

def queuedGroup (requestId : ℕ) (loraIntId : ℤ) (arrivalTime : ℚ) (isPrefill : Bool) :
    QueuedGroup ℚ :=
  ⟨requestId, loraIntId, arrivalTime, isPrefill, ⟨some 16, []⟩⟩

/-- Adapter 1 runs, a request of adapter 2 has waited for four seconds. -/
def rotating : AdmissionState ℚ Unit where
  waiting := [queuedGroup 1 2 0 true, queuedGroup 2 1 3 true, queuedGroup 3 2 (7 / 2) true]
  running := [queuedGroup 8 1 0 false, queuedGroup 9 1 2 true]
  draining := ∅
  freeBlocks := 100
  canAllocate := none
  rest := ()

/-- Takes the first request and raises. -/
def takesFirst : Proc (AdmissionState ℚ Unit) Unit Unit := fun s =>
  ({ s with waiting := s.waiting.tail }, .error ())

/-- Leaves its queue alone and raises. -/
def takesNone : Proc (AdmissionState ℚ Unit) Unit Unit := fun s => (s, .error ())

/-- The request of adapter 1 has sat out, and the prefill group is put back. -/
theorem rotating_conserves :
    heldBack oneSlotConfig ⟨some [1], 4, 4⟩ rotating = {1}
      ∧ (schedulePrefills oneSlotConfig ⟨some [1], 4, 4⟩ takesFirst rotating).2 = .error ()
      ∧ ((schedulePrefills oneSlotConfig ⟨some [1], 4, 4⟩ takesFirst rotating).1.waiting
        ++ [queuedGroup 1 2 0 true]).Perm rotating.waiting
      ∧ ((scheduleRunning false () takesNone rotating).1.running ++ []).Perm rotating.running := by
  have hremoved : ((takesFirst (atInner oneSlotConfig ⟨some [1], 4, 4⟩ rotating)).1.waiting
      ++ [queuedGroup 1 2 0 true]).Perm
      (atInner oneSlotConfig ⟨some [1], 4, 4⟩ rotating).waiting := by decide +kernel
  have htaken : ((takesNone (atInnerRunning false rotating)).1.running ++ []).Perm
      (atInnerRunning false rotating).running := by decide +kernel
  have hp : queuedGroup 9 1 2 true ∈ rotating.running := by decide +kernel
  have hd : queuedGroup 8 1 0 false ∈ rotating.running := by decide +kernel
  have h := wrappers_conserve hremoved false () hp rfl hd (by decide) htaken
  exact ⟨by decide +kernel, h.1.1, h.1.2.1, h.2.2.2⟩

/-- With chunking the wrapper leaves the groups where they are: the decode group stays in front
of the prefill group, whatever the inner call is taken to have left. -/
theorem chunking_not_in_front : ¬ ∀ (enableChunking : Bool)
    (innerRunning : Proc (AdmissionState ℚ Unit) Unit Unit) (t : AdmissionState ℚ Unit),
    (∃ p ∈ t.running, p.isPrefill) → (∃ d ∈ t.running, ¬ d.isPrefill) →
    ∃ left, (scheduleRunning enableChunking () innerRunning t).1.running
      = t.running.filter (fun g => g.isPrefill) ++ left := by
  intro h
  obtain ⟨left, hleft⟩ := h true takesNone rotating ⟨queuedGroup 9 1 2 true, by decide +kernel⟩
    ⟨queuedGroup 8 1 0 false, by decide +kernel⟩
  have hhead := congrArg List.head? hleft
  have hprefills : rotating.running.filter (fun g => g.isPrefill) = [queuedGroup 9 1 2 true] := by
    decide +kernel
  rw [hprefills, List.singleton_append, List.head?_cons] at hhead
  revert hhead
  decide +kernel

end Admission

end AdapterSlots
