import Mathlib.Algebra.BigOperators.Group.List.Basic
import Mathlib.Algebra.Order.BigOperators.Group.List
import Mathlib.Algebra.Order.Group.Int
import Mathlib.Algebra.Ring.Int.Defs

/-!
# KV-aware admission

`_schedule_prefills_admit`: a waiting request is admitted only when the
free blocks, minus the growth still owed to the running sequences, cover
its whole lifetime.

The block manager is a pool: a running sequence of length `len` holds
`⌈len / block_size⌉` blocks, grows by single decode steps up to the length
its request allows, and gives its blocks back when it finishes or is
aborted. Taking a block from an empty pool is the error `noFreeBlocks`;
vLLM answers it by preempting a running sequence.

While an admission pass is open its closure state (`AdmitPass`) is part of
the state, so that the offers of a pass are steps of their own and the
statements below hold between them as well. `KvOk` is the invariant,
`step_ok` the step lemma and `run_ok` the run lemma.
-/

namespace AdapterSlots

/-! ## Sums over groups -/

theorem sum_map_set {α : Type} (f : α → ℤ) : ∀ {l : List α} {i : ℕ} {a : α} (b : α),
    l[i]? = some a → ((l.set i b).map f).sum = (l.map f).sum - f a + f b
  | [], i, a, b, h => by simp at h
  | c :: l, 0, a, b, h => by
      obtain rfl : c = a := by simpa using h
      simp only [List.set_cons_zero, List.map_cons, List.sum_cons]
      omega
  | c :: l, i + 1, a, b, h => by
      have ih := sum_map_set f (l := l) (i := i) b (by simpa using h)
      simp only [List.set_cons_succ, List.map_cons, List.sum_cons, ih]
      omega

theorem sum_map_eraseIdx {α : Type} (f : α → ℤ) : ∀ {l : List α} {i : ℕ} {a : α},
    l[i]? = some a → ((l.eraseIdx i).map f).sum = (l.map f).sum - f a
  | [], i, a, h => by simp at h
  | c :: l, 0, a, h => by
      obtain rfl : c = a := by simpa using h
      simp only [List.eraseIdx_cons_zero, List.map_cons, List.sum_cons]
      omega
  | c :: l, i + 1, a, h => by
      have ih := sum_map_eraseIdx f (l := l) (i := i) (by simpa using h)
      simp only [List.eraseIdx_cons_succ, List.map_cons, List.sum_cons, ih]
      omega

/-! ## Sequences and blocks -/

inductive SequenceStatus where
  | waiting
  | running
  | finished
deriving DecidableEq, Repr

inductive AllocStatus where
  | ok
  | later
  | never
deriving DecidableEq, Repr

structure KvConfig where
  blockSize : ℕ
  blockSize_pos : 0 < blockSize
  maxModelLen : ℕ

structure KvSeq where
  promptLen : ℕ
  len : ℕ
  status : SequenceStatus

/-- `max_tokens` is the sampling parameter of the group. -/
structure KvGroup where
  maxTokens : Option ℕ
  seqs : List KvSeq

namespace KvConfig

variable (cfg : KvConfig)

/-- `-(-n // bs)`. -/
def blocks (n : ℤ) : ℤ := -(-n / cfg.blockSize)

/-- `max_tokens`, or what the model length leaves after the prompt. -/
def maxNew (maxTokens : Option ℕ) (q : KvSeq) : ℤ :=
  match maxTokens with
  | some m => m
  | none => cfg.maxModelLen - q.promptLen

/-- The length at which the sequence stops. -/
def finalLen (maxTokens : Option ℕ) (q : KvSeq) : ℤ := q.promptLen + cfg.maxNew maxTokens q

def lifetimeBlocks (maxTokens : Option ℕ) (q : KvSeq) : ℤ := cfg.blocks (cfg.finalLen maxTokens q)

def heldBlocks (_ : Option ℕ) (q : KvSeq) : ℤ :=
  if q.status = .running then cfg.blocks q.len else 0

/-- The blocks a running sequence has yet to take. -/
def growth (maxTokens : Option ℕ) (q : KvSeq) : ℤ :=
  if q.status = .running then cfg.lifetimeBlocks maxTokens q - cfg.blocks q.len else 0

/-- The summand of `owed`, cut off at zero. -/
def owedBlocks (maxTokens : Option ℕ) (q : KvSeq) : ℤ :=
  if q.status = .running then max 0 (cfg.lifetimeBlocks maxTokens q - cfg.blocks q.len) else 0

/-- The blocks allocated when the group is admitted. -/
def promptBlocks (_ : Option ℕ) (q : KvSeq) : ℤ :=
  if q.status = .waiting then cfg.blocks q.len else 0

/-- The summand of `need`. -/
def neededBlocks (maxTokens : Option ℕ) (q : KvSeq) : ℤ :=
  if q.status = .waiting then cfg.lifetimeBlocks maxTokens q else 0

theorem blocks_mono {m n : ℤ} (h : m ≤ n) : cfg.blocks m ≤ cfg.blocks n :=
  Int.neg_le_neg
    (Int.ediv_le_ediv (Int.natCast_pos.mpr cfg.blockSize_pos) (Int.neg_le_neg h))

theorem owedBlocks_nonneg (maxTokens : Option ℕ) (q : KvSeq) : 0 ≤ cfg.owedBlocks maxTokens q := by
  rw [owedBlocks]
  split
  · exact le_max_left ..
  · exact le_refl 0

theorem growth_le_owed (maxTokens : Option ℕ) (q : KvSeq) :
    cfg.growth maxTokens q ≤ cfg.owedBlocks maxTokens q := by
  rw [growth, owedBlocks]
  split
  · exact le_max_right ..
  · exact le_refl 0

theorem blocks_nonneg {n : ℤ} (h : 0 ≤ n) : 0 ≤ cfg.blocks n := by
  have h0 : cfg.blocks 0 = 0 := by simp [blocks]
  exact h0 ▸ cfg.blocks_mono h

end KvConfig

namespace KvGroup

def sumBy (F : Option ℕ → KvSeq → ℤ) (g : KvGroup) : ℤ := (g.seqs.map (F g.maxTokens)).sum

def setSeq (g : KvGroup) (j : ℕ) (q : KvSeq) : KvGroup := { g with seqs := g.seqs.set j q }

/-- `_allocate_and_set_running`: the waiting sequences of the group run. -/
def setRunning (g : KvGroup) : KvGroup :=
  { g with seqs := g.seqs.map fun q =>
      if q.status = .waiting then { q with status := .running } else q }

theorem sumBy_setSeq (F : Option ℕ → KvSeq → ℤ) {g : KvGroup} {j : ℕ} {q : KvSeq}
    (h : g.seqs[j]? = some q) (q' : KvSeq) :
    (g.setSeq j q').sumBy F = g.sumBy F - F g.maxTokens q + F g.maxTokens q' :=
  sum_map_set _ q' h

end KvGroup

def totalBy (F : Option ℕ → KvSeq → ℤ) (gs : List KvGroup) : ℤ := (gs.map (·.sumBy F)).sum

theorem totalBy_append (F : Option ℕ → KvSeq → ℤ) (gs : List KvGroup) (g : KvGroup) :
    totalBy F (gs ++ [g]) = totalBy F gs + g.sumBy F := by
  simp [totalBy]

theorem totalBy_set (F : Option ℕ → KvSeq → ℤ) {gs : List KvGroup} {i j : ℕ} {g : KvGroup}
    {q : KvSeq} (hg : gs[i]? = some g) (hq : g.seqs[j]? = some q) (q' : KvSeq) :
    totalBy F (gs.set i (g.setSeq j q'))
      = totalBy F gs - F g.maxTokens q + F g.maxTokens q' := by
  rw [totalBy, sum_map_set _ _ hg, g.sumBy_setSeq F hq, totalBy]
  omega

theorem totalBy_le {F G : Option ℕ → KvSeq → ℤ} (h : ∀ m q, F m q ≤ G m q) {gs : List KvGroup} :
    totalBy F gs ≤ totalBy G gs :=
  List.sum_le_sum fun g _ => List.sum_le_sum fun q _ => h g.maxTokens q

/-! ## The closure around `can_allocate` -/

/-- The two cells the closure of one admission pass shares. -/
structure AdmitPass where
  headroom : ℤ
  nothingRunning : Bool

/-- The wrapped `can_allocate`; `stock` is vLLM's own answer. -/
def canAllocate (p : AdmitPass) (need : ℤ) (stock : AllocStatus) : AdmitPass × AllocStatus :=
  if stock ≠ .ok then (p, stock)
  else if p.headroom < need ∧ ¬ p.nothingRunning then (p, .later)
  else (⟨p.headroom - need, false⟩, .ok)

structure KvState where
  free : ℤ
  running : List KvGroup
  pass : Option AdmitPass

inductive KvError where
  | noFreeBlocks
deriving DecidableEq, Repr

/-- A step of the engine. `offer` is one call of the wrapped `can_allocate`
with vLLM's own answer and with what vLLM does after an OK: `accepted` is
false when it turns the request down for another reason. -/
inductive KvLabel where
  | beginAdmit
  | offer (g : KvGroup) (stock : AllocStatus) (accepted : Bool)
  | endAdmit
  | decode (i j : ℕ)
  | finish (i j : ℕ)
  | dropFinished (i : ℕ)

namespace KvState

variable (cfg : KvConfig)

def init (T : ℕ) : KvState := ⟨T, [], none⟩

/-- `owed`: the growth the running sequences may still claim. -/
def owed (s : KvState) : ℤ := totalBy cfg.owedBlocks s.running

/-- Take `n` blocks from the pool. -/
def takeBlocks (s : KvState) (n : ℤ) : Except KvError KvState :=
  if s.free < n then .error .noFreeBlocks else .ok { s with free := s.free - n }

def beginAdmit (s : KvState) : KvState :=
  { s with pass := some ⟨s.free - s.owed cfg, s.running.isEmpty⟩ }

def offer (s : KvState) (g : KvGroup) (stock : AllocStatus) (accepted : Bool) :
    Except KvError KvState :=
  match s.pass with
  | none => .ok s
  | some p =>
      let r := canAllocate p (g.sumBy cfg.neededBlocks) stock
      let s' : KvState := { s with pass := some r.1 }
      if r.2 = .ok ∧ accepted then do
        let s'' ← s'.takeBlocks (g.sumBy cfg.promptBlocks)
        .ok { s'' with running := s''.running ++ [g.setRunning] }
      else .ok s'

/-- One token for a running sequence that has not reached its final length. -/
def decode (s : KvState) (i j : ℕ) : Except KvError KvState :=
  match s.running[i]? with
  | none => .ok s
  | some g =>
      match g.seqs[j]? with
      | none => .ok s
      | some q =>
          if q.status = .running ∧ (q.len : ℤ) < cfg.finalLen g.maxTokens q then do
            let s' ← s.takeBlocks (cfg.blocks (q.len + 1 : ℕ) - cfg.blocks q.len)
            .ok { s' with running := s.running.set i (g.setSeq j { q with len := q.len + 1 }) }
          else .ok s

/-- The sequence finishes or is aborted; its blocks return to the pool. -/
def finish (s : KvState) (i j : ℕ) : KvState :=
  match s.running[i]? with
  | none => s
  | some g =>
      match g.seqs[j]? with
      | none => s
      | some q =>
          { s with
            free := s.free + cfg.heldBlocks g.maxTokens q
            running := s.running.set i (g.setSeq j { q with status := .finished }) }

/-- `free_finished_seq_groups` for one group. -/
def dropFinished (s : KvState) (i : ℕ) : KvState :=
  match s.running[i]? with
  | none => s
  | some g =>
      if ∀ q ∈ g.seqs, q.status = .finished then { s with running := s.running.eraseIdx i } else s

def step (s : KvState) : KvLabel → Except KvError KvState
  | .beginAdmit => .ok (s.beginAdmit cfg)
  | .offer g stock accepted => s.offer cfg g stock accepted
  | .endAdmit => .ok { s with pass := none }
  | .decode i j => s.decode cfg i j
  | .finish i j => .ok (s.finish cfg i j)
  | .dropFinished i => .ok (s.dropFinished i)

def run (s : KvState) : List KvLabel → Except KvError KvState
  | [] => .ok s
  | l :: ls => do
      let s' ← s.step cfg l
      s'.run ls

end KvState

/-! ## The invariant -/

/-- Requests a pool of `T` blocks can serve: the sequences offered are waiting
and no longer than they may become, and a lifetime fits into the pool. -/
def KvLabel.Fits (cfg : KvConfig) (T : ℕ) : KvLabel → Prop
  | .offer g _ _ =>
      (∀ q ∈ g.seqs, q.status = .waiting ∧ (q.len : ℤ) ≤ cfg.finalLen g.maxTokens q)
        ∧ g.sumBy cfg.neededBlocks ≤ T
  | _ => True

/-- The free blocks cover what is owed; the open pass promises no more than
that, and its idle exception is only there while nothing runs. -/
structure KvOk (cfg : KvConfig) (T : ℕ) (s : KvState) : Prop where
  within : ∀ g ∈ s.running, ∀ q ∈ g.seqs, q.status = .running →
    (q.len : ℤ) ≤ cfg.finalLen g.maxTokens q
  pool : s.free + totalBy cfg.heldBlocks s.running = T
  covered : s.owed cfg ≤ s.free
  headroom : ∀ p, s.pass = some p → p.headroom ≤ s.free - s.owed cfg
  idle : ∀ p, s.pass = some p → p.nothingRunning = true → s.running = []

namespace KvGroup

variable {cfg : KvConfig} {g : KvGroup}

/-- Summands that agree on the sequences of the group. -/
theorem sumBy_congr {F G : Option ℕ → KvSeq → ℤ}
    (h : ∀ q ∈ g.seqs, F g.maxTokens q = G g.maxTokens q) :
    g.sumBy F = g.sumBy G :=
  congrArg List.sum (List.map_congr_left h)

theorem sumBy_add (F G : Option ℕ → KvSeq → ℤ) :
    g.sumBy (fun m q => F m q + G m q) = g.sumBy F + g.sumBy G :=
  List.sum_map_add

theorem sumBy_nonneg {F : Option ℕ → KvSeq → ℤ} (h : ∀ q ∈ g.seqs, 0 ≤ F g.maxTokens q) :
    0 ≤ g.sumBy F :=
  List.sum_nonneg fun n hn => by
    obtain ⟨q, hq, rfl⟩ := List.mem_map.mp hn
    exact h q hq

theorem sumBy_setRunning (F : Option ℕ → KvSeq → ℤ) (hw : ∀ q ∈ g.seqs, q.status = .waiting) :
    g.setRunning.sumBy F = g.sumBy fun m q => F m { q with status := .running } := by
  rw [sumBy, setRunning, List.map_map, sumBy]
  refine congrArg List.sum (List.map_congr_left fun q hq => ?_)
  simp only [Function.comp_apply, hw q hq, if_true]

theorem owed_nonneg : 0 ≤ g.sumBy cfg.owedBlocks :=
  sumBy_nonneg fun q _ => cfg.owedBlocks_nonneg g.maxTokens q

variable (hfit : ∀ q ∈ g.seqs, q.status = .waiting ∧ (q.len : ℤ) ≤ cfg.finalLen g.maxTokens q)

include hfit

theorem held_setRunning : g.setRunning.sumBy cfg.heldBlocks = g.sumBy cfg.promptBlocks := by
  rw [sumBy_setRunning _ fun q hq => (hfit q hq).1]
  refine sumBy_congr fun q hq => ?_
  rw [KvConfig.heldBlocks, if_pos rfl, KvConfig.promptBlocks, if_pos (hfit q hq).1]

/-- An admitted group owes its lifetime less its prompt. -/
theorem owed_setRunning :
    g.setRunning.sumBy cfg.owedBlocks + g.sumBy cfg.promptBlocks
      = g.sumBy cfg.neededBlocks := by
  rw [sumBy_setRunning _ fun q hq => (hfit q hq).1, ← sumBy_add]
  refine sumBy_congr fun q hq => ?_
  have hle : cfg.blocks q.len ≤ cfg.lifetimeBlocks g.maxTokens q :=
    cfg.blocks_mono (hfit q hq).2
  simp only [KvConfig.owedBlocks, if_true, KvConfig.promptBlocks, KvConfig.neededBlocks,
    (hfit q hq).1]
  have hlife : cfg.lifetimeBlocks g.maxTokens { q with status := .running }
      = cfg.lifetimeBlocks g.maxTokens q := rfl
  rw [hlife]
  omega

theorem prompt_nonneg : 0 ≤ g.sumBy cfg.promptBlocks :=
  sumBy_nonneg fun q hq => by
    rw [KvConfig.promptBlocks, if_pos (hfit q hq).1]
    exact cfg.blocks_nonneg (Int.natCast_nonneg q.len)

end KvGroup

section Invariant

variable {cfg : KvConfig} {T : ℕ} {s : KvState}

theorem kvOk_init (cfg : KvConfig) (T : ℕ) : KvOk cfg T (.init T) where
  within g hg := by cases hg
  pool := by simp [KvState.init, totalBy]
  covered := by simp [KvState.owed, KvState.init, totalBy]
  headroom p hp := by cases hp
  idle p hp := by cases hp

/-- What one running sequence is owed is part of what all are owed. -/
theorem owedBlocks_le_owed {i j : ℕ} {g : KvGroup} {q : KvSeq} (hg : s.running[i]? = some g)
    (hq : g.seqs[j]? = some q) : cfg.owedBlocks g.maxTokens q ≤ s.owed cfg := by
  have hle : cfg.owedBlocks g.maxTokens q ≤ g.sumBy cfg.owedBlocks := by
    refine List.single_le_sum (fun n hn => ?_) _
      (List.mem_map.mpr ⟨q, List.mem_of_getElem? hq, rfl⟩)
    obtain ⟨q', -, rfl⟩ := List.mem_map.mp hn
    exact cfg.owedBlocks_nonneg g.maxTokens q'
  refine hle.trans (List.single_le_sum (fun n hn => ?_) _
    (List.mem_map.mpr ⟨g, List.mem_of_getElem? hg, rfl⟩))
  obtain ⟨g', -, rfl⟩ := List.mem_map.mp hn
  exact g'.owed_nonneg

theorem KvOk.beginAdmit (h : KvOk cfg T s) : KvOk cfg T (s.beginAdmit cfg) where
  within := h.within
  pool := h.pool
  covered := h.covered
  headroom p hp := by
    obtain rfl := Option.some.inj hp
    exact le_refl _
  idle p hp hnone := by
    obtain rfl := Option.some.inj hp
    exact List.isEmpty_iff.mp hnone

theorem KvOk.endAdmit (h : KvOk cfg T s) : KvOk cfg T { s with pass := none } where
  within := h.within
  pool := h.pool
  covered := h.covered
  headroom p hp := by cases hp
  idle p hp := by cases hp

/-- What the wrapped `can_allocate` lets pass is covered: by the headroom, or
by the whole pool when nothing runs. -/
theorem KvOk.need_le (h : KvOk cfg T s) {p : AdmitPass} (hp : s.pass = some p) {need : ℤ}
    (hT : need ≤ T) {stock : AllocStatus} (hok : (canAllocate p need stock).2 = .ok) :
    need ≤ s.free - s.owed cfg
      ∧ (canAllocate p need stock).1 = ⟨p.headroom - need, false⟩ := by
  have hle := h.headroom p hp
  unfold canAllocate at hok ⊢
  split at hok
  · rename_i hstock
    exact absurd hok hstock
  · split at hok
    · cases hok
    · rename_i hstock hfits
      rw [if_neg hstock, if_neg hfits]
      refine ⟨?_, rfl⟩
      by_cases hidle : p.nothingRunning = true
      · have hnil := h.idle p hp hidle
        have hpool := h.pool
        rw [KvState.owed, hnil]
        rw [hnil] at hpool
        simp only [totalBy, List.map_nil, List.sum_nil] at hpool ⊢
        omega
      · have : ¬ p.headroom < need := fun hlt => hfits ⟨hlt, hidle⟩
        omega

theorem canAllocate_of_not_ok {p : AdmitPass} {need : ℤ} {stock : AllocStatus}
    (h : (canAllocate p need stock).2 ≠ .ok) : (canAllocate p need stock).1 = p := by
  unfold canAllocate at h ⊢
  split
  · rfl
  · split
    · rfl
    · rename_i h₁ h₂
      rw [if_neg h₁, if_neg h₂] at h
      exact absurd rfl h

theorem KvState.owed_nonneg (cfg : KvConfig) (s : KvState) : 0 ≤ s.owed cfg :=
  List.sum_nonneg fun n hn => by
    obtain ⟨g, -, rfl⟩ := List.mem_map.mp hn
    exact g.owed_nonneg

/-- An OK that vLLM does not take up only lowers the headroom. -/
theorem KvOk.offer_declined (h : KvOk cfg T s) {p : AdmitPass} (hp : s.pass = some p) {need : ℤ}
    (hneed : 0 ≤ need) : KvOk cfg T { s with pass := some ⟨p.headroom - need, false⟩ } where
  within := h.within
  pool := h.pool
  covered := h.covered
  headroom p' hp' := by
    obtain rfl := Option.some.inj hp'
    have hle := h.headroom p hp
    show p.headroom - need ≤ s.free - s.owed cfg
    omega
  idle p' hp' hn := by
    obtain rfl := Option.some.inj hp'
    cases hn

/-- A group whose lifetime is covered takes its prompt from the pool and owes
the rest. -/
theorem KvOk.offer_admitted (h : KvOk cfg T s) {p : AdmitPass} (hp : s.pass = some p)
    {g : KvGroup}
    (hwait : ∀ q ∈ g.seqs, q.status = .waiting ∧ (q.len : ℤ) ≤ cfg.finalLen g.maxTokens q)
    (hneed : g.sumBy cfg.neededBlocks ≤ s.free - s.owed cfg) :
    KvOk cfg T
      { free := s.free - g.sumBy cfg.promptBlocks
        running := s.running ++ [g.setRunning]
        pass := some ⟨p.headroom - g.sumBy cfg.neededBlocks, false⟩ } := by
  have howed := KvGroup.owed_setRunning hwait
  have hpool := h.pool
  have hle := h.headroom p hp
  unfold KvState.owed at hneed hle
  have htotal : totalBy cfg.owedBlocks (s.running ++ [g.setRunning])
      = totalBy cfg.owedBlocks s.running + g.setRunning.sumBy cfg.owedBlocks :=
    totalBy_append _ _ _
  refine ⟨?_, ?_, ?_, ?_, ?_⟩
  · intro g' hg' q hq hrun
    rcases List.mem_append.mp hg' with hg' | hg'
    · exact h.within g' hg' q hq hrun
    · obtain rfl := List.mem_singleton.mp hg'
      obtain ⟨q₀, hq₀, rfl⟩ := List.mem_map.mp hq
      rw [if_pos (hwait q₀ hq₀).1]
      exact (hwait q₀ hq₀).2
  · show s.free - _ + totalBy cfg.heldBlocks (s.running ++ [g.setRunning]) = T
    rw [totalBy_append, KvGroup.held_setRunning hwait]
    omega
  · show totalBy cfg.owedBlocks (s.running ++ [g.setRunning]) ≤ s.free - _
    omega
  · intro p' hp'
    obtain rfl := Option.some.inj hp'
    show p.headroom - _ ≤ s.free - _ - totalBy cfg.owedBlocks (s.running ++ [g.setRunning])
    omega
  · intro p' hp' hn
    obtain rfl := Option.some.inj hp'
    cases hn

theorem KvOk.offer (h : KvOk cfg T s) {g : KvGroup} {stock : AllocStatus} {accepted : Bool}
    (hfit : (KvLabel.offer g stock accepted).Fits cfg T) :
    ∃ s', s.offer cfg g stock accepted = .ok s' ∧ KvOk cfg T s' := by
  obtain ⟨hwait, hT⟩ := hfit
  have hprompt := KvGroup.prompt_nonneg hwait
  have howed := KvGroup.owed_setRunning hwait
  have hnonneg : 0 ≤ g.setRunning.sumBy cfg.owedBlocks := g.setRunning.owed_nonneg
  unfold KvState.offer
  cases hp : s.pass with
  | none => exact ⟨s, rfl, h⟩
  | some p =>
      simp only
      by_cases hok : (canAllocate p (g.sumBy cfg.neededBlocks) stock).2 = .ok
      · obtain ⟨hneed, hpass⟩ := h.need_le hp hT hok
        rw [hpass]
        cases accepted with
        | false => exact ⟨_, if_neg (by simp), h.offer_declined hp (by omega)⟩
        | true =>
            have hroom : ¬ s.free < g.sumBy cfg.promptBlocks := by
              have howed0 := s.owed_nonneg cfg
              omega
            rw [if_pos ⟨hok, rfl⟩, KvState.takeBlocks, if_neg hroom]
            exact ⟨_, rfl, h.offer_admitted hp hwait hneed⟩
      · have hpass := canAllocate_of_not_ok hok
        refine ⟨_, if_neg fun hc => hok hc.1, ?_⟩
        rw [hpass]
        exact ⟨h.within, h.pool, h.covered, fun p' hp' => h.headroom p' (hp.trans hp'),
          fun p' hp' => h.idle p' (hp.trans hp')⟩

/-- Replacing one sequence by one that is within its bound: what the pool gains
or loses must match what the sequence held, and what is owed must not grow by
more than the pool. -/
theorem KvOk.setSeq (h : KvOk cfg T s) {i j : ℕ} {g : KvGroup} {q q' : KvSeq} {free : ℤ}
    (hg : s.running[i]? = some g) (hq : g.seqs[j]? = some q)
    (hwithin : q'.status = .running → (q'.len : ℤ) ≤ cfg.finalLen g.maxTokens q')
    (hheld : free + cfg.heldBlocks g.maxTokens q' = s.free + cfg.heldBlocks g.maxTokens q)
    (howed : s.free - free ≤ cfg.owedBlocks g.maxTokens q - cfg.owedBlocks g.maxTokens q') :
    KvOk cfg T { s with free := free, running := s.running.set i (g.setSeq j q') } := by
  have hpool := h.pool
  have hcov := h.covered
  unfold KvState.owed at hcov
  have howed' : totalBy cfg.owedBlocks (s.running.set i (g.setSeq j q'))
      = totalBy cfg.owedBlocks s.running - cfg.owedBlocks g.maxTokens q
        + cfg.owedBlocks g.maxTokens q' := totalBy_set _ hg hq q'
  refine ⟨?_, ?_, ?_, ?_, ?_⟩
  · intro g' hg' q₀ hq₀ hrun
    rcases List.mem_or_eq_of_mem_set hg' with hg' | rfl
    · exact h.within g' hg' q₀ hq₀ hrun
    · rcases List.mem_or_eq_of_mem_set hq₀ with hq₀ | rfl
      · exact h.within g (List.mem_of_getElem? hg) q₀ hq₀ hrun
      · exact hwithin hrun
  · show free + totalBy cfg.heldBlocks (s.running.set i (g.setSeq j q')) = T
    rw [totalBy_set _ hg hq]
    omega
  · show totalBy cfg.owedBlocks (s.running.set i (g.setSeq j q')) ≤ free
    omega
  · intro p hp
    have hle := h.headroom p hp
    unfold KvState.owed at hle
    show p.headroom ≤ free - totalBy cfg.owedBlocks (s.running.set i (g.setSeq j q'))
    omega
  · intro p hp hn
    have hnil := h.idle p hp hn
    rw [hnil] at hg
    cases hg

/-- A sequence below its final length has its next block among those it is
still owed. -/
theorem KvOk.decode (h : KvOk cfg T s) (i j : ℕ) :
    ∃ s', s.decode cfg i j = .ok s' ∧ KvOk cfg T s' := by
  unfold KvState.decode
  split
  · exact ⟨s, rfl, h⟩
  · rename_i g hg
    split
    · exact ⟨s, rfl, h⟩
    · rename_i q hq
      split
      · rename_i hgrow
        obtain ⟨hrun, hlt⟩ := hgrow
        have hnext : cfg.blocks (q.len + 1 : ℕ) ≤ cfg.lifetimeBlocks g.maxTokens q :=
          cfg.blocks_mono (by omega)
        have hmono : cfg.blocks q.len ≤ cfg.blocks (q.len + 1 : ℕ) :=
          cfg.blocks_mono (by omega)
        have howed : cfg.owedBlocks g.maxTokens q
            = cfg.lifetimeBlocks g.maxTokens q - cfg.blocks q.len := by
          rw [KvConfig.owedBlocks, if_pos hrun]
          omega
        have howed' : cfg.owedBlocks g.maxTokens { q with len := q.len + 1 }
            = cfg.lifetimeBlocks g.maxTokens q - cfg.blocks (q.len + 1 : ℕ) := by
          rw [KvConfig.owedBlocks, if_pos hrun]
          exact max_eq_right (Int.sub_nonneg.mpr hnext)
        have hroom : ¬ s.free < cfg.blocks (q.len + 1 : ℕ) - cfg.blocks q.len := by
          have hle : cfg.owedBlocks g.maxTokens q ≤ s.owed cfg := owedBlocks_le_owed hg hq
          have hcov := h.covered
          omega
        rw [KvState.takeBlocks, if_neg hroom]
        refine ⟨_, rfl, h.setSeq hg hq (fun _ => ?_) ?_ ?_⟩
        · show ((q.len + 1 : ℕ) : ℤ) ≤ cfg.finalLen g.maxTokens q
          omega
        · rw [KvConfig.heldBlocks, KvConfig.heldBlocks, if_pos hrun, if_pos hrun]
          show s.free - (cfg.blocks (q.len + 1 : ℕ) - cfg.blocks q.len)
            + cfg.blocks (q.len + 1 : ℕ) = s.free + cfg.blocks q.len
          omega
        · rw [howed, howed']
          show s.free - (s.free - (cfg.blocks (q.len + 1 : ℕ) - cfg.blocks q.len)) ≤ _
          omega
      · exact ⟨s, rfl, h⟩

theorem KvOk.finish (h : KvOk cfg T s) (i j : ℕ) : KvOk cfg T (s.finish cfg i j) := by
  unfold KvState.finish
  split
  · exact h
  · rename_i g hg
    split
    · exact h
    · rename_i q hq
      have hheld : cfg.heldBlocks g.maxTokens { q with status := .finished } = 0 := if_neg (by simp)
      have howed : cfg.owedBlocks g.maxTokens { q with status := .finished } = 0 := if_neg (by simp)
      have hpos : 0 ≤ cfg.owedBlocks g.maxTokens q := cfg.owedBlocks_nonneg g.maxTokens q
      have hpos' : 0 ≤ cfg.heldBlocks g.maxTokens q := by
        rw [KvConfig.heldBlocks]
        split
        · exact cfg.blocks_nonneg (Int.natCast_nonneg q.len)
        · exact le_refl 0
      refine h.setSeq hg hq (fun hrun => ?_) (by omega) (by omega)
      cases hrun

/-- A group whose sequences have all finished holds nothing and is owed nothing. -/
theorem KvOk.dropFinished (h : KvOk cfg T s) (i : ℕ) : KvOk cfg T (s.dropFinished i) := by
  unfold KvState.dropFinished
  split
  · exact h
  · rename_i g hg
    split
    · rename_i hfin
      have hzero : ∀ F : Option ℕ → KvSeq → ℤ,
          (∀ m q, q.status ≠ .running → F m q = 0) →
          totalBy F (s.running.eraseIdx i) = totalBy F s.running := by
        intro F hF
        have hg0 : g.sumBy F = 0 := List.sum_eq_zero fun n hn => by
          obtain ⟨q, hq, rfl⟩ := List.mem_map.mp hn
          exact hF _ q (by rw [hfin q hq]; simp)
        rw [totalBy, sum_map_eraseIdx _ hg, hg0, totalBy]
        omega
      have hheld := hzero cfg.heldBlocks fun m q hq => if_neg hq
      have howed := hzero cfg.owedBlocks fun m q hq => if_neg hq
      refine ⟨fun g' hg' => h.within g' (List.mem_of_mem_eraseIdx hg'), ?_, ?_, ?_, ?_⟩
      · rw [hheld]
        exact h.pool
      · exact (le_of_eq howed).trans h.covered
      · intro p hp
        refine (h.headroom p hp).trans (le_of_eq ?_)
        rw [KvState.owed, KvState.owed, howed]
      · intro p hp hn
        rw [h.idle p hp hn] at hg
        cases hg
    · exact h

/-- The step lemma: no step takes a block from an empty pool. -/
theorem KvOk.step_ok (h : KvOk cfg T s) {l : KvLabel} (hfit : l.Fits cfg T) :
    ∃ s', s.step cfg l = .ok s' ∧ KvOk cfg T s' := by
  cases l with
  | beginAdmit => exact ⟨_, rfl, h.beginAdmit⟩
  | offer g stock accepted => exact h.offer hfit
  | endAdmit => exact ⟨_, rfl, h.endAdmit⟩
  | decode i j => exact h.decode i j
  | finish i j => exact ⟨_, rfl, h.finish i j⟩
  | dropFinished i => exact ⟨_, rfl, h.dropFinished i⟩

theorem KvOk.run_ok : ∀ {ls : List KvLabel} {s : KvState}, KvOk cfg T s →
    (∀ l ∈ ls, l.Fits cfg T) → ∃ s', s.run cfg ls = .ok s' ∧ KvOk cfg T s'
  | [], s, h, _ => ⟨s, rfl, h⟩
  | l :: ls, s, h, hfit => by
      obtain ⟨s₁, hs₁, h₁⟩ := h.step_ok (hfit l (List.mem_cons_self ..))
      obtain ⟨s₂, hs₂, h₂⟩ := h₁.run_ok fun l' hl' => hfit l' (List.mem_cons_of_mem _ hl')
      exact ⟨s₂, by rw [KvState.run, hs₁]; exact hs₂, h₂⟩

/-- **KV-aware admission.** In every interleaving of admission passes, decode
steps and finishes no allocation fails, and at every point the free blocks
cover the growth of all running sequences. -/
theorem admission_never_exhausts (cfg : KvConfig) (T : ℕ) (ls : List KvLabel)
    (hfit : ∀ l ∈ ls, l.Fits cfg T) :
    ∃ s, (KvState.init T).run cfg ls = .ok s ∧ totalBy cfg.growth s.running ≤ s.free := by
  obtain ⟨s, hs, h⟩ := (kvOk_init cfg T).run_ok hfit
  exact ⟨s, hs, (totalBy_le fun g q => cfg.growth_le_owed g q).trans h.covered⟩

end Invariant

/-- Blocks of four tokens. -/
def smallConfig : KvConfig := ⟨4, by decide, 32⟩

/-- Two requests of three and two blocks in a pool of four: the second is
turned away until the first has finished. -/
def twoRequests : List KvLabel :=
  [.beginAdmit, .offer ⟨some 5, [⟨6, 6, .waiting⟩]⟩ .ok true,
    .offer ⟨some 3, [⟨5, 5, .waiting⟩]⟩ .ok true, .endAdmit, .decode 0 0, .decode 0 0, .decode 0 0,
    .finish 0 0, .beginAdmit, .offer ⟨some 3, [⟨5, 5, .waiting⟩]⟩ .ok true]

theorem twoRequests_admitted :
    ∃ s, (KvState.init 4).run smallConfig twoRequests = .ok s
      ∧ totalBy smallConfig.growth s.running ≤ s.free := by
  refine admission_never_exhausts smallConfig 4 twoRequests ?_
  simp only [twoRequests, List.forall_mem_cons, KvLabel.Fits, List.not_mem_nil, false_imp_iff,
    implies_true, and_true, true_and]
  decide

end AdapterSlots
