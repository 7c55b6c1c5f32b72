import AdapterSlots.Admission
import AdapterSlots.Lib.Exec

/-!
# Adapter rotation

With fewer LoRA slots than adapters, `_rotation_holdout` drains a resident
adapter for one that waits. While the drained adapter runs, its requests
are held back; once it has left, its draining mark is gone, and its requests
compete for the free slot with everybody else's.

A tick is one `_schedule_prefills` call around a scan that is short of
nothing but slots (`admitScan`). Between two ticks anything may arrive,
finish, be aborted or be preempted. `slot_handed_over_iff` says when the slot
goes to the waiting adapter; what decides is the order in which the queue is
offered.
-/

namespace AdapterSlots

open Lib

namespace Admission

variable {K X ε : Type} [Field K] [LinearOrder K]

/-! ## Ticks -/

/-- vLLM's admission when everything but the LoRA slots suffices: the admitted
requests and those left, from the set of running adapters on. A request
without an adapter has number 0. -/
def admitScan (maxLoras : ℕ) :
    Finset ℤ → List (QueuedGroup K) → List (QueuedGroup K) × List (QueuedGroup K)
  | _, [] => ([], [])
  | curr, g :: gs =>
      if g.loraIntId ≤ 0 then
        let r := admitScan maxLoras curr gs
        (g :: r.1, r.2)
      else if g.loraIntId ∈ curr ∨ curr.card < maxLoras then
        let r := admitScan maxLoras (insert g.loraIntId curr) gs
        (g :: r.1, r.2)
      else
        let r := admitScan maxLoras curr gs
        (r.1, g :: r.2)

def slotAdmission (maxLoras : ℕ) (resident : Finset ℤ) :
    Proc (AdmissionState K X) ε (List (QueuedGroup K)) := fun s =>
  let r := admitScan maxLoras resident s.waiting
  ({ s with waiting := r.2 }, .ok r.1)

/-- The queues when a tick begins and the readings it takes; `currLoras` lists the
adapters of the running batch in the iteration order of their set. -/
structure RotationTick (K : Type) where
  waiting : List (QueuedGroup K)
  running : List (QueuedGroup K)
  currLoras : List ℤ
  nodup : currLoras.Nodup
  mem_currLoras : ∀ lid, lid ∈ currLoras ↔ 0 < lid ∧ ∃ g ∈ running, g.loraIntId = lid
  groupTime : K
  holdoutTime : K

namespace RotationTick

variable (t : RotationTick K)

def call : PrefillCall K := ⟨some t.currLoras, t.groupTime, t.holdoutTime⟩

def resident : Finset ℤ := t.currLoras.toFinset

def enter (s : AdmissionState K X) : AdmissionState K X :=
  { s with waiting := t.waiting, running := t.running }

end RotationTick

/-- The output of a tick are the admitted requests in their order. -/
def Tick (ε : Type) (cfg : AdmissionConfig K) (maxLoras : ℕ) (s : AdmissionState K X)
    (t : RotationTick K) (admitted : List (QueuedGroup K)) (s' : AdmissionState K X) : Prop :=
  schedulePrefills cfg t.call (slotAdmission maxLoras t.resident) (t.enter s)
    = (s', (.ok admitted : Except ε _))

/-! ## The scan -/

/-- The adapters of the requests. -/
def adapters : List (QueuedGroup K) → Finset ℤ
  | [] => ∅
  | g :: l => if 0 < g.loraIntId then insert g.loraIntId (adapters l) else adapters l

/-- A request of `d` stands before every one of `a`, behind requests with `P`. -/
def Ahead (d a : ℤ) (P : List (QueuedGroup K) → Prop) (l : List (QueuedGroup K)) : Prop :=
  ∃ pre g post, l = pre ++ g :: post ∧ g.loraIntId = d ∧ (∀ y ∈ pre, y.loraIntId ≠ a) ∧ P pre

section Scan

variable {d a : ℤ} {P Q : List (QueuedGroup K) → Prop} {g : QueuedGroup K}
  {l : List (QueuedGroup K)} {maxLoras : ℕ} {curr held : Finset ℤ}

omit [Field K] [LinearOrder K] in
theorem ahead_nil : ¬ Ahead d a P [] := by
  rintro ⟨pre, x, post, heq, -⟩
  cases pre <;> cases heq

omit [Field K] [LinearOrder K] in
theorem ahead_cons : Ahead d a P (g :: l)
    ↔ (g.loraIntId = d ∧ P []) ∨ (g.loraIntId ≠ a ∧ Ahead d a (fun pre => P (g :: pre)) l) := by
  constructor
  · rintro ⟨pre, x, post, heq, hx, hpre, hP⟩
    cases pre with
    | nil =>
        obtain ⟨rfl, rfl⟩ := List.cons.inj heq
        exact .inl ⟨hx, hP⟩
    | cons y pre =>
        obtain ⟨rfl, rfl⟩ := List.cons.inj heq
        exact .inr ⟨hpre g (List.mem_cons_self ..), pre, x, post, rfl, hx,
          fun y hy => hpre y (List.mem_cons_of_mem _ hy), hP⟩
  · rintro (⟨hg, hP⟩ | ⟨hg, pre, x, post, rfl, hx, hpre, hP⟩)
    · exact ⟨[], g, l, rfl, hg, by simp, hP⟩
    · refine ⟨g :: pre, x, post, rfl, hx, fun y hy => ?_, hP⟩
      rcases List.mem_cons.mp hy with rfl | hy
      · exact hg
      · exact hpre y hy

omit [Field K] [LinearOrder K] in
theorem not_ahead_iff : ¬ Ahead d a P l ↔ ∀ before g after, l = before ++ g :: after →
    g.loraIntId = d → (∃ y ∈ before, y.loraIntId = a) ∨ ¬ P before := by
  constructor
  · intro h before g after heq hg
    by_contra hnot
    obtain ⟨hfree, hP⟩ := not_or.mp hnot
    exact h ⟨before, g, after, heq, hg, fun y hy hya => hfree ⟨y, hy, hya⟩, not_not.mp hP⟩
  · rintro h ⟨before, g, after, heq, hg, hfree, hP⟩
    rcases h before g after heq hg with ⟨y, hy, hya⟩ | hnot
    · exact hfree y hy hya
    · exact hnot hP

/-- The adapters running once the request is admitted. -/
def withAdapter (curr : Finset ℤ) (g : QueuedGroup K) : Finset ℤ :=
  if 0 < g.loraIntId then insert g.loraIntId curr else curr

omit [Field K] [LinearOrder K] in
theorem union_adapters_cons (curr : Finset ℤ) (g : QueuedGroup K) (pre : List (QueuedGroup K)) :
    curr ∪ adapters (g :: pre) = withAdapter curr g ∪ adapters pre := by
  rw [adapters, withAdapter]
  split
  · rw [Finset.insert_union, Finset.union_insert]
  · rfl

omit [Field K] [LinearOrder K] in
/-- With all slots taken no adapter is ahead of those waiting. -/
theorem not_ahead_of_full (hfull : ¬ curr.card < maxLoras) :
    ¬ Ahead d a (fun pre => (curr ∪ adapters pre).card < maxLoras) l := by
  rintro ⟨pre, -, -, -, -, -, hlt⟩
  exact hfull ((Finset.card_le_card Finset.subset_union_left).trans_lt hlt)

omit [Field K] [LinearOrder K] in
/-- The scan admits a request of `d` ahead of `a` exactly when one is offered ahead
of `a`, behind too few other adapters to take all the slots. -/
theorem ahead_admitScan_iff (hd : 0 < d) (ha : 0 < a) (hda : d ≠ a) :
    ∀ {l : List (QueuedGroup K)} {curr : Finset ℤ}, d ∉ curr → a ∉ curr →
    (Ahead d a (fun _ => True) (admitScan maxLoras curr l).1
      ↔ Ahead d a (fun pre => (curr ∪ adapters pre).card < maxLoras) l)
  | [], _, _, _ => iff_of_false ahead_nil ahead_nil
  | g :: l, curr, hdc, hac => by
      rw [admitScan]
      by_cases hbase : g.loraIntId ≤ 0
      · have hgd : g.loraIntId ≠ d := by omega
        have hga : g.loraIntId ≠ a := by omega
        have hcurr : withAdapter curr g = curr := if_neg (not_lt.mpr hbase)
        simp only [if_pos hbase, ahead_cons, hgd, hga, false_and, false_or, ne_eq,
          not_false_eq_true, true_and, union_adapters_cons, hcurr]
        exact ahead_admitScan_iff hd ha hda hdc hac
      · have hcurr : withAdapter curr g = insert g.loraIntId curr := if_pos (not_le.mp hbase)
        simp only [if_neg hbase]
        by_cases hslot : g.loraIntId ∈ curr ∨ curr.card < maxLoras
        · simp only [if_pos hslot, ahead_cons, and_true, union_adapters_cons, hcurr]
          by_cases hgd : g.loraIntId = d
          · have hroom := hslot.resolve_left (hgd ▸ hdc)
            exact iff_of_true (.inl hgd) (.inl ⟨hgd, by simpa [adapters] using hroom⟩)
          · by_cases hga : g.loraIntId = a
            · simp only [hga, hda.symm, false_and, ne_eq, not_true_eq_false, or_self]
            · have hdc' : d ∉ insert g.loraIntId curr := by simp [hdc, Ne.symm hgd]
              have hac' : a ∉ insert g.loraIntId curr := by simp [hac, Ne.symm hga]
              simp only [hgd, hga, false_and, false_or, ne_eq, not_false_eq_true, true_and]
              exact ahead_admitScan_iff hd ha hda hdc' hac'
        · obtain ⟨-, hfull⟩ := not_or.mp hslot
          simp only [if_neg hslot]
          rw [ahead_admitScan_iff hd ha hda hdc hac]
          exact iff_of_false (not_ahead_of_full hfull) (not_ahead_of_full hfull)

omit [Field K] [LinearOrder K] in
theorem admitScan_subset : ∀ {l : List (QueuedGroup K)} {curr : Finset ℤ},
    ∀ g ∈ (admitScan maxLoras curr l).1, g ∈ l
  | [], _, g, hg => hg
  | x :: l, curr, g, hg => by
      rw [admitScan] at hg
      split at hg
      · exact (List.mem_cons.mp hg).elim (fun heq => heq ▸ List.mem_cons_self ..)
          fun hg => List.mem_cons_of_mem _ (admitScan_subset g hg)
      · split at hg
        · exact (List.mem_cons.mp hg).elim (fun heq => heq ▸ List.mem_cons_self ..)
            fun hg => List.mem_cons_of_mem _ (admitScan_subset g hg)
        · exact List.mem_cons_of_mem _ (admitScan_subset g hg)

omit [Field K] [LinearOrder K] in
/-- Requests of resident adapters can be left out of the queue. -/
theorem ahead_filter_iff (hd : d ∉ held) (ha : a ∉ held) :
    ∀ {l : List (QueuedGroup K)} {curr : Finset ℤ}, held ⊆ curr →
    (Ahead d a (fun pre => (curr ∪ adapters pre).card < maxLoras)
        (l.filter fun g => decide (g.loraIntId ∉ held))
      ↔ Ahead d a (fun pre => (curr ∪ adapters pre).card < maxLoras) l)
  | [], _, _ => Iff.rfl
  | g :: l, curr, hsub => by
      by_cases hg : g.loraIntId ∈ held
      · have hgd : g.loraIntId ≠ d := fun heq => hd (heq ▸ hg)
        have hga : g.loraIntId ≠ a := fun heq => ha (heq ▸ hg)
        have hcurr : withAdapter curr g = curr := by
          unfold withAdapter
          split
          · exact Finset.insert_eq_self.mpr (hsub hg)
          · rfl
        rw [List.filter_cons_of_neg (by simpa using hg), ahead_cons]
        simp only [hgd, false_and, hga, ne_eq, not_false_eq_true, true_and, false_or,
          union_adapters_cons, hcurr]
        exact ahead_filter_iff hd ha hsub
      · have hsub' : held ⊆ withAdapter curr g := by
          unfold withAdapter
          split
          · exact hsub.trans (Finset.subset_insert _ _)
          · exact hsub
        rw [List.filter_cons_of_pos (by simpa using hg), ahead_cons, ahead_cons]
        simp only [union_adapters_cons]
        rw [ahead_filter_iff hd ha hsub']

end Scan

/-! ## The holdout -/

/-- Only running adapters are held back. -/
theorem rotationHoldout_subset (cfg : AdmissionConfig K) (c : PrefillCall K)
    (s : AdmissionState K X) :
    ∀ lid ∈ rotationHoldout cfg c s, ∃ resident, c.currLoras = some resident ∧ lid ∈ resident := by
  intro lid hlid
  unfold rotationHoldout at hlid
  split at hlid
  · rename_i maxLoras l ls hmax hcurr
    have hold : ∀ {x}, x ∈ s.draining ∩ (l :: ls).toFinset → x ∈ l :: ls := fun hx =>
      List.mem_toFinset.mp (Finset.mem_inter.mp hx).2
    refine ⟨l :: ls, hcurr, ?_⟩
    simp only at hlid
    split at hlid
    · exact hold hlid
    · split at hlid
      · exact hold hlid
      · split at hlid
        · exact hold hlid
        · split at hlid
          · split at hlid
            · exact hold hlid
            · rename_i victim hvictim
              rcases Finset.mem_insert.mp hlid with rfl | hlid
              · exact List.argmin_mem hvictim
              · exact hold hlid
          · exact hold hlid
  · cases hlid

/-- A drained adapter is held back as long as it runs. -/
theorem subset_rotationHoldout {cfg : AdmissionConfig K} {c : PrefillCall K} {maxLoras : ℕ}
    {resident : List ℤ} (hmax : cfg.maxLoras = some maxLoras) (hcurr : c.currLoras = some resident)
    (s : AdmissionState K X) :
    s.draining ∩ resident.toFinset ⊆ rotationHoldout cfg c s := by
  unfold rotationHoldout
  rw [hmax, hcurr]
  cases resident with
  | nil => simp
  | cons lid lids =>
      simp only
      split
      · exact subset_rfl
      · split
        · exact subset_rfl
        · split
          · exact subset_rfl
          · split
            · split
              · exact subset_rfl
              · exact Finset.subset_insert _ _
            · exact subset_rfl

/-! ## Runs -/

section Runs

variable {cfg : AdmissionConfig K} {maxLoras : ℕ} {s s' : AdmissionState K X} {t : RotationTick K}
  {admitted : List (QueuedGroup K)} {d : ℤ} {r : QueuedGroup K}

/-- What a tick admits, and the draining set it leaves. -/
theorem tick_spec (h : Tick ε cfg maxLoras s t admitted s') :
    admitted = (admitScan maxLoras t.resident (atInner cfg t.call (t.enter s)).waiting).1
      ∧ s'.draining = heldBack cfg t.call (t.enter s) := by
  unfold Tick at h
  rw [schedulePrefills_eq] at h
  obtain ⟨rfl, hout⟩ := Prod.mk.inj h
  refine ⟨(Except.ok.inj hout).symm, ?_⟩
  show (atInner cfg t.call (t.enter s)).draining = _
  unfold atInner
  simp only
  split <;> rfl

/-- The tick starts to drain `d`, and `r`, of an adapter that is not running, has waited
for `AS_ROTATE_AFTER_S`. -/
structure Starts (cfg : AdmissionConfig K)
    (e : Event (AdmissionState K X) (RotationTick K) (List (QueuedGroup K))) (d : ℤ)
    (r : QueuedGroup K) : Prop where
  notBefore : d ∉ e.pre.draining
  held : d ∈ heldBack cfg e.label.call (e.label.enter e.pre)
  waiting : r ∈ e.label.waiting
  adapter : 0 < r.loraIntId
  notResident : r.loraIntId ∉ e.label.resident
  waited : cfg.rotateAfterS ≤ e.label.holdoutTime - r.arrivalTime

/-- The drained adapter has left the running batch, and `r` still waits. -/
def HasLeft (t : RotationTick K) (d : ℤ) (r : QueuedGroup K) : Prop :=
  d ∉ t.resident ∧ r ∈ t.waiting

/-- No request of `d` is admitted before adapter `a` has a slot. -/
def HandsOver (e : Event (AdmissionState K X) (RotationTick K) (List (QueuedGroup K)))
    (d a : ℤ) : Prop :=
  a ∈ e.label.resident ∨ ∀ before g after, e.out = before ++ g :: after → g.loraIntId = d →
    ∃ y ∈ before, y.loraIntId = a

/-- In the order in which the queue is offered, every request of `d` stands behind one
of `a`, or behind so many other adapters that they take all the slots. -/
def Behind (cfg : AdmissionConfig K) (maxLoras : ℕ)
    (e : Event (AdmissionState K X) (RotationTick K) (List (QueuedGroup K))) (d a : ℤ) : Prop :=
  a ∈ e.label.resident ∨ ∀ before g after,
    offered cfg e.label.call (e.label.enter e.pre) = before ++ g :: after → g.loraIntId = d →
    (∃ y ∈ before, y.loraIntId = a) ∨ maxLoras ≤ (e.label.resident ∪ adapters before).card

/-- Held-back adapters run. -/
theorem heldBack_subset (cfg : AdmissionConfig K) (t : RotationTick K) (s : AdmissionState K X) :
    heldBack cfg t.call s ⊆ t.resident := by
  intro lid hlid
  obtain ⟨resident, hcurr, hmem⟩ := rotationHoldout_subset _ _ _ lid hlid
  obtain rfl := Option.some.inj hcurr
  exact List.mem_toFinset.mpr hmem

/-- A request of a held-back adapter is not admitted. -/
theorem not_admitted_of_held (h : Tick ε cfg maxLoras s t admitted s')
    (hd : d ∈ heldBack cfg t.call (t.enter s)) : ∀ g ∈ admitted, g.loraIntId ≠ d := by
  intro g hg heq
  rw [(tick_spec h).1] at hg
  have hoffered := admitScan_subset g hg
  rw [waiting_atInner] at hoffered
  exact of_decide_eq_true (List.mem_filter.mp hoffered).2 (heq ▸ hd)

/-- The admitted requests are in the order of the offer; what decides for `d` is the
queue with the held-back requests in it. -/
theorem handsOver_iff_behind
    {e : Event (AdmissionState K X) (RotationTick K) (List (QueuedGroup K))}
    (h : Tick ε cfg maxLoras e.pre e.label e.out e.post) {a : ℤ} (hd : 0 < d) (ha : 0 < a)
    (hda : d ≠ a) (hleft : d ∉ e.label.resident) :
    HandsOver e d a ↔ Behind cfg maxLoras e d a := by
  unfold HandsOver Behind
  by_cases hres : a ∈ e.label.resident
  · exact iff_of_true (.inl hres) (.inl hres)
  · have hsub := heldBack_subset cfg e.label (e.label.enter e.pre)
    have hscan : Ahead d a (fun _ => True) (admitScan maxLoras e.label.resident
        (atInner cfg e.label.call (e.label.enter e.pre)).waiting).1 ↔ _ :=
      ahead_admitScan_iff hd ha hda hleft hres
    rw [← (tick_spec h).1, waiting_atInner, ahead_filter_iff (fun hin => hleft (hsub hin))
      (fun hin => hres (hsub hin)) hsub] at hscan
    have hnot := not_congr hscan
    rw [not_ahead_iff, not_ahead_iff] at hnot
    simpa only [hres, false_or, not_true_eq_false, or_false, not_lt] using hnot

/-- **Rotation.** As long as `r` waits and the drained adapter runs, none of its
requests is admitted. In the first tick after it has left, the slot goes to
`r`'s adapter if and only if the requests of the drained one are offered
behind. -/
theorem slot_handed_over_iff (hmax : cfg.maxLoras = some maxLoras) {s₀ : AdmissionState K X}
    {tr tr₁ tr₂ tr₃ : List (Event (AdmissionState K X) (RotationTick K) (List (QueuedGroup K)))}
    {e₁ e₂ : Event (AdmissionState K X) (RotationTick K) (List (QueuedGroup K))}
    (h : Exec (Tick ε cfg maxLoras) s₀ tr s) (htr : tr = tr₁ ++ e₁ :: (tr₂ ++ e₂ :: tr₃))
    (hstart : Starts cfg e₁ d r) (hbetween : ∀ e ∈ tr₂, ¬ HasLeft e.label d r)
    (hleft : HasLeft e₂.label d r) :
    (∀ g ∈ e₁.out, g.loraIntId ≠ d)
      ∧ (∀ tr₄ e tr₅, tr₂ = tr₄ ++ e :: tr₅ → (∀ e' ∈ tr₄ ++ [e], r ∈ e'.label.waiting) →
        ∀ g ∈ e.out, g.loraIntId ≠ d)
      ∧ (HandsOver e₂ d r.loraIntId ↔ Behind cfg maxLoras e₂ d r.loraIntId) := by
  have hstep := h.step_of_mem
  have hin₁ : e₁ ∈ tr := htr ▸ List.mem_append_right _ (List.mem_cons_self ..)
  have hin₂ : e₂ ∈ tr := htr ▸ List.mem_append_right _ (List.mem_cons_of_mem _
    (List.mem_append_right _ (List.mem_cons_self ..)))
  have hres₁ : d ∈ e₁.label.resident := heldBack_subset _ _ _ hstart.held
  have hd : 0 < d := ((e₁.label.mem_currLoras d).mp (List.mem_toFinset.mp hres₁)).1
  have hda : d ≠ r.loraIntId := fun heq => hstart.notResident (heq ▸ hres₁)
  refine ⟨not_admitted_of_held (hstep e₁ hin₁) hstart.held, fun tr₄ e tr₅ heq hwait => ?_,
    handsOver_iff_behind (hstep e₂ hin₂) hd hstart.adapter hda hleft.1⟩
  have hrun : ∀ e' ∈ tr₄ ++ [e], d ∈ e'.label.resident := by
    intro e' he'
    have he'' : e' ∈ tr₂ := by
      rw [heq, ← List.singleton_append, ← List.append_assoc]
      exact List.mem_append_left _ he'
    exact not_not.mp fun hnot => hbetween e' he'' ⟨hnot, hwait e' he'⟩
  have hafter := h.after_event htr
  rw [heq, List.append_assoc, List.cons_append] at hafter
  have hbefore : Exec (Tick ε cfg maxLoras) e₁.post tr₄ e.pre := hafter.before_event rfl
  -- the mark of `d` stays while `d` runs
  have hmark := hbefore.invariant (fun s => d ∈ s.draining) (fun _ t => d ∈ t.resident)
    (fun s t admitted s' hin hrun htick => by
      rw [(tick_spec htick).2]
      exact subset_rotationHoldout hmax rfl _ (Finset.mem_inter.mpr ⟨hin, hrun⟩))
    ((tick_spec (hstep e₁ hin₁)).2 ▸ hstart.held)
    (fun e' he' => hrun e' (List.mem_append_left _ he'))
  have hin : e ∈ tr := by
    rw [htr, heq]
    simp
  refine not_admitted_of_held (hstep e hin) (subset_rotationHoldout hmax rfl _ ?_)
  exact Finset.mem_inter.mpr ⟨hmark.1, hrun e (List.mem_append_right _ (List.mem_singleton_self e))⟩

end Runs

/-! ### One slot and two adapters -/

/-- The tick that starts in `s`, with what it admits. -/
def tickEvent (cfg : AdmissionConfig K) (maxLoras : ℕ) (s : AdmissionState K X)
    (t : RotationTick K) : Event (AdmissionState K X) (RotationTick K) (List (QueuedGroup K)) where
  pre := s
  label := t
  out := (admitScan maxLoras t.resident (atInner cfg t.call (t.enter s)).waiting).1
  post := (schedulePrefills cfg t.call
    (slotAdmission maxLoras t.resident : Proc _ Unit _) (t.enter s)).1

theorem tick_tickEvent (cfg : AdmissionConfig K) (maxLoras : ℕ) (s : AdmissionState K X)
    (t : RotationTick K) : Tick Unit cfg maxLoras s t (tickEvent cfg maxLoras s t).out
      (tickEvent cfg maxLoras s t).post := by
  unfold Tick tickEvent
  rw [schedulePrefills_eq]
  rfl

/-- Adapter 1 has the slot, and a request of adapter 2 has waited for four seconds. -/
def slotTaken : RotationTick ℚ where
  waiting := [queuedGroup 1 2 0 true]
  running := [queuedGroup 8 1 0 false]
  currLoras := [1]
  nodup := by decide
  mem_currLoras lid := by
    simp only [queuedGroup, List.mem_singleton, exists_eq_left]
    constructor
    · rintro rfl
      exact ⟨Int.one_pos, rfl⟩
    · exact fun h => h.2.symm
  groupTime := 4
  holdoutTime := 4

/-- Adapter 1 has left; these are the requests that have come in since. -/
def slotFree (arrived : List (QueuedGroup ℚ)) : RotationTick ℚ where
  waiting := queuedGroup 1 2 0 true :: arrived
  running := []
  currLoras := []
  nodup := by decide
  mem_currLoras lid := by simp
  groupTime := 7
  holdoutTime := 7

def idle : AdmissionState ℚ Unit := ⟨[], [], ∅, 100, none, ()⟩

def starting : Event (AdmissionState ℚ Unit) (RotationTick ℚ) (List (QueuedGroup ℚ)) :=
  tickEvent oneSlotConfig 1 idle slotTaken

def following (arrived : List (QueuedGroup ℚ)) :
    Event (AdmissionState ℚ Unit) (RotationTick ℚ) (List (QueuedGroup ℚ)) :=
  tickEvent oneSlotConfig 1 starting.post (slotFree arrived)

theorem starting_starts : Starts oneSlotConfig starting 1 (queuedGroup 1 2 0 true) :=
  ⟨by decide +kernel, by decide +kernel, by decide +kernel, by decide +kernel, by decide +kernel,
    by decide +kernel⟩

theorem following_hasLeft (arrived : List (QueuedGroup ℚ)) :
    HasLeft (following arrived).label 1 (queuedGroup 1 2 0 true) :=
  ⟨List.not_mem_nil, List.mem_cons_self ..⟩

theorem exec_following (arrived : List (QueuedGroup ℚ)) :
    Exec (Tick Unit oneSlotConfig 1) idle ([] ++ starting :: ([] ++ following arrived :: []))
      (following arrived).post :=
  .cons (tick_tickEvent ..) (.single (tick_tickEvent ..))

/-- The adapter that waited has the longer queue: the slot is handed over. -/
theorem longerQueue_handed_over :
    HandsOver (following [queuedGroup 2 2 5 true, queuedGroup 3 1 6 true]) 1 2 := by
  have horder : offered oneSlotConfig
      (slotFree [queuedGroup 2 2 5 true, queuedGroup 3 1 6 true]).call
      ((slotFree [queuedGroup 2 2 5 true, queuedGroup 3 1 6 true]).enter starting.post)
      = [queuedGroup 1 2 0 true, queuedGroup 2 2 5 true, queuedGroup 3 1 6 true] := by
    decide +kernel
  refine (slot_handed_over_iff rfl (exec_following _) rfl starting_starts
    (fun e he => by cases he) (following_hasLeft _)).2.2.mpr (.inr fun before g after heq hg => ?_)
  refine (not_ahead_iff (P := fun before => ¬ 1 ≤ (_ ∪ adapters before).card) |>.mp ?_
    before g after (horder.symm.trans heq) hg).imp_right not_not.mp
  simp [ahead_cons, queuedGroup]

/-- The drained adapter has the longer queue: two requests that came in later take the
slot again. -/
theorem shorterQueue_not_handed_over :
    Exec (Tick Unit oneSlotConfig 1) idle ([] ++ starting :: ([]
        ++ following [queuedGroup 2 1 5 true, queuedGroup 3 1 6 true] :: []))
        (following [queuedGroup 2 1 5 true, queuedGroup 3 1 6 true]).post
      ∧ Starts oneSlotConfig starting 1 (queuedGroup 1 2 0 true)
      ∧ HasLeft (following [queuedGroup 2 1 5 true, queuedGroup 3 1 6 true]).label 1
        (queuedGroup 1 2 0 true)
      ∧ ¬ HandsOver (following [queuedGroup 2 1 5 true, queuedGroup 3 1 6 true]) 1 2 := by
  refine ⟨exec_following _, starting_starts, following_hasLeft _, ?_⟩
  have hout : (following [queuedGroup 2 1 5 true, queuedGroup 3 1 6 true]).out
      = [queuedGroup 2 1 5 true, queuedGroup 3 1 6 true] := by decide +kernel
  rintro (hres | hbehind)
  · exact absurd hres (by decide)
  · obtain ⟨y, hy, -⟩ := hbehind [] _ _ hout rfl
    cases hy

end Admission

end AdapterSlots
