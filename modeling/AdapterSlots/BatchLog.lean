import AdapterSlots.SchedulerMemory

/-!
# The arrival times of the batch log

The metrics file gets a record for every dispatched batch, and for every token of
it the time its sequence was buffered. That time is popped from the enqueue records
of the buffer, so it is there once. A token without one is stamped with the dispatch
time, which reads as no delay at all.

The threshold, erlang and cash schedulers report every sequence that decodes once,
in its first batch and with the time it was first offered
(`arrival_reported_once`). A wgkp tick releases the records before it writes the
log, so its log reports no delay, ever (`wgkp_reports_no_delay`).
-/

namespace AdapterSlots

open Lib AlignmentBuffer

variable {K : Type} [Field K] [LinearOrder K]

/-- An entry of `tokens`; `enqueued` is the popped record. -/
structure TokenRecord (K : Type) where
  adapterId : String
  seqId : ℕ
  enqueued : Option K

omit [LinearOrder K] in
/-- `arrival_time_ms` before it is rounded. -/
def TokenRecord.arrivalMs (r : TokenRecord K) (tDispatchPerf t0Ms : K) : K :=
  r.enqueued.getD tDispatchPerf * 1000 - t0Ms

/-- The loop over `batch_groups`. -/
def tokenRecords : List SequenceGroup → Dict ℕ K → List (TokenRecord K)
  | [], _ => []
  | g :: gs, seqEnqueue =>
      ⟨g.adapterId, g.seqGroupId, seqEnqueue.get? g.seqGroupId⟩
        :: tokenRecords gs (seqEnqueue.erase g.seqGroupId)

/-- The times reported for a sequence. -/
def reportsOf (records : List (TokenRecord K)) (x : ℕ) : List (Option K) :=
  (records.filter fun r => decide (r.seqId = x)).map TokenRecord.enqueued

omit [Field K] [LinearOrder K] in
theorem reportsOf_append (l l' : List (TokenRecord K)) (x : ℕ) :
    reportsOf (l ++ l') x = reportsOf l x ++ reportsOf l' x := by
  rw [reportsOf, List.filter_append, List.map_append]
  rfl

omit [Field K] [LinearOrder K] in
theorem reportsOf_flatMap {ε : Type} (f : ε → List (TokenRecord K)) (x : ℕ) : ∀ l : List ε,
    reportsOf (l.flatMap f) x = (l.map fun e => reportsOf (f e) x).flatten
  | [] => rfl
  | e :: l => by
      rw [List.flatMap_cons, reportsOf_append, reportsOf_flatMap f x l]
      rfl

omit [Field K] [LinearOrder K] in
/-- A sequence that stands in the batch once is reported once. -/
theorem reportsOf_tokenRecords {x : ℕ} : ∀ {batch : List SequenceGroup} {d : Dict ℕ K},
    (batch.map SequenceGroup.seqGroupId).Nodup → reportsOf (tokenRecords batch d) x
      = if x ∈ batch.map SequenceGroup.seqGroupId then [d.get? x] else []
  | [], _, _ => rfl
  | g :: gs, d, hnd => by
      obtain ⟨hnot, hnd'⟩ := List.nodup_cons.mp hnd
      have hcons : reportsOf (tokenRecords (g :: gs) d) x
          = (if g.seqGroupId = x then [d.get? g.seqGroupId] else [])
            ++ reportsOf (tokenRecords gs (d.erase g.seqGroupId)) x := by
        unfold reportsOf
        rw [tokenRecords, List.filter_cons]
        by_cases hx : g.seqGroupId = x
        · simp [hx]
        · simp [hx]
      rw [hcons, reportsOf_tokenRecords hnd', Dict.get?_erase, List.map_cons]
      by_cases hx : g.seqGroupId = x
      · subst hx
        simp [hnot]
      · simp [hx, Ne.symm hx]

namespace AlignmentAwareScheduler

/-! ## What a tick writes -/

/-- `all_decode`, the batch of the record. -/
def loggedBatch (s₁ : AlignmentAwareScheduler K) (i : TickInput K) (call : DispatchCall K) :
    List SequenceGroup :=
  sortByAdapter (s₁.postAlignmentGroups i) ++ s₁.alignedGroups i call

/-- The enqueue records the log finds. -/
def recordsAtLog (cfg : Config K) (s₁ : AlignmentAwareScheduler K) (i : TickInput K)
    (call : DispatchCall K) : Dict ℕ K :=
  if cfg.mode = .wgkp then (s₁.releaseEarly i (s₁.dispatch i call)).1.buffer.seqEnqueue
  else (s₁.dispatch i call).1.buffer.seqEnqueue

/-- The `tokens` of the record a tick writes. -/
def logEntry (cfg : Config K) (env : Env K)
    (e : Event (AlignmentAwareScheduler K) (TickInput K) (List SequenceGroup)) :
    List (TokenRecord K) :=
  if e.label.sel.decodeGroups = [] then []
  else match e.pre.countCall.prepareTick cfg env e.label with
    | .error _ => []
    | .ok r => tokenRecords (r.1.loggedBatch e.label r.2) (r.1.recordsAtLog cfg e.label r.2)

/-- All token records of a run, in the order of the file. -/
def batchLog (cfg : Config K) (env : Env K) (tr : TickHistory K) : List (TokenRecord K) :=
  tr.flatMap (logEntry cfg env)

/-- The time at which a sequence is offered first. -/
def firstOffer (tr : TickHistory K) (x : ℕ) : Option K :=
  (tr.find? fun e => decide (x ∈ offeredIds e.label)).map fun e => e.label.clock.enqueue x

/-- The number of batches in which a sequence decodes. -/
def batchesWith (tr : TickHistory K) (x : ℕ) : ℕ := tr.countP fun e => decide (Decodes e.out x)

section Tick

variable {adapterOf : ℕ → String} {cfg : Config K} {env : Env K}
  {s s' s₁ : AlignmentAwareScheduler K} {i : TickInput K} {call : DispatchCall K}
  {out : List SequenceGroup} {tr : TickHistory K} {x : ℕ}
  {e : Event (AlignmentAwareScheduler K) (TickInput K) (List SequenceGroup)}

theorem batchLog_snoc :
    batchLog cfg env (tr ++ [e]) = batchLog cfg env tr ++ logEntry cfg env e := by
  rw [batchLog, List.flatMap_append, List.flatMap_singleton]
  rfl

theorem firstOffer_snoc : firstOffer (tr ++ [e]) x = (firstOffer tr x).or
    (if x ∈ offeredIds e.label then some (e.label.clock.enqueue x) else none) := by
  unfold firstOffer
  rw [List.find?_append, List.find?_singleton]
  by_cases hx : x ∈ offeredIds e.label
  · simp only [hx, decide_true, if_true]
    cases tr.find? _ <;> rfl
  · simp [hx]

theorem logEntry_of_prepare (hsome : i.sel.decodeGroups ≠ [])
    (hprep : s.countCall.prepareTick cfg env i = .ok (s₁, call)) :
    logEntry cfg env ⟨s, i, out, s'⟩
      = tokenRecords (s₁.loggedBatch i call) (s₁.recordsAtLog cfg i call) := by
  rw [logEntry, if_neg hsome, hprep]

theorem logEntry_of_nil (hnone : i.sel.decodeGroups = []) :
    logEntry cfg env ⟨s, i, out, s'⟩ = [] := if_pos hnone

/-! ## The enqueue records of a tick -/

omit [Field K] [LinearOrder K] in
theorem get?_enqueueGroups {clock : ℕ → K} : ∀ {groups : List SequenceGroup}
    {b : AlignmentBuffer K}, (enqueueGroups clock groups b).seqEnqueue.get? x
      = (b.seqEnqueue.get? x).or
        (if x ∈ groups.map SequenceGroup.seqGroupId then some (clock x) else none)
  | [], b => by simp [enqueueGroups]
  | g :: gs, b => by
      have hone : (b.enqueue g.adapterId g.seqGroupId (clock g.seqGroupId)).seqEnqueue.get? x
          = (b.seqEnqueue.get? x).or (if g.seqGroupId = x then some (clock x) else none) := by
        unfold AlignmentBuffer.enqueue
        split
        · rename_i hrec
          by_cases hx : g.seqGroupId = x
          · obtain ⟨t, ht⟩ := Dict.mem_iff_get?.mp (hx ▸ hrec)
            rw [ht]
            rfl
          · rw [if_neg hx, Option.or_none]
        · rename_i hrec
          show ((b.registerAdapter g.adapterId).seqEnqueue.insert _ _).get? x = _
          have hreg : (b.registerAdapter g.adapterId).seqEnqueue = b.seqEnqueue := by
            unfold registerAdapter
            split <;> rfl
          rw [hreg, Dict.get?_insert]
          by_cases hx : g.seqGroupId = x
          · rw [if_pos hx, if_pos hx, Dict.get?_eq_none.mpr (hx ▸ hrec), hx]
            rfl
          · rw [if_neg hx, if_neg hx, Option.or_none]
      rw [enqueueGroups, List.foldl_cons, ← enqueueGroups, get?_enqueueGroups, hone,
        Option.or_assoc, List.map_cons]
      congr 1
      by_cases hx : g.seqGroupId = x
      · simp [hx]
      · simp [hx, Ne.symm hx]

omit [Field K] [LinearOrder K] in
theorem get?_releaseGroups (groups : List SequenceGroup) (b : AlignmentBuffer K) :
    (groups.foldl (fun b g => b.release g.seqGroupId) b).seqEnqueue.get? x
      = if x ∈ groups.map SequenceGroup.seqGroupId then none else b.seqEnqueue.get? x := by
  induction groups generalizing b with
  | nil => rfl
  | cons g gs ih =>
      rw [List.foldl_cons, ih, List.map_cons]
      show (if _ then none else (b.seqEnqueue.erase g.seqGroupId).get? x) = _
      rw [Dict.get?_erase]
      by_cases hx : x = g.seqGroupId
      · simp [hx]
      · simp [hx]

/-! ## Threshold, erlang and cash -/

/-- The modes whose tail is `emitBatch`. -/
def Plain (cfg : Config K) : Prop := cfg.mode ≠ .wgkp ∧ cfg.mode ≠ .piAdaptive

instance (cfg : Config K) : Decidable (Plain cfg) := inferInstanceAs (Decidable (_ ∧ _))

theorem emitBatch_of_plain (hplain : Plain cfg) (h : s₁.emitTick cfg env i call = .ok (s', out)) :
    s₁.emitBatch cfg env i call = .ok (s', out) := by
  unfold emitTick at h
  cases hmode : cfg.mode with
  | wgkp => exact absurd hmode hplain.1
  | piAdaptive => exact absurd hmode hplain.2
  | threshold => simpa only [hmode] using h
  | erlang => simpa only [hmode] using h
  | cash => simpa only [hmode] using h

/-- The log takes the records of its batch, and no other. -/
theorem get?_of_plain (hplain : Plain cfg) (hon : cfg.WritesMetrics)
    (h : s₁.emitTick cfg env i call = .ok (s', out)) : s'.buffer.seqEnqueue.get? x
      = if x ∈ (s₁.loggedBatch i call).map SequenceGroup.seqGroupId then none
        else s₁.buffer.seqEnqueue.get? x := by
  have hrec : (s₁.dispatch i call).1.buffer.seqEnqueue = s₁.buffer.seqEnqueue :=
    seqEnqueue_apply call s₁.buffer _ _
  obtain ⟨s₂, hlog, h⟩ := bind_eq_ok (emitBatch_of_plain hplain h)
  obtain ⟨rfl, -⟩ := Prod.mk.inj (Except.ok.inj h)
  rw [logWarStats_metrics hon hlog, ← hrec]
  exact get?_releaseGroups _ _

theorem recordsAtLog_of_plain (hplain : Plain cfg) :
    s₁.recordsAtLog cfg i call = s₁.buffer.seqEnqueue := by
  rw [recordsAtLog, if_neg hplain.1]
  exact seqEnqueue_apply call s₁.buffer _ _

theorem mem_loggedBatch : x ∈ (s₁.loggedBatch i call).map SequenceGroup.seqGroupId
    ↔ (x ∈ offeredIds i ∧ x ∈ s₁.postAlignmentSeqs)
      ∨ x ∈ (s₁.alignedGroups i call).map SequenceGroup.seqGroupId := by
  have hsort : ∀ g, g ∈ sortByAdapter (s₁.postAlignmentGroups i) ↔ g ∈ s₁.postAlignmentGroups i :=
    fun g => (sortByKey_perm _ _).mem_iff
  rw [loggedBatch, List.map_append, List.mem_append]
  refine or_congr_left ?_
  simp only [List.mem_map, hsort, mem_postAlignmentGroups, offeredIds]
  constructor
  · rintro ⟨g, ⟨hg, hpost⟩, rfl⟩
    exact ⟨⟨g, hg, rfl⟩, hpost⟩
  · rintro ⟨⟨g, hg, rfl⟩, hpost⟩
    exact ⟨g, ⟨hg, hpost⟩, rfl⟩

/-- The batch of the log is the decode part of the output. -/
theorem decodePart_of_plain (hplain : Plain cfg) :
    s₁.decodePart cfg i call = s₁.loggedBatch i call := by
  rw [decodePart, drainedGroups_of_ne hplain.1, List.append_nil]
  rfl

theorem nodup_loggedBatch (hplain : Plain cfg) (hw : Waiting adapterOf s₁) :
    ((s₁.loggedBatch i call).map SequenceGroup.seqGroupId).Nodup := by
  have hdec : (i.sel.decodeGroups.map SequenceGroup.seqGroupId).Nodup :=
    i.sel.nodup.sublist (List.filter_sublist.map _)
  rw [← decodePart_of_plain hplain]
  refine hw.nodup_decodePart.map_on fun g hg g' hg' heq => ?_
  exact List.inj_on_of_nodup_map hdec (mem_decodePart hg) (mem_decodePart hg') heq

theorem decodes_iff_logged (hplain : Plain cfg) (hemit : Emitted cfg s₁ i call s' out) :
    Decodes out x ↔ x ∈ (s₁.loggedBatch i call).map SequenceGroup.seqGroupId := by
  rw [← decodePart_of_plain hplain]
  constructor
  · rintro ⟨g, hg, hdec, rfl⟩
    rw [hemit.out_eq] at hg
    rcases List.mem_append.mp hg with hpre | hpart
    · rw [(mem_prefillGroups.mp hpre).2] at hdec
      cases hdec
    · exact List.mem_map.mpr ⟨g, hpart, rfl⟩
  · intro hx
    obtain ⟨g, hg, rfl⟩ := List.mem_map.mp hx
    exact hemit.decodes hg

/-- What the log has reported of a sequence: nothing while it waits, and then its first
offer and no delay for every later batch. -/
def Reported (cfg : Config K) (env : Env K) (tr : TickHistory K) (s : AlignmentAwareScheduler K)
    (x : ℕ) : Prop :=
  (x ∉ s.postAlignmentSeqs ∧ s.buffer.seqEnqueue.get? x = firstOffer tr x
      ∧ batchesWith tr x = 0 ∧ reportsOf (batchLog cfg env tr) x = [])
    ∨ x ∈ s.postAlignmentSeqs ∧ s.buffer.seqEnqueue.get? x = none
      ∧ ∃ t n, firstOffer tr x = some t ∧ batchesWith tr x = n + 1
        ∧ reportsOf (batchLog cfg env tr) x = some t :: List.replicate n none

theorem batchesWith_snoc : batchesWith (tr ++ [e]) x
    = batchesWith tr x + if Decodes e.out x then 1 else 0 := by
  rw [batchesWith, List.countP_append, List.countP_singleton]
  by_cases hd : Decodes e.out x
  · simp [hd, batchesWith]
  · simp [hd, batchesWith]

/-- The enqueue record of a sequence once a tick has enqueued what it offers. -/
def recordAt (s : AlignmentAwareScheduler K) (i : TickInput K) (x : ℕ) : Option K :=
  (s.buffer.seqEnqueue.get? x).or
    (if x ∈ offeredIds i ∧ x ∉ s.postAlignmentSeqs then some (i.clock.enqueue x) else none)

/-- What a tick with decode groups does to a sequence and writes about it; `now` says that
its dispatch lets the sequence go. -/
structure Logs (cfg : Config K) (env : Env K) (s : AlignmentAwareScheduler K) (i : TickInput K)
    (out : List SequenceGroup) (s' : AlignmentAwareScheduler K) (x : ℕ) (now : Prop) : Prop where
  first : now → x ∈ offeredIds i ∧ x ∉ s.postAlignmentSeqs
  post : x ∈ s'.postAlignmentSeqs ↔ x ∈ s.postAlignmentSeqs ∨ now
  decodes : Decodes out x ↔ (x ∈ offeredIds i ∧ x ∈ s.postAlignmentSeqs) ∨ now
  reports : reportsOf (logEntry cfg env ⟨s, i, out, s'⟩) x
    = if Decodes out x then [s.recordAt i x] else []
  record : s'.buffer.seqEnqueue.get? x = if Decodes out x then none else s.recordAt i x

theorem mem_firstTimeIds : x ∈ (s.firstTimeGroups i).map SequenceGroup.seqGroupId
    ↔ x ∈ offeredIds i ∧ x ∉ s.postAlignmentSeqs := by
  simp only [offeredIds, List.mem_map, mem_firstTimeGroups]
  constructor
  · rintro ⟨g, ⟨hg, hnot⟩, rfl⟩
    exact ⟨⟨g, hg, rfl⟩, hnot⟩
  · rintro ⟨⟨g, hg, rfl⟩, hnot⟩
    exact ⟨g, ⟨hg, hnot⟩, rfl⟩

theorem logs_of_plain (hplain : Plain cfg) (hon : cfg.WritesMetrics) (hw : Waiting adapterOf s)
    (hfix : i.FixedAdapter adapterOf) (hsome : i.sel.decodeGroups ≠ [])
    (hprep : s.countCall.prepareTick cfg env i = .ok (s₁, call))
    (hspec : Prepared cfg s i s₁ call) (htail : s₁.emitTick cfg env i call = .ok (s', out)) :
    Logs cfg env s i out s' x (x ∈ (s₁.alignedGroups i call).map SequenceGroup.seqGroupId) := by
  have hemit := emitted_of_emitTick htail
  have hsplit : atSplit cfg s i = s := if_neg hplain.1
  have hpost : s₁.postAlignmentSeqs = s.postAlignmentSeqs := by rw [hspec.post_eq, hsplit]
  have hrec : s₁.buffer.seqEnqueue.get? x = s.recordAt i x := by
    rw [hspec.buffer_eq, hsplit, recordAt]
    simp only [← mem_firstTimeIds]
    exact get?_enqueueGroups
  refine ⟨fun hx => ?_, ?_, ?_, ?_, ?_⟩
  · obtain ⟨g, hg, rfl⟩ := List.mem_map.mp hx
    obtain ⟨hdec, hnot⟩ := mem_firstTimeGroups.mp (mem_alignedGroups.mp hg).1
    exact ⟨List.mem_map.mpr ⟨g, hdec, rfl⟩, hpost ▸ hnot⟩
  · rw [hemit.post, drainedGroups_of_ne hplain.1, List.append_nil, hpost]
    exact and_iff_left fun hpi => absurd hpi hplain.2
  · rw [decodes_iff_logged hplain hemit, mem_loggedBatch, hpost]
  · rw [logEntry_of_prepare hsome hprep, recordsAtLog_of_plain hplain,
      reportsOf_tokenRecords (nodup_loggedBatch hplain (hw.prepared hfix hspec)), hrec]
    simp only [decodes_iff_logged hplain hemit]
  · rw [get?_of_plain hplain hon htail, hrec]
    simp only [decodes_iff_logged hplain hemit]

/-- A sequence that waits, or is offered for the first time. -/
theorem Logs.reported_of_waiting {now : Prop} (h : Logs cfg env s i out s' x now)
    (hnot : x ∉ s.postAlignmentSeqs) (hget : s.buffer.seqEnqueue.get? x = firstOffer tr x)
    (hcount : batchesWith tr x = 0) (hreport : reportsOf (batchLog cfg env tr) x = []) :
    Reported cfg env (tr ++ [⟨s, i, out, s'⟩]) s' x := by
  have hoffer : firstOffer (tr ++ [⟨s, i, out, s'⟩]) x = s.recordAt i x := by
    rw [firstOffer_snoc, recordAt, hget]
    simp only [hnot, not_false_eq_true, and_true]
  have hdec : Decodes out x ↔ now := h.decodes.trans (or_iff_right fun hx => hnot hx.2)
  have hpost : x ∈ s'.postAlignmentSeqs ↔ now := h.post.trans (or_iff_right hnot)
  unfold Reported
  rw [batchesWith_snoc, batchLog_snoc, reportsOf_append, hcount, hreport, h.reports, h.record,
    hoffer, hpost]
  by_cases hnow : now
  · obtain ⟨t, ht⟩ : ∃ t, s.recordAt i x = some t := by
      rw [recordAt, if_pos (h.first hnow)]
      cases s.buffer.seqEnqueue.get? x with
      | none => exact ⟨_, rfl⟩
      | some t => exact ⟨t, rfl⟩
    have hout := hdec.mpr hnow
    rw [if_pos hout, if_pos hout, if_pos hout, ht]
    exact .inr ⟨hnow, rfl, t, 0, rfl, rfl, rfl⟩
  · have hout := mt hdec.mp hnow
    rw [if_neg hout, if_neg hout, if_neg hout]
    exact .inl ⟨hnow, rfl, rfl, rfl⟩

/-- A sequence that is aligned, and has no record any more. -/
theorem Logs.reported_of_aligned {now : Prop} (h : Logs cfg env s i out s' x now) {t : K} {n : ℕ}
    (hpost : x ∈ s.postAlignmentSeqs) (hget : s.buffer.seqEnqueue.get? x = none)
    (hoffer : firstOffer tr x = some t) (hcount : batchesWith tr x = n + 1)
    (hreport : reportsOf (batchLog cfg env tr) x = some t :: List.replicate n none) :
    Reported cfg env (tr ++ [⟨s, i, out, s'⟩]) s' x := by
  have hnow : s.recordAt i x = none := by
    rw [recordAt, hget, if_neg fun hx => hx.2 hpost]
    rfl
  unfold Reported
  rw [firstOffer_snoc, batchesWith_snoc, batchLog_snoc, reportsOf_append, hcount, hreport,
    h.reports, h.record, hnow, hoffer, ite_self]
  refine .inr ⟨h.post.mpr (.inl hpost), rfl, t, ?_⟩
  by_cases hdec : Decodes out x
  · rw [if_pos hdec, if_pos hdec]
    refine ⟨n + 1, rfl, rfl, ?_⟩
    rw [List.cons_append, List.replicate_succ']
  · rw [if_neg hdec, if_neg hdec, List.append_nil]
    exact ⟨n, rfl, rfl, rfl⟩

theorem Reported.tick (h : Reported cfg env tr s x) (hplain : Plain cfg) (hon : cfg.WritesMetrics)
    (hw : Waiting adapterOf s) (hfix : i.FixedAdapter adapterOf) (htick : Tick cfg env s i out s') :
    Reported cfg env (tr ++ [⟨s, i, out, s'⟩]) s' x := by
  rcases tick_cases htick with ⟨hnone, rfl, rfl⟩ | ⟨hsome, s₁, call, hprep, hspec, htail⟩
  · have hoff : offeredIds i = [] := by rw [offeredIds, hnone, List.map_nil]
    have hnot : ¬ Decodes i.sel.scheduled x := not_decodes_of_nil hnone
    unfold Reported
    rw [firstOffer_snoc, batchesWith_snoc, batchLog_snoc, reportsOf_append, logEntry_of_nil hnone,
      hoff, if_neg List.not_mem_nil, if_neg hnot, Option.or_none, Nat.add_zero,
      show reportsOf ([] : List (TokenRecord K)) x = [] from rfl, List.append_nil]
    exact h
  · have hlogs : Logs cfg env s i out s' x _ :=
      logs_of_plain hplain hon hw hfix hsome hprep hspec htail
    rcases h with ⟨hnot, hget, hcount, hreport⟩ | ⟨hpost, hget, t, n, hoffer, hcount, hreport⟩
    · exact hlogs.reported_of_waiting hnot hget hcount hreport
    · exact hlogs.reported_of_aligned hpost hget hoffer hcount hreport

/-! ## The wgkp tick -/

/-- Aligned sequences have no enqueue record. -/
def Unrecorded (s : AlignmentAwareScheduler K) : Prop :=
  ∀ x ∈ s.postAlignmentSeqs, x ∉ s.buffer.seqEnqueue

/-- At the dispatch too: only first-time groups get a record. -/
theorem Unrecorded.prepared (h : Unrecorded s) (hprep : Prepared cfg s i s₁ call) :
    Unrecorded s₁ := by
  intro x hpost hrec
  rw [hprep.post_eq] at hpost
  rw [hprep.buffer_eq, mem_seqEnqueue_enqueueGroups] at hrec
  rcases hrec with hold | hnew
  · have hpre : x ∈ s.postAlignmentSeqs := by
      unfold atSplit at hpost
      split at hpost
      · exact (Finset.mem_sdiff.mp hpost).1
      · exact hpost
    exact h x hpre (mem_atSplit hold).1
  · obtain ⟨g, hg, rfl⟩ := List.mem_map.mp hnew
    exact (mem_firstTimeGroups.mp hg).2 hpost

theorem Unrecorded.tick (h : Unrecorded s) (hmode : cfg.mode = .wgkp)
    (htick : Tick cfg env s i out s') : Unrecorded s' := by
  rcases tick_cases htick with ⟨-, rfl, -⟩ | ⟨-, s₁, call, -, hprep, htail⟩
  · exact h
  · have hemit := emitted_of_emitTick htail
    intro x hpost
    rcases ((hemit.post x).mp hpost).1 with hold | hleft
    · exact fun hrec => h.prepared hprep x hold (hemit.recorded_of x hrec)
    · exact unrecorded_of_emitTick hmode htail hleft

omit [Field K] [LinearOrder K] in
theorem tokenRecords_none : ∀ {batch : List SequenceGroup} {d : Dict ℕ K},
    (∀ g ∈ batch, g.seqGroupId ∉ d) → ∀ r ∈ tokenRecords batch d, r.enqueued = none
  | [], _, _, _, hr => nomatch hr
  | g :: gs, d, h, r, hr => by
      rcases List.mem_cons.mp hr with rfl | hr
      · exact Dict.get?_eq_none.mpr (h g (List.mem_cons_self ..))
      · refine tokenRecords_none (fun g' hg' hin => ?_) r hr
        exact h g' (List.mem_cons_of_mem _ hg') (Dict.mem_erase.mp hin).1

/-- The records of the dispatched groups are released before the log. -/
theorem logEntry_none (h : Unrecorded s) (hmode : cfg.mode = .wgkp)
    (htick : Tick cfg env s i out s') :
    ∀ r ∈ logEntry cfg env ⟨s, i, out, s'⟩, r.enqueued = none := by
  rcases tick_cases htick with ⟨hnone, -, -⟩ | ⟨hsome, s₁, call, hprep, hspec, -⟩
  · rw [logEntry_of_nil hnone]
    exact fun r hr => nomatch hr
  · obtain ⟨-, -, hrecs, -⟩ := spec_releaseEarly s₁ i call hmode
    rw [logEntry_of_prepare hsome hprep, recordsAtLog, if_pos hmode]
    refine tokenRecords_none fun g hg hrec => ?_
    obtain ⟨hold, hkept⟩ := (hrecs g.seqGroupId).mp hrec
    rcases mem_loggedBatch.mp (List.mem_map.mpr ⟨g, hg, rfl⟩) with ⟨-, hpost⟩ | hal
    · exact h.prepared hspec _ hpost hold
    · rw [List.map_append, List.mem_append, not_or] at hkept
      exact hkept.1 hal

/-! ## Runs -/

/-- The log has an entry for every batch in which `x` decodes. The first carries the time
at which `x` was first offered, and the later ones no time. -/
def ReportedOnce (cfg : Config K) (env : Env K) (tr : TickHistory K) (x : ℕ) : Prop :=
  (batchesWith tr x = 0 ∧ reportsOf (batchLog cfg env tr) x = [])
    ∨ ∃ t n, firstOffer tr x = some t ∧ batchesWith tr x = n + 1
      ∧ reportsOf (batchLog cfg env tr) x = some t :: List.replicate n none

/-- **Every arrival is reported once**, in every run of the threshold, erlang and cash
schedulers with a metrics file. -/
theorem arrival_reported_once (hplain : Plain cfg) (hon : cfg.WritesMetrics)
    (h : Exec (Tick cfg env) (init cfg) tr s) (hfix : ∀ e ∈ tr, e.label.FixedAdapter adapterOf)
    (x : ℕ) : ReportedOnce cfg env tr x := by
  have hall : Waiting adapterOf s ∧ Reported cfg env tr s x := by
    induction h with
    | nil =>
        refine ⟨waiting_init, .inl ⟨?_, rfl, rfl, rfl⟩⟩
        exact fun hx => by simp [init] at hx
    | @snoc tr s s' i out hpath htick ih =>
        obtain ⟨hw, hr⟩ := ih fun e he => hfix e (List.mem_append_left _ he)
        have hi : i.FixedAdapter adapterOf := hfix ⟨s, i, out, s'⟩ (by simp)
        exact ⟨hw.tick hi htick, hr.tick hplain hon hw hi htick⟩
  rcases hall.2 with ⟨-, -, hnone⟩ | ⟨-, -, hsome⟩
  · exact .inl hnone
  · exact .inr hsome

/-- A threshold scheduler with a metrics file. -/
def loggingConfig (mode : Mode) : Config ℚ :=
  { Config.default mode with logWar := true, metricsFile := true }

/-- Sequence 1 is held for a tick and decodes in the two after it. -/
theorem heldThenRun_reported :
    ∃ tr s, Exec (Tick (loggingConfig .threshold) sampleEnv) (init (loggingConfig .threshold)) tr s
      ∧ reportsOf (batchLog (loggingConfig .threshold) sampleEnv tr) 1 = [some 0, none]
      ∧ ReportedOnce (loggingConfig .threshold) sampleEnv tr 1 := by
  obtain ⟨tr, s, hexec, hlabels, hlog⟩ := exists_run (loggingConfig .threshold) sampleEnv
    heldThenRun (fun e => reportsOf (logEntry (loggingConfig .threshold) sampleEnv e) 1)
    (l := [[], [some 0], [none]]) (by decide +kernel)
  refine ⟨tr, s, hexec, ?_, arrival_reported_once (by decide) ⟨rfl, rfl⟩ hexec (fun e he =>
    heldThenRun_fixed e.label (hlabels ▸ List.mem_map.mpr ⟨e, he, rfl⟩)) 1⟩
  rw [batchLog, reportsOf_flatMap, hlog]
  rfl

/-- **A wgkp log reports no delay.** In every run of the wgkp scheduler every token of the
log arrives, by its record, at the time its batch is dispatched. -/
theorem wgkp_reports_no_delay (hmode : cfg.mode = .wgkp) (h : Exec (Tick cfg env) (init cfg) tr s)
    {r : TokenRecord K} (hr : r ∈ batchLog cfg env tr) (tDispatchPerf t0Ms : K) :
    r.arrivalMs tDispatchPerf t0Ms = tDispatchPerf * 1000 - t0Ms := by
  have hinit : Unrecorded (init cfg) := fun x hx => by simp [init] at hx
  have hinv := (h.invariant Unrecorded (fun _ _ => True)
    (fun s i out s' hs _ htick => hs.tick hmode htick) hinit fun _ _ => trivial).2
  obtain ⟨e, he, hr⟩ := List.mem_flatMap.mp hr
  rw [TokenRecord.arrivalMs,
    logEntry_none (hinv e he).1 hmode (h.step_of_mem e he) r hr]
  rfl

/-- Both sequences decode in both ticks. -/
theorem offerBoth_no_delay :
    ∃ tr s, Exec (Tick (loggingConfig .wgkp) sampleEnv) (init (loggingConfig .wgkp)) tr s
      ∧ tr.map (fun e => (logEntry (loggingConfig .wgkp) sampleEnv e).map TokenRecord.seqId)
        = [[1, 2], [1, 2]]
      ∧ ∀ r ∈ batchLog (loggingConfig .wgkp) sampleEnv tr, r.arrivalMs 7 0 = 7 * 1000 - 0 := by
  obtain ⟨tr, s, hexec, -, hlog⟩ := exists_run (loggingConfig .wgkp) sampleEnv
    [offerBoth 0, offerBoth 1]
    (fun e => (logEntry (loggingConfig .wgkp) sampleEnv e).map TokenRecord.seqId)
    (l := [[1, 2], [1, 2]]) (by decide +kernel)
  exact ⟨tr, s, hexec, hlog, fun r hr => wgkp_reports_no_delay rfl hexec hr 7 0⟩

end Tick

end AlignmentAwareScheduler

end AdapterSlots
