import Mathlib.Data.List.Basic
import Mathlib.Order.Defs.PartialOrder

/-!
# Finite executions of a labelled step relation

A step takes a state and a label to an output and a next state. `Exec`
collects the finite executions from a start state together with their
history: one `Event` per step, oldest first, recording the state before
the step, its label, its output and the state after it.

The history makes statements about whole runs first class: "every state
reached satisfies P" quantifies over the events, "between two events
..." splits the list. `Exec.invariant` is the induction rule: an
invariant that holds at the start and is preserved by every step whose
label is admissible in its pre-state holds before and after every event.
-/

namespace Lib

structure Event (σ ι ω : Type) where
  pre : σ
  label : ι
  out : ω
  post : σ

/-- `Exec step s₀ tr s`: the steps recorded in `tr` lead from `s₀` to `s`. -/
inductive Exec {σ ι ω : Type} (step : σ → ι → ω → σ → Prop) (s₀ : σ) :
    List (Event σ ι ω) → σ → Prop
  | nil : Exec step s₀ [] s₀
  | snoc {tr : List (Event σ ι ω)} {s s' : σ} {i : ι} {o : ω} :
      Exec step s₀ tr s → step s i o s' → Exec step s₀ (tr ++ [⟨s, i, o, s'⟩]) s'

namespace Exec

variable {σ ι ω : Type} {step : σ → ι → ω → σ → Prop} {s₀ s : σ}
  {tr : List (Event σ ι ω)}

theorem single {i : ι} {o : ω} {s' : σ} (h : step s₀ i o s') :
    Exec step s₀ [⟨s₀, i, o, s'⟩] s' :=
  .snoc .nil h

theorem eq_of_nil (h : Exec step s₀ tr s) (heq : tr = []) : s = s₀ := by
  cases h with
  | nil => rfl
  | snoc _ _ => simp at heq

theorem step_of_mem (h : Exec step s₀ tr s) :
    ∀ e ∈ tr, step e.pre e.label e.out e.post := by
  induction h with
  | nil => intro e he; cases he
  | snoc _ hstep ih =>
      intro e he
      rcases List.mem_append.mp he with hold | hnew
      · exact ih e hold
      · obtain rfl := List.mem_singleton.mp hnew
        exact hstep

/-- The execution up to an event ends in that event's pre-state. -/
theorem before_event {tr₁ tr₂ : List (Event σ ι ω)} {e : Event σ ι ω}
    (h : Exec step s₀ tr s) (heq : tr = tr₁ ++ e :: tr₂) : Exec step s₀ tr₁ e.pre := by
  induction h generalizing tr₂ with
  | nil => simp at heq
  | @snoc tr s s' i o hpath hstep ih =>
      rcases List.eq_nil_or_concat tr₂ with rfl | ⟨tr₃, last, rfl⟩
      · obtain ⟨rfl, he⟩ := List.append_inj' heq rfl
        obtain rfl := (List.cons.inj he).1
        exact hpath
      · rw [List.concat_eq_append, ← List.cons_append, ← List.append_assoc] at heq
        exact ih (List.append_inj' heq rfl).1

/-- The execution up to and with an event ends in that event's post-state. -/
theorem upto_event {tr₁ tr₂ : List (Event σ ι ω)} {e : Event σ ι ω}
    (h : Exec step s₀ tr s) (heq : tr = tr₁ ++ e :: tr₂) : Exec step s₀ (tr₁ ++ [e]) e.post :=
  (h.before_event heq).snoc
    (h.step_of_mem e (heq ▸ List.mem_append_right _ (List.mem_cons_self ..)))

/-- What follows an event is an execution from that event's post-state. -/
theorem after_event {tr₁ tr₂ : List (Event σ ι ω)} {e : Event σ ι ω}
    (h : Exec step s₀ tr s) (heq : tr = tr₁ ++ e :: tr₂) : Exec step e.post tr₂ s := by
  induction h generalizing tr₂ with
  | nil => simp at heq
  | @snoc tr s s' i o hpath hstep ih =>
      rcases List.eq_nil_or_concat tr₂ with rfl | ⟨tr₃, last, rfl⟩
      · obtain ⟨-, he⟩ := List.append_inj' heq rfl
        obtain rfl := (List.cons.inj he).1
        exact .nil
      · rw [List.concat_eq_append, ← List.cons_append, ← List.append_assoc] at heq
        obtain ⟨htr, hlast⟩ := List.append_inj' heq rfl
        obtain rfl := (List.cons.inj hlast).1
        rw [List.concat_eq_append]
        exact (ih htr).snoc hstep

/-- The invariant rule. `Ok` is the side condition on a label in the state
it is applied to; it is required of the steps taken, not of all labels. -/
theorem invariant (Inv : σ → Prop) (Ok : σ → ι → Prop)
    (pres : ∀ s i o s', Inv s → Ok s i → step s i o s' → Inv s')
    (h : Exec step s₀ tr s) (hinit : Inv s₀) (hok : ∀ e ∈ tr, Ok e.pre e.label) :
    Inv s ∧ ∀ e ∈ tr, Inv e.pre ∧ Inv e.post := by
  induction h with
  | nil => exact ⟨hinit, fun e he => by cases he⟩
  | @snoc tr s s' i o hpath hstep ih =>
      obtain ⟨hs, hall⟩ := ih fun e he => hok e (List.mem_append_left _ he)
      have hs' : Inv s' := pres s i o s' hs
        (hok ⟨s, i, o, s'⟩ (List.mem_append_right _ (List.mem_cons_self ..))) hstep
      refine ⟨hs', fun e he => ?_⟩
      rcases List.mem_append.mp he with hold | hnew
      · exact hall e hold
      · obtain rfl := List.mem_singleton.mp hnew
        exact ⟨hs, hs'⟩

theorem cons {i : ι} {o : ω} {s₁ : σ} (hstep : step s₀ i o s₁) (h : Exec step s₁ tr s) :
    Exec step s₀ (⟨s₀, i, o, s₁⟩ :: tr) s := by
  induction h with
  | nil => exact single hstep
  | snoc _ hlast ih => exact ih.snoc hlast

end Exec

/-- The readings of a clock that some labels carry, oldest first. -/
def readings {σ ι ω κ : Type} (clock? : ι → Option κ) (tr : List (Event σ ι ω)) : List κ :=
  tr.filterMap fun e => clock? e.label

section Readings

variable {σ ι ω κ : Type} {clock? : ι → Option κ} {tr : List (Event σ ι ω)} {e : Event σ ι ω}

theorem readings_snoc :
    readings clock? (tr ++ [e]) = readings clock? tr ++ (clock? e.label).toList := by
  rw [readings, List.filterMap_append, readings]
  cases h : clock? e.label <;> simp [h]

/-- Under a non-decreasing clock the last reading is a greatest one. -/
theorem readings_le_of_snoc [Preorder κ]
    (h : (readings clock? (tr ++ [e])).Pairwise (· ≤ ·)) :
    (readings clock? tr).Pairwise (· ≤ ·)
      ∧ ∀ t ∈ readings clock? tr, ∀ t', clock? e.label = some t' → t ≤ t' := by
  rw [readings_snoc, List.pairwise_append] at h
  exact ⟨h.1, fun t ht t' ht' => h.2.2 t ht t' (by simp [ht'])⟩

end Readings

/-- The events behind the last one whose label satisfies `p`. -/
def sinceLast {σ ι ω : Type} (p : ι → Bool) (tr : List (Event σ ι ω)) : List (Event σ ι ω) :=
  (tr.reverse.takeWhile fun e => !p e.label).reverse

theorem sinceLast_snoc {σ ι ω : Type} {p : ι → Bool} {tr : List (Event σ ι ω)}
    {e : Event σ ι ω} :
    sinceLast p (tr ++ [e]) = if p e.label then [] else sinceLast p tr ++ [e] := by
  rw [sinceLast, List.reverse_append, List.reverse_singleton, List.singleton_append,
    List.takeWhile_cons]
  cases p e.label with
  | true => rfl
  | false => exact List.reverse_cons

/-! ## Deterministic systems -/

section Deterministic

variable {σ ι ω : Type}

/-- The relation of a step function. -/
def stepOf (f : ι → σ → σ × ω) (s : σ) (i : ι) (o : ω) (s' : σ) : Prop := f i s = (s', o)

/-- The history of feeding a list of labels to a step function. -/
def history (f : ι → σ → σ × ω) : σ → List ι → List (Event σ ι ω)
  | _, [] => []
  | s, i :: is => ⟨s, i, (f i s).2, (f i s).1⟩ :: history f (f i s).1 is

def final (f : ι → σ → σ × ω) : σ → List ι → σ
  | s, [] => s
  | s, i :: is => final f (f i s).1 is

theorem exec_history (f : ι → σ → σ × ω) : ∀ (is : List ι) (s : σ),
    Exec (stepOf f) s (history f s is) (final f s is)
  | [], _ => .nil
  | i :: is, s => .cons rfl (exec_history f is (f i s).1)

theorem label_mem_of_history {f : ι → σ → σ × ω} : ∀ {is : List ι} {s : σ},
    ∀ e ∈ history f s is, e.label ∈ is
  | [], _, _, h => by cases h
  | i :: is, s, e, h => by
      rcases List.mem_cons.mp h with rfl | h
      · exact List.mem_cons_self ..
      · exact List.mem_cons_of_mem _ (label_mem_of_history e h)

/-- The history of a step function that may fail, up to the end of the labels. -/
def tryHistory {ε : Type} (f : σ → ι → Except ε (σ × ω)) :
    σ → List ι → Except ε (List (Event σ ι ω) × σ)
  | s, [] => .ok ([], s)
  | s, i :: is =>
      match f s i with
      | .error e => .error e
      | .ok r =>
          match tryHistory f r.1 is with
          | .error e => .error e
          | .ok h => .ok (⟨s, i, r.2, r.1⟩ :: h.1, h.2)

theorem exec_of_tryHistory {ε : Type} {f : σ → ι → Except ε (σ × ω)} :
    ∀ {is : List ι} {s : σ} {r : List (Event σ ι ω) × σ}, tryHistory f s is = .ok r →
      Exec (fun s i o s' => f s i = .ok (s', o)) s r.1 r.2 ∧ r.1.map Event.label = is
  | [], _, _, h => by
      obtain rfl := Except.ok.inj h
      exact ⟨.nil, rfl⟩
  | i :: is, s, _, h => by
      rw [tryHistory] at h
      split at h
      · cases h
      · rename_i r hr
        split at h
        · cases h
        · rename_i r' hr'
          obtain rfl := Except.ok.inj h
          obtain ⟨hexec, hlabels⟩ := exec_of_tryHistory hr'
          exact ⟨.cons hr hexec, by rw [List.map_cons, hlabels]⟩

/-- The labels are served up to the first one at which the function fails. -/
theorem exec_until_error {ε : Type} (f : σ → ι → Except ε (σ × ω)) : ∀ (is : List ι) (s₀ : σ),
    ∃ is₁ is₂ tr s, is = is₁ ++ is₂ ∧ Exec (fun s i o s' => f s i = .ok (s', o)) s₀ tr s
      ∧ tr.map Event.label = is₁ ∧ ∀ i ∈ is₂.head?, ∃ e, f s i = .error e
  | [], s₀ => ⟨[], [], [], s₀, rfl, .nil, rfl, fun i hi => by cases hi⟩
  | i :: is, s₀ => by
      cases hi : f s₀ i with
      | error e =>
          refine ⟨[], i :: is, [], s₀, rfl, .nil, rfl, fun i' hi' => ?_⟩
          obtain rfl := Option.some.inj hi'
          exact ⟨e, hi⟩
      | ok r =>
          obtain ⟨is₁, is₂, tr, s, rfl, hexec, rfl, hstop⟩ := exec_until_error f is r.1
          exact ⟨_, is₂, _, s, rfl, hexec.cons hi, rfl, hstop⟩

end Deterministic

end Lib
