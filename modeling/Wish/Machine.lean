import Mathlib.Algebra.BigOperators.Group.Finset.Basic
import Mathlib.Logic.Function.Basic
import Mathlib.Data.List.Induction

/-!
# Step machines and their runs

A machine is a partial step function `step : σ → α → Option σ`: the action `a` is not
enabled in `s` when `step s a = none`. Nothing here depends on what the states are.

* `run`: a list of actions in order, `none` as soon as one of them is not enabled.
* `Guarded step C s₀ as s`: the actions `as` lead from `s₀` to `s` and every one of them
  meets the condition `C` in the state it is taken in. `C := fun _ _ => True` gives every
  run (`guarded_of_run`).
* `guarded_iff_run`, `exists_guarded`: a guarded run, computed.
* `guarded_invariant`: an invariant kept by every step that meets `C` holds after every
  run whose steps all meet `C`; `guarded_simulation` is the same with ghost data.
* `forall_prefix_iff_guarded`: when a condition is exact.
* `sum_update`: a sum over threads when one of them takes a step.
* `Mutex hold m`: the mutex `m` is held by the one thread that says so.
-/

namespace Machine

variable {σ α γ : Type*} {step : σ → α → Option σ} {C : σ → α → Prop} {s₀ s s' : σ}
  {a : α} {as bs : List α}

/-- Take the actions of a list in order. -/
def run (step : σ → α → Option σ) (s : σ) : List α → Option σ
  | [] => some s
  | a :: as => (step s a).bind fun s' => run step s' as

@[simp] theorem run_nil : run step s [] = some s := rfl

theorem run_cons : run step s (a :: as) = (step s a).bind fun s' => run step s' as := rfl

theorem run_append : run step s (as ++ bs) = (run step s as).bind fun s' => run step s' bs := by
  induction as generalizing s with
  | nil => rfl
  | cons a as ih =>
    simp only [List.cons_append, run_cons, Option.bind_assoc]
    exact Option.bind_congr fun s' _ => ih

theorem run_snoc : run step s (as ++ [a]) = (run step s as).bind fun s' => step s' a := by
  rw [run_append]
  refine Option.bind_congr fun s' _ => ?_
  simp [run_cons]

/-- A run all of whose steps meet the condition `C`. -/
inductive Guarded (step : σ → α → Option σ) (C : σ → α → Prop) (s₀ : σ) :
    List α → σ → Prop
  | nil : Guarded step C s₀ [] s₀
  | snoc {as : List α} {s s' : σ} {a : α} (run : Guarded step C s₀ as s) (cond : C s a)
      (next : step s a = some s') : Guarded step C s₀ (as ++ [a]) s'

theorem Guarded.run_eq (h : Guarded step C s₀ as s) : run step s₀ as = some s := by
  induction h with
  | nil => rfl
  | snoc _ _ next ih => rw [run_snoc, ih]; exact next

/-- A run is guarded if its actions meet the condition in every state. -/
theorem guarded_of_mem (hC : ∀ a ∈ as, ∀ s, C s a) (h : run step s₀ as = some s) :
    Guarded step C s₀ as s := by
  induction as using List.reverseRecOn generalizing s with
  | nil => cases h; exact .nil
  | append_singleton as a ih =>
    rw [run_snoc] at h
    obtain ⟨m, hm, hs⟩ := Option.bind_eq_some_iff.mp h
    exact .snoc (ih (fun b hb => hC b (List.mem_append_left _ hb)) hm)
      (hC a (List.mem_append_right _ (List.mem_singleton_self a)) m) hs

theorem guarded_of_run (hC : ∀ s a, C s a) (h : run step s₀ as = some s) :
    Guarded step C s₀ as s :=
  guarded_of_mem (fun a _ s => hC s a) h

theorem Guarded.cons (cond : C s₀ a) (next : step s₀ a = some s)
    (h : Guarded step C s as s') : Guarded step C s₀ (a :: as) s' := by
  induction h with
  | nil => exact .snoc .nil cond next
  | snoc _ cond' next' ih => exact .snoc ih cond' next'

theorem Guarded.append (h : Guarded step C s₀ as s) (h' : Guarded step C s bs s') :
    Guarded step C s₀ (as ++ bs) s' := by
  induction h' with
  | nil => rwa [List.append_nil]
  | snoc _ cond next ih =>
    rw [← List.append_assoc]
    exact .snoc ih cond next

/-- The beginning of a guarded run is a guarded run. -/
theorem Guarded.of_prefix (h : Guarded step C s₀ as s) (hp : bs <+: as)
    (hb : Machine.run step s₀ bs = some s') : Guarded step C s₀ bs s' := by
  induction h with
  | nil =>
    obtain rfl := List.prefix_nil.mp hp
    cases hb
    exact .nil
  | @snoc as s m a hrun cond next ih =>
    rcases List.prefix_concat_iff.mp hp with rfl | hp'
    · have hm : m = s' := by
        rw [(Guarded.snoc hrun cond next).run_eq] at hb
        exact Option.some.inj hb
      exact hm ▸ .snoc hrun cond next
    · exact ih hp'

/-- Where the condition can be decided, guarded runs are the runs of the guarded steps. -/
theorem guarded_iff_run [∀ s a, Decidable (C s a)] :
    Guarded step C s₀ as s ↔ run (fun s a => if C s a then step s a else none) s₀ as = some s := by
  constructor
  · intro h
    induction h with
    | nil => rfl
    | snoc _ cond next ih =>
      rw [run_snoc, ih, Option.bind_some, if_pos cond]
      exact next
  · intro h
    induction as using List.reverseRecOn generalizing s with
    | nil => cases h; exact .nil
    | append_singleton as a ih =>
      rw [run_snoc] at h
      obtain ⟨m, hm, hs⟩ := Option.bind_eq_some_iff.mp h
      rw [Option.ite_none_right_eq_some] at hs
      exact .snoc (ih hm) hs.1 hs.2

/-- What is to be seen of a guarded run, computed. -/
theorem exists_guarded [∀ s a, Decidable (C s a)] {view : σ → γ} {v : γ}
    (h : (run (fun s a => if C s a then step s a else none) s₀ as).map view = some v) :
    ∃ s, Guarded step C s₀ as s ∧ view s = v := by
  obtain ⟨s, hs, hv⟩ := Option.map_eq_some_iff.mp h
  exact ⟨s, guarded_iff_run.mpr hs, hv⟩

/-- **Invariant rule.** -/
theorem guarded_invariant {I : σ → Prop} (h0 : I s₀)
    (hstep : ∀ s a s', I s → C s a → step s a = some s' → I s')
    (h : Guarded step C s₀ as s) : I s := by
  induction h with
  | nil => exact h0
  | snoc _ cond next ih => exact hstep _ _ _ ih cond next

/-- **Simulation rule.** Ghost data `g` may be chosen anew after every step. -/
theorem guarded_simulation {R : γ → σ → Prop} (h0 : ∃ g, R g s₀)
    (hstep : ∀ g s a s', R g s → C s a → step s a = some s' → ∃ g', R g' s')
    (h : Guarded step C s₀ as s) : ∃ g, R g s :=
  guarded_invariant (I := fun s => ∃ g, R g s) h0
    (fun s a s' ⟨g, hg⟩ hc hs => hstep g s a s' hg hc hs) h

/-- Invariant rule for all runs. -/
theorem run_invariant {I : σ → Prop} (h0 : I s₀)
    (hstep : ∀ s a s', I s → step s a = some s' → I s')
    (h : run step s₀ as = some s) : I s :=
  guarded_invariant (C := fun _ _ => True) h0 (fun s a s' hi _ hs => hstep s a s' hi hs)
    (guarded_of_run (fun _ _ => trivial) h)

/-- Every run meets a condition that an invariant of the runs implies. -/
theorem guarded_of_invariant {I : σ → Prop} (h0 : I s₀) (hC : ∀ s a, I s → C s a)
    (hstep : ∀ s a s', I s → C s a → step s a = some s' → I s')
    (h : run step s₀ as = some s) : Guarded step C s₀ as s := by
  induction as using List.reverseRecOn generalizing s with
  | nil => cases h; exact .nil
  | append_singleton as a ih =>
    rw [run_snoc] at h
    obtain ⟨m, hm, hs⟩ := Option.bind_eq_some_iff.mp h
    exact .snoc (ih hm) (hC m a (guarded_invariant h0 hstep (ih hm))) hs

/-- **Exact conditions.** Where the condition keeps an invariant that implies `P`, and a step that
does not meet it breaks `P`, the runs with `P` all along are those whose steps all meet it. -/
theorem forall_prefix_iff_guarded {I P : σ → Prop} (h0 : I s₀) (hP : ∀ s, I s → P s)
    (hstep : ∀ s a s', I s → C s a → step s a = some s' → I s')
    (hbad : ∀ s a s', I s → ¬ C s a → step s a = some s' → ¬ P s')
    (h : run step s₀ as = some s) :
    (∀ bs s', bs <+: as → run step s₀ bs = some s' → P s') ↔ Guarded step C s₀ as s := by
  constructor
  · intro hall
    induction as using List.reverseRecOn generalizing s with
    | nil => cases h; exact .nil
    | append_singleton as a ih =>
      have hlast := hall _ s List.prefix_rfl h
      rw [run_snoc] at h
      obtain ⟨m, hm, hs⟩ := Option.bind_eq_some_iff.mp h
      have hrun : Guarded step C s₀ as m :=
        ih hm fun bs s' hp => hall bs s' (hp.trans (List.prefix_append _ _))
      refine .snoc hrun ?_ hs
      by_contra hc
      exact hbad m a s (guarded_invariant h0 hstep hrun) hc hs hlast
  · intro hG bs s' hp hb
    exact hP s' (guarded_invariant h0 hstep (hG.of_prefix hp hb))

/-- The thread `t` goes from `f t` to `a`. -/
theorem sum_update {ι M : Type*} [DecidableEq ι] [AddCommMonoid M] {us : Finset ι} {t : ι}
    (ht : t ∈ us) (f : ι → α) (a : α) (c : α → M) :
    ∑ u ∈ us, c (Function.update f t a u) + c (f t) = ∑ u ∈ us, c (f u) + c a := by
  have hnew := Finset.add_sum_erase us (fun u => c (Function.update f t a u)) ht
  have hold := Finset.add_sum_erase us (fun u => c (f u)) ht
  have hrest : ∑ u ∈ us.erase t, c (Function.update f t a u) = ∑ u ∈ us.erase t, c (f u) :=
    Finset.sum_congr rfl fun u hu => by rw [Function.update_of_ne (Finset.ne_of_mem_erase hu)]
  simp only [Function.update_self] at hnew
  rw [← hnew, ← hold, hrest, add_right_comm, add_comm (c a), add_right_comm, add_comm (c (f t))]

/-! ## Mutual exclusion -/

section Mutex

variable {ι : Type*} {hold : ι → Bool} {m : Option ι} {o o' : ι} {b : Bool}

/-- The threads that say that they hold the mutex, and its owner. -/
def Mutex (hold : ι → Bool) (m : Option ι) : Prop := ∀ o, hold o = true ↔ m = some o

theorem Mutex.exclusive (h : Mutex hold m) (ho : hold o = true) (ho' : hold o' = true) :
    o = o' :=
  Option.some.inj (((h o).mp ho).symm.trans ((h o').mp ho'))

variable [DecidableEq ι]

theorem Mutex.stay (h : Mutex hold m) (hb : b = hold o) : Mutex (Function.update hold o b) m := by
  rw [hb, Function.update_eq_self]
  exact h

theorem Mutex.acquire (h : Mutex hold none) (hb : b = true) :
    Mutex (Function.update hold o b) (some o) := by
  intro v
  by_cases hv : v = o
  · simp [hv, hb]
  · have hfree : hold v = true ↔ none = some v := h v
    simp [Function.update_of_ne hv, hfree, Ne.symm hv]

theorem Mutex.release (h : Mutex hold m) (ho : hold o = true) (hb : b = false) :
    Mutex (Function.update hold o b) none := by
  intro v
  by_cases hv : v = o
  · simp [hv, hb]
  · have hother : hold v ≠ true := fun hv' => hv (h.exclusive hv' ho)
    simp [Function.update_of_ne hv, hother]

end Mutex

end Machine
