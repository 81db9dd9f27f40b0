import Wish.Machine

/-!
# `myFuture` of `memory/myfuture.cpp`

A worker thread waits for the value of a stage, takes a task of `Then` and calls it with the value,
takes a task of `When` and starts the next stage with it, and goes round. It leaves its loop when
it finds one of the two queues empty. `Then` and `When` put a task into their queue, each under the
mutex of the queue, and may be called at any time. A stage may complete at any time once it has
been started.

* `Lost`: a task of `Then` that will not be run although its stage is there or has been asked for.
* `kept_iff`: nothing is lost all along exactly when no registration comes too late (`InTime`).
-/

namespace Wish.MyFuture

open Machine

/-- Where the worker is. -/
inductive WorkerPc (τ ω : Type) where
  /-- in `future.wait()` -/
  | wait
  /-- before the lock of `m_mtx` -/
  | thens
  /-- before `task(future.get())` -/
  | call (task : τ)
  /-- before the lock of `m_mtx2` -/
  | whens
  /-- before `std::async` -/
  | async (whentask : ω)
  /-- it has left its loop -/
  | left

/-- `τ` are the tasks of `Then`, `ω` those of `When`, and `T` the values of the stages. -/
structure State (τ ω T : Type) where
  mThentasks : List τ
  mWhentasks : List ω
  /-- the value of the stage that was started last, if it has completed -/
  future : Option T
  pc : WorkerPc τ ω
  /-- the tasks of `Then`, as they were registered -/
  thens : List τ
  /-- the tasks of `When` -/
  whens : List ω
  /-- those of them that have been started -/
  started : List ω
  /-- the values of the stages that have completed -/
  stages : List T
  /-- the calls of the tasks of `Then` -/
  calls : List (τ × T)

inductive Act (τ ω T : Type) where
  | Then (f : τ)
  | When (f : ω)
  /-- the stage that was started last completes -/
  | complete (v : T)
  /-- the worker goes on -/
  | worker

namespace State

variable {τ ω T : Type}

def init : State τ ω T := ⟨[], [], none, .wait, [], [], [], [], []⟩

def workerNext (s : State τ ω T) : Option (State τ ω T) :=
  match s.pc with
  | .wait => if s.future.isSome then some { s with pc := .thens } else none
  | .thens =>
    match s.mThentasks with
    | [] => some { s with pc := .left }
    | task :: tasks => some { s with mThentasks := tasks, pc := .call task }
  | .call task =>
    match s.future with
    | none => none
    | some v => some { s with calls := s.calls ++ [(task, v)], pc := .whens }
  | .whens =>
    match s.mWhentasks with
    | [] => some { s with pc := .left }
    | task :: tasks => some { s with mWhentasks := tasks, pc := .async task }
  | .async task => some { s with future := none, started := s.started ++ [task], pc := .wait }
  | .left => none

def step (s : State τ ω T) : Act τ ω T → Option (State τ ω T)
  | .Then f => some { s with mThentasks := s.mThentasks ++ [f], thens := s.thens ++ [f] }
  | .When f => some { s with mWhentasks := s.mWhentasks ++ [f], whens := s.whens ++ [f] }
  | .complete v =>
    if s.future.isSome then none else some { s with future := some v, stages := s.stages ++ [v] }
  | .worker => s.workerNext

/-- The worker has left, the `i`-th task of `Then` has not been called, and the `i`-th stage has
its value, or the task of `When` that gives it has been registered. -/
def Lost (s : State τ ω T) (i : Nat) : Prop :=
  s.pc = .left ∧ (i < s.thens.length ∧ s.calls.length ≤ i) ∧
    (i < s.stages.length ∨ 0 < i ∧ i ≤ s.whens.length)

/-- No callback is lost, and each is called in its turn with the value of its stage. -/
structure Kept (s : State τ ω T) : Prop where
  never : ∀ i, ¬ s.Lost i
  order : s.calls.map Prod.fst <+: s.thens
  value : s.calls.map Prod.snd <+: s.stages

/-- The registration comes before it is too late. -/
def InTime (s : State τ ω T) : Act τ ω T → Prop
  | .Then _ => s.pc = .left → s.whens.length < s.calls.length
  | .When _ => s.pc = .left →
      s.thens.length ≤ s.calls.length ∨ s.whens.length + 1 < s.calls.length
  | .complete _ | .worker => True

end State

/-! ## Where the tasks are -/

namespace WorkerPc

variable {τ ω : Type}

/-- The task of `Then` that has been taken. -/
def task : WorkerPc τ ω → List τ
  | .call task => [task]
  | .wait | .thens | .whens | .async _ | .left => []

/-- The task of `When` that has been taken. -/
def whentask : WorkerPc τ ω → List ω
  | .async whentask => [whentask]
  | .wait | .thens | .call _ | .whens | .left => []

/-- How many calls there have been when so many stages have been started by `When`. -/
def Counts (calls started : Nat) : WorkerPc τ ω → Prop
  | .wait | .thens | .call _ => calls = started
  | .whens | .async _ => calls = started + 1
  | .left => calls = started ∨ calls = started + 1

end WorkerPc

namespace State

variable {τ ω T : Type} {s s' : State τ ω T} {a : Act τ ω T}

/-- What holds in every run. -/
structure Inv (s : State τ ω T) : Prop where
  thens : s.thens = s.calls.map Prod.fst ++ s.pc.task ++ s.mThentasks
  whens : s.whens = s.started ++ s.pc.whentask ++ s.mWhentasks
  counts : s.pc.Counts s.calls.length s.started.length
  /-- every stage that has been started has completed, but for the last -/
  stages : s.stages.length + (if s.future.isSome then 0 else 1) = s.started.length + 1
  ready : s.pc = .wait ∨ s.future.isSome
  last : ∀ v, s.future = some v → s.stages.getLast? = some v
  value : s.calls.map Prod.snd <+: s.stages

theorem inv_init : Inv (init : State τ ω T) where
  thens := rfl
  whens := rfl
  counts := rfl
  stages := rfl
  ready := Or.inl rfl
  last := nofun
  value := List.prefix_rfl

/-- When the worker has left, what is lost can be counted. -/
theorem Inv.lost_iff (h : Inv s) : (∃ i, s.Lost i) ↔
    s.pc = .left ∧ s.calls.length < s.thens.length ∧ s.calls.length ≤ s.whens.length := by
  constructor
  · intro ⟨i, hpc, ⟨hthen, hcall⟩, hstage⟩
    have hready := h.ready
    have hstages := h.stages
    have hwhens := congrArg List.length h.whens
    rw [hpc] at hready
    rw [if_pos (hready.resolve_left nofun)] at hstages
    rw [List.length_append, List.length_append] at hwhens
    refine ⟨hpc, by omega, ?_⟩
    rcases hstage with hstage | hstage
    · omega
    · omega
  · intro ⟨hpc, hthen, hwhen⟩
    have hready := h.ready
    have hstages := h.stages
    rw [hpc] at hready
    rw [if_pos (hready.resolve_left nofun)] at hstages
    refine ⟨s.calls.length, hpc, ⟨hthen, Nat.le_refl _⟩, ?_⟩
    omega

theorem Inv.calls_order (h : Inv s) : s.calls.map Prod.fst <+: s.thens := by
  rw [h.thens, List.append_assoc]
  exact List.prefix_append _ _

theorem Inv.kept_iff_count (h : Inv s) : Kept s ↔
    (s.pc = .left → s.calls.length < s.thens.length → s.whens.length < s.calls.length) := by
  constructor
  · intro hkept hpc hthen
    by_contra hwhen
    obtain ⟨i, hi⟩ := h.lost_iff.mpr ⟨hpc, hthen, Nat.le_of_not_lt hwhen⟩
    exact hkept.never i hi
  · intro hcount
    refine ⟨fun i hi => ?_, h.calls_order, h.value⟩
    obtain ⟨hpc, hthen, hwhen⟩ := h.lost_iff.mp ⟨i, hi⟩
    exact absurd (hcount hpc hthen) (Nat.not_lt.mpr hwhen)

/-- The value of a call is that of the last stage, and all before it have been used. -/
theorem Inv.value_call {task₀ : τ} {v : T} (h : Inv s) (hpc : s.pc = .call task₀)
    (hv : s.future = some v) (task : τ) :
    (s.calls ++ [(task, v)]).map Prod.snd <+: s.stages := by
  obtain ⟨rest, hrest⟩ := h.value
  have hcounts := h.counts
  rw [hpc] at hcounts
  have hstages := h.stages
  have hlen : rest.length = 1 := by
    rw [hv, ← hrest, List.length_append, List.length_map,
      show s.calls.length = s.started.length from hcounts] at hstages
    simp only [Option.isSome_some, if_true] at hstages
    omega
  obtain ⟨w, rfl⟩ := List.length_eq_one_iff.mp hlen
  have hw := h.last v hv
  rw [← hrest, List.getLast?_concat, Option.some.injEq] at hw
  rw [← hrest, hw, List.map_append]
  exact List.prefix_rfl

/-- The worker takes a task or leaves; where it leaves, nothing is lost yet. -/
theorem Inv.workerNext (h : Inv s) (hs : s.workerNext = some s') :
    Inv s' ∧ (s'.pc = .left → s'.calls.length < s'.thens.length →
      s'.whens.length < s'.calls.length) := by
  unfold State.workerNext at hs
  have hthens := h.thens
  have hwhens := h.whens
  have hcounts := h.counts
  have hready := h.ready
  cases hpc : s.pc with
  | wait =>
    simp only [hpc, Option.ite_none_right_eq_some, Option.some.injEq] at hs hthens hwhens hcounts
    obtain ⟨hsome, rfl⟩ := hs
    exact ⟨⟨hthens, hwhens, hcounts, h.stages, Or.inr hsome, h.last, h.value⟩, nofun⟩
  | thens =>
    simp only [hpc] at hs hthens hwhens hcounts hready
    have hsome := hready.resolve_left nofun
    cases htasks : s.mThentasks with
    | nil =>
      simp only [htasks, Option.some.injEq] at hs hthens
      subst hs
      refine ⟨⟨hthens, hwhens, Or.inl hcounts, h.stages, Or.inr hsome,
        h.last, h.value⟩, fun _ hlt => ?_⟩
      -- all that have been registered have been called
      rw [hthens, List.length_append, List.length_append, List.length_map] at hlt
      exact absurd hlt (Nat.lt_irrefl _)
    | cons task tasks =>
      simp only [htasks, Option.some.injEq] at hs hthens
      subst hs
      refine ⟨⟨?_, hwhens, hcounts, h.stages, Or.inr hsome, h.last, h.value⟩, nofun⟩
      rw [hthens]
      simp [WorkerPc.task]
  | call task =>
    simp only [hpc] at hs hthens hwhens hcounts
    cases hv : s.future with
    | none =>
      rw [hv] at hs
      cases hs
    | some v =>
      simp only [hv, Option.some.injEq] at hs
      subst hs
      have hstages := h.stages
      have hlast := h.last
      rw [hv] at hstages hlast
      refine ⟨⟨?_, hwhens, ?_, hstages, Or.inr rfl, hlast, ?_⟩, nofun⟩
      · rw [hthens]
        simp [WorkerPc.task]
      · show (s.calls ++ [(task, v)]).length = s.started.length + 1
        rw [List.length_append, show s.calls.length = s.started.length from hcounts]
        rfl
      · exact h.value_call hpc hv task
  | whens =>
    simp only [hpc] at hs hthens hwhens hcounts hready
    have hsome := hready.resolve_left nofun
    cases htasks : s.mWhentasks with
    | nil =>
      simp only [htasks, Option.some.injEq] at hs hwhens
      subst hs
      refine ⟨⟨hthens, hwhens, Or.inr hcounts, h.stages, Or.inr hsome,
        h.last, h.value⟩, fun _ _ => ?_⟩
      -- all that have been registered have been started
      rw [hwhens, List.length_append, List.length_append,
        show s.calls.length = s.started.length + 1 from hcounts]
      exact Nat.lt_succ_self _
    | cons task tasks =>
      simp only [htasks, Option.some.injEq] at hs hwhens
      subst hs
      refine ⟨⟨hthens, ?_, hcounts, h.stages, Or.inr hsome, h.last, h.value⟩, nofun⟩
      rw [hwhens]
      simp [WorkerPc.whentask]
  | async task =>
    simp only [hpc, Option.some.injEq] at hs hthens hwhens hcounts hready
    subst hs
    have hstages := h.stages
    rw [if_pos (hready.resolve_left nofun)] at hstages
    refine ⟨⟨hthens, ?_, ?_, ?_, Or.inl rfl, nofun, h.value⟩, nofun⟩
    · rw [hwhens]
      simp [WorkerPc.whentask]
    · show s.calls.length = (s.started ++ [task]).length
      rw [List.length_append]
      exact hcounts
    · show s.stages.length + 1 = (s.started ++ [task]).length + 1
      rw [List.length_append, List.length_singleton]
      omega
  | left =>
    rw [hpc] at hs
    cases hs

theorem Inv.complete {v : T} (h : Inv s) (hf : ¬ s.future.isSome = true) :
    Inv { s with future := some v, stages := s.stages ++ [v] } where
  thens := h.thens
  whens := h.whens
  counts := h.counts
  stages := by
    have hstages := h.stages
    rw [if_neg hf] at hstages
    rw [List.length_append]
    exact hstages
  ready := Or.inr rfl
  last w hw := by
    rw [← hw]
    exact List.getLast?_concat
  value := h.value.trans (List.prefix_append _ _)

theorem Inv.step (h : Inv s) (hs : step s a = some s') : Inv s' := by
  cases a with
  | Then f =>
    cases hs
    refine ⟨?_, h.whens, h.counts, h.stages, h.ready, h.last, h.value⟩
    rw [h.thens, List.append_assoc _ s.mThentasks]
  | When f =>
    cases hs
    refine ⟨h.thens, ?_, h.counts, h.stages, h.ready, h.last, h.value⟩
    rw [h.whens, List.append_assoc _ s.mWhentasks]
  | complete v =>
    simp only [State.step, Option.ite_none_left_eq_some, Option.some.injEq] at hs
    obtain ⟨hf, rfl⟩ := hs
    exact h.complete hf
  | worker => exact (h.workerNext hs).1

/-! ## What is lost -/

theorem Inv.kept_step (h : Inv s) (hkept : Kept s) (hc : InTime s a)
    (hs : State.step s a = some s') : Kept s' := by
  rw [(h.step hs).kept_iff_count]
  rw [h.kept_iff_count] at hkept
  cases a with
  | Then f =>
    cases hs
    exact fun hpc _ => hc hpc
  | When f =>
    cases hs
    intro hpc hthen
    rw [List.length_append, List.length_singleton]
    exact (hc hpc).resolve_left (Nat.not_le.mpr hthen)
  | complete v =>
    simp only [State.step, Option.ite_none_left_eq_some, Option.some.injEq] at hs
    obtain ⟨-, rfl⟩ := hs
    exact hkept
  | worker => exact (h.workerNext hs).2

theorem Inv.not_kept (h : Inv s) (hc : ¬ InTime s a) (hs : State.step s a = some s') :
    ¬ Kept s' := by
  rw [(h.step hs).kept_iff_count]
  intro hkept
  cases a with
  | Then f =>
    cases hs
    simp only [InTime, Classical.not_imp, Nat.not_lt] at hc
    obtain ⟨hpc, hwhen⟩ := hc
    have hthens := congrArg List.length h.thens
    rw [List.length_append, List.length_append, List.length_map] at hthens
    refine absurd (hkept hpc ?_) (Nat.not_lt.mpr hwhen)
    show s.calls.length < (s.thens ++ [f]).length
    rw [List.length_append, List.length_singleton]
    omega
  | When f =>
    cases hs
    simp only [InTime, Classical.not_imp, not_or, Nat.not_le, Nat.not_lt] at hc
    obtain ⟨hpc, hthen, hwhen⟩ := hc
    have hlt : (s.whens ++ [f]).length < s.calls.length := hkept hpc hthen
    rw [List.length_append, List.length_singleton] at hlt
    omega
  | complete v | worker => exact hc trivial

/-- **No callback is lost** all along exactly when every registration is in time. -/
theorem kept_iff {as : List (Act τ ω T)} (h : run step init as = some s) :
    (∀ bs s', bs <+: as → run step init bs = some s' → Kept s') ↔
      Guarded step InTime init as s :=
  forall_prefix_iff_guarded (I := fun s : State τ ω T => Inv s ∧ Kept s) (P := Kept)
    ⟨inv_init, inv_init.kept_iff_count.mpr nofun⟩ (fun _ hi => hi.2)
    (fun _ _ _ hi hc hs => ⟨hi.1.step hs, hi.1.kept_step hi.2 hc hs⟩)
    (fun _ _ _ hi hc hs => hi.1.not_kept hc hs) h

/-- Every task of `Then` is called with the value of its stage, and in its turn, in every run. -/
theorem calls_prefix {as : List (Act τ ω T)} (h : run step init as = some s) :
    s.calls.map Prod.fst <+: s.thens ∧ s.calls.map Prod.snd <+: s.stages := by
  have hinv : Inv s := run_invariant inv_init (fun _ _ _ hi hs => hi.step hs) h
  exact ⟨hinv.calls_order, hinv.value⟩

/-! The first stage completes at once. -/

/-- The worker finds no task and leaves, and the task comes after that. -/
def tooLate : List (Act Nat Nat Nat) := [.complete 1, .worker, .worker, .Then 0]

/-- The task is there before. -/
def early : List (Act Nat Nat Nat) := [.Then 0, .complete 1, .worker, .worker, .worker, .worker]

theorem not_kept_tooLate :
    ¬ ∀ (as : List (Act Nat Nat Nat)) (s : State Nat Nat Nat),
      run step init as = some s → Kept s := by
  intro h
  have hkept := h tooLate _ rfl
  exact hkept.never 0 ⟨rfl, ⟨by decide, by decide⟩, Or.inl (by decide)⟩

theorem kept_iff_early : ∃ s, run step init early = some s ∧ s.calls = [(0, 1)] ∧
    ((∀ bs s', bs <+: early → run step init bs = some s' → Kept s') ↔
      Guarded step InTime init early s) :=
  ⟨_, rfl, rfl, kept_iff rfl⟩

end State

end Wish.MyFuture
