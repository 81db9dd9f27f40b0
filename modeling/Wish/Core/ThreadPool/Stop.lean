import Wish.Core.ThreadPool.Conserved
import Mathlib.Algebra.Order.BigOperators.Group.Finset

/-!
# Stopping a pool

`core/threadpool/thread_pool.h`: `stop`, the destructor, and the workers on their way out of the
loop. `Moves` is the control flow of a worker; what a stopped pool can still do is read off it.

* `stop_is_final`: what is begun after `m_stop` has been set had been let through before, each
  worker drops one task at most, and no client is let through any more.
* `workers_leave`: a worker leaves after at most nine steps of its own and two for each time that its
  wait ends before the time-out, and there is always a thread that can go on.
* `stop_waits_for_timeOut`: with an empty queue nothing but the time-out ends the wait of a worker.
-/

namespace Wish.ThreadPool

open Machine StablePriorityQueue
open PriorityThreadPool (Job Tasks Score)

variable {n : ℕ} {S Q : Type*}

section Stop

variable [LinearOrder S] {T : Tasks S Q} {new : Q} {ok : S → Prop}
  {R : Q → List (Item S Job) → Prop} {s s' : State n S Q} {a : Act n S}

omit [LinearOrder S] in
theorem clientStep_mStop {c : Cid} (hs : clientStep T s c = some s') :
    s'.mStop = s.mStop ∨ s'.mStop = true := by
  unfold clientStep at hs
  split at hs
  case h_4 =>
    simp only at hs
    split at hs <;> cases hs <;> exact Or.inl rfl
  case h_8 =>
    cases hs
    exact Or.inr rfl
  all_goals
    first | split at hs | skip
    all_goals first | split at hs | skip
    all_goals first | split at hs | skip
    all_goals cases hs
    all_goals exact Or.inl rfl

/-- `m_stop` is set once and for all. -/
theorem step_mStop (hs : step T s a = some s') : s'.mStop = s.mStop ∨ s'.mStop = true := by
  unfold step at hs
  split at hs
  case h_1 => cases hs
  case h_7 => exact clientStep_mStop hs
  case h_9 =>
    unfold workerStep at hs
    split at hs <;> (try split at hs) <;> cases hs <;> exact Or.inl rfl
  case h_12 =>
    unfold finishStep at hs
    split at hs
    all_goals
      split at hs <;> cases hs
      exact Or.inl rfl
  all_goals
    first | unfold State.enter at hs | skip
    split at hs <;> (try split at hs) <;> cases hs
    exact Or.inl rfl

theorem mStop_step (hstop : s.mStop = true) (hs : step T s a = some s') : s'.mStop = true := by
  rcases step_mStop hs with h | h
  · rw [h, hstop]
  · exact h

/-! ## What a stopped pool still does -/

/-- The tasks let through and not begun. -/
def WorkerPc.ready : WorkerPc S → Multiset (Item S Job)
  | .begin item => {item}
  | _ => 0

/-- The client has passed the test of `insert` or `zinsert` and not pushed yet. -/
def ClientPc.admitted : ClientPc S → Bool
  | .lock _ _ | .emplace _ _ => true
  | _ => false

/-- A worker in a stopped pool that may still drop a task. -/
def WorkerPc.mayDrop : WorkerPc S → ℕ
  | .testStop | .left => 0
  | _ => 1

omit [LinearOrder S] in
theorem Moves.ready {p q : WorkerPc S} (h : Moves true p q) (hcur : q.current = p.current) :
    q.ready = p.ready := by
  cases h with
  | start item => simp [WorkerPc.current] at hcur
  | go item running => cases running
  | _ => rfl

omit [LinearOrder S] in
theorem Moves.mayDrop {p q : WorkerPc S} (h : Moves true p q) : q.mayDrop ≤ p.mayDrop := by
  cases h with
  | loop running => cases running
  | _ => simp [WorkerPc.mayDrop]

/-- In a stopped pool the tasks begun are those that had been let through. -/
theorem step_ready (hstop : s.mStop = true) (hs : step T s a = some s') :
    (s'.log.begun : Multiset (Item S Job)) + ∑ w, (s'.worker w).ready =
      s.log.begun + ∑ w, (s.worker w).ready := by
  cases step_effect hs with
  | stays tasks log hand current =>
    have hready : ∀ w, (s'.worker w).ready = (s.worker w).ready := by
      intro w
      rcases step_moves hs w with hsame | hmoves
      · rw [hsame]
      · exact (hstop ▸ hmoves).ready (current w)
    simp only [log, hready]
  | push c plain score place item new result tasks log worker =>
    rw [log, worker, Log.push]
  | take w item place top tasks log worker =>
    have hsum : ∑ v, (Function.update s.worker w (.unlock (some item)) v).ready =
        ∑ v, (s.worker v).ready := by
      simpa [place, WorkerPc.ready] using sum_worker s w (.unlock (some item)) WorkerPc.ready
    rw [log, worker, Log.take, hsum]
  | start w item place tasks log worker =>
    have hsum : ∑ v, (Function.update s.worker w (.running item) v).ready + {item} =
        ∑ v, (s.worker v).ready := by
      simpa [place, WorkerPc.ready] using sum_worker s w (.running item) WorkerPc.ready
    rw [log, worker, Log.start, ← hsum, ← Multiset.coe_add, Multiset.coe_singleton]
    abel
  | finish w item place tasks log worker =>
    have hsum : ∑ v, (Function.update s.worker w .testStop v).ready = ∑ v, (s.worker v).ready := by
      simpa [place, WorkerPc.ready] using sum_worker s w .testStop WorkerPc.ready
    rw [log, worker, Log.finish, hsum]
  | drop w item place stopped tasks log worker =>
    have hsum : ∑ v, (Function.update s.worker w .testStop v).ready = ∑ v, (s.worker v).ready := by
      simpa [place, WorkerPc.ready] using sum_worker s w .testStop WorkerPc.ready
    rw [log, worker, Log.drop, hsum]

/-- In a stopped pool a worker drops at most one task more. -/
theorem step_mayDrop (hstop : s.mStop = true) (hs : step T s a = some s') :
    s'.log.dropped.length + ∑ w, (s'.worker w).mayDrop ≤
      s.log.dropped.length + ∑ w, (s.worker w).mayDrop := by
  have hle : ∀ w, (s'.worker w).mayDrop ≤ (s.worker w).mayDrop := by
    intro w
    rcases step_moves hs w with hsame | hmoves
    · rw [hsame]
    · exact (hstop ▸ hmoves).mayDrop
  have hsum : ∑ w, (s'.worker w).mayDrop ≤ ∑ w, (s.worker w).mayDrop :=
    Finset.sum_le_sum fun w _ => hle w
  cases step_effect hs with
  | drop w item place stopped tasks log worker =>
    have hlt : ∑ w, (s'.worker w).mayDrop < ∑ w, (s.worker w).mayDrop := by
      refine Finset.sum_lt_sum (fun v _ => hle v) ⟨w, Finset.mem_univ w, ?_⟩
      rw [worker, Function.update_self, place]
      exact Nat.one_pos
    rw [log, Log.drop, List.length_append, List.length_singleton]
    omega
  | stays tasks log hand current => rw [log]; exact Nat.add_le_add_left hsum _
  | push c plain score place item new result tasks log worker =>
    rw [log, Log.push]; exact Nat.add_le_add_left hsum _
  | take w item place top tasks log worker =>
    rw [log, Log.take]; exact Nat.add_le_add_left hsum _
  | start w item place tasks log worker =>
    rw [log, Log.start]; exact Nat.add_le_add_left hsum _
  | finish w item place tasks log worker =>
    rw [log, Log.finish]; exact Nat.add_le_add_left hsum _

/-- No client is let through any more. -/
theorem step_admitted (hstop : s.mStop = true) (hs : step T s a = some s') {c : Cid}
    (hc : (s'.client c).admitted = true) : (s.client c).admitted = true := by
  rcases step_client hs c with hsame | hmoves | hentry
  · rw [← hsame, hc]
  · generalize s.client c = p at hmoves
    generalize s'.client c = p' at hmoves hc
    rw [hstop] at hmoves
    cases hmoves
    case pass running _ _ => cases running
    case lock => rfl
    case stopped => split at hc <;> cases hc
    case exitUnlock => split at hc <;> cases hc
    all_goals cases hc
  · generalize s'.client c = p at hentry hc
    cases a <;> cases hentry <;> cases hc

/-- What is settled once the pool has been stopped in `s`. -/
structure Final (s s' : State n S Q) : Prop where
  stopped : s'.mStop = true
  /-- the tasks begun since then had been let through before -/
  begun : ∃ l, s'.log.begun = s.log.begun ++ l ∧ (l : Multiset (Item S Job)) ≤
    ∑ w, (s.worker w).ready
  admitted : ∀ c, (s'.client c).admitted = true → (s.client c).admitted = true

/-- Tasks are begun one after the other. -/
theorem step_begun (hs : step T s a = some s') : s.log.begun <+: s'.log.begun := by
  cases step_effect hs with
  | start w item place tasks log worker =>
    rw [log]
    exact List.prefix_append _ _
  | stays tasks log hand current => rw [log]
  | push c plain score place item new result tasks log worker => rw [log]; exact List.prefix_rfl
  | take w item place top tasks log worker => rw [log]; exact List.prefix_rfl
  | finish w item place tasks log worker => rw [log]; exact List.prefix_rfl
  | drop w item place stopped tasks log worker => rw [log]; exact List.prefix_rfl

theorem run_final (hstop : s.mStop = true) {as : List (Act n S)}
    (h : run (step T) s as = some s') : Final s s' := by
  obtain ⟨hstop', hprefix, hready, hadmitted⟩ :
      s'.mStop = true ∧ s.log.begun <+: s'.log.begun ∧
        (s'.log.begun : Multiset (Item S Job)) + ∑ w, (s'.worker w).ready =
          s.log.begun + ∑ w, (s.worker w).ready ∧
        ∀ c, (s'.client c).admitted = true → (s.client c).admitted = true := by
    refine run_invariant (I := fun s' : State n S Q => s'.mStop = true ∧
      s.log.begun <+: s'.log.begun ∧
      (s'.log.begun : Multiset (Item S Job)) + ∑ w, (s'.worker w).ready =
        s.log.begun + ∑ w, (s.worker w).ready ∧
      ∀ c, (s'.client c).admitted = true → (s.client c).admitted = true)
      ⟨hstop, List.prefix_rfl, rfl, fun c hc => hc⟩ (fun m a m' hi hs => ?_) h
    obtain ⟨hm, hprefix, hready, hadmitted⟩ := hi
    exact ⟨mStop_step hm hs, hprefix.trans (step_begun hs), (step_ready hm hs).trans hready,
      fun c hc => hadmitted c (step_admitted hm hs hc)⟩
  obtain ⟨l, hl⟩ := hprefix
  refine ⟨hstop', ⟨l, hl.symm, ?_⟩, hadmitted⟩
  have hsum : (l : Multiset (Item S Job)) + ∑ w, (s'.worker w).ready = ∑ w, (s.worker w).ready := by
    rw [← hl, ← Multiset.coe_add, add_assoc] at hready
    exact add_left_cancel hready
  rw [← hsum]
  exact Multiset.le_add_right _ _

/-- Nothing is dropped before the pool is stopped, and one task by each worker after that. -/
def DropsFew (s : State n S Q) : Prop :=
  if s.mStop then s.log.dropped.length + ∑ w, (s.worker w).mayDrop ≤ n else s.log.dropped = []

theorem DropsFew.step (h : DropsFew s) (hs : step T s a = some s') : DropsFew s' := by
  unfold DropsFew at h ⊢
  cases hstop : s.mStop with
  | true =>
    rw [hstop] at h
    rw [mStop_step hstop hs]
    exact (step_mayDrop hstop hs).trans h
  | false =>
    rw [hstop] at h
    have hnil : s'.log.dropped = [] := by
      cases step_effect hs with
      | drop w item place stopped tasks log worker => rw [hstop] at stopped; cases stopped
      | stays tasks log hand current => rw [log]; exact h
      | push c plain score place item new result tasks log worker => rw [log]; exact h
      | take w item place top tasks log worker => rw [log]; exact h
      | start w item place tasks log worker => rw [log]; exact h
      | finish w item place tasks log worker => rw [log]; exact h
    have hcard : ∑ w, (s'.worker w).mayDrop ≤ n := by
      have hone : ∀ w ∈ Finset.univ, (s'.worker w).mayDrop ≤ 1 := fun w _ => by
        cases s'.worker w <;> simp [WorkerPc.mayDrop]
      simpa using Finset.sum_le_card_nsmul _ _ _ hone
    cases s'.mStop <;> simp [hnil, hcard]

/-- **Stopping is final**: what is begun after `m_stop` has been set had been let through before,
each worker drops one task at most, and no client is let through any more. -/
theorem stop_is_final (T : Tasks S Q) (new : Q) (as bs : List (Act n S))
    (h : run (step T) (init n new) as = some s) (hstop : s.mStop = true)
    (h' : run (step T) s bs = some s') : Final s s' ∧ s'.log.dropped.length ≤ n := by
  have hfinal := run_final hstop h'
  have hrun : run (step T) (init n new) (as ++ bs) = some s' := by
    rw [run_append, h]
    exact h'
  have hdrops : DropsFew s' :=
    run_invariant (by simp [DropsFew, init]) (fun _ _ _ hi hs => hi.step hs) hrun
  refine ⟨hfinal, ?_⟩
  rw [DropsFew, if_pos hfinal.stopped] at hdrops
  exact (Nat.le_add_right _ _).trans hdrops

/-- Two tasks are pushed; the pool is stopped when one worker has let its task through and the other
one has not. -/
def stopInTime : List (Act 2 Unit) :=
  let push : List (Act 2 Unit) := .insert 0 () :: List.replicate 5 (.client 0)
  push ++ push ++ List.replicate 7 (.worker first) ++ List.replicate 6 (.worker second) ++
    [.stop 0, .client 0, .client 0]

/-- The workers come to their end. -/
def wayOut : List (Act 2 Unit) :=
  [.worker first, .worker second, .worker second, .finish first .returns, .worker first]

theorem stop_is_final_inTime :
    ∃ s s' : State 2 Unit (List (Item Unit Job)), run (step fifo) (init 2 []) stopInTime = some s ∧
      s.mStop = true ∧ run (step fifo) s wayOut = some s' ∧ s'.log.begun.length = 1 ∧
      s'.log.dropped.length = 1 ∧ Final s s' ∧ s'.log.dropped.length ≤ 2 :=
  ⟨_, _, rfl, rfl, rfl, rfl, rfl,
    stop_is_final fifo [] stopInTime wayOut rfl rfl rfl⟩

/-! ## The way out -/

/-- How many steps of its own a worker is away from leaving a stopped pool, if it does not go back
into a wait. -/
def WorkerPc.rank : WorkerPc S → ℕ
  | .left => 0
  | .testStop => 1
  | .unlock none | .testStopAgain _ | .running _ => 2
  | .unlock (some _) | .begin _ => 3
  | .front => 4
  | .testEmpty => 5
  | .predicate true => 6
  | .waiting | .woken => 7
  | .predicate false => 8
  | .lock => 9

def State.rank (s : State n S Q) (w : Fin n) : ℕ :=
  match s.halted with
  | none => (s.worker w).rank
  | some _ => 0

omit [LinearOrder S] in
theorem Moves.rank {p q : WorkerPc S} (h : Moves true p q) (hwaiting : p ≠ .waiting) :
    q.rank < p.rank ∨ p = .woken ∧ q = .predicate false := by
  cases h with
  | wake => exact absurd rfl hwaiting
  | loop running => cases running
  | go item running => cases running
  | relock timedOut => cases timedOut <;> simp [WorkerPc.rank]
  | test timedOut => cases timedOut <;> simp [WorkerPc.rank]
  | _ => simp [WorkerPc.rank]

/-- Each step of a worker brings it nearer to its end, but for a wait that ends early. -/
theorem step_rank (hstop : s.mStop = true) (hs : step T s a = some s') (w : Fin n) :
    (if a.own w then 1 else 0) + s'.rank w ≤ s.rank w + 2 * if a.early w then 1 else 0 := by
  have hhalted : s.halted = none := by
    unfold step at hs
    split at hs
    · cases hs
    all_goals assumption
  have hrank : s.rank w = (s.worker w).rank := by rw [State.rank, hhalted]
  have hrank' : s'.rank w ≤ (s'.worker w).rank := by
    unfold State.rank
    split
    · exact le_rfl
    · exact Nat.zero_le _
  cases hown : a.own w with
  | true =>
    rcases step_own hs hown with ⟨hend, -, hleft⟩ | ⟨hmoves, hwaiting, hearly⟩
    · obtain ⟨e, he⟩ := Option.ne_none_iff_exists'.mp hend
      have hone : 1 ≤ (s.worker w).rank := by
        cases hw : s.worker w
        case left => exact absurd hw hleft
        case predicate timedOut => cases timedOut <;> simp [WorkerPc.rank]
        case unlock task => cases task <;> simp [WorkerPc.rank]
        all_goals simp [WorkerPc.rank]
      have hzero : s'.rank w = 0 := by rw [State.rank, he]
      rw [if_pos rfl]
      omega
    · rw [hstop] at hmoves
      rcases hmoves.rank hwaiting with hlt | ⟨hp, hq⟩
      · rw [if_pos rfl]
        omega
      · obtain ⟨timedOut, rfl, hq'⟩ := hearly hp
        obtain rfl : timedOut = false := WorkerPc.predicate.inj (hq'.symm.trans hq)
        have hearly : (Act.relock w false : Act n S).early w = true := by simp [Act.early]
        rw [hp] at hrank
        rw [hq] at hrank'
        rw [if_pos rfl, if_pos hearly]
        simp only [WorkerPc.rank] at hrank hrank'
        omega
  | false =>
    rw [if_neg Bool.false_ne_true]
    rcases step_other hs hown with hsame | ⟨hp, hq⟩
    · rw [hsame] at hrank'
      omega
    · rw [hp] at hrank
      rw [hq] at hrank'
      simp only [WorkerPc.rank] at hrank hrank'
      omega

theorem run_rank (hstop : s.mStop = true) {as : List (Act n S)}
    (h : run (step T) s as = some s') (w : Fin n) :
    as.countP (Act.own w) + s'.rank w ≤ s.rank w + 2 * as.countP (Act.early w) := by
  induction as generalizing s with
  | nil =>
    cases h
    simp
  | cons a as ih =>
    obtain ⟨m, hm, h⟩ := Option.bind_eq_some_iff.mp h
    have hstep := step_rank hstop hm w
    have hrest := ih (mStop_step hstop hm) h
    rw [List.countP_cons, List.countP_cons]
    omega

omit [LinearOrder S] in
theorem Act.entry_of_prompt (ha : a.prompt = true) : a.entry = none := by
  cases a <;> first | rfl | cases ha

/-- The thread that holds the mutex can go on. -/
theorem holder_enabled (hhalt : s.halted = none) {o : Owner n} (ho : s.holding o = true) :
    ∃ a : Act n S, a.prompt = true ∧ (step T s a).isSome = true := by
  cases o with
  | client c =>
    cases hc : s.client c
    case emplace plain score =>
      refine ⟨.client c, rfl, ?_⟩
      simp only [step, hhalt, clientStep, hc]
      split <;> rfl
    case notify =>
      by_cases hw : ∃ w, (s.worker w).isWaiting = true
      · obtain ⟨w, hw⟩ := hw
        have hwaiting : s.worker w = .waiting := by
          cases h : s.worker w <;> simp [h, WorkerPc.isWaiting] at hw
          rfl
        exact ⟨.notifyOne c w, rfl, by simp [step, hhalt, hc, hwaiting]⟩
      · exact ⟨.client c, rfl, by simp only [step, hhalt, clientStep, hc, if_neg hw]; rfl⟩
    case unlock => exact ⟨.client c, rfl, by simp [step, hhalt, clientStep, hc]⟩
    case exitNotify => exact ⟨.client c, rfl, by simp [step, hhalt, clientStep, hc]⟩
    case exitUnlock => exact ⟨.client c, rfl, by simp [step, hhalt, clientStep, hc]⟩
    all_goals simp [State.holding, hc, ClientPc.holds] at ho
  | worker w =>
    refine ⟨.worker w, rfl, ?_⟩
    cases hw : s.worker w
    case predicate =>
      simp only [step, hhalt, workerStep, hw]
      split <;> rfl
    case testEmpty => simp [step, hhalt, workerStep, hw]
    case front =>
      simp only [step, hhalt, workerStep, hw]
      split <;> rfl
    case unlock task => cases task <;> simp [step, hhalt, workerStep, hw]
    all_goals simp [State.holding, hw, WorkerPc.holds] at ho

/-- A thread that has not come to its end can go on, or another one can. -/
theorem never_stuck (hl : Locked T s) (hhalt : s.halted = none) :
    ((∀ w, s.worker w = .left) ∧ ∀ c, s.client c = .idle) ∨
      ∃ a : Act n S, a.entry = none ∧ (step T s a).isSome = true := by
  cases hm : s.mQueueMtx with
  | some o =>
    obtain ⟨a, ha, hs⟩ := holder_enabled (T := T) hhalt ((hl.mutex o).mpr hm)
    exact Or.inr ⟨a, Act.entry_of_prompt ha, hs⟩
  | none =>
    have hfree : ∀ o, s.holding o = false := fun o => by
      have hhold : s.holding o = true ↔ s.mQueueMtx = some o := hl.mutex o
      simpa [hm] using hhold
    by_cases hall : ∀ w, s.worker w = .left
    · by_cases hidle : ∀ c, s.client c = .idle
      · exact Or.inl ⟨hall, hidle⟩
      · obtain ⟨c, hc⟩ := not_forall.mp hidle
        refine Or.inr ⟨.client c, rfl, ?_⟩
        have hc' := hfree (.client c)
        cases hp : s.client c
        case idle => exact absurd hp hc
        case join dtor i =>
          simp only [step, hhalt, clientStep, hp, hall]
          split <;> (try split) <;> rfl
        all_goals simp [State.holding, hp, ClientPc.holds] at hc'
        all_goals simp [step, hhalt, clientStep, hp, hm]
    · obtain ⟨w, hw⟩ := not_forall.mp hall
      have hw' := hfree (.worker w)
      right
      cases hq : s.worker w
      case left => exact absurd hq hw
      case waiting => exact ⟨.wake w, rfl, by simp [step, hhalt, hq]⟩
      case woken => exact ⟨.relock w true, rfl, by simp [step, hhalt, hq, hm]⟩
      case running => exact ⟨.finish w .returns, rfl, by simp [step, hhalt, finishStep, hq]⟩
      case testStopAgain =>
        refine ⟨.worker w, rfl, ?_⟩
        simp only [step, hhalt, workerStep, hq]
        split <;> rfl
      case testStop => exact ⟨.worker w, rfl, by simp [step, hhalt, workerStep, hq]⟩
      case lock => exact ⟨.worker w, rfl, by simp [step, hhalt, workerStep, hq, hm]⟩
      case begin => exact ⟨.worker w, rfl, by simp [step, hhalt, workerStep, hq]⟩
      all_goals simp [State.holding, hq, WorkerPc.holds] at hw'

omit [LinearOrder S] in
theorem rank_le (s : State n S Q) (w : Fin n) : s.rank w ≤ 9 := by
  unfold State.rank
  split
  · cases s.worker w
    case predicate timedOut => cases timedOut <;> simp [WorkerPc.rank]
    case unlock task => cases task <;> simp [WorkerPc.rank]
    all_goals simp [WorkerPc.rank]
  · exact Nat.zero_le _

/-- **Workers leave a stopped pool**: each of them within nine steps of its own and two for each wait
that ends before its time is over, and until all threads have come to their end one can go on. -/
theorem workers_leave (T : Tasks S Q) (new : Q) (as bs : List (Act n S))
    (h : run (step T) (init n new) as = some s) (hstop : s.mStop = true)
    (h' : run (step T) s bs = some s') :
    (∀ w, bs.countP (Act.own w) ≤ 9 + 2 * bs.countP (Act.early w)) ∧
      (s'.halted = none → ((∀ w, s'.worker w = .left) ∧ ∀ c, s'.client c = .idle) ∨
        ∃ a : Act n S, a.entry = none ∧ (step T s' a).isSome = true) := by
  refine ⟨fun w => ?_, fun hhalt => ?_⟩
  · have hrank := run_rank hstop h' w
    have hle := rank_le s w
    omega
  · have hrun : run (step T) (init n new) (as ++ bs) = some s' := by
      rw [run_append, h]
      exact h'
    exact never_stuck (run_invariant (locked_init T new) (fun _ _ _ hi hs => hi.step hs) hrun) hhalt

theorem workers_leave_inTime :
    ∃ s s' : State 2 Unit (List (Item Unit Job)), run (step fifo) (init 2 []) stopInTime = some s ∧
      s.mStop = true ∧ run (step fifo) s wayOut = some s' ∧ (∀ w, s'.worker w = .left) ∧
      (∀ w, wayOut.countP (Act.own w) ≤ 9 + 2 * wayOut.countP (Act.early w)) ∧
      (s'.halted = none → ((∀ w, s'.worker w = .left) ∧ ∀ c, s'.client c = .idle) ∨
        ∃ a : Act 2 Unit, a.entry = none ∧ (step fifo s' a).isSome = true) := by
  refine ⟨_, _, rfl, rfl, rfl, Fin.forall_fin_two.mpr ⟨rfl, rfl⟩, ?_⟩
  exact workers_leave fifo [] stopInTime wayOut rfl rfl rfl

/-! ## What `exit_block` does not do -/

/-- The worker is in the wait of `block_pop_item`, or goes back to it if the queue is empty. -/
def WorkerPc.asleep : WorkerPc S → Bool
  | .waiting | .woken | .predicate false => true
  | _ => false

/-- The pool has been stopped, nothing is in the queue or on its way there, and `w` waits. -/
structure Idle (T : Tasks S Q) (w : Fin n) (s : State n S Q) : Prop where
  stopped : s.mStop = true
  empty : T.empty s.mTasks = true
  none : ∀ c, (s.client c).admitted = false
  asleep : (s.worker w).asleep = true

theorem Idle.step {w : Fin n} (h : Idle T w s) (hl : Locked T s) (ha : a ≠ .relock w true)
    (hs : step T s a = some s') : Idle T w s' where
  stopped := mStop_step h.stopped hs
  empty := by
    cases step_effect hs with
    | stays tasks log hand current => rw [tasks]; exact h.empty
    | start w item place tasks log worker => rw [tasks]; exact h.empty
    | finish w item place tasks log worker => rw [tasks]; exact h.empty
    | drop w item place stopped tasks log worker => rw [tasks]; exact h.empty
    | push c plain score place item new result tasks log worker =>
      have hnone := h.none c
      rw [place] at hnone
      cases hnone
    | take w item place top tasks log worker =>
      have hsome := hl.front w place
      rw [h.empty] at hsome
      cases hsome
  none c := by
    by_contra hc
    have hold := step_admitted h.stopped hs (Bool.not_eq_false _ ▸ hc)
    rw [h.none c] at hold
    cases hold
  asleep := by
    cases hown : a.own w with
    | false =>
      rcases step_other hs hown with hsame | ⟨-, hwoken⟩
      · rw [hsame]
        exact h.asleep
      · rw [hwoken]
        rfl
    | true =>
      rcases step_own hs hown with ⟨-, hsame, -⟩ | ⟨-, hwaiting, hrelock⟩
      · rw [hsame]
        exact h.asleep
      · have hasleep := h.asleep
        cases hw : s.worker w
        case waiting => exact absurd hw hwaiting
        case woken =>
          obtain ⟨timedOut, rfl, hnext⟩ := hrelock hw
          rw [hnext]
          cases timedOut
          · rfl
          · exact absurd rfl ha
        case predicate timedOut =>
          cases timedOut
          · rw [step_predicate hs hown hw h.empty]
            rfl
          · rw [hw] at hasleep
            cases hasleep
        all_goals
          rw [hw] at hasleep
          cases hasleep

/-- **`stop` does not end a wait**: the predicate of `wait_for` asks for a task and not for `m_stop`,
so a worker that waits at an empty queue stays in `block_pop_item` until its time is over. -/
theorem stop_waits_for_timeOut (T : Tasks S Q) (new : Q) (as bs : List (Act n S)) {w : Fin n}
    (h : run (step T) (init n new) as = some s) (hidle : Idle T w s)
    (h' : run (step T) s bs = some s') (hbs : ∀ a ∈ bs, a ≠ .relock w true) :
    (s'.worker w).asleep = true ∧ T.empty s'.mTasks = true := by
  have hl : Locked T s := run_invariant (locked_init T new) (fun _ _ _ hi hs => hi.step hs) h
  have hG : Guarded (step T) (fun _ a => a ≠ .relock w true) s bs s' :=
    guarded_of_mem (fun a ha _ => hbs a ha) h'
  have hidle' : Locked T s' ∧ Idle T w s' :=
    guarded_invariant (I := fun s => Locked T s ∧ Idle T w s) ⟨hl, hidle⟩
      (fun _ _ _ hi ha hs => ⟨hi.1.step hs, hi.2.step hi.1 ha hs⟩) hG
  exact ⟨hidle'.2.asleep, hidle'.2.empty⟩

end Stop

/-- A worker waits, and a client stops the pool. -/
def stopAsleep : List (Act 1 Unit) :=
  List.replicate 3 (.worker 0) ++ [.stop 0, .client 0, .client 0]

/-- The notification of `exit_block` sends the worker back into its wait. -/
def wakeInVain : List (Act 1 Unit) :=
  List.replicate 3 (.client 0) ++ [.relock 0 false, .worker 0]

theorem stop_waits_for_timeOut_asleep :
    ∃ s s' : State 1 Unit (List (Item Unit Job)), run (step fifo) (init 1 []) stopAsleep = some s ∧
      run (step fifo) s wakeInVain = some s' ∧ s'.client 0 = .idle ∧ s'.worker 0 = .waiting ∧
      (s'.worker 0).asleep = true ∧ fifo.empty s'.mTasks = true := by
  refine ⟨_, _, rfl, rfl, rfl, rfl,
    stop_waits_for_timeOut fifo [] stopAsleep wakeInVain rfl ?_ rfl ?_⟩
  · refine ⟨rfl, rfl, fun c => ?_, rfl⟩
    by_cases hc : c = 0
    · subst hc
      rfl
    · simp [State.setClient, State.setWorker, hc, init, ClientPc.admitted]
  · intro a ha
    simp only [wakeInVain, List.mem_append, List.mem_replicate, List.mem_cons, List.not_mem_nil,
      or_false] at ha
    rcases ha with ⟨-, rfl⟩ | rfl | rfl <;> simp

end Wish.ThreadPool
