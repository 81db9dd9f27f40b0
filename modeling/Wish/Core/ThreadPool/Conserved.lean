import Wish.Core.ThreadPool.Moves
import Mathlib.Algebra.Order.BigOperators.Group.Multiset
import Mathlib.Tactic.Abel

/-!
# What becomes of the tasks of a pool

`core/threadpool/thread_pool.h`. `step_effect` says what one step does to the queue and the log;
`Conserved` follows from it: every task pushed is in the queue, in the hand of one worker, dropped
by a worker that saw `m_stop`, or begun, and it is one of these only once. The queue is never asked
for the front it does not have, whatever the number of workers.

In `thread_pool` the tasks are also taken in the order in which they were pushed.
-/

namespace Wish.ThreadPool

open Machine StablePriorityQueue
open PriorityThreadPool (Job Tasks Score)

variable {n : ℕ} {S Q : Type*}

/-- The tasks popped and not begun. -/
def WorkerPc.hand : WorkerPc S → Multiset (Item S Job)
  | .unlock (some item) | .testStopAgain item | .begin item => {item}
  | _ => 0

/-- The tasks begun that have not ended. -/
def WorkerPc.current : WorkerPc S → Multiset (Item S Job)
  | .running item => {item}
  | _ => 0

/-- The score that a client is about to push. -/
def ClientPc.submitted : ClientPc S → Option S
  | .testStop _ score | .lock _ score | .emplace _ score => some score
  | _ => none

/-- What a step does to the queue and the items: nothing, or one of five things. -/
inductive Effect (T : Tasks S Q) [LinearOrder S] (s s' : State n S Q) : Prop where
  | stays (tasks : s'.mTasks = s.mTasks) (log : s'.log = s.log)
      (hand : ∀ w, (s'.worker w).hand = (s.worker w).hand)
      (current : ∀ w, (s'.worker w).current = (s.worker w).current)
  | push (c : Cid) (plain : Bool) (score : S) (place : s.client c = .emplace plain score)
      (item : Item S Job) (new : item = ⟨⟨s.log.pushed.length, plain⟩, score⟩)
      (result : (T.emplace s.mTasks item).2 = .ok ())
      (tasks : s'.mTasks = (T.emplace s.mTasks item).1) (log : s'.log = s.log.push item)
      (worker : s'.worker = s.worker)
  | take (w : Fin n) (item : Item S Job) (place : s.worker w = .front)
      (top : T.top s.mTasks = .ok item) (tasks : s'.mTasks = (T.pop s.mTasks).1)
      (log : s'.log = s.log.take item)
      (worker : s'.worker = Function.update s.worker w (.unlock (some item)))
  | start (w : Fin n) (item : Item S Job) (place : s.worker w = .begin item)
      (tasks : s'.mTasks = s.mTasks) (log : s'.log = s.log.start item)
      (worker : s'.worker = Function.update s.worker w (.running item))
  | finish (w : Fin n) (item : Item S Job) (place : s.worker w = .running item)
      (tasks : s'.mTasks = s.mTasks) (log : s'.log = s.log.finish item)
      (worker : s'.worker = Function.update s.worker w .testStop)
  | drop (w : Fin n) (item : Item S Job) (place : s.worker w = .testStopAgain item)
      (stopped : s.mStop = true) (tasks : s'.mTasks = s.mTasks) (log : s'.log = s.log.drop item)
      (worker : s'.worker = Function.update s.worker w .testStop)

section Effect

variable {T : Tasks S Q} [LinearOrder S] {s s' : State n S Q} {c : Cid} {w : Fin n}
  {p : ClientPc S} {q : WorkerPc S} {a : Act n S}

/-- A worker moves on with the same tasks. -/
theorem effect_worker (ht : s'.mTasks = s.mTasks) (hl : s'.log = s.log)
    (hw : s'.worker = Function.update s.worker w q) (hhand : q.hand = (s.worker w).hand)
    (hcur : q.current = (s.worker w).current) : Effect T s s' := by
  refine .stays ht hl (fun v => ?_) fun v => ?_
  all_goals
    rw [hw]
    by_cases hv : v = w
    · subst hv
      simp [hhand, hcur]
    · simp [hv]

/-- No worker moves. -/
theorem effect_still (ht : s'.mTasks = s.mTasks) (hl : s'.log = s.log)
    (hw : s'.worker = s.worker) : Effect T s s' :=
  .stays ht hl (fun v => by rw [hw]) fun v => by rw [hw]

theorem clientStep_effect (hs : clientStep T s c = some s') : Effect T s s' := by
  unfold clientStep at hs
  split at hs
  case h_4 plain score hc =>
    simp only at hs
    split at hs
    · rename_i q hemplace
      cases hs
      exact .push c plain score hc _ rfl (by rw [hemplace]) (by rw [hemplace]; rfl) rfl rfl
    · cases hs
      exact effect_still rfl rfl rfl
  case h_10 =>
    cases hs
    refine .stays rfl rfl (fun w => ?_) fun w => ?_
    all_goals
      simp only [State.setClient, State.notifyAll]
      cases s.worker w <;> rfl
  case h_1 => cases hs
  all_goals
    first | split at hs | skip
    all_goals first | split at hs | skip
    all_goals first | split at hs | skip
    all_goals cases hs
    all_goals exact effect_still rfl rfl rfl

theorem workerStep_effect (hs : workerStep T s w = some s') : Effect T s s' := by
  unfold workerStep at hs
  split at hs
  case h_1 hw =>
    cases hs
    exact effect_worker rfl rfl rfl (by split <;> rw [hw] <;> rfl) (by split <;> rw [hw] <;> rfl)
  case h_3 hw =>
    split at hs <;> cases hs
    all_goals exact effect_worker rfl rfl rfl (by rw [hw]; rfl) (by rw [hw]; rfl)
  case h_6 hw =>
    cases hs
    exact effect_worker rfl rfl rfl (by split <;> rw [hw] <;> rfl) (by split <;> rw [hw] <;> rfl)
  case h_7 hw =>
    split at hs
    · rename_i item q htop hpop
      cases hs
      exact .take w item hw htop (by rw [hpop]; rfl) rfl rfl
    all_goals
      cases hs
      exact effect_still rfl rfl rfl
  case h_10 item hw =>
    split at hs <;> cases hs
    · exact .drop w item hw ‹_› rfl rfl rfl
    · exact effect_worker rfl rfl rfl (by rw [hw]; rfl) (by rw [hw]; rfl)
  case h_11 item hw =>
    cases hs
    exact .start w item hw rfl rfl rfl
  case h_2 hw =>
    split at hs <;> cases hs
    exact effect_worker rfl rfl rfl (by rw [hw]; rfl) (by rw [hw]; rfl)
  case h_8 hw =>
    cases hs
    exact effect_worker rfl rfl rfl (by rw [hw]; rfl) (by rw [hw]; rfl)
  case h_9 item hw =>
    cases hs
    exact effect_worker rfl rfl rfl (by rw [hw]; rfl) (by rw [hw]; rfl)
  all_goals cases hs

theorem finishStep_effect {outcome : Outcome} (hs : finishStep s w outcome = some s') :
    Effect T s s' := by
  unfold finishStep at hs
  split at hs
  · split at hs <;> cases hs
    exact effect_still rfl rfl rfl
  all_goals
    split at hs
    · rename_i item hw
      cases hs
      exact .finish w item hw rfl rfl rfl
    · cases hs

theorem step_effect (hs : step T s a = some s') : Effect T s s' := by
  unfold step at hs
  split at hs
  · cases hs
  case h_7 => exact clientStep_effect hs
  case h_9 => exact workerStep_effect hs
  case h_12 => exact finishStep_effect hs
  case h_8 w _ =>
    split at hs
    · rename_i hw
      cases hs
      exact effect_worker rfl rfl rfl (by rw [hw]; rfl) (by rw [hw]; rfl)
    · cases hs
  case h_10 =>
    split at hs
    · rename_i hw
      cases hs
      exact effect_worker rfl rfl rfl (by rw [hw]; rfl) (by rw [hw]; rfl)
    · cases hs
  case h_11 =>
    split at hs
    · rename_i hw
      split at hs <;> cases hs
      exact effect_worker rfl rfl rfl (by rw [hw]; rfl) (by rw [hw]; rfl)
    · cases hs
  all_goals
    unfold State.enter at hs
    split at hs <;> cases hs
    exact effect_still rfl rfl rfl

end Effect


/-- The item that is taken is the one that leaves the list. -/
theorem erase_of_best [LinearOrder S] {l : List (Item S Job)} {item : Item S Job}
    (h : best l = some item) : item ∈ l ∧ l.erase item = removeBest l := by
  obtain ⟨hlead, u, v, hl, hu⟩ := List.find?_eq_some_iff_append.mp h
  have hitem : item ∉ u := fun hmem => by simpa [hlead] using hu item hmem
  refine ⟨by simp [hl], ?_⟩
  have hremove : removeBest l = u ++ v := by
    unfold removeBest
    conv_lhs => rw [hl]
    rw [List.eraseP_append_right _ fun i hi => by simpa [hl] using hu i hi,
      List.eraseP_cons_of_pos (by simpa [hl] using hlead)]
  rw [hremove, hl, List.erase_append_right _ hitem, List.erase_cons_head]

/-- No client is about to push an item that the queue has no place for. -/
def Scores (ok : S → Prop) (s : State n S Q) : Prop :=
  ∀ c score, (s.client c).submitted = some score → ok score

/-- Every item pushed is in the queue, in the hand of one worker, dropped, or begun, and every one
begun has ended or is run by one worker; the queue holds the items queued. -/
structure Conserved (R : Q → List (Item S Job) → Prop) (s : State n S Q) : Prop where
  holds : R s.mTasks s.log.queued
  sound : ∀ e, s.halted ≠ some (.queue e)
  numbered : s.log.pushed.map (fun i => i.mFunc.number) = List.range s.log.pushed.length
  pushed : (s.log.pushed : Multiset (Item S Job)) = s.log.popped + s.log.queued
  popped : (s.log.popped : Multiset (Item S Job)) =
    s.log.begun + s.log.dropped + ∑ w, (s.worker w).hand
  begun : (s.log.begun : Multiset (Item S Job)) = s.log.finished + ∑ w, (s.worker w).current

section Conserved

variable [LinearOrder S] {T : Tasks S Q} {new : Q} {ok : S → Prop}
  {R : Q → List (Item S Job) → Prop} {s s' : State n S Q} {a : Act n S}

theorem conserved_init (L : T.Lawful new ok R) : Conserved R (init n new : State n S Q) where
  holds := L.new
  sound e he := by cases he
  numbered := rfl
  pushed := rfl
  popped := by simp [init, WorkerPc.hand]
  begun := by simp [init, WorkerPc.current]

theorem Scores.step (h : Scores ok s) (ha : a.Sound ok) (hs : step T s a = some s') :
    Scores ok s' := by
  intro c score hc
  rcases step_client hs c with hsame | hmoves | hentry
  · exact h c score (hsame ▸ hc)
  · -- the score of a client that moves along is the one that it had
    refine h c score ?_
    generalize s.client c = p at hmoves
    generalize s'.client c = p' at hmoves hc
    cases hmoves
    case refuse => cases hc
    case push => cases hc
    case stopped => split at hc <;> cases hc
    case exitUnlock => split at hc <;> cases hc
    all_goals exact hc
  · generalize s'.client c = p at hentry hc
    cases a <;> cases hentry <;> cases hc <;> exact ha

/-- The queue answers as it should wherever the source asks it. -/
theorem Conserved.emplace_ok (L : T.Lawful new ok R) (h : Conserved R s) (hscores : Scores ok s)
    {c : Cid} {plain : Bool} {score : S} (hc : s.client c = .emplace plain score) (j : Job) :
    (T.emplace s.mTasks ⟨j, score⟩).2 = .ok () ∧
      R (T.emplace s.mTasks ⟨j, score⟩).1 (s.log.queued ++ [⟨j, score⟩]) :=
  L.emplace h.holds (hscores c score (by rw [hc]; rfl))

theorem Conserved.front_ok (L : T.Lawful new ok R) (h : Conserved R s) (hl : Locked T s)
    {w : Fin n} (hw : s.worker w = .front) : ∃ item, best s.log.queued = some item ∧
      T.top s.mTasks = .ok item ∧ (T.pop s.mTasks).2 = .ok () ∧
        R (T.pop s.mTasks).1 (removeBest s.log.queued) := by
  refine L.pop h.holds fun hnil => ?_
  have hempty := hl.front w hw
  rw [(L.empty h.holds).mpr hnil] at hempty
  cases hempty

/-- A step that ends the program through the queue asks it in vain. -/
theorem step_halted (hs : step T s a = some s') {e : Fault} (he : s'.halted = some (.queue e)) :
    (∃ c plain score, s.client c = .emplace plain score ∧
      (T.emplace s.mTasks ⟨⟨s.log.pushed.length, plain⟩, score⟩).2 = .error e) ∨
    ∃ w, s.worker w = .front ∧ (T.top s.mTasks = .error e ∨ (T.pop s.mTasks).2 = .error e) := by
  unfold step at hs
  split at hs
  case h_1 => cases hs
  case h_7 hnone =>
    unfold clientStep at hs
    split at hs
    case h_4 plain score hc =>
      simp only at hs
      split at hs <;> cases hs
      · rw [State.setClient, hnone] at he
        cases he
      · rename_i hemplace
        cases he
        exact Or.inl ⟨_, plain, score, hc, by rw [hemplace]⟩
    case h_1 => cases hs
    all_goals
      first | split at hs | skip
      all_goals first | split at hs | skip
      all_goals first | split at hs | skip
      all_goals cases hs
      all_goals simp [State.setClient, State.notifyAll, hnone] at he
  case h_9 w hnone =>
    unfold workerStep at hs
    split at hs
    case h_7 hw =>
      split at hs <;> cases hs
      · simp [State.setWorker, hnone] at he
      · rename_i htop
        cases he
        exact Or.inr ⟨w, hw, Or.inl htop⟩
      · rename_i hpop
        cases he
        exact Or.inr ⟨w, hw, Or.inr (by rw [hpop])⟩
    all_goals
      first | split at hs | skip
      all_goals cases hs
      all_goals simp [State.setWorker, hnone] at he
  case h_12 hnone =>
    unfold finishStep at hs
    split at hs <;> split at hs <;> cases hs <;> simp [State.setWorker, hnone] at he
  all_goals
    rename_i hnone
    first | (unfold State.enter at hs; split at hs) | skip
    all_goals first | split at hs | skip
    all_goals first | split at hs | skip
    all_goals cases hs
    all_goals simp [State.setWorker, State.setClient, hnone] at he

omit [LinearOrder S] in
theorem sum_worker {M : Type*} [AddCommMonoid M] (s : State n S Q) (w : Fin n) (q : WorkerPc S)
    (f : WorkerPc S → M) :
    ∑ v, f (Function.update s.worker w q v) + f (s.worker w) = ∑ v, f (s.worker v) + f q :=
  sum_update (Finset.mem_univ w) s.worker q f

theorem Conserved.step (L : T.Lawful new ok R) (h : Conserved R s) (hl : Locked T s)
    (hscores : Scores ok s) (hs : step T s a = some s') : Conserved R s' := by
  have hsound : ∀ e, s'.halted ≠ some (.queue e) := by
    intro e he
    rcases step_halted hs he with ⟨c, plain, score, hc, hbad⟩ | ⟨w, hw, hbad⟩
    · rw [(h.emplace_ok L hscores hc _).1] at hbad
      cases hbad
    · obtain ⟨item, -, htop, hpop, -⟩ := h.front_ok L hl hw
      rw [htop, hpop] at hbad
      rcases hbad with hbad | hbad <;> cases hbad
  cases step_effect hs with
  | stays tasks log hand current =>
    refine ⟨?_, hsound, ?_, ?_, ?_, ?_⟩
    · rw [tasks, log]
      exact h.holds
    · rw [log]
      exact h.numbered
    · rw [log]
      exact h.pushed
    · simp only [log, hand]
      exact h.popped
    · simp only [log, current]
      exact h.begun
  | push c plain score place item hitem result tasks log worker =>
    refine ⟨?_, hsound, ?_, ?_, ?_, ?_⟩
    · rw [tasks, log, hitem]
      exact (h.emplace_ok L hscores place _).2
    · simp [log, Log.push, h.numbered, hitem, List.range_succ]
    · simp [log, Log.push, ← Multiset.coe_add, h.pushed, add_assoc]
    · simp only [log, Log.push, worker]
      exact h.popped
    · simp only [log, Log.push, worker]
      exact h.begun
  | take w item place top tasks log worker =>
    obtain ⟨item', hbest, htop, -, hholds⟩ := h.front_ok L hl place
    obtain rfl : item = item' := Except.ok.inj (top.symm.trans htop)
    obtain ⟨hmem, herase⟩ := erase_of_best hbest
    refine ⟨?_, hsound, ?_, ?_, ?_, ?_⟩
    · rw [tasks, log, Log.take, herase]
      exact hholds
    · rw [log]
      exact h.numbered
    · have hqueued : (s.log.queued : Multiset (Item S Job)) =
          {item} + (s.log.queued.erase item : List _) := by
        rw [Multiset.singleton_add, ← Multiset.coe_erase,
          Multiset.cons_erase (Multiset.mem_coe.mpr hmem)]
      rw [log, Log.take, h.pushed, hqueued, ← Multiset.coe_add, Multiset.coe_singleton, add_assoc]
    · have hsum : ∑ v, (Function.update s.worker w (.unlock (some item)) v).hand =
          ∑ v, (s.worker v).hand + {item} := by
        simpa [place, WorkerPc.hand] using sum_worker s w (.unlock (some item)) WorkerPc.hand
      rw [log, Log.take, worker, hsum, ← Multiset.coe_add, Multiset.coe_singleton, h.popped,
        add_assoc]
    · have hsum : ∑ v, (Function.update s.worker w (.unlock (some item)) v).current =
          ∑ v, (s.worker v).current := by
        simpa [place, WorkerPc.current] using sum_worker s w (.unlock (some item)) WorkerPc.current
      rw [log, Log.take, worker, hsum]
      exact h.begun
  | start w item place tasks log worker =>
    have hhand : ∑ v, (Function.update s.worker w (.running item) v).hand + {item} =
        ∑ v, (s.worker v).hand := by
      simpa [place, WorkerPc.hand] using sum_worker s w (.running item) WorkerPc.hand
    have hcur : ∑ v, (Function.update s.worker w (.running item) v).current =
        ∑ v, (s.worker v).current + {item} := by
      simpa [place, WorkerPc.current] using sum_worker s w (.running item) WorkerPc.current
    refine ⟨tasks ▸ log ▸ h.holds, hsound, log ▸ h.numbered, log ▸ h.pushed, ?_, ?_⟩
    · rw [log, Log.start, worker, h.popped, ← hhand, ← Multiset.coe_add, Multiset.coe_singleton]
      abel
    · rw [log, Log.start, worker, hcur, ← Multiset.coe_add, Multiset.coe_singleton, h.begun,
        add_assoc]
  | finish w item place tasks log worker =>
    have hhand : ∑ v, (Function.update s.worker w .testStop v).hand = ∑ v, (s.worker v).hand := by
      simpa [place, WorkerPc.hand] using sum_worker s w .testStop WorkerPc.hand
    have hcur : ∑ v, (Function.update s.worker w .testStop v).current + {item} =
        ∑ v, (s.worker v).current := by
      simpa [place, WorkerPc.current] using sum_worker s w .testStop WorkerPc.current
    refine ⟨tasks ▸ log ▸ h.holds, hsound, log ▸ h.numbered, log ▸ h.pushed, ?_, ?_⟩
    · rw [log, Log.finish, worker, hhand]
      exact h.popped
    · rw [log, Log.finish, worker, h.begun, ← hcur, ← Multiset.coe_add, Multiset.coe_singleton]
      abel
  | drop w item place stopped tasks log worker =>
    have hhand : ∑ v, (Function.update s.worker w .testStop v).hand + {item} =
        ∑ v, (s.worker v).hand := by
      simpa [place, WorkerPc.hand] using sum_worker s w .testStop WorkerPc.hand
    have hcur : ∑ v, (Function.update s.worker w .testStop v).current =
        ∑ v, (s.worker v).current := by
      simpa [place, WorkerPc.current] using sum_worker s w .testStop WorkerPc.current
    refine ⟨tasks ▸ log ▸ h.holds, hsound, log ▸ h.numbered, log ▸ h.pushed, ?_, ?_⟩
    · rw [log, Log.drop, worker, h.popped, ← hhand, ← Multiset.coe_add, Multiset.coe_singleton]
      abel
    · rw [log, Log.drop, worker, hcur]
      exact h.begun

/-- The run lemma, for any of the queues. -/
theorem conserved_of_lawful (L : T.Lawful new ok R) {as : List (Act n S)}
    (h : Guarded (ThreadPool.step T) (fun _ a => a.Sound ok) (init n new) as s) :
    Locked T s ∧ Scores ok s ∧ Conserved R s := by
  have h0 : Scores ok (init n new : State n S Q) := fun c score hc => by cases hc
  refine guarded_invariant (I := fun s => Locked T s ∧ Scores ok s ∧ Conserved R s)
    ⟨locked_init T new, h0, conserved_init L⟩ (fun s a s' hi ha hs => ?_) h
  obtain ⟨hl, hscores, hc⟩ := hi
  exact ⟨hl.step hs, hscores.step ha hs, hc.step L hl hscores hs⟩

/-- What a pool guarantees of the tasks of its clients. -/
structure Kept (s : State n S Q) : Prop where
  sound : ∀ e, s.halted ≠ some (.queue e)
  /-- one thread at a time is in the part that the mutex guards -/
  exclusive : ∀ o o', s.holding o = true → s.holding o' = true → o = o'
  distinct : (s.log.pushed.map fun i => i.mFunc.number).Nodup
  kept : (s.log.pushed : Multiset (Item S Job)) = s.log.finished + ∑ w, (s.worker w).current +
    s.log.dropped + ∑ w, (s.worker w).hand + s.log.queued
  once : s.log.begun.Nodup ∧
    (s.log.begun : Multiset (Item S Job)) = s.log.finished + ∑ w, (s.worker w).current

theorem kept_of_lawful (L : T.Lawful new ok R) {as : List (Act n S)}
    (h : Guarded (ThreadPool.step T) (fun _ a => a.Sound ok) (init n new) as s) : Kept s := by
  obtain ⟨hl, -, hc⟩ := conserved_of_lawful L h
  have hdistinct : (s.log.pushed.map fun i => i.mFunc.number).Nodup := by
    rw [hc.numbered]
    exact List.nodup_range
  have hbegun : (s.log.begun : Multiset (Item S Job)) ≤ s.log.pushed := by
    rw [hc.pushed, hc.popped, add_assoc, add_assoc]
    exact Multiset.le_add_right _ _
  refine ⟨hc.sound, fun o o' => hl.mutex.exclusive, hdistinct, ?_, ?_, hc.begun⟩
  · rw [hc.pushed, hc.popped, hc.begun]
  · exact Multiset.coe_nodup.mp (Multiset.nodup_of_le hbegun (List.Nodup.of_map _ hdistinct))

end Conserved

theorem Act.sound_any (a : Act n S) : a.Sound fun _ => True := by cases a <;> trivial

/-- **No pool loses a task or begins one twice**, with any number of workers and clients, whether it
is stopped or not; the static one as long as the scores it is given are below its size. -/
theorem pools_keep_tasks (n : ℕ) :
    (∀ (as : List (Act n Unit)) s, run (step fifo) (init n []) as = some s → Kept s) ∧
    (∀ (as : List (Act n Score)) s, run (step .stable) (init n Queue.new) as = some s → Kept s) ∧
    ∀ m (as : List (Act n ℕ)) s, Guarded (step (.static m)) (fun _ a => a.Sound (· < m))
      (init n StaticQueue.new) as s → Kept s := by
  refine ⟨fun as s h => kept_of_lawful lawful_fifo (guarded_of_run (fun _ a => a.sound_any) h),
    fun as s h => kept_of_lawful Tasks.lawful_stable (guarded_of_run (fun _ a => a.sound_any) h),
    fun m as s h => kept_of_lawful (Tasks.lawful_static m) h⟩

/-- The workers of a pool of two. -/
def first : Fin 2 := 0

def second : Fin 2 := 1

/-- Two tasks on two workers: the second one throws while the first one runs, and the pool is
stopped. -/
def twoTasks {S : Type*} (score : S) : List (Act 2 S) :=
  let push : List (Act 2 S) := .insert 0 score :: List.replicate 5 (.client 0)
  push ++ push ++ List.replicate 8 (.worker first) ++ List.replicate 8 (.worker second) ++
    [.finish second .throws, .stop 0, .client 0, .client 0]

theorem sound_twoTasks {ok : S → Prop} {score : S} (hok : ok score) :
    ∀ a ∈ twoTasks score, a.Sound ok := by
  intro a ha
  simp only [twoTasks, List.mem_append, List.mem_cons, List.mem_replicate, List.not_mem_nil,
    or_false] at ha
  rcases ha with (((((rfl | ⟨-, rfl⟩) | (rfl | ⟨-, rfl⟩)) | ⟨-, rfl⟩) | ⟨-, rfl⟩) |
    (rfl | rfl | rfl | rfl))
  all_goals first | exact hok | trivial

theorem pools_keep_tasks_twoTasks :
    ∃ (s : State 2 Unit (List (Item Unit Job))) (s' : State 2 Score (Queue Score Job))
      (s'' : State 2 ℕ (StaticQueue 1 Job)),
      run (step fifo) (init 2 []) (twoTasks ()) = some s ∧
      run (step .stable) (init 2 Queue.new) (twoTasks PriorityThreadPool.Pool.zero) = some s' ∧
      run (step (.static 1)) (init 2 StaticQueue.new) (twoTasks 0) = some s'' ∧
      s.log.begun.length = 2 ∧ s.log.finished.length = 1 ∧ Kept s ∧ Kept s' ∧ Kept s'' := by
  refine ⟨_, _, _, rfl, rfl, rfl, rfl, rfl, (pools_keep_tasks 2).1 (twoTasks ()) _ rfl,
    (pools_keep_tasks 2).2.1 (twoTasks PriorityThreadPool.Pool.zero) _ rfl,
    (pools_keep_tasks 2).2.2 1 (twoTasks 0) _
      (guarded_of_mem (fun a ha _ => sound_twoTasks (by exact Nat.one_pos) a ha) rfl)⟩

/-! ## In turn -/

section Turn

variable [LinearOrder S] {T : Tasks S Q} {new : Q} {ok : S → Prop}
  {R : Q → List (Item S Job) → Prop} {s s' : State n S Q} {a : Act n S}

/-- The step takes no item, or the earliest of the highest score that is queued. -/
def TakesBest (s s' : State n S Q) : Prop :=
  s'.log.popped = s.log.popped ∨
    ∃ item, best s.log.queued = some item ∧ s'.log.popped = s.log.popped ++ [item]

theorem take_best (L : T.Lawful new ok R) (h : Conserved R s) (hl : Locked T s)
    (hs : step T s a = some s') : TakesBest s s' := by
  cases step_effect hs with
  | take w item place top tasks log worker =>
    obtain ⟨item', hbest, htop, -, -⟩ := h.front_ok L hl place
    obtain rfl : item = item' := Except.ok.inj (top.symm.trans htop)
    exact Or.inr ⟨item, hbest, by rw [log]; rfl⟩
  | stays tasks log hand current => exact Or.inl (by rw [log])
  | push c plain score place item new result tasks log worker => exact Or.inl (by rw [log]; rfl)
  | start w item place tasks log worker => exact Or.inl (by rw [log]; rfl)
  | finish w item place tasks log worker => exact Or.inl (by rw [log]; rfl)
  | drop w item place stopped tasks log worker => exact Or.inl (by rw [log]; rfl)

/-- With one score for all items the earliest one is taken. -/
theorem popped_queued {s s' : State n Unit Q} {T : Tasks Unit Q} {new : Q} {ok : Unit → Prop}
    {R : Q → List (Item Unit Job) → Prop} {a : Act n Unit} (L : T.Lawful new ok R)
    (h : Conserved R s) (hl : Locked T s) (hturn : s.log.pushed = s.log.popped ++ s.log.queued)
    (hs : step T s a = some s') : s'.log.pushed = s'.log.popped ++ s'.log.queued := by
  cases step_effect hs with
  | take w item place top tasks log worker =>
    obtain ⟨item', hbest, htop, -, -⟩ := h.front_ok L hl place
    obtain rfl : item = item' := Except.ok.inj (top.symm.trans htop)
    obtain ⟨first, rest, hqueued⟩ : ∃ first rest, s.log.queued = first :: rest :=
      List.exists_cons_of_ne_nil (List.ne_nil_of_mem (erase_of_best hbest).1)
    have hlead : Leads s.log.queued first := fun _ _ => le_rfl
    have hfirst : best s.log.queued = some first := by
      unfold best
      rw [hqueued] at hlead ⊢
      exact List.find?_cons_of_pos (by simpa using hlead)
    obtain rfl : item = first := Option.some.inj (hbest.symm.trans hfirst)
    simp [log, Log.take, hturn, hqueued]
  | push c plain score place item new result tasks log worker => simp [log, Log.push, hturn]
  | stays tasks log hand current => rw [log, hturn]
  | start w item place tasks log worker => rw [log, Log.start, hturn]
  | finish w item place tasks log worker => rw [log, Log.finish, hturn]
  | drop w item place stopped tasks log worker => rw [log, Log.drop, hturn]

end Turn

/-- **Tasks are taken in turn** by any number of workers: in `thread_pool` as they were pushed, in
the other two pools the earliest of the highest score; in the static one as long as the scores it is
given are below its size. -/
theorem pools_take_in_turn (n : ℕ) :
    (∀ (as : List (Act n Unit)) s, run (step fifo) (init n []) as = some s →
      s.log.pushed = s.log.popped ++ s.log.queued) ∧
    (∀ (as : List (Act n Score)) s a s', run (step .stable) (init n Queue.new) as = some s →
      step .stable s a = some s' → TakesBest s s') ∧
    ∀ m (as : List (Act n ℕ)) s a s', Guarded (step (.static m)) (fun _ a => a.Sound (· < m))
      (init n StaticQueue.new) as s → step (.static m) s a = some s' → TakesBest s s' := by
  refine ⟨fun as s h => ?_, fun as s a s' h hs => ?_, fun m as s a s' h hs => ?_⟩
  · have hG := guarded_of_run (fun _ a => Act.sound_any a) h
    clear h
    induction hG with
    | nil => rfl
    | snoc hrun _ next ih =>
      obtain ⟨hl, -, hc⟩ := conserved_of_lawful lawful_fifo hrun
      exact popped_queued lawful_fifo hc hl ih next
  · obtain ⟨hl, -, hc⟩ :=
      conserved_of_lawful Tasks.lawful_stable (guarded_of_run (fun _ a => a.sound_any) h)
    exact take_best Tasks.lawful_stable hc hl hs
  · obtain ⟨hl, -, hc⟩ := conserved_of_lawful (Tasks.lawful_static m) h
    exact take_best (Tasks.lawful_static m) hc hl hs

/-- The run of `twoTasks` up to where the first worker reads the front. -/
theorem pools_take_in_turn_twoTasks :
    (∃ s : State 2 Unit (List (Item Unit Job)), run (step fifo) (init 2 []) (twoTasks ()) = some s ∧
      s.log.pushed.length = 2 ∧ s.log.pushed = s.log.popped ++ s.log.queued) ∧
    (∃ s s' : State 2 Score (Queue Score Job),
      run (step .stable) (init 2 Queue.new) ((twoTasks PriorityThreadPool.Pool.zero).take 16) =
        some s ∧ step .stable s (.worker first) = some s' ∧ s'.log.popped.length = 1 ∧
      TakesBest s s') ∧
    ∃ s s' : State 2 ℕ (StaticQueue 1 Job),
      run (step (.static 1)) (init 2 StaticQueue.new) ((twoTasks 0).take 16) = some s ∧
      step (.static 1) s (.worker first) = some s' ∧ s'.log.popped.length = 1 ∧ TakesBest s s' := by
  refine ⟨⟨_, rfl, rfl, (pools_take_in_turn 2).1 (twoTasks ()) _ rfl⟩,
    ⟨_, _, rfl, rfl, rfl,
      (pools_take_in_turn 2).2.1 ((twoTasks PriorityThreadPool.Pool.zero).take 16) _ (.worker first) _
        rfl rfl⟩,
    ⟨_, _, rfl, rfl, rfl,
      (pools_take_in_turn 2).2.2 1 ((twoTasks 0).take 16) _ (.worker first) _
        (guarded_of_mem (fun a ha _ => ?_) rfl) rfl⟩⟩
  exact sound_twoTasks (by exact Nat.one_pos) a (List.mem_of_mem_take ha)

end Wish.ThreadPool
