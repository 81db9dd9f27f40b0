import Wish.Core.ThreadPool.Stop

/-!
# No wake-up of a worker is lost

`core/threadpool/thread_pool.h`: `push_item` notifies one worker for each task, and only a worker
that is in its wait. Tasks may be taken by workers that have not been notified, and a notified
worker may find the queue empty. `Attended` is the invariant that makes up for it: as long as a
worker is in its wait, there are at least as many workers about to look at the queue as there are
tasks in it, up to the one notification that a client is about to send.

So a pool that has not been stopped never waits for a time-out with a task in its queue
(`pools_lose_no_wakeup`).
-/

namespace Wish.ThreadPool

open Machine StablePriorityQueue
open PriorityThreadPool (Job Tasks Score)

variable {n : ℕ} {S Q : Type*}

/-- The worker looks at the queue before it waits again. -/
def WorkerPc.awake : WorkerPc S → ℕ
  | .woken | .predicate _ | .testEmpty | .front => 1
  | _ => 0

/-- The tasks queued have a worker each that looks at the queue, or there is no worker that waits. -/
def Attended (s : State n S Q) : Prop :=
  (∃ w, s.worker w = .waiting) → s.log.queued.length ≤ ∑ w, (s.worker w).awake ∨
    (∃ c, s.client c = .notify) ∧ s.log.queued.length ≤ ∑ w, (s.worker w).awake + 1

section Attended

variable [LinearOrder S] {T : Tasks S Q} {new : Q} {ok : S → Prop}
  {R : Q → List (Item S Job) → Prop} {s s' : State n S Q} {a : Act n S}

omit [LinearOrder S] in
theorem attended_nil (hnil : s.log.queued = []) : Attended s := by
  intro _
  rw [hnil]
  exact Or.inl (Nat.zero_le _)

omit [LinearOrder S] in
/-- Only clients move, and none sends its notification. -/
theorem Attended.client (h : Attended s) (hw : s'.worker = s.worker)
    (hl : s'.log.queued = s.log.queued)
    (hc : ∀ c, s.client c = .notify → s'.client c = .notify) : Attended s' := by
  unfold Attended at h ⊢
  rw [hw, hl]
  intro hwait
  rcases h hwait with hle | ⟨⟨c, hnotify⟩, hle⟩
  · exact Or.inl hle
  · exact Or.inr ⟨⟨c, hc c hnotify⟩, hle⟩

omit [LinearOrder S] in
/-- A worker moves, not into its wait, and looks at the queue if it did before. -/
theorem Attended.worker (h : Attended s) {w : Fin n} {q : WorkerPc S}
    (hw : s'.worker = Function.update s.worker w q) (hl : s'.log.queued = s.log.queued)
    (hc : s'.client = s.client) (hq : q ≠ .waiting) (hawake : (s.worker w).awake ≤ q.awake) :
    Attended s' := by
  unfold Attended at h ⊢
  rw [hw, hl, hc]
  rintro ⟨v, hv⟩
  have hvw : v ≠ w := fun hvw => hq (by rw [← hv, hvw, Function.update_self])
  rw [Function.update_of_ne hvw] at hv
  have hsum : ∑ v, (Function.update s.worker w q v).awake + (s.worker w).awake =
      ∑ v, (s.worker v).awake + q.awake := sum_worker s w q WorkerPc.awake
  rcases h ⟨v, hv⟩ with hle | ⟨hnotify, hle⟩
  · exact Or.inl (by omega)
  · exact Or.inr ⟨hnotify, by omega⟩

/-- A worker takes an item. -/
theorem Attended.take (h : Attended s) {w : Fin n} {item : Item S Job} (hp : s.worker w = .front)
    (hmem : item ∈ s.log.queued) (hl : s'.log = s.log.take item)
    (hw : s'.worker = Function.update s.worker w (.unlock (some item)))
    (hc : s'.client = s.client) : Attended s' := by
  unfold Attended at h ⊢
  rw [hw, hl, hc, Log.take]
  rintro ⟨v, hv⟩
  have hvw : v ≠ w := by
    rintro rfl
    rw [Function.update_self] at hv
    cases hv
  rw [Function.update_of_ne hvw] at hv
  have hsum : ∑ v, (Function.update s.worker w (.unlock (some item)) v).awake + 1 =
      ∑ v, (s.worker v).awake := by
    simpa [hp, WorkerPc.awake] using sum_worker s w (.unlock (some item)) WorkerPc.awake
  have hlength : (s.log.queued.erase item).length + 1 = s.log.queued.length := by
    rw [List.length_erase_of_mem hmem]
    exact Nat.sub_add_cancel (List.length_pos_of_mem hmem)
  dsimp only
  rcases h ⟨v, hv⟩ with hle | ⟨hnotify, hle⟩
  · exact Or.inl (by omega)
  · exact Or.inr ⟨hnotify, by omega⟩

theorem Attended.workerStep (L : T.Lawful new ok R) (hc : Conserved R s) (hl : Locked T s)
    (h : Attended s) {w : Fin n} (hs : workerStep T s w = some s') : Attended s' := by
  unfold ThreadPool.workerStep at hs
  split at hs
  case h_1 hw =>
    cases hs
    exact h.worker rfl rfl rfl (by split <;> simp) (by rw [hw]; exact Nat.zero_le _)
  case h_2 hw =>
    split at hs <;> cases hs
    exact h.worker rfl rfl rfl (by simp) (by rw [hw]; exact Nat.zero_le _)
  case h_3 hw =>
    split at hs <;> cases hs
    · rename_i hempty
      exact attended_nil ((L.empty hc.holds).mp (Bool.and_eq_true_iff.mp hempty).1)
    · exact h.worker rfl rfl rfl (by simp) (by rw [hw]; exact le_rfl)
  case h_6 hw =>
    cases hs
    cases hempty : T.empty s.mTasks
    · exact h.worker rfl rfl rfl (by simp) (by rw [hw]; exact le_rfl)
    · exact attended_nil ((L.empty hc.holds).mp hempty)
  case h_7 hw =>
    obtain ⟨item, hbest, htop, hpop, -⟩ := hc.front_ok L hl hw
    split at hs
    · rename_i item' q htop' hpop'
      obtain rfl : item' = item := Except.ok.inj (htop'.symm.trans htop)
      cases hs
      exact h.take hw (erase_of_best hbest).1 rfl rfl rfl
    · rename_i e hbad
      rw [htop] at hbad
      cases hbad
    · rename_i hbad
      rw [hbad] at hpop
      cases hpop
  case h_8 hw =>
    cases hs
    exact h.worker rfl rfl rfl (by simp) (by rw [hw]; exact Nat.zero_le _)
  case h_9 hw =>
    cases hs
    exact h.worker rfl rfl rfl (by simp) (by rw [hw]; exact Nat.zero_le _)
  case h_10 hw =>
    split at hs <;> cases hs
    all_goals exact h.worker rfl rfl rfl (by simp) (by rw [hw]; exact Nat.zero_le _)
  case h_11 hw =>
    cases hs
    exact h.worker rfl rfl rfl (by simp) (by rw [hw]; exact Nat.zero_le _)
  all_goals cases hs

omit [LinearOrder S] in
/-- The client that pushes an item is the one that sends a notification for it. -/
theorem Attended.push (hl : Locked T s) (h : Attended s) {c : Cid}
    (hc : (s.client c).holds = true) (hne : s.client c ≠ .notify)
    (hlength : s'.log.queued.length = s.log.queued.length + 1) (hw : s'.worker = s.worker)
    (hnotify : s'.client c = .notify) : Attended s' := by
  unfold Attended at h ⊢
  rw [hw, hlength]
  intro hwait
  rcases h hwait with hle | ⟨⟨d, hd⟩, -⟩
  · exact Or.inr ⟨⟨c, hnotify⟩, by omega⟩
  · have hdc : Owner.client d = Owner.client (n := n) c :=
      hl.mutex.exclusive (by simp [State.holding, hd, ClientPc.holds]) hc
    cases hdc
    exact absurd hd hne

omit [LinearOrder S] in
/-- A client goes from where it has no notification to send. -/
theorem Attended.setClient (h : Attended s) {c : Cid} (hne : s.client c ≠ .notify)
    (p : ClientPc S) (hw : s'.worker = s.worker) (hl : s'.log = s.log)
    (hc : s'.client = s.client) : Attended (s'.setClient c p) := by
  refine h.client hw (by rw [State.setClient, hl]) fun d hd => ?_
  have hdc : d ≠ c := fun hdc => hne (hdc ▸ hd)
  simp [State.setClient, hc, hdc, hd]

omit [LinearOrder S] in
theorem Attended.enter (h : Attended s) {c : Cid} {p : ClientPc S}
    (hs : s.enter c p = some s') : Attended s' := by
  unfold State.enter at hs
  split at hs <;> cases hs
  rename_i hc
  exact h.setClient (by simp [hc]) p rfl rfl rfl

omit [LinearOrder S] in
theorem Attended.clientStep (hl : Locked T s) (h : Attended s) {c : Cid}
    (hs : clientStep T s c = some s') : Attended s' := by
  unfold ThreadPool.clientStep at hs
  split at hs
  case h_1 => cases hs
  case h_2 hc =>
    cases hs
    exact h.setClient (by simp [hc]) _ rfl rfl rfl
  case h_4 hc =>
    simp only at hs
    split at hs <;> cases hs
    · refine h.push hl (c := c) (by rw [hc]; rfl) (by simp [hc]) ?_ rfl ?_
      · simp [State.setClient, Log.push]
      · simp [State.setClient]
    · exact h
  case h_5 =>
    split at hs <;> cases hs
    rename_i hnone
    rintro ⟨w, hw⟩
    have hw : s.worker w = .waiting := hw
    exact absurd ⟨w, by simp [hw, WorkerPc.isWaiting]⟩ hnone
  case h_10 =>
    cases hs
    rintro ⟨w, hw⟩
    simp only [State.setClient, State.notifyAll] at hw
    split at hw
    · cases hw
    · exact absurd hw ‹_›
  case h_12 hc =>
    split at hs
    · split at hs
      · split at hs <;> cases hs
        exact h.setClient (by simp [hc]) _ rfl rfl rfl
      · cases hs
        exact h.setClient (by simp [hc]) _ rfl rfl rfl
    · cases hs
      exact h.setClient (by simp [hc]) _ rfl rfl rfl
  all_goals
    rename_i hc
    first | split at hs | skip
    all_goals cases hs
    all_goals exact h.setClient (by simp [hc]) _ rfl rfl rfl

theorem Attended.step (L : T.Lawful new ok R) (hc : Conserved R s) (hl : Locked T s)
    (h : Attended s) (hs : step T s a = some s') : Attended s' := by
  unfold ThreadPool.step at hs
  split at hs
  case h_1 => cases hs
  case h_7 => exact h.clientStep hl hs
  case h_9 => exact h.workerStep L hc hl hs
  case h_8 c w _ =>
    split at hs <;> cases hs
    rename_i hnotify hw
    -- one notification less, one worker more that looks at the queue
    rintro ⟨v, hv⟩
    have hv : Function.update s.worker w .woken v = .waiting := hv
    have hvw : v ≠ w := by
      rintro rfl
      rw [Function.update_self] at hv
      cases hv
    rw [Function.update_of_ne hvw] at hv
    have hsum : ∑ v, (Function.update s.worker w .woken v).awake = ∑ v, (s.worker v).awake + 1 := by
      simpa [hw, WorkerPc.awake] using sum_worker s w .woken WorkerPc.awake
    refine Or.inl ?_
    simp only [State.setClient, State.setWorker, hsum]
    rcases h ⟨v, hv⟩ with hle | ⟨-, hle⟩ <;> omega
  case h_10 w _ =>
    split at hs <;> cases hs
    rename_i hw
    exact h.worker rfl rfl rfl (by simp) (by rw [hw]; exact Nat.zero_le _)
  case h_11 w _ _ =>
    split at hs <;> (try split at hs) <;> cases hs
    rename_i hw _
    exact h.worker rfl rfl rfl (by simp) (by rw [hw]; exact le_rfl)
  case h_12 =>
    unfold finishStep at hs
    split at hs
    · split at hs <;> cases hs
      exact h
    all_goals
      split at hs <;> cases hs
      rename_i hw
      exact h.worker rfl rfl rfl (by simp) (by rw [hw]; exact Nat.zero_le _)
  all_goals exact h.enter hs

/-- Only a stopped pool has workers that have left. -/
def LeftStopped (s : State n S Q) : Prop := ∀ w, s.worker w = .left → s.mStop = true

theorem LeftStopped.step (h : LeftStopped s) (hs : step T s a = some s') : LeftStopped s' := by
  intro w hw
  rcases step_moves hs w with hsame | hmoves
  · exact mStop_step (h w (hsame ▸ hw)) hs
  · rw [hw] at hmoves
    generalize s.worker w = p at hmoves
    cases hmoves with
    | leave stopped => exact mStop_step stopped hs

/-- With a task in the queue there is a thread that can go on without a time-out. -/
theorem prompt_of_queued (hl : Locked T s) (h : Attended s) (hleft : LeftStopped s)
    (hhalt : s.halted = none) (hstop : s.mStop = false) (hqueued : s.log.queued ≠ [])
    (hn : 0 < n) : ∃ a : Act n S, a.prompt = true ∧ (ThreadPool.step T s a).isSome = true := by
  cases hm : s.mQueueMtx with
  | some o => exact holder_enabled hhalt ((hl.mutex o).mpr hm)
  | none =>
    have hfree : ∀ o, s.holding o = false := fun o => by
      have hhold : s.holding o = true ↔ s.mQueueMtx = some o := hl.mutex o
      simpa [hm] using hhold
    by_cases hall : ∀ w, s.worker w = .waiting
    · -- nobody looks at the queue, so it is empty
      have hsum : ∑ w, (s.worker w).awake = 0 :=
        Finset.sum_eq_zero fun w _ => by rw [hall w]; rfl
      have hlength := List.length_pos_iff.mpr hqueued
      rcases h ⟨⟨0, hn⟩, hall _⟩ with hle | ⟨⟨c, hc⟩, -⟩
      · omega
      · have hc' := hfree (.client c)
        simp [State.holding, hc, ClientPc.holds] at hc'
    · obtain ⟨w, hw⟩ := not_forall.mp hall
      have hw' := hfree (.worker w)
      cases hq : s.worker w
      case left =>
        have hstopped := hleft w hq
        rw [hstop] at hstopped
        cases hstopped
      case waiting => exact absurd hq hw
      case woken => exact ⟨.relock w false, rfl, by simp [ThreadPool.step, hhalt, hq, hm]⟩
      case running =>
        exact ⟨.finish w .returns, rfl, by simp [ThreadPool.step, hhalt, finishStep, hq]⟩
      case testStop =>
        exact ⟨.worker w, rfl, by simp [ThreadPool.step, hhalt, ThreadPool.workerStep, hq]⟩
      case lock =>
        exact ⟨.worker w, rfl, by simp [ThreadPool.step, hhalt, ThreadPool.workerStep, hq, hm]⟩
      case begin =>
        exact ⟨.worker w, rfl, by simp [ThreadPool.step, hhalt, ThreadPool.workerStep, hq]⟩
      case testStopAgain =>
        exact ⟨.worker w, rfl, by simp [ThreadPool.step, hhalt, ThreadPool.workerStep, hq, hstop]⟩
      all_goals simp [State.holding, hq, WorkerPc.holds] at hw'

/-- What a pool does about the tasks in its queue. -/
structure Prompt (T : Tasks S Q) (s : State n S Q) : Prop where
  attended : Attended s
  goesOn : s.halted = none → s.mStop = false → s.log.queued ≠ [] → 0 < n →
    ∃ a : Act n S, a.prompt = true ∧ (ThreadPool.step T s a).isSome = true

theorem prompt_of_lawful (L : T.Lawful new ok R) {as : List (Act n S)}
    (h : Guarded (ThreadPool.step T) (fun _ a => a.Sound ok) (init n new) as s) : Prompt T s := by
  obtain ⟨hl, hattended, hleft⟩ : Locked T s ∧ Attended s ∧ LeftStopped s := by
    induction h with
    | nil => exact ⟨locked_init T new, attended_nil rfl, fun w hw => by cases hw⟩
    | snoc hrun _ next ih =>
      obtain ⟨hl, hattended, hleft⟩ := ih
      obtain ⟨-, -, hc⟩ := conserved_of_lawful L hrun
      exact ⟨hl.step next, hattended.step L hc hl next, hleft.step next⟩
  exact ⟨hattended, prompt_of_queued hl hattended hleft⟩

end Attended

/-- **No wake-up is lost**: as long as a worker waits, every task in the queue has a worker that looks
at the queue before it waits again, or a notification on its way; and until it is stopped a pool
with a task in its queue goes on without a time-out. The static pool has to be given scores below its
size. -/
theorem pools_lose_no_wakeup (n : ℕ) :
    (∀ (as : List (Act n Unit)) s, run (step fifo) (init n []) as = some s → Prompt fifo s) ∧
    (∀ (as : List (Act n Score)) s, run (step .stable) (init n Queue.new) as = some s →
      Prompt .stable s) ∧
    ∀ m (as : List (Act n ℕ)) s, Guarded (step (.static m)) (fun _ a => a.Sound (· < m))
      (init n StaticQueue.new) as s → Prompt (.static m) s :=
  ⟨fun _ _ h => prompt_of_lawful lawful_fifo (guarded_of_run (fun _ a => a.sound_any) h),
    fun _ _ h => prompt_of_lawful Tasks.lawful_stable (guarded_of_run (fun _ a => a.sound_any) h),
    fun m _ _ h => prompt_of_lawful (Tasks.lawful_static m) h⟩

/-- Two workers wait, and a task is pushed. -/
def pushAsleep {S : Type*} (score : S) : List (Act 2 S) :=
  List.replicate 3 (.worker first) ++ List.replicate 3 (.worker second) ++
    .insert 0 score :: List.replicate 3 (.client 0)

theorem pools_lose_no_wakeup_asleep :
    ∃ (s : State 2 Unit (List (Item Unit Job))) (s' : State 2 Score (Queue Score Job))
      (s'' : State 2 ℕ (StaticQueue 1 Job)),
      run (step fifo) (init 2 []) (pushAsleep ()) = some s ∧
      run (step .stable) (init 2 Queue.new) (pushAsleep PriorityThreadPool.Pool.zero) = some s' ∧
      run (step (.static 1)) (init 2 StaticQueue.new) (pushAsleep 0) = some s'' ∧
      s.worker first = .waiting ∧ s.log.queued.length = 1 ∧ Prompt fifo s ∧ Prompt .stable s' ∧
      Prompt (.static 1) s'' := by
  refine ⟨_, _, _, rfl, rfl, rfl, rfl, rfl, (pools_lose_no_wakeup 2).1 (pushAsleep ()) _ rfl,
    (pools_lose_no_wakeup 2).2.1 (pushAsleep PriorityThreadPool.Pool.zero) _ rfl,
    (pools_lose_no_wakeup 2).2.2 1 (pushAsleep 0) _ (guarded_of_mem (fun a ha _ => ?_) rfl)⟩
  simp only [pushAsleep, List.mem_append, List.mem_cons, List.mem_replicate] at ha
  rcases ha with (⟨-, rfl⟩ | ⟨-, rfl⟩) | rfl | ⟨-, rfl⟩
  all_goals first | exact Nat.one_pos | trivial

end Wish.ThreadPool
