import Wish.Machine

/-!
# `wish::safe_thread` over `wish::thread_pool`

`core/threadpool/thread_pool.h`: any number of clients call `insert`, one worker pops the
queue (`queue_wrap::block_pop_item`) and runs the tasks on the instance.

The steps are those of the source between two accesses to shared data: the tests of
`m_stop`, locking and unlocking `m_queue_mtx`, `emplace`, the predicate of `wait_for`, the
wait itself, the pop, and the begin and the end of a task. A wait may end at any time (a
notification, the time-out or a spurious wake-up), so a notification changes nothing that
the model keeps.

`Conserved` is the invariant: what has been pushed is what was begun, then what is in the
worker's hand, then the queue.
-/

namespace Wish.SafeThread

open Machine

abbrev Cid := Nat

/-- A bound call on the instance: what it makes of it, and whether it ends by a
`std::exception`. -/
abbrev Task (σ : Type*) := σ → σ × Bool

/-- Where a client is in `insert` and `push_item`. -/
inductive ClientPc (σ : Type*) where
  | idle
  /-- `if (this->m_stop)` -/
  | testStop (task : Task σ)
  /-- `std::unique_lock<std::mutex> lck(this->m_queue_mtx)` -/
  | lock (task : Task σ)
  | emplace (task : Task σ)
  /-- `notify_one`, unlock and return; the task got place `n` in the push order -/
  | notify (n : Nat)

/-- Where the worker is in its loop and in `block_pop_item`. -/
inductive WorkerPc (σ : Type*) where
  /-- `while(!this->m_stop)` -/
  | testStop
  | lock
  /-- the predicate of `wait_for`, with the lock held -/
  | predicate (timedOut : Bool)
  /-- in the wait, without the lock -/
  | waiting
  | relock (timedOut : Bool)
  /-- `if (this->empty())` -/
  | testEmpty
  | unlock (task : Option (Task σ))
  /-- `if (!this->m_stop)` -/
  | testStopAgain (task : Task σ)
  | begin (task : Task σ)
  | running (task : Task σ)
  | left

inductive Owner where
  | client (c : Cid)
  | worker
  deriving DecidableEq

/-- The members, the places of the threads and, below them, what has happened so far. -/
structure State (σ : Type*) where
  mStop : Bool
  mTasks : List (Task σ)
  mQueueMtx : Option Owner
  mInstance : σ
  client : Cid → ClientPc σ
  worker : WorkerPc σ
  /-- the tasks in the order of their `emplace` -/
  pushed : List (Task σ)
  /-- the places in that order of the calls of `insert` that have returned -/
  accepted : List Nat
  begun : List (Task σ)
  finished : List (Task σ)

variable {σ : Type*}

def init (ins : σ) : State σ where
  mStop := false
  mTasks := []
  mQueueMtx := none
  mInstance := ins
  client := fun _ => .idle
  worker := .testStop
  pushed := []
  accepted := []
  begun := []
  finished := []

inductive Act (σ : Type*) where
  | insert (c : Cid) (task : Task σ)
  | client (c : Cid)
  | worker
  /-- the wait of the worker ends -/
  | wake (timedOut : Bool)
  | stop

def State.setClient (s : State σ) (c : Cid) (p : ClientPc σ) : State σ :=
  { s with client := Function.update s.client c p }

/-- One step of a client inside `insert`. -/
def clientStep (s : State σ) (c : Cid) : Option (State σ) :=
  match s.client c with
  | .idle => none
  | .testStop task =>
    -- a stopped pool throws `std::runtime_error` to the caller
    if s.mStop then some (s.setClient c .idle) else some (s.setClient c (.lock task))
  | .lock task =>
    if s.mQueueMtx = none then
      some ({ s with mQueueMtx := some (.client c) }.setClient c (.emplace task))
    else none
  | .emplace task =>
    some ({ s with mTasks := s.mTasks ++ [task], pushed := s.pushed ++ [task] }.setClient c
      (.notify s.pushed.length))
  | .notify n =>
    some ({ s with mQueueMtx := none, accepted := s.accepted ++ [n] }.setClient c .idle)

/-- One step of the worker outside its wait. -/
def workerStep (s : State σ) : Option (State σ) :=
  match s.worker with
  | .testStop => some { s with worker := if s.mStop then .left else .lock }
  | .lock =>
    if s.mQueueMtx = none then
      some { s with mQueueMtx := some .worker, worker := .predicate false }
    else none
  | .predicate timedOut =>
    -- `while (!pred()) if (wait_until(...) == timeout) return pred();`
    if !s.mTasks.isEmpty || timedOut then some { s with worker := .testEmpty }
    else some { s with mQueueMtx := none, worker := .waiting }
  | .waiting => none
  | .relock timedOut =>
    if s.mQueueMtx = none then
      some { s with mQueueMtx := some .worker, worker := .predicate timedOut }
    else none
  | .testEmpty =>
    match s.mTasks with
    | [] => some { s with worker := .unlock none }
    | task :: rest => some { s with mTasks := rest, worker := .unlock (some task) }
  | .unlock none => some { s with mQueueMtx := none, worker := .testStop }
  | .unlock (some task) => some { s with mQueueMtx := none, worker := .testStopAgain task }
  | .testStopAgain task => some { s with worker := if s.mStop then .testStop else .begin task }
  | .begin task => some { s with worker := .running task, begun := s.begun ++ [task] }
  | .running task =>
    -- the `catch` of `std::exception` goes on with the loop as a normal end does
    some { s with mInstance := (task s.mInstance).1, worker := .testStop,
                  finished := s.finished ++ [task] }
  | .left => none

def step (s : State σ) : Act σ → Option (State σ)
  | .insert c task =>
    match s.client c with
    | .idle => some (s.setClient c (.testStop task))
    | _ => none
  | .client c => clientStep s c
  | .worker => workerStep s
  | .wake timedOut =>
    match s.worker with
    | .waiting => some { s with worker := .relock timedOut }
    | _ => none
  | .stop => some { s with mStop := true }

/-! ## Conservation -/

/-- The tasks popped and not yet begun. -/
def WorkerPc.hand : WorkerPc σ → List (Task σ)
  | .unlock (some task) => [task]
  | .testStopAgain task => [task]
  | .begin task => [task]
  | _ => []

/-- The tasks begun and not yet ended. -/
def WorkerPc.current : WorkerPc σ → List (Task σ)
  | .running task => [task]
  | _ => []

/-- The instance after the tasks of a list. -/
def fold (ins : σ) (tasks : List (Task σ)) : σ := tasks.foldl (fun s task => (task s).1) ins

/-- While `stop` has not been called, every pushed task is begun, in the hand of the worker
or in the queue, in the order of the pushes. -/
structure Conserved (ins : σ) (s : State σ) : Prop where
  pushed : s.mStop = false → s.pushed = s.begun ++ s.worker.hand ++ s.mTasks
  begun : s.begun = s.finished ++ s.worker.current
  accepted : ∀ n ∈ s.accepted, n < s.pushed.length
  notify : ∀ c n, s.client c = .notify n → n < s.pushed.length
  fold : s.mInstance = fold ins s.finished

theorem conserved_init (ins : σ) : Conserved ins (init ins) :=
  ⟨fun _ => rfl, rfl, by simp [init], by simp [init], rfl⟩

theorem setClient_client (s : State σ) (c : Cid) (p : ClientPc σ) (d : Cid) :
    (s.setClient c p).client d = if d = c then p else s.client d := by
  simp [State.setClient, Function.update_apply]

/-- A client that moves without touching the queue keeps the invariant. -/
theorem conserved_setClient {ins : σ} {s : State σ} (h : Conserved ins s) (c : Cid)
    {p : ClientPc σ} (hp : ∀ n, p = .notify n → n < s.pushed.length) :
    Conserved ins (s.setClient c p) where
  pushed := h.pushed
  begun := h.begun
  accepted := h.accepted
  notify d n hd := by
    rw [setClient_client] at hd
    split at hd
    · exact hp n hd
    · exact h.notify d n hd
  fold := h.fold

/-- Only the mutex changes. -/
theorem conserved_mtx {ins : σ} {s : State σ} (h : Conserved ins s) (o : Option Owner) :
    Conserved ins { s with mQueueMtx := o } := ⟨h.pushed, h.begun, h.accepted, h.notify, h.fold⟩

theorem conserved_clientStep {ins : σ} {s s' : State σ} {c : Cid} (h : Conserved ins s)
    (hs : clientStep s c = some s') : Conserved ins s' := by
  unfold clientStep at hs
  split at hs
  · cases hs
  · split at hs <;> cases hs <;> exact conserved_setClient h c (by simp)
  · split at hs
    · cases hs
      exact conserved_setClient (conserved_mtx h _) c (by simp)
    · cases hs
  · rename_i task _
    cases hs
    have hgrow : Conserved ins { s with mTasks := s.mTasks ++ [task],
                                        pushed := s.pushed ++ [task] } := by
      refine ⟨fun hstop => ?_, h.begun, fun n hn => ?_, fun d n hd => ?_, h.fold⟩
      · simp [h.pushed hstop]
      · simpa using Nat.lt_succ_of_lt (h.accepted n hn)
      · simpa using Nat.lt_succ_of_lt (h.notify d n hd)
    exact conserved_setClient hgrow c (by simp)
  · rename_i n hn
    cases hs
    have hgrow : Conserved ins { s with mQueueMtx := none, accepted := s.accepted ++ [n] } := by
      refine ⟨h.pushed, h.begun, fun m hm => ?_, h.notify, h.fold⟩
      rcases List.mem_append.mp hm with hm | hm
      · exact h.accepted m hm
      · rw [List.mem_singleton.mp hm]
        exact h.notify c n hn
    exact conserved_setClient hgrow c (by simp)

/-- The worker moves on without popping, beginning or ending a task. -/
theorem conserved_worker {ins : σ} {s : State σ} (h : Conserved ins s) {p : WorkerPc σ}
    (hhand : p.hand = s.worker.hand) (hcur : p.current = s.worker.current) (o : Option Owner) :
    Conserved ins { s with mQueueMtx := o, worker := p } :=
  ⟨fun hstop => by rw [hhand]; exact h.pushed hstop, by rw [hcur]; exact h.begun, h.accepted,
    h.notify, h.fold⟩

theorem conserved_workerStep {ins : σ} {s s' : State σ} (h : Conserved ins s)
    (hs : workerStep s = some s') : Conserved ins s' := by
  unfold workerStep at hs
  split at hs
  case h_1 hw =>
    cases hs
    exact conserved_worker h (by split <;> simp [hw, WorkerPc.hand])
      (by split <;> simp [hw, WorkerPc.current]) _
  case h_2 hw =>
    split at hs
    · cases hs
      exact conserved_worker h (by simp [hw, WorkerPc.hand]) (by simp [hw, WorkerPc.current]) _
    · cases hs
  case h_3 hw =>
    split at hs <;> cases hs <;>
      exact conserved_worker h (by simp [hw, WorkerPc.hand]) (by simp [hw, WorkerPc.current]) _
  case h_4 => cases hs
  case h_5 hw =>
    split at hs
    · cases hs
      exact conserved_worker h (by simp [hw, WorkerPc.hand]) (by simp [hw, WorkerPc.current]) _
    · cases hs
  case h_6 hw =>
    split at hs
    · cases hs
      exact conserved_worker h (by simp [hw, WorkerPc.hand]) (by simp [hw, WorkerPc.current]) _
    · rename_i task rest htasks
      cases hs
      refine ⟨fun hstop => ?_, ?_, h.accepted, h.notify, h.fold⟩
      · simp [h.pushed hstop, hw, WorkerPc.hand, htasks]
      · simp [h.begun, hw, WorkerPc.current]
  case h_7 hw =>
    cases hs
    exact conserved_worker h (by simp [hw, WorkerPc.hand]) (by simp [hw, WorkerPc.current]) _
  case h_8 hw =>
    cases hs
    exact conserved_worker h (by simp [hw, WorkerPc.hand]) (by simp [hw, WorkerPc.current]) _
  case h_9 task hw =>
    cases hs
    -- a stopped worker drops the task in its hand
    refine ⟨fun hstop => ?_, ?_, h.accepted, h.notify, h.fold⟩
    · have hstop : s.mStop = false := hstop
      simp [h.pushed hstop, hw, WorkerPc.hand, hstop]
    · have hcur := h.begun
      rw [hw] at hcur
      split <;> simpa [WorkerPc.current] using hcur
  case h_10 task hw =>
    cases hs
    refine ⟨fun hstop => ?_, ?_, h.accepted, h.notify, h.fold⟩
    · simp [h.pushed hstop, hw, WorkerPc.hand]
    · simp [h.begun, hw, WorkerPc.current]
  case h_11 task hw =>
    cases hs
    refine ⟨fun hstop => ?_, ?_, h.accepted, h.notify, ?_⟩
    · simp [h.pushed hstop, hw, WorkerPc.hand]
    · simp [h.begun, hw, WorkerPc.current]
    · simp [SafeThread.fold, h.fold]
  case h_12 => cases hs

theorem conserved_step {ins : σ} {s s' : State σ} {a : Act σ} (h : Conserved ins s)
    (hs : step s a = some s') : Conserved ins s' := by
  cases a with
  | insert c task =>
    simp only [step] at hs
    split at hs
    · cases hs
      exact conserved_setClient h c (by simp)
    · cases hs
  | client c => exact conserved_clientStep h hs
  | worker => exact conserved_workerStep h hs
  | wake timedOut =>
    simp only [step] at hs
    split at hs
    · rename_i hw
      cases hs
      exact conserved_worker h (by simp [hw, WorkerPc.hand]) (by simp [hw, WorkerPc.current]) _
    · cases hs
  | stop =>
    cases hs
    exact ⟨fun hstop => by simp at hstop, h.begun, h.accepted, h.notify, h.fold⟩

/-- A step begins no task, or one task when every task begun before it has ended. -/
theorem step_begun {ins : σ} {s s' : State σ} {a : Act σ} (h : Conserved ins s)
    (hs : step s a = some s') :
    s'.begun = s.begun ∨ s.finished = s.begun ∧ ∃ task, s'.begun = s.begun ++ [task] := by
  cases a with
  | insert c task =>
    simp only [step] at hs
    split at hs <;> cases hs
    exact Or.inl rfl
  | client c =>
    simp only [step, clientStep] at hs
    split at hs <;> try split at hs
    all_goals cases hs
    all_goals exact Or.inl rfl
  | worker =>
    have hbegun := h.begun
    simp only [step, workerStep] at hs
    split at hs
    case h_10 task hw =>
      cases hs
      rw [hw] at hbegun
      exact Or.inr ⟨by simpa [WorkerPc.current] using hbegun.symm, task, rfl⟩
    all_goals try split at hs
    all_goals cases hs
    all_goals exact Or.inl rfl
  | wake timedOut =>
    simp only [step] at hs
    split at hs <;> cases hs
    exact Or.inl rfl
  | stop =>
    cases hs
    exact Or.inl rfl

theorem hand_length_le (p : WorkerPc σ) : p.hand.length ≤ 1 := by
  cases p with
  | unlock task => cases task <;> simp [WorkerPc.hand]
  | _ => simp [WorkerPc.hand]

theorem current_length_le (p : WorkerPc σ) : p.current.length ≤ 1 := by
  cases p <;> simp [WorkerPc.current]

/-- The guarantee of the class while `stop` has not been called. -/
structure DataSafe (ins : σ) (s : State σ) : Prop where
  begun : s.begun <+: s.pushed
  /-- of the tasks begun at most the last one has not ended -/
  oneRunning : s.begun = s.finished ++ s.worker.current ∧ s.worker.current.length ≤ 1
  /-- and the next one is begun when it has -/
  inTurn : ∀ a s', step s a = some s' →
    s'.begun = s.begun ∨ s.finished = s.begun ∧ ∃ task, s'.begun = s.begun ++ [task]
  /-- every other task is the one in the worker's hand or is in the queue -/
  kept : s.pushed = s.begun ++ s.worker.hand ++ s.mTasks ∧ s.worker.hand.length ≤ 1
  /-- a task is pushed by the time its `insert` has returned -/
  accepted : ∀ n ∈ s.accepted, n < s.pushed.length
  fold : s.mInstance = fold ins (s.pushed.take s.finished.length)

theorem safeThread_dataSafe {ins : σ} {as : List (Act σ)} {s : State σ}
    (h : run step (init ins) as = some s) (hstop : s.mStop = false) : DataSafe ins s := by
  have hc : Conserved ins s :=
    run_invariant (conserved_init ins) (fun _ _ _ => conserved_step) h
  have hpushed := hc.pushed hstop
  refine ⟨?_, ⟨hc.begun, current_length_le _⟩, fun a s' => step_begun hc,
    ⟨hpushed, hand_length_le _⟩, hc.accepted, ?_⟩
  · rw [hpushed, List.append_assoc]
    exact List.prefix_append _ _
  · rw [hpushed, hc.begun, List.append_assoc, List.append_assoc, List.take_left, hc.fold]

/-- One client pushes a task that adds one and a task that throws; the worker runs the
first and begins the second. -/
def twoTasks : List (Act Nat) :=
  let push (task : Task Nat) : List (Act Nat) :=
    [.insert 0 task, .client 0, .client 0, .client 0, .client 0]
  push (fun n => (n + 1, false)) ++ push (fun n => (2 * n, true)) ++
    List.replicate 8 .worker ++ List.replicate 7 .worker

theorem safeThread_dataSafe_twoTasks :
    ∃ s, run step (init 3) twoTasks = some s ∧ s.finished.length = 1 ∧ s.begun.length = 2 ∧
      s.mInstance = 4 ∧ DataSafe 3 s :=
  ⟨_, rfl, rfl, rfl, rfl, @safeThread_dataSafe _ _ twoTasks _ rfl rfl⟩

end Wish.SafeThread
