import Wish.Core.PriorityThreadPool
import Mathlib.Data.Fintype.Basic

/-!
# `wish::thread_pool_base`

`core/threadpool/thread_pool.h`: a pool of `n` workers over one queue. Any number of clients call
`insert`, `zinsert`, `stop` and `wait`, and one of them may run the destructor.

The queue is one of the queues of `Tasks`; `Tasks.fifo` is the `std::queue` of `thread_pool`. The
steps are those of the source between two accesses to shared data. Unlike in `safe_thread`, a
notification matters here: a worker in the wait of `wait_for` is `waiting`, or `woken` when it has
been notified, when its time is over, or for no reason at all.

`Locked` is the invariant of the mutex: it is held by the one thread whose place says so, and the
front of the queue is only read when there is one.
-/

namespace Wish.ThreadPool

open Machine StablePriorityQueue
open PriorityThreadPool (Job Tasks Score)

/-- The queue of `thread_pool`: there is one score for all tasks. -/
def fifo : Tasks Unit (List (Item Unit Job)) where
  emplace q item := (q ++ [item], .ok ())
  top
    | [] => .error .undefined
    | item :: _ => .ok item
  pop
    | [] => ([], .error .undefined)
    | _ :: rest => (rest, .ok ())
  empty := List.isEmpty

theorem lawful_fifo : fifo.Lawful [] (fun _ => True) Eq where
  new := rfl
  emplace h _ := ⟨rfl, by rw [h]; rfl⟩
  empty h := by rw [h]; exact List.isEmpty_iff
  pop := by
    rintro q l rfl hne
    obtain ⟨item, rest, rfl⟩ := List.exists_cons_of_ne_nil hne
    have hlead : Leads (item :: rest) item := fun _ _ => le_rfl
    exact ⟨item, List.find?_cons_of_pos (by simpa using hlead), rfl, rfl,
      (List.eraseP_cons_of_pos (by simpa using hlead)).symm⟩

abbrev Cid := ℕ

/-- Where a client is: in `insert` or `zinsert`, in `stop`, or in `wait`. The destructor is `stop`
and then `wait`, where a thread that has been joined is left out. -/
inductive ClientPc (S : Type*) where
  | idle
  /-- `if (this->m_stop)` -/
  | testStop (plain : Bool) (score : S)
  /-- `std::unique_lock<std::mutex> lck(this->m_queue_mtx)` of `push_item` -/
  | lock (plain : Bool) (score : S)
  | emplace (plain : Bool) (score : S)
  /-- `this->m_condition.notify_one()` -/
  | notify
  | unlock
  /-- `if (!m_stop)` of `stop` and of the destructor -/
  | stopTest (dtor : Bool)
  | stopSet (dtor : Bool)
  /-- `exit_block` -/
  | exitLock (dtor : Bool)
  | exitNotify (dtor : Bool)
  | exitUnlock (dtor : Bool)
  /-- at the worker `i` of the loop over `m_workers` -/
  | join (dtor : Bool) (i : ℕ)

/-- Where a worker is in its loop and in `block_pop_item`. -/
inductive WorkerPc (S : Type*) where
  /-- `while(!this->m_stop)` -/
  | testStop
  | lock
  /-- the predicate of `wait_for` -/
  | predicate (timedOut : Bool)
  | waiting
  | woken
  /-- `if (this->empty())` -/
  | testEmpty
  /-- `task = std::move(this->front()); this->pop();` -/
  | front
  | unlock (task : Option (Item S Job))
  /-- `if (!this->m_stop)` -/
  | testStopAgain (task : Item S Job)
  | begin (task : Item S Job)
  | running (task : Item S Job)
  | left

inductive Owner (n : ℕ) where
  | client (c : Cid)
  | worker (w : Fin n)
  deriving DecidableEq

/-- How a task ends. -/
inductive Outcome where
  | returns
  /-- by a `std::exception` -/
  | throws
  /-- by an exception that is none -/
  | other

/-- What ends the program. -/
inductive Halt where
  | queue (e : Fault)
  | terminate

/-- What has happened to the items so far. -/
structure Log (S : Type*) where
  pushed : List (Item S Job)
  /-- the items in the queue, in the order of their `emplace` -/
  queued : List (Item S Job)
  popped : List (Item S Job)
  begun : List (Item S Job)
  finished : List (Item S Job)
  /-- popped by a worker that then saw `m_stop` -/
  dropped : List (Item S Job)

namespace Log

variable {S : Type*}

def push (l : Log S) (item : Item S Job) : Log S :=
  { l with pushed := l.pushed ++ [item], queued := l.queued ++ [item] }

def take [LinearOrder S] (l : Log S) (item : Item S Job) : Log S :=
  { l with queued := l.queued.erase item, popped := l.popped ++ [item] }

def start (l : Log S) (item : Item S Job) : Log S := { l with begun := l.begun ++ [item] }

def finish (l : Log S) (item : Item S Job) : Log S := { l with finished := l.finished ++ [item] }

def drop (l : Log S) (item : Item S Job) : Log S := { l with dropped := l.dropped ++ [item] }

end Log

/-- The members, the places of the threads, and the log. -/
structure State (n : ℕ) (S Q : Type*) where
  mTasks : Q
  mStop : Bool
  mQueueMtx : Option (Owner n)
  worker : Fin n → WorkerPc S
  joinable : Fin n → Bool
  client : Cid → ClientPc S
  halted : Option Halt
  log : Log S

inductive Act (n : ℕ) (S : Type*) where
  /-- `insert`; in a priority pool `score` is what the variable without a value holds -/
  | insert (c : Cid) (score : S)
  | zinsert (c : Cid) (score : S)
  | stop (c : Cid)
  | wait (c : Cid)
  /-- the destructor -/
  | destroy (c : Cid)
  | client (c : Cid)
  /-- `notify_one` of the client, where it wakes `w` -/
  | notifyOne (c : Cid) (w : Fin n)
  | worker (w : Fin n)
  /-- the wait of `w` ends without a notification -/
  | wake (w : Fin n)
  /-- `w` takes the mutex again; whether its time is over -/
  | relock (w : Fin n) (timedOut : Bool)
  | finish (w : Fin n) (outcome : Outcome)

variable {n : ℕ} {S Q : Type*}

def init (n : ℕ) (new : Q) : State n S Q where
  mTasks := new
  mStop := false
  mQueueMtx := none
  worker := fun _ => .testStop
  joinable := fun _ => true
  client := fun _ => .idle
  halted := none
  log := ⟨[], [], [], [], [], []⟩

namespace State

def setClient (s : State n S Q) (c : Cid) (p : ClientPc S) : State n S Q :=
  { s with client := Function.update s.client c p }

def setWorker (s : State n S Q) (w : Fin n) (p : WorkerPc S) : State n S Q :=
  { s with worker := Function.update s.worker w p }

/-- `notify_all` -/
def notifyAll (s : State n S Q) : State n S Q :=
  { s with worker := fun w => match s.worker w with
                              | .waiting => .woken
                              | p => p }

/-- A client calls a function of the pool. -/
def enter (s : State n S Q) (c : Cid) (p : ClientPc S) : Option (State n S Q) :=
  match s.client c with
  | .idle => some (s.setClient c p)
  | _ => none

end State

def WorkerPc.isWaiting : WorkerPc S → Bool
  | .waiting => true
  | _ => false

/-- One step of a client inside a function of the pool. -/
def clientStep (T : Tasks S Q) (s : State n S Q) (c : Cid) : Option (State n S Q) :=
  match s.client c with
  | .idle => none
  | .testStop plain score =>
    -- a stopped pool throws `std::runtime_error` to the caller
    some (s.setClient c (if s.mStop then .idle else .lock plain score))
  | .lock plain score =>
    if s.mQueueMtx = none then
      some ({ s with mQueueMtx := some (.client c) }.setClient c (.emplace plain score))
    else none
  | .emplace plain score =>
    let item : Item S Job := ⟨⟨s.log.pushed.length, plain⟩, score⟩
    match T.emplace s.mTasks item with
    | (q, .ok ()) =>
      some ({ s with mTasks := q, log := s.log.push item }.setClient c .notify)
    | (_, .error e) => some { s with halted := some (.queue e) }
  | .notify =>
    -- with a worker in its wait, `notify_one` is the step `notifyOne`
    if ∃ w, (s.worker w).isWaiting = true then none else some (s.setClient c .unlock)
  | .unlock => some ({ s with mQueueMtx := none }.setClient c .idle)
  | .stopTest dtor =>
    some (s.setClient c (if !s.mStop then .stopSet dtor else if dtor then .join dtor 0 else .idle))
  | .stopSet dtor => some ({ s with mStop := true }.setClient c (.exitLock dtor))
  | .exitLock dtor =>
    if s.mQueueMtx = none then
      some ({ s with mQueueMtx := some (.client c) }.setClient c (.exitNotify dtor))
    else none
  | .exitNotify dtor => some (s.notifyAll.setClient c (.exitUnlock dtor))
  | .exitUnlock dtor =>
    some ({ s with mQueueMtx := none }.setClient c (if dtor then .join dtor 0 else .idle))
  | .join dtor i =>
    if hi : i < n then
      if s.joinable ⟨i, hi⟩ then
        match s.worker ⟨i, hi⟩ with
        | .left =>
          some ({ s with joinable := Function.update s.joinable ⟨i, hi⟩ false }.setClient c
            (.join dtor (i + 1)))
        | _ => none
      -- `wait` does not ask whether the thread is joinable: `std::system_error`
      else some (s.setClient c (if dtor then .join dtor (i + 1) else .idle))
    else some (s.setClient c .idle)

/-- One step of a worker, outside its wait and its task. -/
def workerStep (T : Tasks S Q) [LinearOrder S] (s : State n S Q) (w : Fin n) :
    Option (State n S Q) :=
  match s.worker w with
  | .testStop => some (s.setWorker w (if s.mStop then .left else .lock))
  | .lock =>
    if s.mQueueMtx = none then
      some ({ s with mQueueMtx := some (.worker w) }.setWorker w (.predicate false))
    else none
  | .predicate timedOut =>
    -- `while (!pred()) if (wait_until(...) == timeout) return pred();`
    if T.empty s.mTasks && !timedOut then
      some ({ s with mQueueMtx := none }.setWorker w .waiting)
    else some (s.setWorker w .testEmpty)
  | .waiting => none
  | .woken => none
  | .testEmpty => some (s.setWorker w (if T.empty s.mTasks then .unlock none else .front))
  | .front =>
    -- an exception of the queue leaves the function of the thread
    match T.top s.mTasks, T.pop s.mTasks with
    | .ok item, (q, .ok ()) =>
      some ({ s with mTasks := q, log := s.log.take item }.setWorker w (.unlock (some item)))
    | .error e, _ => some { s with halted := some (.queue e) }
    | .ok _, (_, .error e) => some { s with halted := some (.queue e) }
  | .unlock none => some ({ s with mQueueMtx := none }.setWorker w .testStop)
  | .unlock (some item) => some ({ s with mQueueMtx := none }.setWorker w (.testStopAgain item))
  | .testStopAgain item =>
    if s.mStop then some ({ s with log := s.log.drop item }.setWorker w .testStop)
    else some (s.setWorker w (.begin item))
  | .begin item => some ({ s with log := s.log.start item }.setWorker w (.running item))
  | .running _ => none
  | .left => none

/-- The task of a worker ends. -/
def finishStep (s : State n S Q) (w : Fin n) : Outcome → Option (State n S Q)
  | .other =>
    match s.worker w with
    | .running _ => some { s with halted := some .terminate }
    | _ => none
  | .returns | .throws =>
    -- a `std::exception` is caught and printed
    match s.worker w with
    | .running item => some ({ s with log := s.log.finish item }.setWorker w .testStop)
    | _ => none

/-- Nothing happens after the end of the program. -/
def step (T : Tasks S Q) [LinearOrder S] (s : State n S Q) (a : Act n S) :
    Option (State n S Q) :=
  match s.halted, a with
  | some _, _ => none
  | none, .insert c score => s.enter c (.testStop true score)
  | none, .zinsert c score => s.enter c (.testStop false score)
  | none, .stop c => s.enter c (.stopTest false)
  | none, .wait c => s.enter c (.join false 0)
  | none, .destroy c => s.enter c (.stopTest true)
  | none, .client c => clientStep T s c
  | none, .notifyOne c w =>
    match s.client c, s.worker w with
    | .notify, .waiting => some ((s.setWorker w .woken).setClient c .unlock)
    | _, _ => none
  | none, .worker w => workerStep T s w
  | none, .wake w =>
    match s.worker w with
    | .waiting => some (s.setWorker w .woken)
    | _ => none
  | none, .relock w timedOut =>
    match s.worker w with
    | .woken =>
      if s.mQueueMtx = none then
        some ({ s with mQueueMtx := some (.worker w) }.setWorker w (.predicate timedOut))
      else none
    | _ => none
  | none, .finish w outcome => finishStep s w outcome

/-- The queue has a place for the score of a call. -/
def Act.Sound (ok : S → Prop) : Act n S → Prop
  | .insert _ score | .zinsert _ score => ok score
  | _ => True

/-! ## The mutex -/

/-- The places at which a client holds the mutex. -/
def ClientPc.holds : ClientPc S → Bool
  | .emplace _ _ | .notify | .unlock | .exitNotify _ | .exitUnlock _ => true
  | _ => false

def WorkerPc.holds : WorkerPc S → Bool
  | .predicate _ | .testEmpty | .front | .unlock _ => true
  | _ => false

def State.holding (s : State n S Q) : Owner n → Bool
  | .client c => (s.client c).holds
  | .worker w => (s.worker w).holds

theorem holding_setClient (s : State n S Q) (c : Cid) (p : ClientPc S) :
    (s.setClient c p).holding = Function.update s.holding (.client c) p.holds := by
  funext o
  cases o with
  | client d => by_cases hd : d = c <;> simp [State.holding, State.setClient, hd]
  | worker w => simp [State.holding, State.setClient]

theorem holding_setWorker (s : State n S Q) (w : Fin n) (p : WorkerPc S) :
    (s.setWorker w p).holding = Function.update s.holding (.worker w) p.holds := by
  funext o
  cases o with
  | client c => simp [State.holding, State.setWorker]
  | worker v => by_cases hv : v = w <;> simp [State.holding, State.setWorker, hv]

theorem holding_notifyAll (s : State n S Q) : s.notifyAll.holding = s.holding := by
  funext o
  cases o with
  | client c => rfl
  | worker w => cases hw : s.worker w <;> simp [State.holding, State.notifyAll, hw, WorkerPc.holds]

/-- The mutex is held by the thread that is where it is held, and a worker that is about to read
the front has seen a queue that is not empty. -/
structure Locked (T : Tasks S Q) (s : State n S Q) : Prop where
  mutex : Mutex s.holding s.mQueueMtx
  front : ∀ w, s.worker w = .front → T.empty s.mTasks = false

theorem locked_init (T : Tasks S Q) (new : Q) : Locked T (init n new : State n S Q) where
  mutex o := by cases o <;> simp [State.holding, init, ClientPc.holds, WorkerPc.holds]
  front w hw := by cases hw

section Locked

variable {T : Tasks S Q} {s s' : State n S Q} {c : Cid} {w : Fin n} {p : ClientPc S}
  {q : WorkerPc S} {a : Act n S}

theorem Locked.setClient (h : Locked T s) (hp : p.holds = (s.client c).holds) :
    Locked T (s.setClient c p) where
  mutex := by
    rw [holding_setClient]
    exact h.mutex.stay hp
  front := h.front

theorem Locked.acquireClient (h : Locked T s) (hm : s.mQueueMtx = none) (hp : p.holds = true) :
    Locked T ({ s with mQueueMtx := some (.client c) }.setClient c p) where
  mutex := by
    rw [holding_setClient]
    exact (hm ▸ h.mutex : Mutex s.holding none).acquire hp
  front := h.front

theorem Locked.releaseClient (h : Locked T s) (hc : (s.client c).holds = true)
    (hp : p.holds = false) : Locked T ({ s with mQueueMtx := none }.setClient c p) where
  mutex := by
    rw [holding_setClient]
    exact h.mutex.release hc hp
  front := h.front

theorem Locked.front_update (h : Locked T s) (hq : q = .front → T.empty s.mTasks = false) :
    ∀ v, Function.update s.worker w q v = .front → T.empty s.mTasks = false := by
  intro v hv
  by_cases hvw : v = w
  · exact hq (by simpa [hvw] using hv)
  · exact h.front v (by simpa [hvw] using hv)

theorem Locked.setWorker (h : Locked T s) (hq : q.holds = (s.worker w).holds)
    (hfront : q = .front → T.empty s.mTasks = false) : Locked T (s.setWorker w q) where
  mutex := by
    rw [holding_setWorker]
    exact h.mutex.stay hq
  front := h.front_update hfront

theorem Locked.acquireWorker (h : Locked T s) (hm : s.mQueueMtx = none) (hq : q.holds = true)
    (hfront : q ≠ .front) :
    Locked T ({ s with mQueueMtx := some (.worker w) }.setWorker w q) where
  mutex := by
    rw [holding_setWorker]
    exact (hm ▸ h.mutex : Mutex s.holding none).acquire hq
  front := h.front_update fun hf => absurd hf hfront

theorem Locked.releaseWorker (h : Locked T s) (hw : (s.worker w).holds = true)
    (hq : q.holds = false) : Locked T ({ s with mQueueMtx := none }.setWorker w q) where
  mutex := by
    rw [holding_setWorker]
    exact h.mutex.release hw hq
  front := h.front_update fun hf => by rw [hf] at hq; cases hq

/-- The thread that holds the mutex changes the queue: no other one is about to read its front. -/
theorem Locked.tasks (h : Locked T s) (o : Owner n) (ho : s.holding o = true)
    (hfront : ∀ w, o = .worker w → s.worker w ≠ .front) (t : Q) (l : Log S) :
    Locked T { s with mTasks := t, log := l } where
  mutex := h.mutex
  front v hv := by
    have hv : s.worker v = .front := hv
    have hhold : s.holding (.worker v) = true := by simp [State.holding, hv, WorkerPc.holds]
    exact absurd hv (hfront v (h.mutex.exclusive ho hhold))

theorem Locked.enter (h : Locked T s) (hp : p.holds = false) (hs : s.enter c p = some s') :
    Locked T s' := by
  unfold State.enter at hs
  split at hs
  · rename_i hc
    cases hs
    exact h.setClient (by rw [hc, hp]; rfl)
  · cases hs

/-- The other members may change. -/
theorem Locked.of_same (h : Locked T s) (hm : s'.mQueueMtx = s.mQueueMtx)
    (hw : s'.worker = s.worker) (hc : s'.client = s.client) (ht : s'.mTasks = s.mTasks) :
    Locked T s' where
  mutex := by
    have hhold : s'.holding = s.holding := by
      funext o
      cases o <;> simp [State.holding, hw, hc]
    rw [hhold, hm]
    exact h.mutex
  front := by
    rw [hw, ht]
    exact h.front

theorem Locked.notifyAll (h : Locked T s) : Locked T s.notifyAll where
  mutex := by
    rw [holding_notifyAll]
    exact h.mutex
  front w hw := by
    refine h.front w ?_
    simp only [State.notifyAll] at hw
    split at hw
    · cases hw
    · exact hw

theorem Locked.clientStep (h : Locked T s) (hs : clientStep T s c = some s') : Locked T s' := by
  unfold ThreadPool.clientStep at hs
  split at hs
  case h_1 => cases hs
  case h_2 hc =>
    cases hs
    exact h.setClient (by split <;> rw [hc] <;> rfl)
  case h_3 hc =>
    split at hs
    · rename_i hm
      cases hs
      exact h.acquireClient hm rfl
    · cases hs
  case h_4 hc =>
    have hhold : s.holding (.client c) = true := by simp [State.holding, hc, ClientPc.holds]
    have hother : ∀ w, Owner.client c = .worker w → s.worker w ≠ .front := fun w hw => by cases hw
    simp only at hs
    split at hs <;> cases hs
    · exact (h.tasks _ hhold hother _ _).setClient (by rw [hc]; rfl)
    · exact h.of_same rfl rfl rfl rfl
  case h_5 hc =>
    split at hs <;> cases hs
    exact h.setClient (by rw [hc]; rfl)
  case h_6 hc =>
    cases hs
    exact h.releaseClient (by rw [hc]; rfl) rfl
  case h_7 hc =>
    cases hs
    exact h.setClient (by split <;> (try split) <;> rw [hc] <;> rfl)
  case h_8 hc =>
    cases hs
    have hstop : Locked T { s with mStop := true } := h.of_same rfl rfl rfl rfl
    exact hstop.setClient (by rw [hc]; rfl)
  case h_9 hc =>
    split at hs
    · rename_i hm
      cases hs
      exact h.acquireClient hm rfl
    · cases hs
  case h_10 hc =>
    cases hs
    exact h.notifyAll.setClient (by simp only [State.notifyAll]; rw [hc]; rfl)
  case h_11 hc =>
    cases hs
    exact h.releaseClient (by rw [hc]; rfl) (by split <;> rfl)
  case h_12 hc =>
    split at hs
    · split at hs
      · split at hs
        · cases hs
          exact Locked.setClient (h.of_same rfl rfl rfl rfl) (by rw [hc]; rfl)
        · cases hs
      · cases hs
        exact h.setClient (by split <;> rw [hc] <;> rfl)
    · cases hs
      exact h.setClient (by rw [hc]; rfl)

theorem Locked.workerStep [LinearOrder S] (h : Locked T s) (hs : workerStep T s w = some s') :
    Locked T s' := by
  unfold ThreadPool.workerStep at hs
  split at hs
  case h_1 hw =>
    cases hs
    exact h.setWorker (by split <;> rw [hw] <;> rfl) (by split <;> simp)
  case h_2 hw =>
    split at hs
    · rename_i hm
      cases hs
      exact h.acquireWorker hm rfl (by simp)
    · cases hs
  case h_3 hw =>
    split at hs <;> cases hs
    · exact h.releaseWorker (by rw [hw]; rfl) rfl
    · exact h.setWorker (by rw [hw]; rfl) (by simp)
  case h_4 => cases hs
  case h_5 => cases hs
  case h_6 hw =>
    cases hs
    cases hempty : T.empty s.mTasks
    · exact h.setWorker (by rw [hw]; rfl) fun _ => hempty
    · exact h.setWorker (by rw [hw]; rfl) (by simp)
  case h_7 hw =>
    have hleft : ∀ task, Locked T (s.setWorker w (.unlock task)) := fun task =>
      h.setWorker (by rw [hw]; rfl) (by simp)
    have hmove : ∀ task, (s.setWorker w (.unlock task)).worker w = .unlock task := fun task => by
      simp [State.setWorker]
    split at hs <;> cases hs
    · refine (hleft _).tasks (.worker w) ?_ (fun v hv => ?_) _ _
      · simp [State.holding, hmove, WorkerPc.holds]
      · cases hv
        simp [hmove]
    · exact h.of_same rfl rfl rfl rfl
    · exact h.of_same rfl rfl rfl rfl
  case h_8 hw =>
    cases hs
    exact h.releaseWorker (by rw [hw]; rfl) rfl
  case h_9 hw =>
    cases hs
    exact h.releaseWorker (by rw [hw]; rfl) rfl
  case h_10 item hw =>
    have hdrop : Locked T { s with log := s.log.drop item } := h.of_same rfl rfl rfl rfl
    split at hs <;> cases hs
    · exact hdrop.setWorker (by rw [hw]; rfl) (by simp)
    · exact h.setWorker (by rw [hw]; rfl) (by simp)
  case h_11 item hw =>
    have hstart : Locked T { s with log := s.log.start item } := h.of_same rfl rfl rfl rfl
    cases hs
    exact hstart.setWorker (by rw [hw]; rfl) (by simp)
  case h_12 => cases hs
  case h_13 => cases hs

theorem Locked.step [LinearOrder S] (h : Locked T s) (hs : step T s a = some s') :
    Locked T s' := by
  unfold ThreadPool.step at hs
  split at hs
  · cases hs
  case h_7 => exact h.clientStep hs
  case h_9 => exact h.workerStep hs
  case h_8 =>
    split at hs
    · rename_i hc hw
      cases hs
      exact (h.setWorker (by rw [hw]; rfl) (by simp)).setClient
        (by simp only [State.setWorker]; rw [hc]; rfl)
    · cases hs
  case h_10 =>
    split at hs
    · rename_i hw
      cases hs
      exact h.setWorker (by rw [hw]; rfl) (by simp)
    · cases hs
  case h_11 =>
    split at hs
    · split at hs
      · rename_i hm
        cases hs
        exact h.acquireWorker hm rfl (by simp)
      · cases hs
    · cases hs
  case h_12 =>
    unfold finishStep at hs
    split at hs
    · split at hs
      · cases hs
        exact h.of_same rfl rfl rfl rfl
      · cases hs
    all_goals
      split at hs
      · rename_i item hw
        cases hs
        have hfinish : Locked T { s with log := s.log.finish item } := h.of_same rfl rfl rfl rfl
        exact hfinish.setWorker (by rw [hw]; rfl) (by simp)
      · cases hs
  all_goals exact h.enter rfl hs

end Locked

end Wish.ThreadPool
