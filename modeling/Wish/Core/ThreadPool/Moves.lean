import Wish.Core.ThreadPool

/-!
# Where the threads of a pool go

`core/threadpool/thread_pool.h`: the control flow of a worker (`Moves`) and of a client
(`ClientMoves`). A step of the pool moves its own thread along, and others only out of a wait
(`step_own`, `step_other`, `step_client`).
-/

namespace Wish.ThreadPool

open Machine StablePriorityQueue
open PriorityThreadPool (Job Tasks)

variable {n : ℕ} {S Q : Type*}

/-! ## Workers -/

/-- Where a worker goes from where, in a pool that has been stopped or not. -/
inductive Moves (stop : Bool) : WorkerPc S → WorkerPc S → Prop
  | leave (stopped : stop = true) : Moves stop .testStop .left
  | loop (running : stop = false) : Moves stop .testStop .lock
  | lock : Moves stop .lock (.predicate false)
  | wait : Moves stop (.predicate false) .waiting
  | test (timedOut : Bool) : Moves stop (.predicate timedOut) .testEmpty
  | wake : Moves stop .waiting .woken
  | relock (timedOut : Bool) : Moves stop .woken (.predicate timedOut)
  | empty : Moves stop .testEmpty (.unlock none)
  | front : Moves stop .testEmpty .front
  | take (item : Item S Job) : Moves stop .front (.unlock (some item))
  | again : Moves stop (.unlock none) .testStop
  | taken (item : Item S Job) : Moves stop (.unlock (some item)) (.testStopAgain item)
  | drop (item : Item S Job) (stopped : stop = true) : Moves stop (.testStopAgain item) .testStop
  | go (item : Item S Job) (running : stop = false) : Moves stop (.testStopAgain item) (.begin item)
  | start (item : Item S Job) : Moves stop (.begin item) (.running item)
  | finish (item : Item S Job) : Moves stop (.running item) .testStop

/-- The steps of a worker itself. -/
def Act.own (w : Fin n) : Act n S → Bool
  | .worker v | .relock v _ | .finish v _ => v = w
  | _ => false

/-- The wait of the worker has ended before its time was over. -/
def Act.early (w : Fin n) : Act n S → Bool
  | .relock v timedOut => v = w && !timedOut
  | _ => false

section Moves

variable [LinearOrder S] {T : Tasks S Q} {s s' : State n S Q} {a : Act n S}

theorem workerStep_moves {w : Fin n} (hs : workerStep T s w = some s') :
    s.worker w ≠ .waiting ∧ s.worker w ≠ .woken ∧
      (s'.halted ≠ none ∧ s'.worker = s.worker ∧ s.worker w ≠ .left ∨
        ∃ q, s'.worker = Function.update s.worker w q ∧ Moves s.mStop (s.worker w) q) := by
  unfold workerStep at hs
  split at hs
  case h_1 hw =>
    cases hs
    refine ⟨by simp [hw], by simp [hw], Or.inr ⟨_, rfl, ?_⟩⟩
    rw [hw]
    cases hstop : s.mStop
    · exact .loop rfl
    · exact .leave rfl
  case h_2 hw =>
    split at hs <;> cases hs
    exact ⟨by simp [hw], by simp [hw], Or.inr ⟨_, rfl, hw ▸ .lock⟩⟩
  case h_3 timedOut hw =>
    split at hs <;> cases hs
    · rename_i hempty
      obtain rfl : timedOut = false := by simpa using (Bool.and_eq_true_iff.mp hempty).2
      exact ⟨by simp [hw], by simp [hw], Or.inr ⟨_, rfl, hw ▸ .wait⟩⟩
    · exact ⟨by simp [hw], by simp [hw], Or.inr ⟨_, rfl, hw ▸ .test timedOut⟩⟩
  case h_4 => cases hs
  case h_5 => cases hs
  case h_6 hw =>
    cases hs
    refine ⟨by simp [hw], by simp [hw], Or.inr ⟨_, rfl, ?_⟩⟩
    rw [hw]
    split
    · exact .empty
    · exact .front
  case h_7 hw =>
    split at hs <;> cases hs
    · exact ⟨by simp [hw], by simp [hw], Or.inr ⟨_, rfl, hw ▸ .take _⟩⟩
    all_goals exact ⟨by simp [hw], by simp [hw], Or.inl ⟨by simp, rfl, by simp [hw]⟩⟩
  case h_8 hw =>
    cases hs
    exact ⟨by simp [hw], by simp [hw], Or.inr ⟨_, rfl, hw ▸ .again⟩⟩
  case h_9 item hw =>
    cases hs
    exact ⟨by simp [hw], by simp [hw], Or.inr ⟨_, rfl, hw ▸ .taken item⟩⟩
  case h_10 item hw =>
    split at hs <;> rename_i hstop <;> cases hs
    · exact ⟨by simp [hw], by simp [hw], Or.inr ⟨_, rfl, hw ▸ .drop item hstop⟩⟩
    · have hstop : s.mStop = false := by simpa using hstop
      exact ⟨by simp [hw], by simp [hw], Or.inr ⟨_, rfl, hw ▸ .go item hstop⟩⟩
  case h_11 item hw =>
    cases hs
    exact ⟨by simp [hw], by simp [hw], Or.inr ⟨_, rfl, hw ▸ .start item⟩⟩
  case h_12 => cases hs
  case h_13 => cases hs

omit [LinearOrder S] in
theorem finishStep_moves {w : Fin n} {outcome : Outcome} (hs : finishStep s w outcome = some s') :
    ∃ item, s.worker w = .running item ∧ (s'.halted ≠ none ∧ s'.worker = s.worker ∨
      s'.worker = Function.update s.worker w .testStop) := by
  unfold finishStep at hs
  split at hs
  · split at hs <;> cases hs
    exact ⟨_, ‹_›, Or.inl ⟨by simp, rfl⟩⟩
  all_goals
    split at hs <;> cases hs
    exact ⟨_, ‹_›, Or.inr rfl⟩

omit [LinearOrder S] in
/-- A client moves a worker only by notifying it. -/
theorem clientStep_worker {c : Cid} (hs : clientStep T s c = some s') (w : Fin n) :
    s'.worker w = s.worker w ∨ s.worker w = .waiting ∧ s'.worker w = .woken := by
  unfold clientStep at hs
  split at hs
  case h_4 =>
    simp only at hs
    split at hs <;> cases hs <;> exact Or.inl rfl
  case h_10 =>
    cases hs
    simp only [State.setClient, State.notifyAll]
    cases hw : s.worker w
    case waiting => exact Or.inr ⟨rfl, rfl⟩
    all_goals exact Or.inl rfl
  case h_1 => cases hs
  all_goals
    first | split at hs | skip
    all_goals first | split at hs | skip
    all_goals first | split at hs | skip
    all_goals cases hs
    all_goals exact Or.inl rfl

/-- A step of the worker itself, unless it ends the program. -/
theorem step_own {w : Fin n} (hs : step T s a = some s') (ha : a.own w = true) :
    (s'.halted ≠ none ∧ s'.worker = s.worker ∧ s.worker w ≠ .left) ∨
      Moves s.mStop (s.worker w) (s'.worker w) ∧ s.worker w ≠ .waiting ∧
        (s.worker w = .woken → ∃ timedOut, a = .relock w timedOut ∧
          s'.worker w = .predicate timedOut) := by
  unfold step at hs
  split at hs
  case h_9 v _ =>
    obtain rfl : v = w := by simpa [Act.own] using ha
    obtain ⟨hwaiting, hwoken, hend | ⟨q, hq, hmoves⟩⟩ := workerStep_moves hs
    · exact Or.inl hend
    · rw [hq, Function.update_self]
      exact Or.inr ⟨hmoves, hwaiting, fun h => absurd h hwoken⟩
  case h_11 v timedOut _ =>
    obtain rfl : v = w := by simpa [Act.own] using ha
    split at hs <;> (try split at hs) <;> cases hs
    rename_i hw _
    rw [hw]
    have hnext : (({ s with mQueueMtx := some (.worker v) } : State n S Q).setWorker v
        (.predicate timedOut)).worker v = .predicate timedOut := by simp [State.setWorker]
    rw [hnext]
    exact Or.inr ⟨.relock timedOut, by simp, fun _ => ⟨timedOut, rfl, rfl⟩⟩
  case h_12 v outcome _ =>
    obtain rfl : v = w := by simpa [Act.own] using ha
    obtain ⟨item, hw, ⟨hhalt, hsame⟩ | hq⟩ := finishStep_moves hs
    · exact Or.inl ⟨hhalt, hsame, by simp [hw]⟩
    · rw [hq, Function.update_self, hw]
      exact Or.inr ⟨.finish item, by simp, by simp⟩
  case h_1 => cases hs
  all_goals simp [Act.own] at ha

/-- With an empty queue a worker whose time is not over goes into its wait. -/
theorem step_predicate {w : Fin n} (hs : step T s a = some s') (ha : a.own w = true)
    (hw : s.worker w = .predicate false) (hempty : T.empty s.mTasks = true) :
    s'.worker w = .waiting := by
  unfold step at hs
  split at hs
  case h_9 v _ =>
    obtain rfl : v = w := by simpa [Act.own] using ha
    simp only [workerStep, hw, hempty, Bool.not_false, Bool.and_self, if_true] at hs
    cases hs
    simp [State.setWorker]
  case h_11 v timedOut _ =>
    obtain rfl : v = w := by simpa [Act.own] using ha
    simp [hw] at hs
  case h_12 v outcome _ =>
    obtain rfl : v = w := by simpa [Act.own] using ha
    cases outcome <;> simp [finishStep, hw] at hs
  case h_1 => cases hs
  all_goals simp [Act.own] at ha

/-- Another step leaves the worker where it is, or wakes it. -/
theorem step_other {w : Fin n} (hs : step T s a = some s') (ha : a.own w = false) :
    s'.worker w = s.worker w ∨ s.worker w = .waiting ∧ s'.worker w = .woken := by
  have hupdate : ∀ {v : Fin n} {q : WorkerPc S}, v ≠ w →
      Function.update s.worker v q w = s.worker w := fun hv => Function.update_of_ne (Ne.symm hv) _ _
  unfold step at hs
  split at hs
  case h_1 => cases hs
  case h_7 => exact clientStep_worker hs w
  case h_8 c v _ =>
    split at hs <;> cases hs
    rename_i hv
    by_cases hvw : v = w
    · subst hvw
      exact Or.inr ⟨hv, by simp [State.setClient, State.setWorker]⟩
    · exact Or.inl (hupdate hvw)
  case h_9 v _ =>
    have hvw : v ≠ w := by simpa [Act.own] using ha
    obtain ⟨-, -, ⟨-, hq, -⟩ | ⟨q, hq, -⟩⟩ := workerStep_moves hs
    · exact Or.inl (by rw [hq])
    · exact Or.inl (by rw [hq, hupdate hvw])
  case h_10 v _ =>
    split at hs <;> cases hs
    rename_i hv
    by_cases hvw : v = w
    · subst hvw
      exact Or.inr ⟨hv, by simp [State.setWorker]⟩
    · exact Or.inl (hupdate hvw)
  case h_11 v timedOut _ =>
    have hvw : v ≠ w := by simpa [Act.own] using ha
    split at hs <;> (try split at hs) <;> cases hs
    exact Or.inl (hupdate hvw)
  case h_12 v outcome _ =>
    have hvw : v ≠ w := by simpa [Act.own] using ha
    obtain ⟨item, -, ⟨-, hq⟩ | hq⟩ := finishStep_moves hs
    · exact Or.inl (by rw [hq])
    · exact Or.inl (by rw [hq, hupdate hvw])
  all_goals
    unfold State.enter at hs
    split at hs <;> cases hs
    exact Or.inl rfl

/-- So every step leaves a worker where it is or moves it along. -/
theorem step_moves (hs : step T s a = some s') (w : Fin n) :
    s'.worker w = s.worker w ∨ Moves s.mStop (s.worker w) (s'.worker w) := by
  cases ha : a.own w with
  | true =>
    rcases step_own hs ha with ⟨-, hsame, -⟩ | ⟨hmoves, -, -⟩
    · exact Or.inl (by rw [hsame])
    · exact Or.inr hmoves
  | false =>
    rcases step_other hs ha with hsame | ⟨hw, hw'⟩
    · exact Or.inl hsame
    · rw [hw, hw']
      exact Or.inr .wake

end Moves

/-! ## Clients -/

/-- Where a client goes from where, inside a function of the pool. -/
inductive ClientMoves (stop : Bool) : ClientPc S → ClientPc S → Prop
  | refuse (stopped : stop = true) (plain : Bool) (score : S) :
    ClientMoves stop (.testStop plain score) .idle
  | pass (running : stop = false) (plain : Bool) (score : S) :
    ClientMoves stop (.testStop plain score) (.lock plain score)
  | lock (plain : Bool) (score : S) : ClientMoves stop (.lock plain score) (.emplace plain score)
  | push (plain : Bool) (score : S) : ClientMoves stop (.emplace plain score) .notify
  | notify : ClientMoves stop .notify .unlock
  | unlock : ClientMoves stop .unlock .idle
  | stopped (dtor : Bool) (stopped : stop = true) :
    ClientMoves stop (.stopTest dtor) (if dtor then .join dtor 0 else .idle)
  | test (dtor : Bool) (running : stop = false) : ClientMoves stop (.stopTest dtor) (.stopSet dtor)
  | set (dtor : Bool) : ClientMoves stop (.stopSet dtor) (.exitLock dtor)
  | exitLock (dtor : Bool) : ClientMoves stop (.exitLock dtor) (.exitNotify dtor)
  | exitNotify (dtor : Bool) : ClientMoves stop (.exitNotify dtor) (.exitUnlock dtor)
  | exitUnlock (dtor : Bool) :
    ClientMoves stop (.exitUnlock dtor) (if dtor then .join dtor 0 else .idle)
  | join (dtor : Bool) (i : ℕ) : ClientMoves stop (.join dtor i) (.join dtor (i + 1))
  | leave (dtor : Bool) (i : ℕ) : ClientMoves stop (.join dtor i) .idle

/-- Where a call takes the client. -/
def Act.entry : Act n S → Option (Cid × ClientPc S)
  | .insert c score => some (c, .testStop true score)
  | .zinsert c score => some (c, .testStop false score)
  | .stop c => some (c, .stopTest false)
  | .wait c => some (c, .join false 0)
  | .destroy c => some (c, .stopTest true)
  | _ => none

/-- The steps that neither begin a call nor wait for a time-out. -/
def Act.prompt : Act n S → Bool
  | .client _ | .notifyOne _ _ | .worker _ | .finish _ _ => true
  | .relock _ timedOut => !timedOut
  | _ => false

section ClientMoves

variable [LinearOrder S] {T : Tasks S Q} {s s' : State n S Q} {a : Act n S} {c : Cid}

omit [LinearOrder S] in
theorem clientStep_moves (hs : clientStep T s c = some s') :
    (s'.halted ≠ none ∧ s'.client = s.client) ∨
      ∃ p, s'.client = Function.update s.client c p ∧ ClientMoves s.mStop (s.client c) p := by
  unfold clientStep at hs
  split at hs
  case h_1 => cases hs
  case h_2 plain score hc =>
    cases hs
    refine Or.inr ⟨_, rfl, ?_⟩
    rw [hc]
    cases hstop : s.mStop
    · exact .pass rfl plain score
    · exact .refuse rfl plain score
  case h_3 hc =>
    split at hs <;> cases hs
    exact Or.inr ⟨_, rfl, hc ▸ .lock _ _⟩
  case h_4 hc =>
    simp only at hs
    split at hs <;> cases hs
    · exact Or.inr ⟨_, rfl, hc ▸ .push _ _⟩
    · exact Or.inl ⟨by simp, rfl⟩
  case h_5 hc =>
    split at hs <;> cases hs
    exact Or.inr ⟨_, rfl, hc ▸ .notify⟩
  case h_6 hc =>
    cases hs
    exact Or.inr ⟨_, rfl, hc ▸ .unlock⟩
  case h_7 dtor hc =>
    cases hs
    refine Or.inr ⟨_, rfl, ?_⟩
    rw [hc]
    cases hstop : s.mStop
    · exact .test dtor rfl
    · exact .stopped dtor rfl
  case h_8 hc =>
    cases hs
    exact Or.inr ⟨_, rfl, hc ▸ .set _⟩
  case h_9 hc =>
    split at hs <;> cases hs
    exact Or.inr ⟨_, rfl, hc ▸ .exitLock _⟩
  case h_10 hc =>
    cases hs
    exact Or.inr ⟨_, rfl, hc ▸ .exitNotify _⟩
  case h_11 hc =>
    cases hs
    exact Or.inr ⟨_, rfl, hc ▸ .exitUnlock _⟩
  case h_12 dtor i hc =>
    split at hs
    · split at hs
      · split at hs <;> cases hs
        exact Or.inr ⟨_, rfl, hc ▸ .join dtor i⟩
      · cases hs
        refine Or.inr ⟨_, rfl, ?_⟩
        rw [hc]
        split
        · exact .join dtor i
        · exact .leave dtor i
    · cases hs
      exact Or.inr ⟨_, rfl, hc ▸ .leave dtor i⟩

theorem workerStep_client {w : Fin n} (hs : workerStep T s w = some s') :
    s'.client = s.client := by
  unfold workerStep at hs
  split at hs <;> (try split at hs) <;> cases hs <;> rfl

/-- A step leaves a client where it is, moves it along, or is its call. -/
theorem step_client (hs : step T s a = some s') (c : Cid) :
    s'.client c = s.client c ∨ ClientMoves s.mStop (s.client c) (s'.client c) ∨
      a.entry = some (c, s'.client c) := by
  have hupdate : ∀ {d : Cid} {p : ClientPc S}, s'.client = Function.update s.client d p →
      (ClientMoves s.mStop (s.client d) p ∨ a.entry = some (d, p)) →
      s'.client c = s.client c ∨ ClientMoves s.mStop (s.client c) (s'.client c) ∨
        a.entry = some (c, s'.client c) := by
    intro d p hd hp
    by_cases hdc : d = c
    · subst hdc
      rw [hd, Function.update_self]
      exact Or.inr hp
    · exact Or.inl (by rw [hd, Function.update_of_ne (Ne.symm hdc)])
  unfold step at hs
  split at hs
  case h_1 => cases hs
  case h_7 d _ =>
    rcases clientStep_moves hs with ⟨-, hsame⟩ | ⟨p, hp, hmoves⟩
    · exact Or.inl (by rw [hsame])
    · exact hupdate hp (Or.inl hmoves)
  case h_8 d w _ =>
    split at hs <;> cases hs
    rename_i hd _
    exact hupdate rfl (Or.inl (hd ▸ .notify))
  case h_9 => exact Or.inl (by rw [workerStep_client hs])
  case h_10 =>
    split at hs <;> cases hs
    exact Or.inl rfl
  case h_11 =>
    split at hs <;> (try split at hs) <;> cases hs
    exact Or.inl rfl
  case h_12 =>
    unfold finishStep at hs
    split at hs <;> split at hs <;> cases hs <;> exact Or.inl rfl
  all_goals
    unfold State.enter at hs
    split at hs <;> cases hs
    exact hupdate rfl (Or.inr rfl)

end ClientMoves

end Wish.ThreadPool
