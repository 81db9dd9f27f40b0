import Wish.Machine
import Wish.Core.StaticStablePriorityQueue

/-!
# `wish::priority_thread_pool_base` with one worker

`core/threadpool/thread_pool.h`: clients submit tasks with a score (`zinsert`) or without one
(`insert`), and the worker takes one after the other from `stable_priority_queue` or
`static_stable_priority_queue`. `insert` declares a score, gives it no value, and calls `zinsert`
with it: the score is whatever the caller's action says it is.

`insert_in_order`: the tasks of `insert` are executed in the order of their submission, and no
deque outside the array is touched, as long as each `insert` gets a score that the array has and
that is not above the score of a task of `insert` still waiting.
-/

namespace Wish.PriorityThreadPool

open Machine StablePriorityQueue

/-- A submitted task: how many were submitted before it, and whether by `insert`. -/
structure Job where
  number : ℕ
  plain : Bool
  deriving DecidableEq, Repr

/-- The values of an `int32_t`. -/
abbrev Score := { s : ℤ // -2 ^ 31 ≤ s ∧ s < 2 ^ 31 }

/-- The operations of the queue of a pool. -/
structure Tasks (S Q : Type*) where
  emplace : Q → Item S Job → Q × Except Fault Unit
  top : Q → Except Fault (Item S Job)
  pop : Q → Q × Except Fault Unit
  empty : Q → Bool

namespace Tasks

/-- The queue of `stable_priority_thread_pool`. -/
def stable : Tasks Score (Queue Score Job) where
  emplace q item := (q.emplace id item, .ok ())
  top := Queue.top
  pop := Queue.pop
  empty := Queue.empty

/-- The queue of `static_stable_priority_thread_pool<N>`. -/
def static (n : ℕ) : Tasks ℕ (StaticQueue n Job) where
  emplace := StaticQueue.emplace
  top := StaticQueue.top
  pop := StaticQueue.pop
  empty := StaticQueue.empty

variable {S Q : Type*} [LinearOrder S]

/-- The queues `q` with `R q l` hold the items `l`: such a queue takes the scores `ok`, and gives
back the earliest item of the highest score. -/
structure Lawful (T : Tasks S Q) (new : Q) (ok : S → Prop) (R : Q → List (Item S Job) → Prop) :
    Prop where
  new : R new []
  emplace : ∀ {q l item}, R q l → ok item.score →
    (T.emplace q item).2 = .ok () ∧ R (T.emplace q item).1 (l ++ [item])
  empty : ∀ {q l}, R q l → (T.empty q = true ↔ l = [])
  pop : ∀ {q l}, R q l → l ≠ [] → ∃ item, best l = some item ∧ T.top q = .ok item ∧
    (T.pop q).2 = .ok () ∧ R (T.pop q).1 (removeBest l)

theorem lawful_stable : Lawful stable Queue.new (fun _ => True) Rep where
  new := rep_new
  emplace h _ := ⟨rfl, (rep_call h (.emplace _)).1⟩
  empty := rep_empty_iff
  pop := by
    intro q l h hne
    obtain ⟨hrep, hpop⟩ := rep_call h .pop
    have htop := (rep_call h .top).2
    obtain ⟨i, l, rfl⟩ := List.exists_cons_of_ne_nil hne
    simp only [call, specCall] at hrep hpop htop
    have hok : q.pop.2 = .ok () := by
      cases hq : q.pop.2 with
      | error e =>
        rw [hq] at hpop
        cases hpop
      | ok u => rfl
    cases hq : q.top with
    | error e =>
      rw [hq] at htop
      cases hbest : best (i :: l) <;> rw [hbest] at htop
      · -- a queue whose `top` throws is empty
        have hnone : q.mSortedQueue.begin? = none := by
          by_contra hsome
          obtain ⟨⟨key, deque⟩, hb⟩ := Option.ne_none_iff_exists'.mp hsome
          obtain ⟨⟨item, rest, rfl⟩, -, -⟩ := rep_begin_some h hb
          rw [Queue.top, hb] at hq
          cases hq
        cases rep_begin_none h hnone
      · cases htop
    | ok item =>
      rw [hq] at htop
      cases hbest : best (i :: l) <;> rw [hbest] at htop <;> cases htop
      exact ⟨item, rfl, hq, hok, hrep⟩

theorem lawful_static (n : ℕ) : Lawful (static n) StaticQueue.new (· < n) StaticRep where
  new := staticRep_new
  emplace h hlt := h.emplace hlt
  empty h := by simp [static, StaticQueue.empty, StaticQueue.size, h.size]
  pop h hne := by
    rcases h.scan with ⟨rfl, -⟩ | hpop
    · exact absurd rfl hne
    · exact hpop

end Tasks

/-- Where the worker is. -/
inductive Worker (S : Type*) where
  /-- `while(!m_stop)` -/
  | check
  /-- `block_pop_item` -/
  | pop
  /-- `if (!m_stop)`, with the task taken -/
  | got (item : Item S Job)
  /-- `task()` -/
  | run
  | exited

namespace Worker

/-- The task that has been taken and not begun. -/
def job {S : Type*} : Worker S → List Job
  | .got item => [item.mFunc]
  | .check | .pop | .run | .exited => []

end Worker

structure Pool (ι S Q : Type*) where
  mTasks : Q
  mStop : Bool
  worker : Worker S
  /-- the clients between the test of `m_stop` and `push_item`: whether in `insert`, and the score -/
  client : ι → Option (Bool × S)
  /-- what the program has run into -/
  fault : Option Fault
  /-- the items emplaced and not taken -/
  waiting : List (Item S Job)
  /-- the number of items emplaced -/
  pushed : ℕ
  /-- the tasks begun, in this order -/
  executed : List Job

inductive Act (ι S : Type*) where
  /-- `insert`, where `score` is what the variable without a value holds -/
  | insert (t : ι) (score : S)
  | zinsert (t : ι) (score : S)
  /-- `push_item` of the client -/
  | push (t : ι)
  /-- a step of the worker -/
  | work
  | stop

/-- The scores of `insert` are all `v`, and the queue has a deque for each score. -/
def Act.Takes {ι S : Type*} (ok : S → Prop) (v : S) : Act ι S → Prop
  | .insert _ score => score = v
  | .zinsert _ score => ok score
  | .push _ | .work | .stop => True

namespace Pool

variable {ι S Q : Type*} [LinearOrder S]

def init (new : Q) : Pool ι S Q := ⟨new, false, .check, fun _ => none, none, [], 0, []⟩

variable [DecidableEq ι]

/-- `zinsert` up to `push_item`: it throws if the pool has been stopped. -/
def submit (s : Pool ι S Q) (t : ι) (plain : Bool) (score : S) : Option (Pool ι S Q) :=
  match s.client t with
  | none =>
    if s.mStop then some s
    else some { s with client := Function.update s.client t (some (plain, score)) }
  | some _ => none

def pushItem (T : Tasks S Q) (s : Pool ι S Q) (t : ι) (item : Item S Job) : Pool ι S Q :=
  match T.emplace s.mTasks item with
  | (q, .ok ()) =>
    { s with
      mTasks := q
      client := Function.update s.client t none
      waiting := s.waiting ++ [item]
      pushed := s.pushed + 1 }
  | (q, .error e) => { s with mTasks := q, fault := some e }

/-- `block_pop_item`; the wait for an empty queue runs out. -/
def blockPopItem (T : Tasks S Q) (s : Pool ι S Q) : Pool ι S Q :=
  if T.empty s.mTasks then { s with worker := .check }
  else match T.top s.mTasks, T.pop s.mTasks with
    | .ok item, (q, .ok ()) =>
      { s with mTasks := q, worker := .got item, waiting := s.waiting.erase item }
    | .error e, _ => { s with fault := some e }
    | .ok _, (q, .error e) => { s with mTasks := q, fault := some e }

def work (T : Tasks S Q) (s : Pool ι S Q) : Option (Pool ι S Q) :=
  match s.worker with
  | .check => some { s with worker := if s.mStop then .exited else .pop }
  | .pop => some (s.blockPopItem T)
  | .got item =>
    if s.mStop then some { s with worker := .check }
    else some { s with worker := .run, executed := s.executed ++ [item.mFunc] }
  | .run => some { s with worker := .check }
  | .exited => none

/-- Nothing is defined after a fault. -/
def step (T : Tasks S Q) (s : Pool ι S Q) (a : Act ι S) : Option (Pool ι S Q) :=
  match s.fault, a with
  | none, .insert t score => s.submit t true score
  | none, .zinsert t score => s.submit t false score
  | none, .push t =>
    (s.client t).map fun c => s.pushItem T t ⟨⟨s.pushed, c.1⟩, c.2⟩
  | none, .work => s.work T
  | none, .stop => some { s with mStop := true }
  | some _, _ => none

/-- The tasks of `insert` are executed in the order of their submission. -/
def InOrder (s : Pool ι S Q) : Prop :=
  (s.executed.filter Job.plain).Pairwise fun i j => i.number < j.number

/-- The queue has a deque for the score that is pushed, and no task of `insert` with a lower score
waits when another one is pushed. -/
def Steady (ok : S → Prop) (s : Pool ι S Q) (a : Act ι S) : Prop :=
  ∀ t plain score, a = .push t → s.client t = some (plain, score) →
    ok score ∧ (plain = true → ∀ i ∈ s.waiting, i.mFunc.plain = true → score ≤ i.score)

/-- The tasks of `insert` that have been begun, are about to be, or wait. -/
def line (s : Pool ι S Q) : List Job :=
  (s.executed ++ s.worker.job ++ s.waiting.map Item.mFunc).filter Job.plain

structure Ordered (R : Q → List (Item S Job) → Prop) (s : Pool ι S Q) : Prop where
  holds : R s.mTasks s.waiting
  fault : s.fault = none
  line : s.line.Pairwise fun i j => i.number < j.number
  below : ∀ i ∈ s.line, i.number < s.pushed
  falling : s.waiting.Pairwise fun i j =>
    i.mFunc.plain = true → j.mFunc.plain = true → j.score ≤ i.score

variable {T : Tasks S Q} {new : Q} {ok : S → Prop} {R : Q → List (Item S Job) → Prop}
  {s s' : Pool ι S Q} {a : Act ι S} {item : Item S Job}

omit [DecidableEq ι] in
/-- What holds while the queue and the clients' tasks stay. -/
theorem Ordered.of_sublist (h : Ordered R s) (htasks : s'.mTasks = s.mTasks)
    (hwaiting : s'.waiting = s.waiting) (hfault : s'.fault = none) (hpushed : s'.pushed = s.pushed)
    (hline : s'.line.Sublist s.line) : Ordered R s' where
  holds := htasks ▸ hwaiting ▸ h.holds
  fault := hfault
  line := h.line.sublist hline
  below i hi := hpushed ▸ h.below i (hline.subset hi)
  falling := hwaiting ▸ h.falling

omit [LinearOrder S] [DecidableEq ι] in
theorem line_append (s : Pool ι S Q) (l : List (Item S Job)) :
    ({ s with waiting := s.waiting ++ l } : Pool ι S Q).line =
      s.line ++ (l.map Item.mFunc).filter Job.plain := by
  simp [line]

omit [LinearOrder S] in
/-- `push_item` where `emplace` returns. -/
theorem pushItem_eq (t : ι) (h : (T.emplace s.mTasks item).2 = .ok ()) :
    s.pushItem T t item =
      { s with
        mTasks := (T.emplace s.mTasks item).1
        client := Function.update s.client t none
        waiting := s.waiting ++ [item]
        pushed := s.pushed + 1 } := by
  unfold Pool.pushItem
  generalize T.emplace s.mTasks item = r at h
  obtain ⟨q, out⟩ := r
  cases h
  rfl

theorem Ordered.pushItem (L : T.Lawful new ok R) (h : Ordered R s) (t : ι) {plain : Bool}
    {score : S} (hok : ok score)
    (hplain : plain = true → ∀ i ∈ s.waiting, i.mFunc.plain = true → score ≤ i.score) :
    Ordered R (s.pushItem T t ⟨⟨s.pushed, plain⟩, score⟩) := by
  have hitem : (T.emplace s.mTasks ⟨⟨s.pushed, plain⟩, score⟩).2 = .ok () ∧
      R (T.emplace s.mTasks ⟨⟨s.pushed, plain⟩, score⟩).1
        (s.waiting ++ [⟨⟨s.pushed, plain⟩, score⟩]) := L.emplace h.holds hok
  obtain ⟨hout, hholds⟩ := hitem
  have hnext := pushItem_eq t hout
  have hline : (s.pushItem T t ⟨⟨s.pushed, plain⟩, score⟩).line =
      s.line ++ [⟨s.pushed, plain⟩].filter Job.plain := by
    rw [hnext]
    exact line_append s _
  have hnew : ∀ j ∈ [(⟨s.pushed, plain⟩ : Job)].filter Job.plain, j = ⟨s.pushed, plain⟩ := by
    intro j hj
    exact List.mem_singleton.mp (List.mem_of_mem_filter hj)
  have hpushed : (s.pushItem T t ⟨⟨s.pushed, plain⟩, score⟩).pushed = s.pushed + 1 := by rw [hnext]
  refine ⟨?_, ?_, ?_, fun i hi => ?_, ?_⟩
  · rw [hnext]
    exact hholds
  · rw [hnext]
    exact h.fault
  · rw [hline]
    refine List.pairwise_append.mpr ⟨h.line, (List.pairwise_singleton _ _).filter _, ?_⟩
    intro i hi j hj
    rw [hnew j hj]
    exact h.below i hi
  · rw [hpushed]
    rw [hline] at hi
    rcases List.mem_append.mp hi with hi | hi
    · exact (h.below i hi).trans (Nat.lt_succ_self _)
    · rw [hnew i hi]
      exact Nat.lt_succ_self _
  · rw [hnext]
    refine List.pairwise_append.mpr ⟨h.falling, List.pairwise_singleton _ _, ?_⟩
    intro i hi j hj hpi hpj
    rw [List.mem_singleton.mp hj] at hpj ⊢
    exact hplain hpj i hi hpi

omit [DecidableEq ι] in
/-- No task of `insert` waits in front of one that is taken. -/
theorem Ordered.front (h : Ordered R s) (hbest : best s.waiting = some item) :
    ∃ u v, s.waiting = u ++ item :: v ∧ item ∉ u ∧ removeBest s.waiting = u ++ v ∧
      (item.mFunc.plain = true → ∀ i ∈ u, i.mFunc.plain = false) := by
  obtain ⟨hlead, u, v, hwaiting, hu⟩ := List.find?_eq_some_iff_append.mp hbest
  have hlead : Leads s.waiting item := of_decide_eq_true hlead
  have hnot : ∀ i ∈ u, ¬ Leads s.waiting i := fun i hi => by simpa using hu i hi
  refine ⟨u, v, hwaiting, fun hmem => hnot item hmem hlead, ?_, fun hplain i hi => ?_⟩
  · have herase : (u ++ item :: v).eraseP (fun i => Leads s.waiting i) = u ++ v := by
      rw [List.eraseP_append_right _ fun i hi => by simpa using hnot i hi,
        List.eraseP_cons_of_pos (by simpa using hlead)]
    unfold removeBest
    rw [← herase, ← hwaiting]
  · by_contra hi'
    have hfalling := h.falling
    rw [hwaiting] at hfalling
    have hle : item.score ≤ i.score :=
      (List.pairwise_append.mp hfalling).2.2 i hi item List.mem_cons_self
        (by simpa using hi') hplain
    exact hnot i hi fun j hj => (hlead j hj).trans hle

omit [DecidableEq ι] in
/-- `block_pop_item` where there is an item. -/
theorem blockPopItem_eq {l : List (Item S Job)} (hempty : ¬ T.empty s.mTasks = true)
    (htop : T.top s.mTasks = .ok item) (hpop : (T.pop s.mTasks).2 = .ok ())
    (herase : s.waiting.erase item = l) :
    s.blockPopItem T =
      { s with mTasks := (T.pop s.mTasks).1, worker := .got item, waiting := l } := by
  rw [Pool.blockPopItem, if_neg hempty, htop, ← herase]
  generalize T.pop s.mTasks = r at hpop
  obtain ⟨q, out⟩ := r
  cases hpop
  rfl

omit [DecidableEq ι] in
theorem Ordered.blockPopItem (L : T.Lawful new ok R) (h : Ordered R s) (hw : s.worker = .pop) :
    Ordered R (s.blockPopItem T) := by
  by_cases hempty : T.empty s.mTasks = true
  · rw [Pool.blockPopItem, if_pos hempty]
    refine h.of_sublist rfl rfl h.fault rfl ?_
    simp [Pool.line, hw, Worker.job]
  · have hne : s.waiting ≠ [] := fun hnil => hempty ((L.empty h.holds).mpr hnil)
    obtain ⟨item, hbest, htop, hpop, hholds⟩ := L.pop h.holds hne
    obtain ⟨u, v, hwaiting, hu, hremove, hfront⟩ := h.front hbest
    have herase : s.waiting.erase item = u ++ v := by
      rw [hwaiting, List.erase_append_right _ hu, List.erase_cons_head]
    have hnext := blockPopItem_eq hempty htop hpop herase
    have hline : (s.blockPopItem T).line = s.line := by
      rw [hnext]
      simp only [Pool.line, hw, Worker.job, hwaiting, List.map_append, List.map_cons,
        List.filter_append, List.filter_cons, List.filter_nil]
      cases hplain : item.mFunc.plain with
      | false => simp
      | true =>
        have hnone : (u.map Item.mFunc).filter Job.plain = [] := by
          refine List.filter_eq_nil_iff.mpr fun j hj => ?_
          obtain ⟨i, hi, rfl⟩ := List.mem_map.mp hj
          simp [hfront hplain i hi]
        simp [hnone]
    refine ⟨?_, ?_, hline ▸ h.line, fun i hi => ?_, ?_⟩
    · rw [hnext]
      exact hremove ▸ hholds
    · rw [hnext]
      exact h.fault
    · have hpushed : (s.blockPopItem T).pushed = s.pushed := by rw [hnext]
      rw [hpushed]
      exact h.below i (hline ▸ hi)
    · rw [hnext]
      have hsub : (u ++ v).Sublist s.waiting := by
        rw [hwaiting]
        exact (List.sublist_cons_self item v).append_left u
      exact h.falling.sublist hsub

omit [DecidableEq ι] in
theorem Ordered.work (L : T.Lawful new ok R) (h : Ordered R s) (hs : s.work T = some s') :
    Ordered R s' := by
  unfold Pool.work at hs
  cases hw : s.worker <;> rw [hw] at hs
  case check =>
    cases hs
    refine h.of_sublist rfl rfl h.fault rfl ?_
    cases s.mStop <;> simp [Pool.line, hw, Worker.job]
  case pop =>
    cases hs
    exact h.blockPopItem L hw
  case got item =>
    simp only at hs
    split at hs <;> cases hs
    · refine h.of_sublist rfl rfl h.fault rfl (List.Sublist.filter _ ?_)
      simp [hw, Worker.job]
    · refine h.of_sublist rfl rfl h.fault rfl ?_
      simp [Pool.line, hw, Worker.job]
  case run =>
    cases hs
    refine h.of_sublist rfl rfl h.fault rfl ?_
    simp [Pool.line, hw, Worker.job]
  case exited => cases hs

theorem Ordered.submit (h : Ordered R s) {t : ι} {plain : Bool} {score : S}
    (hs : s.submit t plain score = some s') : Ordered R s' := by
  unfold Pool.submit at hs
  split at hs
  · split at hs <;> cases hs
    · exact h
    · exact h.of_sublist rfl rfl h.fault rfl (List.Sublist.refl _)
  · cases hs

theorem Ordered.step (L : T.Lawful new ok R) (h : Ordered R s) (hsteady : Steady ok s a)
    (hs : step T s a = some s') : Ordered R s' := by
  unfold Pool.step at hs
  rw [h.fault] at hs
  cases a with
  | insert t score => exact h.submit hs
  | zinsert t score => exact h.submit hs
  | push t =>
    obtain ⟨⟨plain, score⟩, hclient, rfl⟩ := Option.map_eq_some_iff.mp hs
    obtain ⟨hok, hplain⟩ := hsteady t plain score rfl hclient
    exact h.pushItem L t hok hplain
  | work => exact h.work L hs
  | stop =>
    cases hs
    exact h.of_sublist rfl rfl rfl rfl (List.Sublist.refl _)

omit [DecidableEq ι] in
theorem ordered_init (L : T.Lawful new ok R) : Ordered R (init new : Pool ι S Q) :=
  ⟨L.new, rfl, .nil, nofun, .nil⟩

/-- The run lemma, for either queue. -/
theorem in_order_of_lawful (L : T.Lawful new ok R) {as : List (Act ι S)}
    (h : Guarded (step T) (Steady ok) (init new) as s) : s.fault = none ∧ s.InOrder := by
  have hordered : Ordered R s :=
    guarded_invariant (ordered_init L) (fun _ _ _ hi hc hs => hi.step L hc hs) h
  refine ⟨hordered.fault, hordered.line.sublist (List.Sublist.filter _ ?_)⟩
  rw [List.append_assoc]
  exact List.sublist_append_left _ _

/-! ## A variable that always holds the same -/

/-- The tasks submitted so far have such scores. -/
structure Level (ok : S → Prop) (v : S) (s : Pool ι S Q) : Prop where
  client : ∀ t plain score, s.client t = some (plain, score) →
    ok score ∧ (plain = true → score = v)
  waiting : ∀ i ∈ s.waiting, i.mFunc.plain = true → i.score = v

variable {v : S}

omit [LinearOrder S] in
/-- The task of one client changes. -/
theorem Level.update (h : Level ok v s) (t : ι) {c : Option (Bool × S)}
    (hc : ∀ plain score, c = some (plain, score) → ok score ∧ (plain = true → score = v)) :
    ∀ u plain score, Function.update s.client t c u = some (plain, score) →
      ok score ∧ (plain = true → score = v) := by
  intro u plain score hu
  by_cases hut : u = t
  · subst hut
    rw [Function.update_self] at hu
    exact hc plain score hu
  · rw [Function.update_of_ne hut] at hu
    exact h.client u plain score hu

omit [LinearOrder S] in
theorem Level.submit (h : Level ok v s) {t : ι} {plain : Bool} {score : S}
    (hnew : ok score ∧ (plain = true → score = v)) (hs : s.submit t plain score = some s') :
    Level ok v s' := by
  unfold Pool.submit at hs
  split at hs
  · split at hs <;> cases hs
    · exact h
    · refine ⟨h.update t fun plain' score' he => ?_, h.waiting⟩
      cases he
      exact hnew
  · cases hs

omit [LinearOrder S] in
theorem Level.pushItem (h : Level ok v s) {t : ι} {plain : Bool} {score : S} {number : ℕ}
    (hclient : s.client t = some (plain, score)) :
    Level ok v (s.pushItem T t ⟨⟨number, plain⟩, score⟩) := by
  unfold Pool.pushItem
  split
  · refine ⟨h.update t nofun, fun i hi hplain => ?_⟩
    rcases List.mem_append.mp hi with hi | hi
    · exact h.waiting i hi hplain
    · rw [List.mem_singleton.mp hi] at hplain ⊢
      exact (h.client t plain score hclient).2 hplain
  · exact ⟨h.client, h.waiting⟩

omit [DecidableEq ι] in
theorem Level.work (h : Level ok v s) (hs : s.work T = some s') : Level ok v s' := by
  unfold Pool.work at hs
  cases hw : s.worker <;> rw [hw] at hs
  case check =>
    cases hs
    exact ⟨h.client, h.waiting⟩
  case pop =>
    cases hs
    unfold Pool.blockPopItem
    split
    · exact ⟨h.client, h.waiting⟩
    · split
      · exact ⟨h.client, fun i hi => h.waiting i (List.mem_of_mem_erase hi)⟩
      · exact ⟨h.client, h.waiting⟩
      · exact ⟨h.client, h.waiting⟩
  case got item =>
    simp only at hs
    split at hs <;> cases hs <;> exact ⟨h.client, h.waiting⟩
  case run =>
    cases hs
    exact ⟨h.client, h.waiting⟩
  case exited => cases hs

theorem Level.step (h : Level ok v s) (hv : ok v) (ha : a.Takes ok v)
    (hs : step T s a = some s') : Level ok v s' := by
  unfold Pool.step at hs
  split at hs
  · exact h.submit ⟨ha ▸ hv, fun _ => ha⟩ hs
  · next score hfault =>
    have hnew : ok score ∧ (false = true → score = v) := ⟨ha, nofun⟩
    exact h.submit hnew hs
  · obtain ⟨⟨plain, score⟩, hclient, rfl⟩ := Option.map_eq_some_iff.mp hs
    exact h.pushItem hclient
  · exact h.work hs
  · cases hs
    exact ⟨h.client, h.waiting⟩
  · cases hs

/-- A variable that holds the same value at each call makes the scores steady. -/
theorem guarded_of_takes (hv : ok v) {as : List (Act ι S)} (has : ∀ a ∈ as, a.Takes ok v)
    (h : run (step T) (init new) as = some s) :
    Guarded (step T) (Steady ok) (init new) as s := by
  have htakes : Guarded (step T) (fun _ a => a.Takes ok v) (init new) as s :=
    guarded_of_mem (fun a ha _ => has a ha) h
  have hinit : Level ok v (init new : Pool ι S Q) := ⟨nofun, nofun⟩
  clear h has
  induction htakes with
  | nil => exact .nil
  | snoc hrun hcond hnext ih =>
    refine .snoc ih (fun t plain score _ hclient => ?_) hnext
    have hlevel := guarded_invariant hinit (fun _ _ _ hi hc hs => hi.step hv hc hs) hrun
    obtain ⟨hok, hplain⟩ := hlevel.client t plain score hclient
    refine ⟨hok, fun hp i hi hpi => ?_⟩
    rw [hplain hp, hlevel.waiting i hi hpi]

/-- Two tasks are submitted with `insert`, and there is time to execute them. -/
def twice (v w : S) : List (Act Unit S) :=
  [.insert () v, .push (), .insert () w, .push ()] ++ .replicate 8 .work

omit [LinearOrder S] in
theorem takes_twice (ok : S → Prop) (v : S) : ∀ a ∈ twice v v, a.Takes ok v := by
  intro a ha
  rcases List.mem_append.mp ha with ha | ha
  · simp only [List.mem_cons, List.not_mem_nil, or_false] at ha
    rcases ha with rfl | rfl | rfl | rfl
    all_goals trivial
  · rw [List.eq_of_mem_replicate ha]
    trivial

/-- **The tasks of `insert` keep their order** in both pools, and the array is not left, in all runs
in which the scores of `insert` are steady. -/
theorem insert_in_order :
    (∀ (as : List (Act ι Score)) s, Guarded (step .stable) (Steady fun _ => True)
      (init Queue.new) as s → s.fault = none ∧ s.InOrder) ∧
    ∀ n (as : List (Act ι ℕ)) s, Guarded (step (.static n)) (Steady (· < n))
      (init StaticQueue.new) as s → s.fault = none ∧ s.InOrder :=
  ⟨fun _ _ h => in_order_of_lawful Tasks.lawful_stable h,
    fun n _ _ h => in_order_of_lawful (Tasks.lawful_static n) h⟩

/-- A score of each pool. -/
def zero : Score := ⟨0, by decide⟩

theorem insert_in_order_twice :
    ∃ (s : Pool Unit Score (Queue Score Job)) (s' : Pool Unit ℕ (StaticQueue 1 Job)),
      run (step .stable) (init Queue.new) (twice zero zero) = some s ∧
      run (step (.static 1)) (init StaticQueue.new) (twice 0 0) = some s' ∧
      s.executed = [⟨0, true⟩, ⟨1, true⟩] ∧ s'.executed = [⟨0, true⟩, ⟨1, true⟩] ∧
      (s.fault = none ∧ s.InOrder) ∧ s'.fault = none ∧ s'.InOrder := by
  refine ⟨_, _, rfl, rfl, rfl, rfl, insert_in_order.1 (twice zero zero) _ ?_,
    insert_in_order.2 1 (twice 0 0) _ ?_⟩
  · exact guarded_of_takes trivial (takes_twice (fun _ => True) zero) rfl
  · exact guarded_of_takes (by exact Nat.one_pos) (takes_twice (· < 1) 0) rfl

/-- The variable holds 0 at the first call and 1 at the second: the second task is executed before
the first, and the array of one deque is left. -/
theorem not_in_order_twice :
    (∃ s : Pool Unit Score (Queue Score Job),
      run (step .stable) (init Queue.new) (twice zero ⟨1, by decide⟩) = some s ∧
        s.executed = [⟨1, true⟩, ⟨0, true⟩] ∧ ¬ s.InOrder) ∧
    ∃ s : Pool Unit ℕ (StaticQueue 1 Job),
      run (step (.static 1)) (init StaticQueue.new)
        [.insert () 0, .push (), .insert () 1, .push ()] = some s ∧ s.fault = some .undefined := by
  refine ⟨⟨_, rfl, rfl, ?_⟩, _, rfl, rfl⟩
  unfold InOrder
  decide

end Pool

end Wish.PriorityThreadPool
