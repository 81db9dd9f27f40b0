import Wish.Core.StablePriorityQueue
import Mathlib.Data.Nat.Basic

/-!
# `wish::static_stable_priority_queue`

`core/threadpool/thread_pool.h`: an array of `Size` deques, one for each score, that `top` and
`pop` scan from the back for one that is not empty.

`StaticRep q l` says that the queue holds the items `l`, as `Rep` does for
`stable_priority_queue`; `static_call` is the step lemma. Both classes therefore show what the
same list of items shows, and `same_trace` compares them call by call.
-/

namespace Wish.StablePriorityQueue

/-- The members of the class, with `Size` deques. `m_size` counts items in memory, so it does not
wrap. -/
structure StaticQueue (n : Nat) (F : Type*) where
  mSize : Nat
  mSortedQueue : Vector (List (Item Nat F)) n

variable {n : Nat} {F : Type*}

namespace StaticQueue

def new : StaticQueue n F := ⟨0, Vector.replicate n []⟩

/-- The loop of `top`, before the deques `i - 1`, …, `0`. -/
def topFrom (q : StaticQueue n F) : (i : Nat) → i ≤ n → Except Fault (Item Nat F)
  | 0, _ => .error (.logicError "empty queue")
  | i + 1, hi =>
    match q.mSortedQueue[i] with
    | item :: _ => .ok item
    | [] => q.topFrom i (Nat.le_of_succ_le hi)

def top (q : StaticQueue n F) : Except Fault (Item Nat F) := q.topFrom n (Nat.le_refl _)

/-- The loop of `pop`. -/
def popFrom (q : StaticQueue n F) : (i : Nat) → i ≤ n → StaticQueue n F × Except Fault Unit
  | 0, _ => (q, .error (.logicError "empty queue"))
  | i + 1, hi =>
    match q.mSortedQueue[i] with
    | _ :: rest => (⟨q.mSize - 1, q.mSortedQueue.set i rest⟩, .ok ())
    | [] => q.popFrom i (Nat.le_of_succ_le hi)

def pop (q : StaticQueue n F) : StaticQueue n F × Except Fault Unit :=
  q.popFrom n (Nat.le_refl _)

def size (q : StaticQueue n F) : Nat := q.mSize

def empty (q : StaticQueue n F) : Bool := q.size == 0

def emplace (q : StaticQueue n F) (item : Item Nat F) : StaticQueue n F × Except Fault Unit :=
  if h : item.score < n then
    (⟨q.mSize + 1, q.mSortedQueue.set item.score (q.mSortedQueue[item.score] ++ [item])⟩, .ok ())
  else (q, .error .undefined)

/-- The first deque that is not empty, from the back. -/
theorem scan (q : StaticQueue n F) (i : Nat) (hi : i ≤ n) :
    ((∀ j, (hj : j < i) → q.mSortedQueue[j] = []) ∧
      q.topFrom i hi = .error (.logicError "empty queue") ∧
      q.popFrom i hi = (q, .error (.logicError "empty queue"))) ∨
    (∃ j item rest, ∃ hj : j < i, q.mSortedQueue[j] = item :: rest ∧
      (∀ k, j < k → (hk : k < i) → q.mSortedQueue[k] = []) ∧ q.topFrom i hi = .ok item ∧
      q.popFrom i hi = (⟨q.mSize - 1, q.mSortedQueue.set j rest⟩, .ok ())) := by
  induction i with
  | zero => exact Or.inl ⟨fun j hj => absurd hj (Nat.not_lt_zero j), rfl, rfl⟩
  | succ i ih =>
    cases hdeque : q.mSortedQueue[i] with
    | cons item rest =>
      refine Or.inr ⟨i, item, rest, Nat.lt_succ_self i, hdeque, ?_, ?_, ?_⟩
      · intro k hk hki
        omega
      · simp [topFrom, hdeque]
      · simp [popFrom, hdeque]
    | nil =>
      have htop : q.topFrom (i + 1) hi = q.topFrom i (Nat.le_of_succ_le hi) := by
        simp [topFrom, hdeque]
      have hpop : q.popFrom (i + 1) hi = q.popFrom i (Nat.le_of_succ_le hi) := by
        simp [popFrom, hdeque]
      have hlast : ∀ k, i ≤ k → (hk : k < i + 1) → q.mSortedQueue[k] = [] := by
        intro k hik hk
        obtain rfl : k = i := by omega
        exact hdeque
      rw [htop, hpop]
      rcases ih (Nat.le_of_succ_le hi) with ⟨hnil, hend⟩ | ⟨j, item, rest, hj, hcons, hnil, hend⟩
      · refine Or.inl ⟨fun j hj => ?_, hend⟩
        by_cases hij : j < i
        · exact hnil j hij
        · exact hlast j (by omega) hj
      · refine Or.inr ⟨j, item, rest, by omega, hcons, fun k hjk hk => ?_, hend⟩
        by_cases hik : k < i
        · exact hnil k hjk hik
        · exact hlast k (by omega) hk

end StaticQueue

/-- The queue `q` holds the items `l`. -/
structure StaticRep (q : StaticQueue n F) (l : List (Item Nat F)) : Prop where
  size : q.mSize = l.length
  buckets : ∀ s, (hs : s < n) → q.mSortedQueue[s] = bucket l s
  lt : ∀ i ∈ l, i.score < n

theorem staticRep_new : StaticRep (StaticQueue.new : StaticQueue n F) [] := by
  refine ⟨rfl, fun s hs => ?_, fun i hi => absurd hi List.not_mem_nil⟩
  simp [StaticQueue.new]

variable {q : StaticQueue n F} {l : List (Item Nat F)} {item : Item Nat F}

theorem StaticRep.emplace (h : StaticRep q l) (hlt : item.score < n) :
    (q.emplace item).2 = .ok () ∧ StaticRep (q.emplace item).1 (l ++ [item]) := by
  have hsize := h.size
  rw [StaticQueue.emplace, dif_pos hlt]
  refine ⟨rfl, by simp [hsize], fun s hs => ?_, fun i hi => ?_⟩
  · have happ : bucket (l ++ [item]) s = bucket l s ++ if item.score = s then [item] else [] := by
      by_cases hi : item.score = s <;> simp [bucket, hi]
    rw [happ, Vector.getElem_set, h.buckets s hs, h.buckets _ hlt]
    by_cases hi : item.score = s
    · simp [hi]
    · simp [hi]
  · rcases List.mem_append.mp hi with hi | hi
    · exact h.lt i hi
    · obtain rfl := List.mem_singleton.mp hi
      exact hlt

/-- The items that lead `l` are those of the deque that the scan comes to. -/
theorem StaticRep.leads {j : Nat} {rest : List (Item Nat F)} (h : StaticRep q l) (hj : j < n)
    (hcons : q.mSortedQueue[j] = item :: rest)
    (hnil : ∀ k, j < k → (hk : k < n) → q.mSortedQueue[k] = []) :
    bucket l j = item :: rest ∧ ∀ i ∈ l, Leads l i ↔ i.score = j := by
  have hbucket : bucket l j = item :: rest := by rw [← h.buckets j hj, hcons]
  have hle : ∀ i ∈ l, i.score ≤ j := by
    intro i hi
    by_contra hlt
    have hempty := hnil i.score (by omega) (h.lt i hi)
    rw [h.buckets] at hempty
    exact bucket_ne_nil hi hempty
  have hitem : item ∈ bucket l j := by
    rw [hbucket]
    exact List.mem_cons_self
  obtain ⟨hmem, hscore⟩ := List.mem_filter.mp hitem
  have hscore : item.score = j := of_decide_eq_true hscore
  refine ⟨hbucket, fun i hi => ⟨fun hlead => ?_, fun heq k hk => ?_⟩⟩
  · apply Nat.le_antisymm (hle i hi)
    rw [← hscore]
    exact hlead item hmem
  · rw [heq]
    exact hle k hk

/-- `top` and `pop` on a queue that holds `l`. -/
theorem StaticRep.scan (h : StaticRep q l) :
    (l = [] ∧ q.top = .error (.logicError "empty queue") ∧
      q.pop = (q, .error (.logicError "empty queue"))) ∨
    (∃ item, best l = some item ∧ q.top = .ok item ∧ q.pop.2 = .ok () ∧
      StaticRep q.pop.1 (removeBest l)) := by
  rcases q.scan n (Nat.le_refl _) with ⟨hnil, htop, hpop⟩ | ⟨j, item, rest, hj, hcons, hnil, htop, hpop⟩
  · refine Or.inl ⟨List.eq_nil_iff_forall_not_mem.mpr fun i hi => ?_, htop, hpop⟩
    have hempty := hnil i.score (h.lt i hi)
    rw [h.buckets] at hempty
    exact bucket_ne_nil hi hempty
  · obtain ⟨hbucket, hlead⟩ := h.leads hj hcons hnil
    have hpop' : q.pop = (⟨q.mSize - 1, q.mSortedQueue.set j rest⟩, .ok ()) := hpop
    refine Or.inr ⟨item, by rw [best_eq hlead, hbucket]; rfl, htop, by rw [hpop'], ?_⟩
    have hitem : item ∈ bucket l j := by
      rw [hbucket]
      exact List.mem_cons_self
    obtain ⟨hmem, hscore⟩ := List.mem_filter.mp hitem
    rw [hpop', removeBest_eq hlead]
    refine ⟨?_, fun s hs => ?_, fun i hi => h.lt i (List.mem_of_mem_eraseP hi)⟩
    · rw [List.length_eraseP_of_mem hmem hscore, h.size]
    · rw [bucket_eraseP, hbucket, List.tail_cons, Vector.getElem_set, h.buckets s hs]
      by_cases hjs : j = s
      · simp [hjs]
      · simp [hjs, Ne.symm hjs]

/-! ## The two classes side by side -/

inductive Call (F : Type*) where
  | emplace (item : Item Nat F)
  | top
  | pop
  | size
  | empty

/-- What a call returns. -/
inductive Answer (F : Type*) where
  | nothing
  | item (i : Item Nat F)
  | size (k : Nat)
  | empty (b : Bool)

/-- The calls on a class with the members `Q`. -/
structure Class (Q F : Type*) where
  emplace : Q → Item Nat F → Q × Except Fault Unit
  top : Q → Except Fault (Item Nat F)
  pop : Q → Q × Except Fault Unit
  size : Q → Nat
  empty : Q → Bool

namespace Class

variable {Q : Type*}

def call (c : Class Q F) (q : Q) : Call F → Q × Except Fault (Answer F)
  | .emplace item => ((c.emplace q item).1, (c.emplace q item).2.map fun _ => .nothing)
  | .top => (q, (c.top q).map .item)
  | .pop => ((c.pop q).1, (c.pop q).2.map fun _ => .nothing)
  | .size => (q, .ok (.size (c.size q)))
  | .empty => (q, .ok (.empty (c.empty q)))

/-- What each of the calls leaves and returns. -/
def trace (c : Class Q F) (q : Q) : List (Call F) → List (Q × Except Fault (Answer F))
  | [] => []
  | op :: ops => c.call q op :: c.trace (c.call q op).1 ops

/-- `stable_priority_queue`; a moved `size_t` is what it was. -/
def stable : Class (Queue Nat F) F where
  emplace q item := (q.emplace id item, .ok ())
  top := Queue.top
  pop := Queue.pop
  size := Queue.size
  empty := Queue.empty

def static : Class (StaticQueue n F) F where
  emplace := StaticQueue.emplace
  top := StaticQueue.top
  pop := StaticQueue.pop
  size := StaticQueue.size
  empty := StaticQueue.empty

end Class

/-- Both return the same, or both throw a `std::logic_error`. -/
def Agree : Except Fault (Answer F) → Except Fault (Answer F) → Prop
  | .ok a, .ok b => a = b
  | .error (.logicError _), .error (.logicError _) => True
  | _, _ => False

/-- The same items with each score, in the same order. -/
structure SameItems (q : Queue Nat F) (q' : StaticQueue n F) : Prop where
  size : q.mSize = q'.mSize
  deques : ∀ s, (hs : s < n) → (q.mSortedQueue.get? (.toDual s)).getD [] = q'.mSortedQueue[s]
  none : ∀ s, n ≤ s → q.mSortedQueue.get? (.toDual s) = none

theorem Rep.sameItems {q : Queue Nat F} {q' : StaticQueue n F} (h : Rep q l)
    (h' : StaticRep q' l) : SameItems q q' := by
  refine ⟨h.size.trans h'.size.symm, fun s hs => ?_, fun s hs => ?_⟩
  · rw [h.buckets, h'.buckets s hs]
    split
    · next hnil => rw [hnil, Option.getD_none]
    · rw [Option.getD_some]
  · rw [h.buckets, if_pos]
    rw [List.eq_nil_iff_forall_not_mem]
    intro i hi
    obtain ⟨hmem, hscore⟩ := List.mem_filter.mp hi
    have hscore : i.score = s := of_decide_eq_true hscore
    have hlt := h'.lt i hmem
    omega

/-- The step lemma: a call on two queues that hold the same items. -/
theorem same_call {q : Queue Nat F} {q' : StaticQueue n F} (h : Rep q l) (h' : StaticRep q' l)
    (op : Call F) (hlt : ∀ item, op = .emplace item → item.score < n) :
    ∃ l', Rep (Class.stable.call q op).1 l' ∧ StaticRep (Class.static.call q' op).1 l' ∧
      Agree (Class.stable.call q op).2 (Class.static.call q' op).2 := by
  cases op with
  | emplace item =>
    obtain ⟨hout, hrep⟩ := h'.emplace (hlt item rfl)
    refine ⟨l ++ [item], (rep_call h (.emplace item)).1, hrep, ?_⟩
    simp [Class.call, Class.stable, Class.static, hout, Except.map, Agree]
  | top =>
    refine ⟨l, h, h', ?_⟩
    have htop := (rep_call h .top).2
    simp only [call, specCall] at htop
    rcases h'.scan with ⟨rfl, htop', -⟩ | ⟨item, hbest, htop', -, -⟩
    · cases hq : q.top with
      | error e =>
        rw [hq] at htop
        cases htop
        simp [Class.call, Class.stable, Class.static, hq, htop', Except.map, Agree]
      | ok i =>
        rw [hq] at htop
        cases htop
    · cases hq : q.top with
      | error e =>
        rw [hq, hbest] at htop
        cases htop
      | ok i =>
        rw [hq, hbest] at htop
        cases htop
        simp [Class.call, Class.stable, Class.static, hq, htop', Except.map, Agree]
  | pop =>
    obtain ⟨hrep, hpop⟩ := rep_call h .pop
    simp only [call, specCall] at hrep hpop
    rcases h'.scan with ⟨rfl, -, hpop'⟩ | ⟨item, hbest, -, hpop', hrep'⟩
    · refine ⟨[], hrep, ?_, ?_⟩
      · simpa [Class.call, Class.static, hpop'] using h'
      · cases hq : q.pop.2 with
        | error e =>
          rw [hq] at hpop
          cases hpop
          simp [Class.call, Class.stable, Class.static, hq, hpop', Except.map, Agree]
        | ok u =>
          rw [hq] at hpop
          cases hpop
    · cases l with
      | nil => cases hbest
      | cons i l =>
        refine ⟨removeBest (i :: l), hrep, hrep', ?_⟩
        cases hq : q.pop.2 with
        | error e =>
          rw [hq] at hpop
          cases hpop
        | ok u => simp [Class.call, Class.stable, Class.static, hq, hpop', Except.map, Agree]
  | size =>
    refine ⟨l, h, h', ?_⟩
    simp [Class.call, Class.stable, Class.static, Agree, Queue.size, StaticQueue.size, h.size,
      h'.size]
  | empty =>
    refine ⟨l, h, h', ?_⟩
    simp [Class.call, Class.stable, Class.static, Agree, Queue.empty, Queue.size,
      StaticQueue.empty, StaticQueue.size, h.size, h'.size]

/-- The run lemma. -/
theorem same_calls {q : Queue Nat F} {q' : StaticQueue n F} (h : Rep q l) (h' : StaticRep q' l)
    (ops : List (Call F)) (hlt : ∀ item, .emplace item ∈ ops → item.score < n) :
    List.Forall₂ (fun r r' => SameItems r.1 r'.1 ∧ Agree r.2 r'.2) (Class.stable.trace q ops)
      (Class.static.trace q' ops) := by
  induction ops generalizing q q' l with
  | nil => exact .nil
  | cons op ops ih =>
    have hop : ∀ item, op = .emplace item → item.score < n := by
      intro item hitem
      apply hlt
      rw [hitem]
      exact List.mem_cons_self
    obtain ⟨l', hrep, hrep', hagree⟩ := same_call h h' op hop
    refine .cons ⟨hrep.sameItems hrep', hagree⟩ (ih hrep hrep' fun item hitem => ?_)
    exact hlt item (List.mem_cons_of_mem op hitem)

/-- From new queues on, each call leaves the same items and returns the same. -/
theorem same_trace (ops : List (Call F)) (hlt : ∀ item, .emplace item ∈ ops → item.score < n) :
    List.Forall₂ (fun r r' => SameItems r.1 r'.1 ∧ Agree r.2 r'.2)
      (Class.stable.trace Queue.new ops)
      (Class.static.trace (StaticQueue.new : StaticQueue n F) ops) :=
  same_calls rep_new staticRep_new ops hlt

theorem same_trace_refilled :
    List.Forall₂ (fun r r' => SameItems r.1 r'.1 ∧ Agree r.2 r'.2)
      (Class.stable.trace Queue.new
        [.emplace ⟨'a', 1⟩, .emplace ⟨'b', 2⟩, .top, .pop, .size, .pop, .empty, .pop,
          .emplace ⟨'c', 1⟩, .top])
      (Class.static.trace (StaticQueue.new : StaticQueue 3 Char)
        [.emplace ⟨'a', 1⟩, .emplace ⟨'b', 2⟩, .top, .pop, .size, .pop, .empty, .pop,
          .emplace ⟨'c', 1⟩, .top]) := by
  apply same_trace
  intro item hitem
  simp only [List.mem_cons, Call.emplace.injEq, reduceCtorEq, List.not_mem_nil, or_false,
    false_or] at hitem
  rcases hitem with rfl | rfl | rfl
  all_goals decide

end Wish.StablePriorityQueue
