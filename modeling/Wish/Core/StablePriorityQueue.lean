import Wish.OrdMap
import Mathlib.Order.OrderDual
import Mathlib.Data.String.Basic

/-!
# `wish::stable_priority_queue`

`core/threadpool/thread_pool.h`: a map from scores to deques, sorted from the highest score
down (`comp_more`), with the number of items kept beside it in `m_size`.

The abstract queue is the list of the items held, in the order in which they were emplaced.
`top` shows and `pop` removes `best`, the first item that no other item outranks. The
relation `Rep q l` says that every deque is the part of `l` with its score and that there
is no deque for a score `l` does not have; `rep_call` is the step lemma, `rep_calls` the run
lemma, and `drain_stable` says what emptying the queue yields.

The template is kept generic in the score type; `moved s` is the score that an item with
score `s` is left with once it has been moved from (`s` itself for the integer types).
-/

namespace Wish.StablePriorityQueue

/-- `priority_queue_item`. -/
structure Item (S F : Type*) where
  mFunc : F
  mScore : S
  deriving DecidableEq, Repr

def Item.score {S F : Type*} (item : Item S F) : S := item.mScore

/-- The `std::logic_error`s thrown, and access to the front of an empty deque. -/
inductive Fault where
  | logicError (what : String)
  | undefined
  deriving DecidableEq, Repr

/-- The members of the class. `m_size` counts items in memory, so it does not wrap. -/
structure Queue (S F : Type*) [LinearOrder S] where
  mSize : Nat
  mSortedQueue : OrdMap Sᵒᵈ (List (Item S F))

variable {S F : Type*} [LinearOrder S]

namespace Queue

def new : Queue S F := ⟨0, .empty⟩

def top (q : Queue S F) : Except Fault (Item S F) :=
  match q.mSortedQueue.begin? with
  | none => .error (.logicError "empty queue")
  | some (_, []) => .error .undefined
  | some (_, item :: _) => .ok item

/-- The queue as `pop` leaves it, and how `pop` ends. -/
def pop (q : Queue S F) : Queue S F × Except Fault Unit :=
  match q.mSortedQueue.begin? with
  | none => (q, .error (.logicError "pop in empty queue"))
  | some (_, []) => (q, .error .undefined)
  | some (key, _ :: rest) =>
    let buckets :=
      if rest.isEmpty then q.mSortedQueue.erase key else q.mSortedQueue.set key rest
    (⟨q.mSize - 1, buckets⟩, .ok ())

def size (q : Queue S F) : Nat := q.mSize

def empty (q : Queue S F) : Bool := q.size == 0

def emplace (moved : S → S) (q : Queue S F) (item : Item S F) : Queue S F :=
  match q.mSortedQueue.get? (.toDual item.score) with
  | some bucket =>
    ⟨q.mSize + 1, q.mSortedQueue.set (.toDual item.score) (bucket ++ [item])⟩
  | none =>
    -- the item has been moved into the new deque when its score is read here
    ⟨q.mSize + 1, q.mSortedQueue.set (.toDual (moved item.score)) [item]⟩

end Queue

/-! ## Calls -/

inductive Op (S F : Type*) where
  | emplace (item : Item S F)
  | top
  | pop

/-- What a call shows to its caller. -/
abbrev Out (S F : Type*) := Except Fault (Option (Item S F))

def call (moved : S → S) (q : Queue S F) : Op S F → Queue S F × Out S F
  | .emplace item => (q.emplace moved item, .ok none)
  | .top => (q, q.top.map some)
  | .pop => (q.pop.1, q.pop.2.map fun _ => none)

/-- A sequence of calls: the queue at the end, and what the calls showed. -/
def calls (moved : S → S) (q : Queue S F) : List (Op S F) → Queue S F × List (Out S F)
  | [] => (q, [])
  | op :: ops =>
    let r := calls moved (call moved q op).1 ops
    (r.1, (call moved q op).2 :: r.2)

/-- `while (!empty()) { top(); pop(); }`, at most `n` rounds. -/
def drain : Nat → Queue S F → List (Item S F)
  | 0, _ => []
  | n + 1, q =>
    if q.empty then []
    else match q.top with
      | .error _ => []
      | .ok item => item :: drain n q.pop.1

/-! ## The abstract queue -/

/-- No item of `l` has a higher score than `item`. -/
def Leads (l : List (Item S F)) (item : Item S F) : Prop := ∀ j ∈ l, j.score ≤ item.score

instance (l : List (Item S F)) (item : Item S F) : Decidable (Leads l item) :=
  inferInstanceAs (Decidable (∀ j ∈ l, j.score ≤ item.score))

/-- The earliest item of the highest score. -/
def best (l : List (Item S F)) : Option (Item S F) := l.find? fun i => Leads l i

def removeBest (l : List (Item S F)) : List (Item S F) := l.eraseP fun i => Leads l i

/-- A call on the items held, in the order of their emplacement. -/
def specCall (l : List (Item S F)) : Op S F → List (Item S F) × Out S F
  | .emplace item => (l ++ [item], .ok none)
  | .top =>
    (l, match best l with
      | none => .error (.logicError "empty queue")
      | some item => .ok (some item))
  | .pop =>
    match l with
    | [] => (l, .error (.logicError "pop in empty queue"))
    | _ :: _ => (removeBest l, .ok none)

def specCalls (l : List (Item S F)) : List (Op S F) → List (Item S F) × List (Out S F)
  | [] => (l, [])
  | op :: ops =>
    let r := specCalls (specCall l op).1 ops
    (r.1, (specCall l op).2 :: r.2)

/-- The part of `l` with score `s`. -/
abbrev bucket (l : List (Item S F)) (s : S) : List (Item S F) :=
  l.filter fun i => i.score = s

/-- `d` is `l` sorted by descending score, items of one score in the order of `l`. -/
def StableDesc (l d : List (Item S F)) : Prop :=
  d.Pairwise (fun a b => b.score ≤ a.score) ∧
    ∀ s, bucket d s = bucket l s

/-- The queue `q` holds the items `l`. -/
structure Rep (q : Queue S F) (l : List (Item S F)) : Prop where
  size : q.mSize = l.length
  buckets : ∀ s, q.mSortedQueue.get? (.toDual s) = if bucket l s = [] then none else some (bucket l s)

/-! ## The front deque -/

theorem rep_new : Rep (Queue.new : Queue S F) [] := ⟨rfl, fun _ => by simp [Queue.new]⟩

theorem bucket_cons (i : Item S F) (l : List (Item S F)) (s : S) :
    bucket (i :: l) s = if i.score = s then i :: bucket l s else bucket l s := by
  by_cases hs : i.score = s <;> simp [bucket, hs]

theorem bucket_ne_nil {l : List (Item S F)} {i : Item S F} (hi : i ∈ l) : bucket l i.score ≠ [] :=
  List.ne_nil_of_mem (List.mem_filter.mpr ⟨hi, by simp⟩)

theorem rep_begin_none {q : Queue S F} {l : List (Item S F)} (h : Rep q l)
    (hb : q.mSortedQueue.begin? = none) : l = [] := by
  rw [List.eq_nil_iff_forall_not_mem]
  intro i hi
  have hnone := OrdMap.begin?_eq_none_iff.mp hb (.toDual i.score)
  rw [h.buckets, if_neg (bucket_ne_nil hi)] at hnone
  cases hnone

/-- The deque at the front of the map is the part of `l` with the highest score: it is not
empty, and exactly its items lead `l`. -/
theorem rep_begin_some {q : Queue S F} {l : List (Item S F)} (h : Rep q l) {key : Sᵒᵈ}
    {deque : List (Item S F)} (hb : q.mSortedQueue.begin? = some (key, deque)) :
    (∃ item rest, deque = item :: rest) ∧ bucket l (OrderDual.ofDual key) = deque ∧
      ∀ i ∈ l, Leads l i ↔ i.score = OrderDual.ofDual key := by
  obtain ⟨hget, hmin⟩ := OrdMap.begin?_eq_some_iff.mp hb
  have hbucket := h.buckets (OrderDual.ofDual key)
  rw [OrderDual.toDual_ofDual, hget] at hbucket
  split at hbucket
  · cases hbucket
  · rename_i hne
    have hdeque := Option.some.inj hbucket
    obtain ⟨item, rest, hcons⟩ := List.exists_cons_of_ne_nil (hdeque ▸ hne)
    have htop : ∀ j ∈ l, j.score ≤ OrderDual.ofDual key := by
      intro j hj
      have hj' := h.buckets j.score
      rw [if_neg (bucket_ne_nil hj)] at hj'
      exact OrderDual.toDual_le_toDual.mp (hmin _ _ hj')
    refine ⟨⟨item, rest, hcons⟩, hdeque.symm, fun i hi => ⟨fun hlead => ?_, fun hi' j hj => ?_⟩⟩
    · have hitem : item ∈ bucket l (OrderDual.ofDual key) := by
        rw [← hdeque, hcons]
        exact List.mem_cons_self
      obtain ⟨hmem, hscore⟩ := List.mem_filter.mp hitem
      refine le_antisymm (htop i hi) ?_
      rw [← of_decide_eq_true hscore]
      exact hlead item hmem
    · exact hi' ▸ htop j hj

/-- Under the same hypotheses, what `best` and `removeBest` are. -/
theorem best_eq {l : List (Item S F)} {s : S} (h : ∀ i ∈ l, Leads l i ↔ i.score = s) :
    best l = (bucket l s).head? := by
  unfold best bucket
  rw [← List.head?_filter]
  exact congrArg List.head? (List.filter_congr fun i hi => by simp [h i hi])

theorem eraseP_congr {α : Type*} {p p' : α → Bool} {l : List α} (h : ∀ a ∈ l, p a = p' a) :
    l.eraseP p = l.eraseP p' := by
  induction l with
  | nil => rfl
  | cons a l ih =>
    rw [List.eraseP_cons, List.eraseP_cons, h a List.mem_cons_self,
      ih fun b hb => h b (List.mem_cons_of_mem _ hb)]

theorem removeBest_eq {l : List (Item S F)} {s : S} (h : ∀ i ∈ l, Leads l i ↔ i.score = s) :
    removeBest l = l.eraseP fun i => i.score = s := by
  unfold removeBest
  exact eraseP_congr fun i hi => by simp [h i hi]

theorem bucket_eraseP (l : List (Item S F)) (s s' : S) :
    bucket (l.eraseP fun i => i.score = s) s' =
      if s' = s then (bucket l s).tail else bucket l s' := by
  induction l with
  | nil => simp
  | cons i l ih =>
    by_cases hi : i.score = s
    · by_cases hs : s' = s
      · simp [bucket, hi, hs]
      · have : ¬ s = s' := fun h => hs h.symm
        simp [bucket, hi, hs, this]
    · rw [List.eraseP_cons_of_neg (by simpa using hi)]
      by_cases hs : s' = s
      · subst hs
        simpa [bucket, hi] using ih
      · simp only [hs, if_false] at ih ⊢
        simp only [bucket, List.filter_cons] at ih ⊢
        rw [ih]

/-! ## One call, a run of calls -/

/-- The step lemma: a call on a queue that holds `l` does what `specCall` says. -/
theorem rep_call {q : Queue S F} {l : List (Item S F)} (h : Rep q l) (op : Op S F) :
    Rep (call id q op).1 (specCall l op).1 ∧ (call id q op).2 = (specCall l op).2 := by
  cases op with
  | emplace item =>
    refine ⟨⟨?_, fun s => ?_⟩, rfl⟩
    · have := h.size
      simp only [call, Queue.emplace, specCall]
      split <;> simp [this]
    · have hold := h.buckets item.score
      have happ : bucket (l ++ [item]) s = bucket l s ++ if item.score = s then [item] else [] := by
        by_cases hs : item.score = s <;> simp [bucket, hs]
      simp only [call, Queue.emplace, specCall, happ]
      split
      · rename_i deque hget
        rw [hget] at hold
        split at hold
        · cases hold
        · rename_i hne
          cases hold
          by_cases hs : s = item.score
          · subst hs
            simp
          · simp [hs, Ne.symm hs, h.buckets s]
      · rename_i hget
        rw [hget] at hold
        split at hold
        · rename_i hnil
          by_cases hs : s = item.score
          · subst hs
            simp [hnil]
          · simp [hs, Ne.symm hs, h.buckets s]
        · cases hold
  | top =>
    refine ⟨h, ?_⟩
    simp only [call, specCall, Queue.top]
    cases hb : q.mSortedQueue.begin? with
    | none =>
      rw [rep_begin_none h hb]
      rfl
    | some e =>
      obtain ⟨key, deque⟩ := e
      obtain ⟨⟨item, rest, rfl⟩, hbucket, hlead⟩ := rep_begin_some h hb
      rw [best_eq hlead, hbucket]
      rfl
  | pop =>
    simp only [call, specCall, Queue.pop]
    cases hb : q.mSortedQueue.begin? with
    | none =>
      obtain rfl := rep_begin_none h hb
      exact ⟨h, rfl⟩
    | some e =>
      obtain ⟨key, deque⟩ := e
      obtain ⟨⟨item, rest, rfl⟩, hbucket, hlead⟩ := rep_begin_some h hb
      have hitem : item ∈ l :=
        (List.mem_filter.mp (hbucket ▸ List.mem_cons_self : item ∈ bucket l _)).1
      have hscore : item.score = OrderDual.ofDual key :=
        of_decide_eq_true (List.mem_filter.mp (hbucket ▸ List.mem_cons_self : item ∈ bucket l _)).2
      obtain ⟨i, l', rfl⟩ := List.exists_cons_of_ne_nil (List.ne_nil_of_mem hitem)
      refine ⟨⟨?_, fun s => ?_⟩, rfl⟩
      · rw [removeBest_eq hlead, List.length_eraseP_of_mem hitem (by simpa using hscore), h.size]
      · simp only [removeBest_eq hlead, bucket_eraseP, hbucket, List.tail_cons]
        have hs : OrderDual.toDual s = key ↔ s = OrderDual.ofDual key := Iff.rfl
        cases rest with
        | nil =>
          simp only [List.isEmpty_nil, if_true, OrdMap.get?_erase, hs, h.buckets]
          by_cases hk : s = OrderDual.ofDual key <;> simp [hk]
        | cons j rest =>
          simp only [List.isEmpty_cons, Bool.false_eq_true, if_false, OrdMap.get?_set, hs, h.buckets]
          by_cases hk : s = OrderDual.ofDual key <;> simp [hk]

/-- The run lemma. -/
theorem rep_calls {q : Queue S F} {l : List (Item S F)} (h : Rep q l) (ops : List (Op S F)) :
    Rep (calls id q ops).1 (specCalls l ops).1 ∧ (calls id q ops).2 = (specCalls l ops).2 := by
  induction ops generalizing q l with
  | nil => exact ⟨h, rfl⟩
  | cons op ops ih =>
    obtain ⟨hrep, hout⟩ := rep_call h op
    obtain ⟨hrep', houts⟩ := ih hrep
    exact ⟨hrep', by simp [calls, specCalls, hout, houts]⟩

/-! ## Consequences -/

theorem rep_empty_iff {q : Queue S F} {l : List (Item S F)} (h : Rep q l) :
    q.empty = true ↔ l = [] := by
  simp [Queue.empty, Queue.size, h.size]

theorem rep_deque_ne_nil {q : Queue S F} {l : List (Item S F)} (h : Rep q l) {key : Sᵒᵈ}
    {deque : List (Item S F)} (hk : q.mSortedQueue.get? key = some deque) : deque ≠ [] := by
  have hb := h.buckets (OrderDual.ofDual key)
  rw [OrderDual.toDual_ofDual, hk] at hb
  split at hb
  · cases hb
  · rename_i hne
    exact Option.some.inj hb ▸ hne

/-- Emptying a queue that holds `l` yields `l` sorted stably by descending score. -/
theorem drain_stable {n : Nat} {q : Queue S F} {l : List (Item S F)} (h : Rep q l)
    (hn : l.length ≤ n) : StableDesc l (drain n q) := by
  induction n generalizing q l with
  | zero =>
    obtain rfl := List.length_eq_zero_iff.mp (Nat.le_zero.mp hn)
    exact ⟨.nil, fun _ => rfl⟩
  | succ n ih =>
    obtain ⟨hrep, -⟩ := rep_call h .pop
    simp only [drain]
    split
    · rename_i he
      obtain rfl := (rep_empty_iff h).mp he
      exact ⟨.nil, fun _ => rfl⟩
    · rename_i he
      cases hb : q.mSortedQueue.begin? with
      | none => exact absurd ((rep_empty_iff h).mpr (rep_begin_none h hb)) he
      | some e =>
        obtain ⟨key, deque⟩ := e
        obtain ⟨⟨item, rest, rfl⟩, hbucket, hlead⟩ := rep_begin_some h hb
        have hmem : item ∈ bucket l (OrderDual.ofDual key) := hbucket ▸ List.mem_cons_self
        obtain ⟨hitem, hscore⟩ := List.mem_filter.mp hmem
        have hscore := of_decide_eq_true hscore
        obtain ⟨i, l', rfl⟩ := List.exists_cons_of_ne_nil (List.ne_nil_of_mem hitem)
        have htop : q.top = .ok item := by simp [Queue.top, hb]
        have hlen : (removeBest (i :: l')).length ≤ n := by
          rw [removeBest_eq hlead, List.length_eraseP_of_mem hitem (by simpa using hscore)]
          simp only [List.length_cons] at hn ⊢
          omega
        obtain ⟨hsorted, hfilter⟩ := ih (q := q.pop.1) (l := removeBest (i :: l')) hrep hlen
        simp only [htop]
        rw [removeBest_eq hlead] at hfilter
        refine ⟨List.pairwise_cons.mpr ⟨fun j hj => ?_, hsorted⟩, fun s => ?_⟩
        · -- what is popped later was in the queue before, and `item` led it
          have hj' : j ∈ bucket (drain n q.pop.1) j.score := List.mem_filter.mpr ⟨hj, by simp⟩
          rw [hfilter] at hj'
          exact (hlead item hitem).mpr hscore j (List.mem_of_mem_eraseP (List.mem_filter.mp hj').1)
        · have hs := hfilter s
          rw [bucket_eraseP] at hs
          by_cases hk : s = OrderDual.ofDual key
          · simp only [hk, if_true, hbucket, List.tail_cons] at hs ⊢
            rw [bucket_cons, if_pos hscore, hs]
          · rw [if_neg hk] at hs
            rw [bucket_cons, if_neg (hscore ▸ Ne.symm hk), hs]

/-- What is observable of a queue that holds `l`. -/
structure Shows (q : Queue S F) (l : List (Item S F)) : Prop where
  size : q.size = l.length
  empty : q.empty = true ↔ l = []
  dequeNeNil : ∀ key deque, q.mSortedQueue.get? key = some deque → deque ≠ []
  raises : l = [] →
    call id q .top = (q, .error (.logicError "empty queue")) ∧
      call id q .pop = (q, .error (.logicError "pop in empty queue"))
  drain : ∀ n, l.length ≤ n → StableDesc l (drain n q)

/-- Every sequence of calls on a new queue shows what the abstract queue shows: `top` the
earliest item of the highest score, which `pop` removes. -/
theorem stablePriorityQueue_calls (ops : List (Op S F)) :
    (calls id Queue.new ops).2 = (specCalls [] ops).2 ∧
      Shows (calls id (Queue.new : Queue S F) ops).1 (specCalls [] ops).1 := by
  obtain ⟨hrep, hout⟩ := rep_calls rep_new ops
  refine ⟨hout, hrep.size, rep_empty_iff hrep, fun _ _ => rep_deque_ne_nil hrep, fun hnil => ?_,
    fun n => drain_stable hrep⟩
  generalize (calls id (Queue.new : Queue S F) ops).1 = q at hrep
  rw [hnil] at hrep
  have hb : q.mSortedQueue.begin? = none :=
    OrdMap.begin?_eq_none_iff.mpr fun k => by simpa using hrep.buckets (OrderDual.ofDual k)
  simp [call, Queue.top, Queue.pop, hb, Except.map]

/-! ## Scores that change when they are moved from -/

/-- `emplace` appends the item to the deque of the score it had, and does nothing else. -/
def Filed (moved : S → S) (q : Queue S F) (item : Item S F) : Prop :=
  (q.emplace moved item).mSize = q.mSize + 1 ∧
    ∀ s, (q.emplace moved item).mSortedQueue.get? (.toDual s) =
      if s = item.score then some ((q.mSortedQueue.get? (.toDual s)).getD [] ++ [item])
      else q.mSortedQueue.get? (.toDual s)

theorem filed_iff (moved : S → S) (q : Queue S F) (item : Item S F) :
    Filed moved q item ↔
      q.mSortedQueue.get? (.toDual item.score) ≠ none ∨ moved item.score = item.score := by
  have hkey : ∀ s t : S, OrderDual.toDual s = OrderDual.toDual t ↔ s = t := fun _ _ => Iff.rfl
  unfold Filed Queue.emplace
  cases hget : q.mSortedQueue.get? (.toDual item.score) with
  | some bucket =>
    refine ⟨fun _ => Or.inl nofun, fun _ => ⟨rfl, fun s => ?_⟩⟩
    by_cases hs : s = item.score
    · simp [hs, hget]
    · simp [hs]
  | none =>
    simp only [ne_eq, not_true_eq_false, false_or, OrdMap.get?_set, hkey, true_and]
    constructor
    · intro hfiled
      by_contra hne
      -- there is no deque under the score of the item
      have hscore := hfiled item.score
      rw [if_neg (Ne.symm hne), if_pos rfl, hget] at hscore
      cases hscore
    · intro heq s
      rw [heq]
      by_cases hs : s = item.score
      · simp [hs, hget]
      · simp [hs]

/-- In each state of a queue, `emplace` files an item under the score it had at the call exactly
if this score has a deque or outlasts the move. -/
theorem emplace_filed_iff (moved : S → S) (ops : List (Op S F)) (item : Item S F) :
    Filed moved (calls moved Queue.new ops).1 item ↔
      (calls moved Queue.new ops).1.mSortedQueue.get? (.toDual item.score) ≠ none ∨
        moved item.score = item.score :=
  filed_iff moved _ item

/-- A moved string is empty: the first item of a score is filed under the empty string, and the
next one puts an end to its deque. -/
theorem not_filed_moved :
    ∃ (ops : List (Op String Char)) (item : Item String Char),
      ¬ Filed (fun _ => "") (calls (fun _ => "") Queue.new ops).1 item := by
  refine ⟨[.emplace ⟨'a', "high"⟩], ⟨'b', "low"⟩, fun h => ?_⟩
  rcases (filed_iff _ _ _).mp h with hget | hmoved
  · exact hget rfl
  · exact absurd hmoved (by decide)

end Wish.StablePriorityQueue
