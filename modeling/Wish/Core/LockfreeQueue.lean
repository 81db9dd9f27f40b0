import Wish.Core.Freelist
import Wish.Machine

/-!
# The queue of `lockfree_queue.h`

Any number of threads in `emplace` and `pop_front`, each access to the memory that they share
one step. The nodes come from the free list of `freelist.h` and go back to it; a node's `next`
is the field that the free list uses.

A value carries the number of the `emplace` call that brought it, so that two equal values are
told apart; the code never looks at it. The `log` has the calls, what they return, and the
moments when a value leaves the queue.
-/

namespace Wish.Lockfree

open Heap (Addr Ptr)

/-- A value, and the number of its `emplace` call. -/
abbrev Item (T : Type) := Nat × T

/-- Where a thread is. `n` is the node of an `emplace` call and `x` its value; `none` as a
value stands for bytes that no `emplace` call has written. -/
inductive Pc (T : Type) where
  | idle
  /-- in `m_pool.construct`: in `allocate_safe`, then before each member of the new node -/
  | allocate (x : Item T) (p : AllocPc)
  | initNext (x : Item T) (n : Addr)
  | initData (x : Item T) (n : Addr)
  /-- in `push_back` -/
  | loadTail (x : Item T) (n : Addr)
  | loadNext (x : Item T) (n : Addr) (tail : TaggedPtr)
  | link (x : Item T) (n : Addr) (tail next : TaggedPtr)
  | advance (x : Item T) (n : Addr) (tail new_tail : TaggedPtr)
  | swing (x : Item T) (tail new_tail : TaggedPtr)
  | addSize (x : Item T)
  /-- in `pop_front` -/
  | popHead
  | popTail (head : TaggedPtr)
  | popNext (head tail : TaggedPtr)
  | popAdvance (tail new_tail : TaggedPtr)
  | popData (head : TaggedPtr) (b : Addr)
  | popLink (head new_head : TaggedPtr) (ret : Option (Item T))
  /-- in `m_pool.destruct` -/
  | deallocate (ret : Option (Item T)) (n : Addr) (p : DeallocPc)
  | subSize (ret : Option (Item T))

inductive Event (ι T : Type) where
  | emplace (x : Item T)
  /-- `emplace` returns `true` -/
  | emplaced (x : Item T)
  | popFront (t : ι)
  /-- the value leaves the queue -/
  | take (ret : Option (Item T))
  /-- `pop_front` returns `true` -/
  | popped (ret : Option (Item T))
  /-- `pop_front` returns `false` -/
  | empty (t : ι)

/-- What the threads share. -/
structure Memory (T : Type) where
  m_pool : Freelist
  m_head : TaggedPtr
  m_tail : TaggedPtr
  m_size : Nat
  data : Addr → Option (Item T)

namespace Memory

variable {T : Type} (m : Memory T)

/-- The constructor: `m_pool` is filled, and one node of it becomes the dummy. -/
def init (poolSize : Nat) : Memory T :=
  let l := Freelist.fill poolSize
  let (l, a) :=
    match l.pool.ptr with
    | none => (l.extend, l.fresh)
    | some p => (l.setPool ⟨(l.next p).ptr, l.pool.getNextTag⟩, p)
  { m_pool := l.setNext a ⟨none, 0⟩
    m_head := ⟨some a, 0⟩
    m_tail := ⟨some a, 0⟩
    m_size := 0
    data := fun _ => none }

def next (a : Addr) : TaggedPtr := m.m_pool.next a

def setPool (l : Freelist) : Memory T := { m with m_pool := l }

def setNext (a : Addr) (p : TaggedPtr) : Memory T := { m with m_pool := m.m_pool.setNext a p }

def setData (a : Addr) (x : Option (Item T)) : Memory T :=
  { m with data := Function.update m.data a x }

/-- `m_tail.compare_exchange_strong(tail, new_tail)` -/
def casTail (tail new_tail : TaggedPtr) : Memory T :=
  if m.m_tail = tail then { m with m_tail := new_tail } else m

/-- `m_size` is a `size_t`. -/
def sizes : Nat := 2 ^ 64

def incr (k : Nat) : Nat := if k + 1 = sizes then 0 else k + 1

def decr (k : Nat) : Nat := if k = 0 then sizes - 1 else k - 1

def fetchAdd : Memory T := { m with m_size := incr m.m_size }

def fetchSub : Memory T := { m with m_size := decr m.m_size }

variable {m} {a n : Addr}

@[simp] theorem next_setNext_self {p : TaggedPtr} : (m.setNext n p).next n = p :=
  Freelist.next_setNext_self

theorem next_setNext_of_ne {p : TaggedPtr} (h : a ≠ n) : (m.setNext n p).next a = m.next a :=
  Freelist.next_setNext_of_ne h

@[simp] theorem data_setData_self {x : Option (Item T)} : (m.setData n x).data n = x := by
  simp [setData]

theorem data_setData_of_ne {x : Option (Item T)} (h : a ≠ n) :
    (m.setData n x).data a = m.data a := by
  simp [setData, h]

end Memory

variable {ι T : Type}

/-- One step of the thread `t`: what it leaves in the memory, where the thread is then, and
what goes into the log. -/
def Pc.step (m : Memory T) (t : ι) : Pc T → Option (Memory T × Pc T × List (Event ι T))
  | .idle => none
  | .allocate x p => do
    let r ← p.step m.m_pool
    match r.2 with
    | .inl p => some (m.setPool r.1, .allocate x p, [])
    | .inr n => some (m.setPool r.1, .initNext x n, [])
  | .initNext x n => some (m.setNext n ⟨none, 0⟩, .initData x n, [])
  | .initData x n => some (m.setData n (some x), .loadTail x n, [])
  | .loadTail x n => some (m, .loadNext x n m.m_tail, [])
  | .loadNext x n tail => do
    let a ← tail.ptr
    match (m.next a).ptr with
    | none => some (m, .link x n tail (m.next a), [])
    | some b => some (m, .advance x n tail ⟨some b, tail.getNextTag⟩, [])
  | .link x n tail next => do
    let a ← tail.ptr
    if m.next a = next then
      some (m.setNext a ⟨some n, next.getNextTag⟩, .swing x tail ⟨some n, tail.getNextTag⟩, [])
    else some (m, .loadTail x n, [])
  | .advance x n tail new_tail => some (m.casTail tail new_tail, .loadTail x n, [])
  | .swing x tail new_tail => some (m.casTail tail new_tail, .addSize x, [])
  | .addSize x => some (m.fetchAdd, .idle, [.emplaced x])
  | .popHead => some (m, .popTail m.m_head, [])
  | .popTail head => some (m, .popNext head m.m_tail, [])
  | .popNext head tail => do
    let a ← head.ptr
    if head = tail then
      match (m.next a).ptr with
      | none => some (m, .idle, [.empty t])
      | some b => some (m, .popAdvance tail ⟨some b, tail.getNextTag⟩, [])
    else
      match (m.next a).ptr with
      | none => some (m, .popHead, [])
      | some b => some (m, .popData head b, [])
  | .popAdvance tail new_tail => some (m.casTail tail new_tail, .popHead, [])
  | .popData head b => some (m, .popLink head ⟨some b, head.getNextTag⟩ (m.data b), [])
  | .popLink head new_head ret => do
    if m.m_head = head then
      let a ← head.ptr
      some ({ m with m_head := new_head }, .deallocate ret a .load, [.take ret])
    else some (m, .popHead, [])
  | .deallocate ret n p =>
    let r := p.step m.m_pool n
    match r.2 with
    | some p => some (m.setPool r.1, .deallocate ret n p, [])
    | none => some (m.setPool r.1, .subSize ret, [])
  | .subSize ret => some (m.fetchSub, .idle, [.popped ret])

/-- A `compare_exchange_weak` fails though it need not. -/
def Pc.fail (m : Memory T) : Pc T → Option (Pc T)
  | .allocate x p => (p.fail m.m_pool).map (.allocate x)
  | .link x n _ _ => some (.loadTail x n)
  | .popLink _ _ _ => some .popHead
  | .deallocate ret n p => (p.fail m.m_pool).map (.deallocate ret n)
  | _ => none

structure State (ι T : Type) where
  mem : Memory T
  pc : ι → Pc T
  calls : Nat
  log : List (Event ι T)

def init (poolSize : Nat) : State ι T := ⟨.init poolSize, fun _ => .idle, 0, []⟩

inductive Act (ι T : Type) where
  /-- the thread calls `emplace` -/
  | emplace (t : ι) (v : T)
  /-- the thread calls `pop_front` -/
  | popFront (t : ι)
  | next (t : ι)
  | fail (t : ι)

variable [DecidableEq ι]

def step (s : State ι T) : Act ι T → Option (State ι T)
  | .emplace t v =>
    match s.pc t with
    | .idle => some
      { s with
        pc := Function.update s.pc t (.allocate (s.calls, v) .load)
        calls := s.calls + 1
        log := s.log ++ [.emplace (s.calls, v)] }
    | _ => none
  | .popFront t =>
    match s.pc t with
    | .idle => some
      { s with
        pc := Function.update s.pc t .popHead
        log := s.log ++ [.popFront t] }
    | _ => none
  | .next t => do
    let (m, p, es) ← (s.pc t).step s.mem t
    some { s with mem := m, pc := Function.update s.pc t p, log := s.log ++ es }
  | .fail t => do
    let p ← (s.pc t).fail s.mem
    some { s with pc := Function.update s.pc t p }

end Wish.Lockfree
