import Wish.Core.TaggedPtr
import Wish.Prog

/-!
# The queue and its free list with one thread

`lockfree_queue.h` and `freelist.h` as programs over the memory of one thread, for any
`tagged_ptr`. A `compare_exchange_weak` may fail on a value that has not changed; `spurious` says
which of the next ones do.

`Pool m used free` is the invariant of the free list: it has the nodes `free`, and `used` are the
other nodes that have been allocated, which `allocateSafe` and `deallocateSafe` leave as they are.
-/

namespace Wish.Sequential

open Tagged Prog
open Tagged.TaggedPtr (limit make zero getPtr getTag setPtr getNextTag)

/-- `Alloca::allocate(1)`: the address of the node that is allocated after `i` others, or `none`
where it throws. -/
structure Allocator (limit : Nat) where
  address : Nat → Option Ptr
  address_inj : ∀ i j a, address i = some a → address j = some a → i = j
  ne_null : ∀ i, address i ≠ some 0
  lt_limit : ∀ i a, address i = some a → a.toNat < limit

/-- The members of the queue, the nodes, and what the next calls of `compare_exchange_weak` do. -/
structure Memory (P T : Type) where
  m_pool : P
  /-- the field `next` of a node, on the free list and in the queue -/
  next : Ptr → P
  /-- `none` for bytes that no `emplace` has written -/
  data : Ptr → Option T
  m_head : P
  m_tail : P
  m_size : UInt64
  /-- how many nodes have been allocated -/
  allocated : Nat
  spurious : List Bool

inductive Fault where
  /-- out of fuel -/
  | stuck
  /-- a null pointer is dereferenced -/
  | null
  deriving DecidableEq, Repr

namespace Memory

variable {P T : Type}

def setPool (p : P) (m : Memory P T) : Memory P T := { m with m_pool := p }

def setHead (p : P) (m : Memory P T) : Memory P T := { m with m_head := p }

def setTail (p : P) (m : Memory P T) : Memory P T := { m with m_tail := p }

def setNext (a : Ptr) (p : P) (m : Memory P T) : Memory P T :=
  { m with next := Function.update m.next a p }

def setData (a : Ptr) (x : Option T) (m : Memory P T) : Memory P T :=
  { m with data := Function.update m.data a x }

def setSize (k : UInt64) (m : Memory P T) : Memory P T := { m with m_size := k }

/-- A call of `compare_exchange_weak` is over. -/
def tick (m : Memory P T) : Memory P T := { m with spurious := m.spurious.tail }

def size (m : Memory P T) : UInt64 := m.m_size

@[simp] theorem next_setNext_self {m : Memory P T} {a : Ptr} {p : P} :
    (m.setNext a p).next a = p := by
  simp [setNext]

theorem next_setNext_of_ne {m : Memory P T} {a b : Ptr} {p : P} (h : b ≠ a) :
    (m.setNext a p).next b = m.next b := by
  simp [setNext, h]

@[simp] theorem data_setData_self {m : Memory P T} {a : Ptr} {x : Option T} :
    (m.setData a x).data a = x := by
  simp [setData]

theorem data_setData_of_ne {m : Memory P T} {a b : Ptr} {x : Option T} (h : b ≠ a) :
    (m.setData a x).data b = m.data b := by
  simp [setData, h]

variable [TaggedPtr P]

def empty (m : Memory P T) : Bool := m.m_head = m.m_tail

/-- `allocate(1)` has returned `a`, and `memset` has cleared the node. -/
def extend (a : Ptr) (m : Memory P T) : Memory P T :=
  { (m.setNext a (make 0 zero)).setData a none with allocated := m.allocated + 1 }

/-- `m_tail.compare_exchange_strong(tail, new_tail)` -/
def casTail (tail new_tail : P) (m : Memory P T) : Memory P T :=
  if m.m_tail = tail then m.setTail new_tail else m

theorem casTail_of_eq {m : Memory P T} {tail new_tail : P} (h : m.m_tail = tail) :
    m.casTail tail new_tail = m.setTail new_tail := if_pos h

/-- Before the constructor. -/
def start (spurious : List Bool) : Memory P T where
  m_pool := make 0 zero
  next _ := make 0 zero
  data _ := none
  m_head := make 0 zero
  m_tail := make 0 zero
  m_size := 0
  allocated := 0
  spurious := spurious

end Memory

variable {P T : Type} [TaggedPtr P]

/-- `compare_exchange_weak` of a tagged pointer: `none` if it has been exchanged, or else the
value that is there. -/
def exchangeWeak (read : Memory P T → P) (write : P → Memory P T → Memory P T) (old new : P) :
    Prog Fault (Memory P T) (Option P) := do
  let m ← MonadState.get
  modify Memory.tick
  if read m = old ∧ m.spurious.head? ≠ some true then
    modify (write new)
    pure none
  else pure (some (read m))

/-- `operator->` -/
def deref (p : P) : Prog Fault (Memory P T) Ptr :=
  if getPtr p = 0 then throw .null else pure (getPtr p)

/-! ## `freelist.h` -/

def allocate (A : Allocator (limit P)) : Prog Fault (Memory P T) (Option Ptr) := do
  let m ← MonadState.get
  match A.address m.allocated with
  | none => pure none
  | some a =>
    modify (Memory.extend a)
    pure (some a)

def allocateBody (A : Allocator (limit P)) (old : P) :
    Prog Fault (Memory P T) (P ⊕ Option Ptr) := do
  if getPtr old = 0 then
    let a ← allocate A
    pure (.inr a)
  else
    let m ← MonadState.get
    let next_pool := make (getPtr (m.next (getPtr old))) (getNextTag old)
    let r ← exchangeWeak (·.m_pool) Memory.setPool old next_pool
    match r with
    | none => pure (.inr (some (getPtr old)))
    | some old => pure (.inl old)

/-- `none` where `std::bad_alloc` is thrown. -/
def allocateSafe (A : Allocator (limit P)) (fuel : Nat) :
    Prog Fault (Memory P T) (Option Ptr) := do
  let m ← MonadState.get
  loop .stuck (allocateBody A) fuel m.m_pool

def deallocateBody (t : Ptr) (old : P) : Prog Fault (Memory P T) (P ⊕ Unit) := do
  let new_pool : P := make t (getTag old)
  let n ← deref new_pool
  modify fun m => m.setNext n (setPtr (m.next n) (getPtr old))
  let r ← exchangeWeak (·.m_pool) Memory.setPool old new_pool
  match r with
  | none => pure (.inr ())
  | some old => pure (.inl old)

def deallocateSafe (t : Ptr) (fuel : Nat) : Prog Fault (Memory P T) Unit := do
  let m ← MonadState.get
  loop .stuck (deallocateBody t) fuel m.m_pool

/-- A node is constructed with the pointer `nullptr`, and with the value if there is one. -/
def construct (A : Allocator (limit P)) (item : Option T) (fuel : Nat) :
    Prog Fault (Memory P T) (Option Ptr) := do
  let r ← allocateSafe A fuel
  match r with
  | none => pure none
  | some t =>
    if t = 0 then pure (some t)
    else
      modify (Memory.setNext t (make 0 zero))
      match item with
      | none => pure (some t)
      | some x =>
        modify (Memory.setData t (some x))
        pure (some t)

/-- The constructor of the free list; `false` where it throws. -/
def freelist (A : Allocator (limit P)) (fuel : Nat) : Nat → Prog Fault (Memory P T) Bool
  | 0 => pure true
  | i + 1 => do
    let done ← freelist A fuel i
    if done then
      let r ← allocate A
      match r with
      | none => pure false
      | some t =>
        deallocateSafe t fuel
        pure true
    else pure false

/-! ## `lockfree_queue.h` -/

/-- The constructor; `false` where it throws. -/
def queue (A : Allocator (limit P)) (poolSize fuel : Nat) : Prog Fault (Memory P T) Bool := do
  let done ← freelist A fuel poolSize
  if done then
    let r ← construct A none fuel
    match r with
    | none => pure false
    | some null_node =>
      modify (Memory.setHead (make null_node zero))
      modify (Memory.setTail (make null_node zero))
      pure true
  else pure false

def pushBackBody (node : Ptr) (_ : Unit) : Prog Fault (Memory P T) (Unit ⊕ Bool) := do
  let m ← MonadState.get
  let tail := m.m_tail
  let a ← deref tail
  let next := m.next a
  if getPtr next = 0 then
    let new_tail_next := make node (getNextTag next)
    let r ← exchangeWeak (fun m => m.next a) (Memory.setNext a) next new_tail_next
    match r with
    | none =>
      modify (Memory.casTail tail (make node (getNextTag tail)))
      modify fun m => m.setSize (m.m_size + 1)
      pure (.inr true)
    | some _ => pure (.inl ())
  else
    modify (Memory.casTail tail (make (getPtr next) (getNextTag tail)))
    pure (.inl ())

def pushBack (node : Ptr) (fuel : Nat) : Prog Fault (Memory P T) Bool :=
  loop .stuck (pushBackBody node) fuel ()

/-- `none` where it throws. -/
def emplace (A : Allocator (limit P)) (item : T) (fuel : Nat) :
    Prog Fault (Memory P T) (Option Bool) := do
  let r ← construct A (some item) fuel
  match r with
  | none => pure none
  | some node => if node = 0 then pure (some false) else some <$> pushBack node fuel

def popFrontBody (fuel : Nat) (_ : Unit) :
    Prog Fault (Memory P T) (Unit ⊕ Option (Option T)) := do
  let m ← MonadState.get
  let head := m.m_head
  let tail := m.m_tail
  let a ← deref head
  let next := m.next a
  if head = tail then
    if getPtr next = 0 then pure (.inr none)
    else
      modify (Memory.casTail tail (make (getPtr next) (getNextTag tail)))
      pure (.inl ())
  else if getPtr next = 0 then pure (.inl ())
  else
    let ret := m.data (getPtr next)
    let new_head := make (getPtr next) (getNextTag head)
    let r ← exchangeWeak (·.m_head) Memory.setHead head new_head
    match r with
    | none =>
      deallocateSafe (getPtr head) fuel
      modify fun m => m.setSize (m.m_size - 1)
      pure (.inr (some ret))
    | some _ => pure (.inl ())

/-- `none` where it returns `false`, and else the value. -/
def popFront (fuel : Nat) : Prog Fault (Memory P T) (Option (Option T)) :=
  loop .stuck (popFrontBody fuel) fuel ()

/-! ## Lists of nodes -/

/-- Each node is linked to the one after it in the list, the last one to none. -/
def Links (next : Ptr → Ptr) : List Ptr → Prop
  | [] => True
  | a :: l => next a = l.headD 0 ∧ Links next l

theorem Links.congr {f g : Ptr → Ptr} {l : List Ptr} (h : Links f l) (hg : ∀ a ∈ l, g a = f a) :
    Links g l := by
  induction l with
  | nil => trivial
  | cons a l ih =>
    refine ⟨(hg a List.mem_cons_self).trans h.1, ih h.2 fun b hb => ?_⟩
    exact hg b (List.mem_cons_of_mem a hb)

/-! ## The free list -/

/-- `a` is one of the first `k` nodes. -/
def Allocator.Allocated {limit : Nat} (A : Allocator limit) (k : Nat) (a : Ptr) : Prop :=
  ∃ i < k, A.address i = some a

structure Pool (A : Allocator (limit P)) (m : Memory P T) (used free : List Ptr) : Prop where
  top : getPtr m.m_pool = free.headD 0
  links : Links (fun a => getPtr (m.next a)) free
  nodup : (used ++ free).Nodup
  allocated : ∀ a ∈ used ++ free, A.Allocated m.allocated a
  count : used.length + free.length = m.allocated

/-- The calls of the free list leave the rest as it is. -/
structure Frame (used : List Ptr) (m m' : Memory P T) : Prop where
  next : ∀ a ∈ used, m'.next a = m.next a
  data : ∀ a ∈ used, m'.data a = m.data a
  head : m'.m_head = m.m_head
  tail : m'.m_tail = m.m_tail
  size : m'.m_size = m.m_size
  spurious : m'.spurious.length ≤ m.spurious.length

variable {A : Allocator (limit P)} {m m' m'' : Memory P T} {used free : List Ptr} {a t : Ptr}
  {fuel : Nat}

theorem Allocator.Allocated.mono {limit k k' : Nat} {A : Allocator limit} (h : A.Allocated k a)
    (hk : k ≤ k') : A.Allocated k' a := by
  obtain ⟨i, hi, ha⟩ := h
  exact ⟨i, Nat.lt_of_lt_of_le hi hk, ha⟩

theorem Allocator.Allocated.ne_null {limit k : Nat} {A : Allocator limit} (h : A.Allocated k a) :
    a ≠ 0 := by
  rintro rfl
  obtain ⟨i, -, ha⟩ := h
  exact A.ne_null i ha

theorem Allocator.Allocated.lt_limit {limit k : Nat} {A : Allocator limit}
    (h : A.Allocated k a) : a.toNat < limit := by
  obtain ⟨i, -, ha⟩ := h
  exact A.lt_limit i a ha

/-- The next address is a new one. -/
theorem Allocator.not_allocated {limit k : Nat} {A : Allocator limit}
    (h : A.address k = some a) : ¬ A.Allocated k a := by
  rintro ⟨i, hi, ha⟩
  exact absurd (A.address_inj i k a ha h) (Nat.ne_of_lt hi)

theorem getPtr_make_zero (x : TaggedPtr.Tag P) : getPtr (make 0 x : P) = 0 :=
  TaggedPtr.getPtr_make 0 x TaggedPtr.limit_pos

theorem headD_lt {k : Nat} {l : List Ptr} (h : ∀ a ∈ l, A.Allocated k a) :
    (l.headD 0).toNat < limit P := by
  cases l with
  | nil => exact TaggedPtr.limit_pos
  | cons a l => exact (h a List.mem_cons_self).lt_limit

theorem Allocator.Allocated.getPtr_make {k : Nat} (h : A.Allocated k a) (x : TaggedPtr.Tag P) :
    getPtr (make a x : P) = a :=
  TaggedPtr.getPtr_make a x h.lt_limit

namespace Frame

omit [TaggedPtr P]

theorem refl (used : List Ptr) (m : Memory P T) : Frame used m m :=
  ⟨fun _ _ => rfl, fun _ _ => rfl, rfl, rfl, rfl, Nat.le_refl _⟩

theorem trans (h : Frame used m m') (h' : Frame used m' m'') : Frame used m m'' where
  next a ha := (h'.next a ha).trans (h.next a ha)
  data a ha := (h'.data a ha).trans (h.data a ha)
  head := h'.head.trans h.head
  tail := h'.tail.trans h.tail
  size := h'.size.trans h.size
  spurious := Nat.le_trans h'.spurious h.spurious

theorem tick (used : List Ptr) (m : Memory P T) : Frame used m m.tick where
  next _ _ := rfl
  data _ _ := rfl
  head := rfl
  tail := rfl
  size := rfl
  spurious := by simp [Memory.tick]

theorem setPool (used : List Ptr) (m : Memory P T) (p : P) : Frame used m (m.setPool p) :=
  ⟨fun _ _ => rfl, fun _ _ => rfl, rfl, rfl, rfl, Nat.le_refl _⟩

theorem setSize (h : Frame used m m') (k : UInt64) : Frame used (m.setSize k) (m'.setSize k) :=
  ⟨h.next, h.data, h.head, h.tail, rfl, h.spurious⟩

theorem setNext {p : P} (h : a ∉ used) : Frame used m (m.setNext a p) where
  next _ hb := Memory.next_setNext_of_ne (ne_of_mem_of_not_mem hb h)
  data _ _ := rfl
  head := rfl
  tail := rfl
  size := rfl
  spurious := Nat.le_refl _

theorem setData {x : Option T} (h : a ∉ used) : Frame used m (m.setData a x) where
  next _ _ := rfl
  data _ hb := Memory.data_setData_of_ne (ne_of_mem_of_not_mem hb h)
  head := rfl
  tail := rfl
  size := rfl
  spurious := Nat.le_refl _

theorem extend [TaggedPtr P] (h : a ∉ used) : Frame used m (m.extend a) :=
  let hdata := (setNext (m := m) (p := make 0 zero) h).trans (setData (x := none) h)
  ⟨hdata.next, hdata.data, rfl, rfl, rfl, Nat.le_refl _⟩

end Frame

namespace Pool

theorem tick (h : Pool A m used free) : Pool A m.tick used free :=
  ⟨h.top, h.links, h.nodup, h.allocated, h.count⟩

/-- A write to a node that is not on the list. -/
theorem setNext {p : P} (h : Pool A m used free) (ha : a ∉ free) :
    Pool A (m.setNext a p) used free := by
  refine ⟨h.top, h.links.congr fun b hb => ?_, h.nodup, h.allocated, h.count⟩
  rw [Memory.next_setNext_of_ne (ne_of_mem_of_not_mem hb ha)]

theorem setData {x : Option T} (h : Pool A m used free) : Pool A (m.setData a x) used free :=
  ⟨h.top, h.links, h.nodup, h.allocated, h.count⟩

theorem perm {used' : List Ptr} (h : Pool A m used free) (hp : used.Perm used') :
    Pool A m used' free where
  top := h.top
  links := h.links
  nodup := (hp.append_right free).nodup_iff.mp h.nodup
  allocated a ha := h.allocated a ((hp.append_right free).mem_iff.mpr ha)
  count := by rw [← hp.length_eq, h.count]

theorem not_mem (h : Pool A m (t :: used) free) : t ∉ used ∧ t ∉ free := by
  have hnodup := h.nodup
  rw [List.cons_append, List.nodup_cons, List.mem_append, not_or] at hnodup
  exact hnodup.1

theorem allocated_head (h : Pool A m (t :: used) free) : A.Allocated m.allocated t :=
  h.allocated t List.mem_cons_self

/-- A new node. -/
theorem extend (h : Pool A m used free) (ha : A.address m.allocated = some a) :
    Pool A (m.extend a) (a :: used) free := by
  have hnew : ∀ b ∈ used ++ free, b ≠ a := by
    rintro b hb rfl
    exact A.not_allocated ha (h.allocated b hb)
  have hfree : a ∉ free := fun hmem => hnew a (List.mem_append_right used hmem) rfl
  refine ⟨h.top, (h.setNext (p := make 0 zero) hfree).links, ?_, fun b hb => ?_, ?_⟩
  · exact List.nodup_cons.mpr ⟨fun hmem => hnew a hmem rfl, h.nodup⟩
  · rcases List.mem_cons.mp hb with rfl | hb
    · exact ⟨m.allocated, Nat.lt_succ_self _, ha⟩
    · exact (h.allocated b hb).mono (Nat.le_succ _)
  · rw [List.length_cons, Nat.add_right_comm, h.count]
    rfl

/-- The top node is taken. -/
theorem pop {x : TaggedPtr.Tag P} (h : Pool A m used (t :: free)) :
    Pool A (m.setPool (make (getPtr (m.next t)) x)) (t :: used) free := by
  obtain ⟨htop, hlinks⟩ := h.links
  have hperm : (t :: used ++ free).Perm (used ++ t :: free) := List.perm_middle.symm
  have hnext : (getPtr (m.next t)).toNat < limit P := by
    rw [show getPtr (m.next t) = free.headD 0 from htop]
    exact headD_lt fun b hb => h.allocated b (by simp [hb])
  refine ⟨?_, hlinks, hperm.nodup_iff.mpr h.nodup, fun b hb => ?_, ?_⟩
  · exact (TaggedPtr.getPtr_make _ _ hnext).trans htop
  · exact h.allocated b (hperm.mem_iff.mp hb)
  · rw [← List.length_append, hperm.length_eq, List.length_append, h.count]
    rfl

/-- A node that is linked to the top one is put on the list. -/
theorem push {x : TaggedPtr.Tag P} (h : Pool A m (t :: used) free)
    (ht : getPtr (m.next t) = getPtr m.m_pool) :
    Pool A (m.setPool (make t x)) used (t :: free) := by
  have hperm : (t :: used ++ free).Perm (used ++ t :: free) := List.perm_middle.symm
  refine ⟨h.allocated_head.getPtr_make x, ⟨ht.trans h.top, h.links⟩, ?_, fun b hb => ?_, ?_⟩
  · exact hperm.nodup_iff.mp h.nodup
  · exact h.allocated b (hperm.mem_iff.mpr hb)
  · rw [← List.length_append, ← hperm.length_eq, List.length_append, h.count]
    rfl

end Pool

/-! ## The calls of the free list -/

/-- `compare_exchange_weak` of the value that is there. -/
theorem returns_exchangeWeak {read : Memory P T → P} {write : P → Memory P T → Memory P T}
    {new : P} {Q : Option P → Memory P T → Prop} (hdone : Q none (write new m.tick))
    (hfail : m.tick.spurious.length < m.spurious.length → Q (some (read m)) m.tick) :
    Returns (exchangeWeak read write (read m) new) m Q := by
  simp only [exchangeWeak, returns_bind, returns_get, returns_modify, true_and]
  refine .ite (fun _ => ?_) fun hspurious => ?_
  · simpa using hdone
  · refine returns_pure.mpr (hfail ?_)
    cases hs : m.spurious with
    | nil => simp [hs] at hspurious
    | cons b rest => simp [Memory.tick, hs]

theorem returns_allocate (h : Pool A m used free) :
    Returns (allocate A) m fun r m' => Frame used m m' ∧ r = A.address m.allocated ∧
      match r with
      | none => Pool A m' used free
      | some t => Pool A m' (t :: used) free := by
  simp only [allocate, returns_bind, returns_get]
  cases ha : A.address m.allocated with
  | none => exact returns_pure.mpr ⟨.refl used m, rfl, h⟩
  | some a =>
    have hused : a ∉ used := fun hmem =>
      A.not_allocated ha (h.allocated a (List.mem_append_left free hmem))
    simp only [returns_bind, returns_modify, returns_pure]
    exact ⟨.extend hused, trivial, h.extend ha⟩

/-- The node that is returned was not in use. It is a new one only if there is none on the list. -/
theorem returns_allocateSafe (h : Pool A m used free) (hfuel : m.spurious.length < fuel) :
    Returns (allocateSafe A fuel) m fun r m' => Frame used m m' ∧
      match r with
      | none => free = [] ∧ A.address m.allocated = none ∧ Pool A m' used []
      | some t => Pool A m' (t :: used) free.tail ∧
          (free = [] → A.address m.allocated = some t) := by
  simp only [allocateSafe, returns_bind, returns_get]
  refine Returns.loop (I := fun n old s => n = s.spurious.length ∧ old = s.m_pool ∧
    Pool A s used free ∧ Frame used m s) (fun n old s hI => ?_) hfuel
    ⟨rfl, rfl, h, .refl used m⟩
  obtain ⟨rfl, rfl, hpool, hframe⟩ := hI
  refine .ite (fun hnull => ?_) fun hnode => ?_
  · obtain rfl : free = [] := by
      cases free with
      | nil => rfl
      | cons t free => exact absurd (hpool.top.symm.trans hnull) (hpool.allocated t (by simp)).ne_null
    have hsame : s.allocated = m.allocated := hpool.count.symm.trans h.count
    refine returns_bind.mpr ((returns_allocate hpool).mono fun r s' hr => ?_)
    obtain ⟨hframe', hr, hpool'⟩ := hr
    refine returns_pure.mpr ⟨hframe.trans hframe', ?_⟩
    rw [hsame] at hr
    cases r with
    | none => exact ⟨rfl, hr.symm, hpool'⟩
    | some t => exact ⟨hpool', fun _ => hr.symm⟩
  · obtain ⟨t, free', rfl⟩ : ∃ t free', free = t :: free' := by
      cases free with
      | nil => exact absurd hpool.top hnode
      | cons t free' => exact ⟨t, free', rfl⟩
    have htop : getPtr s.m_pool = t := hpool.top
    simp only [returns_bind, returns_get]
    refine returns_exchangeWeak ?_ fun hlt => ?_
    · rw [htop]
      exact returns_pure.mpr
        ⟨hframe.trans ((Frame.tick used s).trans (.setPool used _ _)), hpool.tick.pop,
          fun hnil => absurd hnil (List.cons_ne_nil t free')⟩
    · exact returns_pure.mpr
        ⟨_, hlt, rfl, rfl, hpool.tick, hframe.trans (.tick used s)⟩

/-- The node goes on the list. -/
theorem returns_deallocateSafe (h : Pool A m (t :: used) free)
    (hfuel : m.spurious.length < fuel) :
    Returns (deallocateSafe t fuel) m fun _ m' => Frame used m m' ∧ Pool A m' used (t :: free) := by
  simp only [deallocateSafe, returns_bind, returns_get]
  refine Returns.loop (I := fun n old s => n = s.spurious.length ∧ old = s.m_pool ∧
    Pool A s (t :: used) free ∧ Frame used m s) (fun n old s hI => ?_) hfuel
    ⟨rfl, rfl, h, .refl used m⟩
  obtain ⟨rfl, rfl, hpool, hframe⟩ := hI
  obtain ⟨htused, htfree⟩ := hpool.not_mem
  have ht := hpool.allocated_head
  have hderef : Returns (deref (make t (getTag s.m_pool) : P)) s fun n s' => n = t ∧ s' = s := by
    rw [deref, ht.getPtr_make, if_neg ht.ne_null]
    exact returns_pure.mpr ⟨rfl, rfl⟩
  simp only [deallocateBody]
  refine returns_bind.mpr (hderef.mono fun n s' hn => ?_)
  obtain ⟨rfl, rfl⟩ := hn
  simp only [returns_bind, returns_modify]
  have hset := hpool.setNext (p := setPtr (s'.next n) (getPtr s'.m_pool)) htfree
  have hframe' := hframe.trans (.setNext (p := setPtr (s'.next n) (getPtr s'.m_pool)) htused)
  refine returns_exchangeWeak ?_ fun hlt => ?_
  · refine returns_pure.mpr ⟨hframe'.trans ((Frame.tick used _).trans (.setPool used _ _)), ?_⟩
    refine hset.tick.push ?_
    have htop : (getPtr s'.m_pool).toNat < limit P := by
      rw [hpool.top]
      exact headD_lt fun b hb => hpool.allocated b (List.mem_append_right _ hb)
    show getPtr ((s'.setNext n (setPtr (s'.next n) (getPtr s'.m_pool))).next n) = getPtr s'.m_pool
    rw [Memory.next_setNext_self, TaggedPtr.setPtr_eq, TaggedPtr.getPtr_make _ _ htop]
  · exact returns_pure.mpr ⟨_, hlt, rfl, rfl, hset.tick, hframe'.trans (.tick used _)⟩

end Wish.Sequential
