import Wish.Heap

/-!
# The free list of `freelist.h`

`allocate_safe` and `deallocate_safe`, one atomic access to the memory a step. The free list
is a stack of nodes linked through `next`, a field that it shares with the nodes it hands out.

`Freelist.Linked m free` is its invariant, `AllocPc.Ok` what a thread in `allocate_safe` knows;
`Freelist.Grows` is what the other threads may do in between. Taking a node off the list
advances the tag of `m_pool` and putting one back does not, so while the tag stays the nodes of
the list stay on it, and the link that `allocate_safe` has read is still the right one.
-/

namespace Wish.Lockfree

open Heap (Addr Ptr)

/-- `tagged_ptr`, in two words; the tags do not wrap. -/
structure TaggedPtr where
  ptr : Ptr
  tag : Nat
  deriving DecidableEq, Repr

def TaggedPtr.setPtr (p : TaggedPtr) (q : Ptr) : TaggedPtr := { p with ptr := q }

def TaggedPtr.getNextTag (p : TaggedPtr) : Nat := p.tag + 1

/-- `m_pool`, the `next` of every node and the number of the nodes allocated so far. -/
structure Freelist where
  pool : TaggedPtr
  next : Addr → TaggedPtr
  fresh : Nat

namespace Freelist

def setNext (m : Freelist) (a : Addr) (p : TaggedPtr) : Freelist :=
  { m with next := Function.update m.next a p }

def setPool (m : Freelist) (p : TaggedPtr) : Freelist := { m with pool := p }

/-- A new node, with its bytes zero. -/
def extend (m : Freelist) : Freelist := { m.setNext m.fresh ⟨none, 0⟩ with fresh := m.fresh + 1 }

/-- No more nodes than there are addresses in 64 bits. -/
def addresses : Nat := 2 ^ 64

/-- `Alloca::allocate(1)` and the `memset`. -/
def allocate (m : Freelist) : Option (Freelist × Addr) :=
  if m.fresh < addresses then some (m.extend, m.fresh) else none

end Freelist

/-- A thread in `allocate_safe`. -/
inductive AllocPc where
  | load
  /-- at the top of the loop -/
  | check (old : TaggedPtr)
  /-- before the `compare_exchange_weak`, with `old` and `next_pool` -/
  | cas (p : Addr) (old next_pool : TaggedPtr)
  deriving DecidableEq, Repr

/-- One step of `allocate_safe`; on the right the node that it returns. -/
def AllocPc.step (m : Freelist) : AllocPc → Option (Freelist × (AllocPc ⊕ Addr))
  | .load => some (m, .inl (.check m.pool))
  | .check old =>
    match old.ptr with
    | none => m.allocate.map fun r => (r.1, .inr r.2)
    | some p => some (m, .inl (.cas p old ⟨(m.next p).ptr, old.getNextTag⟩))
  | .cas p old next_pool =>
    if m.pool = old then some (m.setPool next_pool, .inr p)
    else some (m, .inl (.check m.pool))

/-- The `compare_exchange_weak` fails though it need not. -/
def AllocPc.fail (m : Freelist) : AllocPc → Option AllocPc
  | .cas _ _ _ => some (.check m.pool)
  | _ => none

/-- A thread in `deallocate_safe`. -/
inductive DeallocPc where
  | load
  /-- before the `set_ptr`, with `old` -/
  | set (old : TaggedPtr)
  /-- before the `compare_exchange_weak` -/
  | cas (old : TaggedPtr)
  deriving DecidableEq, Repr

/-- One step of `deallocate_safe` for the node `n`; `none` on the right when it returns. -/
def DeallocPc.step (m : Freelist) (n : Addr) : DeallocPc → Freelist × Option DeallocPc
  | .load => (m, some (.set m.pool))
  | .set old => (m.setNext n ((m.next n).setPtr old.ptr), some (.cas old))
  | .cas old =>
    if m.pool = old then (m.setPool ⟨some n, old.tag⟩, none) else (m, some (.set m.pool))

def DeallocPc.fail (m : Freelist) : DeallocPc → Option DeallocPc
  | .cas _ => some (.set m.pool)
  | _ => none

namespace Freelist

@[simp] theorem next_setNext_self {m : Freelist} {n : Addr} {p : TaggedPtr} :
    (m.setNext n p).next n = p := by
  simp [setNext]

theorem next_setNext_of_ne {m : Freelist} {a n : Addr} {p : TaggedPtr} (h : a ≠ n) :
    (m.setNext n p).next a = m.next a := by
  simp [setNext, h]

/-- The constructor: `PoolSize` nodes, each allocated and put on the list. -/
def fill : Nat → Freelist
  | 0 => ⟨⟨none, 0⟩, fun _ => ⟨none, 0⟩, 0⟩
  | i + 1 =>
    let m := (fill i).extend
    (m.setNext i ((m.next i).setPtr m.pool.ptr)).setPool ⟨some i, m.pool.tag⟩

/-! ## The stack -/

/-- Each node is linked to the one after it in the list, the last one to none. -/
def Links (next : Addr → TaggedPtr) : List Addr → Prop
  | [] => True
  | a :: l => (next a).ptr = l.head? ∧ Links next l

theorem Links.congr {next next' : Addr → TaggedPtr} {l : List Addr} (h : Links next l)
    (heq : ∀ a ∈ l, next' a = next a) : Links next' l := by
  induction l with
  | nil => trivial
  | cons a l ih =>
    refine ⟨?_, ih h.2 fun b hb => heq b (List.mem_cons_of_mem a hb)⟩
    rw [heq a List.mem_cons_self]
    exact h.1

/-- The nodes on the list, the top one first. -/
structure Linked (m : Freelist) (free : List Addr) : Prop where
  top : m.pool.ptr = free.head?
  links : Links m.next free

variable {m m' : Freelist} {free free' : List Addr} {a n : Addr}

/-- A write to a node that is not on the list. -/
theorem Linked.setNext {p : TaggedPtr} (h : m.Linked free) (ha : a ∉ free) :
    (m.setNext a p).Linked free := by
  refine ⟨h.top, h.links.congr fun b hb => next_setNext_of_ne ?_⟩
  rintro rfl
  exact ha hb

theorem Linked.extend (h : m.Linked free) (ha : m.fresh ∉ free) : m.extend.Linked free :=
  ⟨h.top, (h.setNext (p := ⟨none, 0⟩) ha).links⟩

theorem Linked.pop {k : Nat} (h : m.Linked (a :: free)) :
    (m.setPool ⟨free.head?, k⟩).Linked free := ⟨rfl, h.links.2⟩

theorem Linked.push {k : Nat} (h : m.Linked free) (ha : (m.next a).ptr = free.head?) :
    (m.setPool ⟨some a, k⟩).Linked (a :: free) := ⟨rfl, ha, h.links⟩

theorem fresh_fill (n : Nat) : (fill n).fresh = n := by
  induction n with
  | zero => rfl
  | succ n ih => exact congrArg Nat.succ ih

/-- The nodes of the constructor, the last one on top. -/
theorem linked_fill (n : Nat) : (fill n).Linked (List.range n).reverse := by
  induction n with
  | zero => exact ⟨rfl, trivial⟩
  | succ n ih =>
    rw [List.range_succ, List.reverse_append, List.reverse_singleton, List.singleton_append]
    have hn : n ∉ (List.range n).reverse := by simp
    have hext := ih.extend (by rw [fresh_fill]; exact hn)
    refine (hext.setNext hn).push ?_
    rw [next_setNext_self]
    exact ih.top

/-- What may happen to the list: as long as the tag is the same, nodes are only put on it. -/
structure Grows (m : Freelist) (free : List Addr) (m' : Freelist) (free' : List Addr) :
    Prop where
  tag : m.pool.tag ≤ m'.pool.tag
  keeps : m'.pool.tag = m.pool.tag → ∀ a ∈ free, a ∈ free' ∧ m'.next a = m.next a

theorem Grows.refl (m : Freelist) (free : List Addr) : Grows m free m free :=
  ⟨Nat.le_refl _, fun _ _ ha => ⟨ha, rfl⟩⟩

theorem grows_setNext {p : TaggedPtr} (ha : a ∉ free) :
    Grows m free (m.setNext a p) free := by
  refine ⟨Nat.le_refl _, fun _ b hb => ⟨hb, next_setNext_of_ne ?_⟩⟩
  rintro rfl
  exact ha hb

theorem grows_extend (ha : m.fresh ∉ free) : Grows m free m.extend free :=
  ⟨Nat.le_refl _, (grows_setNext (m := m) (p := ⟨none, 0⟩) ha).keeps⟩

theorem grows_pop {q : Ptr} : Grows m free (m.setPool ⟨q, m.pool.tag + 1⟩) free' := by
  refine ⟨Nat.le_succ _, fun htag => ?_⟩
  have hlt : m.pool.tag + 1 = m.pool.tag := htag
  omega

theorem grows_push : Grows m free (m.setPool ⟨some a, m.pool.tag⟩) (a :: free) :=
  ⟨Nat.le_refl _, fun _ _ hb => ⟨List.mem_cons_of_mem a hb, rfl⟩⟩

end Freelist

open Freelist

variable {m m' : Freelist} {free free' : List Addr} {n : Addr}

/-- What a thread in `allocate_safe` knows of the list. -/
def AllocPc.Ok (m : Freelist) (free : List Addr) : AllocPc → Prop
  | .load => True
  | .check old =>
    old.tag ≤ m.pool.tag ∧ (m.pool.tag = old.tag → ∀ p, old.ptr = some p → p ∈ free)
  | .cas p old next_pool =>
    old.tag ≤ m.pool.tag ∧ old.ptr = some p ∧ next_pool.tag = old.tag + 1 ∧
      (m.pool.tag = old.tag → p ∈ free ∧ (m.next p).ptr = next_pool.ptr)

theorem AllocPc.Ok.grows {pc : AllocPc} (h : pc.Ok m free) (hg : Grows m free m' free') :
    pc.Ok m' free' := by
  cases pc with
  | load => trivial
  | check old =>
    obtain ⟨hle, hmem⟩ := h
    refine ⟨Nat.le_trans hle hg.tag, fun htag p hp => ?_⟩
    have hold := hg.tag
    exact (hg.keeps (by omega) p (hmem (by omega) p hp)).1
  | cas p old next_pool =>
    obtain ⟨hle, hp, hnext, hmem⟩ := h
    refine ⟨Nat.le_trans hle hg.tag, hp, hnext, fun htag => ?_⟩
    have hold := hg.tag
    obtain ⟨hpf, hpn⟩ := hmem (by omega)
    obtain ⟨hpf', hpn'⟩ := hg.keeps (by omega) p hpf
    exact ⟨hpf', by rw [hpn', hpn]⟩

theorem AllocPc.ok_check (h : m.Linked free) : (AllocPc.check m.pool).Ok m free := by
  refine ⟨Nat.le_refl _, fun _ p hp => ?_⟩
  rw [h.top] at hp
  exact List.mem_of_head? hp

/-- What a step of `allocate_safe` does: it reads, takes a new node, or takes the top one. -/
theorem AllocPc.step_cases {pc : AllocPc} {r : AllocPc ⊕ Addr} (h : m.Linked free)
    (hpc : pc.Ok m free) (hs : pc.step m = some (m', r)) :
    (∃ pc', r = .inl pc' ∧ m' = m ∧ pc'.Ok m free) ∨
    (r = .inr m.fresh ∧ m.fresh < addresses ∧ m' = m.extend) ∨
    (∃ p rest, r = .inr p ∧ free = p :: rest ∧
      m' = m.setPool ⟨rest.head?, m.pool.tag + 1⟩) := by
  cases pc with
  | load =>
    cases hs
    exact Or.inl ⟨_, rfl, rfl, ok_check h⟩
  | check old =>
    rw [step] at hs
    cases hold : old.ptr with
    | none =>
      simp only [hold, allocate] at hs
      split at hs
      · next hlt =>
        cases hs
        exact Or.inr (Or.inl ⟨rfl, hlt, rfl⟩)
      · cases hs
    | some p =>
      rw [hold] at hs
      cases hs
      exact Or.inl ⟨_, rfl, rfl, hpc.1, hold, rfl, fun htag => ⟨hpc.2 htag p hold, rfl⟩⟩
  | cas p old next_pool =>
    obtain ⟨hle, hp, hnext, hmem⟩ := hpc
    rw [step] at hs
    split at hs
    · next hpool =>
      cases hs
      subst hpool
      obtain ⟨hpf, hpn⟩ := hmem rfl
      obtain ⟨rest, rfl⟩ : ∃ rest, free = p :: rest := by
        have htop := h.top
        rw [hp] at htop
        cases free with
        | nil => cases htop
        | cons q rest =>
          cases htop
          exact ⟨rest, rfl⟩
      refine Or.inr (Or.inr ⟨p, rest, rfl, rfl, ?_⟩)
      rw [← h.links.1, hpn, ← hnext]
    · cases hs
      exact Or.inl ⟨_, rfl, rfl, ok_check h⟩

theorem AllocPc.fail_ok {pc pc' : AllocPc} (h : m.Linked free) (hs : pc.fail m = some pc') :
    pc'.Ok m free := by
  cases pc with
  | load => cases hs
  | check old => cases hs
  | cas p old next_pool =>
    cases hs
    exact ok_check h

/-- The thread in `deallocate_safe` has linked its node to the `old` it holds. -/
def DeallocPc.Ok (m : Freelist) (n : Addr) : DeallocPc → Prop
  | .load => True
  | .set _ => True
  | .cas old => (m.next n).ptr = old.ptr

/-- What a step of `deallocate_safe` does: it reads, links its node, or puts it on top. -/
theorem DeallocPc.step_cases {pc : DeallocPc} {r : Option DeallocPc} (h : m.Linked free)
    (hpc : pc.Ok m n) (hs : pc.step m n = (m', r)) :
    (∃ pc', r = some pc' ∧ m' = m ∧ pc'.Ok m n) ∨
    (∃ pc' p, r = some pc' ∧ m' = m.setNext n p ∧ pc'.Ok m' n) ∨
    (r = none ∧ m' = m.setPool ⟨some n, m.pool.tag⟩ ∧ (m.next n).ptr = free.head?) := by
  cases pc with
  | load =>
    cases hs
    exact Or.inl ⟨_, rfl, rfl, trivial⟩
  | set old =>
    cases hs
    refine Or.inr (Or.inl ⟨_, _, rfl, rfl, ?_⟩)
    simp [Ok, Freelist.setNext, TaggedPtr.setPtr]
  | cas old =>
    rw [step] at hs
    split at hs
    · next hpool =>
      cases hs
      subst hpool
      exact Or.inr (Or.inr ⟨rfl, rfl, hpc.trans h.top⟩)
    · cases hs
      exact Or.inl ⟨_, rfl, rfl, trivial⟩

theorem DeallocPc.fail_ok {pc pc' : DeallocPc} (hs : pc.fail m = some pc') : pc'.Ok m n := by
  cases pc with
  | load => cases hs
  | set old => cases hs
  | cas old =>
    cases hs
    trivial

end Wish.Lockfree
