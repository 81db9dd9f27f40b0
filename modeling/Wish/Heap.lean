import Wish.Prog
import Mathlib.Algebra.Order.Group.Multiset
import Mathlib.Data.Fintype.EquivFin
import Mathlib.Tactic.Abel

/-!
# Heaps of cells

A memory has global variables and a heap; a heap gives each address a cell or nothing. The
operations are those of C++ on pointers: reading through a pointer, changing the cell it
points to, `new` at an address that is free, `delete`.

`Holds h M` says that the multiset `M` of addressed cells is what the heap `h` holds. Sums of
multisets are the parts of the heap, and the rules change one part and leave the others as
they are, so that no two addresses have to be told apart by hand.
-/

namespace Heap

open Prog

abbrev Addr := Nat

/-- A pointer; `none` is `nullptr`. -/
abbrev Ptr := Option Addr

inductive Fault where
  /-- a null pointer is dereferenced -/
  | null
  /-- a pointer to no object is dereferenced or deleted -/
  | dangling
  /-- `new` gives an address in use -/
  | inUse
  /-- a signed counter overflows -/
  | overflow
  /-- a loop or a recursion has not ended -/
  | stuck
  deriving DecidableEq, Repr

structure Mem (γ ν : Type) where
  globals : γ
  heap : Addr → Option ν

variable {γ ν : Type}

def deref (p : Ptr) : Prog Fault (Mem γ ν) ν :=
  match p with
  | none => throw .null
  | some a => do
    match (← get).heap a with
    | none => throw .dangling
    | some n => pure n

def modifyCell (p : Ptr) (f : ν → ν) : Prog Fault (Mem γ ν) PUnit :=
  match p with
  | none => throw .null
  | some a => do
    let s ← get
    match s.heap a with
    | none => throw .dangling
    | some n => set { s with heap := Function.update s.heap a (some (f n)) }

/-- `new` at the address `a`. -/
def new (a : Addr) (n : ν) : Prog Fault (Mem γ ν) Ptr := do
  let s ← get
  match s.heap a with
  | none =>
    set { s with heap := Function.update s.heap a (some n) }
    pure (some a)
  | some _ => throw .inUse

def delete (p : Ptr) : Prog Fault (Mem γ ν) PUnit :=
  match p with
  | none => pure ⟨⟩
  | some a => do
    let s ← get
    match s.heap a with
    | none => throw .dangling
    | some _ => set { s with heap := Function.update s.heap a none }

/-! ## What a heap holds -/

/-- The heap holds these cells and no others. -/
structure Holds (h : Addr → Option ν) (M : Multiset (Addr × ν)) : Prop where
  cells : ∀ a n, h a = some n ↔ (a, n) ∈ M
  nodup : (M.map Prod.fst).Nodup

variable {h : Addr → Option ν} {M R : Multiset (Addr × ν)} {a b : Addr} {n m : ν}

theorem holds_empty : Holds (fun _ => none : Addr → Option ν) 0 :=
  ⟨fun _ _ => by simp, by simp⟩

theorem Holds.get (hh : Holds h M) (hm : (a, n) ∈ M) : h a = some n := (hh.cells a n).mpr hm

theorem Holds.notMem (hh : Holds h ({(a, n)} + R)) (m : ν) : (a, m) ∉ R := by
  intro hm
  have hnodup := hh.nodup
  rw [Multiset.singleton_add, Multiset.map_cons, Multiset.nodup_cons] at hnodup
  exact hnodup.1 (Multiset.mem_map.mpr ⟨(a, m), hm, rfl⟩)

theorem Holds.update (hh : Holds h ({(a, n)} + R)) (n' : ν) :
    Holds (Function.update h a (some n')) ({(a, n')} + R) := by
  refine ⟨fun b m => ?_, ?_⟩
  · by_cases hb : b = a
    · subst hb
      have hno := hh.notMem m
      simp [hno, eq_comm]
    · have hcells := hh.cells b m
      simp only [Multiset.mem_add, Multiset.mem_singleton, Prod.mk.injEq] at hcells ⊢
      simp only [Function.update_of_ne hb, hcells, hb, false_and, false_or]
  · have hnodup := hh.nodup
    simp only [Multiset.singleton_add, Multiset.map_cons] at hnodup ⊢
    exact hnodup

theorem Holds.new (hh : Holds h M) (ha : h a = none) (n : ν) :
    Holds (Function.update h a (some n)) ({(a, n)} + M) := by
  have hno : ∀ m, (a, m) ∉ M := fun m hm => by
    rw [hh.get hm] at ha
    cases ha
  refine ⟨fun b m => ?_, ?_⟩
  · by_cases hb : b = a
    · subst hb
      simp [hno m, eq_comm]
    · have hcells := hh.cells b m
      simp only [Multiset.mem_add, Multiset.mem_singleton, Prod.mk.injEq]
      simp only [Function.update_of_ne hb, hcells, hb, false_and, false_or]
  · rw [Multiset.singleton_add, Multiset.map_cons, Multiset.nodup_cons]
    refine ⟨fun hm => ?_, hh.nodup⟩
    obtain ⟨c, hc, hca⟩ := Multiset.mem_map.mp hm
    obtain ⟨b, m⟩ := c
    obtain rfl : b = a := hca
    exact hno m hc

theorem Holds.delete (hh : Holds h ({(a, n)} + R)) : Holds (Function.update h a none) R := by
  refine ⟨fun b m => ?_, ?_⟩
  · by_cases hb : b = a
    · subst hb
      simp [hh.notMem m]
    · have hcells := hh.cells b m
      simp only [Multiset.mem_add, Multiset.mem_singleton, Prod.mk.injEq] at hcells
      simp only [Function.update_of_ne hb, hcells, hb, false_and, false_or]
  · have hnodup := hh.nodup
    rw [Multiset.singleton_add, Multiset.map_cons, Multiset.nodup_cons] at hnodup
    exact hnodup.2

/-- `new` always has an address to give. -/
theorem Holds.exists_free (hh : Holds h M) : ∃ a, h a = none := by
  obtain ⟨a, ha⟩ := Infinite.exists_notMem_finset (M.map Prod.fst).toFinset
  refine ⟨a, ?_⟩
  cases hn : h a with
  | none => rfl
  | some n =>
    refine absurd ?_ ha
    rw [Multiset.mem_toFinset]
    exact Multiset.mem_map_of_mem Prod.fst ((hh.cells a n).mp hn)

/-! ## The operations -/

variable {s : Mem γ ν}

theorem returns_deref {Q : ν → Mem γ ν → Prop} (hn : s.heap a = some n) :
    Returns (deref (some a)) s Q ↔ Q n s := by
  simp [deref, hn]

theorem returns_modifyCell {f : ν → ν} {Q : PUnit → Mem γ ν → Prop}
    (hh : Holds s.heap M) (hM : M = {(a, n)} + R)
    (hQ : ∀ h, Holds h ({(a, f n)} + R) → Q ⟨⟩ ⟨s.globals, h⟩) :
    Returns (modifyCell (some a) f) s Q := by
  subst hM
  have hn : s.heap a = some n := hh.get (by simp)
  simp only [modifyCell, returns_bind, returns_get, hn]
  exact ⟨⟨⟩, _, rfl, hQ _ (hh.update (f n))⟩

theorem returns_new {Q : Ptr → Mem γ ν → Prop} (hh : Holds s.heap M) (ha : s.heap a = none)
    (hQ : ∀ h, Holds h ({(a, n)} + M) → Q (some a) ⟨s.globals, h⟩) :
    Returns (new a n) s Q := by
  simp only [new, returns_bind, returns_get, ha]
  exact ⟨⟨⟩, _, rfl, returns_pure.mpr (hQ _ (hh.new ha n))⟩

theorem ensures_new : Ensures (new a n) s fun p s' =>
    s.heap a = none ∧ p = some a ∧
      s' = ⟨s.globals, Function.update s.heap a (some n)⟩ := by
  simp only [new, ensures_bind, ensures_get]
  cases ha : s.heap a with
  | some m => exact ensures_throw
  | none =>
    simp only [ensures_bind]
    intro _ s' hset
    cases hset
    exact ensures_pure.mpr ⟨trivial, rfl, rfl⟩

theorem ensures_delete : Ensures (delete (some a)) s fun _ s' => s'.heap a = none := by
  simp only [delete, ensures_bind, ensures_get]
  cases ha : s.heap a with
  | none => exact ensures_throw
  | some m =>
    intro _ s' hset
    cases hset
    exact Function.update_self ..

theorem ensures_deref {Q : ν → Mem γ ν → Prop} (hn : ∀ n, s.heap a = some n → Q n s) :
    Ensures (deref (some a)) s Q := by
  simp only [deref, ensures_bind, ensures_get]
  cases ha : s.heap a with
  | none => exact ensures_throw
  | some n => exact ensures_pure.mpr (hn n ha)

theorem returns_delete {Q : PUnit → Mem γ ν → Prop} (hh : Holds s.heap M)
    (hM : M = {(a, n)} + R) (hQ : ∀ h, Holds h R → Q ⟨⟩ ⟨s.globals, h⟩) :
    Returns (delete (some a)) s Q := by
  subst hM
  have hn : s.heap a = some n := hh.get (by simp)
  simp only [delete, returns_bind, returns_get, hn]
  exact ⟨⟨⟩, _, rfl, hQ _ hh.delete⟩

end Heap
