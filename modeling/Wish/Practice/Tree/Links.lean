import Wish.Practice.Tree

/-!
# The search tree in the heap

A `Shape` has the addresses and the values of the nodes; `cells p t` are its nodes as they are
in the heap when the parent of its root is `p`.
-/

namespace Wish.SearchTree

open Prog Heap
open Wish.RBTree (Dir)

inductive Shape (T : Type) where
  | nil
  | node (a : Addr) (v : T) (l r : Shape T)

namespace Shape

variable {T : Type}

def ptr : Shape T → Ptr
  | nil => none
  | node a _ _ _ => some a

@[simp] theorem ptr_nil : (nil : Shape T).ptr = none := rfl

@[simp] theorem ptr_node (a : Addr) (v : T) (l r : Shape T) : (node a v l r).ptr = some a := rfl

theorem ptr_eq_none {t : Shape T} : t.ptr = none ↔ t = nil := by
  cases t <;> simp [ptr]

/-- The values in order. -/
def values : Shape T → List T
  | nil => []
  | node _ v l r => l.values ++ v :: r.values

def addrs : Shape T → List Addr
  | nil => []
  | node a _ l r => l.addrs ++ a :: r.addrs

def height : Shape T → Nat
  | nil => 0
  | node _ _ l r => max l.height r.height + 1

/-- A node with the child `near` on the side `d`. -/
def mk (d : Dir) (a : Addr) (v : T) (near far : Shape T) : Shape T :=
  match d with
  | .left => node a v near far
  | .right => node a v far near

end Shape

variable {T : Type}

/-! ## Cells -/

/-- A node with the child `near` on the side `d`. -/
def mkNode (d : Dir) (p near far : Ptr) (v : T) : Node T :=
  match d with
  | .left => ⟨near, far, p, v, true⟩
  | .right => ⟨far, near, p, v, true⟩

section mkNode

variable (d : Dir) (p near far : Ptr) (v : T)

@[simp] theorem mkNode_child : (mkNode d p near far v).child d = near := by cases d <;> rfl

@[simp] theorem mkNode_setChild (q : Ptr) :
    (mkNode d p near far v).setChild d q = mkNode d p q far v := by cases d <;> rfl

end mkNode

abbrev Cells (T : Type) := Multiset (Addr × Node T)

def cells : Ptr → Shape T → Cells T
  | _, .nil => 0
  | p, .node a v l r => {(a, ⟨l.ptr, r.ptr, p, v, true⟩)} + cells (some a) l + cells (some a) r

theorem cells_mk (p : Ptr) (d : Dir) (a : Addr) (v : T) (near far : Shape T) :
    cells p (.mk d a v near far) =
      {(a, mkNode d p near.ptr far.ptr v)} + cells (some a) near + cells (some a) far := by
  cases d with
  | left => rfl
  | right => exact add_right_comm _ _ _

theorem ptr_mem_cells {t : Shape T} {p : Ptr} {a : Addr} (h : t.ptr = some a) :
    ∃ n, (a, n) ∈ cells p t := by
  cases t with
  | nil => cases h
  | node b v l r =>
    cases h
    exact ⟨⟨l.ptr, r.ptr, p, v, true⟩, by simp [cells]⟩

variable {s : Mem Unit (Node T)} {R M : Cells T} {t : Shape T}

section children

variable {a : Addr} {v : T} {l r : Shape T} {p : Ptr} {h : Addr → Option (Node T)}

theorem holds_root (hh : Holds h (cells p (.node a v l r) + R)) :
    h a = some ⟨l.ptr, r.ptr, p, v, true⟩ :=
  hh.get (by simp [cells])

theorem holds_child {d : Dir} {near far : Shape T}
    (hh : Holds h (cells p (.mk d a v near far) + R)) : Holds h (cells (some a) near +
      ({(a, mkNode d p near.ptr far.ptr v)} + cells (some a) far + R)) := by
  refine cast (congrArg _ ?_) hh
  rw [cells_mk]
  abel

theorem holds_left (hh : Holds h (cells p (.node a v l r) + R)) : Holds h (cells (some a) l +
    ({(a, ⟨l.ptr, r.ptr, p, v, true⟩)} + cells (some a) r + R)) := holds_child (d := .left) hh

theorem holds_right (hh : Holds h (cells p (.node a v l r) + R)) : Holds h (cells (some a) r +
    ({(a, ⟨l.ptr, r.ptr, p, v, true⟩)} + cells (some a) l + R)) := holds_child (d := .right) hh

end children

/-- Two subtrees are not at one address. -/
theorem ptr_ne {t u : Shape T} {p q : Ptr} {h : Addr → Option (Node T)}
    (hh : Holds h (cells p t + cells q u + R)) (ht : t ≠ .nil) : u.ptr ≠ t.ptr := by
  intro he
  cases t with
  | nil => exact ht rfl
  | node a v l r =>
    obtain ⟨n, hn⟩ := ptr_mem_cells (p := q) he
    have hsplit : Holds h ({(a, ⟨l.ptr, r.ptr, p, v, true⟩)} +
        (cells (some a) l + cells (some a) r + cells q u + R)) := by
      refine cast (congrArg _ ?_) hh
      rw [cells]
      abel
    exact hsplit.notMem n (by simp [hn])

/-! ## Reading and writing members -/

section members

variable {a : Addr} {n : Node T}

theorem returns_child {d : Dir} {Q : Ptr → Mem Unit (Node T) → Prop} (hn : s.heap a = some n) :
    Returns (child d (some a)) s Q ↔ Q (n.child d) s := by simp [child, returns_deref hn]

theorem returns_left {Q : Ptr → Mem Unit (Node T) → Prop} (hn : s.heap a = some n) :
    Returns (left (some a)) s Q ↔ Q n.left s := returns_child hn

theorem returns_right {Q : Ptr → Mem Unit (Node T) → Prop} (hn : s.heap a = some n) :
    Returns (right (some a)) s Q ↔ Q n.right s := returns_child hn

theorem returns_parent {Q : Ptr → Mem Unit (Node T) → Prop} (hn : s.heap a = some n) :
    Returns (parent (some a)) s Q ↔ Q n.parent s := by simp [parent, returns_deref hn]

theorem returns_value {Q : T → Mem Unit (Node T) → Prop} (hn : s.heap a = some n) :
    Returns (value (some a)) s Q ↔ Q n.value s := by simp [value, returns_deref hn]

theorem returns_isValid {Q : Bool → Mem Unit (Node T) → Prop} (hn : s.heap a = some n) :
    Returns (isValid (some a)) s Q ↔ Q n.isValid s := by simp [isValid, returns_deref hn]

theorem returns_isRoot {Q : Bool → Mem Unit (Node T) → Prop} (hn : s.heap a = some n) :
    Returns (isRoot (some a)) s Q ↔ Q (n.parent = none) s := by simp [isRoot, returns_parent hn]

theorem returns_setParent {q : Ptr} {Q : PUnit → Mem Unit (Node T) → Prop}
    (hh : Holds s.heap M) (hM : M = {(a, n)} + R)
    (hQ : ∀ h, Holds h ({(a, { n with parent := q })} + R) → Q ⟨⟩ ⟨s.globals, h⟩) :
    Returns (setParent (some a) q) s Q := returns_modifyCell hh hM hQ

theorem returns_setValue {v : T} {Q : PUnit → Mem Unit (Node T) → Prop}
    (hh : Holds s.heap M) (hM : M = {(a, n)} + R)
    (hQ : ∀ h, Holds h ({(a, { n with value := v })} + R) → Q ⟨⟩ ⟨s.globals, h⟩) :
    Returns (setValue (some a) v) s Q := returns_modifyCell hh hM hQ

theorem returns_setIsValid {b : Bool} {Q : PUnit → Mem Unit (Node T) → Prop}
    (hh : Holds s.heap M) (hM : M = {(a, n)} + R)
    (hQ : ∀ h, Holds h ({(a, { n with isValid := b })} + R) → Q ⟨⟩ ⟨s.globals, h⟩) :
    Returns (setIsValid (some a) b) s Q := returns_modifyCell hh hM hQ

theorem returns_setChild {d : Dir} {q : Ptr} {Q : PUnit → Mem Unit (Node T) → Prop}
    (hh : Holds s.heap M) (hM : M = {(a, n)} + R)
    (hQ : ∀ h, Holds h ({(a, n.setChild d q)} + R) → Q ⟨⟩ ⟨s.globals, h⟩) :
    Returns (setChild d (some a) q) s Q := returns_modifyCell hh hM hQ

/-- The root of a subtree gets another parent. -/
theorem returns_reparent {p q : Ptr} {Q : PUnit → Mem Unit (Node T) → Prop}
    (hh : Holds s.heap M) (hM : M = cells p t + R)
    (hQ : ∀ h, Holds h (cells q t + R) → Q ⟨⟩ ⟨s.globals, h⟩) :
    Returns (reparent t.ptr q) s Q := by
  subst hM
  cases t with
  | nil => exact returns_pure.mpr (hQ s.heap hh)
  | node a v l r =>
    rw [reparent, Shape.ptr, if_pos (by simp)]
    refine returns_setParent (n := ⟨l.ptr, r.ptr, p, v, true⟩)
      (R := cells (some a) l + cells (some a) r + R) hh ?_ fun h hh' => hQ h ?_
    · rw [cells]
      abel
    · refine cast (congrArg _ ?_) hh'
      rw [cells]
      abel

theorem returns_setParentTree {p q : Ptr} {Q : PUnit → Mem Unit (Node T) → Prop}
    (ht : t ≠ .nil) (hh : Holds s.heap M) (hM : M = cells p t + R)
    (hQ : ∀ h, Holds h (cells q t + R) → Q ⟨⟩ ⟨s.globals, h⟩) :
    Returns (setParent t.ptr q) s Q := by
  have hreparent := returns_reparent hh hM hQ
  rwa [reparent, if_pos fun hn => ht (Shape.ptr_eq_none.mp hn)] at hreparent

end members

end Wish.SearchTree
