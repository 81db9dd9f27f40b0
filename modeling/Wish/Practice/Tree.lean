import Wish.Practice.RBTree

/-!
# The binary search tree of `practice/tree.h`

The functions of the source over a heap of `Node`s. The caller keeps the root: `erase` on the
last value marks it as invalid and the next `insert` uses it again.
-/

namespace Wish.SearchTree

open Prog Heap
open Wish.RBTree (Dir intMax)

/-- `struct Tree`. -/
structure Node (T : Type) where
  left : Ptr
  right : Ptr
  parent : Ptr
  value : T
  isValid : Bool
  deriving Repr

def Node.child {T : Type} (n : Node T) : Dir → Ptr
  | .left => n.left
  | .right => n.right

def Node.setChild {T : Type} (n : Node T) (d : Dir) (q : Ptr) : Node T :=
  match d with
  | .left => { n with left := q }
  | .right => { n with right := q }

abbrev TreeProg (T α : Type) := Prog Fault (Mem Unit (Node T)) α

variable {T : Type}

/-! ## The members of a node -/

def child (d : Dir) (p : Ptr) : TreeProg T Ptr := do return (← deref p).child d

def left (p : Ptr) : TreeProg T Ptr := child .left p

def right (p : Ptr) : TreeProg T Ptr := child .right p

def parent (p : Ptr) : TreeProg T Ptr := do return (← deref p).parent

def value (p : Ptr) : TreeProg T T := do return (← deref p).value

def isValid (p : Ptr) : TreeProg T Bool := do return (← deref p).isValid

def setChild (d : Dir) (p q : Ptr) : TreeProg T PUnit := modifyCell p fun n => n.setChild d q

def setLeft (p q : Ptr) : TreeProg T PUnit := setChild .left p q

def setRight (p q : Ptr) : TreeProg T PUnit := setChild .right p q

def setParent (p q : Ptr) : TreeProg T PUnit := modifyCell p fun n => { n with parent := q }

def setValue (p : Ptr) (t : T) : TreeProg T PUnit := modifyCell p fun n => { n with value := t }

def setIsValid (p : Ptr) (b : Bool) : TreeProg T PUnit :=
  modifyCell p fun n => { n with isValid := b }

/-- `new Tree<T>()` at the address `a`. -/
def newTree [Inhabited T] (a : Addr) : TreeProg T Ptr := new a ⟨none, none, none, default, true⟩

/-- `create_root(t)` -/
def createRootWith [Inhabited T] (a : Addr) (t : T) : TreeProg T Ptr := do
  let root ← newTree a
  setValue root t
  pure root

/-- `create_root()` -/
def createRoot [Inhabited T] (a : Addr) : TreeProg T Ptr := do
  let root ← newTree a
  setIsValid root false
  pure root

/-! ## Traversals -/

section foreach

variable {β : Type}

/-- `foreach_middle`; `acc` is what the callback has captured by reference. -/
def foreachMiddle (cb : β → Ptr → TreeProg T β) : Nat → β → Ptr → TreeProg T β
  | _, acc, none => pure acc
  | 0, _, some _ => throw .stuck
  | fuel + 1, acc, some a => do
    if !(← isValid (some a)) then pure acc
    else do
      let acc ← foreachMiddle cb fuel acc (← left (some a))
      let acc ← cb acc (some a)
      foreachMiddle cb fuel acc (← right (some a))

/-- `foreach_back` -/
def foreachBack (cb : β → Ptr → TreeProg T β) : Nat → β → Ptr → TreeProg T β
  | _, acc, none => pure acc
  | 0, _, some _ => throw .stuck
  | fuel + 1, acc, some a => do
    if !(← isValid (some a)) then pure acc
    else do
      let acc ← foreachBack cb fuel acc (← left (some a))
      let acc ← foreachBack cb fuel acc (← right (some a))
      cb acc (some a)

end foreach

/-- What `print` shows with `foreach_type::Mid`. -/
def printMid (fuel : Nat) (root : Ptr) : TreeProg T (List T) :=
  foreachMiddle (fun acc p => do return acc ++ [← value p]) fuel [] root

/-- The callback of `size`; the counter is an `int`. -/
def countNode (cnt : Nat) (_ : Ptr) : TreeProg T Nat :=
  if cnt = intMax then throw .overflow else pure (cnt + 1)

def size (fuel : Nat) (root : Ptr) : TreeProg T Nat := foreachBack countNode fuel 0 root

def find [LinearOrder T] : Nat → Ptr → T → TreeProg T Ptr
  | _, none, _ => pure none
  | 0, some _, _ => throw .stuck
  | fuel + 1, some a, t => do
    if !(← isValid (some a)) then pure none
    else do
      if (← value (some a)) = t then pure (some a)
      else do
        if (← value (some a)) > t then do
          find fuel (← left (some a)) t
        else do
          find fuel (← right (some a)) t

/-! ## Insertion -/

/-- `root->left = nnode` or `root->right = nnode` with a new node. -/
def insertChild [Inhabited T] (d : Dir) (root : Ptr) (a : Addr) (t : T) : TreeProg T PUnit := do
  let nnode ← newTree a
  setValue nnode t
  setParent nnode root
  setChild d root nnode

/-- `insert(root, t)`, with `new` giving the address `a`. -/
def insert [LinearOrder T] [Inhabited T] (a : Addr) : Nat → Ptr → T → TreeProg T PUnit
  | 0, _, _ => throw .stuck
  | fuel + 1, root, t => do
    if !(← isValid root) then do
      setIsValid root true
      setValue root t
    else do
      if t = (← value root) then pure ⟨⟩
      else do
        if (← value root) > t then do
          if (← left root) = none then insertChild .left root a t
          else do insert a fuel (← left root) t
        else do
          if (← right root) = none then insertChild .right root a t
          else do insert a fuel (← right root) t

/-! ## Deletion -/

def isRoot (node : Ptr) : TreeProg T Bool := do return (← parent node) = none

/-- `if (node->parent->left == node) ... = q; else ... = q;` -/
def replaceChild (node q : Ptr) : TreeProg T PUnit := do
  if (← left (← parent node)) = node then do
    setLeft (← parent node) q
  else do
    setRight (← parent node) q

/-- `if (p) p->parent = q` -/
def reparent (p q : Ptr) : TreeProg T PUnit := if p ≠ none then setParent p q else pure ⟨⟩

def eraseLeaf (node : Ptr) : TreeProg T PUnit := do
  if !(← isRoot node) then do
    replaceChild node none
    delete node
  else setIsValid node false

def eraseOneChild (node : Ptr) : TreeProg T PUnit := do
  let l ← left node
  let next ← (if l ≠ none then left node else right node)
  if !(← isRoot node) then do
    replaceChild node next
    setParent next (← parent node)
    delete node
  else do
    -- the root stays, with the members of its child
    setValue node (← value next)
    setLeft node (← left next)
    setRight node (← right next)
    reparent (← left next) node
    reparent (← right next) node
    delete next

/-- One round of the search for the greatest node on the left. -/
def rightmost (last : Ptr) : TreeProg T (Ptr ⊕ Ptr) := do
  let r ← right last
  if r ≠ none then pure (.inl r) else pure (.inr last)

/-- `last` is the `d` child of its parent, and its left child takes its place. -/
def takeOut (d : Dir) (last : Ptr) : TreeProg T PUnit := do
  setChild d (← parent last) (← left last)
  reparent (← left last) (← parent last)

def eraseTwoChildren (fuel : Nat) (node : Ptr) : TreeProg T PUnit := do
  let last ← loop .stuck rightmost fuel (← left node)
  setValue node (← value last)
  (if (← parent last) = node then takeOut .left last else takeOut .right last)
  delete last

/-- `erase(node)` -/
def eraseNode (fuel : Nat) (node : Ptr) : TreeProg T PUnit := do
  if (← left node) = none && (← right node) = none then eraseLeaf node
  else do
    if (← left node) = none || (← right node) = none then eraseOneChild node
    else eraseTwoChildren fuel node

/-- `erase(node, t)` -/
def erase [LinearOrder T] : Nat → Ptr → T → TreeProg T PUnit
  | _, none, _ => pure ⟨⟩
  | 0, some _, _ => throw .stuck
  | fuel + 1, some a, t => do
    if !(← isValid (some a)) then pure ⟨⟩
    else do
      if t = (← value (some a)) then eraseNode (fuel + 1) (some a)
      else do
        if (← value (some a)) > t then do
          erase fuel (← left (some a)) t
        else do
          erase fuel (← right (some a)) t

end Wish.SearchTree
