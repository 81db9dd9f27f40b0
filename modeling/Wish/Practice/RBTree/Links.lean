import Wish.Practice.RBTree.Shape

/-!
# The tree in the heap

`cells p t` are the nodes of `t` as they are in the heap when the parent of its root is `p`;
`Rep s t R` says that the memory holds them, `root` points to them, and the rest of the heap
is `R`. At a place inside, `Rep s (plug t K) R` is split by `rep_plug` into the context and
the subtree.

The rules for the members of a node, for the colours and for the rotations are stated there:
a rotation in the heap (`returns_revolve`) is one of the tree.
-/

namespace Wish.RBTree

open Prog Heap

variable {T : Type}

/-! ## Cells -/

/-- A node with the child `near` on the side `d`. -/
def mkNode (d : Dir) (p near far : Ptr) (c : ColorType) (v : T) : Node T :=
  match d with
  | .left => ⟨p, near, far, c, v⟩
  | .right => ⟨p, far, near, c, v⟩

section mkNode

variable (d : Dir) (p near far : Ptr) (c : ColorType) (v : T)

@[simp] theorem mkNode_parent : (mkNode d p near far c v).parent = p := by cases d <;> rfl

@[simp] theorem mkNode_color : (mkNode d p near far c v).color = c := by cases d <;> rfl

@[simp] theorem mkNode_value : (mkNode d p near far c v).value = v := by cases d <;> rfl

@[simp] theorem mkNode_child : (mkNode d p near far c v).child d = near := by cases d <;> rfl

@[simp] theorem mkNode_child_flip : (mkNode d p near far c v).child d.flip = far := by
  cases d <;> rfl

@[simp] theorem mkNode_setParent (q : Ptr) :
    { mkNode d p near far c v with parent := q } = mkNode d q near far c v := by cases d <;> rfl

@[simp] theorem mkNode_setColor (c' : ColorType) :
    { mkNode d p near far c v with color := c' } = mkNode d p near far c' v := by cases d <;> rfl

@[simp] theorem mkNode_setChild (q : Ptr) :
    (mkNode d p near far c v).setChild d q = mkNode d p q far c v := by cases d <;> rfl

@[simp] theorem mkNode_setChild_flip (q : Ptr) :
    (mkNode d p near far c v).setChild d.flip q = mkNode d p near q c v := by cases d <;> rfl

end mkNode

abbrev Cells (T : Type) := Multiset (Addr × Node T)

def cells : Ptr → Tree T → Cells T
  | _, .nil => 0
  | p, .node a c v l r => {(a, ⟨p, l.ptr, r.ptr, c, v⟩)} + cells (some a) l + cells (some a) r

/-- The nodes of the context, when the subtree has the pointer `q`. -/
def ctxCells : Ptr → Ctx T → Cells T
  | _, [] => 0
  | q, f :: K =>
    {(f.addr, mkNode f.dir (up K) q f.sib.ptr f.color f.value)} + cells (some f.addr) f.sib +
      ctxCells (some f.addr) K

theorem cells_mk (p : Ptr) (d : Dir) (a : Addr) (c : ColorType) (v : T) (near far : Tree T) :
    cells p (.mk d a c v near far) =
      {(a, mkNode d p near.ptr far.ptr c v)} + cells (some a) near + cells (some a) far := by
  cases d with
  | left => rfl
  | right => exact add_right_comm _ _ _

theorem cells_plug (t : Tree T) (K : Ctx T) :
    cells none (plug t K) = ctxCells t.ptr K + cells (up K) t := by
  induction K generalizing t with
  | nil => simp [plug, ctxCells, up]
  | cons f K ih =>
    rw [plug, ih, Frame.plug, Tree.ptr_mk, cells_mk, ctxCells, up]
    abel

/-- The memory holds the tree and `R`. -/
structure Rep (s : Mem Ptr (Node T)) (t : Tree T) (R : Cells T) : Prop where
  root : s.globals = t.ptr
  holds : Holds s.heap (cells none t + R)

variable {s : Mem Ptr (Node T)} {R M : Cells T} {K : Ctx T} {t : Tree T}

theorem rep_plug :
    Rep s (plug t K) R ↔
      s.globals = top t.ptr K ∧ Holds s.heap (ctxCells t.ptr K + cells (up K) t + R) := by
  rw [← ptr_plug, ← cells_plug]
  exact ⟨fun h => ⟨h.root, h.holds⟩, fun h => ⟨h.1, h.2⟩⟩

/-- The node at the root of the subtree. -/
theorem Rep.cell {d : Dir} {a : Addr} {c : ColorType} {v : T} {near far : Tree T}
    (h : Rep s (plug (.mk d a c v near far) K) R) :
    s.heap a = some (mkNode d (up K) near.ptr far.ptr c v) := by
  refine (rep_plug.mp h).2.get ?_
  rw [cells_mk]
  simp

theorem Rep.node {a : Addr} {c : ColorType} {v : T} {l r : Tree T}
    (h : Rep s (plug (.node a c v l r) K) R) : s.heap a = some ⟨up K, l.ptr, r.ptr, c, v⟩ :=
  Rep.cell (d := .left) h

/-- The parent of the subtree. -/
theorem Rep.frame {f : Frame T} (h : Rep s (plug t (f :: K)) R) :
    s.heap f.addr = some (mkNode f.dir (up K) t.ptr f.sib.ptr f.color f.value) :=
  Rep.cell (K := K) h

theorem ptr_mem_cells {p : Ptr} {a : Addr} (h : t.ptr = some a) :
    ∃ n, (a, n) ∈ cells p t := by
  cases t with
  | nil => cases h
  | node b c v l r =>
    cases h
    exact ⟨⟨p, l.ptr, r.ptr, c, v⟩, by simp [cells]⟩

theorem plug_far (d : Dir) (a : Addr) (c : ColorType) (v : T) (x y : Tree T) (K : Ctx T) :
    plug (.mk d a c v x y) K = plug y (⟨d.flip, a, c, v, x⟩ :: K) := by
  rw [plug, Frame.plug, Tree.mk_flip]

theorem mem_ctxCells {f : Frame T} (h : f ∈ K) (q : Ptr) :
    ∃ n, (f.addr, n) ∈ ctxCells q K := by
  induction K generalizing q with
  | nil => simp at h
  | cons g K ih =>
    rcases List.mem_cons.mp h with rfl | h
    · exact ⟨mkNode f.dir (up K) q f.sib.ptr f.color f.value, by simp [ctxCells]⟩
    · obtain ⟨n, hn⟩ := ih h (some g.addr)
      exact ⟨n, by simp [ctxCells, hn]⟩

/-- The node at the top of a context. -/
theorem exists_top (f : Frame T) (K : Ctx T) (q : Ptr) :
    ∃ g ∈ f :: K, top q (f :: K) = some g.addr := by
  induction K generalizing f q with
  | nil => exact ⟨f, List.mem_cons_self, rfl⟩
  | cons g K ih =>
    obtain ⟨k, hk, htop⟩ := ih g (some f.addr)
    exact ⟨k, List.mem_cons_of_mem f hk, htop⟩

/-- Only the whole tree has the pointer `root`. -/
theorem Rep.ne_root {f : Frame T} (h : Rep s (plug t (f :: K)) R) : t.ptr ≠ s.globals := by
  obtain ⟨hroot, hh⟩ := rep_plug.mp h
  obtain ⟨g, hg, htop⟩ := exists_top f K t.ptr
  rw [hroot, htop]
  intro he
  obtain ⟨n, hn⟩ := ptr_mem_cells (p := up (f :: K)) he
  obtain ⟨m, hm⟩ := mem_ctxCells hg t.ptr
  obtain ⟨R', hR'⟩ := Multiset.exists_cons_of_mem hn
  rw [hR', ← Multiset.singleton_add] at hh
  have hsplit : Holds s.heap ({(g.addr, n)} + (ctxCells t.ptr (f :: K) + R' + R)) :=
    cast (congrArg _ (by abel)) hh
  exact hsplit.notMem m (by simp [hm])

/-- A node is not its own child. -/
theorem Rep.child_ne {d : Dir} {a : Addr} {c : ColorType} {v : T} {near far : Tree T}
    (h : Rep s (plug (.mk d a c v near far) K) R) : near.ptr ≠ some a := by
  intro he
  obtain ⟨n, hn⟩ := ptr_mem_cells (p := some a) he
  have hh := (rep_plug.mp h).2
  rw [cells_mk] at hh
  have hsplit : Holds s.heap ({(a, mkNode d (up K) near.ptr far.ptr c v)} +
      (ctxCells (Tree.mk d a c v near far).ptr K + cells (some a) near + cells (some a) far +
        R)) := cast (congrArg _ (by abel)) hh
  exact hsplit.notMem n (by simp [hn])

/-- A node is not above itself. -/
theorem Rep.frame_ne {f g : Frame T} (h : Rep s (plug t (f :: K)) R) (hg : g ∈ K) :
    f.addr ≠ g.addr := by
  intro he
  obtain ⟨n, hn⟩ := mem_ctxCells hg (some f.addr)
  rw [← he] at hn
  have hh := (rep_plug.mp h).2
  rw [ctxCells] at hh
  have hsplit : Holds s.heap ({(f.addr, mkNode f.dir (up K) t.ptr f.sib.ptr f.color f.value)} +
      (cells (some f.addr) f.sib + ctxCells (some f.addr) K + cells (up (f :: K)) t + R)) := by
    refine cast (congrArg _ ?_) hh
    abel
  exact hsplit.notMem n (by simp [hn])

/-- The two children of a node are not at one address. -/
theorem Rep.sib_ne {f : Frame T} (h : Rep s (plug t (f :: K)) R) (ht : t ≠ .nil) :
    f.sib.ptr ≠ t.ptr := by
  intro he
  cases ht' : t.ptr with
  | none => exact ht (Tree.ptr_eq_none.mp ht')
  | some a =>
    obtain ⟨n, hn⟩ := ptr_mem_cells (p := some f.addr) ht'
    obtain ⟨m, hm⟩ := ptr_mem_cells (p := some f.addr) (he.trans ht')
    obtain ⟨R', hR'⟩ := Multiset.exists_cons_of_mem hn
    have hh := (rep_plug.mp h).2
    rw [ctxCells, up, hR', ← Multiset.singleton_add] at hh
    have hsplit : Holds s.heap ({(a, n)} + ({(f.addr, mkNode f.dir (up K) t.ptr f.sib.ptr
        f.color f.value)} + cells (some f.addr) f.sib + ctxCells (some f.addr) K + R' + R)) := by
      refine cast (congrArg _ ?_) hh
      abel
    exact hsplit.notMem m (by simp [hm])

/-! ## Reading and writing members -/

section members

variable {a : Addr} {n : Node T}

theorem returns_getRoot {Q : Ptr → Mem Ptr (Node T) → Prop} :
    Returns getRoot s Q ↔ Q s.globals s := by simp [getRoot]

theorem returns_setRoot {q : Ptr} {Q : PUnit → Mem Ptr (Node T) → Prop} :
    Returns (setRoot q) s Q ↔ Q ⟨⟩ ⟨q, s.heap⟩ := by simp [setRoot]

theorem returns_parent {Q : Ptr → Mem Ptr (Node T) → Prop} (hn : s.heap a = some n) :
    Returns (parent (some a)) s Q ↔ Q n.parent s := by simp [parent, returns_deref hn]

theorem returns_child {d : Dir} {Q : Ptr → Mem Ptr (Node T) → Prop} (hn : s.heap a = some n) :
    Returns (child d (some a)) s Q ↔ Q (n.child d) s := by simp [child, returns_deref hn]

theorem returns_left {Q : Ptr → Mem Ptr (Node T) → Prop} (hn : s.heap a = some n) :
    Returns (left (some a)) s Q ↔ Q n.left s := returns_child hn

theorem returns_right {Q : Ptr → Mem Ptr (Node T) → Prop} (hn : s.heap a = some n) :
    Returns (right (some a)) s Q ↔ Q n.right s := returns_child hn

theorem returns_color {Q : ColorType → Mem Ptr (Node T) → Prop} (hn : s.heap a = some n) :
    Returns (color (some a)) s Q ↔ Q n.color s := by simp [color, returns_deref hn]

theorem returns_value {Q : T → Mem Ptr (Node T) → Prop} (hn : s.heap a = some n) :
    Returns (value (some a)) s Q ↔ Q n.value s := by simp [value, returns_deref hn]

theorem returns_isRed {Q : Bool → Mem Ptr (Node T) → Prop} (hn : s.heap a = some n) :
    Returns (isRed (some a)) s Q ↔ Q (n.color = .Red) s := by simp [isRed, returns_color hn]

theorem returns_isBlack {Q : Bool → Mem Ptr (Node T) → Prop} (hn : s.heap a = some n) :
    Returns (isBlack (some a)) s Q ↔ Q (n.color = .Black) s := by simp [isBlack, returns_color hn]

theorem returns_setParent {q : Ptr} {Q : PUnit → Mem Ptr (Node T) → Prop}
    (hh : Holds s.heap M) (hM : M = {(a, n)} + R)
    (hQ : ∀ h, Holds h ({(a, { n with parent := q })} + R) → Q ⟨⟩ ⟨s.globals, h⟩) :
    Returns (setParent (some a) q) s Q := returns_modifyCell hh hM hQ

theorem returns_setValue {t : T} {Q : PUnit → Mem Ptr (Node T) → Prop}
    (hh : Holds s.heap M) (hM : M = {(a, n)} + R)
    (hQ : ∀ h, Holds h ({(a, { n with value := t })} + R) → Q ⟨⟩ ⟨s.globals, h⟩) :
    Returns (setValue (some a) t) s Q := returns_modifyCell hh hM hQ

theorem returns_setChild {d : Dir} {q : Ptr} {Q : PUnit → Mem Ptr (Node T) → Prop}
    (hh : Holds s.heap M) (hM : M = {(a, n)} + R)
    (hQ : ∀ h, Holds h ({(a, n.setChild d q)} + R) → Q ⟨⟩ ⟨s.globals, h⟩) :
    Returns (setChild d (some a) q) s Q := returns_modifyCell hh hM hQ

/-- The colour of a subtree's root is what `p && p->is_red()` asks for. -/
theorem returns_redNode {p : Ptr} {Q : Bool → Mem Ptr (Node T) → Prop}
    (hh : Holds s.heap (cells p t + R)) :
    Returns (redNode t.ptr) s Q ↔ Q (t.color = .Red) s := by
  cases t with
  | nil => simp [redNode, Tree.ptr, Tree.color]
  | node a c v l r =>
    have hn : s.heap a = some ⟨p, l.ptr, r.ptr, c, v⟩ := hh.get (by simp [cells])
    exact returns_isRed hn

theorem Rep.redNode (h : Rep s (plug t K) R) {Q : Bool → Mem Ptr (Node T) → Prop} :
    Returns (redNode t.ptr) s Q ↔ Q (t.color = .Red) s :=
  returns_redNode (p := up K) (R := ctxCells t.ptr K + R)
    (cast (congrArg _ (by abel)) (rep_plug.mp h).2)

/-- The root of a subtree gets another parent. -/
theorem returns_reparent {p q : Ptr} {Q : PUnit → Mem Ptr (Node T) → Prop}
    (hh : Holds s.heap (cells p t + R))
    (hQ : ∀ h, Holds h (cells q t + R) → Q ⟨⟩ ⟨s.globals, h⟩) :
    Returns (reparent t.ptr q) s Q := by
  cases t with
  | nil => exact returns_pure.mpr (hQ s.heap hh)
  | node a c v l r =>
    rw [reparent, Tree.ptr, if_pos (by simp)]
    refine returns_setParent (n := ⟨p, l.ptr, r.ptr, c, v⟩)
      (R := cells (some a) l + cells (some a) r + R) hh ?_ fun h hh' => hQ h ?_
    · rw [cells]
      abel
    · refine cast (congrArg _ ?_) hh'
      rw [cells]
      abel

theorem returns_setParentTree {p q : Ptr} {Q : PUnit → Mem Ptr (Node T) → Prop}
    (ht : t ≠ .nil) (hh : Holds s.heap (cells p t + R))
    (hQ : ∀ h, Holds h (cells q t + R) → Q ⟨⟩ ⟨s.globals, h⟩) :
    Returns (setParent t.ptr q) s Q := by
  have hreparent := returns_reparent hh hQ
  rwa [reparent, if_pos fun hn => ht (Tree.ptr_eq_none.mp hn)] at hreparent

end members

/-! ## The link from above -/

/-- The parent's pointer to the subtree is written. -/
theorem returns_setLink {x y : Ptr} {f : Frame T} {Q : PUnit → Mem Ptr (Node T) → Prop}
    (hroot : s.globals = top x (f :: K)) (hh : Holds s.heap (ctxCells x (f :: K) + R))
    (hQ : ∀ h, Holds h (ctxCells y (f :: K) + R) → Q ⟨⟩ ⟨top y (f :: K), h⟩) :
    Returns (setChild f.dir (some f.addr) y) s Q := by
  refine returns_setChild (n := mkNode f.dir (up K) x f.sib.ptr f.color f.value)
    (R := cells (some f.addr) f.sib + ctxCells (some f.addr) K + R) hh ?_ fun h hh' => ?_
  · rw [ctxCells]
    abel
  · rw [hroot]
    refine hQ h (cast (congrArg _ ?_) hh')
    rw [ctxCells, mkNode_setChild]
    abel

theorem sib_ne_of_holds {x : Addr} {n : Node T} {f : Frame T} {h : Addr → Option (Node T)}
    (hh : Holds h (ctxCells (some x) (f :: K) + ({(x, n)} + R))) : f.sib.ptr ≠ some x := by
  intro he
  obtain ⟨m, hm⟩ := ptr_mem_cells (p := some f.addr) he
  have hsplit : Holds h ({(x, n)} + (ctxCells (some x) (f :: K) + R)) :=
    cast (congrArg _ (by abel)) hh
  exact hsplit.notMem m (by simp [ctxCells, hm])

/-- `root` or the parent's pointer to `x` becomes `y`. -/
theorem returns_relink {x : Addr} {n : Node T} {y : Ptr} {Q : PUnit → Mem Ptr (Node T) → Prop}
    (hroot : s.globals = top (some x) K)
    (hh : Holds s.heap (ctxCells (some x) K + ({(x, n)} + R))) (hp : n.parent = up K)
    (hQ : ∀ h, Holds h (ctxCells y K + ({(x, n)} + R)) → Q ⟨⟩ ⟨top y K, h⟩) :
    Returns (relink (some x) y) s Q := by
  have hx : s.heap x = some n := hh.get (by simp)
  cases K with
  | nil =>
    rw [up] at hp
    simp only [relink, returns_bind, returns_parent hx, hp, if_true, returns_setRoot]
    exact hQ s.heap hh
  | cons f K =>
    rw [up] at hp
    have hf : s.heap f.addr = some (mkNode f.dir (up K) (some x) f.sib.ptr f.color f.value) :=
      hh.get (by simp [ctxCells])
    have hset := returns_setLink hroot hh hQ
    have hsib := sib_ne_of_holds hh
    obtain ⟨d, a, c, v, sib⟩ := f
    cases d with
    | left =>
      simp only [relink, returns_bind, returns_parent hx, hp, returns_left hf, mkNode, if_true,
        reduceCtorEq, if_false]
      exact hset
    | right =>
      have hne : some x ≠ sib.ptr := fun he => hsib he.symm
      simp only [relink, returns_bind, returns_parent hx, hp, returns_left hf, returns_right hf,
        mkNode, if_true, reduceCtorEq, if_false, hne]
      exact hset

/-- The parent's pointer to `x` becomes `y`. -/
theorem returns_replaceChild {x : Addr} {n : Node T} {y : Ptr} {f : Frame T}
    {Q : PUnit → Mem Ptr (Node T) → Prop} (hroot : s.globals = top (some x) (f :: K))
    (hh : Holds s.heap (ctxCells (some x) (f :: K) + ({(x, n)} + R)))
    (hp : n.parent = up (f :: K))
    (hQ : ∀ h, Holds h (ctxCells y (f :: K) + ({(x, n)} + R)) →
      Q ⟨⟩ ⟨top y (f :: K), h⟩) :
    Returns (replaceChild (some x) y) s Q := by
  have hx : s.heap x = some n := hh.get (by simp)
  have hf : s.heap f.addr = some (mkNode f.dir (up K) (some x) f.sib.ptr f.color f.value) :=
    hh.get (by simp [ctxCells])
  have hset := returns_setLink hroot hh hQ
  have hsib := sib_ne_of_holds hh
  obtain ⟨d, a, c, v, sib⟩ := f
  rw [up] at hp
  cases d with
  | left =>
    simp only [replaceChild, returns_bind, returns_parent hx, hp, returns_left hf, mkNode, if_true]
    exact hset
  | right =>
    have hne : sib.ptr ≠ some x := hsib
    simp only [replaceChild, returns_bind, returns_parent hx, hp, returns_left hf, mkNode, hne,
      if_false]
    exact hset

/-- `root` or the parent's pointer to `x` becomes `y`. -/
theorem returns_replaceNode {x : Addr} {n : Node T} {y : Ptr}
    {Q : PUnit → Mem Ptr (Node T) → Prop} (hroot : s.globals = top (some x) K)
    (hh : Holds s.heap (ctxCells (some x) K + ({(x, n)} + R))) (hp : n.parent = up K)
    (hQ : ∀ h, Holds h (ctxCells y K + ({(x, n)} + R)) → Q ⟨⟩ ⟨top y K, h⟩) :
    Returns (replaceNode (some x) y) s Q := by
  have hx : s.heap x = some n := hh.get (by simp)
  cases K with
  | nil =>
    rw [up] at hp
    simp only [replaceNode, returns_bind, returns_parent hx, hp, if_true, returns_setRoot]
    exact hQ s.heap hh
  | cons f K =>
    have hne : n.parent ≠ none := by
      rw [hp, up]
      exact Option.some_ne_none _
    simp only [replaceNode, returns_bind, returns_parent hx, if_neg hne]
    exact returns_replaceChild hroot hh hp hQ

/-! ## Colours and rotations -/

theorem returns_setColor {d : Dir} {a : Addr} {c c' : ColorType} {v : T} {near far : Tree T}
    {Q : PUnit → Mem Ptr (Node T) → Prop} (h : Rep s (plug (.mk d a c v near far) K) R)
    (hQ : ∀ s', Rep s' (plug (.mk d a c' v near far) K) R → Q ⟨⟩ s') :
    Returns (setColor (some a) c') s Q := by
  obtain ⟨hroot, hh⟩ := rep_plug.mp h
  rw [Tree.ptr_mk] at hroot hh
  refine returns_modifyCell (n := mkNode d (up K) near.ptr far.ptr c v)
    (R := ctxCells (some a) K + cells (some a) near + cells (some a) far + R) hh ?_
    fun h' hh' => hQ _ (rep_plug.mpr ⟨?_, ?_⟩)
  · rw [cells_mk]
    abel
  · rw [Tree.ptr_mk]
    exact hroot
  · rw [Tree.ptr_mk, cells_mk]
    refine cast (congrArg _ ?_) hh'
    rw [mkNode_setColor]
    abel

/-- **Rotation.** The far child `y` of `x` becomes the parent of `x`. -/
theorem returns_revolve {d : Dir} {x y : Addr} {cx cy : ColorType} {vx vy : T} {A B C : Tree T}
    {Q : PUnit → Mem Ptr (Node T) → Prop}
    (h : Rep s (plug (.mk d x cx vx A (.mk d y cy vy B C)) K) R)
    (hQ : ∀ s', Rep s' (plug (.mk d y cy vy (.mk d x cx vx A B) C) K) R → Q ⟨⟩ s') :
    Returns (revolve d (some x)) s Q := by
  obtain ⟨hroot, hh⟩ := rep_plug.mp h
  rw [Tree.ptr_mk] at hroot hh
  rw [cells_mk, cells_mk, Tree.ptr_mk] at hh
  have hx := h.cell
  have hy : s.heap y = some (mkNode d (some x) B.ptr C.ptr cy vy) := hh.get (by simp)
  rw [Tree.ptr_mk] at hx
  simp only [revolve, returns_bind, returns_child hx, returns_child hy, mkNode_child,
    mkNode_child_flip]
  -- `x->right = y->left`
  refine returns_setChild (R := ctxCells (some x) K + cells (some x) A +
    ({(y, mkNode d (some x) B.ptr C.ptr cy vy)} + cells (some y) B + cells (some y) C) + R)
    hh (by abel) fun h₁ hh₁ => ?_
  rw [mkNode_setChild_flip] at hh₁
  have hy₁ : h₁ y = some (mkNode d (some x) B.ptr C.ptr cy vy) := hh₁.get (by simp)
  simp only [returns_child (s := ⟨_, h₁⟩) hy₁, mkNode_child]
  -- `y->left->parent = x`
  refine returns_reparent (p := some y) (R := {(x, mkNode d (up K) A.ptr B.ptr cx vx)} +
    ctxCells (some x) K + cells (some x) A +
    ({(y, mkNode d (some x) B.ptr C.ptr cy vy)} + cells (some y) C) + R)
    (cast (congrArg _ (by abel)) hh₁) fun h₂ hh₂ => ?_
  have hx₂ : h₂ x = some (mkNode d (up K) A.ptr B.ptr cx vx) := hh₂.get (by simp)
  simp only [returns_parent (s := ⟨_, h₂⟩) hx₂, mkNode_parent]
  -- `y->parent = x->parent`
  refine returns_setParent (n := mkNode d (some x) B.ptr C.ptr cy vy)
    (R := {(x, mkNode d (up K) A.ptr B.ptr cx vx)} + ctxCells (some x) K +
      cells (some x) A + cells (some x) B + cells (some y) C + R) hh₂ (by abel) fun h₃ hh₃ => ?_
  rw [mkNode_setParent] at hh₃
  -- the link from above
  refine returns_relink (K := K) (n := mkNode d (up K) A.ptr B.ptr cx vx)
    (R := {(y, mkNode d (up K) B.ptr C.ptr cy vy)} + cells (some x) A + cells (some x) B +
      cells (some y) C + R) hroot (cast (congrArg _ (by abel)) hh₃) (mkNode_parent ..)
    fun h₄ hh₄ => ?_
  -- `y->left = x`
  refine returns_setChild (n := mkNode d (up K) B.ptr C.ptr cy vy)
    (R := ctxCells (some y) K + {(x, mkNode d (up K) A.ptr B.ptr cx vx)} +
      cells (some x) A + cells (some x) B + cells (some y) C + R) hh₄ (by abel) fun h₅ hh₅ => ?_
  rw [mkNode_setChild] at hh₅
  -- `x->parent = y`
  refine returns_setParent (n := mkNode d (up K) A.ptr B.ptr cx vx)
    (R := ctxCells (some y) K + {(y, mkNode d (up K) (some x) C.ptr cy vy)} +
      cells (some x) A + cells (some x) B + cells (some y) C + R) hh₅ (by abel) fun h₆ hh₆ => ?_
  rw [mkNode_setParent] at hh₆
  refine hQ _ (rep_plug.mpr ⟨by rw [Tree.ptr_mk], ?_⟩)
  rw [Tree.ptr_mk, cells_mk, cells_mk, Tree.ptr_mk]
  exact cast (congrArg _ (by abel)) hh₆

end Wish.RBTree
