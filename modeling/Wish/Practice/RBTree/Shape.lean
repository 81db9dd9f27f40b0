import Wish.Practice.RBTree

/-!
# Shapes of red-black trees

A `Tree` has the addresses, colours and values of the nodes; a `Ctx` is the way from a subtree
up to the root. `Balanced t n` says that no red node of `t` has a red child and that every
path down `t` meets `n` black nodes; `Accepts K n` that a subtree of that black height fits
into `K`, where only the colour of its root is still open.

`toList_plug`, `balanced_plug` and `accepts_of_plug` take these apart and put them together
along a context.
-/

namespace Wish.RBTree

open Heap

theorem not_red_iff {c : ColorType} : c ≠ .Red ↔ c = .Black := by cases c <;> simp

inductive Tree (T : Type) where
  | nil
  | node (a : Addr) (c : ColorType) (v : T) (l r : Tree T)

namespace Tree

variable {T : Type}

/-- The pointer to the tree. -/
def ptr : Tree T → Ptr
  | nil => none
  | node a _ _ _ _ => some a

@[simp] theorem ptr_nil : (nil : Tree T).ptr = none := rfl

@[simp] theorem ptr_node (a : Addr) (c : ColorType) (v : T) (l r : Tree T) :
    (node a c v l r).ptr = some a := rfl

/-- The nodes in order, each with its value. -/
def toList : Tree T → List (Addr × T)
  | nil => []
  | node a _ v l r => l.toList ++ (a, v) :: r.toList

/-- The colour of the root; the empty tree is black. -/
def color : Tree T → ColorType
  | nil => .Black
  | node _ c _ _ _ => c

def setColor (c : ColorType) : Tree T → Tree T
  | nil => nil
  | node a _ v l r => node a c v l r

def height : Tree T → Nat
  | nil => 0
  | node _ _ _ l r => max l.height r.height + 1

/-- A node with the child `near` on the side `d`. -/
def mk (d : Dir) (a : Addr) (c : ColorType) (v : T) (near far : Tree T) : Tree T :=
  match d with
  | .left => node a c v near far
  | .right => node a c v far near

theorem mk_flip (d : Dir) (a : Addr) (c : ColorType) (v : T) (near far : Tree T) :
    mk d.flip a c v near far = mk d a c v far near := by cases d <;> rfl

@[simp] theorem ptr_mk (d : Dir) (a : Addr) (c : ColorType) (v : T) (near far : Tree T) :
    (mk d a c v near far).ptr = some a := by cases d <;> rfl

@[simp] theorem color_mk (d : Dir) (a : Addr) (c : ColorType) (v : T) (near far : Tree T) :
    (mk d a c v near far).color = c := by cases d <;> rfl

@[simp] theorem ptr_setColor (t : Tree T) (c : ColorType) : (t.setColor c).ptr = t.ptr := by
  cases t <;> rfl

@[simp] theorem toList_setColor (t : Tree T) (c : ColorType) :
    (t.setColor c).toList = t.toList := by cases t <;> rfl

theorem setColor_color {t : Tree T} {c : ColorType} (h : t.color = c) : t.setColor c = t := by
  subst h
  cases t <;> rfl

@[simp] theorem toList_eq_nil {t : Tree T} : t.toList = [] ↔ t = nil := by
  cases t <;> simp [toList]

theorem ptr_eq_none {t : Tree T} : t.ptr = none ↔ t = nil := by
  cases t <;> simp [ptr]

/-- The child on the side `d`. -/
def child (d : Dir) : Tree T → Tree T
  | nil => nil
  | node _ _ _ l r =>
    match d with
    | .left => l
    | .right => r

@[simp] theorem child_mk (d : Dir) (a : Addr) (c : ColorType) (v : T) (near far : Tree T) :
    (mk d a c v near far).child d = near := by cases d <;> rfl

@[simp] theorem child_flip_mk (d : Dir) (a : Addr) (c : ColorType) (v : T) (near far : Tree T) :
    (mk d a c v near far).child d.flip = far := by cases d <;> rfl

@[simp] theorem setColor_mk (d : Dir) (a : Addr) (c c' : ColorType) (v : T) (near far : Tree T) :
    (mk d a c v near far).setColor c' = mk d a c' v near far := by cases d <;> rfl

/-- A tree that is not empty, seen from a side. -/
theorem exists_mk {t : Tree T} (h : t ≠ nil) (d : Dir) :
    ∃ a c v near far, t = mk d a c v near far := by
  cases t with
  | nil => exact absurd rfl h
  | node a c v l r =>
    cases d with
    | left => exact ⟨a, c, v, l, r, rfl⟩
    | right => exact ⟨a, c, v, r, l, rfl⟩

/-- A red node is not empty. -/
theorem ne_nil_of_red {t : Tree T} (h : t.color = .Red) : t ≠ nil := by
  rintro rfl
  cases h

end Tree

/-! ## Contexts -/

/-- One step up: the node above, where it has the subtree as its child `dir`, and the child
on the other side. -/
structure Frame (T : Type) where
  dir : Dir
  addr : Addr
  color : ColorType
  value : T
  sib : Tree T

/-- From the parent up to the root. -/
abbrev Ctx (T : Type) := List (Frame T)

variable {T : Type}

def Frame.plug (f : Frame T) (t : Tree T) : Tree T := .mk f.dir f.addr f.color f.value t f.sib

/-- The whole tree. -/
def plug (t : Tree T) : Ctx T → Tree T
  | [] => t
  | f :: K => plug (f.plug t) K

/-- The parent. -/
def up : Ctx T → Ptr
  | [] => none
  | f :: _ => some f.addr

/-- The pointer `root` when the subtree has the pointer `q`. -/
def top : Ptr → Ctx T → Ptr
  | q, [] => q
  | _, f :: K => top (some f.addr) K

/-- The colour of the parent. -/
def upColor : Ctx T → ColorType
  | [] => .Black
  | f :: _ => f.color

/-- What is before the subtree, in order. -/
def before : Ctx T → List (Addr × T)
  | [] => []
  | f :: K =>
    match f.dir with
    | .left => before K
    | .right => before K ++ f.sib.toList ++ [(f.addr, f.value)]

/-- What is after the subtree. -/
def after : Ctx T → List (Addr × T)
  | [] => []
  | f :: K =>
    match f.dir with
    | .left => (f.addr, f.value) :: f.sib.toList ++ after K
    | .right => after K

theorem plug_append (t : Tree T) (K K' : Ctx T) :
    plug t (K ++ K') = plug (plug t K) K' := by
  induction K generalizing t with
  | nil => rfl
  | cons f K ih => exact ih (f.plug t)

theorem toList_plug (t : Tree T) (K : Ctx T) :
    (plug t K).toList = before K ++ t.toList ++ after K := by
  induction K generalizing t with
  | nil => simp [plug, before, after]
  | cons f K ih =>
    rw [plug, ih]
    obtain ⟨d, a, c, v, sib⟩ := f
    cases d <;> simp [Frame.plug, Tree.mk, Tree.toList, before, after]

theorem plug_ne_nil {t : Tree T} (h : t ≠ .nil) (K : Ctx T) : plug t K ≠ .nil := by
  rw [Ne, ← Tree.toList_eq_nil, toList_plug]
  simp [h]

theorem length_add_height_le (t : Tree T) (K : Ctx T) :
    K.length + t.height ≤ (plug t K).height := by
  induction K generalizing t with
  | nil => simp [plug]
  | cons f K ih =>
    have hih := ih (f.plug t)
    have hf : t.height + 1 ≤ (f.plug t).height := by
      obtain ⟨d, a, c, v, sib⟩ := f
      cases d <;> simp [Frame.plug, Tree.mk, Tree.height]
    rw [plug, List.length_cons]
    omega

theorem ptr_plug (t : Tree T) (K : Ctx T) : (plug t K).ptr = top t.ptr K := by
  induction K generalizing t with
  | nil => rfl
  | cons f K ih => rw [plug, ih, top, Frame.plug, Tree.ptr_mk]

/-- Nothing is before the leftmost subtree. -/
theorem before_of_left {K : Ctx T} (h : ∀ f ∈ K, f.dir = .left) : before K = [] := by
  induction K with
  | nil => rfl
  | cons f K ih =>
    rw [before, h f List.mem_cons_self]
    exact ih fun g hg => h g (List.mem_cons_of_mem f hg)

theorem toList_plug_congr {t t' : Tree T} (h : t.toList = t'.toList) (K : Ctx T) :
    (plug t K).toList = (plug t' K).toList := by
  rw [toList_plug, toList_plug, h]

/-- A rotation keeps the order. -/
theorem toList_rotate (d : Dir) (x y : Addr) (cx cy cx' cy' : ColorType) (vx vy : T)
    (A B C : Tree T) :
    (Tree.mk d y cy' vy (Tree.mk d x cx' vx A B) C).toList =
      (Tree.mk d x cx vx A (Tree.mk d y cy vy B C)).toList := by
  cases d <;> simp [Tree.mk, Tree.toList]

theorem toList_mk_congr {d : Dir} {a : Addr} {c c' : ColorType} {v : T} {t t' u u' : Tree T}
    (ht : t.toList = t'.toList) (hu : u.toList = u'.toList) :
    (Tree.mk d a c v t u).toList = (Tree.mk d a c' v t' u').toList := by
  cases d <;> simp [Tree.mk, Tree.toList, ht, hu]

/-! ## Balance -/

/-- No red node has a red child, and the black height is `n`. -/
inductive Balanced : Tree T → Nat → Prop where
  | nil : Balanced .nil 0
  | red {a : Addr} {v : T} {l r : Tree T} {n : Nat} (hl : Balanced l n) (hr : Balanced r n)
      (cl : l.color = .Black) (cr : r.color = .Black) : Balanced (.node a .Red v l r) n
  | black {a : Addr} {v : T} {l r : Tree T} {n : Nat} (hl : Balanced l n) (hr : Balanced r n) :
      Balanced (.node a .Black v l r) (n + 1)

/-- A subtree of black height `n` fits; a red parent has a black one. -/
inductive Accepts : Ctx T → Nat → Prop where
  | nil {n : Nat} : Accepts [] n
  | red {d : Dir} {a : Addr} {v : T} {sib : Tree T} {f : Frame T} {K : Ctx T} {n : Nat}
      (hs : Balanced sib n) (cs : sib.color = .Black) (hf : f.color = .Black)
      (hctx : Accepts (f :: K) n) : Accepts (⟨d, a, .Red, v, sib⟩ :: f :: K) n
  | black {d : Dir} {a : Addr} {v : T} {sib : Tree T} {K : Ctx T} {n : Nat}
      (hs : Balanced sib n) (hctx : Accepts K (n + 1)) :
      Accepts (⟨d, a, .Black, v, sib⟩ :: K) n

theorem balanced_mk_red {d : Dir} {a : Addr} {v : T} {x y : Tree T} {n : Nat} :
    Balanced (.mk d a .Red v x y) n ↔
      Balanced x n ∧ Balanced y n ∧ x.color = .Black ∧ y.color = .Black := by
  cases d with
  | left =>
    constructor
    · rintro (_ | ⟨hl, hr, cl, cr⟩)
      exact ⟨hl, hr, cl, cr⟩
    · exact fun ⟨hl, hr, cl, cr⟩ => .red hl hr cl cr
  | right =>
    constructor
    · rintro (_ | ⟨hl, hr, cl, cr⟩)
      exact ⟨hr, hl, cr, cl⟩
    · exact fun ⟨hl, hr, cl, cr⟩ => .red hr hl cr cl

theorem balanced_mk_black {d : Dir} {a : Addr} {v : T} {x y : Tree T} {n : Nat} :
    Balanced (.mk d a .Black v x y) n ↔ ∃ m, n = m + 1 ∧ Balanced x m ∧ Balanced y m := by
  cases d with
  | left =>
    constructor
    · rintro (_ | _ | ⟨hl, hr⟩)
      exact ⟨_, rfl, hl, hr⟩
    · rintro ⟨m, rfl, hl, hr⟩
      exact .black hl hr
  | right =>
    constructor
    · rintro (_ | _ | ⟨hl, hr⟩)
      exact ⟨_, rfl, hr, hl⟩
    · rintro ⟨m, rfl, hl, hr⟩
      exact .black hr hl

/-- The black height of the empty tree is `0`. -/
theorem Balanced.ne_nil {t : Tree T} {n : Nat} (h : Balanced t (n + 1)) : t ≠ .nil := by
  rintro rfl
  cases h

theorem Balanced.setBlack {t : Tree T} {n : Nat} (h : Balanced t n) :
    ∃ m, Balanced (t.setColor .Black) m := by
  cases h with
  | nil => exact ⟨0, .nil⟩
  | red hl hr _ _ => exact ⟨_, .black hl hr⟩
  | black hl hr => exact ⟨_, .black hl hr⟩

theorem color_setBlack (t : Tree T) : (t.setColor .Black).color = .Black := by
  cases t <;> rfl

/-- A red subtree becomes one higher. -/
theorem Balanced.blacken {t : Tree T} {n : Nat} (h : Balanced t n) (hc : t.color = .Red) :
    Balanced (t.setColor .Black) (n + 1) := by
  cases h with
  | nil => cases hc
  | red hl hr _ _ => exact .black hl hr
  | black hl hr => cases hc

theorem balanced_plug {t : Tree T} {K : Ctx T} {n : Nat} (ht : Balanced t n)
    (hctx : Accepts K n) (hc : t.color = .Black ∨ upColor K = .Black) :
    ∃ m, Balanced (plug t K) m := by
  induction K generalizing t n with
  | nil => exact ⟨n, ht⟩
  | cons f K ih =>
    cases hctx with
    | red hs cs hf hctx =>
      have htc : t.color = .Black := by
        rcases hc with hc | hc
        · exact hc
        · cases hc
      exact ih (balanced_mk_red.mpr ⟨ht, hs, htc, cs⟩) hctx (Or.inr hf)
    | black hs hctx =>
      exact ih (balanced_mk_black.mpr ⟨n, rfl, ht, hs⟩) hctx (Or.inl (Tree.color_mk ..))

/-- The root of the whole tree is black if the subtree is not the whole tree. -/
theorem color_plug {t : Tree T} {K : Ctx T} {n : Nat} (hctx : Accepts K n) (hne : K ≠ []) :
    (plug t K).color = .Black := by
  induction hctx generalizing t with
  | nil => exact absurd rfl hne
  | red hs cs hf hctx ih => exact ih (List.cons_ne_nil _ _)
  | @black d a v sib K n hs hctx ih =>
    cases K with
    | nil => exact Tree.color_mk ..
    | cons f K => exact ih (List.cons_ne_nil _ _)

/-- Where a subtree sits in a red-black tree. -/
theorem accepts_of_plug {t : Tree T} {K : Ctx T} {m : Nat} (h : Balanced (plug t K) m)
    (hc : (plug t K).color = .Black) :
    ∃ n, Balanced t n ∧ Accepts K n ∧ (t.color = .Red → K ≠ [] ∧ upColor K = .Black) := by
  induction K generalizing t with
  | nil =>
    refine ⟨m, h, .nil, fun hred => ?_⟩
    rw [show t.color = .Black from hc] at hred
    cases hred
  | cons f K ih =>
    obtain ⟨n, hf, hctx, hup⟩ := ih h hc
    obtain ⟨d, a, c, v, sib⟩ := f
    cases c with
    | Red =>
      obtain ⟨ht, hs, ct, cs⟩ := balanced_mk_red.mp hf
      obtain ⟨hne, hupc⟩ := hup (Tree.color_mk ..)
      cases K with
      | nil => exact absurd rfl hne
      | cons g K =>
        refine ⟨n, ht, .red hs cs hupc hctx, fun hred => ?_⟩
        rw [ct] at hred
        cases hred
    | Black =>
      obtain ⟨k, rfl, ht, hs⟩ := balanced_mk_black.mp hf
      exact ⟨k, ht, .black hs hctx, fun _ => ⟨List.cons_ne_nil _ _, rfl⟩⟩

/-- Another balanced black sibling does as well. -/
theorem Accepts.setSib {d : Dir} {a : Addr} {c : ColorType} {v : T} {S S' : Tree T} {K : Ctx T}
    {n : Nat} (h : Accepts (⟨d, a, c, v, S⟩ :: K) n) (hs : Balanced S' n)
    (hc : S'.color = .Black) : Accepts (⟨d, a, c, v, S'⟩ :: K) n := by
  cases h with
  | red _ _ hf hctx => exact .red hs hc hf hctx
  | black _ hctx => exact .black hs hctx

theorem Accepts.sib {f : Frame T} {K : Ctx T} {n : Nat} (h : Accepts (f :: K) n) :
    Balanced f.sib n := by
  cases h with
  | red hs _ _ _ => exact hs
  | black hs _ => exact hs

/-- The address and the value of a node above do not matter. -/
theorem Accepts.rename {d : Dir} {a b : Addr} {c : ColorType} {v w : T} {S : Tree T}
    {K K' : Ctx T} {n : Nat} (h : Accepts (K ++ ⟨d, a, c, v, S⟩ :: K') n) :
    Accepts (K ++ ⟨d, b, c, w, S⟩ :: K') n := by
  induction K generalizing n with
  | nil =>
    cases h with
    | red hs cs hf hctx => exact .red hs cs hf hctx
    | black hs hctx => exact .black hs hctx
  | cons f K ih =>
    cases h' : K ++ ⟨d, a, c, v, S⟩ :: K' with
    | nil => simp at h'
    | cons g G =>
      rw [List.cons_append, h'] at h
      cases h with
      | black hs hctx =>
        rw [← h'] at hctx
        exact .black hs (ih hctx)
      | red hs cs hf hctx =>
        rw [← h'] at hctx
        have hih := ih hctx
        cases K with
        | nil =>
          obtain ⟨rfl, -⟩ := List.cons.inj h'
          exact .red hs cs hf hih
        | cons k K =>
          obtain ⟨rfl, -⟩ := List.cons.inj h'
          exact .red hs cs hf hih

end Wish.RBTree
