import Wish.Practice.Tree.Links

/-!
# `erase(node)`

`under d b p q x t` are the nodes of a subtree and the node `b` above it: `erase` of the root of
the subtree writes the link from `b`. `Last` takes the greatest node off a subtree.
-/

namespace Wish.SearchTree

open Prog Heap
open Wish.RBTree (Dir)

variable {T : Type} {s : Mem Unit (Node T)} {R M : Cells T} {t t' m : Shape T}
  {a b c : Addr} {d : Dir} {p q : Ptr} {v w x : T}

/-- The subtree `t` and the node `b` above it, with `q` on its other side. -/
def under (d : Dir) (b : Addr) (p q : Ptr) (x : T) (t : Shape T) : Cells T :=
  {(b, mkNode d p t.ptr q x)} + cells (some b) t

/-- The node above apart from the subtree. -/
theorem holds_under {h : Addr → Option (Node T)} : Holds h (under d b p q x t + R) ↔
    Holds h (cells (some b) t + ({(b, mkNode d p t.ptr q x)} + R)) := by
  have hsplit : under d b p q x t + R =
      cells (some b) t + ({(b, mkNode d p t.ptr q x)} + R) := by
    rw [under]
    abel
  rw [hsplit]

/-- A child with the node above it, apart from the other child. -/
theorem cells_mk_under (p : Ptr) (d : Dir) (a : Addr) (v : T) (near far : Shape T) :
    cells p (.mk d a v near far) = under d a p far.ptr v near + cells (some a) far := by
  rw [cells_mk, under]

/-- What is done to a child is done to the tree. -/
theorem returns_child_frame {α : Type} {prog : TreeProg T α} {P : Shape T → Prop}
    {near far : Shape T} (hh : Holds s.heap (cells p (.mk d a v near far) + R))
    (hprog : ∀ R, Holds s.heap (under d a p far.ptr v near + R) →
      (near ≠ .nil → far.ptr ≠ near.ptr) → Returns prog s fun _ s' => ∃ near', P near' ∧
        Holds s'.heap (under d a p far.ptr v near' + R)) :
    Returns prog s fun _ s' => ∃ near', P near' ∧
      Holds s'.heap (cells p (.mk d a v near' far) + R) := by
  simp only [cells_mk_under, add_assoc] at hh ⊢
  refine hprog _ hh fun hne => ?_
  refine ptr_ne (p := some a) (q := some a) (R := {(a, mkNode d p near.ptr far.ptr v)} + R)
    (cast (congrArg _ ?_) hh) hne
  rw [under]
  abel

/-- The parent's pointer to the node `a` becomes `y`. -/
theorem returns_replaceChild {n : Node T} {y : Ptr} {Q : PUnit → Mem Unit (Node T) → Prop}
    (hh : Holds s.heap M) (hM : M = {(b, mkNode d p (some a) q x)} + ({(a, n)} + R))
    (hp : n.parent = some b) (hq : q ≠ some a)
    (hQ : ∀ h, Holds h ({(b, mkNode d p y q x)} + ({(a, n)} + R)) → Q ⟨⟩ ⟨s.globals, h⟩) :
    Returns (replaceChild (some a) y) s Q := by
  subst hM
  have ha : s.heap a = some n := hh.get (by simp)
  have hb : s.heap b = some (mkNode d p (some a) q x) := hh.get (by simp)
  have hset : Returns (setChild d (some b) y) s Q := by
    refine returns_setChild hh rfl fun h hh' => hQ h ?_
    rwa [mkNode_setChild] at hh'
  cases d with
  | left =>
    simp only [replaceChild, returns_bind, returns_parent ha, hp, returns_left hb, mkNode, if_true]
    exact hset
  | right =>
    simp only [replaceChild, returns_bind, returns_parent ha, hp, returns_left hb, mkNode,
      hq, if_false]
    exact hset

/-! ## The greatest node -/

/-- The greatest node of `t` is `c`, with the value `w` and the left child `m`; without it the
subtree is `t'`. -/
inductive Last : Shape T → Addr → T → Shape T → Shape T → Prop
  | here {a : Addr} {v : T} {l : Shape T} : Last (.node a v l .nil) a v l l
  | right {a c : Addr} {v w : T} {l r m r' : Shape T} (h : Last r c w m r') :
      Last (.node a v l r) c w m (.node a v l r')

theorem exists_last (ht : t ≠ .nil) : ∃ c w m t', Last t c w m t' := by
  induction t with
  | nil => exact absurd rfl ht
  | node a v l r ihl ihr =>
    cases r with
    | nil => exact ⟨a, v, l, l, .here⟩
    | node b w rl rr =>
      obtain ⟨c, u, m, r', hlast⟩ := ihr (by simp)
      exact ⟨c, u, m, _, .right hlast⟩

theorem Last.ne_nil (h : Last t c w m t') : t ≠ .nil := by
  cases h with
  | here => simp
  | right h => simp

theorem Last.values (h : Last t c w m t') : t.values = t'.values ++ [w] := by
  induction h with
  | here => simp [Shape.values]
  | right h ih => simp [Shape.values, ih]

/-- The loop of `erase` finds it. -/
theorem Last.returns_rightmost {fuel : Nat} (h : Last t c w m t')
    (hh : Holds s.heap (cells p t + R)) (hfuel : t.height ≤ fuel) :
    Returns (loop .stuck rightmost fuel t.ptr) s fun r s' => s' = s ∧ r = some c := by
  induction h generalizing fuel p R with
  | @here a v l =>
    simp only [Shape.height] at hfuel
    obtain ⟨fuel, rfl⟩ := Nat.exists_eq_add_one_of_ne_zero (Nat.ne_zero_of_lt hfuel)
    have ha : s.heap a = some ⟨l.ptr, none, p, v, true⟩ := hh.get (by simp [cells])
    simp [loop, rightmost, returns_right ha]
  | @right a c v w l r m r' h ih =>
    simp only [Shape.height] at hfuel
    obtain ⟨fuel, rfl⟩ := Nat.exists_eq_add_one_of_ne_zero (Nat.ne_zero_of_lt hfuel)
    have ha := holds_root hh
    have hr : r.ptr ≠ none := fun hn => h.ne_nil (Shape.ptr_eq_none.mp hn)
    have hsplit := holds_right hh
    simp only [Shape.ptr_node, loop, rightmost, returns_bind, returns_right ha, ne_eq, hr,
      not_false_eq_true, if_true, returns_pure]
    exact ih hsplit (by omega)

/-- The node above the greatest one, which is `b` or further down. -/
theorem Last.split (h : Last t c w m t') (d : Dir) (b : Addr) (p q : Ptr) (x : T) :
    ∃ b' d' p' q' x' R',
      under d b p q x t = {(b', mkNode d' p' (some c) q' x')} +
        ({(c, ⟨m.ptr, none, some b', w, true⟩)} + cells (some c) m + R') ∧
      under d b p q x t' = {(b', mkNode d' p' m.ptr q' x')} + cells (some b') m + R' ∧
      (b' = b ∧ d' = d ∨ d' = .right ∧ ∃ n, (b', n) ∈ cells (some b) t) := by
  induction h generalizing d b p q x with
  | @here a v l =>
    refine ⟨b, d, p, q, x, 0, ?_, ?_, Or.inl ⟨rfl, rfl⟩⟩
    · simp only [under, cells, Shape.ptr_node, Shape.ptr_nil]
    · simp only [under, add_zero]
  | @right a c v w l r m r' h ih =>
    obtain ⟨b', d', p', q', x', R', hfull, hless, hplace⟩ := ih .right a (some b) l.ptr v
    refine ⟨b', d', p', q', x', {(b, mkNode d p (some a) q x)} + cells (some a) l + R',
      ?_, ?_, Or.inr ?_⟩
    · have hunder : under d b p q x (.node a v l r) =
          {(b, mkNode d p (some a) q x)} + cells (some a) l +
            under .right a (some b) l.ptr v r := by
        simp only [under, cells, mkNode, Shape.ptr_node]
        abel
      rw [hunder, hfull]
      abel
    · have hunder : under d b p q x (.node a v l r') =
          {(b, mkNode d p (some a) q x)} + cells (some a) l +
            under .right a (some b) l.ptr v r' := by
        simp only [under, cells, mkNode, Shape.ptr_node]
        abel
      rw [hunder, hless]
      abel
    · rcases hplace with ⟨rfl, rfl⟩ | ⟨rfl, n, hn⟩
      · exact ⟨rfl, ⟨l.ptr, r.ptr, some b, v, true⟩, by simp [cells]⟩
      · exact ⟨rfl, n, by simp [cells, hn]⟩

theorem returns_takeOut {Q : PUnit → Mem Unit (Node T) → Prop} (hh : Holds s.heap M)
    (hM : M = {(b, mkNode d p (some c) q x)} +
      ({(c, ⟨m.ptr, none, some b, w, true⟩)} + cells (some c) m + R))
    (hQ : ∀ h, Holds h ({(b, mkNode d p m.ptr q x)} +
      ({(c, ⟨m.ptr, none, some b, w, true⟩)} + cells (some b) m + R)) → Q ⟨⟩ ⟨s.globals, h⟩) :
    Returns (takeOut d (some c)) s Q := by
  subst hM
  have hc : s.heap c = some ⟨m.ptr, none, some b, w, true⟩ := hh.get (by simp)
  simp only [takeOut, returns_bind, returns_parent hc, returns_left hc]
  refine returns_setChild hh rfl fun h hh' => ?_
  rw [mkNode_setChild] at hh'
  have hc' : h c = some ⟨m.ptr, none, some b, w, true⟩ := hh'.get (by simp)
  simp only [returns_left (s := ⟨s.globals, h⟩) hc', returns_parent (s := ⟨s.globals, h⟩) hc']
  refine returns_reparent (p := some c) (R := {(b, mkNode d p m.ptr q x)} +
    ({(c, ⟨m.ptr, none, some b, w, true⟩)} + R)) hh' (by abel) fun h'' hh'' => hQ h'' ?_
  refine cast (congrArg _ ?_) hh''
  abel

/-- The greatest node of the left subtree is taken out. -/
theorem Last.returns_takeOut {Q : PUnit → Mem Unit (Node T) → Prop} (h : Last t c w m t')
    (hh : Holds s.heap (under .left b p q x t + R))
    (hQ : ∀ h, Holds h (under .left b p q x t' + R) → Q ⟨⟩ ⟨s.globals, h⟩) :
    Returns (do
      (if (← parent (some c)) = some b then takeOut .left (some c)
        else takeOut .right (some c))
      delete (some c)) s Q := by
  obtain ⟨b', d', p', q', x', R', hfull, hless, hplace⟩ := h.split .left b p q x
  have hM : under .left b p q x t + R = {(b', mkNode d' p' (some c) q' x')} +
      ({(c, ⟨m.ptr, none, some b', w, true⟩)} + cells (some c) m + (R' + R)) := by
    rw [hfull]
    abel
  have hc : s.heap c = some ⟨m.ptr, none, some b', w, true⟩ := by
    rw [hM] at hh
    exact hh.get (by simp)
  have hif : (if some b' = some b then takeOut .left (some c) else takeOut .right (some c) :
      TreeProg T PUnit) = takeOut d' (some c) := by
    rcases hplace with ⟨rfl, rfl⟩ | ⟨rfl, n, hn⟩
    · rw [if_pos rfl]
    · rw [if_neg]
      intro heq
      cases heq
      rw [under, add_assoc] at hh
      exact hh.notMem n (by simp [hn])
  simp only [returns_bind, returns_parent hc]
  rw [hif]
  refine SearchTree.returns_takeOut hh hM fun h' hh' => ?_
  refine returns_delete (n := ⟨m.ptr, none, some b', w, true⟩)
    (R := under .left b p q x t' + R) hh' ?_ hQ
  rw [hless]
  abel

/-! ## The three shapes of `erase` -/

section eraseNode

variable {l r : Shape T}

/-- With two children: the address stays. -/
theorem returns_eraseTwoChildren {fuel : Nat} (hh : Holds s.heap (cells p (.node a v l r) + R))
    (hl : l ≠ .nil) (hfuel : l.height ≤ fuel) :
    Returns (eraseTwoChildren fuel (some a)) s fun _ s' => ∃ w l', l.values = l'.values ++ [w] ∧
      Holds s'.heap (cells p (.node a w l' r) + R) := by
  obtain ⟨c, w, m, l', hlast⟩ := exists_last hl
  have ha := holds_root hh
  have hleft := holds_left hh
  simp only [eraseTwoChildren, returns_bind, returns_left ha]
  refine (hlast.returns_rightmost hleft hfuel).mono fun last s' hres => ?_
  obtain ⟨hs, hlast'⟩ := hres
  subst hs hlast'
  obtain ⟨b, d, p', q', x', R', hfull, -, -⟩ := hlast.split .left a p r.ptr v
  have hc : s'.heap c = some ⟨m.ptr, none, some b, w, true⟩ := by
    refine hh.get ?_
    have hmem : (c, (⟨m.ptr, none, some b, w, true⟩ : Node T)) ∈ under .left a p r.ptr v l := by
      rw [hfull]
      simp
    simp only [under, Multiset.mem_add] at hmem
    simp only [cells, Multiset.mem_add]
    rcases hmem with hmem | hmem
    · exact Or.inl (Or.inl (Or.inl hmem))
    · exact Or.inl (Or.inl (Or.inr hmem))
  simp only [returns_value hc]
  refine returns_setValue (n := ⟨l.ptr, r.ptr, p, v, true⟩)
    (R := cells (some a) l + (cells (some a) r + R)) hh ?_ fun h hh' => ?_
  · rw [cells]
    abel
  · have hunder : Holds h (under .left a p r.ptr w l + (cells (some a) r + R)) := by
      refine cast (congrArg _ ?_) hh'
      simp only [under, mkNode]
      abel
    have htake := hlast.returns_takeOut (s := ⟨s'.globals, h⟩) (Q := fun _ s' => ∃ w l',
      l.values = l'.values ++ [w] ∧ Holds s'.heap (cells p (.node a w l' r) + R)) hunder
      fun h' hh' => ⟨w, l', hlast.values, ?_⟩
    · simp only [returns_bind] at htake
      exact htake
    · refine cast (congrArg _ ?_) hh'
      simp only [under, cells, mkNode]
      abel

/-- The one child that there is. -/
theorem exists_onlyChild (hne : l ≠ .nil ∨ r ≠ .nil) (hnil : l = .nil ∨ r = .nil)
    {n : Node T} (ha : s.heap a = some n) (hl : n.left = l.ptr) (hr : n.right = r.ptr) :
    ∃ t' : Shape T, t' ≠ .nil ∧ t'.values = l.values ++ r.values ∧
      (∀ p, cells p l + cells p r = cells p t') ∧
      ∀ Q : Ptr → Mem Unit (Node T) → Prop, Q t'.ptr s →
        Returns (if l.ptr ≠ none then left (some a) else right (some a)) s Q := by
  rcases hnil with rfl | rfl
  · have hr' := hne.resolve_left fun hn => hn rfl
    refine ⟨r, hr', by simp [Shape.values], by simp [cells], fun Q hQ => ?_⟩
    rw [if_neg (by simp), returns_right ha, hr]
    exact hQ
  · have hl' := hne.resolve_right fun hn => hn rfl
    refine ⟨l, hl', by simp [Shape.values], by simp [cells], fun Q hQ => ?_⟩
    rw [if_pos fun hn => hl' (Shape.ptr_eq_none.mp hn), returns_left ha, hl]
    exact hQ

/-- With one child, below the node `b`: the child takes the place. -/
theorem returns_eraseOneChild
    (hh : Holds s.heap (under d b p q x (.node a v l r) + R)) (hq : q ≠ some a)
    (hne : l ≠ .nil ∨ r ≠ .nil) (hnil : l = .nil ∨ r = .nil) :
    Returns (eraseOneChild (some a)) s fun _ s' => ∃ t', t'.values = l.values ++ r.values ∧
      Holds s'.heap (under d b p q x t' + R) := by
  have hn : (a, (⟨l.ptr, r.ptr, some b, v, true⟩ : Node T)) ∈
      under d b p q x (.node a v l r) + R := by simp [under, cells]
  have ha := hh.get hn
  obtain ⟨t', ht', hvalues, hcells, hnext⟩ := exists_onlyChild hne hnil ha rfl rfl
  have hM : under d b p q x (.node a v l r) + R = {(b, mkNode d p (some a) q x)} +
      ({(a, ⟨l.ptr, r.ptr, some b, v, true⟩)} + (cells (some a) t' + R)) := by
    rw [← hcells]
    simp only [under, cells, Shape.ptr_node]
    abel
  simp only [eraseOneChild, returns_bind, returns_left ha]
  refine hnext _ ?_
  rw [returns_isRoot ha, if_pos (by simp)]
  simp only [returns_bind]
  refine returns_replaceChild hh hM rfl hq fun h hh' => ?_
  have ha' : h a = some ⟨l.ptr, r.ptr, some b, v, true⟩ := hh'.get (by simp)
  rw [returns_parent (s := ⟨s.globals, h⟩) ha']
  refine returns_setParentTree (p := some a) (R := {(b, mkNode d p t'.ptr q x)} +
    ({(a, ⟨l.ptr, r.ptr, some b, v, true⟩)} + R)) ht' hh' (by abel) fun h' hh'' => ?_
  refine returns_delete (n := ⟨l.ptr, r.ptr, some b, v, true⟩)
    (R := under d b p q x t' + R) hh'' ?_ fun h'' hh₁ => ⟨t', hvalues, hh₁⟩
  simp only [under]
  abel

/-- With one child, at the root: the root stays, with the value and the children of the child. -/
theorem returns_eraseOneChild_root (hh : Holds s.heap (cells none (.node a v l r) + R))
    (hne : l ≠ .nil ∨ r ≠ .nil) (hnil : l = .nil ∨ r = .nil) :
    Returns (eraseOneChild (some a)) s fun _ s' => ∃ w l' r',
      l'.values ++ w :: r'.values = l.values ++ r.values ∧
      Holds s'.heap (cells none (.node a w l' r') + R) := by
  have hn : (a, (⟨l.ptr, r.ptr, none, v, true⟩ : Node T)) ∈ cells none (.node a v l r) + R := by
    simp [cells]
  have ha := hh.get hn
  obtain ⟨t', ht', hvalues, hcells, hnext⟩ := exists_onlyChild hne hnil ha rfl rfl
  cases t' with
  | nil => exact absurd rfl ht'
  | node c w l' r' =>
    have hM : cells none (.node a v l r) + R = {(a, ⟨l.ptr, r.ptr, none, v, true⟩)} +
        ({(c, ⟨l'.ptr, r'.ptr, some a, w, true⟩)} +
          (cells (some c) l' + cells (some c) r' + R)) := by
      have hsplit := hcells (some a)
      simp only [cells] at hsplit ⊢
      rw [add_assoc {(a, _)}, hsplit]
      abel
    have hc : s.heap c = some ⟨l'.ptr, r'.ptr, some a, w, true⟩ := by
      rw [hM] at hh
      exact hh.get (by simp)
    simp only [eraseOneChild, returns_bind, returns_left ha]
    refine hnext _ ?_
    rw [returns_isRoot ha, if_neg (by simp)]
    simp only [returns_bind, Shape.ptr_node, returns_value hc]
    refine returns_setValue hh hM fun h₁ hh₁ => ?_
    have hc₁ : h₁ c = some ⟨l'.ptr, r'.ptr, some a, w, true⟩ := hh₁.get (by simp)
    rw [returns_left (s := ⟨s.globals, h₁⟩) hc₁]
    refine returns_setChild hh₁ rfl fun h₂ hh₂ => ?_
    have hc₂ : h₂ c = some ⟨l'.ptr, r'.ptr, some a, w, true⟩ := hh₂.get (by simp)
    rw [returns_right (s := ⟨s.globals, h₂⟩) hc₂]
    refine returns_setChild hh₂ rfl fun h₃ hh₃ => ?_
    have hc₃ : h₃ c = some ⟨l'.ptr, r'.ptr, some a, w, true⟩ := hh₃.get (by simp)
    rw [returns_left (s := ⟨s.globals, h₃⟩) hc₃]
    simp only [Node.setChild] at hh₃
    refine returns_reparent (p := some c) (R := {(a, ⟨l'.ptr, r'.ptr, none, w, true⟩)} +
      ({(c, ⟨l'.ptr, r'.ptr, some a, w, true⟩)} + (cells (some c) r' + R))) hh₃ (by abel)
      fun h₄ hh₄ => ?_
    have hc₄ : h₄ c = some ⟨l'.ptr, r'.ptr, some a, w, true⟩ := hh₄.get (by simp)
    rw [returns_right (s := ⟨s.globals, h₄⟩) hc₄]
    refine returns_reparent (p := some c) (R := {(a, ⟨l'.ptr, r'.ptr, none, w, true⟩)} +
      ({(c, ⟨l'.ptr, r'.ptr, some a, w, true⟩)} + (cells (some a) l' + R))) hh₄ (by abel)
      fun h₅ hh₅ => ?_
    refine returns_delete (n := ⟨l'.ptr, r'.ptr, some a, w, true⟩)
      (R := cells none (.node a w l' r') + R) hh₅ ?_ fun h₆ hh₆ => ⟨w, l', r', hvalues, hh₆⟩
    simp only [cells]
    abel

/-- Without children, below the node `b`. -/
theorem returns_eraseLeaf (hh : Holds s.heap (under d b p q x (.node a v .nil .nil) + R))
    (hq : q ≠ some a) :
    Returns (eraseLeaf (some a)) s fun _ s' => Holds s'.heap (under d b p q x .nil + R) := by
  have hM : under d b p q x (.node a v .nil .nil) + R = {(b, mkNode d p (some a) q x)} +
      ({(a, ⟨none, none, some b, v, true⟩)} + R) := by
    simp only [under, cells, Shape.ptr_node, Shape.ptr_nil]
    abel
  have ha : s.heap a = some ⟨none, none, some b, v, true⟩ := by
    rw [hM] at hh
    exact hh.get (by simp)
  simp only [eraseLeaf, returns_bind]
  rw [returns_isRoot ha, if_pos (by simp)]
  simp only [returns_bind]
  refine returns_replaceChild hh hM rfl hq fun h hh' => ?_
  refine returns_delete (n := ⟨none, none, some b, v, true⟩) (R := under d b p q x .nil + R)
    hh' ?_ fun h' hh'' => hh''
  simp only [under, cells, Shape.ptr_nil]
  abel

/-- Without children, at the root. -/
theorem returns_eraseLeaf_root (hh : Holds s.heap (cells none (.node a v .nil .nil) + R)) :
    Returns (eraseLeaf (some a)) s fun _ s' =>
      Holds s'.heap ({(a, ⟨none, none, none, v, false⟩)} + R) := by
  have ha : s.heap a = some ⟨none, none, none, v, true⟩ := hh.get (by simp [cells])
  simp only [eraseLeaf, returns_bind]
  rw [returns_isRoot ha, if_neg (by simp)]
  refine returns_setIsValid (n := ⟨none, none, none, v, true⟩) (R := R) hh ?_ fun h hh' => hh'
  simp [cells]

/-- `erase(node)` below the node `b`. -/
theorem returns_eraseNode {fuel : Nat}
    (hh : Holds s.heap (under d b p q x (.node a v l r) + R)) (hq : q ≠ some a)
    (hfuel : l.height ≤ fuel) :
    Returns (eraseNode fuel (some a)) s fun _ s' => ∃ t', t'.values = l.values ++ r.values ∧
      Holds s'.heap (under d b p q x t' + R) := by
  have ha : s.heap a = some ⟨l.ptr, r.ptr, some b, v, true⟩ := hh.get (by simp [under, cells])
  simp only [eraseNode, returns_bind, returns_left ha, returns_right ha]
  by_cases hl : l = .nil
  · subst hl
    by_cases hr : r = .nil
    · subst hr
      rw [if_pos (by simp)]
      exact (returns_eraseLeaf hh hq).mono fun _ s' hh' => ⟨.nil, rfl, hh'⟩
    · have hr' : r.ptr ≠ none := fun hn => hr (Shape.ptr_eq_none.mp hn)
      rw [if_neg (by simp [hr'])]
      simp only [returns_bind, returns_left ha, returns_right ha]
      rw [if_pos (by simp)]
      exact returns_eraseOneChild hh hq (Or.inr hr) (Or.inl rfl)
  · have hl' : l.ptr ≠ none := fun hn => hl (Shape.ptr_eq_none.mp hn)
    rw [if_neg (by simp [hl'])]
    simp only [returns_bind, returns_left ha, returns_right ha]
    by_cases hr : r = .nil
    · subst hr
      rw [if_pos (by simp)]
      exact returns_eraseOneChild hh hq (Or.inl hl) (Or.inr rfl)
    · have hr' : r.ptr ≠ none := fun hn => hr (Shape.ptr_eq_none.mp hn)
      rw [if_neg (by simp [hl', hr'])]
      refine (returns_eraseTwoChildren (holds_under.mp hh) hl hfuel).mono
        fun _ s' hres => ?_
      obtain ⟨w, l', hvalues, hh'⟩ := hres
      exact ⟨.node a w l' r, by simp [Shape.values, hvalues], holds_under.mpr hh'⟩

/-- `erase(node)` at the root, which stays. -/
theorem returns_eraseNode_root {fuel : Nat} (hh : Holds s.heap (cells none (.node a v l r) + R))
    (hfuel : l.height ≤ fuel) :
    Returns (eraseNode fuel (some a)) s fun _ s' =>
      (∃ w l' r', l'.values ++ w :: r'.values = l.values ++ r.values ∧
        Holds s'.heap (cells none (.node a w l' r') + R)) ∨
      (l.values ++ r.values = [] ∧ Holds s'.heap ({(a, ⟨none, none, none, v, false⟩)} + R)) := by
  have ha := holds_root hh
  simp only [eraseNode, returns_bind, returns_left ha, returns_right ha]
  by_cases hl : l = .nil
  · subst hl
    by_cases hr : r = .nil
    · subst hr
      rw [if_pos (by simp)]
      exact (returns_eraseLeaf_root hh).mono fun _ s' hh' => Or.inr ⟨rfl, hh'⟩
    · have hr' : r.ptr ≠ none := fun hn => hr (Shape.ptr_eq_none.mp hn)
      rw [if_neg (by simp [hr'])]
      simp only [returns_bind, returns_left ha, returns_right ha]
      rw [if_pos (by simp)]
      exact (returns_eraseOneChild_root hh (Or.inr hr) (Or.inl rfl)).mono fun _ s' => Or.inl
  · have hl' : l.ptr ≠ none := fun hn => hl (Shape.ptr_eq_none.mp hn)
    rw [if_neg (by simp [hl'])]
    simp only [returns_bind, returns_left ha, returns_right ha]
    by_cases hr : r = .nil
    · subst hr
      rw [if_pos (by simp)]
      exact (returns_eraseOneChild_root hh (Or.inl hl) (Or.inr rfl)).mono fun _ s' => Or.inl
    · have hr' : r.ptr ≠ none := fun hn => hr (Shape.ptr_eq_none.mp hn)
      rw [if_neg (by simp [hl', hr'])]
      refine (returns_eraseTwoChildren hh hl hfuel).mono fun _ s' hres => ?_
      obtain ⟨w, l', hvalues, hh'⟩ := hres
      exact Or.inl ⟨w, l', r, by simp [hvalues], hh'⟩

end eraseNode

/-! ## `erase(node, t)` -/

section erase

variable [LinearOrder T] {l r : Shape T} {u : T}

/-- What the order of a node says. -/
theorem sorted_node (h : (Shape.node a v l r).values.Pairwise (· < ·)) :
    l.values.Pairwise (· < ·) ∧ r.values.Pairwise (· < ·) ∧ (∀ w ∈ l.values, w < v) ∧
      ∀ w ∈ r.values, v < w := by
  rw [Shape.values, List.pairwise_append] at h
  obtain ⟨hl, hr, hlr⟩ := h
  rw [List.pairwise_cons] at hr
  exact ⟨hl, hr.2, fun w hw => hlr w hw v List.mem_cons_self, hr.1⟩

theorem filter_ne_of_notMem {L : List T} (h : u ∉ L) : L.filter (· ≠ u) = L := by
  rw [List.filter_eq_self]
  intro w hw
  have hne : w ≠ u := fun he => h (he ▸ hw)
  simpa using hne

/-- What `erase(node, t)` leaves of the values. -/
theorem values_erase_self (h : (Shape.node a u l r).values.Pairwise (· < ·)) :
    (Shape.node a u l r).values.filter (· ≠ u) = l.values ++ r.values := by
  obtain ⟨-, -, hl, hr⟩ := sorted_node h
  have hl' : u ∉ l.values := fun hu => lt_irrefl u (hl u hu)
  have hr' : u ∉ r.values := fun hu => lt_irrefl u (hr u hu)
  rw [Shape.values, List.filter_append, List.filter_cons_of_neg (by simp),
    filter_ne_of_notMem hl', filter_ne_of_notMem hr']

theorem values_erase_left (h : (Shape.node a v l r).values.Pairwise (· < ·)) (hu : u < v) :
    (Shape.node a v l r).values.filter (· ≠ u) = l.values.filter (· ≠ u) ++ v :: r.values := by
  obtain ⟨-, -, -, hr⟩ := sorted_node h
  have hr' : u ∉ r.values := fun hmem => lt_asymm hu (hr u hmem)
  rw [Shape.values, List.filter_append, List.filter_cons_of_pos (by simpa using hu.ne'),
    filter_ne_of_notMem hr']

theorem values_erase_right (h : (Shape.node a v l r).values.Pairwise (· < ·)) (hu : v < u) :
    (Shape.node a v l r).values.filter (· ≠ u) = l.values ++ v :: r.values.filter (· ≠ u) := by
  obtain ⟨-, -, hl, -⟩ := sorted_node h
  have hl' : u ∉ l.values := fun hmem => lt_asymm hu (hl u hmem)
  rw [Shape.values, List.filter_append, List.filter_cons_of_pos (by simpa using hu.ne),
    filter_ne_of_notMem hl']

theorem returns_erase_child {fuel : Nat} (hh : Holds s.heap (under d b p q x t + R))
    (hq : t ≠ .nil → q ≠ t.ptr) (hs : t.values.Pairwise (· < ·)) (hfuel : t.height ≤ fuel) :
    Returns (erase fuel t.ptr u) s fun _ s' => ∃ t', t'.values = t.values.filter (· ≠ u) ∧
      Holds s'.heap (under d b p q x t' + R) := by
  induction t generalizing fuel d b p q x R with
  | nil =>
    have hpure : erase fuel none u = pure ⟨⟩ := by cases fuel <;> rfl
    rw [Shape.ptr_nil, hpure, returns_pure]
    exact ⟨.nil, rfl, hh⟩
  | node a v l r ihl ihr =>
    obtain ⟨hsl, hsr, -, -⟩ := sorted_node hs
    simp only [Shape.height] at hfuel
    obtain ⟨fuel, rfl⟩ := Nat.exists_eq_add_one_of_ne_zero (Nat.ne_zero_of_lt hfuel)
    have ha : s.heap a = some ⟨l.ptr, r.ptr, some b, v, true⟩ := hh.get (by simp [under, cells])
    rw [Shape.ptr_node, erase, returns_bind, returns_isValid ha, if_neg (by simp), returns_bind,
      returns_value ha]
    refine Returns.ite (fun hu => ?_) fun hne => ?_
    · obtain rfl : u = v := hu
      rw [values_erase_self hs]
      exact returns_eraseNode hh (hq (by simp)) (by omega)
    rw [returns_bind, returns_value ha]
    refine Returns.ite (fun hgt => ?_) fun hle => ?_
    · rw [returns_bind, returns_left ha]
      refine (returns_child_frame (d := .left) (holds_under.mp hh) fun R' hh' hne' =>
        ihl hh' hne' hsl (by omega)).mono fun _ s' hres => ?_
      obtain ⟨l', hvalues, hh'⟩ := hres
      refine ⟨.node a v l' r, ?_, holds_under.mpr hh'⟩
      rw [values_erase_left hs hgt, Shape.values, hvalues]
    · rw [returns_bind, returns_right ha]
      have hlt : v < u := lt_of_le_of_ne (not_lt.mp hle) fun he => hne he.symm
      refine (returns_child_frame (d := .right) (holds_under.mp hh) fun R' hh' hne' =>
        ihr hh' hne' hsr (by omega)).mono fun _ s' hres => ?_
      obtain ⟨r', hvalues, hh'⟩ := hres
      refine ⟨.node a v l r', ?_, holds_under.mpr hh'⟩
      rw [values_erase_right hs hlt, Shape.values, hvalues]

end erase

end Wish.SearchTree
