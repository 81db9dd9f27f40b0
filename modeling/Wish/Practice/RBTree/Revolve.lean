import Wish.Practice.RBTree.Nodes
import Mathlib.Data.Set.Finite.Basic

/-!
# The rotations alone

`WellLinked s t` asks nothing of the colours and of the order of the values: the parent and child
fields of the objects reachable from `root` are those of the tree `t`. `revolve_spec` says what
`left_revolve` and `right_revolve` do to such a memory, and that each undoes the other.
-/

namespace Wish.RBTree

open Prog Heap

variable {T : Type}

/-! ## What a tree holds -/

/-- The nodes with their colours and values. -/
def Tree.contents : Tree T → Multiset (Addr × ColorType × T)
  | .nil => 0
  | .node a c v l r => {(a, c, v)} + l.contents + r.contents

/-- What a rotation does not change in an object. -/
def Node.content (n : Node T) : ColorType × T := (n.color, n.value)

theorem map_content_cells (par : Ptr) (t : Tree T) :
    (cells par t).map (fun n => (n.1, n.2.content)) = t.contents := by
  induction t generalizing par with
  | nil => rfl
  | node a c v l r ihl ihr =>
    rw [cells, Multiset.map_add, Multiset.map_add, Multiset.map_singleton, ihl, ihr]
    rfl

theorem contents_mk (d : Dir) (a : Addr) (c : ColorType) (v : T) (near far : Tree T) :
    (Tree.mk d a c v near far).contents = {(a, c, v)} + near.contents + far.contents := by
  cases d with
  | left => rfl
  | right => exact add_right_comm _ _ _

theorem contents_plug_congr {t t' : Tree T} (h : t.contents = t'.contents) (K : Ctx T) :
    (plug t K).contents = (plug t' K).contents := by
  induction K generalizing t t' with
  | nil => exact h
  | cons f K ih =>
    refine ih ?_
    rw [Frame.plug, Frame.plug, contents_mk, contents_mk, h]

/-- A rotation keeps the colours. -/
theorem contents_rotate (d : Dir) (x y : Addr) (cx cy : ColorType) (vx vy : T) (A B C : Tree T) :
    (Tree.mk d y cy vy (Tree.mk d x cx vx A B) C).contents =
      (Tree.mk d x cx vx A (Tree.mk d y cy vy B C)).contents := by
  simp only [contents_mk]
  abel

/-! ## Memories -/

variable {s s' : Mem Ptr (Node T)} {R : Cells T} {t t' : Tree T}

/-- One memory holds a tree. -/
theorem Rep.unique (h : Rep s t R) (h' : Rep s' t R) : s' = s := by
  obtain ⟨root, heap⟩ := s
  obtain ⟨root', heap'⟩ := s'
  obtain rfl : root' = root := h'.root.trans h.root.symm
  have hheap : heap' = heap := funext fun a => Option.ext fun n => by
    rw [h'.holds.cells, h.holds.cells]
  rw [hheap]

/-- Trees that hold the same lie in memories that hold the same. -/
theorem Rep.content_eq (h : Rep s t R) (h' : Rep s' t' R) (ht : t'.contents = t.contents)
    (a : Addr) : (s'.heap a).map Node.content = (s.heap a).map Node.content := by
  have hmem : ∀ {s : Mem Ptr (Node T)} {t : Tree T}, Rep s t R → ∀ c,
      (s.heap a).map Node.content = some c ↔
        (a, c) ∈ t.contents + R.map (fun n => (n.1, n.2.content)) := by
    intro s t h c
    rw [← map_content_cells none, ← Multiset.map_add, Option.map_eq_some_iff, Multiset.mem_map]
    constructor
    · rintro ⟨n, hn, rfl⟩
      exact ⟨(a, n), (h.holds.cells a n).mp hn, rfl⟩
    · rintro ⟨⟨b, n⟩, hn, he⟩
      obtain ⟨rfl, rfl⟩ := Prod.mk.inj he
      exact ⟨n, h.holds.get hn, rfl⟩
  refine Option.ext fun c => ?_
  rw [hmem h', hmem h, ht]

/-- The links from `root` are those of the tree, no object is shared, and the memory is finite. -/
structure WellLinked (s : Mem Ptr (Node T)) (t : Tree T) : Prop where
  linked : Linked s.heap none s.globals t
  nodup : t.addrs.Nodup
  finite : {a | s.heap a ≠ none}.Finite

theorem Linked.ptr_eq {h : Addr → Option (Node T)} {par p : Ptr} (hl : Linked h par p t) :
    p = t.ptr := by
  cases t with
  | nil => exact hl
  | node a c v l r => exact hl.1

theorem Linked.get {h : Addr → Option (Node T)} {par p : Ptr} (hl : Linked h par p t) {a : Addr}
    {n : Node T} (hm : (a, n) ∈ cells par t) : h a = some n := by
  induction t generalizing par p with
  | nil => simp [cells] at hm
  | node b c v l r ihl ihr =>
    obtain ⟨-, pl, pr, hb, hll, hlr⟩ := hl
    obtain rfl := hll.ptr_eq
    obtain rfl := hlr.ptr_eq
    rcases Multiset.mem_add.mp hm with hm | hm
    · rcases Multiset.mem_add.mp hm with hm | hm
      · cases Multiset.mem_singleton.mp hm
        exact hb
      · exact ihl hll hm
    · exact ihr hlr hm

/-- A finite heap holds finitely many cells. -/
theorem exists_holds {h : Addr → Option (Node T)} (hfin : {a | h a ≠ none}.Finite) :
    ∃ M, Holds h M := by
  classical
  refine ⟨hfin.toFinset.val.filterMap fun a => (h a).map (Prod.mk a), fun a n => ?_, ?_⟩
  · simp only [Multiset.mem_filterMap, Finset.mem_val, Set.Finite.mem_toFinset, Set.mem_ofPred_eq,
      Option.map_eq_some_iff, Prod.mk.injEq]
    constructor
    · intro hn
      exact ⟨a, by simp [hn], n, hn, rfl, rfl⟩
    · rintro ⟨b, -, m, hm, rfl, rfl⟩
      exact hm
  · rw [Multiset.map_filterMap]
    refine Multiset.Nodup.filterMap _ (fun a a' b hb hb' => ?_) hfin.toFinset.nodup
    simp only [Option.mem_def, Option.map_eq_some_iff, Option.map_map] at hb hb'
    obtain ⟨m, -, rfl⟩ := hb
    obtain ⟨m', -, he⟩ := hb'
    exact he.symm

theorem WellLinked.exists_rep (h : WellLinked s t) : ∃ R, Rep s t R := by
  obtain ⟨M, hM⟩ := exists_holds h.finite
  have hnodup : (cells none t).Nodup := by
    refine Multiset.Nodup.of_map Prod.fst ?_
    rw [map_fst_cells]
    exact Multiset.coe_nodup.mpr h.nodup
  have hle : cells none t ≤ M := (Multiset.le_iff_subset hnodup).mpr fun n hn =>
    (hM.cells n.1 n.2).mp (h.linked.get hn)
  obtain ⟨R, rfl⟩ := Multiset.le_iff_exists_add.mp hle
  exact ⟨R, h.linked.ptr_eq, hM⟩

theorem Rep.wellLinked (h : Rep s t R) : WellLinked s t := by
  refine ⟨h.linked, h.nodup, ?_⟩
  refine (R.map Prod.fst + (t.addrs : Multiset Addr)).toFinset.finite_toSet.subset fun a ha => ?_
  obtain ⟨n, hn⟩ := Option.ne_none_iff_exists'.mp ha
  have hmem := (h.holds.cells a n).mp hn
  rw [Finset.mem_coe, Multiset.mem_toFinset, Multiset.mem_add]
  rcases Multiset.mem_add.mp hmem with hmem | hmem
  · exact .inr (Multiset.mem_coe.mpr (mem_addrs_of_cells hmem))
  · exact .inl (Multiset.mem_map_of_mem Prod.fst hmem)

/-! ## Rotations -/

/-- Somewhere in the tree, the child `y` of `x` takes the place of `x`, which becomes its child on
the side `d` and gets its subtree there. -/
inductive Lifted (d : Dir) (x y : Addr) : Tree T → Tree T → Prop
  | plug (cx cy : ColorType) (vx vy : T) (A B C : Tree T) (K : Ctx T) : Lifted d x y
    (plug (.mk d x cx vx A (.mk d y cy vy B C)) K) (plug (.mk d y cy vy (.mk d x cx vx A B) C) K)

/-- `y` has been lifted over `x` in the tree `t`, and nothing else has changed. -/
structure Revolved (d : Dir) (s s' : Mem Ptr (Node T)) (t : Tree T) (x y : Addr) : Prop where
  tree : ∃ t', WellLinked s' t' ∧ Lifted d x y t t' ∧ t'.toList = t.toList
  content : ∀ a, (s'.heap a).map Node.content = (s.heap a).map Node.content
  root : s'.globals = if s.globals = some x then some y else s.globals

/-- `root` changes with the whole tree only. -/
theorem top_eq {x y : Addr} {K : Ctx T} (h : K ≠ [] → top (some x) K ≠ some x) :
    top (some y) K = if top (some x) K = some x then some y else top (some x) K := by
  cases K with
  | nil => exact (if_pos rfl).symm
  | cons f K => exact (if_neg (h (List.cons_ne_nil f K))).symm

/-- A node with a child on the other side, in its place. -/
theorem exists_plug_mk (d : Dir) (h : Rep s t R) {x y : Addr} {n : Node T} (hx : x ∈ t.addrs)
    (hn : s.heap x = some n) (hy : n.child d.flip = some y) :
    ∃ cx cy vx vy A B C K, t = plug (.mk d x cx vx A (.mk d y cy vy B C)) K := by
  obtain ⟨⟨x, vx⟩, hmem, rfl⟩ := List.mem_map.mp hx
  obtain ⟨cx, l, r, K, rfl⟩ := exists_plug hmem
  obtain ⟨_, _, _, A, S, ht⟩ := Tree.exists_mk (t := .node x cx vx l r) nofun d
  have hroot : Rep s (plug (.mk d x cx vx A S) K) R := by
    have ha := congrArg Tree.ptr ht
    rw [Tree.ptr_mk] at ha
    cases ha
    cases d <;> cases ht <;> exact h
  have hS : S.ptr = some y := by
    have hcell := hn.symm.trans hroot.cell
    cases hcell
    rwa [mkNode_child_flip] at hy
  have hne : S ≠ .nil := by
    rintro rfl
    cases hS
  obtain ⟨_, cy, vy, B, C, rfl⟩ := Tree.exists_mk hne d
  rw [Tree.ptr_mk] at hS
  cases hS
  refine ⟨cx, cy, vx, vy, A, B, C, K, ?_⟩
  cases d <;> cases ht <;> rfl

theorem revolve_revolved (d : Dir) (h : WellLinked s t) {x y : Addr} {n : Node T}
    (hx : x ∈ t.addrs) (hn : s.heap x = some n) (hy : n.child d.flip = some y) :
    ∃ s', revolve d (some x) s = .ok (⟨⟩, s') ∧ Revolved d s s' t x y ∧
      revolve d.flip (some y) s' = .ok (⟨⟩, s) := by
  obtain ⟨R, hrep⟩ := h.exists_rep
  obtain ⟨cx, cy, vx, vy, A, B, C, K, rfl⟩ := exists_plug_mk d hrep hx hn hy
  obtain ⟨_, s', hs', hrep'⟩ := returns_revolve (Q := fun _ s' =>
    Rep s' (plug (.mk d y cy vy (.mk d x cx vx A B) C) K) R) hrep fun _ h' => h'
  -- seen from the other side it is the same rotation
  have hback : Rep s' (plug (.mk d.flip y cy vy C (.mk d.flip x cx vx B A)) K) R := by
    rwa [Tree.mk_flip, Tree.mk_flip]
  obtain ⟨_, s'', hs'', hrep''⟩ := returns_revolve (Q := fun _ s'' =>
    Rep s'' (plug (.mk d.flip x cx vx (.mk d.flip y cy vy C B) A) K) R) hback fun _ h' => h'
  rw [Tree.mk_flip, Tree.mk_flip] at hrep''
  obtain rfl := hrep.unique hrep''
  refine ⟨s', hs', ⟨⟨_, hrep'.wellLinked, .plug .., ?_⟩, ?_, ?_⟩, hs''⟩
  · exact toList_plug_congr (toList_rotate d x y cx cy cx cy vx vy A B C) K
  · exact hrep.content_eq hrep' (contents_plug_congr (contents_rotate d x y cx cy vx vy A B C) K)
  · have hroot := (rep_plug.mp hrep).1
    have hroot' := (rep_plug.mp hrep').1
    rw [Tree.ptr_mk] at hroot hroot'
    rw [hroot, hroot']
    refine top_eq fun hne => ?_
    cases K with
    | nil => exact absurd rfl hne
    | cons f K =>
      rw [← hroot]
      have hnot := hrep.ne_root
      rw [Tree.ptr_mk] at hnot
      exact hnot.symm

/-- **Each rotation** lifts the child, keeps a well-linked tree and the order and the contents of its
nodes, and the other one undoes it. -/
theorem revolve_spec {x : Addr} {n : Node T} (h : WellLinked s t) (hx : x ∈ t.addrs)
    (hn : s.heap x = some n) :
    (∀ y, n.right = some y → ∃ s', leftRevolve (some x) s = .ok (⟨⟩, s') ∧
      Revolved .left s s' t x y ∧ rightRevolve (some y) s' = .ok (⟨⟩, s)) ∧
    ∀ y, n.left = some y → ∃ s', rightRevolve (some x) s = .ok (⟨⟩, s') ∧
      Revolved .right s s' t x y ∧ leftRevolve (some y) s' = .ok (⟨⟩, s) :=
  ⟨fun _ hy => revolve_revolved .left h hx hn hy, fun _ hy => revolve_revolved .right h hx hn hy⟩

/-- A root with a right child. -/
def twoNodes : Mem Ptr (Node Nat) :=
  ⟨some 0, fun a => if a = 0 then some ⟨none, none, some 1, .Black, 5⟩ else
    if a = 1 then some ⟨some 0, none, none, .Red, 7⟩ else none⟩

theorem wellLinked_twoNodes :
    WellLinked twoNodes (.node 0 .Black 5 .nil (.node 1 .Red 7 .nil .nil)) := by
  refine ⟨⟨rfl, none, some 1, rfl, rfl, rfl, none, none, rfl, rfl, rfl⟩, by decide, ?_⟩
  refine (Set.toFinite {0, 1}).subset fun a ha => ?_
  by_contra hnot
  obtain ⟨h0, h1⟩ := not_or.mp hnot
  exact ha ((if_neg h0).trans (if_neg h1))

theorem revolve_spec_twoNodes : ∃ s', leftRevolve (some 0) twoNodes = .ok (⟨⟩, s') ∧
    s'.globals = some 1 ∧ rightRevolve (some 1) s' = .ok (⟨⟩, twoNodes) := by
  obtain ⟨s', hs', hrev, hback⟩ :=
    (revolve_spec wellLinked_twoNodes List.mem_cons_self rfl).1 1 rfl
  exact ⟨s', hs', hrev.root, hback⟩

end Wish.RBTree
