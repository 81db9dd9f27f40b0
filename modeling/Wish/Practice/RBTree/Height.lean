import Wish.Practice.RBTree.Run
import Mathlib.Analysis.SpecialFunctions.Log.Base

/-!
# The height of the tree

A red-black tree with `n` nodes is no higher than `2 log₂ (n + 1)`. The fuel of `find` and of the
traversals is how deep their calls may be nested: a call with `k + 1` makes calls with `k`, and a
call on a node with `0` is stuck. As deep as the tree is high is enough for each of them
(`WithinDepth`), and then they do what a loop over the nodes in order does.

`run_height` puts this together for every sequence of calls.
-/

namespace Wish.RBTree

open Prog Heap

variable {T : Type}

/-! ## Height -/

theorem Balanced.pow_le {t : Tree T} {n : Nat} (h : Balanced t n) :
    2 ^ n ≤ t.toList.length + 1 := by
  induction h with
  | nil => exact Nat.le_refl 1
  | red hl hr cl cr ihl ihr =>
    simp only [Tree.toList, List.length_append, List.length_cons]
    omega
  | black hl hr ihl ihr =>
    simp only [Tree.toList, List.length_append, List.length_cons]
    omega

/-- On every way down there are as many black nodes, and at most one red node for each of them;
one more if the way starts with it. -/
theorem Balanced.height_le {t : Tree T} {n : Nat} (h : Balanced t n) :
    t.height ≤ 2 * n + 1 ∧ (t.color = .Black → t.height ≤ 2 * n) := by
  induction h with
  | nil => exact ⟨Nat.zero_le _, fun _ => Nat.zero_le _⟩
  | red hl hr cl cr ihl ihr =>
    have hleft := ihl.2 cl
    have hright := ihr.2 cr
    refine ⟨?_, nofun⟩
    simp only [Tree.height]
    omega
  | black hl hr ihl ihr =>
    have hleft := ihl.1
    have hright := ihr.1
    simp only [Tree.height]
    exact ⟨by omega, fun _ => by omega⟩

theorem Balanced.height_le_logb {t : Tree T} {n : Nat} (h : Balanced t n)
    (hc : t.color = .Black) :
    (t.height : ℝ) ≤ 2 * Real.logb 2 (t.toList.length + 1) := by
  have hheight : (t.height : ℝ) ≤ 2 * n := mod_cast h.height_le.2 hc
  have hpow : (2 : ℝ) ^ n ≤ t.toList.length + 1 := mod_cast h.pow_le
  have hlog : (n : ℝ) ≤ Real.logb 2 (t.toList.length + 1) := by
    rw [Real.le_logb_iff_rpow_le one_lt_two (by positivity), Real.rpow_natCast]
    exact hpow
  linarith

/-! ## Traversals -/

/-- `foreach_type` -/
inductive ForeachType where
  | Front
  | Mid
  | Back
  deriving DecidableEq, Repr

section foreach

variable {β : Type}

/-- The traversals call back before, between or after the children; `acc` is what the callback
has captured by reference. -/
def foreach (type : ForeachType) (cb : β → Ptr → RBProg T β) : Nat → β → Ptr → RBProg T β
  | _, acc, none => pure acc
  | 0, _, some _ => throw .stuck
  | fuel + 1, acc, some a => do
    let acc ← (if type = .Front then cb acc (some a) else pure acc)
    let acc ← foreach type cb fuel acc (← left (some a))
    let acc ← (if type = .Mid then cb acc (some a) else pure acc)
    let acc ← foreach type cb fuel acc (← right (some a))
    if type = .Back then cb acc (some a) else pure acc

/-- `foreach_front` -/
def foreachFront (cb : β → Ptr → RBProg T β) : Nat → β → Ptr → RBProg T β := foreach .Front cb

/-- `foreach_middle` -/
def foreachMiddle (cb : β → Ptr → RBProg T β) : Nat → β → Ptr → RBProg T β := foreach .Mid cb

theorem foreachBack_eq (cb : β → Ptr → RBProg T β) : foreachBack cb = foreach .Back cb := by
  ext fuel acc p : 3
  induction fuel generalizing acc p with
  | zero => cases p <;> rfl
  | succ fuel ih =>
    cases p with
    | none => rfl
    | some a => simp [foreachBack, foreach, ih]

/-- `destroy` -/
def destroy (fuel : Nat) (root : Ptr) : RBProg T PUnit :=
  foreachBack (fun _ p => delete p) fuel ⟨⟩ root

/-- The nodes in the order of a traversal. -/
def Tree.order (type : ForeachType) : Tree T → List Addr
  | .nil => []
  | .node a _ _ l r =>
    match type with
    | .Front => a :: (l.order type ++ r.order type)
    | .Mid => l.order type ++ a :: r.order type
    | .Back => l.order type ++ r.order type ++ [a]

theorem Tree.order_node (type : ForeachType) (a : Addr) (c : ColorType) (v : T) (l r : Tree T) :
    (Tree.node a c v l r).order type =
      (if type = .Front then [a] else []) ++ (l.order type ++
        ((if type = .Mid then [a] else []) ++
          (r.order type ++ (if type = .Back then [a] else [])))) := by
  cases type <;> simp [Tree.order]

/-- In the order of the values, or root first or last, it is the same nodes. -/
theorem Tree.order_perm (type : ForeachType) (t : Tree T) :
    (t.order type).Perm (t.toList.map Prod.fst) := by
  induction t with
  | nil => exact .refl _
  | node a c v l r ihl ihr =>
    have hmid : (l.order type ++ a :: r.order type).Perm
        ((Tree.node a c v l r).toList.map Prod.fst) := by
      simp only [Tree.toList, List.map_append, List.map_cons]
      exact ihl.append (ihr.cons a)
    refine List.Perm.trans ?_ hmid
    cases type with
    | Front => exact List.perm_middle.symm
    | Mid => exact .refl _
    | Back =>
      rw [Tree.order, List.append_assoc]
      exact (List.perm_append_singleton a _).append_left _

/-- The callback leaves the memory as it is. -/
def ReadsOnly (cb : β → Ptr → RBProg T β) : Prop :=
  ∀ acc p s, Ensures (cb acc p) s fun _ s' => s' = s

variable {cb : β → Ptr → RBProg T β} {s : Mem Ptr (Node T)}

theorem ReadsOnly.foldlM (hcb : ReadsOnly cb) (as : List Addr) (acc : β) :
    Ensures (as.foldlM (fun acc a => cb acc (some a)) acc) s fun _ s' => s' = s := by
  induction as generalizing acc with
  | nil => exact ensures_pure.mpr rfl
  | cons a as ih =>
    rw [List.foldlM_cons, ensures_bind]
    refine (hcb acc (some a) s).mono fun acc' s' hs' => ?_
    rw [hs']
    exact ih acc'

theorem foldlM_ite {c : Prop} [Decidable c] (a : Addr) (acc : β) :
    (if c then [a] else []).foldlM (fun acc a => cb acc (some a)) acc =
      if c then cb acc (some a) else pure acc := by
  split
  · simp
  · rfl

theorem ReadsOnly.ite (hcb : ReadsOnly cb) {c : Prop} [Decidable c] (a : Addr) (acc : β) :
    Ensures (if c then cb acc (some a) else pure acc) s fun _ s' => s' = s := by
  rw [← foldlM_ite]
  exact hcb.foldlM _ acc

variable {R : Cells T} {K : Ctx T} {t : Tree T} {k : Nat}

/-- A traversal is a loop over the nodes. -/
theorem foreach_eq (hcb : ReadsOnly cb) (type : ForeachType) (h : Rep s (plug t K) R)
    (hk : t.height ≤ k) (acc : β) :
    foreach type cb k acc t.ptr s =
      (t.order type).foldlM (fun acc a => cb acc (some a)) acc s := by
  induction t generalizing k K acc with
  | nil => cases k <;> rfl
  | node a c v l r ihl ihr =>
    simp only [Tree.height] at hk
    obtain ⟨k, rfl⟩ : ∃ j, k = j + 1 := ⟨k - 1, by omega⟩
    have ha := h.node
    have hl : Rep s (plug l (⟨.left, a, c, v, r⟩ :: K)) R := h
    have hr : Rep s (plug r (⟨.right, a, c, v, l⟩ :: K)) R := h
    rw [Tree.order_node]
    simp only [List.foldlM_append, foldlM_ite, Tree.ptr_node, foreach]
    refine bind_congr_at rfl ((hcb.ite a acc).mono fun acc s' hs' => ?_)
    rw [hs', bind_eq_of_returns ((returns_left ha).mpr ⟨rfl, rfl⟩)]
    refine bind_congr_at (ihl hl (by omega) acc) ((hcb.foldlM _ acc).mono fun acc s' hs' => ?_)
    rw [hs']
    refine bind_congr_at rfl ((hcb.ite a acc).mono fun acc s' hs' => ?_)
    rw [hs', bind_eq_of_returns ((returns_right ha).mpr ⟨rfl, rfl⟩)]
    exact bind_congr_at (ihr hr (by omega) acc) fun _ _ _ => rfl

/-- `destroy` deletes the nodes of the tree and no others. -/
theorem returns_destroy {p : Ptr} (h : Holds s.heap (cells p t + R)) (hk : t.height ≤ k) :
    Returns (destroy k t.ptr) s fun _ s' => s'.globals = s.globals ∧ Holds s'.heap R := by
  induction t generalizing k p s R with
  | nil =>
    have hpure : destroy k none = (pure ⟨⟩ : RBProg T PUnit) := by cases k <;> rfl
    rw [Tree.ptr_nil, hpure, returns_pure]
    refine ⟨rfl, ?_⟩
    rwa [cells, zero_add] at h
  | node a c v l r ihl ihr =>
    simp only [Tree.height] at hk
    obtain ⟨k, rfl⟩ : ∃ j, k = j + 1 := ⟨k - 1, by omega⟩
    have hcells : ∀ {s : Mem Ptr (Node T)} {M : Cells T},
        Holds s.heap ({(a, ⟨p, l.ptr, r.ptr, c, v⟩)} + M) →
          s.heap a = some ⟨p, l.ptr, r.ptr, c, v⟩ := fun hh => hh.get (by simp)
    have hleft : Holds s.heap
        (cells (some a) l + ({(a, ⟨p, l.ptr, r.ptr, c, v⟩)} + (cells (some a) r + R))) := by
      refine cast (congrArg _ ?_) h
      rw [cells]
      abel
    have ha : s.heap a = some ⟨p, l.ptr, r.ptr, c, v⟩ := by
      refine hcells (M := cells (some a) l + cells (some a) r + R) (cast (congrArg _ ?_) h)
      rw [cells]
      abel
    simp only [destroy, Tree.ptr_node, foreachBack, returns_bind, returns_left ha]
    refine (ihl hleft (by omega)).mono fun _ s₁ hres => ?_
    obtain ⟨hg₁, hh₁⟩ := hres
    rw [returns_right (hcells hh₁)]
    have hright : Holds s₁.heap
        (cells (some a) r + ({(a, ⟨p, l.ptr, r.ptr, c, v⟩)} + R)) := by
      refine cast (congrArg _ ?_) hh₁
      abel
    refine (ihr hright (by omega)).mono fun _ s₂ hres => ?_
    obtain ⟨hg₂, hh₂⟩ := hres
    exact returns_delete hh₂ rfl fun h₃ hh₃ => ⟨hg₂.trans hg₁, hh₃⟩

end foreach

/-! ## Depth -/

section calls

variable [LinearOrder T]

/-- Calls that are nested `k` deep are enough for everything that goes down the tree. -/
structure WithinDepth (k : Nat) (s : Mem Ptr (Node T)) (t : Tree T) : Prop where
  find : ∀ u, ∃ p, RBTree.find k s.globals u s = .ok (p, s)
  foreach : ∀ {β : Type} (type : ForeachType) (cb : β → Ptr → RBProg T β) (acc : β),
    ReadsOnly cb → RBTree.foreach type cb k acc s.globals s =
      (t.order type).foldlM (fun acc a => cb acc (some a)) acc s
  /-- nothing is left of the tree -/
  destroy : ∃ s', RBTree.destroy k s.globals s = .ok (⟨⟩, s') ∧ ∀ a, s'.heap a = none

theorem withinDepth {s : Mem Ptr (Node T)} {t : Tree T} {k : Nat} (h : Rep s t 0)
    (hs : t.values.Pairwise (· ≤ ·)) (hk : t.height ≤ k) : WithinDepth k s t where
  find u := by
    rw [h.root]
    obtain ⟨p, s', hfind, rfl, -⟩ := returns_find (K := []) (u := u) h hs hk
    exact ⟨p, hfind⟩
  foreach type cb acc hcb := by
    rw [h.root]
    exact foreach_eq (K := []) hcb type h hk acc
  destroy := by
    rw [h.root]
    obtain ⟨_, s', hdestroy, -, hempty⟩ := returns_destroy h.holds hk
    refine ⟨s', hdestroy, fun a => ?_⟩
    cases hn : s'.heap a with
    | none => rfl
    | some n => exact absurd ((hempty.cells a n).mp hn) (Multiset.notMem_zero _)

variable [Inhabited T]

/-- **The height** after every sequence of calls, and the depth of what is called on the tree. -/
theorem run_height (ops : List (Op T)) : (∃ s, Run ops s) ∧ ∀ s, Run ops s →
    ∃ t, RedBlack s t ∧ (t.height : ℝ) ≤ 2 * Real.logb 2 (t.toList.length + 1) ∧
      ∀ k, t.height ≤ k → WithinDepth k s t := by
  refine ⟨exists_run ops, fun s hs => ?_⟩
  obtain ⟨t, m, hrep, hm, hc, hL, hsorted⟩ := run_inv hs
  rw [← hL] at hsorted
  exact ⟨t, Holding.redBlack ⟨hrep, ⟨m, hm⟩, hc, hsorted⟩, hm.height_le_logb hc,
    fun k hk => withinDepth hrep hsorted hk⟩

end calls

end Wish.RBTree
