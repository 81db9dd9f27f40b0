import Wish.Practice.RBTree.Links
import Mathlib.Data.List.Sort

/-!
# `find` and `size`

Rotations take equal keys to either side of a node, so a tree is only weakly sorted; `find` is
complete on it all the same (`returns_find`). `size` counts with an `int`: `returns_size` says
when it returns, and what.
-/

namespace Wish.RBTree

open Prog Heap

variable {T : Type} {s : Mem Ptr (Node T)} {R : Cells T} {K : Ctx T} {t : Tree T}

/-! ## Fuel -/

theorem below_foreachBack {β : Type} (cb : β → Ptr → RBProg T β) {n m : Nat} (h : n ≤ m)
    (acc : β) (p : Ptr) : Below (foreachBack cb n acc p) (foreachBack cb m acc p) := by
  induction n generalizing m acc p with
  | zero =>
    cases p with
    | none =>
      cases m with
      | zero => exact .refl _
      | succ m => exact .refl _
    | some a => exact .throw _ _
  | succ n ih =>
    obtain ⟨m, rfl⟩ : ∃ k, m = k + 1 := ⟨m - 1, by omega⟩
    cases p with
    | none => exact .refl _
    | some a =>
      exact .next fun p => .bind (ih (by omega) acc p) fun acc =>
        .next fun p => .bind (ih (by omega) acc p) fun acc => .refl _

theorem below_size {n m : Nat} (h : n ≤ m) (p : Ptr) :
    Below (size n p : RBProg T Nat) (size m p) := below_foreachBack _ h 0 p

theorem upto_find [LinearOrder T] {n m : Nat} (h : n ≤ m) (p : Ptr) (u : T) :
    Upto .stuck (find n p u) (find m p u) := by
  induction n generalizing m p with
  | zero =>
    cases p with
    | none =>
      cases m with
      | zero => exact .refl _
      | succ m => exact .refl _
    | some a => exact .throw _
  | succ n ih =>
    obtain ⟨m, rfl⟩ : ∃ k, m = k + 1 := ⟨m - 1, by omega⟩
    cases p with
    | none => exact .refl _
    | some a =>
      exact .next fun v => .ite (.refl _) (.next fun v => .ite
        (.next fun p => ih (by omega) p) (.next fun p => ih (by omega) p))

/-! ## `size` -/

theorem returns_countNode {cnt : Nat} {p : Ptr} {Q : Nat → Mem Ptr (Node T) → Prop} :
    Returns (countNode cnt p) s Q ↔ cnt ≠ intMax ∧ Q (cnt + 1) s := by
  by_cases h : cnt = intMax
  · simp [countNode, h]
  · simp [countNode, h]

/-- The counter goes up by the number of the nodes, as long as it has room. -/
theorem returns_count {fuel cnt : Nat} {Q : Nat → Mem Ptr (Node T) → Prop}
    (h : Rep s (plug t K) R) (hfuel : t.height ≤ fuel) (hcnt : cnt ≤ intMax) :
    Returns (foreachBack countNode fuel cnt t.ptr) s Q ↔
      cnt + t.toList.length ≤ intMax ∧ Q (cnt + t.toList.length) s := by
  induction t generalizing fuel cnt K Q with
  | nil =>
    have hpure : foreachBack countNode fuel cnt none = (pure cnt : RBProg T Nat) := by
      cases fuel <;> rfl
    simp [hpure, Tree.toList, hcnt]
  | node a c v l r ihl ihr =>
    simp only [Tree.height] at hfuel
    obtain ⟨fuel, rfl⟩ := Nat.exists_eq_add_one_of_ne_zero (Nat.ne_zero_of_lt hfuel)
    have ha := h.node
    have hl : Rep s (plug l (⟨.left, a, c, v, r⟩ :: K)) R := h
    have hr : Rep s (plug r (⟨.right, a, c, v, l⟩ :: K)) R := h
    have hlen : cnt + (Tree.node a c v l r).toList.length =
        cnt + l.toList.length + r.toList.length + 1 := by
      simp only [Tree.toList, List.length_append, List.length_cons]
      omega
    simp only [Tree.ptr_node, foreachBack, returns_bind, returns_left ha]
    rw [ihl hl (by omega) hcnt, returns_right ha, hlen]
    constructor
    · rintro ⟨hcl, hret⟩
      obtain ⟨hcr, hcount⟩ := (ihr hr (by omega) hcl).mp hret
      obtain ⟨hne, hq⟩ := returns_countNode.mp hcount
      exact ⟨by omega, hq⟩
    · rintro ⟨hc, hq⟩
      have hcount : Returns (countNode (cnt + l.toList.length + r.toList.length) (some a)) s Q :=
        returns_countNode.mpr ⟨by omega, hq⟩
      exact ⟨by omega, (ihr hr (by omega) (by omega)).mpr ⟨by omega, hcount⟩⟩

/-- `size(root)` returns if and only if the number of the nodes is an `int`, and returns it. -/
theorem returns_size {fuel : Nat} {Q : Nat → Mem Ptr (Node T) → Prop} (h : Rep s t R)
    (hfuel : t.height ≤ fuel) :
    Returns (size fuel t.ptr) s Q ↔ t.toList.length ≤ intMax ∧ Q t.toList.length s := by
  have hcount := returns_count (K := []) (Q := Q) h hfuel (Nat.zero_le intMax)
  rwa [Nat.zero_add] at hcount

/-! ## `find` -/

/-- The values in order. -/
def Tree.values (t : Tree T) : List T := t.toList.map Prod.snd

theorem Tree.values_node (a : Addr) (c : ColorType) (v : T) (l r : Tree T) :
    (Tree.node a c v l r).values = l.values ++ v :: r.values := by
  simp [Tree.values, Tree.toList]

/-- What `find(t, u)` has returned: a node with the value `u` if there is one in `t`. -/
def Found (u : T) (t : Tree T) (K : Ctx T) : Ptr → Prop
  | some a => u ∈ t.values ∧ ∃ c l r K', plug t K = plug (.node a c u l r) K'
  | none => u ∉ t.values

/-- The search for `u` may leave out the side where `u` is not. -/
theorem Found.descend {u v : T} {a : Addr} {c : ColorType} {d : Dir} {near far : Tree T} {p : Ptr}
    (h : Found u near (⟨d, a, c, v, far⟩ :: K) p) (hv : v ≠ u) (hfar : u ∉ far.values) :
    Found u (.mk d a c v near far) K p := by
  have hmem : u ∈ (Tree.mk d a c v near far).values ↔ u ∈ near.values := by
    cases d with
    | left => simp [Tree.mk, Tree.values_node, hfar, Ne.symm hv]
    | right => simp [Tree.mk, Tree.values_node, hfar, Ne.symm hv]
  cases p with
  | none => exact fun hu => h (hmem.mp hu)
  | some b => exact ⟨hmem.mpr h.1, h.2⟩

theorem returns_find [LinearOrder T] {fuel : Nat} {u : T} (h : Rep s (plug t K) R)
    (hs : t.values.Pairwise (· ≤ ·)) (hfuel : t.height ≤ fuel) :
    Returns (find fuel t.ptr u) s fun p s' => s' = s ∧ Found u t K p := by
  induction t generalizing fuel K with
  | nil =>
    have hpure : find fuel none u = (pure none : RBProg T Ptr) := by cases fuel <;> rfl
    rw [Tree.ptr_nil, hpure]
    exact returns_pure.mpr ⟨rfl, List.not_mem_nil⟩
  | node a c v l r ihl ihr =>
    simp only [Tree.height] at hfuel
    obtain ⟨fuel, rfl⟩ := Nat.exists_eq_add_one_of_ne_zero (Nat.ne_zero_of_lt hfuel)
    have ha := h.node
    have hl : Rep s (plug l (⟨.left, a, c, v, r⟩ :: K)) R := h
    have hr : Rep s (plug r (⟨.right, a, c, v, l⟩ :: K)) R := h
    rw [Tree.values_node, List.pairwise_append] at hs
    obtain ⟨hsl, hsr, hlr⟩ := hs
    rw [List.pairwise_cons] at hsr
    simp only [Tree.ptr_node, find, returns_bind, returns_value ha]
    refine Returns.ite (fun hv => ?_) fun hv => ?_
    · subst hv
      exact returns_pure.mpr ⟨rfl, by simp [Tree.values_node], c, l, r, K, rfl⟩
    simp only [returns_bind, returns_value ha]
    refine Returns.ite (fun hgt => ?_) fun hle => ?_
    · simp only [returns_bind, returns_left ha]
      refine (ihl hl hsl (by omega)).mono fun p s' hres => ?_
      obtain ⟨hs', hp⟩ := hres
      refine ⟨hs', ?_⟩
      exact Found.descend (d := .left) hp hv fun hu => absurd (hsr.1 u hu) (not_le.mpr hgt)
    · simp only [returns_bind, returns_right ha]
      refine (ihr hr hsr.2 (by omega)).mono fun p s' hres => ?_
      obtain ⟨hs', hp⟩ := hres
      refine ⟨hs', ?_⟩
      exact Found.descend (d := .right) hp hv fun hu =>
        hv (le_antisymm (not_lt.mp hle) (hlr u hu v List.mem_cons_self))

end Wish.RBTree
