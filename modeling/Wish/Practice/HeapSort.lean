import Mathlib.Data.Nat.Init
import Mathlib.Data.List.Basic

/-!
# `heap_sort`

`practice/heap_sort.cpp`. The vector is a tree whose nodes are counted from 1: the children of `p`
are `2 * p` and `2 * p + 1`. `heap_adjust` goes over the nodes that have children once, from the
last one to the root, and brings the largest of a node and its children to the node. This makes no
heap: a child that has been exchanged may be smaller than its own children. What holds is that a
node whose parent has not been visited is the largest of its subtree (`Frontier`), so that in the
end the root is the largest of all.

With `asc` false "largest" is to be read for the inverse order. `heapSort_sorts` is the main result.
-/

namespace Wish.HeapSort

variable {n : ℕ}

/-- `swap`, by `xor`. -/
def swap (a : Vector Int32 n) (i j : ℕ) (hi : i < n) (hj : j < n) : Vector Int32 n :=
  let a := a.set i (a[i] ^^^ a[j])
  let a := a.set j (a[j] ^^^ a[i])
  a.set i (a[i] ^^^ a[j])

/-- The comparison of `heap_adjust`. -/
def less (asc : Bool) (x y : Int32) : Bool := if asc then x < y else x > y

def compareSwap (asc : Bool) (a : Vector Int32 n) (i j : ℕ) (hi : i < n) (hj : j < n) :
    Vector Int32 n :=
  if less asc a[i] a[j] then swap a i j hi hj else a

/-- The body of the loop of `heap_adjust`; `stop` is `end`. -/
def adjustNode (asc : Bool) (stop : ℕ) (hstop : stop ≤ n) (a : Vector Int32 n) (idx : ℕ)
    (hpos : 1 ≤ idx) (hidx : idx ≤ stop / 2) : Vector Int32 n :=
  let left := idx * 2
  let right := idx * 2 + 1
  let a := compareSwap asc a (idx - 1) (left - 1) (by omega) (by omega)
  if h : right ≤ stop then compareSwap asc a (idx - 1) (right - 1) (by omega) (by omega) else a

/-- The loop of `heap_adjust`, from `idx` down. -/
def adjustFrom (asc : Bool) (stop : ℕ) (hstop : stop ≤ n) :
    (idx : ℕ) → idx ≤ stop / 2 → Vector Int32 n → Vector Int32 n
  | 0, _, a => a
  | idx + 1, h, a =>
    adjustFrom asc stop hstop idx (by omega)
      (adjustNode asc stop hstop a (idx + 1) (by omega) h)

def heapAdjust (asc : Bool) (stop : ℕ) (hpos : 1 < stop) (hstop : stop ≤ n)
    (a : Vector Int32 n) : Vector Int32 n :=
  swap (adjustFrom asc stop hstop (stop / 2) (Nat.le_refl _) a) 0 (stop - 1) (by omega) (by omega)

/-- The loop of `heap_sort`, from `stop` down. -/
def sortFrom (asc : Bool) : (stop : ℕ) → stop ≤ n → Vector Int32 n → Vector Int32 n
  | 0, _, a | 1, _, a => a
  | stop + 2, h, a => sortFrom asc (stop + 1) (by omega) (heapAdjust asc (stop + 2) (by omega) h a)

def heapSort (a : Vector Int32 n) (asc : Bool) : Vector Int32 n :=
  sortFrom asc n (Nat.le_refl n) a

/-! ## The order -/

/-- `y` may stand behind `x`. -/
def Before (asc : Bool) (x y : Int32) : Prop := if asc then x ≤ y else y ≤ x

variable {asc : Bool} {x y z : Int32}

theorem Before.refl (asc : Bool) (x : Int32) : Before asc x x := by
  cases asc <;> exact Int32.le_refl x

theorem Before.trans (h : Before asc x y) (h' : Before asc y z) : Before asc x z := by
  cases asc
  · exact Int32.le_trans h' h
  · exact Int32.le_trans h h'

theorem before_of_less (h : less asc x y = true) : Before asc x y := by
  cases asc
  · exact Int32.le_of_lt (of_decide_eq_true h)
  · exact Int32.le_of_lt (of_decide_eq_true h)

theorem before_of_not_less (h : ¬ less asc x y = true) : Before asc y x := by
  cases asc
  · exact Int32.not_lt.mp fun hlt => h (decide_eq_true hlt)
  · exact Int32.not_lt.mp fun hlt => h (decide_eq_true hlt)

/-! ## Nodes -/

/-- The value of a node, counted from 1. -/
def node (a : Vector Int32 n) (p : ℕ) : Int32 := a[p - 1]?.getD 0

theorem getElem_eq_node (a : Vector Int32 n) {i : ℕ} (hi : i < n) : a[i] = node a (i + 1) := by
  simp [node, hi]

/-- The three assignments exchange two elements that are not the same one. -/
theorem swap_eq (a : Vector Int32 n) {i j : ℕ} (hi : i < n) (hj : j < n) (hij : i ≠ j) :
    swap a i j hi hj = a.swap i j := by
  have hfirst : a[j] ^^^ (a[i] ^^^ a[j]) = a[i] := by
    rw [Int32.xor_comm a[i], ← Int32.xor_assoc, Int32.xor_self, Int32.zero_xor]
  have hsecond : a[i] ^^^ a[j] ^^^ a[i] = a[j] := by
    rw [Int32.xor_comm a[i], Int32.xor_assoc, Int32.xor_self, Int32.xor_zero]
  ext k hk
  simp only [swap, Vector.getElem_set, Vector.getElem_swap, hij, Ne.symm hij, if_true, if_false,
    hfirst, hsecond]
  by_cases hki : k = i
  · simp [hki]
  · by_cases hkj : k = j
    · simp [hkj, hij, Ne.symm hij]
    · simp [hki, hkj, Ne.symm hki, Ne.symm hkj]

theorem node_swap (a : Vector Int32 n) {p q k : ℕ} (hp : p - 1 < n) (hq : q - 1 < n)
    (hp1 : 1 ≤ p) (hq1 : 1 ≤ q) (hk1 : 1 ≤ k) (hpq : p ≠ q) :
    node (swap a (p - 1) (q - 1) hp hq) k =
      if k = p then node a q else if k = q then node a p else node a k := by
  rw [swap_eq a hp hq (by omega)]
  by_cases hk : k - 1 < n
  · have hkp : k - 1 = p - 1 ↔ k = p := by omega
    have hkq : k - 1 = q - 1 ↔ k = q := by omega
    simp only [node, Vector.getElem?_eq_getElem hk, Vector.getElem?_eq_getElem hp,
      Vector.getElem?_eq_getElem hq, Vector.getElem_swap, hkp, hkq, Option.getD_some]
  · have hkp : k ≠ p := by omega
    have hkq : k ≠ q := by omega
    rw [if_neg hkp, if_neg hkq]
    simp [node, hk]

/-! ## Rearranging the first nodes -/

/-- `a'` is `a` with the first `stop` nodes in another order. -/
structure Rearranged (stop : ℕ) (a a' : Vector Int32 n) : Prop where
  perm : a'.toList.Perm a.toList
  inside : ∀ p, 1 ≤ p → p ≤ stop → ∃ q, 1 ≤ q ∧ q ≤ stop ∧ node a' p = node a q
  outside : ∀ p, stop < p → node a' p = node a p

variable {stop p q : ℕ} {a a' a'' : Vector Int32 n}

theorem Rearranged.refl (stop : ℕ) (a : Vector Int32 n) : Rearranged stop a a :=
  ⟨.refl _, fun p h1 hp => ⟨p, h1, hp, rfl⟩, fun _ _ => rfl⟩

theorem Rearranged.trans (h : Rearranged stop a a') (h' : Rearranged stop a' a'') :
    Rearranged stop a a'' := by
  refine ⟨h'.perm.trans h.perm, fun p h1 hp => ?_, fun p hp => ?_⟩
  · obtain ⟨q, hq1, hq, heq⟩ := h'.inside p h1 hp
    obtain ⟨r, hr1, hr, heq'⟩ := h.inside q hq1 hq
    exact ⟨r, hr1, hr, heq.trans heq'⟩
  · exact (h'.outside p hp).trans (h.outside p hp)

theorem rearranged_swap (a : Vector Int32 n) (hp : p - 1 < n) (hq : q - 1 < n) (hp1 : 1 ≤ p)
    (hq1 : 1 ≤ q) (hpq : p ≠ q) (hps : p ≤ stop) (hqs : q ≤ stop) :
    Rearranged stop a (swap a (p - 1) (q - 1) hp hq) := by
  refine ⟨?_, fun k hk1 hk => ?_, fun k hk => ?_⟩
  · rw [swap_eq a hp hq (by omega)]
    exact (Vector.swap_perm hp hq).toList
  · rw [node_swap a hp hq hp1 hq1 hk1 hpq]
    split
    · exact ⟨q, hq1, hqs, rfl⟩
    · split
      · exact ⟨p, hp1, hps, rfl⟩
      · exact ⟨k, hk1, hk, rfl⟩
  · rw [node_swap a hp hq hp1 hq1 (by omega) hpq, if_neg (by omega), if_neg (by omega)]

/-- What an exchange that depends on the comparison does. -/
structure Raised (asc : Bool) (p q : ℕ) (a a' : Vector Int32 n) : Prop where
  first : Before asc (node a p) (node a' p)
  second : Before asc (node a q) (node a' p)
  below : Before asc (node a' q) (node a' p)
  other : ∀ k, 1 ≤ k → k ≠ p → k ≠ q → node a' k = node a k

theorem raised_compareSwap (asc : Bool) (a : Vector Int32 n) (hp : p - 1 < n) (hq : q - 1 < n)
    (hp1 : 1 ≤ p) (hq1 : 1 ≤ q) (hpq : p ≠ q) :
    Raised asc p q a (compareSwap asc a (p - 1) (q - 1) hp hq) := by
  have hnode : ∀ k, 1 ≤ k → k - 1 + 1 = k := fun k hk => Nat.sub_add_cancel hk
  unfold compareSwap
  rw [getElem_eq_node a hp, getElem_eq_node a hq, hnode p hp1, hnode q hq1]
  split
  · next hless =>
    have hbefore := before_of_less hless
    have hp' : node (swap a (p - 1) (q - 1) hp hq) p = node a q := by
      rw [node_swap a hp hq hp1 hq1 hp1 hpq, if_pos rfl]
    have hq' : node (swap a (p - 1) (q - 1) hp hq) q = node a p := by
      rw [node_swap a hp hq hp1 hq1 hq1 hpq, if_neg (Ne.symm hpq), if_pos rfl]
    refine ⟨hp' ▸ hbefore, hp' ▸ .refl asc _, hp' ▸ hq' ▸ hbefore, fun k hk1 hkp hkq => ?_⟩
    rw [node_swap a hp hq hp1 hq1 hk1 hpq, if_neg hkp, if_neg hkq]
  · next hless =>
    have hbefore := before_of_not_less hless
    exact ⟨.refl asc _, hbefore, hbefore, fun _ _ _ _ => rfl⟩

theorem rearranged_compareSwap (asc : Bool) (a : Vector Int32 n) (hp : p - 1 < n)
    (hq : q - 1 < n) (hp1 : 1 ≤ p) (hq1 : 1 ≤ q) (hpq : p ≠ q) (hps : p ≤ stop) (hqs : q ≤ stop) :
    Rearranged stop a (compareSwap asc a (p - 1) (q - 1) hp hq) := by
  unfold compareSwap
  split
  · exact rearranged_swap a hp hq hp1 hq1 hpq hps hqs
  · exact .refl stop a

/-! ## Subtrees -/

/-- The nodes of the subtree of `p`. -/
inductive Below (p : ℕ) : ℕ → Prop
  | self : Below p p
  | child {j : ℕ} (h : Below p (j / 2)) : Below p j

theorem Below.le {j : ℕ} (h : Below p j) : p ≤ j := by
  induction h with
  | self => exact Nat.le_refl p
  | child _ ih => omega

theorem below_root (j : ℕ) (hj : 1 ≤ j) : Below 1 j := by
  induction j using Nat.strongRecOn with
  | ind j ih =>
    by_cases h : j = 1
    · exact h ▸ .self
    · exact .child (ih (j / 2) (by omega) (by omega))

theorem Below.cases_child {j : ℕ} (h : Below p j) :
    j = p ∨ Below (2 * p) j ∨ Below (2 * p + 1) j := by
  induction h with
  | self => exact Or.inl rfl
  | @child j _ ih =>
    rcases ih with heq | hleft | hright
    · have hj : j = 2 * p ∨ j = 2 * p + 1 := by omega
      rcases hj with rfl | rfl
      · exact Or.inr (Or.inl .self)
      · exact Or.inr (Or.inr .self)
    · exact Or.inr (Or.inl (.child hleft))
    · exact Or.inr (Or.inr (.child hright))

/-- The children of a node are below no other node that is not above it. -/
theorem Below.eq_of_child {j : ℕ} (h : Below p j) (hp : j / 2 < p) : j = p := by
  cases h with
  | self => rfl
  | child h =>
    have hle := h.le
    omega

/-- The node `p` is the largest of its subtree. -/
def Largest (asc : Bool) (stop : ℕ) (a : Vector Int32 n) (p : ℕ) : Prop :=
  ∀ j, Below p j → j ≤ stop → Before asc (node a j) (node a p)

/-- This holds of the nodes from `i` on whose parents are not from `i` on. -/
def Frontier (asc : Bool) (stop : ℕ) (a : Vector Int32 n) (i : ℕ) : Prop :=
  ∀ p, i ≤ p → p / 2 < i → Largest asc stop a p

theorem frontier_leaves (asc : Bool) (a : Vector Int32 n) :
    Frontier asc stop a (stop / 2 + 1) := by
  intro p hp _ j hj hle
  rcases hj.cases_child with rfl | hleft | hright
  · exact .refl asc _
  · have hle' := hleft.le
    omega
  · have hle' := hright.le
    omega

/-- What a visit does to the nodes. -/
structure Visited (asc : Bool) (stop idx : ℕ) (a a' : Vector Int32 n) : Prop where
  top : Before asc (node a idx) (node a' idx)
  left : Before asc (node a (idx * 2)) (node a' idx)
  right : idx * 2 + 1 ≤ stop → Before asc (node a (idx * 2 + 1)) (node a' idx)
  leftBelow : Before asc (node a' (idx * 2)) (node a' idx)
  rightBelow : idx * 2 + 1 ≤ stop → Before asc (node a' (idx * 2 + 1)) (node a' idx)
  other : ∀ k, 1 ≤ k → k ≤ stop → k ≠ idx → k / 2 ≠ idx → node a' k = node a k

theorem visited_adjustNode (asc : Bool) (hstop : stop ≤ n) (a : Vector Int32 n) {idx : ℕ}
    (hpos : 1 ≤ idx) (hidx : idx ≤ stop / 2) :
    Visited asc stop idx a (adjustNode asc stop hstop a idx hpos hidx) := by
  have hleft := raised_compareSwap asc a (p := idx) (q := idx * 2) (by omega) (by omega) hpos
    (by omega) (by omega)
  unfold adjustNode
  simp only
  generalize compareSwap asc a (idx - 1) (idx * 2 - 1) _ _ = b at hleft ⊢
  split
  · next hle =>
    have hright := raised_compareSwap asc b (p := idx) (q := idx * 2 + 1) (by omega) (by omega)
      hpos (by omega) (by omega)
    generalize compareSwap asc b (idx - 1) (idx * 2 + 1 - 1) _ _ = c at hright ⊢
    have hsame : node b (idx * 2 + 1) = node a (idx * 2 + 1) :=
      hleft.other _ (by omega) (by omega) (by omega)
    have hkept : node c (idx * 2) = node b (idx * 2) :=
      hright.other _ (by omega) (by omega) (by omega)
    refine ⟨hleft.first.trans hright.first, hleft.second.trans hright.first, fun _ => ?_, ?_,
      fun _ => hright.below, fun k hk1 _ hki hk2 => ?_⟩
    · exact hsame ▸ hright.second
    · exact hkept ▸ hleft.below.trans hright.first
    · exact (hright.other k hk1 hki (by omega)).trans (hleft.other k hk1 hki (by omega))
  · next hlt =>
    refine ⟨hleft.first, hleft.second, fun h => absurd h hlt, hleft.below, fun h => absurd h hlt,
      fun k hk1 hk hki hk2 => hleft.other k hk1 hki (by omega)⟩

/-- **The step of the loop.** -/
theorem Visited.frontier {idx : ℕ} (h : Visited asc stop idx a a') (hpos : 1 ≤ idx)
    (hidx : idx ≤ stop / 2) (hf : Frontier asc stop a (idx + 1)) : Frontier asc stop a' idx := by
  intro p hp hparent j hj hle
  by_cases hpi : p = idx
  · subst hpi
    rcases hj.cases_child with rfl | hleft | hright
    · exact .refl asc _
    · by_cases hj2 : j = p * 2
      · exact hj2 ▸ h.leftBelow
      · have hbefore := hf (2 * p) (by omega) (by omega) j hleft hle
        have hge := hleft.le
        have hnot : j / 2 ≠ p := by
          intro heq
          have hchild := hleft.eq_of_child (by omega)
          omega
        rw [h.other j (by omega) hle (by omega) hnot]
        exact hbefore.trans (Nat.mul_comm p 2 ▸ h.left)
    · by_cases hj2 : j = p * 2 + 1
      · exact hj2 ▸ h.rightBelow (by omega)
      · have hbefore := hf (2 * p + 1) (by omega) (by omega) j hright hle
        have hge := hright.le
        have hnot : j / 2 ≠ p := by
          intro heq
          have hchild := hright.eq_of_child (by omega)
          omega
        rw [h.other j (by omega) hle (by omega) hnot]
        exact hbefore.trans (Nat.mul_comm p 2 ▸ h.right (by omega))
  · -- the subtree of `p` is not touched
    have hge := hj.le
    have hjc : j / 2 ≠ idx := by
      intro heq
      have hchild := hj.eq_of_child (by omega)
      omega
    rw [h.other j (by omega) hle (by omega) hjc, h.other p (by omega) (by omega) hpi (by omega)]
    exact hf p (by omega) (by omega) j hj hle

theorem rearranged_adjustNode (asc : Bool) (hstop : stop ≤ n) (a : Vector Int32 n) {idx : ℕ}
    (hpos : 1 ≤ idx) (hidx : idx ≤ stop / 2) :
    Rearranged stop a (adjustNode asc stop hstop a idx hpos hidx) := by
  have hleft : Rearranged stop a
      (compareSwap asc a (idx - 1) (idx * 2 - 1) (by omega) (by omega)) :=
    rearranged_compareSwap asc a (by omega) (by omega) hpos (by omega) (by omega) (by omega)
      (by omega)
  unfold adjustNode
  simp only
  split
  · next hle =>
    exact hleft.trans (rearranged_compareSwap asc _ (by omega) (by omega) hpos (by omega)
      (by omega) (by omega) hle)
  · exact hleft

/-! ## One pass -/

/-- The loop, from the node `idx` down. -/
theorem adjustFrom_spec (asc : Bool) (hstop : stop ≤ n) (idx : ℕ) (hidx : idx ≤ stop / 2)
    (a : Vector Int32 n) (hf : Frontier asc stop a (idx + 1)) :
    Rearranged stop a (adjustFrom asc stop hstop idx hidx a) ∧
      Frontier asc stop (adjustFrom asc stop hstop idx hidx a) 1 := by
  induction idx generalizing a with
  | zero => exact ⟨.refl stop a, hf⟩
  | succ idx ih =>
    have hvisited := visited_adjustNode asc hstop a (Nat.succ_pos idx) hidx
    have hrearranged := rearranged_adjustNode asc hstop a (Nat.succ_pos idx) hidx
    obtain ⟨hrest, hfrontier⟩ := ih (by omega) _ (hvisited.frontier (by omega) hidx hf)
    exact ⟨hrearranged.trans hrest, hfrontier⟩

/-- After the pass the last of the first `stop` nodes is the largest of them. -/
theorem heapAdjust_spec (asc : Bool) (hpos : 1 < stop) (hstop : stop ≤ n) (a : Vector Int32 n) :
    Rearranged stop a (heapAdjust asc stop hpos hstop a) ∧
      ∀ p, 1 ≤ p → p ≤ stop → Before asc (node (heapAdjust asc stop hpos hstop a) p)
        (node (heapAdjust asc stop hpos hstop a) stop) := by
  obtain ⟨hpass, hfrontier⟩ := adjustFrom_spec asc hstop (stop / 2) (Nat.le_refl _) a
    (frontier_leaves asc a)
  have hroot := hfrontier 1 (Nat.le_refl 1) (by omega)
  unfold heapAdjust
  generalize adjustFrom asc stop hstop (stop / 2) _ a = b at hpass hroot ⊢
  have hswap : ∀ k, 1 ≤ k → node (swap b 0 (stop - 1) (by omega) (by omega)) k =
      if k = 1 then node b stop else if k = stop then node b 1 else node b k :=
    fun k hk => node_swap b (p := 1) (by omega) (by omega) (Nat.le_refl 1) (by omega) hk (by omega)
  have hlast : node (swap b 0 (stop - 1) (by omega) (by omega)) stop = node b 1 := by
    rw [hswap stop (by omega), if_neg (by omega), if_pos rfl]
  refine ⟨hpass.trans (rearranged_swap b (p := 1) (by omega) (by omega) (Nat.le_refl 1)
    (by omega) (by omega) (by omega) (Nat.le_refl stop)), fun p hp1 hp => ?_⟩
  rw [hlast, hswap p hp1]
  split
  · exact hroot stop (below_root stop (by omega)) (Nat.le_refl stop)
  · split
    · exact .refl asc _
    · exact hroot p (below_root p hp1) hp

/-! ## The sort -/

/-- The nodes behind the first `stop` are in order, and behind all others. -/
def Sorted (asc : Bool) (stop : ℕ) (a : Vector Int32 n) : Prop :=
  ∀ p q, 1 ≤ p → p < q → stop < q → q ≤ n → Before asc (node a p) (node a q)

theorem Sorted.heapAdjust (h : Sorted asc (stop + 2) a) (hstop : stop + 2 ≤ n) :
    Sorted asc (stop + 1) (heapAdjust asc (stop + 2) (by omega) hstop a) := by
  obtain ⟨hrearranged, hlargest⟩ := heapAdjust_spec asc (by omega : 1 < stop + 2) hstop a
  intro p q hp1 hpq hq hqn
  by_cases hqs : q = stop + 2
  · exact hqs ▸ hlargest p hp1 (by omega)
  · rw [hrearranged.outside q (by omega)]
    by_cases hps : p ≤ stop + 2
    · -- what stands in front has been in front
      obtain ⟨r, hr1, hr, heq⟩ := hrearranged.inside p hp1 hps
      rw [heq]
      exact h r q hr1 (by omega) (by omega) hqn
    · rw [hrearranged.outside p (by omega)]
      exact h p q hp1 hpq (by omega) hqn

theorem sortFrom_spec (asc : Bool) (stop : ℕ) (hstop : stop ≤ n) (a : Vector Int32 n)
    (h : Sorted asc stop a) :
    (sortFrom asc stop hstop a).toList.Perm a.toList ∧ Sorted asc 1 (sortFrom asc stop hstop a) := by
  induction stop using Nat.twoStepInduction generalizing a with
  | zero => exact ⟨.refl _, fun p q hp1 hpq _ hqn => h p q hp1 hpq (by omega) hqn⟩
  | one => exact ⟨.refl _, h⟩
  | more stop _ ih =>
    obtain ⟨hperm, hsorted⟩ := ih (by omega) _ (h.heapAdjust hstop)
    exact ⟨hperm.trans (heapAdjust_spec asc (by omega) hstop a).1.perm, hsorted⟩

theorem Sorted.pairwise (h : Sorted asc 1 a) : a.toList.Pairwise (Before asc) := by
  rw [List.pairwise_iff_getElem]
  intro i j hi hj hij
  rw [Vector.length_toList] at hi hj
  rw [Vector.getElem_toList, Vector.getElem_toList, getElem_eq_node, getElem_eq_node]
  exact h (i + 1) (j + 1) (by omega) (by omega) (by omega) (by omega)

/-- **`heap_sort` sorts.** -/
theorem heapSort_sorts (a : Vector Int32 n) :
    ((heapSort a true).toList.Perm a.toList ∧ (heapSort a true).toList.Pairwise (· ≤ ·)) ∧
      (heapSort a false).toList.Perm a.toList ∧ (heapSort a false).toList.Pairwise (· ≥ ·) := by
  have hall : ∀ asc, Sorted asc n a := fun _ _ _ _ _ hlt hle => absurd hle (Nat.not_le.mpr hlt)
  obtain ⟨hperm, hsorted⟩ := sortFrom_spec true n (Nat.le_refl n) a (hall true)
  obtain ⟨hperm', hsorted'⟩ := sortFrom_spec false n (Nat.le_refl n) a (hall false)
  exact ⟨⟨hperm, hsorted.pairwise⟩, hperm', hsorted'.pairwise⟩

example : (heapSort #v[3, 1, 3, -2, 7] false).toList = [7, 3, 3, 1, -2] := by decide +kernel

end Wish.HeapSort
