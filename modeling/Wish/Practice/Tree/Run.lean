import Wish.Practice.Tree.Queries
import Mathlib.Data.Finset.Basic
import Mathlib.Data.Finset.Card
import Mathlib.Data.Finset.Range

/-!
# Sequences of calls

`Run root start ops s`: `create_root` has made the node `root`, and the calls `ops` have led to
the memory `s`. `SetTree s root t` says in the terms of the memory that the nodes reachable from
`root` are those of `t`.

`run_refines_set` is about every run: the tree holds the finite set of `specRun`.
-/

namespace Wish.SearchTree

open Prog Heap
open Wish.RBTree (intMax)

variable {T : Type} {s s' : Mem Unit (Node T)} {root : Addr} {L : List T}

/-! ## The tree in the memory -/

/-- Below `p`, whose parent is `par`, the links and the values are those of the tree. -/
def Linked (h : Addr → Option (Node T)) : Ptr → Ptr → Shape T → Prop
  | _, p, .nil => p = none
  | par, p, .node a v l r => p = some a ∧ ∃ pl pr b, h a = some ⟨pl, pr, par, v, b⟩ ∧
      Linked h (some a) pl l ∧ Linked h (some a) pr r

/-- What is reachable from `root`. -/
structure SetTree (s : Mem Unit (Node T)) (root : Addr) (t : Shape T) : Prop where
  /-- the children and the parents, `root`'s parent being null -/
  linked : Linked s.heap none (some root) t
  /-- no node is shared -/
  nodup : t.addrs.Nodup
  /-- only `root` is ever invalid, and only without children -/
  valid : ∀ a ∈ t.addrs, ∀ n, s.heap a = some n → n.isValid = false →
    a = root ∧ n.left = none ∧ n.right = none

theorem linked_of_holds {par : Ptr} {t : Shape T} {h : Addr → Option (Node T)}
    (hc : ∀ a n, (a, n) ∈ cells par t → h a = some n) : Linked h par t.ptr t := by
  induction t generalizing par with
  | nil => rfl
  | node a v l r ihl ihr =>
    refine ⟨rfl, l.ptr, r.ptr, true, hc _ _ (by simp [cells]), ihl fun b n hb => ?_,
      ihr fun b n hb => ?_⟩
    · exact hc b n (by simp [cells, hb])
    · exact hc b n (by simp [cells, hb])

theorem map_fst_cells (par : Ptr) (t : Shape T) :
    (cells par t).map Prod.fst = (t.addrs : Multiset Addr) := by
  induction t generalizing par with
  | nil => rfl
  | node a v l r ihl ihr =>
    simp only [cells, Shape.addrs, Multiset.map_add, Multiset.map_singleton, ihl, ihr,
      ← Multiset.coe_add, ← Multiset.cons_coe, ← Multiset.singleton_add]
    abel

theorem isValid_of_mem_cells {par : Ptr} {t : Shape T} {a : Addr} {n : Node T}
    (h : (a, n) ∈ cells par t) : n.isValid = true := by
  induction t generalizing par with
  | nil => simp [cells] at h
  | node b v l r ihl ihr =>
    simp only [cells, Multiset.mem_add, Multiset.mem_singleton] at h
    rcases h with (heq | hl) | hr
    · cases heq
      rfl
    · exact ihl hl
    · exact ihr hr

/-- All that the heap holds, when the values are `L` in order. -/
inductive Held (root : Addr) : Cells T → List T → Prop
  | valid {v : T} {l r : Shape T} :
      Held root (cells none (.node root v l r)) (Shape.node root v l r).values
  | invalid {v : T} : Held root {(root, ⟨none, none, none, v, false⟩)} []

theorem setTree_valid {v : T} {l r : Shape T} (hh : Holds s.heap (cells none (.node root v l r))) :
    SetTree s root (.node root v l r) := by
  refine ⟨linked_of_holds fun a n => hh.get, ?_, fun a ha n hn hinv => ?_⟩
  · have hnodup := hh.nodup
    rwa [map_fst_cells, Multiset.coe_nodup] at hnodup
  · rw [isValid_of_mem_cells ((hh.cells a n).mp hn)] at hinv
    cases hinv

theorem setTree_invalid {v : T} (ha : s.heap root = some ⟨none, none, none, v, false⟩) :
    SetTree s root (.node root v .nil .nil) := by
  refine ⟨⟨rfl, none, none, false, ha, rfl, rfl⟩, by simp [Shape.addrs], fun a hmem n hn _ => ?_⟩
  obtain rfl : a = root := by simpa [Shape.addrs] using hmem
  cases ha.symm.trans hn
  exact ⟨rfl, rfl, rfl⟩

/-- A query that returns a fixed answer, and changes nothing. -/
theorem converges_query {α : Type} {x : Nat → TreeProg T α} (hx : ∀ n m, n ≤ m → Below (x n) (x m))
    {k : Nat} {P : α → Prop} (h : ∀ n, k ≤ n → Returns (x n) s fun a s' => s' = s ∧ P a) :
    ∃ a, P a ∧ ∀ b s', Converges x s b s' ↔ b = a ∧ s' = s := by
  obtain ⟨a, s', ⟨hs, hP⟩, hiff⟩ := Returns.converges hx h
  subst hs
  exact ⟨a, hP, hiff⟩

/-- The heap holds a tree with the values `S`, and nothing else. -/
def Inv [LinearOrder T] (root : Addr) (s : Mem Unit (Node T)) (S : Finset T) : Prop :=
  ∃ M L, Held root M L ∧ Holds s.heap M ∧ L.Pairwise (· < ·) ∧ ∀ w, w ∈ L ↔ w ∈ S

section order

variable [LinearOrder T] {S : Finset T} {u v : T} {l r t : Shape T}

theorem inv_valid (hh : Holds s.heap (cells none (.node root v l r)))
    (hs : (Shape.node root v l r).values.Pairwise (· < ·))
    (hS : ∀ w, w ∈ (Shape.node root v l r).values ↔ w ∈ S) : Inv root s S :=
  ⟨_, _, .valid, hh, hs, hS⟩

theorem inv_invalid (hh : Holds s.heap {(root, ⟨none, none, none, v, false⟩)})
    (hS : ∀ w, w ∉ S) : Inv root s S :=
  ⟨_, _, .invalid, hh, .nil, fun w => ⟨fun hw => absurd hw List.not_mem_nil, fun hw => absurd hw (hS w)⟩⟩

theorem length_eq_card (hs : L.Pairwise (· < ·)) (hS : ∀ w, w ∈ L ↔ w ∈ S) :
    L.length = S.card := by
  have hnodup : L.Nodup := hs.imp fun hlt => hlt.ne
  have hL : L.toFinset = S := by
    ext w
    rw [List.mem_toFinset, hS w]
  rw [← hL, List.toFinset_card_of_nodup hnodup]

/-! ## Queries -/

/-- What the tree `t` with the values `S` shows. -/
structure Shows (s : Mem Unit (Node T)) (root : Addr) (t : Shape T) (S : Finset T) : Prop where
  inOrder : ∃ L : List T, (∀ L' s', Converges (fun k => printMid k (some root)) s L' s' ↔
    L' = L ∧ s' = s) ∧ L.Pairwise (· < ·) ∧ ∀ w, w ∈ L ↔ w ∈ S
  size : ∀ n s', Converges (fun k => size k (some root)) s n s' ↔
    S.card ≤ intMax ∧ n = S.card ∧ s' = s
  find : ∀ u, ∃ q, (∀ q' s', Converges (fun k => find k (some root) u) s q' s' ↔
      q' = q ∧ s' = s) ∧
    (u ∈ S → ∃ a n, q = some a ∧ a ∈ t.addrs ∧ s.heap a = some n ∧ n.value = u) ∧
    (u ∉ S → q = none)

theorem shows_valid (hh : Holds s.heap (cells none (.node root v l r)))
    (hs : (Shape.node root v l r).values.Pairwise (· < ·))
    (hS : ∀ w, w ∈ (Shape.node root v l r).values ↔ w ∈ S) :
    Shows s root (.node root v l r) S := by
  have hh' : Holds s.heap (cells none (.node root v l r) + 0) := by rwa [add_zero]
  have hcard := length_eq_card hs hS
  refine ⟨?_, fun n s' => ?_, fun u => ?_⟩
  · obtain ⟨L, hL, hiff⟩ := converges_query (P := fun L => L = (Shape.node root v l r).values)
      (fun n m h => below_foreachMiddle _ h [] (some root)) fun fuel hfuel =>
        returns_foreachMiddle (L := []) hh' hfuel ⟨rfl, rfl⟩
    subst hL
    exact ⟨_, hiff, hs, hS⟩
  · have hsize : ∀ k, (Shape.node root v l r).height ≤ k → ∀ Q : Nat → Mem Unit (Node T) → Prop,
        Returns (size k (some root)) s Q ↔ S.card ≤ intMax ∧ Q S.card s := by
      intro k hk Q
      have hcount := returns_count (Q := Q) hh' hk (Nat.zero_le intMax)
      rwa [Nat.zero_add, hcard] at hcount
    constructor
    · intro ⟨k, hk⟩
      have hmax := below_foreachBack _ (Nat.le_max_left k (Shape.node root v l r).height) 0
        (some root) s _ hk
      exact (hsize _ (Nat.le_max_right _ _) fun a b => n = a ∧ s' = b).mp ⟨n, s', hmax, rfl, rfl⟩
        |>.imp_right fun ⟨hn, hs'⟩ => ⟨hn, hs'⟩
    · intro ⟨hle, hn, hs'⟩
      obtain ⟨n', s₁, hk, hn', hs₁⟩ := (hsize _ (Nat.le_refl _) fun a b => a = S.card ∧ b = s).mpr
        ⟨hle, rfl, rfl⟩
      subst hn hs' hn' hs₁
      exact ⟨_, hk⟩
  · obtain ⟨q, hfound, hiff⟩ := converges_query (P := Found s u (.node root v l r))
      (fun n m h => below_find h (some root) u) fun fuel hfuel => returns_find hh' hs hfuel
    exact ⟨q, hiff, fun hu => hfound.hit ((hS u).mpr hu), fun hu => hfound.miss fun hw =>
      hu ((hS u).mp hw)⟩

/-- An invalid root shows nothing. -/
theorem shows_invalid (ha : s.heap root = some ⟨none, none, none, v, false⟩) (hS : ∀ w, w ∉ S) :
    Shows s root (.node root v .nil .nil) S := by
  have hcard : S = ∅ := Finset.eq_empty_of_forall_notMem hS
  subst hcard
  refine ⟨⟨[], ?_, .nil, fun w => ?_⟩, fun n s' => ?_, fun u => ⟨none, ?_, ?_, fun _ => rfl⟩⟩
  · obtain ⟨L, hL, hiff⟩ := converges_query (P := fun L => L = ([] : List T)) (k := 1)
      (fun n m h => below_foreachMiddle _ h [] (some root)) fun fuel hfuel => by
        obtain ⟨fuel, rfl⟩ := Nat.exists_eq_add_one_of_ne_zero (Nat.ne_zero_of_lt hfuel)
        rw [foreachMiddle, returns_bind, returns_isValid ha]
        exact returns_pure.mpr ⟨rfl, rfl⟩
    subst hL
    exact hiff
  · simp
  · obtain ⟨m, hm, hiff⟩ := converges_query (P := fun m => m = 0) (k := 1)
      (fun n m h => below_foreachBack (countNode (T := T)) h 0 (some root)) fun fuel hfuel => by
        obtain ⟨fuel, rfl⟩ := Nat.exists_eq_add_one_of_ne_zero (Nat.ne_zero_of_lt hfuel)
        rw [foreachBack, returns_bind, returns_isValid ha]
        exact returns_pure.mpr ⟨rfl, rfl⟩
    subst hm
    simpa [SearchTree.size] using hiff n s'
  · obtain ⟨q, hq, hiff⟩ := converges_query (P := fun q => q = none) (k := 1)
      (fun n m h => below_find h (some root) u) fun fuel hfuel => by
        obtain ⟨fuel, rfl⟩ := Nat.exists_eq_add_one_of_ne_zero (Nat.ne_zero_of_lt hfuel)
        rw [find, returns_bind, returns_isValid ha]
        exact returns_pure.mpr ⟨rfl, rfl⟩
    subst hq
    exact hiff
  · simp

theorem Inv.setTree (h : Inv root s S) : ∃ t, SetTree s root t ∧ Shows s root t S := by
  obtain ⟨M, L, hheld, hh, hs, hS⟩ := h
  cases hheld with
  | valid => exact ⟨_, setTree_valid hh, shows_valid hh hs hS⟩
  | invalid =>
    have ha := hh.get (Multiset.mem_singleton_self _)
    exact ⟨_, setTree_invalid ha, shows_invalid ha fun w hw => absurd ((hS w).mpr hw)
      List.not_mem_nil⟩

/-! ## Calls -/

theorem returns_insert_call [Inhabited T] {a : Addr} (h : Inv root s S) (ha : s.heap a = none) :
    ∃ k, ∀ fuel, k ≤ fuel → Returns (insert a fuel (some root) u) s fun _ s' =>
      Inv root s' (Insert.insert u S) := by
  obtain ⟨M, L, hheld, hh, hs, hS⟩ := h
  cases hheld with
  | @valid v l r =>
    have hh' : Holds s.heap (cells none (.node root v l r) + 0) := by rwa [add_zero]
    refine ⟨(Shape.node root v l r).height, fun fuel hfuel => ?_⟩
    refine (returns_insert hh' (by simp) ha hs hfuel).mono fun _ s' ⟨t', hptr, hins, hh''⟩ => ?_
    rw [add_zero] at hh''
    cases t' with
    | nil => cases hptr
    | node b w l' r' =>
      obtain rfl : b = root := Option.some.inj hptr
      refine inv_valid hh'' hins.1 fun x => ?_
      rw [hins.2, hS, Finset.mem_insert]
  | @invalid v =>
    refine ⟨1, fun fuel hfuel => ?_⟩
    obtain ⟨fuel, rfl⟩ := Nat.exists_eq_add_one_of_ne_zero (Nat.ne_zero_of_lt hfuel)
    have hroot := hh.get (Multiset.mem_singleton_self _)
    rw [insert, returns_bind, returns_isValid hroot, if_pos (by simp), returns_bind]
    refine returns_setIsValid (R := 0) hh (add_zero _).symm fun h₁ hh₁ => ?_
    refine returns_setValue hh₁ rfl fun h₂ hh₂ => ?_
    refine inv_valid (v := u) (l := .nil) (r := .nil) (by simpa [cells] using hh₂)
      (by simp [Shape.values]) fun w => ?_
    have hempty : ∀ w, w ∉ S := fun w hw => absurd ((hS w).mpr hw) List.not_mem_nil
    simp [Shape.values, hempty w]

/-- A set without `u`, and the values that `erase(node, u)` leaves. -/
theorem mem_erase_of_filter {L L' : List T} (hS : ∀ w, w ∈ L ↔ w ∈ S)
    (hL : L' = L.filter (· ≠ u)) (w : T) : w ∈ L' ↔ w ∈ S.erase u := by
  rw [hL, List.mem_filter, hS, Finset.mem_erase]
  simp [and_comm]

theorem returns_erase_call (h : Inv root s S) :
    ∃ k, ∀ fuel, k ≤ fuel → Returns (erase fuel (some root) u) s fun _ s' =>
      Inv root s' (S.erase u) := by
  obtain ⟨M, L, hheld, hh, hs, hS⟩ := h
  cases hheld with
  | @valid v l r =>
    refine ⟨(Shape.node root v l r).height, fun fuel hfuel => ?_⟩
    obtain ⟨hsl, hsr, -, -⟩ := sorted_node hs
    simp only [Shape.height] at hfuel
    obtain ⟨fuel, rfl⟩ := Nat.exists_eq_add_one_of_ne_zero (Nat.ne_zero_of_lt hfuel)
    have hh' : Holds s.heap (cells none (.node root v l r) + 0) := by rwa [add_zero]
    have ha := holds_root hh'
    have hsub : ∀ L', L' = (Shape.node root v l r).values.filter (· ≠ u) →
        L'.Pairwise (· < ·) := fun L' hL' => hL' ▸ hs.filter _
    rw [erase, returns_bind, returns_isValid ha, if_neg (by simp), returns_bind, returns_value ha]
    refine Returns.ite (fun hu => ?_) fun hne => ?_
    · obtain rfl : u = v := hu
      refine (returns_eraseNode_root hh' (by omega)).mono fun _ s' hend => ?_
      rcases hend with ⟨w, l', r', hvalues, hh''⟩ | ⟨hnil, hh''⟩
      · rw [add_zero] at hh''
        have hL' := hvalues.trans (values_erase_self hs).symm
        exact inv_valid hh'' (hsub _ hL') (mem_erase_of_filter hS hL')
      · rw [add_zero] at hh''
        refine inv_invalid hh'' fun w hw => ?_
        have hmem := (mem_erase_of_filter hS (values_erase_self hs).symm w).mpr hw
        rw [hnil] at hmem
        exact absurd hmem List.not_mem_nil
    rw [returns_bind, returns_value ha]
    refine Returns.ite (fun hgt => ?_) fun hle => ?_
    · rw [returns_bind, returns_left ha]
      refine (returns_child_frame (d := .left) hh' fun R' hh₁ hne' =>
        returns_erase_child hh₁ hne' hsl (by omega)).mono fun _ s' hres => ?_
      obtain ⟨l', hvalues, hh''⟩ := hres
      rw [add_zero] at hh''
      have hL' : (Shape.node root v l' r).values = _ :=
        (congrArg (· ++ v :: r.values) hvalues).trans (values_erase_left hs hgt).symm
      exact inv_valid hh'' (hsub _ hL') (mem_erase_of_filter hS hL')
    · rw [returns_bind, returns_right ha]
      have hlt : v < u := lt_of_le_of_ne (not_lt.mp hle) fun he => hne he.symm
      refine (returns_child_frame (d := .right) hh' fun R' hh₁ hne' =>
        returns_erase_child hh₁ hne' hsr (by omega)).mono fun _ s' hres => ?_
      obtain ⟨r', hvalues, hh''⟩ := hres
      rw [add_zero] at hh''
      have hL' : (Shape.node root v l r').values = _ :=
        (congrArg (l.values ++ v :: ·) hvalues).trans (values_erase_right hs hlt).symm
      exact inv_valid hh'' (hsub _ hL') (mem_erase_of_filter hS hL')
  | @invalid v =>
    refine ⟨1, fun fuel hfuel => ?_⟩
    obtain ⟨fuel, rfl⟩ := Nat.exists_eq_add_one_of_ne_zero (Nat.ne_zero_of_lt hfuel)
    have hroot := hh.get (Multiset.mem_singleton_self _)
    rw [erase, returns_bind, returns_isValid hroot]
    refine returns_pure.mpr (inv_invalid hh fun w hw => ?_)
    exact absurd ((hS w).mpr (Finset.mem_of_mem_erase hw)) List.not_mem_nil

inductive Op (T : Type) where
  | insert (t : T)
  | erase (t : T)

/-- The call on a set. -/
def Op.spec (S : Finset T) : Op T → Finset T
  | .insert t => Insert.insert t S
  | .erase t => S.erase t

/-- What `create_root()` or `create_root(t)` starts with. -/
def specStart : Option T → Finset T
  | none => ∅
  | some t => {t}

def specRun (start : Option T) (ops : List (Op T)) : Finset T := ops.foldl Op.spec (specStart start)

variable [Inhabited T]

def create (start : Option T) (root : Addr) : TreeProg T Ptr :=
  match start with
  | none => createRoot root
  | some t => createRootWith root t

/-- The call; `a` is the address that `new` gives. -/
def Op.exec (op : Op T) (root a : Addr) (fuel : Nat) : TreeProg T PUnit :=
  match op with
  | .insert t => SearchTree.insert a fuel (some root) t
  | .erase t => SearchTree.erase fuel (some root) t

/-- The call leads from `s` to `s'`. -/
def Call (root : Addr) (s : Mem Unit (Node T)) (op : Op T) (s' : Mem Unit (Node T)) : Prop :=
  ∃ a, s.heap a = none ∧ Converges (op.exec root a) s ⟨⟩ s'

/-- `root` is the node that `create_root` has returned. -/
inductive Run (root : Addr) (start : Option T) : List (Op T) → Mem Unit (Node T) → Prop
  | create {s : Mem Unit (Node T)}
      (hc : create start root ⟨⟨⟩, fun _ => none⟩ = .ok (some root, s)) : Run root start [] s
  | snoc {ops : List (Op T)} {op : Op T} {s s' : Mem Unit (Node T)} (hr : Run root start ops s)
      (hc : Call root s op s') : Run root start (ops ++ [op]) s'

theorem returns_create (start : Option T) (root : Addr) :
    Returns (create start root) ⟨⟨⟩, fun _ => none⟩ fun p s' =>
      p = some root ∧ Inv root s' (specStart start) := by
  cases start with
  | none =>
    simp only [create, createRoot, newTree, returns_bind]
    refine returns_new holds_empty rfl fun h₁ hh₁ => ?_
    refine returns_setIsValid hh₁ rfl fun h₂ hh₂ => returns_pure.mpr ⟨rfl, ?_⟩
    exact inv_invalid (v := default) (by simpa using hh₂) fun w => by simp [specStart]
  | some t =>
    simp only [create, createRootWith, newTree, returns_bind]
    refine returns_new holds_empty rfl fun h₁ hh₁ => ?_
    refine returns_setValue hh₁ rfl fun h₂ hh₂ => returns_pure.mpr ⟨rfl, ?_⟩
    refine inv_valid (v := t) (l := .nil) (r := .nil) (by simpa [cells] using hh₂)
      (by simp [Shape.values]) fun w => by simp [Shape.values, specStart]

theorem below_exec (op : Op T) (root a : Addr) {n m : Nat} (h : n ≤ m) :
    Below (op.exec root a n) (op.exec root a m) := by
  cases op with
  | insert t => exact below_insert h a (some root) t
  | erase t => exact below_erase h (some root) t

/-- One call does to the tree what it does to the set. -/
theorem exec_converges (op : Op T) {a : Addr} (h : Inv root s S) (ha : s.heap a = none) :
    (∃ s', Converges (op.exec root a) s ⟨⟩ s') ∧
      ∀ s', Converges (op.exec root a) s ⟨⟩ s' → Inv root s' (op.spec S) := by
  have hexec : ∃ k, ∀ fuel, k ≤ fuel → Returns (op.exec root a fuel) s fun _ s' =>
      Inv root s' (op.spec S) := by
    cases op with
    | insert t => exact returns_insert_call h ha
    | erase t => exact returns_erase_call h
  obtain ⟨k, hk⟩ := hexec
  obtain ⟨_, s', hinv, hiff⟩ := Returns.converges (fun n m => below_exec op root a) hk
  refine ⟨⟨s', (hiff _ _).mpr ⟨rfl, rfl⟩⟩, fun s'' hs'' => ?_⟩
  obtain ⟨-, rfl⟩ := (hiff _ _).mp hs''
  exact hinv

theorem run_inv {start : Option T} {ops : List (Op T)} (h : Run root start ops s) :
    Inv root s (specRun start ops) := by
  induction h with
  | create hc =>
    obtain ⟨p, s', hc', -, hinv⟩ := returns_create start root
    cases hc.symm.trans hc'
    exact hinv
  | snoc hr hc ih =>
    obtain ⟨a, ha, hconv⟩ := hc
    rw [specRun, List.foldl_append]
    exact (exec_converges _ ih ha).2 _ hconv

theorem exists_run (root : Addr) (start : Option T) (ops : List (Op T)) :
    ∃ s, Run root start ops s := by
  induction ops using List.reverseRecOn with
  | nil =>
    obtain ⟨p, s, hc, hp, -⟩ := returns_create start root
    subst hp
    exact ⟨s, .create hc⟩
  | append_singleton ops op ih =>
    obtain ⟨s, hs⟩ := ih
    obtain ⟨M, L, -, hh, -⟩ := run_inv hs
    obtain ⟨a, ha⟩ := hh.exists_free
    obtain ⟨s', hs'⟩ := (exec_converges op (run_inv hs) ha).1
    exact ⟨s', .snoc hs ⟨a, ha, hs'⟩⟩

/-- **Every sequence of calls** leaves a tree at `root` that shows the set, and the next call
returns. -/
theorem run_refines_set (root : Addr) (start : Option T) (ops : List (Op T)) :
    (∃ s, Run root start ops s) ∧ ∀ s, Run root start ops s →
      (∃ t, SetTree s root t ∧ Shows s root t (specRun start ops)) ∧
        ∀ (op : Op T) a, s.heap a = none → ∃ s', Converges (op.exec root a) s ⟨⟩ s' :=
  ⟨exists_run root start ops, fun _ hs =>
    ⟨(run_inv hs).setTree, fun op _ ha => (exec_converges op (run_inv hs) ha).1⟩⟩

theorem specRun_range (n : Nat) :
    specRun none ((List.range n).map .insert : List (Op Nat)) = Finset.range n := by
  induction n with
  | zero => rfl
  | succ n ih =>
    rw [specRun] at ih ⊢
    rw [List.range_succ, List.map_append, List.foldl_append, ih, Finset.range_add_one]
    rfl

/-- `2 ^ 31` values are too many for `size`. -/
theorem not_run_refines_set : ∃ s, Run 0 none ((List.range (2 ^ 31)).map .insert : List (Op Nat)) s ∧
    (specRun none ((List.range (2 ^ 31)).map .insert : List (Op Nat))).card = 2 ^ 31 ∧
      ∀ n s', ¬ Converges (fun k => size k (some 0)) s n s' := by
  have hcard : (specRun none ((List.range (2 ^ 31)).map .insert : List (Op Nat))).card = 2 ^ 31 := by
    rw [specRun_range, Finset.card_range]
  obtain ⟨s, hs⟩ := exists_run 0 none ((List.range (2 ^ 31)).map .insert : List (Op Nat))
  refine ⟨s, hs, hcard, fun n s' hn => ?_⟩
  obtain ⟨t, -, hshows⟩ := (run_inv hs).setTree
  obtain ⟨hle, -⟩ := (hshows.size n s').mp hn
  rw [hcard, intMax] at hle
  omega

end order

end Wish.SearchTree
