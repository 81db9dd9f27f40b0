import Wish.Practice.RBTree.Run

/-!
# Calls with node objects

`insert(root, node)` and `erase(root, node)` take an object instead of a value. Around the tree
there may then be objects that the caller has created and not inserted yet; `Holding s t R`
is the invariant with these, `R`.

Over the runs of all four calls: `nodeRun_frame` says which objects a call adds or takes out
and that it keeps the others where they are, with their values; `nodeRun_safe` that no call
dereferences a null pointer, and `nodeRun_terminates` that its loops end.
-/

namespace Wish.RBTree

open Prog Heap

variable {T : Type}

/-! ## The objects of a tree -/

/-- The nodes in order. -/
def Tree.addrs (t : Tree T) : List Addr := t.toList.map Prod.fst

/-- The links say which tree it is. -/
theorem Linked.unique {h : Addr → Option (Node T)} {par p : Ptr} {t t' : Tree T}
    (ht : Linked h par p t) (ht' : Linked h par p t') : t = t' := by
  induction t generalizing par p t' with
  | nil =>
    cases t' with
    | nil => rfl
    | node a c v l r => cases ht.symm.trans ht'.1
  | node a c v l r ihl ihr =>
    obtain ⟨rfl, pl, pr, ha, hl, hr⟩ := ht
    cases t' with
    | nil => cases ht'
    | node a' c' v' l' r' =>
      obtain ⟨hp, pl', pr', ha', hl', hr'⟩ := ht'
      cases hp
      cases ha.symm.trans ha'
      rw [ihl hl hl', ihr hr hr']

theorem Linked.value {h : Addr → Option (Node T)} {par p : Ptr} {t : Tree T}
    (ht : Linked h par p t) {a : Addr} {v : T} (hm : (a, v) ∈ t.toList) :
    (h a).map Node.value = some v := by
  induction t generalizing par p with
  | nil => cases hm
  | node b c w l r ihl ihr =>
    obtain ⟨-, pl, pr, hb, hl, hr⟩ := ht
    rcases List.mem_append.mp hm with hm | hm
    · exact ihl hl hm
    · rcases List.mem_cons.mp hm with hab | hm
      · cases hab
        rw [hb]
        rfl
      · exact ihr hr hm

/-- Every node of a tree has its place there. -/
theorem exists_plug {t : Tree T} {a : Addr} {v : T} (hm : (a, v) ∈ t.toList) :
    ∃ c l r K, t = plug (.node a c v l r) K := by
  induction t with
  | nil => cases hm
  | node b c w l r ihl ihr =>
    rcases List.mem_append.mp hm with hm | hm
    · obtain ⟨c', l', r', K, rfl⟩ := ihl hm
      refine ⟨c', l', r', K ++ [⟨.left, b, c, w, r⟩], ?_⟩
      rw [plug_append]
      rfl
    · rcases List.mem_cons.mp hm with hab | hm
      · cases hab
        exact ⟨c, l, r, [], rfl⟩
      · obtain ⟨c', l', r', K, rfl⟩ := ihr hm
        refine ⟨c', l', r', K ++ [⟨.right, b, c, w, l⟩], ?_⟩
        rw [plug_append]
        rfl

theorem filter_ne_append_cons {L M : List (Addr × T)} {a : Addr} {v : T}
    (h : ((L ++ (a, v) :: M).map Prod.fst).Nodup) :
    (L ++ (a, v) :: M).filter (fun n => n.1 ≠ a) = L ++ M := by
  rw [List.map_append, List.map_cons, List.nodup_middle, List.nodup_cons] at h
  have hkeep : ∀ n ∈ L ++ M, n.1 ≠ a := by
    rintro n hn rfl
    have hmap := List.mem_map_of_mem (f := Prod.fst) hn
    exact h.1 (List.map_append ▸ hmap)
  have hL : L.filter (fun n => n.1 ≠ a) = L :=
    List.filter_eq_self.mpr fun n hn => by simpa using hkeep n (List.mem_append_left M hn)
  have hM : M.filter (fun n => n.1 ≠ a) = M :=
    List.filter_eq_self.mpr fun n hn => by simpa using hkeep n (List.mem_append_right L hn)
  rw [List.filter_append, List.filter_cons_of_neg (by simp), hL, hM]

/-! ## The memory of a tree -/

variable {s s' : Mem Ptr (Node T)} {R R' : Cells T} {t t' : Tree T}

theorem mem_addrs_of_cells {par : Ptr} {a : Addr} {n : Node T} (h : (a, n) ∈ cells par t) :
    a ∈ t.addrs := by
  have hmem := Multiset.mem_map_of_mem Prod.fst h
  rw [map_fst_cells] at hmem
  exact hmem

/-- What is not in the tree is in `R`. -/
theorem Rep.outside (h : Rep s t R) {a : Addr} (ha : a ∉ t.addrs) (n : Node T) :
    s.heap a = some n ↔ (a, n) ∈ R := by
  rw [h.holds.cells, Multiset.mem_add]
  exact ⟨fun hn => hn.resolve_left fun hc => ha (mem_addrs_of_cells hc), .inr⟩

theorem Rep.notMem (h : Rep s t R) {a : Addr} (ha : a ∈ t.addrs) (n : Node T) : (a, n) ∉ R := by
  intro hn
  have hnodup := h.holds.nodup
  rw [Multiset.map_add, map_fst_cells, Multiset.nodup_add] at hnodup
  exact Multiset.disjoint_left.mp hnodup.2.2 ha (Multiset.mem_map_of_mem Prod.fst hn)

/-! ## The other objects -/

/-- The objects other than `p` are where they were, with their values; those that are not in
the tree `t` have not changed at all. -/
structure Keeps (s s' : Mem Ptr (Node T)) (t : Tree T) (p : Addr) : Prop where
  value : ∀ a ≠ p, (s'.heap a).map Node.value = (s.heap a).map Node.value
  outside : ∀ a ≠ p, a ∉ t.addrs → s'.heap a = s.heap a

/-- An object outside of both trees is the same in both memories. -/
theorem Rep.heap_eq (h : Rep s t R) (h' : Rep s' t' R') {a : Addr} (ha : a ∉ t.addrs)
    (ha' : a ∉ t'.addrs) (hR : ∀ n, (a, n) ∈ R' ↔ (a, n) ∈ R) : s'.heap a = s.heap a := by
  refine Option.ext fun n => ?_
  rw [h'.outside ha', h.outside ha, hR]

/-- It is enough that the trees have the same nodes, `p` apart. -/
theorem Rep.keeps {p : Addr} (h : Rep s t R) (h' : Rep s' t' R')
    (ht : ∀ a v, a ≠ p → ((a, v) ∈ t'.toList ↔ (a, v) ∈ t.toList))
    (hR : ∀ a n, a ≠ p → ((a, n) ∈ R' ↔ (a, n) ∈ R)) : Keeps s s' t p := by
  have houtside : ∀ a ≠ p, a ∉ t.addrs → s'.heap a = s.heap a := by
    refine fun a hap ha => h.heap_eq h' ha (fun ha' => ha ?_) fun n => hR a n hap
    obtain ⟨⟨a, v⟩, hmem, rfl⟩ := List.mem_map.mp ha'
    exact List.mem_map_of_mem ((ht a v hap).mp hmem)
  refine ⟨fun a hap => ?_, houtside⟩
  by_cases ha : a ∈ t.addrs
  · obtain ⟨⟨a, v⟩, hmem, rfl⟩ := List.mem_map.mp ha
    rw [h.linked.value hmem, h'.linked.value ((ht a v hap).mpr hmem)]
  · rw [houtside a hap ha]

/-! ## The calls with a node -/

section calls

variable [LinearOrder T]

/-- `erase(root, node)`. -/
theorem Holding.eraseNode (h : Holding s t R) {p : Addr} (hp : p ∈ t.addrs) {fuel : Nat}
    (hfuel : 4 * t.height + 4 ≤ fuel) :
    Returns (eraseNode fuel (some p)) s fun _ s' => ∃ t', Holding s' t' R ∧
      t'.toList = t.toList.filter fun n => n.1 ≠ p := by
  obtain ⟨⟨p, v⟩, hmem, rfl⟩ := List.mem_map.mp hp
  obtain ⟨c, l, r, K, rfl⟩ := exists_plug hmem
  obtain ⟨m, hm⟩ := h.balanced
  have hnodup := h.rep.nodup
  refine (returns_eraseNode h.rep hm h.root (by omega)).mono ?_
  rintro _ s' ⟨t', m', hrep', hm', hc', hL⟩
  have hsplit : (plug (.node p c v l r) K).toList =
      (before K ++ l.toList) ++ (p, v) :: (r.toList ++ after K) := by
    simp [toList_plug, Tree.toList]
  have hfilter : t'.toList = (plug (.node p c v l r) K).toList.filter fun n => n.1 ≠ p := by
    rw [hsplit] at hnodup
    rw [hL, hsplit, filter_ne_append_cons hnodup]
    simp
  have hsub : t'.values.Sublist (plug (.node p c v l r) K).values := by
    rw [Tree.values, hfilter]
    exact List.filter_sublist.map Prod.snd
  exact ⟨t', ⟨hrep', ⟨m', hm'⟩, hc', h.sorted.sublist hsub⟩, hfilter⟩

/-- An object outside of the tree is one of `R`. -/
theorem Holding.split (h : Holding s t R) {p : Addr} {n : Node T} (hp : p ∉ t.addrs)
    (hn : s.heap p = some n) : ∃ R', R = {(p, n)} + R' := by
  obtain ⟨R', hR'⟩ := Multiset.exists_cons_of_mem ((h.rep.outside hp n).mp hn)
  exact ⟨R', by rw [hR', Multiset.singleton_add]⟩

/-- `insert(root, node)`. -/
theorem Holding.insertNode {b : Addr} {n : Node T} (h : Holding s t ({(b, n)} + R))
    (hleft : n.left = none) (hright : n.right = none) {fuel : Nat}
    (hfuel : 4 * t.height + 4 ≤ fuel) :
    Returns (insertNode fuel (some b)) s fun _ s' => ∃ t', Holding s' t' R ∧
      ∃ L M, t.toList = L ++ M ∧ t'.toList = L ++ (b, n.value) :: M := by
  obtain ⟨m, hm⟩ := h.balanced
  refine (returns_insertNode h.rep hm h.root hleft hright (by omega)).mono ?_
  rintro _ s' ⟨t', m', K, hrep', hm', hc', rfl, hpath, hL⟩
  have hsorted := (hpath.values_insert h.sorted hL).2
  refine ⟨t', ⟨hrep', ⟨m', hm'⟩, hc', hsorted⟩, before K, after K, ?_, hL⟩
  simp [toList_plug, Tree.toList]

variable [Inhabited T]

/-! ## Runs -/

inductive NodeOp (T : Type) where
  /-- a call with a value -/
  | value (op : Op T)
  /-- the caller's `new`, with the members it gives -/
  | create (n : Node T)
  /-- `insert(root, node)` -/
  | insertNode (p : Addr)
  /-- `erase(root, node)` -/
  | eraseNode (p : Addr)

/-- The call; `a` is the address that `new` gives. -/
def NodeOp.exec (op : NodeOp T) (a : Addr) (fuel : Nat) : RBProg T PUnit :=
  match op with
  | .value op => op.exec a fuel
  | .create n => do
    let _ ← new a n
    pure ⟨⟩
  | .insertNode p => RBTree.insertNode fuel (some p)
  | .eraseNode p => RBTree.eraseNode fuel (some p)

/-- What `insert(root, node)` is given is an object outside of the tree that has no children;
what `erase(root, node)` is given is a node of the tree. -/
def NodeOp.Legal (s : Mem Ptr (Node T)) (t : Tree T) : NodeOp T → Prop
  | .value _ => True
  | .create _ => True
  | .insertNode p => p ∉ t.addrs ∧ ∃ n, s.heap p = some n ∧ n.left = none ∧ n.right = none
  | .eraseNode p => p ∈ t.addrs

/-- The calls lead from the empty tree to `s`. -/
inductive NodeRun : List (NodeOp T) → Mem Ptr (Node T) → Prop
  | nil : NodeRun [] ⟨none, fun _ => none⟩
  | snoc {ops : List (NodeOp T)} {op : NodeOp T} {s s' : Mem Ptr (Node T)} {t : Tree T} {a : Addr}
      (hr : NodeRun ops s) (ht : Linked s.heap none s.globals t) (hl : op.Legal s t)
      (ha : s.heap a = none) (hc : Converges (op.exec a) s ⟨⟩ s') : NodeRun (ops ++ [op]) s'

theorem NodeOp.upto_exec (op : NodeOp T) (a : Addr) {n m : Nat} (h : n ≤ m) :
    Upto .stuck (op.exec a n) (op.exec a m) := by
  cases op with
  | value op => exact RBTree.upto_exec op a h
  | create n => exact .refl _
  | insertNode p => exact upto_insertNode h (some p)
  | eraseNode p => exact upto_eraseNode h (some p)

/-- One call keeps the invariant. -/
theorem Holding.step (h : Holding s t R) {op : NodeOp T} (hl : op.Legal s t) {a : Addr}
    (ha : s.heap a = none) {fuel : Nat} (hfuel : 4 * t.height + 4 ≤ fuel) :
    Returns (op.exec a fuel) s fun _ s' => ∃ t' R', Holding s' t' R' := by
  cases op with
  | value op => exact (h.exec op ha hfuel).mono fun _ s' ⟨t', h', _⟩ => ⟨t', R, h'⟩
  | create n =>
    refine returns_bind.mpr (returns_new h.rep.holds ha fun h₁ hh₁ => returns_pure.mpr ?_)
    have hrep : Rep ⟨s.globals, h₁⟩ t ({(a, n)} + R) :=
      ⟨h.rep.root, cast (congrArg _ (by abel)) hh₁⟩
    exact ⟨t, _, hrep, h.balanced, h.root, h.sorted⟩
  | insertNode p =>
    obtain ⟨hp, n, hn, hleft, hright⟩ := hl
    obtain ⟨R', rfl⟩ := h.split hp hn
    exact (h.insertNode hleft hright hfuel).mono fun _ s' ⟨t', h', _⟩ => ⟨t', R', h'⟩
  | eraseNode p => exact (h.eraseNode hl hfuel).mono fun _ s' ⟨t', h', _⟩ => ⟨t', R, h'⟩

theorem nodeRun_holding {ops : List (NodeOp T)} (hr : NodeRun ops s) : ∃ t R, Holding s t R := by
  induction hr with
  | nil => exact ⟨.nil, 0, ⟨rfl, holds_empty⟩, ⟨0, .nil⟩, rfl, .nil⟩
  | snoc hr ht hl ha hc ih =>
    obtain ⟨t, R, h⟩ := ih
    obtain rfl := ht.unique h.rep.linked
    obtain ⟨_, s', hinv, hiff⟩ := Returns.converges
      (fun n m hnm => (NodeOp.upto_exec _ _ hnm).below) fun fuel => h.step hl ha
    obtain ⟨-, rfl⟩ := (hiff _ _).mp hc
    exact hinv

/-- Every run keeps a red-black tree, the only tree that the links show. -/
theorem nodeRun_redBlack {ops : List (NodeOp T)} (hr : NodeRun ops s) :
    ∃ t, RedBlack s t ∧ ∀ t', Linked s.heap none s.globals t' → t' = t := by
  obtain ⟨t, R, h⟩ := nodeRun_holding hr
  exact ⟨t, h.redBlack, fun t' ht' => ht'.unique h.rep.linked⟩

/-- Calls one after the other, with the addresses that `new` gives. -/
def callAll (fuel : Nat) : List (NodeOp T × Addr) → RBProg T PUnit
  | [] => pure ⟨⟩
  | (op, a) :: ops => do
    let s ← get
    match s.heap a with
    | none => do
      op.exec a fuel
      callAll fuel ops
    | some _ => throw .inUse

/-- Calls that are legal with every tree make a run. -/
theorem NodeRun.callAll {ops : List (NodeOp T)} {calls : List (NodeOp T × Addr)} {fuel : Nat}
    (hr : NodeRun ops s) (hl : ∀ c ∈ calls, ∀ s t, c.1.Legal s t)
    (h : callAll fuel calls s = .ok (⟨⟩, s')) : NodeRun (ops ++ calls.map Prod.fst) s' := by
  induction calls generalizing ops s with
  | nil =>
    cases h
    rwa [List.map_nil, List.append_nil]
  | cons c calls ih =>
    obtain ⟨op, a⟩ := c
    have hfirst : ∀ s t, op.Legal s t := hl (op, a) List.mem_cons_self
    rw [RBTree.callAll] at h
    cases ha : s.heap a with
    | some n =>
      have hfault : (throw .inUse : RBProg T PUnit) s = .ok (⟨⟩, s') := by
        rw [← h, bind_of_ok (x := get) (b := s) rfl, ha]
      cases hfault
    | none =>
      have h : (op.exec a fuel >>= fun _ => RBTree.callAll fuel calls) s = .ok (⟨⟩, s') := by
        rw [← h, bind_of_ok (x := get) (b := s) rfl, ha]
      cases hop : op.exec a fuel s with
      | error e =>
        rw [bind_of_error hop] at h
        cases h
      | ok r =>
        obtain ⟨⟨⟩, m⟩ := r
        rw [bind_of_ok hop] at h
        obtain ⟨t, R, hholding⟩ := nodeRun_holding hr
        have hnext := hr.snoc hholding.rep.linked (hfirst s t) ha ⟨fuel, hop⟩
        rw [List.map_cons, List.append_cons]
        exact ih hnext (fun c hc => hl c (List.mem_cons_of_mem _ hc)) h

/-- The tree that the links show is the tree of the invariant. -/
theorem NodeRun.holding {ops : List (NodeOp T)} (hr : NodeRun ops s)
    (ht : Linked s.heap none s.globals t) : ∃ R, Holding s t R := by
  obtain ⟨t', R, h⟩ := nodeRun_holding hr
  rw [ht.unique h.rep.linked]
  exact ⟨R, h⟩

/-! ## Every run -/

/-- **`erase(root, node)` takes out this object, `insert(root, node)` adds this one**, and both
keep the others. -/
theorem nodeRun_frame {ops : List (NodeOp T)} (hr : NodeRun ops s)
    (ht : Linked s.heap none s.globals t) :
    (∀ p ∈ t.addrs, ∃ s',
      (∀ s'', Converges (fun fuel => eraseNode fuel (some p)) s ⟨⟩ s'' ↔ s'' = s') ∧
      (∃ t', RedBlack s' t' ∧ t'.toList = t.toList.filter fun n => n.1 ≠ p) ∧
      s'.heap p = none ∧ Keeps s s' t p) ∧
    ∀ p n, p ∉ t.addrs → s.heap p = some n → n.left = none → n.right = none → ∃ s',
      (∀ s'', Converges (fun fuel => insertNode fuel (some p)) s ⟨⟩ s'' ↔ s'' = s') ∧
      (∃ t' L M, RedBlack s' t' ∧ t.toList = L ++ M ∧ t'.toList = L ++ (p, n.value) :: M) ∧
      (s'.heap p).map Node.value = some n.value ∧ Keeps s s' t p := by
  obtain ⟨R, h⟩ := hr.holding ht
  refine ⟨fun p hp => ?_, fun p n hp hn hleft hright => ?_⟩
  · obtain ⟨_, s', ⟨t', h', hL⟩, hiff⟩ := Returns.converges
      (fun n m hnm => (upto_eraseNode hnm (some p)).below) fun fuel => h.eraseNode hp
    have hmem : ∀ a v, a ≠ p → ((a, v) ∈ t'.toList ↔ (a, v) ∈ t.toList) := by
      intro a v hap
      rw [hL, List.mem_filter]
      simp [hap]
    have hgone : p ∉ t'.addrs := by
      rw [Tree.addrs, hL]
      simp
    have hfree : s'.heap p = none := Option.eq_none_iff_forall_ne_some.mpr fun n hn =>
      h.rep.notMem hp n ((h'.rep.outside hgone n).mp hn)
    exact ⟨s', fun s'' => by simp [hiff], ⟨t', h'.redBlack, hL⟩, hfree,
      h.rep.keeps h'.rep hmem fun _ _ _ => .rfl⟩
  · obtain ⟨R', rfl⟩ := h.split hp hn
    obtain ⟨_, s', ⟨t', h', L, M, htL, hL⟩, hiff⟩ := Returns.converges
      (fun n m hnm => (upto_insertNode hnm (some p)).below) fun fuel => h.insertNode hleft hright
    have hmem : ∀ a v, a ≠ p → ((a, v) ∈ t'.toList ↔ (a, v) ∈ t.toList) := by
      intro a v hap
      rw [hL, htL]
      simp [hap]
    have hin : (p, n.value) ∈ t'.toList := by
      rw [hL]
      exact List.mem_append_right L List.mem_cons_self
    refine ⟨s', fun s'' => by simp [hiff], ⟨t', L, M, h'.redBlack, htL, hL⟩,
      h'.rep.linked.value hin, h.rep.keeps h'.rep hmem fun a m hap => ?_⟩
    simp [hap]

/-- **No call dereferences a null pointer** or a pointer to no object, however far it gets. -/
theorem nodeRun_safe {ops : List (NodeOp T)} {op : NodeOp T} {a : Addr} (hr : NodeRun ops s)
    (ht : Linked s.heap none s.globals t) (hl : op.Legal s t) (ha : s.heap a = none) :
    (∃ s', Converges (op.exec a) s ⟨⟩ s') ∧
      ∀ fuel e, op.exec a fuel s = .error e → e ≠ .null ∧ e ≠ .dangling := by
  obtain ⟨R, h⟩ := hr.holding ht
  have hstep := fun fuel (hfuel : 4 * t.height + 4 ≤ fuel) => h.step hl ha hfuel
  refine ⟨?_, fun fuel e he => ?_⟩
  · obtain ⟨_, s', hs', -⟩ := hstep _ (le_refl _)
    exact ⟨s', _, hs'⟩
  · rcases Upto.stuck_or_returns (fun n m => op.upto_exec a) hstep fuel with hs | hret
    · cases he.symm.trans hs
      exact ⟨nofun, nofun⟩
    · obtain ⟨_, s', hs', -⟩ := hret
      cases he.symm.trans hs'

/-- **The loops end**: each of a call, those of `insert_fixup` and `erase_fixup` with them, makes
less than `4 * t.height + 4` rounds. -/
theorem nodeRun_terminates {ops : List (NodeOp T)} {op : NodeOp T} {a : Addr} (hr : NodeRun ops s)
    (ht : Linked s.heap none s.globals t) (hl : op.Legal s t) (ha : s.heap a = none) :
    ∀ fuel, 4 * t.height + 4 ≤ fuel → ∃ s', op.exec a fuel s = .ok (⟨⟩, s') := by
  intro fuel hfuel
  obtain ⟨R, h⟩ := hr.holding ht
  obtain ⟨_, s', hs', -⟩ := h.step hl ha hfuel
  exact ⟨s', hs'⟩

end calls

/-- A black root with two black leaves, and the object `3` beside the tree. -/
def calls : List (NodeOp Nat × Addr) :=
  [(.value (.insert 2), 0), (.value (.insert 1), 1), (.value (.insert 3), 2),
    (.value (.insert 4), 3), (.value (.erase 4), 4), (.create ⟨none, none, none, .Red, 5⟩, 3)]

def blackTree : Tree Nat := .node 0 .Black 2 (.node 1 .Black 1 .nil .nil) (.node 2 .Black 3 .nil .nil)

theorem exists_nodeRun : ∃ s : Mem Ptr (Node Nat), NodeRun (calls.map Prod.fst) s ∧
    Linked s.heap none s.globals blackTree ∧ s.heap 3 = some ⟨none, none, none, .Red, 5⟩ ∧
      s.heap 4 = none := by
  have hview : ((callAll 8 calls ⟨none, fun _ => none⟩).toOption.map fun r =>
      (r.2.globals, [0, 1, 2, 3, 4].map r.2.heap)) =
      some (some 0, [some ⟨none, some 1, some 2, .Black, 2⟩, some ⟨some 0, none, none, .Black, 1⟩,
        some ⟨some 0, none, none, .Black, 3⟩, some ⟨none, none, none, .Red, 5⟩, none]) := by
    decide +kernel
  cases hcalls : callAll 8 calls ⟨none, fun _ => none⟩ with
  | error e =>
    rw [hcalls] at hview
    cases hview
  | ok r =>
    obtain ⟨⟨⟩, s⟩ := r
    rw [hcalls] at hview
    simp only [Except.toOption, Option.map_some, Option.some.injEq, Prod.mk.injEq, List.map_cons,
      List.cons.injEq] at hview
    obtain ⟨hroot, h0, h1, h2, h3, h4, -⟩ := hview
    have hrun : NodeRun ([] ++ calls.map Prod.fst) s := by
      refine NodeRun.nil.callAll ?_ hcalls
      simp [calls, NodeOp.Legal]
    exact ⟨s, hrun, ⟨hroot, _, _, h0, ⟨rfl, none, none, h1, rfl, rfl⟩, rfl, none, none, h2, rfl, rfl⟩,
      h3, h4⟩

/-- The root goes: its successor is a black leaf, for which `erase_fixup` goes up to the new root. -/
theorem nodeRun_frame_root : ∃ s s' : Mem Ptr (Node Nat), NodeRun (calls.map Prod.fst) s ∧
    Converges (fun fuel => eraseNode fuel (some 0)) s ⟨⟩ s' ∧ s'.heap 0 = none ∧
      (s'.heap 2).map Node.value = some 3 ∧ s'.heap 3 = s.heap 3 := by
  obtain ⟨s, hr, ht, -, -⟩ := exists_nodeRun
  obtain ⟨s', hiff, -, hfree, hkeeps⟩ := (nodeRun_frame hr ht).1 0 (by decide)
  have hvalue : (s.heap 2).map Node.value = some 3 := ht.value (by decide)
  exact ⟨s, s', hr, (hiff s').mpr rfl, hfree, (hkeeps.value 2 (by decide)).trans hvalue,
    hkeeps.outside 3 (by decide) (by decide)⟩

theorem nodeRun_safe_root : ∃ s : Mem Ptr (Node Nat), NodeRun (calls.map Prod.fst) s ∧
    (∃ s', Converges ((NodeOp.eraseNode 0).exec 4) s ⟨⟩ s') ∧
      ∀ fuel e, (NodeOp.eraseNode 0).exec 4 fuel s = .error e → e ≠ .null ∧ e ≠ .dangling := by
  obtain ⟨s, hr, ht, -, ha⟩ := exists_nodeRun
  have hlegal : (NodeOp.eraseNode 0).Legal s blackTree := show 0 ∈ blackTree.addrs by decide
  exact ⟨s, hr, nodeRun_safe hr ht hlegal ha⟩

theorem nodeRun_terminates_root : ∃ s s' : Mem Ptr (Node Nat), NodeRun (calls.map Prod.fst) s ∧
    (NodeOp.eraseNode 0).exec 4 12 s = .ok (⟨⟩, s') := by
  obtain ⟨s, hr, ht, -, ha⟩ := exists_nodeRun
  have hlegal : (NodeOp.eraseNode 0).Legal s blackTree := show 0 ∈ blackTree.addrs by decide
  obtain ⟨s', hs'⟩ := nodeRun_terminates hr ht hlegal ha 12 (by decide)
  exact ⟨s, s', hr, hs'⟩

end Wish.RBTree
