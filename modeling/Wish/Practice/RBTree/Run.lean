import Wish.Practice.RBTree.Insert
import Wish.Practice.RBTree.Erase
import Wish.Practice.RBTree.Queries

/-!
# Sequences of calls

`Run ops s`: from an empty tree, the calls `ops` lead to the memory `s`. `RedBlack s t` says
in the terms of the memory that the nodes reachable from `root` are the red-black tree `t`.

`run_redBlack` and `run_refines` are about every run: the tree stays a red-black tree, and the
values in order are those of the sorted list that `specRun` keeps; `find` and `size` give what
they give on this list. Each follows from what one call does to both (`Holding.exec`).
-/

namespace Wish.RBTree

open Prog Heap

variable {T : Type}

/-! ## Fuel -/

theorem upto_insertFixup {n m : Nat} (h : n ≤ m) (p : Ptr) :
    Upto .stuck (insertFixup n p : RBProg T PUnit) (insertFixup m p) :=
  .bind (.loop _ h _) fun _ => .refl _

theorem upto_eraseFixup {n m : Nat} (h : n ≤ m) (p q : Ptr) :
    Upto .stuck (eraseFixup n p q : RBProg T PUnit) (eraseFixup m p q) :=
  .bind (.loop _ h _) fun _ => .refl _

theorem upto_insertNode [LinearOrder T] {n m : Nat} (h : n ≤ m) (p : Ptr) :
    Upto .stuck (insertNode n p : RBProg T PUnit) (insertNode m p) := by
  refine .next fun root => .bind (.loop _ h _) fun y => ?_
  exact .next fun _ => .next fun _ => .next fun _ => upto_insertFixup h p

theorem upto_insert [LinearOrder T] [Inhabited T] {n m : Nat} (h : n ≤ m) (a : Addr) (t : T) :
    Upto .stuck (insert n a t) (insert m a t) :=
  .next fun node => .next fun _ => upto_insertNode h node

theorem upto_eraseLeaf {n m : Nat} (h : n ≤ m) (p : Ptr) :
    Upto .stuck (eraseLeaf n p : RBProg T PUnit) (eraseLeaf m p) := by
  refine .next fun q => .ite (.refl _) (.next fun _ => .next fun black => .bind ?_ fun _ => .refl _)
  exact .ite (.next fun q => upto_eraseFixup h none q) (.refl _)

theorem upto_eraseOneChild {n m : Nat} (h : n ≤ m) (p : Ptr) :
    Upto .stuck (eraseOneChild n p : RBProg T PUnit) (eraseOneChild m p) := by
  refine .next fun l => .next fun c => .next fun _ => .next fun q => .next fun _ =>
    .next fun black => .bind ?_ fun _ => .refl _
  exact .ite (.next fun q => upto_eraseFixup h c q) (.refl _)

theorem upto_eraseTwoChildren {n m : Nat} (h : n ≤ m) (p : Ptr) :
    Upto .stuck (eraseTwoChildren n p : RBProg T PUnit) (eraseTwoChildren m p) := by
  refine .next fun r => .bind (.loop _ h _) fun replace => .next fun c => .next fun q =>
    .next fun removed => .next fun q => .next fun _ => .bind ?_ fun _ => .refl _
  exact .ite (upto_eraseFixup h c q) (.refl _)

theorem upto_eraseNode {n m : Nat} (h : n ≤ m) (p : Ptr) :
    Upto .stuck (eraseNode n p : RBProg T PUnit) (eraseNode m p) := by
  refine .next fun l => .next fun r => .ite (upto_eraseLeaf h p) ?_
  exact .next fun l => .next fun r => .ite (upto_eraseOneChild h p) (upto_eraseTwoChildren h p)

theorem upto_erase [LinearOrder T] {n m : Nat} (h : n ≤ m) (t : T) :
    Upto .stuck (erase n t) (erase m t) :=
  .next fun root => .bind (upto_find h root t) fun p => .ite (upto_eraseNode h p) (.refl _)

/-! ## Values -/

theorem Tree.values_plug (t : Tree T) (K : Ctx T) :
    (plug t K).values = (before K).map Prod.snd ++ t.values ++ (after K).map Prod.snd := by
  simp [Tree.values, toList_plug]

section values

variable [LinearOrder T]

/-- What the descent for `v` leaves on its left is not greater than `v`. -/
theorem Path.before_le {v : T} {K : Ctx T} (hpath : Path v K)
    (hs : ((before K).map Prod.snd).Pairwise (· ≤ ·)) : ∀ u ∈ (before K).map Prod.snd, u ≤ v := by
  induction K with
  | nil => simp [before]
  | cons f K ih =>
    have hpathK : Path v K := fun g hg => hpath g (List.mem_cons_of_mem f hg)
    have hdir := hpath f List.mem_cons_self
    obtain ⟨d, a, c, w, sib⟩ := f
    cases d with
    | left => exact ih hpathK hs
    | right =>
      have hw : w ≤ v := by
        by_contra hlt
        cases hdir.mpr (not_le.mp hlt)
      simp only [before, List.map_append, List.map_cons, List.map_nil, List.pairwise_append,
        List.mem_append, List.mem_singleton] at hs ⊢
      rintro u (hu | rfl)
      · exact le_trans (hs.2.2 u hu w rfl) hw
      · exact hw

/-- What the descent for `v` leaves on its right is greater than `v`. -/
theorem Path.lt_after {v : T} {K : Ctx T} (hpath : Path v K)
    (hs : ((after K).map Prod.snd).Pairwise (· ≤ ·)) : ∀ u ∈ (after K).map Prod.snd, v < u := by
  induction K with
  | nil => simp [after]
  | cons f K ih =>
    have hpathK : Path v K := fun g hg => hpath g (List.mem_cons_of_mem f hg)
    have hdir := hpath f List.mem_cons_self
    obtain ⟨d, a, c, w, sib⟩ := f
    cases d with
    | left =>
      have hw : v < w := hdir.mp rfl
      simp only [after, List.cons_append, List.map_cons, List.pairwise_cons] at hs ⊢
      intro u hu
      rcases List.mem_cons.mp hu with rfl | hu
      · exact hw
      · exact lt_of_lt_of_le hw (hs.1 u hu)
    | right => exact ih hpathK hs

/-- The descent for `v` ends between what is not greater and what is greater. -/
theorem Path.between {v : T} {K : Ctx T} (hpath : Path v K)
    (hs : (plug .nil K).values.Pairwise (· ≤ ·)) :
    (plug .nil K).values = (before K).map Prod.snd ++ (after K).map Prod.snd ∧
      (∀ u ∈ (before K).map Prod.snd, u ≤ v) ∧ ∀ u ∈ (after K).map Prod.snd, v < u := by
  have hvalues : (plug .nil K).values = (before K).map Prod.snd ++ (after K).map Prod.snd := by
    rw [Tree.values_plug]
    simp [Tree.values, Tree.toList]
  rw [hvalues] at hs
  obtain ⟨hsb, hsa, -⟩ := List.pairwise_append.mp hs
  exact ⟨hvalues, hpath.before_le hsb, hpath.lt_after hsa⟩

/-- Between what is not greater and what is greater is where `orderedInsert` puts a value. -/
theorem orderedInsert_append {v : T} {L M : List T} (hL : ∀ u ∈ L, u ≤ v) (hM : ∀ u ∈ M, v < u) :
    (L ++ M).orderedInsert (· < ·) v = L ++ v :: M := by
  induction L with
  | nil =>
    cases M with
    | nil => rfl
    | cons w M => exact List.orderedInsert_cons_of_le _ M (hM w List.mem_cons_self)
  | cons w L ih =>
    have hw : ¬ v < w := not_lt.mpr (hL w List.mem_cons_self)
    rw [List.cons_append, List.orderedInsert_of_not_le _ _ hw,
      ih fun u hu => hL u (List.mem_cons_of_mem w hu), List.cons_append]

theorem pairwise_between {v : T} {L M : List T} (hs : (L ++ M).Pairwise (· ≤ ·))
    (hL : ∀ u ∈ L, u ≤ v) (hM : ∀ u ∈ M, v < u) : (L ++ v :: M).Pairwise (· ≤ ·) := by
  obtain ⟨hsl, hsm, hlm⟩ := List.pairwise_append.mp hs
  refine List.pairwise_append.mpr ⟨hsl, ?_, fun x hx y hy => ?_⟩
  · exact List.pairwise_cons.mpr ⟨fun u hu => le_of_lt (hM u hu), hsm⟩
  · rcases List.mem_cons.mp hy with rfl | hy
    · exact hL x hx
    · exact hlm x hx y hy

/-- A new node where the descent for its value ends. -/
theorem Path.values_insert {a : Addr} {v : T} {K : Ctx T} {t : Tree T} (hpath : Path v K)
    (hs : (plug .nil K).values.Pairwise (· ≤ ·))
    (hL : t.toList = before K ++ (a, v) :: after K) :
    t.values = (plug .nil K).values.orderedInsert (· < ·) v ∧ t.values.Pairwise (· ≤ ·) := by
  obtain ⟨hvalues, hle, hlt⟩ := hpath.between hs
  rw [hvalues] at hs
  rw [hvalues, orderedInsert_append hle hlt, Tree.values, hL, List.map_append, List.map_cons]
  exact ⟨rfl, pairwise_between hs hle hlt⟩

/-- In a sorted list it does not matter which of the equal values is taken out. -/
theorem erase_append_cons {v : T} {L M : List T} (hs : (L ++ v :: M).Pairwise (· ≤ ·)) :
    (L ++ v :: M).erase v = L ++ M := by
  have hperm : ((L ++ v :: M).erase v).Perm (L ++ M) := by
    have hmid : (L ++ v :: M).Perm (v :: (L ++ M)) := List.perm_middle
    have herase := hmid.erase v
    rwa [List.erase_cons_head] at herase
  refine hperm.eq_of_pairwise' (hs.sublist List.erase_sublist) (hs.sublist ?_)
  exact (List.sublist_cons_self v M).append_left L

end values

/-! ## Red-black trees in a memory -/

/-- Below `p`, whose parent is `par`, the links are those of the tree. -/
def Linked (h : Addr → Option (Node T)) : Ptr → Ptr → Tree T → Prop
  | _, p, .nil => p = none
  | par, p, .node a c v l r => p = some a ∧ ∃ pl pr, h a = some ⟨par, pl, pr, c, v⟩ ∧
      Linked h (some a) pl l ∧ Linked h (some a) pr r

/-- No red node has a red child. -/
def Tree.RedApart : Tree T → Prop
  | .nil => True
  | .node _ c _ l r =>
    (c = .Red → l.color = .Black ∧ r.color = .Black) ∧ l.RedApart ∧ r.RedApart

/-- The numbers of black nodes on the ways from the root to the null links. -/
def Tree.blackCounts : Tree T → List Nat
  | .nil => [0]
  | .node _ c _ l r =>
    (l.blackCounts ++ r.blackCounts).map fun k => if c = .Black then k + 1 else k

/-- What is reachable from `root` is the red-black tree `t`. -/
structure RedBlack [LinearOrder T] (s : Mem Ptr (Node T)) (t : Tree T) : Prop where
  /-- the children and the parents, `root`'s parent being null -/
  linked : Linked s.heap none s.globals t
  /-- no node is shared -/
  nodup : (t.toList.map Prod.fst).Nodup
  sorted : t.values.Pairwise (· ≤ ·)
  root : t.color = .Black
  red : t.RedApart
  black : ∃ n, ∀ k ∈ t.blackCounts, k = n

variable {s : Mem Ptr (Node T)} {R : Cells T} {t : Tree T}

theorem linked_of_holds {par : Ptr} (h : ∀ a n, (a, n) ∈ cells par t → s.heap a = some n) :
    Linked s.heap par t.ptr t := by
  induction t generalizing par with
  | nil => rfl
  | node a c v l r ihl ihr =>
    refine ⟨rfl, l.ptr, r.ptr, h _ _ (by simp [cells]), ihl fun b n hb => ?_, ihr fun b n hb => ?_⟩
    · exact h b n (by simp [cells, hb])
    · exact h b n (by simp [cells, hb])

theorem map_fst_cells (par : Ptr) (t : Tree T) :
    (cells par t).map Prod.fst = (t.toList.map Prod.fst : List Addr) := by
  induction t generalizing par with
  | nil => rfl
  | node a c v l r ihl ihr =>
    simp only [cells, Tree.toList, Multiset.map_add, Multiset.map_singleton, ihl, ihr,
      List.map_append, List.map_cons, ← Multiset.coe_add, ← Multiset.cons_coe,
      ← Multiset.singleton_add]
    abel

theorem Rep.linked (h : Rep s t R) : Linked s.heap none s.globals t := by
  rw [h.root]
  exact linked_of_holds fun a n hn => h.holds.get (Multiset.mem_add.mpr (.inl hn))

theorem Rep.nodup (h : Rep s t R) : (t.toList.map Prod.fst).Nodup := by
  have hnodup := h.holds.nodup
  rw [Multiset.map_add, map_fst_cells] at hnodup
  exact Multiset.coe_nodup.mp (Multiset.nodup_of_le (Multiset.le_add_right _ _) hnodup)

theorem Balanced.redApart {n : Nat} (h : Balanced t n) : t.RedApart := by
  induction h with
  | nil => trivial
  | red hl hr cl cr ihl ihr => exact ⟨fun _ => ⟨cl, cr⟩, ihl, ihr⟩
  | black hl hr ihl ihr => exact ⟨(nomatch ·), ihl, ihr⟩

theorem Balanced.blackCounts {n : Nat} (h : Balanced t n) : ∀ k ∈ t.blackCounts, k = n := by
  induction h with
  | nil => simp [Tree.blackCounts]
  | red hl hr cl cr ihl ihr =>
    simp only [Tree.blackCounts, reduceCtorEq, if_false, List.map_id', List.mem_append]
    rintro k (hk | hk)
    · exact ihl k hk
    · exact ihr k hk
  | black hl hr ihl ihr =>
    simp only [Tree.blackCounts, if_true, List.mem_map, List.mem_append]
    rintro k ⟨k', hk' | hk', rfl⟩
    · rw [ihl k' hk']
    · rw [ihr k' hk']

/-- The memory is that of the red-black tree `t` and of the objects `R` outside of it. -/
structure Holding [LinearOrder T] (s : Mem Ptr (Node T)) (t : Tree T) (R : Cells T) : Prop where
  rep : Rep s t R
  balanced : ∃ m, Balanced t m
  root : t.color = .Black
  sorted : t.values.Pairwise (· ≤ ·)

/-- The memory is that of a red-black tree with these values, and nothing else. -/
def Inv [LinearOrder T] (s : Mem Ptr (Node T)) (L : List T) : Prop :=
  ∃ t m, Rep s t 0 ∧ Balanced t m ∧ t.color = .Black ∧ t.values = L ∧ L.Pairwise (· ≤ ·)

theorem Inv.holding [LinearOrder T] {L : List T} (h : Inv s L) :
    ∃ t, Holding s t 0 ∧ t.values = L := by
  obtain ⟨t, m, hrep, hm, hc, rfl, hs⟩ := h
  exact ⟨t, ⟨hrep, ⟨m, hm⟩, hc, hs⟩, rfl⟩

theorem Holding.inv [LinearOrder T] (h : Holding s t 0) : Inv s t.values := by
  obtain ⟨m, hm⟩ := h.balanced
  exact ⟨t, m, h.rep, hm, h.root, rfl, h.sorted⟩

theorem Holding.redBlack [LinearOrder T] (h : Holding s t R) : RedBlack s t := by
  obtain ⟨m, hm⟩ := h.balanced
  exact ⟨h.rep.linked, h.rep.nodup, h.sorted, h.root, hm.redApart, m, hm.blackCounts⟩

theorem Inv.redBlack [LinearOrder T] {L : List T} (h : Inv s L) :
    ∃ t, Rep s t 0 ∧ RedBlack s t ∧ t.values = L := by
  obtain ⟨t, ht, rfl⟩ := h.holding
  exact ⟨t, ht.rep, ht.redBlack, rfl⟩

/-! ## Queries -/

section calls

variable [LinearOrder T]

/-- `size(root)` returns the number of the values, when that is an `int`. -/
theorem size_converges {L : List T} (h : Inv s L) (n : Nat) (s' : Mem Ptr (Node T)) :
    Converges (fun k => size k s.globals) s n s' ↔ L.length ≤ intMax ∧ n = L.length ∧ s' = s := by
  obtain ⟨t, m, hrep, -, -, rfl, -⟩ := h
  have hlen : t.values.length = t.toList.length := List.length_map _
  rw [hrep.root, hlen]
  constructor
  · rintro ⟨k, hk⟩
    have hmax := below_size (Nat.le_max_left k t.height) t.ptr s _ hk
    have hsize := (returns_size (Q := fun a b => n = a ∧ s' = b) hrep
      (Nat.le_max_right k t.height)).mp ⟨n, s', hmax, rfl, rfl⟩
    exact hsize
  · rintro ⟨hle, rfl, rfl⟩
    obtain ⟨n, s₁, hn, rfl, rfl⟩ := (returns_size (Q := fun a b => a = t.toList.length ∧ b = s')
      hrep (le_refl t.height)).mpr ⟨hle, rfl, rfl⟩
    exact ⟨t.height, hn⟩

/-- `find(root, u)` returns a node of the tree with the value `u`, or null if there is none. -/
theorem find_converges (h : RedBlack s t) (hrep : Rep s t 0) (u : T) :
    ∃ p, (∀ q s', Converges (fun k => find k s.globals u) s q s' ↔ q = p ∧ s' = s) ∧
      (u ∈ t.values → ∃ a, p = some a ∧ (a, u) ∈ t.toList) ∧ (u ∉ t.values → p = none) := by
  have hfind := Returns.converges (fun n m hnm => (upto_find hnm s.globals u).below) (k := t.height)
    fun fuel hfuel => by
      rw [hrep.root]
      exact returns_find (K := []) (u := u) hrep h.sorted hfuel
  obtain ⟨p, s', ⟨rfl, hfound⟩, hiff⟩ := hfind
  refine ⟨p, hiff, ?_⟩
  cases p with
  | none => exact ⟨fun hu => absurd hu hfound, fun _ => rfl⟩
  | some a =>
    obtain ⟨hu, c, l, r, K, ht⟩ := hfound
    obtain rfl : t = plug (.node a c u l r) K := ht
    exact ⟨fun _ => ⟨a, rfl, by simp [toList_plug, Tree.toList]⟩, fun hn => absurd hu hn⟩

/-! ## Calls -/

/-- `erase(root, t)` takes out one node with the value `t`. -/
theorem returns_erase {m fuel : Nat} {u : T} (h : Rep s t R) (hm : Balanced t m)
    (hc : t.color = .Black) (hs : t.values.Pairwise (· ≤ ·)) (hfuel : 4 * t.height + 3 < fuel) :
    Returns (erase fuel u) s fun _ s' => ∃ t' m', Rep s' t' R ∧ Balanced t' m' ∧
      t'.color = .Black ∧ t'.values = t.values.erase u := by
  simp only [erase, returns_bind, returns_getRoot, h.root]
  refine (returns_find (K := []) h hs (by omega)).mono ?_
  rintro p s' ⟨rfl, hfound⟩
  cases p with
  | none =>
    exact returns_pure.mpr ⟨t, m, h, hm, hc, (List.erase_of_not_mem hfound).symm⟩
  | some a =>
    obtain ⟨-, c, l, r, K, ht⟩ := hfound
    obtain rfl : t = plug (.node a c u l r) K := ht
    refine (returns_eraseNode h hm hc hfuel).mono fun _ s' hres => ?_
    obtain ⟨t', m', h', hm', hc', hL⟩ := hres
    refine ⟨t', m', h', hm', hc', ?_⟩
    rw [Tree.values_plug, Tree.values_node] at hs ⊢
    have herase := erase_append_cons (v := u) (L := (before K).map Prod.snd ++ l.values)
      (M := r.values ++ (after K).map Prod.snd) (by simpa using hs)
    simp only [List.append_assoc, List.cons_append] at herase ⊢
    rw [herase]
    simp [Tree.values, hL]

inductive Op (T : Type) where
  | insert (t : T)
  | erase (t : T)

/-- The call on a sorted list. -/
def Op.spec (L : List T) : Op T → List T
  | .insert t => L.orderedInsert (· < ·) t
  | .erase t => L.erase t

def specRun (ops : List (Op T)) : List T := ops.foldl Op.spec []

theorem length_specRun_replicate (t : T) (n : Nat) :
    (specRun (List.replicate n (.insert t))).length = n := by
  induction n with
  | zero => rfl
  | succ n ih =>
    rw [specRun] at ih ⊢
    rw [List.replicate_succ', List.foldl_append]
    simp [Op.spec, List.orderedInsert_length, ih]

variable [Inhabited T]

/-- The call; `a` is the address that `new` gives. -/
def Op.exec (op : Op T) (a : Addr) (fuel : Nat) : RBProg T PUnit :=
  match op with
  | .insert t => RBTree.insert fuel a t
  | .erase t => RBTree.erase fuel t

/-- The call leads from `s` to `s'`. -/
def Call (s : Mem Ptr (Node T)) (op : Op T) (s' : Mem Ptr (Node T)) : Prop :=
  ∃ a, s.heap a = none ∧ Converges (op.exec a) s ⟨⟩ s'

/-- The calls lead from the empty tree to `s`. -/
inductive Run : List (Op T) → Mem Ptr (Node T) → Prop
  | nil : Run [] ⟨none, fun _ => none⟩
  | snoc {ops : List (Op T)} {op : Op T} {s s' : Mem Ptr (Node T)} (hr : Run ops s)
      (hc : Call s op s') : Run (ops ++ [op]) s'

theorem upto_exec (op : Op T) (a : Addr) {n m : Nat} (h : n ≤ m) :
    Upto .stuck (op.exec a n) (op.exec a m) := by
  cases op with
  | insert t => exact upto_insert h a t
  | erase t => exact upto_erase h t

/-- One call, as far as the tree and its values go. -/
theorem Holding.exec (h : Holding s t R) (op : Op T) {a : Addr} (ha : s.heap a = none)
    {fuel : Nat} (hfuel : 4 * t.height + 4 ≤ fuel) :
    Returns (op.exec a fuel) s fun _ s' =>
      ∃ t', Holding s' t' R ∧ t'.values = op.spec t.values := by
  obtain ⟨m, hm⟩ := h.balanced
  cases op with
  | insert v =>
    refine (returns_insert h.rep hm h.root ha (by omega)).mono ?_
    rintro _ s' ⟨t', m', K, hrep', hm', hc', rfl, hpath, hL⟩
    obtain ⟨hvalues, hsorted⟩ := hpath.values_insert h.sorted hL
    exact ⟨t', ⟨hrep', ⟨m', hm'⟩, hc', hsorted⟩, hvalues⟩
  | erase v =>
    refine (returns_erase h.rep hm h.root h.sorted (by omega)).mono ?_
    rintro _ s' ⟨t', m', hrep', hm', hc', hL⟩
    refine ⟨t', ⟨hrep', ⟨m', hm'⟩, hc', ?_⟩, hL⟩
    rw [hL]
    exact h.sorted.sublist List.erase_sublist

/-- One call keeps the invariant. -/
theorem returns_exec {L : List T} (op : Op T) {a : Addr} (h : Inv s L) (ha : s.heap a = none) :
    ∃ k, ∀ fuel, k ≤ fuel → Returns (op.exec a fuel) s fun _ s' => Inv s' (op.spec L) := by
  obtain ⟨t, ht, rfl⟩ := h.holding
  refine ⟨4 * t.height + 4, fun fuel hfuel => (ht.exec op ha hfuel).mono ?_⟩
  rintro _ s' ⟨t', ht', hL⟩
  exact hL ▸ ht'.inv

theorem exec_converges {L : List T} (op : Op T) {a : Addr} (h : Inv s L) (ha : s.heap a = none) :
    (∃ s', Converges (op.exec a) s ⟨⟩ s') ∧
      ∀ s', Converges (op.exec a) s ⟨⟩ s' → Inv s' (op.spec L) := by
  obtain ⟨k, hk⟩ := returns_exec op h ha
  obtain ⟨_, s', hinv, hiff⟩ := Returns.converges (fun n m h => (upto_exec op a h).below) hk
  refine ⟨⟨s', (hiff _ _).mpr ⟨rfl, rfl⟩⟩, fun s'' hs'' => ?_⟩
  obtain ⟨-, rfl⟩ := (hiff _ _).mp hs''
  exact hinv

/-- The invariant holds after every sequence of calls. -/
theorem run_inv {ops : List (Op T)} (h : Run ops s) : Inv s (specRun ops) := by
  induction h with
  | nil => exact ⟨.nil, 0, ⟨rfl, holds_empty⟩, .nil, rfl, rfl, .nil⟩
  | snoc hr hc ih =>
    obtain ⟨a, ha, hconv⟩ := hc
    rw [specRun, List.foldl_append]
    exact (exec_converges _ ih ha).2 _ hconv

theorem exists_run (ops : List (Op T)) : ∃ s, Run ops s := by
  induction ops using List.reverseRecOn with
  | nil => exact ⟨_, .nil⟩
  | append_singleton ops op ih =>
    obtain ⟨s, hs⟩ := ih
    obtain ⟨t, m, hrep, -⟩ := run_inv hs
    obtain ⟨a, ha⟩ := hrep.holds.exists_free
    obtain ⟨s', hs'⟩ := (exec_converges op (run_inv hs) ha).1
    exact ⟨s', .snoc hs ⟨a, ha, hs'⟩⟩

/-- **Every sequence of calls** keeps a red-black tree, and the next call returns. -/
theorem run_redBlack (ops : List (Op T)) : (∃ s, Run ops s) ∧ ∀ s, Run ops s →
    (∃ t, RedBlack s t) ∧
      ∀ (op : Op T) a, s.heap a = none → ∃ s', Converges (op.exec a) s ⟨⟩ s' := by
  refine ⟨exists_run ops, fun s hs => ⟨?_, fun op a ha => (exec_converges op (run_inv hs) ha).1⟩⟩
  obtain ⟨t, -, ht, -⟩ := (run_inv hs).redBlack
  exact ⟨t, ht⟩

/-- **Every sequence of calls** has the values of the sorted list, and `size` and `find` on the
tree are those of the list. -/
theorem run_refines (ops : List (Op T)) : (∃ s, Run ops s) ∧ ∀ s, Run ops s →
    ∃ t, RedBlack s t ∧ t.values = specRun ops ∧
      (∀ n s', Converges (fun k => size k s.globals) s n s' ↔
        (specRun ops).length ≤ intMax ∧ n = (specRun ops).length ∧ s' = s) ∧
      ∀ u, ∃ p, (∀ q s', Converges (fun k => find k s.globals u) s q s' ↔ q = p ∧ s' = s) ∧
        (u ∈ specRun ops → ∃ a, p = some a ∧ (a, u) ∈ t.toList) ∧ (u ∉ specRun ops → p = none) := by
  refine ⟨exists_run ops, fun s hs => ?_⟩
  obtain ⟨t, hrep, ht, hL⟩ := (run_inv hs).redBlack
  refine ⟨t, ht, hL, size_converges (run_inv hs), ?_⟩
  rw [← hL]
  exact find_converges ht hrep

/-- `2 ^ 31` equal values are too many for `size`. -/
theorem not_run_refines : ∃ s, Run (List.replicate (2 ^ 31) (.insert 0) : List (Op Nat)) s ∧
    (specRun (List.replicate (2 ^ 31) (.insert 0) : List (Op Nat))).length = 2 ^ 31 ∧
      ∀ n s', ¬ Converges (fun k => size k s.globals) s n s' := by
  obtain ⟨s, hs⟩ := exists_run (List.replicate (2 ^ 31) (.insert 0) : List (Op Nat))
  refine ⟨s, hs, length_specRun_replicate 0 _, fun n s' hn => ?_⟩
  obtain ⟨hle, -⟩ := (size_converges (run_inv hs) n s').mp hn
  rw [length_specRun_replicate, intMax] at hle
  omega

end calls

end Wish.RBTree
