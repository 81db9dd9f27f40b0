import Wish.Practice.Tree.Erase

/-!
# `insert`, `find`, `size` and the traversals

Each is about a subtree and says what it does to the nodes or to the values of it. A tree with
more than `INT_MAX` nodes is too much for `size` (`returns_size`).
-/

namespace Wish.SearchTree

open Prog Heap
open Wish.RBTree (Dir intMax)

variable {T : Type} {s : Mem Unit (Node T)} {R M : Cells T} {t : Shape T} {a c : Addr}
  {p q : Ptr} {u v : T}

/-! ## Fuel -/

section below

variable {n m : Nat}

theorem below_foreachMiddle {β : Type} (cb : β → Ptr → TreeProg T β) (h : n ≤ m) (acc : β)
    (p : Ptr) : Below (foreachMiddle cb n acc p) (foreachMiddle cb m acc p) := by
  induction n generalizing m acc p with
  | zero =>
    cases p with
    | none =>
      cases m with
      | zero => exact .refl _
      | succ m => exact .refl _
    | some a => exact .throw _ _
  | succ n ih =>
    obtain ⟨m, rfl⟩ : ∃ k, m = k + 1 := ⟨m - 1, by omega⟩
    cases p with
    | none => exact .refl _
    | some a =>
      exact .next fun b => .ite (.refl _) (.next fun p => .bind (ih (by omega) acc p) fun acc =>
        .next fun acc => .next fun p => ih (by omega) acc p)

theorem below_foreachBack {β : Type} (cb : β → Ptr → TreeProg T β) (h : n ≤ m) (acc : β)
    (p : Ptr) : Below (foreachBack cb n acc p) (foreachBack cb m acc p) := by
  induction n generalizing m acc p with
  | zero =>
    cases p with
    | none =>
      cases m with
      | zero => exact .refl _
      | succ m => exact .refl _
    | some a => exact .throw _ _
  | succ n ih =>
    obtain ⟨m, rfl⟩ : ∃ k, m = k + 1 := ⟨m - 1, by omega⟩
    cases p with
    | none => exact .refl _
    | some a =>
      exact .next fun b => .ite (.refl _) (.next fun p => .bind (ih (by omega) acc p) fun acc =>
        .next fun p => .bind (ih (by omega) acc p) fun acc => .refl _)

theorem below_find [LinearOrder T] (h : n ≤ m) (p : Ptr) (u : T) :
    Below (find n p u) (find m p u) := by
  induction n generalizing m p with
  | zero =>
    cases p with
    | none =>
      cases m with
      | zero => exact .refl _
      | succ m => exact .refl _
    | some a => exact .throw _ _
  | succ n ih =>
    obtain ⟨m, rfl⟩ : ∃ k, m = k + 1 := ⟨m - 1, by omega⟩
    cases p with
    | none => exact .refl _
    | some a =>
      exact .next fun b => .ite (.refl _) (.next fun v => .ite (.refl _) (.next fun v => .ite
        (.next fun p => ih (by omega) p) (.next fun p => ih (by omega) p)))

theorem below_insert [LinearOrder T] [Inhabited T] (h : n ≤ m) (a : Addr) (p : Ptr) (u : T) :
    Below (insert a n p u) (insert a m p u) := by
  induction n generalizing m p with
  | zero => exact .throw _ _
  | succ n ih =>
    obtain ⟨m, rfl⟩ : ∃ k, m = k + 1 := ⟨m - 1, by omega⟩
    have hside : ∀ (b : Ptr) (x : TreeProg T PUnit) (y : TreeProg T Ptr),
        Below (if b = none then x else do insert a n (← y) u)
          (if b = none then x else do insert a m (← y) u) :=
      fun b x y => .ite (.refl _) (.next fun p => ih (by omega) p)
    exact .next fun b => .ite (.refl _) (.next fun v => .ite (.refl _) (.next fun v => .ite
      (.next fun l => hside l _ _) (.next fun r => hside r _ _)))

theorem below_eraseNode (h : n ≤ m) (p : Ptr) :
    Below (eraseNode n p : TreeProg T PUnit) (eraseNode m p) := by
  refine .next fun l => .next fun r => .ite (.refl _) (.next fun l => .next fun r => .ite (.refl _) ?_)
  exact .next fun l => .bind (.loop _ _ h _) fun last => .refl _

theorem below_erase [LinearOrder T] (h : n ≤ m) (p : Ptr) (u : T) :
    Below (erase n p u) (erase m p u) := by
  induction n generalizing m p with
  | zero =>
    cases p with
    | none =>
      cases m with
      | zero => exact .refl _
      | succ m => exact .refl _
    | some a => exact .throw _ _
  | succ n ih =>
    obtain ⟨m, rfl⟩ : ∃ k, m = k + 1 := ⟨m - 1, by omega⟩
    cases p with
    | none => exact .refl _
    | some a =>
      exact .next fun b => .ite (.refl _) (.next fun v => .ite (below_eraseNode h _)
        (.next fun v => .ite (.next fun p => ih (by omega) p) (.next fun p => ih (by omega) p)))

end below

/-! ## Traversals -/

/-- The callback sees the values in order. -/
theorem returns_foreachMiddle {fuel : Nat} {L : List T} {Q : List T → Mem Unit (Node T) → Prop}
    (hh : Holds s.heap (cells p t + R)) (hfuel : t.height ≤ fuel) (hQ : Q (L ++ t.values) s) :
    Returns (foreachMiddle (fun acc p => do return acc ++ [← value p]) fuel L t.ptr) s Q := by
  induction t generalizing fuel L p Q R with
  | nil =>
    cases fuel with
    | zero => simpa [foreachMiddle, Shape.values] using hQ
    | succ fuel => simpa [foreachMiddle, Shape.values] using hQ
  | node a v l r ihl ihr =>
    simp only [Shape.height] at hfuel
    obtain ⟨fuel, rfl⟩ := Nat.exists_eq_add_one_of_ne_zero (Nat.ne_zero_of_lt hfuel)
    have ha := holds_root hh
    have hl := holds_left hh
    have hr := holds_right hh
    rw [Shape.ptr_node, foreachMiddle, returns_bind, returns_isValid ha, if_neg (by simp),
      returns_bind, returns_left ha, returns_bind]
    apply ihl hl (by omega)
    simp only [returns_bind, returns_value ha, returns_pure, returns_right ha]
    apply ihr hr (by omega)
    simpa [Shape.values] using hQ

theorem returns_countNode {cnt : Nat} {Q : Nat → Mem Unit (Node T) → Prop} :
    Returns (countNode cnt p) s Q ↔ cnt ≠ intMax ∧ Q (cnt + 1) s := by
  by_cases h : cnt = intMax
  · simp [countNode, h]
  · simp [countNode, h]

/-- The counter goes up by the number of the nodes, as long as it has room. -/
theorem returns_count {fuel cnt : Nat} {Q : Nat → Mem Unit (Node T) → Prop}
    (hh : Holds s.heap (cells p t + R)) (hfuel : t.height ≤ fuel) (hcnt : cnt ≤ intMax) :
    Returns (foreachBack countNode fuel cnt t.ptr) s Q ↔
      cnt + t.values.length ≤ intMax ∧ Q (cnt + t.values.length) s := by
  induction t generalizing fuel cnt p Q R with
  | nil =>
    have hpure : foreachBack countNode fuel cnt none = (pure cnt : TreeProg T Nat) := by
      cases fuel <;> rfl
    simp [hpure, Shape.values, hcnt]
  | node a v l r ihl ihr =>
    simp only [Shape.height] at hfuel
    obtain ⟨fuel, rfl⟩ := Nat.exists_eq_add_one_of_ne_zero (Nat.ne_zero_of_lt hfuel)
    have ha := holds_root hh
    have hl := holds_left hh
    have hr := holds_right hh
    have hlen : cnt + (Shape.node a v l r).values.length =
        cnt + l.values.length + r.values.length + 1 := by
      simp only [Shape.values, List.length_append, List.length_cons]
      omega
    rw [Shape.ptr_node, foreachBack, returns_bind, returns_isValid ha, if_neg (by simp),
      returns_bind, returns_left ha, returns_bind, ihl hl (by omega) hcnt, returns_bind,
      returns_right ha, returns_bind, hlen]
    constructor
    · rintro ⟨hcl, hret⟩
      obtain ⟨hcr, hcount⟩ := (ihr hr (by omega) hcl).mp hret
      obtain ⟨hne, hq⟩ := returns_countNode.mp hcount
      exact ⟨by omega, hq⟩
    · rintro ⟨hc, hq⟩
      have hcount : Returns (countNode (cnt + l.values.length + r.values.length) (some a)) s Q :=
        returns_countNode.mpr ⟨by omega, hq⟩
      exact ⟨by omega, (ihr hr (by omega) (by omega)).mpr ⟨by omega, hcount⟩⟩

/-! ## `find` -/

/-- What `find(t, u)` has returned: a node of `t` with the value `u`, if there is one. -/
structure Found (s : Mem Unit (Node T)) (u : T) (t : Shape T) (q : Ptr) : Prop where
  hit : u ∈ t.values → ∃ a n, q = some a ∧ a ∈ t.addrs ∧ s.heap a = some n ∧ n.value = u
  miss : u ∉ t.values → q = none

/-- The search for `u` may leave out the side where `u` is not. -/
theorem Found.descend {d : Dir} {near far : Shape T} (h : Found s u near q) (hv : v ≠ u)
    (hfar : u ∉ far.values) : Found s u (.mk d a v near far) q := by
  have hmem : u ∈ (Shape.mk d a v near far).values ↔ u ∈ near.values := by
    cases d with
    | left => simp [Shape.mk, Shape.values, hfar, hv.symm]
    | right => simp [Shape.mk, Shape.values, hfar, hv.symm]
  have haddrs : ∀ b ∈ near.addrs, b ∈ (Shape.mk d a v near far).addrs := by
    intro b hb
    cases d with
    | left => simp [Shape.mk, Shape.addrs, hb]
    | right => simp [Shape.mk, Shape.addrs, hb]
  refine ⟨fun hu => ?_, fun hu => h.miss fun hn => hu (hmem.mpr hn)⟩
  obtain ⟨b, n, hq, hb, hn⟩ := h.hit (hmem.mp hu)
  exact ⟨b, n, hq, haddrs b hb, hn⟩

theorem returns_find [LinearOrder T] {fuel : Nat} (hh : Holds s.heap (cells p t + R))
    (hs : t.values.Pairwise (· < ·)) (hfuel : t.height ≤ fuel) :
    Returns (find fuel t.ptr u) s fun q s' => s' = s ∧ Found s u t q := by
  induction t generalizing fuel p R with
  | nil =>
    have hpure : find fuel none u = (pure none : TreeProg T Ptr) := by cases fuel <;> rfl
    rw [Shape.ptr_nil, hpure, returns_pure]
    exact ⟨rfl, fun hu => absurd hu List.not_mem_nil, fun _ => rfl⟩
  | node a v l r ihl ihr =>
    obtain ⟨hsl, hsr, hlv, hrv⟩ := sorted_node hs
    simp only [Shape.height] at hfuel
    obtain ⟨fuel, rfl⟩ := Nat.exists_eq_add_one_of_ne_zero (Nat.ne_zero_of_lt hfuel)
    have ha := holds_root hh
    have hl := holds_left hh
    have hr := holds_right hh
    rw [Shape.ptr_node, find, returns_bind, returns_isValid ha, if_neg (by simp), returns_bind,
      returns_value ha]
    refine Returns.ite (fun hv => ?_) fun hne => ?_
    · obtain rfl : v = u := hv
      refine returns_pure.mpr ⟨rfl, fun _ => ⟨a, _, rfl, by simp [Shape.addrs], ha, rfl⟩, ?_⟩
      exact fun hn => absurd (by simp [Shape.values]) hn
    rw [returns_bind, returns_value ha]
    refine Returns.ite (fun hgt => ?_) fun hle => ?_
    · rw [returns_bind, returns_left ha]
      refine (ihl hl hsl (by omega)).mono fun q s' hres => ?_
      obtain ⟨hs', hfound⟩ := hres
      refine ⟨hs', ?_⟩
      exact hfound.descend (d := .left) hne fun hu => lt_asymm hgt (hrv u hu)
    · rw [returns_bind, returns_right ha]
      refine (ihr hr hsr (by omega)).mono fun q s' hres => ?_
      obtain ⟨hs', hfound⟩ := hres
      refine ⟨hs', ?_⟩
      exact hfound.descend (d := .right) hne fun hu => hle (hlv u hu)

/-! ## `insert` -/

theorem returns_insertChild [Inhabited T] {d : Dir} (hh : Holds s.heap M)
    (hM : M = {(a, mkNode d p none q v)} + R) (hc : s.heap c = none) :
    Returns (insertChild d (some a) c u) s fun _ s' => Holds s'.heap
      ({(a, mkNode d p (some c) q v)} + {(c, ⟨none, none, some a, u, true⟩)} + R) := by
  subst hM
  simp only [insertChild, newTree, returns_bind]
  refine returns_new hh hc fun h₁ hh₁ => ?_
  refine returns_setValue hh₁ rfl fun h₂ hh₂ => ?_
  refine returns_setParent hh₂ rfl fun h₃ hh₃ => ?_
  refine returns_setChild (n := mkNode d p none q v)
    (R := {(c, ⟨none, none, some a, u, true⟩)} + R) hh₃ (by abel) fun h₄ hh₄ => ?_
  rw [mkNode_setChild] at hh₄
  refine cast (congrArg _ ?_) hh₄
  abel

/-- The values of a tree with the value `u`, beside those of `t`. -/
def Inserted [LinearOrder T] (u : T) (t t' : Shape T) : Prop :=
  t'.values.Pairwise (· < ·) ∧ ∀ w, w ∈ t'.values ↔ w = u ∨ w ∈ t.values

theorem pairwise_node [LinearOrder T] {l r : Shape T} (hl : l.values.Pairwise (· < ·))
    (hr : r.values.Pairwise (· < ·)) (hlv : ∀ w ∈ l.values, w < v) (hrv : ∀ w ∈ r.values, v < w) :
    (Shape.node a v l r).values.Pairwise (· < ·) := by
  rw [Shape.values, List.pairwise_append, List.pairwise_cons]
  refine ⟨hl, ⟨hrv, hr⟩, fun w hw x hx => ?_⟩
  rcases List.mem_cons.mp hx with rfl | hx
  · exact hlv w hw
  · exact (hlv w hw).trans (hrv x hx)

section insert

variable [LinearOrder T] {l r t' : Shape T}

theorem Inserted.left (h : Inserted u l t') (hs : (Shape.node a v l r).values.Pairwise (· < ·))
    (hu : u < v) : Inserted u (.node a v l r) (.node a v t' r) := by
  obtain ⟨-, hsr, hlv, hrv⟩ := sorted_node hs
  refine ⟨pairwise_node h.1 hsr (fun w hw => ?_) hrv, fun w => ?_⟩
  · rcases (h.2 w).mp hw with rfl | hw
    · exact hu
    · exact hlv w hw
  · simp only [Shape.values, List.mem_append, List.mem_cons, h.2 w]
    tauto

theorem Inserted.right (h : Inserted u r t') (hs : (Shape.node a v l r).values.Pairwise (· < ·))
    (hu : v < u) : Inserted u (.node a v l r) (.node a v l t') := by
  obtain ⟨hsl, -, hlv, hrv⟩ := sorted_node hs
  refine ⟨pairwise_node hsl h.1 hlv fun w hw => ?_, fun w => ?_⟩
  · rcases (h.2 w).mp hw with rfl | hw
    · exact hu
    · exact hrv w hw
  · simp only [Shape.values, List.mem_append, List.mem_cons, h.2 w]
    tauto

theorem inserted_nil : Inserted u .nil (.node c u .nil .nil) := by
  refine ⟨by simp [Shape.values], fun w => by simp [Shape.values]⟩

/-- A child takes the value in, or the new node where there is no child. -/
theorem returns_insert_child [Inhabited T] {fuel : Nat} {d : Dir} {near far : Shape T}
    (hh : Holds s.heap (cells p (.mk d a v near far) + R)) (hc : s.heap c = none)
    (hins : ∀ R, Holds s.heap (cells (some a) near + R) → near ≠ .nil →
      Returns (insert c fuel near.ptr u) s fun _ s' => ∃ near', near'.ptr = near.ptr ∧
        Inserted u near near' ∧ Holds s'.heap (cells (some a) near' + R)) :
    Returns (if near.ptr = none then insertChild d (some a) c u else
      do insert c fuel (← child d (some a)) u) s fun _ s' => ∃ near', Inserted u near near' ∧
        Holds s'.heap (cells p (.mk d a v near' far) + R) := by
  have hchild := holds_child hh
  refine Returns.ite (fun hnone => ?_) fun hsome => ?_
  · obtain rfl : near = .nil := Shape.ptr_eq_none.mp hnone
    refine (returns_insertChild (p := p) (q := far.ptr) (v := v) (R := cells (some a) far + R)
      hh ?_ hc).mono fun _ s' hh' => ⟨.node c u .nil .nil, inserted_nil, ?_⟩
    · simp only [cells_mk, cells, Shape.ptr_nil]
      abel
    · refine cast (congrArg _ ?_) hh'
      simp only [cells_mk, cells, Shape.ptr_nil, Shape.ptr_node]
      abel
  · have ha : s.heap a = some (mkNode d p near.ptr far.ptr v) := hchild.get (by simp)
    rw [returns_bind, returns_child ha, mkNode_child]
    refine (hins _ hchild fun hn => hsome (Shape.ptr_eq_none.mpr hn)).mono
      fun _ s' hres => ?_
    obtain ⟨near', hptr, hin, hh'⟩ := hres
    refine ⟨near', hin, ?_⟩
    refine cast (congrArg _ ?_) hh'
    rw [cells_mk, hptr]
    abel

theorem returns_insert [Inhabited T] {fuel : Nat} (hh : Holds s.heap (cells p t + R))
    (ht : t ≠ .nil) (hc : s.heap c = none) (hs : t.values.Pairwise (· < ·))
    (hfuel : t.height ≤ fuel) :
    Returns (insert c fuel t.ptr u) s fun _ s' => ∃ t', t'.ptr = t.ptr ∧ Inserted u t t' ∧
      Holds s'.heap (cells p t' + R) := by
  induction t generalizing fuel p R with
  | nil => exact absurd rfl ht
  | node a v l r ihl ihr =>
    obtain ⟨hsl, hsr, -, -⟩ := sorted_node hs
    simp only [Shape.height] at hfuel
    obtain ⟨fuel, rfl⟩ := Nat.exists_eq_add_one_of_ne_zero (Nat.ne_zero_of_lt hfuel)
    have ha := holds_root hh
    rw [Shape.ptr_node, insert, returns_bind, returns_isValid ha, if_neg (by simp), returns_bind,
      returns_value ha]
    refine Returns.ite (fun hu => ?_) fun hne => ?_
    · obtain rfl : u = v := hu
      refine returns_pure.mpr ⟨_, rfl, ⟨hs, fun w => ?_⟩, hh⟩
      simp only [Shape.values, List.mem_append, List.mem_cons]
      tauto
    rw [returns_bind, returns_value ha]
    refine Returns.ite (fun hgt => ?_) fun hle => ?_
    · rw [returns_bind, returns_left ha]
      refine (returns_insert_child (d := .left) hh hc
        fun R hl hne => ihl hl hne hsl (by omega)).mono fun _ s' hres => ?_
      obtain ⟨l', hins, hh'⟩ := hres
      exact ⟨.node a v l' r, rfl, hins.left hs hgt, hh'⟩
    · have hlt : v < u := lt_of_le_of_ne (not_lt.mp hle) fun he => hne he.symm
      rw [returns_bind, returns_right ha]
      refine (returns_insert_child (d := .right) hh hc
        fun R hr hne => ihr hr hne hsr (by omega)).mono fun _ s' hres => ?_
      obtain ⟨r', hins, hh'⟩ := hres
      exact ⟨.node a v l r', rfl, hins.right hs hlt, hh'⟩

end insert

end Wish.SearchTree
