import Wish.Memory.MyLink

/-!
# `link_delect`

The loop goes on from the node that it has freed, and `pparent` has no value yet when the first
node is to go, so that no node of the list can be removed. A pointer that is in no list is
searched for and nothing is changed.
-/

namespace Wish.MyLink

open Prog Heap

variable {T : Type} {s s' : LinkMem T} {a b hd x : Addr} {n : Node T} {p q : Ptr}
  {ns : List Addr} {fuel : Nat} {pparent : Option Ptr}

/-! ## A node that is not in the list -/

theorem delect_returns (hns : Seg s.heap p ns none) (hx : x ∉ ns) (pparent : Option Ptr)
    (hfuel : ns.length < fuel) :
    Returns (loop .stuck (delectStep (some x)) fuel (p, pparent)) s fun _ s' => s' = s := by
  induction ns generalizing p pparent fuel with
  | nil =>
    obtain rfl : p = none := hns
    obtain ⟨fuel, rfl⟩ := Nat.exists_eq_add_one_of_ne_zero (Nat.ne_zero_of_lt hfuel)
    refine returns_bind.mpr ?_
    rw [delectStep, if_neg (not_not_intro rfl)]
    exact returns_pure.mpr (returns_pure.mpr rfl)
  | cons a ns ih =>
    obtain ⟨rfl, n, hn, hnext⟩ := hns
    obtain ⟨fuel, rfl⟩ := Nat.exists_eq_add_one_of_ne_zero (Nat.ne_zero_of_lt hfuel)
    rw [List.mem_cons, not_or] at hx
    refine returns_bind.mpr ?_
    rw [delectStep, if_pos (Option.some_ne_none a), if_neg fun h => hx.1 (Option.some.inj h).symm,
      returns_bind, returns_next hn, returns_pure]
    exact ih hnext hx.2 (some (some a)) (by simpa using hfuel)

theorem linkDelect_returns (hl : ListAt s hd ns) (hx : x ∉ ns) (hfuel : ns.length < fuel) :
    Returns (linkDelect fuel (some hd) (some x)) s fun v s' => v = 0 ∧ s' = s := by
  obtain ⟨p, hp, hns⟩ := hl
  rw [linkDelect, if_neg (by simp), returns_bind, returns_headNext hp, returns_bind]
  refine (delect_returns hns hx none hfuel).mono fun _ s' hs => ?_
  exact returns_pure.mpr ⟨rfl, hs⟩

/-! ## A node of the list -/

/-- After `free(pnode)` the loop reads `pnode->next`. -/
theorem ensures_next_freed (hfree : s.heap x = none) {Q : Ptr → LinkMem T → Prop} :
    Ensures (next (some x)) s Q := by
  refine ensures_bind.mpr (ensures_deref fun n hn => ?_)
  cases hfree.symm.trans hn

theorem delectStep_ensures (hns : Seg s.heap p ns none) (hx : x ∈ ns) :
    Ensures (delectStep (some x) (p, pparent)) s fun r s' => s' = s ∧
      ∃ b, r = .inl b ∧ ∃ ns', Seg s.heap b.1 ns' none ∧ x ∈ ns' := by
  cases ns with
  | nil => cases hx
  | cons a ns =>
    obtain ⟨rfl, n, hn, hnext⟩ := hns
    rw [delectStep, if_pos (Option.some_ne_none a)]
    by_cases hax : a = x
    · subst hax
      rw [if_pos rfl]
      refine ensures_bind.mpr fun q s₁ _ => ?_
      cases pparent with
      | none => exact ensures_bind.mpr ensures_throw
      | some pparent =>
        refine ensures_bind.mpr fun _ s₂ _ => ?_
        exact ensures_bind.mpr (ensures_delete.mono fun _ s₃ hfree =>
          ensures_bind.mpr (ensures_next_freed hfree))
    · rw [if_neg fun h => hax (Option.some.inj h)]
      have hmem : x ∈ ns := (List.mem_cons.mp hx).resolve_left (Ne.symm hax)
      refine ensures_of_returns fun _ => ?_
      rw [returns_bind, returns_next hn]
      exact returns_pure.mpr ⟨rfl, _, rfl, ns, hnext, hmem⟩

theorem linkDelect_ensures (hl : ListAt s hd ns) (hx : x ∈ ns) :
    Ensures (linkDelect fuel (some hd) (some x)) s fun _ _ => False := by
  obtain ⟨p, hp, hns⟩ := hl
  rw [linkDelect, if_neg (by simp), ensures_bind]
  have hhead : Ensures (headNext (some hd)) s fun q s' => q = p ∧ s' = s :=
    ensures_of_returns fun _ => (returns_headNext hp).mpr ⟨rfl, rfl⟩
  refine hhead.mono ?_
  rintro _ s₁ ⟨rfl, rfl⟩
  rw [ensures_bind]
  refine Ensures.loop (Q := fun _ _ => Ensures (pure 0) _ fun _ _ => False)
    (I := fun b s => ∃ ns, Seg s.heap b.1 ns none ∧ x ∈ ns) ?_ ⟨ns, hns, hx⟩
  rintro ⟨p, pparent⟩ s ⟨ns, hns, hx⟩
  refine (delectStep_ensures hns hx).mono ?_
  rintro _ s' ⟨rfl, b, rfl, h⟩
  exact h

/-! ## The law -/

/-- The node is removed, and freed. -/
structure Removed (s s' : LinkMem T) (hd : Addr) (ns : List Addr) (x : Addr) : Prop where
  list : ListAt s' hd (ns.erase x)
  data : ∀ b ∈ ns.erase x, (s'.heap b).map Node.data = (s.heap b).map Node.data
  freed : s'.heap x = none

/-- `link_delect` does what it is for: it returns 0, a node of the list is removed, and for
another pointer nothing changes. -/
def Delects (s : LinkMem T) (hd : Addr) (ns : List Addr) (x : Addr) : Prop :=
  ∃ s', Converges (fun fuel => linkDelect fuel (some hd) (some x)) s 0 s' ∧
    (x ∈ ns → Removed s s' hd ns x) ∧ (x ∉ ns → s' = s)

theorem Delects.not_mem (hl : ListAt s hd ns) (h : Delects s hd ns x) : x ∉ ns := by
  intro hx
  obtain ⟨s', ⟨fuel, hrun⟩, -⟩ := h
  exact linkDelect_ensures hl hx 0 s' hrun

/-- For every list that ends, so for every one that can be built (`Built.exists_list`). -/
theorem delects_iff_not_mem (hl : ListAt s hd ns) (x : Addr) : Delects s hd ns x ↔ x ∉ ns := by
  refine ⟨Delects.not_mem hl, fun hx => ?_⟩
  obtain ⟨v, s', hrun, rfl, rfl⟩ := linkDelect_returns hl hx (Nat.lt_succ_self ns.length)
  exact ⟨s', ⟨_, hrun⟩, fun h => absurd h hx, fun _ => rfl⟩

/-- Two nodes behind the head at 0, and one that has not been inserted. -/
theorem exists_built_two : ∃ s : LinkMem Nat, Built 0 s ∧ ListAt s 0 [1, 2] ∧
    s.heap 3 = some ⟨9, none⟩ := by
  have hone : Built 0 _ :=
    .nodeCreate (.headInit rfl) (show nodeCreate (some 1) 5 _ = .ok (_, _) from rfl)
  have htwo : Built 0 _ := .nodeCreate hone (show nodeCreate (some 2) 7 _ = .ok (_, _) from rfl)
  have hthree : Built 0 _ := .nodeCreate htwo (show nodeCreate (some 3) 9 _ = .ok (_, _) from rfl)
  have hfirst : Built 0 _ := .insertTail (x := 1) hthree (by decide) ⟨1, rfl⟩
  have hsecond : Built 0 _ := .insertTail (x := 2) hfirst (by decide) ⟨2, rfl⟩
  exact ⟨_, hsecond, ⟨some 1, rfl, rfl, _, rfl, rfl, _, rfl, rfl⟩, rfl⟩

/-- The third node is not removed from the list, and the second one cannot be. -/
theorem delects_iff_not_mem_two : ∃ s : LinkMem Nat, Built 0 s ∧ s.heap 3 = some ⟨9, none⟩ ∧
    Delects s 0 [1, 2] 3 ∧ ¬ Delects s 0 [1, 2] 2 := by
  obtain ⟨s, hbuilt, hlist, hthree⟩ := exists_built_two
  exact ⟨s, hbuilt, hthree, (delects_iff_not_mem hlist 3).mpr (by decide),
    fun h => (delects_iff_not_mem hlist 2).mp h (by decide)⟩

/-- One node behind the head at 0. -/
def oneNode : LinkMem Nat :=
  ⟨Function.update (Function.update (fun _ => none) 0 (some none)) 0 (some (some 1)),
    Function.update (fun _ => none) 1 (some ⟨5, none⟩)⟩

theorem built_oneNode : Built 0 oneNode := by
  have hcreate : Built 0 _ :=
    .nodeCreate (.headInit rfl) (show nodeCreate (some 1) 5 _ = .ok (_, _) from rfl)
  exact .insertTail hcreate (by decide) ⟨1, rfl⟩

theorem listAt_oneNode : ListAt oneNode 0 [1] := ⟨some 1, rfl, rfl, _, rfl, rfl⟩

theorem not_delects_only : Built 0 oneNode ∧ ListAt oneNode 0 [1] ∧ ¬ Delects oneNode 0 [1] 1 :=
  ⟨built_oneNode, listAt_oneNode, fun h =>
    Delects.not_mem listAt_oneNode h (List.mem_singleton_self 1)⟩

end Wish.MyLink
