import Wish.Memory.MyLink

/-!
# `link_reversal`

`recursion_reversal` goes to the last node first and turns the links on the way back. Before the
link of a node is turned, the part behind it already leads back to it, so that the two nodes form
a cycle; `Turned` is about the part only, from its last node to the node before it.
-/

namespace Wish.MyLink

open Prog Heap

variable {T : Type} {s s' : LinkMem T} {a b hd prev : Addr} {n : Node T} {p q : Ptr}
  {ns : List Addr} {fuel : Nat}

/-- The links of `ns` are turned; its first node leads to `q`. -/
structure Turned (s s' : LinkMem T) (ns : List Addr) (q : Ptr) : Prop where
  seg : Seg s'.heap ns.getLast? ns.reverse q
  data : ∀ b, (s'.heap b).map Node.data = (s.heap b).map Node.data
  others : ∀ b, b ∉ ns → s'.heap b = s.heap b
  globals : s'.globals = s.globals

theorem Turned.single (hn : s.heap a = some n) (q : Ptr) :
    Turned s { s with heap := relink s.heap a q } [a] q where
  seg := ⟨rfl, _, relink_self hn q, rfl⟩
  data := data_relink s.heap a q
  others b hb := relink_of_ne (fun h => hb (by simp [h])) q
  globals := rfl

/-- The link of the node before a turned part is turned. -/
theorem Turned.cons (h : Turned s s' (b :: ns) (some a)) (ha : a ∉ b :: ns)
    (hn : s.heap a = some n) (q : Ptr) :
    Turned s { s' with heap := relink s'.heap a q } (a :: b :: ns) q := by
  have hn' : s'.heap a = some n := (h.others a ha).trans hn
  have hback : Seg (relink s'.heap a q) (some a) [a] q := ⟨rfl, _, relink_self hn' q, rfl⟩
  refine ⟨?_, fun c => (data_relink _ a q c).trans (h.data c), fun c hc => ?_, h.globals⟩
  · rw [List.getLast?_cons_cons, List.reverse_cons]
    exact (h.seg.relink (fun hmem => ha (List.mem_reverse.mp hmem)) q).append hback
  · rw [List.mem_cons, not_or] at hc
    exact (relink_of_ne hc.1 q).trans (h.others c hc.2)

theorem recursionReversal_returns (hns : Seg s.heap (some a) (a :: ns) none)
    (hfuel : ns.length < fuel) :
    Returns (recursionReversal fuel (some prev) (some a)) s fun _ s' =>
      Turned s s' (a :: ns) (some prev) := by
  induction ns generalizing a prev fuel with
  | nil =>
    obtain ⟨-, n, hn, hnext⟩ := hns
    obtain ⟨fuel, rfl⟩ := Nat.exists_eq_add_one_of_ne_zero (Nat.ne_zero_of_lt hfuel)
    have hnil : n.next = none := hnext
    rw [recursionReversal, if_neg (by simp), returns_bind, returns_next hn, if_pos hnil]
    exact returns_setNext hn (.single hn _)
  | cons b ns ih =>
    have hnd := hns.nodup
    obtain ⟨-, n, hn, hnext⟩ := hns
    obtain ⟨fuel, rfl⟩ := Nat.exists_eq_add_one_of_ne_zero (Nat.ne_zero_of_lt hfuel)
    have hb : n.next = some b := hnext.1
    rw [recursionReversal, if_neg (by simp), returns_bind, returns_next hn, hb,
      if_neg (Option.some_ne_none b), returns_bind, returns_next hn, hb, returns_bind]
    rw [hb] at hnext
    refine (ih hnext (by simpa using hfuel)).mono fun _ s₁ h => ?_
    have ha : a ∉ b :: ns := (List.nodup_cons.mp hnd).1
    exact returns_setNext ((h.others a ha).trans hn) (h.cons ha hn _)

/-- The list of the head at `hd` is reversed in place. -/
structure Reversed (s s' : LinkMem T) (hd : Addr) (ns : List Addr) : Prop where
  list : ListAt s' hd ns.reverse
  data : ∀ b, (s'.heap b).map Node.data = (s.heap b).map Node.data
  others : ∀ b, b ∉ ns → s'.heap b = s.heap b
  heads : ∀ hd', hd' ≠ hd → s'.globals hd' = s.globals hd'

theorem linkReversal_returns (hl : ListAt s hd (a :: b :: ns)) (hfuel : ns.length + 2 < fuel) :
    Returns (linkReversal fuel (some hd)) s fun v s' =>
      v = 0 ∧ Reversed s s' hd (a :: b :: ns) := by
  have hnd := hl.nodup
  obtain ⟨p, hp, hns⟩ := hl
  obtain rfl : p = some a := hns.1
  obtain ⟨-, n, hn, hrest⟩ := id hns
  have hb : n.next = some b := hrest.1
  have ha : a ∉ b :: ns := (List.nodup_cons.mp hnd).1
  rw [hb] at hrest
  obtain ⟨l, z, hz⟩ : ∃ l z, b :: ns = l ++ [z] :=
    ((b :: ns).eq_nil_or_concat').resolve_left (List.cons_ne_nil b ns)
  have hlast : Returns (lastNode fuel (some a)) s fun q s' => q = some z ∧ s' = s := by
    have hlen := congrArg List.length hz
    have hseg : Seg s.heap (some a) ((a :: l) ++ [z]) none := by
      rw [List.cons_append, ← hz]
      exact hns
    refine lastNode_returns hseg ?_
    simp at hlen ⊢
    omega
  rw [linkReversal, if_neg (by simp), returns_bind, returns_headNext hp,
    if_neg (Option.some_ne_none a), returns_bind, returns_headNext hp, returns_bind,
    returns_next hn, hb, if_neg (Option.some_ne_none b), returns_bind, returns_headNext hp,
    returns_bind]
  refine hlast.mono ?_
  rintro _ s₁ ⟨rfl, hs₁⟩
  rw [hs₁, returns_bind, returns_headNext hp, returns_bind, returns_headNext hp, returns_bind,
    returns_next hn, hb, returns_bind]
  refine (recursionReversal_returns hrest (by omega)).mono fun _ s₂ h => ?_
  have hp₂ : s₂.globals hd = some (some a) := by
    rw [h.globals]
    exact hp
  have hturned := h.cons ha hn none
  rw [returns_bind, returns_headNext hp₂, returns_bind]
  refine returns_setNext ((h.others a ha).trans hn) ?_
  rw [returns_bind]
  refine returns_setHeadNext hp₂ (returns_pure.mpr ⟨rfl, ?_, hturned.data, hturned.others, ?_⟩)
  · have hend : (a :: b :: ns).getLast? = some z := by
      rw [List.getLast?_cons_cons, hz, List.getLast?_concat]
    have hseg := hturned.seg
    rw [hend] at hseg
    exact ⟨some z, Function.update_self .., hseg⟩
  · intro hd' hne
    exact (Function.update_of_ne hne _ _).trans (congrFun h.globals hd')

/-- A list with fewer than two nodes. -/
theorem linkReversal_short (hl : ListAt s hd ns) (hlen : ns.length < 2) (fuel : Nat) :
    linkReversal fuel (some hd) s = .ok (-1, s) := by
  obtain ⟨p, hp, hns⟩ := hl
  have h : Returns (linkReversal fuel (some hd)) s fun v s' => v = -1 ∧ s' = s := by
    rw [linkReversal, if_neg (by simp), returns_bind, returns_headNext hp]
    cases ns with
    | nil =>
      obtain rfl : p = none := hns
      rw [if_pos rfl]
      exact returns_pure.mpr ⟨rfl, rfl⟩
    | cons a ns =>
      rw [List.length_cons] at hlen
      obtain rfl : ns = [] := List.length_eq_zero_iff.mp (by omega)
      obtain ⟨rfl, n, hn, hnext⟩ := hns
      have hnil : n.next = none := hnext
      rw [if_neg (Option.some_ne_none a), returns_bind, returns_headNext hp, returns_bind,
        returns_next hn, if_pos hnil]
      exact returns_pure.mpr ⟨rfl, rfl⟩
  obtain ⟨v, s', hrun, rfl, rfl⟩ := h
  exact hrun

theorem linkReversal_spec (s : LinkMem T) :
    Converges (fun fuel => linkReversal fuel none) s (-1) s ∧
      ∀ hd ns, ListAt s hd ns →
        (ns.length < 2 → Converges (fun fuel => linkReversal fuel (some hd)) s (-1) s) ∧
        (2 ≤ ns.length → ∃ s', Converges (fun fuel => linkReversal fuel (some hd)) s 0 s' ∧
          Reversed s s' hd ns) := by
  refine ⟨⟨0, rfl⟩, fun hd ns hl => ⟨fun hlen => ⟨0, linkReversal_short hl hlen 0⟩, ?_⟩⟩
  intro hlen
  obtain ⟨a, b, ns, rfl⟩ : ∃ a b l, ns = a :: b :: l := by
    match ns, hlen with
    | a :: b :: l, _ => exact ⟨a, b, l, rfl⟩
  obtain ⟨v, s', hrun, rfl, hrev⟩ := linkReversal_returns hl (Nat.lt_succ_self (ns.length + 2))
  exact ⟨s', ⟨_, hrun⟩, hrev⟩

/-- Two nodes behind the head at 0. -/
def twoNodes : LinkMem Nat :=
  ⟨fun a => if a = 0 then some (some 1) else none,
    fun a => if a = 1 then some ⟨5, some 2⟩ else if a = 2 then some ⟨7, none⟩ else none⟩

theorem listAt_twoNodes : ListAt twoNodes 0 [1, 2] :=
  ⟨some 1, rfl, rfl, _, rfl, rfl, _, rfl, rfl⟩

theorem linkReversal_spec_twoNodes : ∃ s', ListAt s' 0 [2, 1] ∧
    Converges (fun fuel => linkReversal fuel (some 0)) twoNodes 0 s' := by
  obtain ⟨s', hrun, hrev⟩ :=
    ((linkReversal_spec twoNodes).2 0 [1, 2] listAt_twoNodes).2 (Nat.le_refl 2)
  exact ⟨s', hrev.list, hrun⟩

end Wish.MyLink
