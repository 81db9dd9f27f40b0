import Wish.Core.LockfreeQueue.Fifo
import Mathlib.Algebra.BigOperators.Group.Finset.Basic
import Mathlib.Algebra.Order.BigOperators.Group.Finset
import Mathlib.Data.Fintype.Basic
import Mathlib.Data.Nat.ModEq
import Mathlib.Order.Interval.Finset.Nat

/-!
# Each value once

`Conserved s`: no value is returned by two calls of `pop_front`, none that has not been brought
is returned, and when no call is in progress the values that can be reached from `m_head` are
those brought and not returned, and `m_size` is their number.

`guarded_conserved`: this holds in every run in which a node is only ever linked behind a node
of the queue, and `not_conserved` is a run in which it does not hold.
-/

namespace Wish.Lockfree

open Heap (Addr Ptr)
open Machine

variable {ι T : Type}

/-- The values that `pop_front` has returned. -/
def returned (log : List (Event ι T)) : List (Option (Item T)) :=
  log.filterMap fun
    | .popped ret => some ret
    | _ => none

/-- The values from the node `p` on, along the links. -/
inductive Reads (m : Memory T) : Ptr → List (Option (Item T)) → Prop
  | nil : Reads m none []
  | cons {a : Addr} {l : List (Option (Item T))} (h : Reads m (m.next a).ptr l) :
      Reads m (some a) (m.data a :: l)

theorem reads_none {m : Memory T} {l : List (Option (Item T))} (h : Reads m none l) : l = [] := by
  cases h
  rfl

/-- The values that can be reached from `m_head`; its own node is the dummy. -/
def Memory.Contents (m : Memory T) (l : List (Option (Item T))) : Prop :=
  ∃ a, m.m_head.ptr = some a ∧ Reads m (m.next a).ptr l

structure Conserved (s : State ι T) : Prop where
  once : (returned s.log).Nodup
  brought : ∀ ret ∈ returned s.log, ∃ x, ret = some x ∧ .emplace x ∈ s.log
  left : (∀ t, s.pc t = .idle) → ∃ l : List (Item T), s.mem.Contents (l.map some) ∧ l.Nodup ∧
    (∀ x, x ∈ l ↔ .emplace x ∈ s.log ∧ some x ∉ returned s.log) ∧ s.mem.m_size = l.length

/-! ## The contents of the memory -/

variable {g : Ghost ι T} {m : Memory T}

theorem Chain.reads (h : Chain g m) {i : Nat} (hi : m.m_head.tag ≤ i) :
    Reads m g.nodes[i + 1]? ((g.items.drop i).map some) := by
  have hlen := h.length
  by_cases hlt : i < g.items.length
  · have hnode : g.nodes[i + 1]? = some g.nodes[i + 1] := List.getElem?_eq_getElem (by omega)
    have hitem : g.items[i]? = some g.items[i] := List.getElem?_eq_getElem hlt
    rw [hnode, List.drop_eq_getElem_cons hlt, List.map_cons, ← hitem, ← h.data i _ hi hnode]
    refine .cons ?_
    rw [h.next (i + 1) _ (by omega) hnode]
    exact h.reads (by omega)
  · rw [List.drop_eq_nil_iff.mpr (by omega), List.getElem?_eq_none_iff.mpr (by omega)]
    exact .nil
termination_by g.items.length - i

theorem Chain.contents (h : Chain g m) :
    m.Contents ((g.items.drop m.m_head.tag).map some) := by
  obtain ⟨a, ha, hget⟩ := h.head
  refine ⟨a, ha, ?_⟩
  rw [h.next _ a (Nat.le_refl _) hget]
  exact h.reads (Nat.le_refl _)

/-- There are fewer values in the queue than addresses. -/
theorem Chain.items_lt (h : Chain g m) :
    g.items.length < m.m_head.tag + Freelist.addresses := by
  have hlen := h.length
  have hhead := h.head.lt
  have hfresh := h.fresh_le
  have hcard : (Finset.Ico m.m_head.tag g.nodes.length).card ≤
      (Finset.range m.m_pool.fresh).card := by
    have hget : ∀ i ∈ Finset.Ico m.m_head.tag g.nodes.length,
        g.nodes[i]? = some (g.nodes[i]?.getD 0) := by
      intro i hi
      rw [List.getElem?_eq_getElem (Finset.mem_Ico.mp hi).2, Option.getD_some]
    refine Finset.card_le_card_of_injOn (fun i => g.nodes[i]?.getD 0) (fun i hi => ?_)
      (fun i hi j hj hij => ?_)
    · have hq := h.own_queue i _ (Finset.mem_Ico.mp hi).1 (hget i hi)
      refine Finset.mem_coe.mpr (Finset.mem_range.mpr (Nat.lt_of_not_le fun hle => ?_))
      rw [h.own_fresh _ hle] at hq
      cases hq
    · have hj' := hget j hj
      have hi' := hget i hi
      exact h.once i j _ (Finset.mem_Ico.mp hi).1 (Finset.mem_Ico.mp hj).1 hi' (hj'.trans
        (congrArg some hij.symm))
  rw [Nat.card_Ico, Finset.card_range] at hcard
  omega

/-! ## Where a value is -/

inductive Place (ι : Type) where
  | nowhere
  | pending (t : ι)
  | queued
  | held (t : ι)
  | returned

variable {place : Nat → Place ι} {w : View ι T} {t : ι} {es : List (Event ι T)}

/-- What the thread `t` has in a phase. -/
def Has (place : Nat → Place ι) (log : List (Event ι T)) (t : ι) : Phase T → Prop
  | .pending x => place x.1 = .pending t ∧ .emplace x ∈ log
  | .held ret => ∃ x, ret = some x ∧ place x.1 = .held t ∧ .emplace x ∈ log
  | _ => True

structure Kept (place : Nat → Place ι) (w : View ι T) : Prop where
  head_le : w.values.head ≤ w.values.items.length
  fresh : ∀ i, w.calls ≤ i → place i = .nowhere
  has : ∀ t, Has place w.log t (w.phase t)
  queued : ∀ j x, w.values.head ≤ j → w.values.items[j]? = some x →
    place x.1 = .queued ∧ .emplace x ∈ w.log
  once : ∀ (i j : Nat) x y, w.values.head ≤ i → w.values.head ≤ j → w.values.items[i]? = some x →
    w.values.items[j]? = some y → x.1 = y.1 → i = j
  out : ∀ ret ∈ returned w.log, ∃ x, ret = some x ∧ place x.1 = .returned ∧ .emplace x ∈ w.log
  nodup : (returned w.log).Nodup
  somewhere : ∀ x, .emplace x ∈ w.log → (∃ t, w.phase t = .pending x) ∨
    (∃ j, w.values.head ≤ j ∧ w.values.items[j]? = some x) ∨
    (∃ t, w.phase t = .held (some x)) ∨ some x ∈ returned w.log

theorem Has.mono {log log' : List (Event ι T)} {f : Phase T} (h : Has place log t f)
    (hlog : log ⊆ log') : Has place log' t f := by
  cases f with
  | pending x => exact ⟨h.1, hlog h.2⟩
  | held ret =>
    obtain ⟨x, hx, hp, hl⟩ := h
    exact ⟨x, hx, hp, hlog hl⟩
  | _ => trivial

/-- A value of another place is moved. -/
theorem Has.update {log : List (Event ι T)} {f : Phase T} {i : Nat} {p : Place ι}
    (h : Has place log t f) (hp : place i ≠ .pending t) (hh : place i ≠ .held t) :
    Has (Function.update place i p) log t f := by
  cases f with
  | pending x =>
    obtain ⟨hx, hl⟩ := h
    have hne : x.1 ≠ i := by
      rintro rfl
      exact hp hx
    exact ⟨(Function.update_of_ne hne p place).trans hx, hl⟩
  | held ret =>
    obtain ⟨x, rfl, hx, hl⟩ := h
    have hne : x.1 ≠ i := by
      rintro rfl
      exact hh hx
    exact ⟨x, rfl, (Function.update_of_ne hne p place).trans hx, hl⟩
  | _ => trivial

/-- The phase has nothing to do with a value. -/
def Phase.Free : Phase T → Prop
  | .pending _ | .held _ => False
  | _ => True

theorem Phase.Free.has {f : Phase T} (h : f.Free) (log : List (Event ι T)) :
    Has place log t f := by
  cases f with
  | pending x => exact h.elim
  | held ret => exact h.elim
  | _ => trivial

@[simp] theorem returned_append (l l' : List (Event ι T)) :
    returned (l ++ l') = returned l ++ returned l' := List.filterMap_append

theorem Phase.Free.ne_pending {f : Phase T} (h : f.Free) (x : Item T) : f ≠ .pending x := by
  rintro rfl
  exact h

theorem Phase.Free.ne_held {f : Phase T} (h : f.Free) (ret : Option (Item T)) : f ≠ .held ret := by
  rintro rfl
  exact h

theorem Kept.fresh_update {i : Nat} {p : Place ι} (h : Kept place w) (hi : place i ≠ .nowhere)
    {j : Nat} (hj : w.calls ≤ j) : Function.update place i p j = .nowhere := by
  have hne : j ≠ i := by
    rintro rfl
    exact hi (h.fresh j hj)
  rw [Function.update_of_ne hne]
  exact h.fresh j hj

theorem kept_init : Kept (fun _ => .nowhere) (View.init : View ι T) :=
  ⟨Nat.le_refl _, fun _ _ => rfl, fun _ => trivial, nofun, nofun, nofun, List.nodup_nil, nofun⟩

section

variable [DecidableEq ι]

/-- The thread goes from one such phase to another. -/
theorem Kept.free {v : Values T} {f f' : Phase T} (h : Kept place w) (hf : w.phase t = f)
    (hff : f' = f ∨ f.Free ∧ f'.Free) (hitems : v.items = w.values.items)
    (hhead : v.head = w.values.head) (hes : returned es = []) (hno : ∀ x, .emplace x ∉ es) :
    Kept place
      { w with values := v, phase := Function.update w.phase t f', log := w.log ++ es } := by
  obtain ⟨items, head, tail, size⟩ := v
  subst hitems hhead hf
  have hphase : ∀ u, Function.update w.phase t f' u = w.phase u ∨
      (w.phase u).Free ∧ (Function.update w.phase t f' u).Free := by
    intro u
    by_cases hu : u = t
    · subst hu
      rw [Function.update_self]
      exact hff
    · exact Or.inl (Function.update_of_ne hu f' w.phase)
  have hret : returned (w.log ++ es) = returned w.log := by simp [hes]
  refine ⟨h.head_le, h.fresh, fun u => ?_, fun j x hj hx => ?_, h.once, fun ret hr => ?_, ?_,
    fun x hx => ?_⟩
  · rcases hphase u with heq | ⟨-, hfree⟩
    · show Has place _ u (Function.update w.phase t f' u)
      rw [heq]
      exact (h.has u).mono (List.subset_append_left _ _)
    · exact hfree.has _
  · obtain ⟨hp, hl⟩ := h.queued j x hj hx
    exact ⟨hp, List.mem_append_left _ hl⟩
  · rw [hret] at hr
    obtain ⟨x, hx, hp, hl⟩ := h.out ret hr
    exact ⟨x, hx, hp, List.mem_append_left _ hl⟩
  · rw [hret]
    exact h.nodup
  · rw [hret]
    rcases List.mem_append.mp hx with hx | hx
    · rcases h.somewhere x hx with ⟨u, hu⟩ | hq | ⟨u, hu⟩ | hr
      · rcases hphase u with heq | ⟨hfree, -⟩
        · exact Or.inl ⟨u, heq.trans hu⟩
        · exact absurd hu (hfree.ne_pending x)
      · exact Or.inr (Or.inl hq)
      · rcases hphase u with heq | ⟨hfree, -⟩
        · exact Or.inr (Or.inr (Or.inl ⟨u, heq.trans hu⟩))
        · exact absurd hu (hfree.ne_held _)
      · exact Or.inr (Or.inr (Or.inr hr))
    · exact absurd hx (hno x)

/-- What the other threads have when a value of the thread `t` is moved. -/
theorem Kept.has_update (f' : Phase T) {i : Nat} {p : Place ι} {log : List (Event ι T)}
    (h : Kept place w) (hlog : w.log ⊆ log)
    (hi : ∀ u, u ≠ t → place i ≠ .pending u ∧ place i ≠ .held u)
    (hf : Has (Function.update place i p) log t f') (u : ι) :
    Has (Function.update place i p) log u (Function.update w.phase t f' u) := by
  by_cases hu : u = t
  · subst hu
    rw [Function.update_self]
    exact hf
  · rw [Function.update_of_ne hu]
    exact ((h.has u).update (hi u hu).1 (hi u hu).2).mono hlog

/-- The value of the thread `t` comes into the queue. -/
theorem Kept.link {x : Item T} {k : Nat} (h : Kept place w) (hf : w.phase t = .pending x) :
    Kept (Function.update place x.1 .queued)
      { w with
        values := { w.values with items := w.values.items ++ [x] }
        phase := Function.update w.phase t (.linked x k) } := by
  have hpre : w.values.items <+: w.values.items ++ [x] := List.prefix_append _ _
  obtain ⟨hx, hxl⟩ : Has place w.log t (.pending x) := hf ▸ h.has t
  -- the values of the queue are other ones
  have hne : ∀ {j : Nat} {y : Item T}, w.values.head ≤ j → w.values.items[j]? = some y →
      y.1 ≠ x.1 := by
    intro j y hj hy heq
    have hq := (h.queued j y hj hy).1
    rw [heq, hx] at hq
    cases hq
  refine ⟨?_, fun j hj => h.fresh_update (by rw [hx]; exact nofun) hj, fun u => ?_,
    fun j y hj hy => ?_, fun i j y z hi hj hy hz heq => ?_, fun ret hr => ?_, h.nodup,
    fun y hy => ?_⟩
  · have hle := h.head_le
    show w.values.head ≤ (w.values.items ++ [x]).length
    rw [List.length_append]
    omega
  · refine h.has_update (.linked x k) (List.Subset.refl _) (fun u hu => ?_) trivial u
    rw [hx]
    exact ⟨fun heq => hu (Place.pending.inj heq).symm, nofun⟩
  · rcases eq_or_of_getElem?_concat hy with hy | ⟨-, rfl⟩
    · obtain ⟨hp, hl⟩ := h.queued j y hj hy
      exact ⟨(Function.update_of_ne (hne hj hy) _ place).trans hp, hl⟩
    · exact ⟨Function.update_self _ _ place, hxl⟩
  · rcases eq_or_of_getElem?_concat hy with hy' | ⟨hi', rfl⟩
    · rcases eq_or_of_getElem?_concat hz with hz' | ⟨-, rfl⟩
      · exact h.once i j y z hi hj hy' hz' heq
      · exact absurd heq (hne hi hy')
    · rcases eq_or_of_getElem?_concat hz with hz' | ⟨hj', -⟩
      · exact absurd heq.symm (hne hj hz')
      · rw [hi', hj']
  · obtain ⟨y, rfl, hp, hl⟩ := h.out ret hr
    have hyx : y.1 ≠ x.1 := by
      intro heq
      rw [heq, hx] at hp
      cases hp
    exact ⟨y, rfl, (Function.update_of_ne hyx _ place).trans hp, hl⟩
  · rcases h.somewhere y hy with ⟨u, hu⟩ | ⟨j, hj, hget⟩ | ⟨u, hu⟩ | hr
    · by_cases hut : u = t
      · subst hut
        rw [hf] at hu
        cases hu
        exact Or.inr (Or.inl ⟨w.values.items.length, h.head_le, List.getElem?_concat_length⟩)
      · exact Or.inl ⟨u, (Function.update_of_ne hut _ w.phase).trans hu⟩
    · exact Or.inr (Or.inl ⟨j, hj, getElem?_of_prefix hpre hget⟩)
    · have hut : u ≠ t := by
        rintro rfl
        rw [hf] at hu
        cases hu
      exact Or.inr (Or.inr (Or.inl ⟨u, (Function.update_of_ne hut _ w.phase).trans hu⟩))
    · exact Or.inr (Or.inr (Or.inr hr))

/-- The thread `t` takes the first value of the queue. -/
theorem Kept.take {x : Item T} (h : Kept place w) (hf : w.phase t = .looking)
    (item : w.values.items[w.values.head]? = some x) :
    Kept (Function.update place x.1 (.held t))
      { w with
        values := { w.values with head := w.values.head + 1 }
        phase := Function.update w.phase t (.held (some x))
        log := w.log ++ [.take (some x)] } := by
  have hret : returned (w.log ++ [.take (some x)]) = returned w.log := by simp [returned]
  obtain ⟨hx, hxl⟩ := h.queued _ x (Nat.le_refl _) item
  have hlog : w.log ⊆ w.log ++ [.take (some x)] := List.subset_append_left _ _
  refine ⟨(List.getElem?_eq_some_iff.mp item).1,
    fun j hj => h.fresh_update (by rw [hx]; exact nofun) hj, fun u => ?_, fun j y hj hy => ?_,
    fun i j y z hi hj => h.once i j y z (Nat.le_of_succ_le hi) (Nat.le_of_succ_le hj),
    fun ret hr => ?_, ?_, fun y hy => ?_⟩
  · refine h.has_update (.held (some x)) hlog (fun u _ => ?_)
      ⟨x, rfl, Function.update_self _ _ place, hlog hxl⟩ u
    rw [hx]
    exact ⟨nofun, nofun⟩
  · have hj' : w.values.head < j := hj
    obtain ⟨hp, hl⟩ := h.queued j y (Nat.le_of_lt hj') hy
    have hyx : y.1 ≠ x.1 := by
      intro heq
      have hjh := h.once j _ y x (Nat.le_of_lt hj') (Nat.le_refl _) hy item heq
      omega
    exact ⟨(Function.update_of_ne hyx _ place).trans hp, hlog hl⟩
  · rw [hret] at hr
    obtain ⟨y, rfl, hp, hl⟩ := h.out ret hr
    have hyx : y.1 ≠ x.1 := by
      intro heq
      rw [heq, hx] at hp
      cases hp
    exact ⟨y, rfl, (Function.update_of_ne hyx _ place).trans hp, hlog hl⟩
  · rw [hret]
    exact h.nodup
  · rw [hret]
    have hy' : .emplace y ∈ w.log := by
      rcases List.mem_append.mp hy with hy | hy
      · exact hy
      · cases List.mem_singleton.mp hy
    have hother : ∀ {u : ι} {f : Phase T}, w.phase u = f → f ≠ .looking →
        Function.update w.phase t (.held (some x)) u = f := by
      intro u f hu hne
      have hut : u ≠ t := by
        rintro rfl
        exact hne (hu.symm.trans hf)
      exact (Function.update_of_ne hut _ w.phase).trans hu
    rcases h.somewhere y hy' with ⟨u, hu⟩ | ⟨j, hj, hget⟩ | ⟨u, hu⟩ | hr
    · exact Or.inl ⟨u, hother hu nofun⟩
    · rcases Nat.eq_or_lt_of_le hj with rfl | hlt
      · cases item.symm.trans hget
        exact Or.inr (Or.inr (Or.inl ⟨t, Function.update_self _ _ w.phase⟩))
      · exact Or.inr (Or.inl ⟨j, hlt, hget⟩)
    · exact Or.inr (Or.inr (Or.inl ⟨u, hother hu nofun⟩))
    · exact Or.inr (Or.inr (Or.inr hr))

/-- The thread `t` returns the value that it has taken. -/
theorem Kept.sub {ret : Option (Item T)} {k : Nat} (h : Kept place w)
    (hf : w.phase t = .held ret) :
    ∃ place', Kept place'
      { w with
        values := { w.values with size := k }
        phase := Function.update w.phase t .idle
        log := w.log ++ [.popped ret] } := by
  have hret : returned (w.log ++ [.popped ret]) = returned w.log ++ [ret] := by simp [returned]
  obtain ⟨x, rfl, hx, hxl⟩ : Has place w.log t (.held ret) := hf ▸ h.has t
  have hlog : w.log ⊆ w.log ++ [.popped (some x)] := List.subset_append_left _ _
  have hne : ∀ {y : Item T} {p : Place ι}, place y.1 = p → p ≠ .held t → y.1 ≠ x.1 := by
    intro y p hp hpt heq
    rw [heq, hx] at hp
    exact hpt hp.symm
  refine ⟨Function.update place x.1 .returned, h.head_le,
    fun j hj => h.fresh_update (by rw [hx]; exact nofun) hj, fun u => ?_, fun j y hj hy => ?_,
    h.once, fun ret hr => ?_, ?_, fun y hy => ?_⟩
  · refine h.has_update .idle hlog (fun u hu => ?_) trivial u
    rw [hx]
    exact ⟨nofun, fun heq => hu (Place.held.inj heq).symm⟩
  · obtain ⟨hp, hl⟩ := h.queued j y hj hy
    exact ⟨(Function.update_of_ne (hne hp nofun) _ place).trans hp, hlog hl⟩
  · rw [hret] at hr
    rcases List.mem_append.mp hr with hr | hr
    · obtain ⟨y, rfl, hp, hl⟩ := h.out ret hr
      exact ⟨y, rfl, (Function.update_of_ne (hne hp nofun) _ place).trans hp, hlog hl⟩
    · rw [List.mem_singleton.mp hr]
      exact ⟨x, rfl, Function.update_self _ _ place, hlog hxl⟩
  · rw [hret]
    refine List.nodup_append.mpr ⟨h.nodup, List.nodup_singleton _, fun r hr r' hr' heq => ?_⟩
    obtain ⟨y, rfl, hp, -⟩ := h.out r hr
    rw [List.mem_singleton] at hr'
    obtain rfl : y = x := Option.some.inj (heq.trans hr')
    exact hne hp nofun rfl
  · rw [hret]
    have hy' : .emplace y ∈ w.log := by
      rcases List.mem_append.mp hy with hy | hy
      · exact hy
      · cases List.mem_singleton.mp hy
    rcases h.somewhere y hy' with ⟨u, hu⟩ | hq | ⟨u, hu⟩ | hr
    · have hut : u ≠ t := by
        rintro rfl
        rw [hf] at hu
        cases hu
      exact Or.inl ⟨u, (Function.update_of_ne hut _ w.phase).trans hu⟩
    · exact Or.inr (Or.inl hq)
    · by_cases hut : u = t
      · subst hut
        rw [hf] at hu
        cases hu
        exact Or.inr (Or.inr (Or.inr (List.mem_append_right _ List.mem_cons_self)))
      · exact Or.inr (Or.inr (Or.inl ⟨u, (Function.update_of_ne hut _ w.phase).trans hu⟩))
    · exact Or.inr (Or.inr (Or.inr (List.mem_append_left _ hr)))

/-- A thread calls `emplace`. -/
theorem Kept.emplace (h : Kept place w) (hf : w.phase t = .idle) (v : T) :
    Kept (Function.update place w.calls (.pending t))
      { w with
        phase := Function.update w.phase t (.pending (w.calls, v))
        calls := w.calls + 1
        log := w.log ++ [.emplace (w.calls, v)] } := by
  have hret : returned (w.log ++ [.emplace (w.calls, v)]) = returned w.log := by simp [returned]
  have hlog : w.log ⊆ w.log ++ [.emplace (w.calls, v)] := List.subset_append_left _ _
  have hcalls := h.fresh _ (Nat.le_refl _)
  have hne : ∀ {i : Nat} {p : Place ι}, place i = p → p ≠ .nowhere → i ≠ w.calls := by
    rintro i p hp hpn rfl
    exact hpn (hp.symm.trans hcalls)
  refine ⟨h.head_le, fun j hj => ?_, fun u => ?_, fun j y hj hy => ?_, h.once, fun ret hr => ?_, ?_,
    fun y hy => ?_⟩
  · have hj' : w.calls < j := hj
    show Function.update place w.calls (.pending t) j = .nowhere
    rw [Function.update_of_ne (Nat.ne_of_gt hj')]
    exact h.fresh j (Nat.le_of_lt hj')
  · refine h.has_update (.pending (w.calls, v)) hlog (fun u hu => ?_)
      ⟨Function.update_self _ _ place, List.mem_append_right _ List.mem_cons_self⟩ u
    rw [hcalls]
    exact ⟨nofun, nofun⟩
  · obtain ⟨hp, hl⟩ := h.queued j y hj hy
    exact ⟨(Function.update_of_ne (hne hp nofun) _ place).trans hp, hlog hl⟩
  · rw [hret] at hr
    obtain ⟨y, rfl, hp, hl⟩ := h.out ret hr
    exact ⟨y, rfl, (Function.update_of_ne (hne hp nofun) _ place).trans hp, hlog hl⟩
  · rw [hret]
    exact h.nodup
  · rw [hret]
    have hother : ∀ {u : ι} {f : Phase T}, w.phase u = f → f ≠ .idle →
        Function.update w.phase t (.pending (w.calls, v)) u = f := by
      intro u f hu hne
      have hut : u ≠ t := by
        rintro rfl
        exact hne (hu.symm.trans hf)
      exact (Function.update_of_ne hut _ w.phase).trans hu
    rcases List.mem_append.mp hy with hy | hy
    · rcases h.somewhere y hy with ⟨u, hu⟩ | hq | ⟨u, hu⟩ | hr
      · exact Or.inl ⟨u, hother hu nofun⟩
      · exact Or.inr (Or.inl hq)
      · exact Or.inr (Or.inr (Or.inl ⟨u, hother hu nofun⟩))
      · exact Or.inr (Or.inr (Or.inr hr))
    · cases List.mem_singleton.mp hy
      exact Or.inl ⟨t, Function.update_self _ _ w.phase⟩

theorem Kept.effect {S : Prop} {v : Values T} {f f' : Phase T} (h : Kept place w)
    (hf : w.phase t = f) (he : Effect S t w.values f v f' es) :
    ∃ place', Kept place'
      { w with values := v, phase := Function.update w.phase t f', log := w.log ++ es } := by
  cases he with
  | quiet phase tail =>
    refine ⟨place, h.free hf ?_ rfl rfl rfl nofun⟩
    rcases phase with rfl | ⟨rfl, rfl⟩
    · exact Or.inl rfl
    · exact Or.inr ⟨trivial, trivial⟩
  | see tags => exact ⟨place, h.free hf (Or.inr ⟨trivial, trivial⟩) rfl rfl rfl nofun⟩
  | link last =>
    rw [List.append_nil]
    exact ⟨_, h.link hf⟩
  | swing tail lt => exact ⟨place, h.free hf (Or.inr ⟨trivial, trivial⟩) rfl rfl rfl nofun⟩
  | add => exact ⟨place, h.free hf (Or.inr ⟨trivial, trivial⟩) rfl rfl rfl (by simp)⟩
  | empty => exact ⟨place, h.free hf (Or.inr ⟨trivial, trivial⟩) rfl rfl rfl (by simp)⟩
  | take item lt => exact ⟨_, h.take hf item⟩
  | sub => exact h.sub hf

theorem Kept.move {S : Prop} {w' : View ι T} (h : Kept place w) (hm : Move S w w') :
    ∃ place', Kept place' w' := by
  cases hm with
  | emplace x idle => exact ⟨_, h.emplace idle x⟩
  | popFront idle =>
    exact ⟨place, h.free idle (Or.inr ⟨trivial, trivial⟩) rfl rfl rfl (by simp)⟩
  | effect he => exact h.effect rfl he

end

/-! ## The count -/

/-- The value is in the queue and not yet counted. -/
def Phase.adds : Phase T → Nat
  | .linked _ _ | .counted _ => 1
  | _ => 0

/-- The value has left the queue and is still counted. -/
def Phase.subs : Phase T → Nat
  | .held _ => 1
  | _ => 0

/-- `m_size` counts the values of the queue, up to the calls in progress in the threads `us`. -/
structure Counted (us : Finset ι) (w : View ι T) : Prop where
  idle : ∀ t ∉ us, w.phase t = .idle
  lt : w.values.size < Memory.sizes
  size : w.values.size + w.values.head + ∑ t ∈ us, (w.phase t).adds ≡
    w.values.items.length + ∑ t ∈ us, (w.phase t).subs [MOD Memory.sizes]

theorem counted_init : Counted ∅ (View.init : View ι T) :=
  ⟨fun _ _ => rfl, Nat.pow_pos (by omega), rfl⟩

theorem incr_lt {k : Nat} (h : k < Memory.sizes) : Memory.incr k < Memory.sizes := by
  unfold Memory.incr
  split
  · omega
  · omega

theorem decr_lt {k : Nat} (h : k < Memory.sizes) : Memory.decr k < Memory.sizes := by
  unfold Memory.decr
  split
  · omega
  · omega

theorem incr_modEq (k : Nat) : Memory.incr k ≡ k + 1 [MOD Memory.sizes] := by
  unfold Memory.incr
  split
  · next h =>
    rw [h]
    exact (Nat.mod_self _).symm
  · rfl

theorem decr_modEq {k : Nat} (h : k < Memory.sizes) :
    Memory.decr k + 1 ≡ k [MOD Memory.sizes] := by
  unfold Memory.decr
  split
  · next h0 =>
    rw [h0, Nat.sub_add_cancel (by omega)]
    exact Nat.mod_self _
  · rw [Nat.sub_add_cancel (by omega)]

variable {us : Finset ι}

theorem modEq_of_eq {n a b : Nat} (h : a = b) : a ≡ b [MOD n] := h ▸ .rfl

section

variable [DecidableEq ι]

/-- The thread `t` goes from `f` to `f'`. -/
theorem Counted.update {v : Values T} {f p : Phase T} {l : List (Event ι T)} (h : Counted us w)
    (ht : t ∈ us) (hf : w.phase t = f) (hlt : v.size < Memory.sizes)
    (hsize : v.size + (v.head + p.adds + f.subs + w.values.items.length) ≡
      w.values.size + (w.values.head + f.adds + p.subs + v.items.length) [MOD Memory.sizes]) :
    Counted us { w with values := v, phase := Function.update w.phase t p, log := l } := by
  refine ⟨fun u hu => ?_, hlt, ?_⟩
  · have hut : u ≠ t := by
      rintro rfl
      exact hu ht
    exact (Function.update_of_ne hut p w.phase).trans (h.idle u hu)
  · have hadds := sum_update ht w.phase p Phase.adds
    have hsubs := sum_update ht w.phase p Phase.subs
    rw [hf] at hadds hsubs
    refine Nat.ModEq.add_right_cancel' (f.adds + f.subs + w.values.items.length +
      ∑ u ∈ us, (w.phase u).subs) ?_
    have hleft := hsize.add_right (∑ u ∈ us, (w.phase u).adds + ∑ u ∈ us, (w.phase u).subs)
    have hright := h.size.add_right (f.adds + p.subs + v.items.length +
      ∑ u ∈ us, (w.phase u).subs)
    refine (modEq_of_eq ?_).trans
      (hleft.trans ((modEq_of_eq ?_).trans (hright.trans (modEq_of_eq ?_))))
    · show v.size + v.head + ∑ u ∈ us, (Function.update w.phase t p u).adds + _ = _
      omega
    · omega
    · show _ = v.items.length + ∑ u ∈ us, (Function.update w.phase t p u).subs + _
      omega

theorem Counted.effect {S : Prop} {v : Values T} {f f' : Phase T} {l : List (Event ι T)}
    (h : Counted us w) (ht : t ∈ us) (hf : w.phase t = f)
    (he : Effect S t w.values f v f' es) :
    Counted us { w with values := v, phase := Function.update w.phase t f', log := l } := by
  cases he with
  | quiet phase tail =>
    refine h.update ht hf h.lt ?_
    rcases phase with rfl | ⟨rfl, rfl⟩
    · exact modEq_of_eq (by simp only [Nat.add_right_comm])
    · rfl
  | see tags => exact h.update ht hf h.lt rfl
  | link last =>
    refine h.update ht hf h.lt (modEq_of_eq ?_)
    simp only [Phase.adds, Phase.subs, List.length_append, List.length_singleton]
    omega
  | swing tail lt => exact h.update ht hf h.lt rfl
  | add =>
    refine h.update ht hf (incr_lt h.lt) ?_
    refine ((incr_modEq w.values.size).add_right _).trans (modEq_of_eq ?_)
    simp only [Phase.adds, Phase.subs]
    omega
  | empty => exact h.update ht hf h.lt rfl
  | take item lt =>
    refine h.update ht hf h.lt (modEq_of_eq ?_)
    simp only [Phase.adds, Phase.subs]
  | sub =>
    refine h.update ht hf (decr_lt h.lt) ?_
    refine (modEq_of_eq ?_).trans ((decr_modEq h.lt).add_right _)
    simp only [Phase.adds, Phase.subs]
    omega

theorem Counted.insert (h : Counted us w) (t : ι) : Counted (insert t us) w := by
  refine ⟨fun u hu => h.idle u fun hmem => hu (Finset.mem_insert_of_mem hmem), h.lt, ?_⟩
  by_cases ht : t ∈ us
  · rw [Finset.insert_eq_of_mem ht]
    exact h.size
  · rw [Finset.sum_insert ht, Finset.sum_insert ht, h.idle t ht]
    simpa [Phase.adds, Phase.subs] using h.size

theorem Counted.move {S : Prop} {w' : View ι T} (h : Counted us w) (hm : Move S w w') :
    ∃ us', Counted us' w' := by
  cases hm with
  | @emplace t x idle =>
    have hnext := (h.insert t).update (p := .pending (w.calls, x)) (v := w.values)
      (l := w.log ++ [.emplace (w.calls, x)]) (Finset.mem_insert_self t us) idle h.lt rfl
    exact ⟨_, hnext.idle, hnext.lt, hnext.size⟩
  | @popFront t idle =>
    exact ⟨_, (h.insert t).update (Finset.mem_insert_self t us) idle h.lt rfl⟩
  | @effect t v f es he =>
    exact ⟨_, (h.insert t).effect (Finset.mem_insert_self t us) rfl he⟩

end

/-! ## Runs -/

/-- Between the calls. -/
theorem Whole.left {g : Ghost ι T} {s : State ι T} (h : Whole g s) (hk : Kept place (view g s))
    (hc : Counted us (view g s)) (hidle : ∀ t, s.pc t = .idle) :
    ∃ l : List (Item T), s.mem.Contents (l.map some) ∧ l.Nodup ∧
      (∀ x, x ∈ l ↔ .emplace x ∈ s.log ∧ some x ∉ returned s.log) ∧ s.mem.m_size = l.length := by
  have hphase : ∀ t, (view g s).phase t = .idle := fun t => congrArg Pc.phase (hidle t)
  have hget : ∀ {j : Nat}, (g.items.drop s.mem.m_head.tag)[j]? =
      g.items[s.mem.m_head.tag + j]? := fun {j} => by rw [List.getElem?_drop]
  refine ⟨g.items.drop s.mem.m_head.tag, h.chain.contents, ?_, fun x => ⟨fun hx => ?_, fun hx => ?_⟩,
    ?_⟩
  · refine List.nodup_iff_getElem?_ne_getElem?.mpr fun i j hij hj heq => ?_
    have hx := List.getElem?_eq_getElem hj
    have hx' := heq.trans hx
    rw [hget] at hx hx'
    have hsame := hk.once _ _ _ _ (Nat.le_add_right _ i) (Nat.le_add_right _ j) hx' hx rfl
    have hij' : s.mem.m_head.tag + i = s.mem.m_head.tag + j := hsame
    omega
  · obtain ⟨j, hj⟩ := List.mem_iff_getElem?.mp hx
    rw [hget] at hj
    obtain ⟨hp, hl⟩ := hk.queued _ x (Nat.le_add_right _ j) hj
    refine ⟨hl, fun hr => ?_⟩
    obtain ⟨y, hy, hpy, -⟩ := hk.out _ hr
    cases hy
    rw [hp] at hpy
    cases hpy
  · obtain ⟨hl, hr⟩ := hx
    rcases hk.somewhere x hl with ⟨u, hu⟩ | ⟨j, hj, hx⟩ | ⟨u, hu⟩ | hret
    · rw [hphase u] at hu
      cases hu
    · have hj' : s.mem.m_head.tag ≤ j := hj
      refine List.mem_of_getElem? (i := j - s.mem.m_head.tag) ?_
      rw [hget, Nat.add_sub_cancel' hj']
      exact hx
    · rw [hphase u] at hu
      cases hu
    · exact absurd hret hr
  · have hadds : ∑ t ∈ us, ((view g s).phase t).adds = 0 :=
      Finset.sum_eq_zero fun t _ => by rw [hphase t]; rfl
    have hsubs : ∑ t ∈ us, ((view g s).phase t).subs = 0 :=
      Finset.sum_eq_zero fun t _ => by rw [hphase t]; rfl
    have hsize := hc.size
    have hle : s.mem.m_head.tag ≤ g.items.length := hk.head_le
    have hlt : g.items.length < s.mem.m_head.tag + Memory.sizes := h.chain.items_lt
    have hlen : (view g s).values.items.length =
        g.items.length - s.mem.m_head.tag + (view g s).values.head := (Nat.sub_add_cancel hle).symm
    rw [hadds, hsubs, hlen] at hsize
    rw [List.length_drop]
    exact Nat.ModEq.eq_of_lt_of_lt (Nat.ModEq.add_right_cancel' _ hsize) hc.lt (by omega)

variable [DecidableEq ι]

/-- **In every run** in which a node is only linked behind a node of the queue, each value is
returned at most once, and none is lost. -/
theorem guarded_conserved (poolSize : UInt64) {as : List (Act ι T)} {s : State ι T}
    (h : Guarded step Attached (init poolSize.toNat) as s) : Conserved s := by
  obtain ⟨g, hwhole, ⟨place, hkept⟩, us, hcounted⟩ := guarded_view (S := False)
    (I := fun w => (∃ place, Kept place w) ∧ ∃ us, Counted us w)
    (Nat.le_of_lt poolSize.toNat_lt) (fun g s a _ ha => ⟨ha, False.elim⟩)
    ⟨⟨_, kept_init⟩, _, counted_init⟩
    (fun w w' ⟨⟨_, hk⟩, _, hc⟩ hm => ⟨hk.move hm, hc.move hm⟩) h
  refine ⟨hkept.nodup, fun ret hr => ?_, fun hidle => ?_⟩
  · obtain ⟨x, hx, -, hl⟩ := hkept.out ret hr
    exact ⟨x, hx, hl⟩
  · exact hwhole.left hkept hcounted hidle

theorem guarded_conserved_two : ∃ s, run step (init 0) twoThreads = some s ∧
    (s.mem.m_head, s.mem.m_pool.fresh) = (⟨some 2, 2⟩, 3) ∧ Conserved s := by
  obtain ⟨s, hs, hnodes⟩ := exists_twoThreads
  exact ⟨s, hs.run_eq, hnodes, guarded_conserved 0 (guarded_attached (Nat.zero_le _) hs)⟩

/-- The value that has been linked behind a free node is not in the queue. -/
theorem not_conserved : ∃ s, run step (init 0) strayLink = some s ∧ ¬ Conserved s := by
  refine ⟨_, rfl, fun h => ?_⟩
  obtain ⟨l, ⟨a, ha, hl⟩, -, hmem, -⟩ := h.left fun t => by cases t <;> rfl
  cases ha
  -- the first node of the queue is its last
  have hnil : l = [] := List.map_eq_nil_iff.mp (reads_none hl)
  have hx : ((0, 7) : Item Nat) ∈ l := (hmem (0, 7)).mpr ⟨List.mem_cons_self, by decide⟩
  rw [hnil] at hx
  cases hx

end Wish.Lockfree
