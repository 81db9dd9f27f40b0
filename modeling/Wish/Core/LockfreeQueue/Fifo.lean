import Wish.Core.LockfreeQueue.Refinement

/-!
# The order of the values

`Fifo log`: a value whose `emplace` returned before another `emplace` was called leaves the
queue before the other value, and `pop_front` returns `false` only when the queue has been empty
at some instant of the call, as far as the calls that had returned can tell. A value leaves the
queue when `m_head` goes on to its node.

`guarded_fifo`: this holds in every run in which a node is only ever linked while `m_tail` is
where it was loaded. `not_fifo` is a run of two threads in which it is not: one of them links its
node behind a node that has been popped and is on the free list.
-/

namespace Wish.Lockfree

open Machine

variable {ι T : Type}

/-- In the log `a` comes before `b`. -/
def Precedes {α : Type} (l : List α) (a b : α) : Prop := ∃ l₁ l₂, l = l₁ ++ l₂ ∧ a ∈ l₁ ∧ b ∈ l₂

/-- The thread has called `pop_front`, and not once more. -/
def InCall (t : ι) (l : List (Event ι T)) : Prop :=
  ∃ l₁ l₂, l = l₁ ++ .popFront t :: l₂ ∧ .popFront t ∉ l₂

/-- Since the last call of `pop_front` there was an instant when every value whose `emplace` had
returned had left the queue. -/
def WasEmpty (t : ι) (l : List (Event ι T)) : Prop :=
  ∃ l₁ l₂ l₃, l = (l₁ ++ .popFront t :: l₂) ++ l₃ ∧ .popFront t ∉ l₂ ++ l₃ ∧
    ∀ x, .emplaced x ∈ l₁ ++ .popFront t :: l₂ → .take (some x) ∈ l₁ ++ .popFront t :: l₂

structure Fifo (log : List (Event ι T)) : Prop where
  order : ∀ l x y, l ++ [.take (some y)] <+: log → Precedes l (.emplaced x) (.emplace y) →
    .take (some x) ∈ l
  empty : ∀ l t, l ++ [.empty t] <+: log → WasEmpty t l

/-! ## Logs -/

variable {t : ι} {l es : List (Event ι T)} {e : Event ι T}

theorem Precedes.mem {α : Type} {l : List α} {a b : α} (h : Precedes l a b) : a ∈ l := by
  obtain ⟨l₁, l₂, rfl, ha, -⟩ := h
  exact List.mem_append_left l₂ ha

theorem precedes_concat {α : Type} {l : List α} {a b e : α} (h : Precedes (l ++ [e]) a b) :
    Precedes l a b ∨ b = e ∧ a ∈ l := by
  obtain ⟨l₁, l₂, hl, ha, hb⟩ := h
  cases l₂ using List.reverseRecOn with
  | nil => cases hb
  | append_singleton l₂ c =>
    rw [← List.append_assoc] at hl
    obtain ⟨rfl, hc⟩ := List.append_inj' hl rfl
    cases hc
    rcases List.mem_append.mp hb with hb | hb
    · exact Or.inl ⟨l₁, l₂, rfl, ha, hb⟩
    · exact Or.inr ⟨List.mem_singleton.mp hb, List.mem_append_left l₂ ha⟩

theorem InCall.append (h : InCall t l) (he : .popFront t ∉ es) : InCall t (l ++ es) := by
  obtain ⟨l₁, l₂, rfl, hno⟩ := h
  refine ⟨l₁, l₂ ++ es, by simp, fun hmem => ?_⟩
  rcases List.mem_append.mp hmem with hmem | hmem
  · exact hno hmem
  · exact he hmem

theorem WasEmpty.append (h : WasEmpty t l) (he : .popFront t ∉ es) : WasEmpty t (l ++ es) := by
  obtain ⟨l₁, l₂, l₃, rfl, hno, hall⟩ := h
  refine ⟨l₁, l₂, l₃ ++ es, by simp, fun hmem => ?_, hall⟩
  rw [← List.append_assoc] at hmem
  rcases List.mem_append.mp hmem with hmem | hmem
  · exact hno hmem
  · exact he hmem

theorem WasEmpty.inCall (h : WasEmpty t l) : InCall t l := by
  obtain ⟨l₁, l₂, l₃, rfl, hno, -⟩ := h
  exact ⟨l₁, l₂ ++ l₃, by simp, hno⟩

theorem InCall.wasEmpty (h : InCall t l) (hall : ∀ x, .emplaced x ∈ l → .take (some x) ∈ l) :
    WasEmpty t l := by
  obtain ⟨l₁, l₂, rfl, hno⟩ := h
  exact ⟨l₁, l₂, [], by simp, by simpa using hno, hall⟩

/-- When the call has just begun, the instant is now. -/
theorem WasEmpty.take_mem (h : WasEmpty t (l ++ [.popFront t])) (hno : .popFront t ∉ l)
    {x : Item T} (hx : .emplaced x ∈ l) : .take (some x) ∈ l := by
  obtain ⟨l₁, l₂, l₃, heq, -, hall⟩ := h
  have hprefix : l₁ ++ .popFront t :: l₂ <+: l ++ [.popFront t] := ⟨l₃, heq.symm⟩
  rcases List.prefix_concat_iff.mp hprefix with hl | hl
  · rw [hl] at hall
    rcases List.mem_append.mp (hall x (List.mem_append_left _ hx)) with hmem | hmem
    · exact hmem
    · cases List.mem_singleton.mp hmem
  · exact absurd (hl.subset (List.mem_append_right _ List.mem_cons_self)) hno

theorem Fifo.concat (h : Fifo l)
    (horder : ∀ x y, e = .take (some y) → Precedes l (.emplaced x) (.emplace y) →
      .take (some x) ∈ l)
    (hempty : ∀ t, e = .empty t → WasEmpty t l) : Fifo (l ++ [e]) := by
  refine ⟨fun l' x y hp hxy => ?_, fun l' t hp => ?_⟩
  · rcases List.prefix_concat_iff.mp hp with heq | hp
    · obtain ⟨rfl, he⟩ := List.append_inj' heq rfl
      cases he
      exact horder x y rfl hxy
    · exact h.order l' x y hp hxy
  · rcases List.prefix_concat_iff.mp hp with heq | hp
    · obtain ⟨rfl, he⟩ := List.append_inj' heq rfl
      cases he
      exact hempty t rfl
    · exact h.empty l' t hp

/-! ## The invariant -/

/-- What the log says of the thread `t` in a phase. -/
def Told (w : View ι T) (t : ι) : Phase T → Prop
  | .pending x => x.1 < w.calls
  | .linked x k => w.values.items[k]? = some x
  | .counted x => ∃ j < w.values.tail, w.values.items[j]? = some x
  | .looking => InCall t w.log
  | .empty => WasEmpty t w.log
  | .idle | .held _ => True

structure Ordered (w : View ι T) : Prop where
  told : ∀ t, Told w t (w.phase t)
  ids : ∀ x ∈ w.values.items, x.1 < w.calls
  head_le : w.values.head ≤ w.values.items.length
  taken : ∀ j x, j < w.values.head → w.values.items[j]? = some x → .take (some x) ∈ w.log
  returned : ∀ x, .emplaced x ∈ w.log → ∃ j < w.values.tail, w.values.items[j]? = some x
  order : ∀ x y (j : Nat), Precedes w.log (.emplaced x) (.emplace y) →
    w.values.items[j]? = some y → ∃ i < j, w.values.items[i]? = some x
  fifo : Fifo w.log

theorem ordered_init : Ordered (View.init : View ι T) := by
  refine ⟨fun _ => trivial, nofun, Nat.le_refl _, nofun, nofun, fun x y j hp => ?_, ?_⟩
  · cases hp.mem
  · refine ⟨fun l x y hp => ?_, fun l t hp => ?_⟩
    · exact absurd hp.length_le (by simp [View.init])
    · exact absurd hp.length_le (by simp [View.init])

theorem Told.mono {w w' : View ι T} {f : Phase T} (h : Told w t f)
    (hitems : w.values.items <+: w'.values.items) (htail : w.values.tail ≤ w'.values.tail)
    (hcalls : w.calls ≤ w'.calls) (hlog : w'.log = w.log ++ es) (hes : .popFront t ∉ es) :
    Told w' t f := by
  cases f with
  | idle => trivial
  | pending x => exact Nat.lt_of_lt_of_le h hcalls
  | linked x k => exact getElem?_of_prefix hitems h
  | counted x =>
    obtain ⟨j, hj, hx⟩ := h
    exact ⟨j, Nat.lt_of_lt_of_le hj htail, getElem?_of_prefix hitems hx⟩
  | looking =>
    rw [Told, hlog]
    exact InCall.append h hes
  | empty =>
    rw [Told, hlog]
    exact WasEmpty.append h hes
  | held ret => trivial

theorem not_popFront_of_effect {S : Prop} {v v' : Values T} {f f' : Phase T} {u : ι}
    (h : Effect S t v f v' f' es) : .popFront u ∉ es := by
  cases h with
  | quiet _ _ | see _ | link _ | swing _ _ => exact List.not_mem_nil
  | add | empty | take _ _ | sub =>
    intro hmem
    cases List.mem_singleton.mp hmem

theorem precedes_of_effect {S : Prop} {v v' : Values T} {f f' : Phase T} {x y : Item T}
    (h : Effect S t v f v' f' es) (hp : Precedes (l ++ es) (.emplaced x) (.emplace y)) :
    Precedes l (.emplaced x) (.emplace y) := by
  cases h with
  | quiet _ _ | see _ | link _ | swing _ _ =>
    rw [List.append_nil] at hp
    exact hp
  | add | empty | take _ _ | sub =>
    rcases precedes_concat hp with hp | ⟨he, -⟩
    · exact hp
    · cases he

variable [DecidableEq ι] {w : View ι T}

theorem Ordered.told_effect {v : Values T} {f f' : Phase T} (h : Ordered w)
    (he : Effect True t w.values f v f' es) (hitems : w.values.items <+: v.items)
    (htail : w.values.tail ≤ v.tail)
    (hf : Told { w with values := v, phase := Function.update w.phase t f', log := w.log ++ es }
      t f') (u : ι) :
    Told { w with values := v, phase := Function.update w.phase t f', log := w.log ++ es } u
      (Function.update w.phase t f' u) := by
  by_cases hu : u = t
  · subst hu
    rw [Function.update_self]
    exact hf
  · rw [Function.update_of_ne hu]
    exact (h.told u).mono hitems htail (Nat.le_refl _) rfl (not_popFront_of_effect he)

omit [DecidableEq ι] in
/-- An event that is no return of `emplace` brings nothing back. -/
theorem Ordered.returned_concat (h : Ordered w) {e : Event ι T} {x : Item T}
    (hx : .emplaced x ∈ w.log ++ [e]) (he : ∀ x, e ≠ .emplaced x) :
    ∃ j < w.values.tail, w.values.items[j]? = some x := by
  rcases List.mem_append.mp hx with hx | hx
  · exact h.returned x hx
  · exact absurd (List.mem_singleton.mp hx).symm (he x)

theorem Ordered.effect {v : Values T} {f f' : Phase T} (h : Ordered w) (hf : w.phase t = f)
    (he : Effect True t w.values f v f' es) :
    Ordered { w with values := v, phase := Function.update w.phase t f', log := w.log ++ es } := by
  have htold : Told w t f := hf ▸ h.told t
  have hprec : ∀ {x y}, Precedes (w.log ++ es) (.emplaced x) (.emplace y) →
      Precedes w.log (.emplaced x) (.emplace y) := precedes_of_effect he
  have hlog := h.told_effect he
  cases he with
  | quiet phase tail =>
    rw [List.append_nil] at hlog ⊢
    refine ⟨hlog (List.prefix_refl _) tail ?_, h.ids, h.head_le, h.taken, fun x hx => ?_, h.order,
      h.fifo⟩
    · rcases phase with rfl | ⟨rfl, rfl⟩
      · exact htold.mono (List.prefix_refl _) tail (Nat.le_refl _) (List.append_nil _).symm
          List.not_mem_nil
      · exact WasEmpty.inCall htold
    · obtain ⟨j, hj, hget⟩ := h.returned x hx
      exact ⟨j, Nat.lt_of_lt_of_le hj tail, hget⟩
  | see tags =>
    rw [List.append_nil] at hlog ⊢
    refine ⟨hlog (List.prefix_refl _) (Nat.le_refl _) ?_, h.ids, h.head_le, h.taken, h.returned,
      h.order, h.fifo⟩
    refine InCall.wasEmpty htold fun x hx => ?_
    obtain ⟨j, hj, hget⟩ := h.returned x hx
    exact h.taken j x (by omega) hget
  | @link x k last =>
    rw [List.append_nil] at hlog ⊢
    have hpre : w.values.items <+: w.values.items ++ [x] := List.prefix_append _ _
    have hlast := last trivial
    have hhead := h.head_le
    refine ⟨hlog hpre (Nat.le_refl _) ?_, fun y hy => ?_, ?_, fun j y hj hy => ?_, fun y hy => ?_,
      fun y z j hp hz => ?_, h.fifo⟩
    · show (w.values.items ++ [x])[k]? = some x
      rw [hlast, List.getElem?_concat_length]
    · rcases List.mem_append.mp hy with hy | hy
      · exact h.ids y hy
      · rw [List.mem_singleton.mp hy]
        exact htold
    · show w.values.head ≤ (w.values.items ++ [x]).length
      rw [List.length_append]
      omega
    · rcases eq_or_of_getElem?_concat hy with hy | ⟨hj', -⟩
      · exact h.taken j y hj hy
      · have hj'' : j < w.values.head := hj
        omega
    · obtain ⟨j, hj, hget⟩ := h.returned y hy
      exact ⟨j, hj, getElem?_of_prefix hpre hget⟩
    · rcases eq_or_of_getElem?_concat hz with hz | ⟨rfl, -⟩
      · obtain ⟨i, hi, hget⟩ := h.order y z j hp hz
        exact ⟨i, hi, getElem?_of_prefix hpre hget⟩
      · -- what has returned is in the queue already
        obtain ⟨i, -, hget⟩ := h.returned y hp.mem
        exact ⟨i, (List.getElem?_eq_some_iff.mp hget).1, getElem?_of_prefix hpre hget⟩
  | @swing x k k' tail lt =>
    rw [List.append_nil] at hlog ⊢
    refine ⟨hlog (List.prefix_refl _) tail ⟨k, lt, htold⟩, h.ids, h.head_le, h.taken,
      fun y hy => ?_, h.order, h.fifo⟩
    obtain ⟨j, hj, hget⟩ := h.returned y hy
    exact ⟨j, Nat.lt_of_lt_of_le hj tail, hget⟩
  | @add x =>
    refine ⟨hlog (List.prefix_refl _) (Nat.le_refl _) trivial, h.ids, h.head_le,
      fun j y hj hy => List.mem_append_left _ (h.taken j y hj hy), fun y hy => ?_,
      fun y z j hp => h.order y z j (hprec hp), h.fifo.concat nofun nofun⟩
    rcases List.mem_append.mp hy with hy | hy
    · exact h.returned y hy
    · cases List.mem_singleton.mp hy
      exact htold
  | empty =>
    refine ⟨hlog (List.prefix_refl _) (Nat.le_refl _) trivial, h.ids, h.head_le,
      fun j y hj hy => List.mem_append_left _ (h.taken j y hj hy),
      fun y hy => h.returned_concat hy nofun,
      fun y z j hp => h.order y z j (hprec hp), h.fifo.concat nofun fun u hu => ?_⟩
    cases hu
    exact htold
  | @take x item lt =>
    refine ⟨hlog (List.prefix_refl _) (Nat.le_refl _) trivial, h.ids,
      (List.getElem?_eq_some_iff.mp item).1, fun j y hj hy => ?_,
      fun y hy => h.returned_concat hy nofun,
      fun y z j hp => h.order y z j (hprec hp), h.fifo.concat (fun y z hz hp => ?_) nofun⟩
    · rcases Nat.lt_or_eq_of_le (Nat.lt_succ_iff.mp hj) with hj | rfl
      · exact List.mem_append_left _ (h.taken j y hj hy)
      · cases item.symm.trans hy
        exact List.mem_append_right _ (List.mem_singleton.mpr rfl)
    · obtain rfl : x = z := by
        cases hz
        rfl
      obtain ⟨i, hi, hget⟩ := h.order y x _ hp item
      exact h.taken i y hi hget
  | sub =>
    exact ⟨hlog (List.prefix_refl _) (Nat.le_refl _) trivial, h.ids, h.head_le,
      fun j y hj hy => List.mem_append_left _ (h.taken j y hj hy),
      fun y hy => h.returned_concat hy nofun,
      fun y z j hp => h.order y z j (hprec hp), h.fifo.concat nofun nofun⟩

theorem Ordered.move {w' : View ι T} (h : Ordered w) (hm : Move True w w') : Ordered w' := by
  cases hm with
  | @emplace t x idle =>
    refine ⟨fun u => ?_, fun y hy => Nat.lt_succ_of_lt (h.ids y hy), h.head_le,
      fun j y hj hy => List.mem_append_left _ (h.taken j y hj hy),
      fun y hy => h.returned_concat hy nofun, fun y z j hp hz => ?_, h.fifo.concat nofun nofun⟩
    · show Told _ u (Function.update w.phase t _ u)
      by_cases hu : u = t
      · subst hu
        rw [Function.update_self]
        exact Nat.lt_succ_self _
      · rw [Function.update_of_ne hu]
        refine (h.told u).mono (List.prefix_refl _) (Nat.le_refl _) (Nat.le_succ _) rfl ?_
        intro hmem
        cases List.mem_singleton.mp hmem
    · rcases precedes_concat hp with hp | ⟨he, -⟩
      · exact h.order y z j hp hz
      · cases he
        exact absurd (h.ids _ (List.mem_of_getElem? hz)) (Nat.lt_irrefl _)
  | @popFront t idle =>
    refine ⟨fun u => ?_, h.ids, h.head_le,
      fun j y hj hy => List.mem_append_left _ (h.taken j y hj hy),
      fun y hy => h.returned_concat hy nofun, fun y z j hp hz => ?_, h.fifo.concat nofun nofun⟩
    · show Told _ u (Function.update w.phase t _ u)
      by_cases hu : u = t
      · subst hu
        rw [Function.update_self]
        exact ⟨w.log, [], rfl, List.not_mem_nil⟩
      · rw [Function.update_of_ne hu]
        refine (h.told u).mono (List.prefix_refl _) (Nat.le_refl _) (Nat.le_refl _) rfl ?_
        intro hmem
        cases List.mem_singleton.mp hmem
        exact hu rfl
    · rcases precedes_concat hp with hp | ⟨he, -⟩
      · exact h.order y z j hp hz
      · cases he
  | effect he => exact h.effect rfl he

/-! ## Runs -/

/-- **In every run** in which a node is only linked while `m_tail` is where it was loaded, the
queue is first in, first out. -/
theorem guarded_fifo (poolSize : UInt64) {as : List (Act ι T)} {s : State ι T}
    (h : Guarded step Rechecked (init poolSize.toNat) as s) : Fifo s.log := by
  obtain ⟨g, -, hordered⟩ := guarded_view (S := True) (I := Ordered)
    (Nat.le_of_lt poolSize.toNat_lt) (fun g s a hg hr => ⟨hg.attached hr, fun _ => hr⟩)
    ordered_init (fun w w' hw hm => hw.move hm) h
  exact hordered.fifo

/-- Both threads have loaded `m_tail`; one links its node, the other one fails, helps and links behind
it. Then one takes a value, the other one brings a third value in the node that has been the dummy,
and the first one takes the second value. -/
def twoThreads : List (Act Bool Nat) :=
  [.emplace false 7] ++ .replicate 5 (.next false) ++ [.emplace true 8] ++
    .replicate 5 (.next true) ++ [.next false, .next true, .next false] ++
    .replicate 4 (.next true) ++ .replicate 2 (.next false) ++ .replicate 5 (.next true) ++
    [.popFront false] ++ .replicate 9 (.next false) ++ [.emplace true 9] ++
    .replicate 10 (.next true) ++ [.popFront false] ++ .replicate 9 (.next false)

/-- Three values have been brought, in two nodes and the dummy. -/
theorem exists_twoThreads : ∃ s, Guarded step Rechecked (init 0) twoThreads s ∧
    (s.mem.m_head, s.mem.m_pool.fresh) = (⟨some 2, 2⟩, 3) :=
  exists_guarded (by decide +kernel)

theorem guarded_fifo_two : ∃ s, run step (init 0) twoThreads = some s ∧
    (s.mem.m_head, s.mem.m_pool.fresh) = (⟨some 2, 2⟩, 3) ∧ Fifo s.log := by
  obtain ⟨s, hs, hnodes⟩ := exists_twoThreads
  exact ⟨s, hs.run_eq, hnodes, guarded_fifo 0 hs⟩

/-- The free list is empty. One thread has loaded `m_tail` when another one brings a value and
takes it; the node that was the dummy goes to the free list, and there the first thread links
its own node behind it. Its value has been brought and is never found. -/
def strayLink : List (Act Bool Nat) :=
  [.emplace false 7] ++ .replicate 5 (.next false) ++ [.emplace true 8] ++
    .replicate 9 (.next true) ++ [.popFront true] ++ .replicate 9 (.next true) ++
    .replicate 4 (.next false) ++ [.popFront false] ++ .replicate 3 (.next false)

theorem not_fifo : ∃ s, run step (init 0) strayLink = some s ∧ ¬ Fifo s.log := by
  refine ⟨_, rfl, fun h => ?_⟩
  have hempty : WasEmpty false ([.emplace (0, 7), .emplace (1, 8), .emplaced (1, 8),
      .popFront true, .take (some (1, 8)), .popped (some (1, 8)), .emplaced (0, 7)] ++
      [.popFront false]) := h.empty _ false ⟨[], rfl⟩
  have hmem := hempty.take_mem (x := (0, 7)) (by simp) (by simp)
  simp at hmem

end Wish.Lockfree
