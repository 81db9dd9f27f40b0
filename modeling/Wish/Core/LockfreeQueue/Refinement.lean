import Wish.Core.LockfreeQueue.Effect

/-!
# The queue that the threads see

`View` is the abstract queue: the values that have come into it, two counters, the phase of each
thread and the log; `Move` are its steps. `Whole.step` shows that the program refines it: a
step that keeps to the queue (`Attached`) is a move. `guarded_view` carries an invariant of the
abstract queue over to every run of the program.
-/

namespace Wish.Lockfree

open Heap (Addr)
open Machine

variable {ι T : Type}

structure View (ι T : Type) where
  values : Values T
  phase : ι → Phase T
  calls : Nat
  log : List (Event ι T)

def View.init : View ι T := ⟨⟨[], 0, 0, 0⟩, fun _ => .idle, 0, []⟩

section

variable [DecidableEq ι]

/-- One move of the abstract queue. -/
inductive Move (S : Prop) (w : View ι T) : View ι T → Prop
  | emplace {t : ι} (x : T) (idle : w.phase t = .idle) :
      Move S w
        { w with
          phase := Function.update w.phase t (.pending (w.calls, x))
          calls := w.calls + 1
          log := w.log ++ [.emplace (w.calls, x)] }
  | popFront {t : ι} (idle : w.phase t = .idle) :
      Move S w
        { w with
          phase := Function.update w.phase t .looking
          log := w.log ++ [.popFront t] }
  | effect {t : ι} {v : Values T} {f : Phase T} {es : List (Event ι T)}
      (h : Effect S t w.values (w.phase t) v f es) :
      Move S w
        { w with values := v, phase := Function.update w.phase t f, log := w.log ++ es }

end

def view (g : Ghost ι T) (s : State ι T) : View ι T :=
  ⟨values g s.mem, fun t => (s.pc t).phase, s.calls, s.log⟩

/-- The chain, and what every thread knows of it. -/
structure Whole (g : Ghost ι T) (s : State ι T) : Prop where
  chain : Chain g s.mem
  known : ∀ t, Known g s.mem t (s.pc t)

/-- Every `compare_exchange` on `tail->next` that succeeds is on a node of the queue. -/
def Attached (s : State ι T) : Act ι T → Prop
  | .next t => (s.pc t).Attached s.mem
  | _ => True

/-- Every `compare_exchange` on `tail->next` that succeeds finds `m_tail` where it was loaded. -/
def Rechecked (s : State ι T) : Act ι T → Prop
  | .next t => (s.pc t).Rechecked s.mem
  | _ => True

instance (s : State ι T) (a : Act ι T) : Decidable (Rechecked s a) :=
  match a with
  | .next t => inferInstanceAs (Decidable ((s.pc t).Rechecked s.mem))
  | .emplace _ _ | .popFront _ | .fail _ => inferInstanceAs (Decidable True)

variable {g g' : Ghost ι T} {s s' : State ι T} {a : Act ι T} {S S' : Prop}

/-- `m_tail` points to a node of the queue. -/
theorem Whole.attached (h : Whole g s) (hr : Rechecked s a) : Attached s a := by
  cases a with
  | next t =>
    have hr' : (s.pc t).Rechecked s.mem := hr
    show (s.pc t).Attached s.mem
    cases hpc : s.pc t with
    | link x n tail next =>
      rw [hpc] at hr'
      intro b hb heq
      obtain ⟨c, hc, hget⟩ := h.chain.tail
      rw [hr' b hb heq, hb] at hc
      cases hc
      exact h.chain.inQueue h.chain.head_le hget
    | _ => trivial
  | _ => trivial

section

variable [DecidableEq ι]

theorem view_update (g : Ghost ι T) (m : Memory T) (pc : ι → Pc T) (t : ι) (p : Pc T) (n : Nat)
    (l : List (Event ι T)) :
    view g ⟨m, Function.update pc t p, n, l⟩ =
      ⟨values g m, Function.update (fun u => (pc u).phase) t p.phase, n, l⟩ := by
  rw [view, View.mk.injEq]
  refine ⟨rfl, funext fun u => ?_, rfl, rfl⟩
  by_cases h : u = t
  · subst h
    simp
  · simp [h]

/-- The thread `t` has moved on to `p`. -/
theorem Whole.update {t : ι} {p : Pc T} {m : Memory T} {n : Nat} {l : List (Event ι T)}
    (h : Whole g s) (hkeeps : Keeps t g s.mem g' m) (hp : Known g' m t p) :
    Whole g' ⟨m, Function.update s.pc t p, n, l⟩ := by
  refine ⟨hkeeps.chain, fun u => ?_⟩
  show Known g' m u (Function.update s.pc t p u)
  by_cases hu : u = t
  · subst hu
    rw [Function.update_self]
    exact hp
  · rw [Function.update_of_ne hu]
    exact (h.known u).rely (hkeeps.rely u hu)

/-- **Refinement.** A step of the program is a move of the abstract queue. -/
theorem Whole.step (h : Whole g s) (ha : Attached s a) (hs : step s a = some s') :
    ∃ g', Whole g' s' ∧ Move (Rechecked s a) (view g s) (view g' s') := by
  cases a with
  | emplace t v =>
    simp only [Lockfree.step] at hs
    split at hs
    · next hidle =>
      cases hs
      refine ⟨g, h.update (.refl h.chain) trivial, ?_⟩
      rw [view_update]
      exact .emplace v (congrArg Pc.phase hidle)
    · cases hs
  | popFront t =>
    simp only [Lockfree.step] at hs
    split at hs
    · next hidle =>
      cases hs
      refine ⟨g, h.update (.refl h.chain) trivial, ?_⟩
      rw [view_update]
      exact .popFront (congrArg Pc.phase hidle)
    · cases hs
  | next t =>
    simp only [Lockfree.step, Option.bind_eq_bind, Option.bind_eq_some_iff] at hs
    obtain ⟨⟨m, p, es⟩, hstep, hs⟩ := hs
    cases hs
    obtain ⟨g', hkeeps, hknown, heffect⟩ := h.chain.step (h.known t) ha hstep
    refine ⟨g', h.update hkeeps hknown, ?_⟩
    rw [view_update]
    exact .effect heffect
  | fail t =>
    simp only [Lockfree.step, Option.bind_eq_bind, Option.bind_eq_some_iff] at hs
    obtain ⟨p, hfail, hs⟩ := hs
    cases hs
    obtain ⟨hknown, hphase⟩ := h.chain.fail (h.known t) hfail
    refine ⟨g, h.update (.refl h.chain) hknown, ?_⟩
    have hmove : Move (Rechecked s (.fail t)) (view g s) _ := .effect (t := t) .still
    rw [List.append_nil] at hmove
    rw [view_update, hphase]
    exact hmove

end

/-! ## The constructor -/

/-- Only the dummy is in the queue. -/
def Ghost.dummy (a : Addr) (free : List Addr) : Ghost ι T :=
  ⟨[a], [], free, fun b => if b = a then .queue else if b ∈ free then .free else .nobody⟩

theorem chain_dummy {l : Freelist} {free : List Addr} {a : Addr} (hl : l.Linked free)
    (hnodup : (a :: free).Nodup) (hlt : ∀ b ∈ a :: free, b < l.fresh)
    (hle : l.fresh ≤ Freelist.addresses) :
    Chain (.dummy a free : Ghost ι T)
      ⟨l.setNext a ⟨none, 0⟩, ⟨some a, 0⟩, ⟨some a, 0⟩, 0, fun _ => none⟩ := by
  rw [List.nodup_cons] at hnodup
  have hsingle : ∀ {i : Nat} {b : Addr}, [a][i]? = some b → i = 0 ∧ b = a := by
    intro i b hb
    cases i with
    | zero => exact ⟨rfl, (Option.some.inj hb).symm⟩
    | succ i => cases hb
  refine ⟨⟨a, rfl, rfl⟩, ⟨a, rfl, rfl⟩, Nat.le_refl _, rfl, fun i b _ hb => ?_,
    fun i b _ hb => ?_, fun i j b _ _ hi hj => ?_, hl.setNext hnodup.1, hnodup.2,
    fun i b _ hb => ?_, fun b hb => ?_, fun b hb => ?_, hle⟩
  · obtain ⟨rfl, rfl⟩ := hsingle hb
    rw [Memory.next, Freelist.next_setNext_self]
    rfl
  · obtain ⟨hi, -⟩ := hsingle hb
    omega
  · rw [(hsingle hi).1, (hsingle hj).1]
  · obtain ⟨-, rfl⟩ := hsingle hb
    exact if_pos rfl
  · have hne : b ≠ a := by
      rintro rfl
      exact hnodup.1 hb
    exact (if_neg hne).trans (if_pos hb)
  · have hfresh : l.fresh ≤ b := hb
    have hne : b ≠ a := by
      rintro rfl
      exact Nat.not_lt.mpr hfresh (hlt b List.mem_cons_self)
    have hnf : b ∉ free := fun hmem =>
      Nat.not_lt.mpr hfresh (hlt b (List.mem_cons_of_mem a hmem))
    exact (if_neg hne).trans (if_neg hnf)

/-- The constructor builds an empty queue. -/
theorem exists_whole_init (poolSize : Nat) (h : poolSize ≤ Freelist.addresses) :
    ∃ g : Ghost ι T, Whole g (init poolSize) ∧ view g (init poolSize) = View.init := by
  cases poolSize with
  | zero =>
    have hl : (Freelist.fill 0).extend.Linked [] := (Freelist.linked_fill 0).extend (by simp)
    refine ⟨.dummy 0 [], ⟨chain_dummy hl (by simp) (fun b hb => ?_) ?_, fun t => trivial⟩, rfl⟩
    · obtain rfl := List.mem_singleton.mp hb
      exact Nat.zero_lt_one
    · show 1 ≤ Freelist.addresses
      rw [Freelist.addresses]
      omega
  | succ n =>
    have hfill := Freelist.linked_fill (n + 1)
    rw [List.range_succ, List.reverse_append, List.reverse_singleton, List.singleton_append] at hfill
    have hlt : ∀ b ∈ n :: (List.range n).reverse, b < n + 1 := by
      intro b hb
      simp only [List.mem_cons, List.mem_reverse, List.mem_range] at hb
      omega
    have hinit : (init (n + 1) : State ι T).mem =
        ⟨((Freelist.fill (n + 1)).setPool ⟨(List.range n).reverse.head?,
          (Freelist.fill (n + 1)).pool.tag + 1⟩).setNext n ⟨none, 0⟩, ⟨some n, 0⟩, ⟨some n, 0⟩, 0,
          fun _ => none⟩ := by
      rw [← hfill.links.1]
      rfl
    refine ⟨.dummy n (List.range n).reverse, ⟨?_, fun t => trivial⟩, ?_⟩
    · rw [hinit]
      refine chain_dummy hfill.pop (by simp [List.nodup_range]) ?_ ?_
      · show ∀ b ∈ _, b < (Freelist.fill (n + 1)).fresh
        rw [Freelist.fresh_fill]
        exact hlt
      · show (Freelist.fill (n + 1)).fresh ≤ _
        rw [Freelist.fresh_fill]
        exact h
    · rw [view, values, hinit]
      rfl

section

variable [DecidableEq ι]

theorem Move.imp {w w' : View ι T} (h : Move S w w') (hS : S' → S) : Move S' w w' := by
  cases h with
  | emplace x idle => exact .emplace x idle
  | popFront idle => exact .popFront idle
  | effect h => exact .effect (h.imp hS)

/-- An invariant of the abstract queue holds in every run whose steps are moves of it. -/
theorem guarded_view {C : State ι T → Act ι T → Prop} {I : View ι T → Prop} {poolSize : Nat}
    {as : List (Act ι T)} (hsize : poolSize ≤ Freelist.addresses)
    (hC : ∀ g s a, Whole g s → C s a → Attached s a ∧ (S → Rechecked s a)) (h0 : I View.init)
    (hI : ∀ w w', I w → Move S w w' → I w') (h : Guarded step C (init poolSize) as s) :
    ∃ g, Whole g s ∧ I (view g s) := by
  refine guarded_simulation (R := fun g s => Whole g s ∧ I (view g s)) ?_ ?_ h
  · obtain ⟨g, hg, hview⟩ := exists_whole_init (ι := ι) (T := T) poolSize hsize
    exact ⟨g, hg, hview ▸ h0⟩
  · intro g s a s' hR hc hs
    obtain ⟨hg, hi⟩ := hR
    obtain ⟨ha, hr⟩ := hC g s a hg hc
    obtain ⟨g', hg', hmove⟩ := hg.step ha hs
    exact ⟨g', hg', hI _ _ hi (hmove.imp hr)⟩

/-- Where `m_tail` is checked again, nodes are linked in the queue only. -/
theorem guarded_attached {poolSize : Nat} {as : List (Act ι T)}
    (hsize : poolSize ≤ Freelist.addresses) (h : Guarded step Rechecked (init poolSize) as s) :
    Guarded step Attached (init poolSize) as s := by
  induction h with
  | nil => exact .nil
  | snoc hrun cond next ih =>
    obtain ⟨g, hg, -⟩ := guarded_view (S := True) (I := fun _ => True) hsize
      (fun g s a hg hr => ⟨hg.attached hr, fun _ => hr⟩) trivial (fun _ _ _ _ => trivial) hrun
    exact .snoc ih (hg.attached cond) next

end

end Wish.Lockfree
