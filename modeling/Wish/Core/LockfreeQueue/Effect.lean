import Wish.Core.LockfreeQueue.Chain

/-!
# What a step does to the values

`Effect` lists what one step may do: to the values of the queue, to the positions of `m_head`
and `m_tail`, to `m_size` and to the log, depending on the phase its thread is in.

`Chain.step` is the one case analysis over the program: a step of a thread keeps the chain and
has one of the effects, unless it links its node behind a node that has left the queue
(`Pc.Attached`).
-/

namespace Wish.Lockfree

open Heap (Addr)

/-- How far a call has come. -/
inductive Phase (T : Type) where
  | idle
  /-- `emplace`, before the value is in the queue -/
  | pending (x : Item T)
  /-- the value is in the queue, behind the node at the position `k` -/
  | linked (x : Item T) (k : Nat)
  /-- `m_tail` has gone on -/
  | counted (x : Item T)
  /-- `pop_front`, before a value has left the queue -/
  | looking
  /-- `head == tail` -/
  | empty
  /-- the value has left the queue -/
  | held (ret : Option (Item T))

variable {ι T : Type}

def Pc.phase : Pc T → Phase T
  | .idle => .idle
  | .allocate x _ | .initNext x _ | .initData x _ | .loadTail x _ | .loadNext x _ _
  | .link x _ _ _ | .advance x _ _ _ => .pending x
  | .swing x tail _ => .linked x tail.tag
  | .addSize x => .counted x
  | .popHead | .popTail _ | .popAdvance _ _ | .popData _ _ | .popLink _ _ _ => .looking
  | .popNext head tail => if head = tail then .empty else .looking
  | .deallocate ret _ _ | .subSize ret => .held ret

theorem phase_popNext_self (p : TaggedPtr) : (Pc.popNext p p : Pc T).phase = .empty := if_pos rfl

theorem phase_popNext_of_ne {p q : TaggedPtr} (h : p ≠ q) :
    (Pc.popNext p q : Pc T).phase = .looking := if_neg h

/-- What the rest of the program sees of the memory. -/
structure Values (T : Type) where
  /-- every value that has come into the queue, in order -/
  items : List (Item T)
  /-- how many of them have left it -/
  head : Nat
  /-- how far `m_tail` has gone -/
  tail : Nat
  size : Nat

variable {g g' : Ghost ι T} {m m' : Memory T} {t : ι} {v : Values T} {S : Prop}

def values (g : Ghost ι T) (m : Memory T) : Values T :=
  ⟨g.items, m.m_head.tag, m.m_tail.tag, m.m_size⟩

/-- The effects of one step of the thread `t`. `S` is that `m_tail` has not moved since it was
loaded, when the node is linked. -/
inductive Effect (S : Prop) (t : ι) (v : Values T) :
    Phase T → Values T → Phase T → List (Event ι T) → Prop
  | quiet {f f' : Phase T} {k : Nat} (phase : f' = f ∨ f = .empty ∧ f' = .looking)
      (tail : v.tail ≤ k) : Effect S t v f { v with tail := k } f' []
  /-- `head == tail`, and both are where `m_head` and `m_tail` are -/
  | see (tags : v.head = v.tail) : Effect S t v .looking v .empty []
  | link {x : Item T} {k : Nat} (last : S → k = v.items.length) :
      Effect S t v (.pending x) { v with items := v.items ++ [x] } (.linked x k) []
  | swing {x : Item T} {k k' : Nat} (tail : v.tail ≤ k') (lt : k < k') :
      Effect S t v (.linked x k) { v with tail := k' } (.counted x) []
  | add {x : Item T} :
      Effect S t v (.counted x) { v with size := Memory.incr v.size } .idle [.emplaced x]
  | empty : Effect S t v .empty v .idle [.empty t]
  | take {x : Item T} (item : v.items[v.head]? = some x) (lt : v.head < v.tail) :
      Effect S t v .looking { v with head := v.head + 1 } (.held (some x)) [.take (some x)]
  | sub {ret : Option (Item T)} :
      Effect S t v (.held ret) { v with size := Memory.decr v.size } .idle [.popped ret]

theorem Effect.still {f : Phase T} : Effect S t v f v f [] :=
  .quiet (k := v.tail) (Or.inl rfl) (Nat.le_refl _)

theorem Effect.imp {S' : Prop} {v' : Values T} {f f' : Phase T} {es : List (Event ι T)}
    (h : Effect S t v f v' f' es) (hS : S' → S) : Effect S' t v f v' f' es := by
  cases h with
  | quiet phase tail => exact .quiet phase tail
  | see tags => exact .see tags
  | link last => exact .link fun hs => last (hS hs)
  | swing tail lt => exact .swing tail lt
  | add => exact .add
  | empty => exact .empty
  | take item lt => exact .take item lt
  | sub => exact .sub

theorem values_casTail (tail new_tail : TaggedPtr) :
    values g (m.casTail tail new_tail) =
      { values g m with tail := (m.casTail tail new_tail).m_tail.tag } := by
  rw [Memory.casTail]
  split
  · rfl
  · rfl

theorem le_casTail {tail new_tail : TaggedPtr} (hf : Follows g m tail new_tail) :
    m.m_tail.tag ≤ (m.casTail tail new_tail).m_tail.tag := by
  have htag := hf.tag
  rw [Memory.casTail]
  split
  · next heq =>
    show m.m_tail.tag ≤ new_tail.tag
    rw [heq]
    omega
  · exact Nat.le_refl _

theorem Effect.advance {f : Phase T} {tail new_tail : TaggedPtr}
    (hf : Follows g m tail new_tail) :
    Effect S t (values g m) f (values g (m.casTail tail new_tail)) f [] := by
  rw [values_casTail]
  exact .quiet (Or.inl rfl) (le_casTail hf)

theorem Ready.casTail {x : Item T} {n : Addr} {tail new_tail : TaggedPtr}
    (h : Ready g m t x n) : Ready g (m.casTail tail new_tail) t x n := by
  rw [Memory.casTail]
  split
  · exact ⟨h.own, h.next, h.data⟩
  · exact h

/-- A `compare_exchange` on `tail->next` that succeeds is on a node of the queue. -/
def Pc.Attached (m : Memory T) : Pc T → Prop
  | .link _ _ tail next => ∀ a, tail.ptr = some a → m.next a = next → m.InQueue a
  | _ => True

/-- It finds `m_tail` where it was loaded. -/
def Pc.Rechecked (m : Memory T) : Pc T → Prop
  | .link _ _ tail next => ∀ a, tail.ptr = some a → m.next a = next → m.m_tail = tail
  | _ => True

instance (m : Memory T) (pc : Pc T) : Decidable (pc.Rechecked m) :=
  match pc with
  | .link _ _ tail next =>
    inferInstanceAs (Decidable (∀ a ∈ tail.ptr, m.next a = next → m.m_tail = tail))
  | .idle | .allocate _ _ | .initNext _ _ | .initData _ _ | .loadTail _ _ | .loadNext _ _ _
  | .advance _ _ _ _ | .swing _ _ _ | .addSize _ | .popHead | .popTail _ | .popNext _ _
  | .popAdvance _ _ | .popData _ _ | .popLink _ _ _ | .deallocate _ _ _ | .subSize _ =>
    inferInstanceAs (Decidable True)

/-- What a step leaves behind. -/
def Done (g : Ghost ι T) (m : Memory T) (t : ι) (pc : Pc T) (m' : Memory T) (pc' : Pc T)
    (es : List (Event ι T)) : Prop :=
  ∃ g', Keeps t g m g' m' ∧ Known g' m' t pc' ∧
    Effect (pc.Rechecked m) t (values g m) pc.phase (values g' m') pc'.phase es

/-- A step that only reads. -/
theorem Chain.done_read {pc pc' : Pc T} (h : Chain g m) (hk : Known g m t pc')
    (hphase : pc'.phase = pc.phase) : Done g m t pc m pc' [] := by
  refine ⟨g, .refl h, hk, ?_⟩
  rw [hphase]
  exact .still

theorem Chain.step_allocate {x : Item T} {p : AllocPc} {pc' : Pc T} {es : List (Event ι T)}
    (h : Chain g m) (hk : Known g m t (.allocate x p))
    (hs : (Pc.allocate x p).step m t = some (m', pc', es)) :
    Done g m t (.allocate x p) m' pc' es := by
  simp only [Pc.step, Option.bind_eq_bind, Option.bind_eq_some_iff] at hs
  obtain ⟨⟨l, r⟩, hr, hs⟩ := hs
  rcases AllocPc.step_cases h.linked hk hr with
    ⟨p', rfl, rfl, hok⟩ | ⟨rfl, hlt, rfl⟩ | ⟨a, rest, rfl, hf, rfl⟩
  · cases hs
    exact h.done_read hok rfl
  · cases hs
    exact ⟨_, h.keeps_extend hlt, Ghost.own_give_self, .still⟩
  · cases hs
    exact ⟨_, h.keeps_pop hf, Ghost.own_give_self, .still⟩

theorem Chain.step_deallocate {ret : Option (Item T)} {n : Addr} {p : DeallocPc} {pc' : Pc T}
    {es : List (Event ι T)} (h : Chain g m) (hk : Known g m t (.deallocate ret n p))
    (hs : (Pc.deallocate ret n p).step m t = some (m', pc', es)) :
    Done g m t (.deallocate ret n p) m' pc' es := by
  obtain ⟨hown, hp⟩ := hk
  simp only [Pc.step] at hs
  cases hr : p.step m.m_pool n with
  | mk l r =>
    rw [hr] at hs
    rcases DeallocPc.step_cases h.linked hp hr with
      ⟨p', rfl, rfl, hok⟩ | ⟨p', q, rfl, rfl, hok⟩ | ⟨rfl, rfl, hnext⟩
    · cases hs
      exact h.done_read ⟨hown, hok⟩ rfl
    · cases hs
      exact ⟨g, h.keeps_setNext hown, ⟨hown, hok⟩, .still⟩
    · cases hs
      exact ⟨_, h.keeps_push hown hnext, trivial, .still⟩

/-- The node of the thread is linked behind the last one of the queue. -/
theorem Chain.step_link {x : Item T} {n : Addr} {tail next : TaggedPtr} {pc' : Pc T}
    {es : List (Event ι T)} (h : Chain g m) (hk : Known g m t (.link x n tail next))
    (hattached : (Pc.link x n tail next).Attached m)
    (hs : (Pc.link x n tail next).step m t = some (m', pc', es)) :
    Done g m t (.link x n tail next) m' pc' es := by
  obtain ⟨hready, htail, hle, hnone⟩ := hk
  simp only [Pc.step, Option.bind_eq_bind, Option.bind_eq_some_iff] at hs
  obtain ⟨a, ha, hs⟩ := hs
  split at hs
  · next heq =>
    cases hs
    obtain ⟨i, hi, hget⟩ := h.exists_of_inQueue (hattached a ha heq)
    have hlink : (m.next a).ptr = none := by rw [heq, hnone]
    have hlast := h.last hi hget hlink
    -- where `m_tail` has not moved, the node is the one it points to
    have hpos : m.m_tail.tag = tail.tag → tail.tag = g.items.length := by
      intro htag
      obtain ⟨b, hb, hbget⟩ := htail
      obtain rfl : a = b := Option.some.inj (ha.symm.trans hb)
      have hhead := h.head_le
      rw [← hlast]
      exact h.once _ _ a (by omega) hi hbget hget
    refine ⟨g.link n x, h.keeps_link hready hi hget hlink, ?_, .link fun hs => ?_⟩
    swap
    · exact hpos (by rw [hs a ha heq])
    refine ⟨htail.grow (List.prefix_append _ _), hle, rfl, fun htag => ⟨n, rfl, ?_⟩⟩
    have hlen := h.length
    have htag' := hpos htag
    show (g.nodes ++ [n])[tail.tag + 1]? = some n
    rw [htag', ← hlen, List.getElem?_concat_length]
  · cases hs
    exact h.done_read hready rfl

/-- `head == tail`, or a value to take, or neither. -/
theorem Chain.step_popNext {head tail : TaggedPtr} {pc' : Pc T} {es : List (Event ι T)}
    (h : Chain g m) (hk : Known g m t (.popNext head tail))
    (hs : (Pc.popNext head tail).step m t = some (m', pc', es)) :
    Done g m t (.popNext head tail) m' pc' es := by
  obtain ⟨hhead, hhle, htail, htle, hht⟩ := hk
  simp only [Pc.step, Option.bind_eq_bind, Option.bind_eq_some_iff] at hs
  obtain ⟨a, ha, hs⟩ := hs
  have hle := h.head_le
  obtain ⟨a', ha', hget⟩ := hhead
  obtain rfl : a = a' := Option.some.inj (ha.symm.trans ha')
  split at hs
  · next heq =>
    subst heq
    split at hs
    · cases hs
      refine ⟨g, .refl h, trivial, ?_⟩
      rw [phase_popNext_self]
      exact .empty
    · next b hb =>
      cases hs
      refine ⟨g, .refl h, ⟨htail, htle, rfl, fun htag => ?_⟩, ?_⟩
      · exact h.at_next (by omega) hget hb
      · rw [phase_popNext_self]
        exact .quiet (Or.inr ⟨rfl, rfl⟩) (Nat.le_refl _)
  · next hne =>
    have htags : head.tag ≠ tail.tag := fun heq => hne (Ghost.At.eq ⟨a, ha, hget⟩ htail heq)
    have hphase : (Pc.popNext head tail : Pc T).phase = .looking := phase_popNext_of_ne hne
    split at hs
    · cases hs
      exact h.done_read trivial hphase.symm
    · next b hb =>
      cases hs
      refine h.done_read ⟨⟨a, ha, hget⟩, hhle, by omega, rfl, fun htag => ?_⟩ hphase.symm
      exact h.at_next (by omega) hget hb

/-- A value leaves the queue. -/
theorem Chain.step_popLink {head new_head : TaggedPtr} {ret : Option (Item T)} {pc' : Pc T}
    {es : List (Event ι T)} (h : Chain g m) (hk : Known g m t (.popLink head new_head ret))
    (hs : (Pc.popLink head new_head ret).step m t = some (m', pc', es)) :
    Done g m t (.popLink head new_head ret) m' pc' es := by
  obtain ⟨hbefore, hret⟩ := hk
  simp only [Pc.step] at hs
  split at hs
  · next heq =>
    subst heq
    simp only [Option.bind_eq_bind, Option.bind_eq_some_iff] at hs
    obtain ⟨a, ha, hs⟩ := hs
    cases hs
    obtain ⟨x, rfl, hx⟩ := hret rfl
    refine ⟨_, h.keeps_take ha hbefore, ⟨Ghost.own_give_self, trivial⟩, ?_⟩
    have hvalues : values (g.give a (.thread t) g.free) { m with m_head := new_head } =
        { values g m with head := m.m_head.tag + 1 } := by
      simp [values, hbefore.tag, Ghost.give]
    rw [hvalues]
    exact .take hx hbefore.lt_tail
  · cases hs
    exact h.done_read trivial rfl

/-- **One step** keeps the chain, and what it does to the values is one of the effects. -/
theorem Chain.step {pc pc' : Pc T} {es : List (Event ι T)} (h : Chain g m)
    (hk : Known g m t pc) (hattached : pc.Attached m) (hs : pc.step m t = some (m', pc', es)) :
    Done g m t pc m' pc' es := by
  cases pc with
  | idle => cases hs
  | allocate x p => exact h.step_allocate hk hs
  | initNext x n =>
    cases hs
    exact ⟨g, h.keeps_setNext hk, ⟨hk, by rw [Memory.next_setNext_self]⟩, .still⟩
  | initData x n =>
    cases hs
    obtain ⟨hown, hnext⟩ := hk
    exact ⟨g, h.keeps_setData hown, ⟨hown, hnext, Memory.data_setData_self⟩,
      .still⟩
  | loadTail x n =>
    cases hs
    exact h.done_read ⟨hk, h.tail, Nat.le_refl _⟩ rfl
  | loadNext x n tail =>
    obtain ⟨hready, htail, hle⟩ := hk
    simp only [Pc.step, Option.bind_eq_bind, Option.bind_eq_some_iff] at hs
    obtain ⟨a, ha, hs⟩ := hs
    split at hs
    · next hnone =>
      cases hs
      exact h.done_read ⟨hready, htail, hle, hnone⟩ rfl
    · next b hb =>
      cases hs
      refine h.done_read ⟨hready, htail, hle, rfl, fun htag => ?_⟩ rfl
      obtain ⟨a', ha', hget⟩ := htail
      obtain rfl : a = a' := Option.some.inj (ha.symm.trans ha')
      have hhead := h.head_le
      exact h.at_next (by omega) hget hb
  | link x n tail next => exact h.step_link hk hattached hs
  | advance x n tail new_tail =>
    cases hs
    exact ⟨g, h.keeps_casTail hk.2, hk.1.casTail, .advance hk.2⟩
  | swing x tail new_tail =>
    cases hs
    refine ⟨g, h.keeps_casTail hk, trivial, ?_⟩
    rw [values_casTail]
    exact .swing (le_casTail hk) (h.lt_casTail hk)
  | addSize x =>
    cases hs
    exact ⟨g, h.keeps_size _, trivial, .add⟩
  | popHead =>
    cases hs
    exact h.done_read ⟨h.head, Nat.le_refl _⟩ rfl
  | popTail head =>
    cases hs
    obtain ⟨hhead, hle⟩ := hk
    have hht := h.head_le
    refine ⟨g, .refl h, ⟨hhead, hle, h.tail, Nat.le_refl _, by omega⟩, ?_⟩
    by_cases heq : head = m.m_tail
    · subst heq
      rw [phase_popNext_self]
      exact .see (show m.m_head.tag = m.m_tail.tag by omega)
    · rw [phase_popNext_of_ne heq]
      exact .still
  | popNext head tail => exact h.step_popNext hk hs
  | popAdvance tail new_tail =>
    cases hs
    exact ⟨g, h.keeps_casTail hk, trivial, .advance hk⟩
  | popData head b =>
    cases hs
    refine h.done_read ⟨hk, fun htag => ?_⟩ rfl
    obtain ⟨b', hb, hget⟩ := hk.next_at htag
    obtain rfl : b = b' := Option.some.inj hb
    have hlt : head.tag + 1 < g.nodes.length := (List.getElem?_eq_some_iff.mp hget).1
    have hlen := h.length
    have hitem : g.items[head.tag]? = some g.items[head.tag] :=
      List.getElem?_eq_getElem (by omega)
    exact ⟨_, (h.data head.tag b (by omega) hget).trans hitem, hitem⟩
  | popLink head new_head ret => exact h.step_popLink hk hs
  | deallocate ret n p => exact h.step_deallocate hk hs
  | subSize ret =>
    cases hs
    exact ⟨g, h.keeps_size _, trivial, .sub⟩

/-- A `compare_exchange_weak` that fails changes nothing. -/
theorem Chain.fail {pc pc' : Pc T} (h : Chain g m) (hk : Known g m t pc)
    (hs : pc.fail m = some pc') : Known g m t pc' ∧ pc'.phase = pc.phase := by
  cases pc with
  | allocate x p =>
    obtain ⟨p', hp, rfl⟩ := Option.map_eq_some_iff.mp hs
    exact ⟨AllocPc.fail_ok h.linked hp, rfl⟩
  | link x n tail next =>
    cases hs
    exact ⟨hk.1, rfl⟩
  | popLink head new_head ret =>
    cases hs
    exact ⟨trivial, rfl⟩
  | deallocate ret n p =>
    obtain ⟨p', hp, rfl⟩ := Option.map_eq_some_iff.mp hs
    exact ⟨⟨hk.1, DeallocPc.fail_ok hp⟩, rfl⟩
  | idle => cases hs
  | initNext x n => cases hs
  | initData x n => cases hs
  | loadTail x n => cases hs
  | loadNext x n tail => cases hs
  | advance x n tail new_tail => cases hs
  | swing x tail new_tail => cases hs
  | addSize x => cases hs
  | popHead => cases hs
  | popTail head => cases hs
  | popNext head tail => cases hs
  | popAdvance tail new_tail => cases hs
  | popData head b => cases hs
  | subSize ret => cases hs

end Wish.Lockfree
