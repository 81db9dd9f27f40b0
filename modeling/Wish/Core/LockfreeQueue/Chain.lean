import Wish.Core.LockfreeQueue
import Mathlib.Logic.Relation

/-!
# The chain of nodes of `lockfree_queue.h`

`Chain g m` says how the memory `m` holds the queue: `g.nodes` are all the nodes ever linked,
in order, the dummy first, and `g.items` their values. The tag of `m_head` counts the values
taken and the tag of `m_tail` the moves of `m_tail`, so a tag is a position in `g.nodes`; what a
thread has loaded stays true of its position (`Known`), whatever has become of the node since.

`Keeps` is what each write of a thread does: the chain stays one, and what the other threads
know stays true (`Known.rely`). A node may be linked only behind the last one of the queue
(`Chain.keeps_link`).
-/

namespace Wish.Lockfree

open Heap (Addr Ptr)
open Freelist (Grows)

/-- Who has a node. -/
inductive Owner (ι : Type) where
  | nobody
  | queue
  | free
  | thread (t : ι)

structure Ghost (ι T : Type) where
  /-- every node linked so far, in order, after the dummy -/
  nodes : List Addr
  /-- their values; the dummy has none -/
  items : List (Item T)
  /-- the nodes on the free list -/
  free : List Addr
  own : Addr → Owner ι

variable {ι T : Type} {g g' : Ghost ι T} {m m' : Memory T} {t u : ι} {p q : TaggedPtr}

theorem getElem?_of_prefix {α : Type} {l l' : List α} (h : l <+: l') {i : Nat} {a : α}
    (ha : l[i]? = some a) : l'[i]? = some a := by
  obtain ⟨r, rfl⟩ := h
  rw [List.getElem?_append_left (List.getElem?_eq_some_iff.mp ha).1]
  exact ha

theorem eq_or_of_getElem?_concat {α : Type} {l : List α} {x a : α} {i : Nat}
    (h : (l ++ [x])[i]? = some a) : l[i]? = some a ∨ i = l.length ∧ a = x := by
  rcases Nat.lt_or_ge i l.length with hi | hi
  · rw [List.getElem?_append_left hi] at h
    exact Or.inl h
  · have hlt := (List.getElem?_eq_some_iff.mp h).1
    rw [List.length_append, List.length_singleton] at hlt
    obtain rfl : i = l.length := by omega
    rw [List.getElem?_concat_length] at h
    exact Or.inr ⟨rfl, (Option.some.inj h).symm⟩

/-- The node at the position `p.tag` is the one `p` points to. -/
def Ghost.At (g : Ghost ι T) (p : TaggedPtr) : Prop :=
  ∃ a, p.ptr = some a ∧ g.nodes[p.tag]? = some a

theorem Ghost.At.eq (hp : g.At p) (hq : g.At q) (h : p.tag = q.tag) : p = q := by
  obtain ⟨a, hpa, ha⟩ := hp
  obtain ⟨b, hqb, hb⟩ := hq
  obtain ⟨pp, pt⟩ := p
  obtain ⟨qp, qt⟩ := q
  subst h hpa hqb
  rw [ha] at hb
  cases hb
  rfl

theorem Ghost.At.lt (hp : g.At p) : p.tag < g.nodes.length := by
  obtain ⟨a, -, ha⟩ := hp
  exact (List.getElem?_eq_some_iff.mp ha).1

structure Chain (g : Ghost ι T) (m : Memory T) : Prop where
  head : g.At m.m_head
  tail : g.At m.m_tail
  head_le : m.m_head.tag ≤ m.m_tail.tag
  length : g.nodes.length = g.items.length + 1
  next : ∀ i a, m.m_head.tag ≤ i → g.nodes[i]? = some a → (m.next a).ptr = g.nodes[i + 1]?
  data : ∀ i a, m.m_head.tag ≤ i → g.nodes[i + 1]? = some a → m.data a = g.items[i]?
  /-- no node is twice in the queue -/
  once : ∀ i j a, m.m_head.tag ≤ i → m.m_head.tag ≤ j → g.nodes[i]? = some a →
    g.nodes[j]? = some a → i = j
  linked : m.m_pool.Linked g.free
  nodup : g.free.Nodup
  own_queue : ∀ i a, m.m_head.tag ≤ i → g.nodes[i]? = some a → g.own a = .queue
  own_free : ∀ a ∈ g.free, g.own a = .free
  own_fresh : ∀ a, m.m_pool.fresh ≤ a → g.own a = .nobody
  fresh_le : m.m_pool.fresh ≤ Freelist.addresses

/-! ## What a thread knows -/

/-- `new_tail` is what comes after `tail`, if `tail` is still `m_tail`. -/
structure Follows (g : Ghost ι T) (m : Memory T) (tail new_tail : TaggedPtr) : Prop where
  tail_at : g.At tail
  tail_le : tail.tag ≤ m.m_tail.tag
  tag : new_tail.tag = tail.tag + 1
  next_at : m.m_tail.tag = tail.tag → g.At new_tail

/-- The thread `t` has the node `n`, ready to be linked. -/
structure Ready (g : Ghost ι T) (m : Memory T) (t : ι) (x : Item T) (n : Addr) : Prop where
  own : g.own n = .thread t
  next : (m.next n).ptr = none
  data : m.data n = some x

/-- `new_head` is what comes after `head`, if `head` is still `m_head`. -/
structure Before (g : Ghost ι T) (m : Memory T) (head new_head : TaggedPtr) : Prop where
  head_at : g.At head
  head_le : head.tag ≤ m.m_head.tag
  lt_tail : head.tag < m.m_tail.tag
  tag : new_head.tag = head.tag + 1
  next_at : m.m_head.tag = head.tag → g.At new_head

/-- What the thread `t` knows where it is. -/
def Known (g : Ghost ι T) (m : Memory T) (t : ι) : Pc T → Prop
  | .allocate _ p => p.Ok m.m_pool g.free
  | .initNext _ n => g.own n = .thread t
  | .initData _ n => g.own n = .thread t ∧ (m.next n).ptr = none
  | .loadTail x n => Ready g m t x n
  | .loadNext x n tail => Ready g m t x n ∧ g.At tail ∧ tail.tag ≤ m.m_tail.tag
  | .link x n tail next =>
    Ready g m t x n ∧ g.At tail ∧ tail.tag ≤ m.m_tail.tag ∧ next.ptr = none
  | .advance x n tail new_tail => Ready g m t x n ∧ Follows g m tail new_tail
  | .swing _ tail new_tail => Follows g m tail new_tail
  | .popTail head => g.At head ∧ head.tag ≤ m.m_head.tag
  | .popNext head tail => g.At head ∧ head.tag ≤ m.m_head.tag ∧ g.At tail ∧
      tail.tag ≤ m.m_tail.tag ∧ head.tag ≤ tail.tag
  | .popAdvance tail new_tail => Follows g m tail new_tail
  | .popData head b => Before g m head ⟨some b, head.getNextTag⟩
  | .popLink head new_head ret => Before g m head new_head ∧
      (m.m_head.tag = head.tag → ∃ x, ret = some x ∧ g.items[head.tag]? = some x)
  | .deallocate _ n p => g.own n = .thread t ∧ p.Ok m.m_pool n
  | .idle | .addSize _ | .popHead | .subSize _ => True

/-- What the other threads may do to what the thread `u` knows. -/
structure Rely (u : ι) (g : Ghost ι T) (m : Memory T) (g' : Ghost ι T) (m' : Memory T) :
    Prop where
  nodes : g.nodes <+: g'.nodes
  items : g.items <+: g'.items
  head : m.m_head.tag ≤ m'.m_head.tag
  tail : m.m_tail.tag ≤ m'.m_tail.tag
  grows : Grows m.m_pool g.free m'.m_pool g'.free
  own : ∀ a, g.own a = .thread u →
    g'.own a = .thread u ∧ m'.next a = m.next a ∧ m'.data a = m.data a

theorem Rely.refl (u : ι) (g : Ghost ι T) (m : Memory T) : Rely u g m g m :=
  ⟨List.prefix_refl _, List.prefix_refl _, Nat.le_refl _, Nat.le_refl _, .refl _ _,
    fun _ ha => ⟨ha, rfl, rfl⟩⟩

theorem Ghost.At.grow (h : g.At p) (hn : g.nodes <+: g'.nodes) : g'.At p := by
  obtain ⟨a, hp, ha⟩ := h
  exact ⟨a, hp, getElem?_of_prefix hn ha⟩

section rely

variable (h : Rely u g m g' m')
include h

theorem Ready.rely {x : Item T} {n : Addr} (hr : Ready g m u x n) : Ready g' m' u x n := by
  obtain ⟨hown, hnext, hdata⟩ := h.own n hr.own
  refine ⟨hown, ?_, ?_⟩
  · rw [hnext]
    exact hr.next
  · rw [hdata]
    exact hr.data

theorem Follows.rely {tail new_tail : TaggedPtr} (hf : Follows g m tail new_tail) :
    Follows g' m' tail new_tail := by
  refine ⟨hf.tail_at.grow h.nodes, Nat.le_trans hf.tail_le h.tail, hf.tag, fun htag => ?_⟩
  have htail := h.tail
  have hle := hf.tail_le
  exact (hf.next_at (by omega)).grow h.nodes

theorem Before.rely {head new_head : TaggedPtr} (hb : Before g m head new_head) :
    Before g' m' head new_head := by
  refine ⟨hb.head_at.grow h.nodes, Nat.le_trans hb.head_le h.head,
    Nat.lt_of_lt_of_le hb.lt_tail h.tail, hb.tag, fun htag => ?_⟩
  have hhead := h.head
  have hle := hb.head_le
  exact (hb.next_at (by omega)).grow h.nodes

/-- What a thread knows stays true. -/
theorem Known.rely {pc : Pc T} (hk : Known g m u pc) : Known g' m' u pc := by
  cases pc with
  | allocate x p => exact hk.grows h.grows
  | initNext x n => exact (h.own n hk).1
  | initData x n =>
    obtain ⟨hown, hnext, -⟩ := h.own n hk.1
    refine ⟨hown, ?_⟩
    rw [hnext]
    exact hk.2
  | loadTail x n => exact Ready.rely h hk
  | loadNext x n tail =>
    exact ⟨hk.1.rely h, hk.2.1.grow h.nodes, Nat.le_trans hk.2.2 h.tail⟩
  | link x n tail next =>
    exact ⟨hk.1.rely h, hk.2.1.grow h.nodes, Nat.le_trans hk.2.2.1 h.tail, hk.2.2.2⟩
  | advance x n tail new_tail => exact ⟨hk.1.rely h, hk.2.rely h⟩
  | swing x tail new_tail => exact Follows.rely h hk
  | popTail head => exact ⟨hk.1.grow h.nodes, Nat.le_trans hk.2 h.head⟩
  | popNext head tail =>
    obtain ⟨hhead, hle, htail, htle, hht⟩ := hk
    exact ⟨hhead.grow h.nodes, Nat.le_trans hle h.head, htail.grow h.nodes,
      Nat.le_trans htle h.tail, hht⟩
  | popAdvance tail new_tail => exact Follows.rely h hk
  | popData head b => exact Before.rely h hk
  | popLink head new_head ret =>
    refine ⟨hk.1.rely h, fun htag => ?_⟩
    have hhead := h.head
    have hle := hk.1.head_le
    obtain ⟨x, hx, hget⟩ := hk.2 (by omega)
    exact ⟨x, hx, getElem?_of_prefix h.items hget⟩
  | deallocate ret n p =>
    obtain ⟨hown, hnext, -⟩ := h.own n hk.1
    refine ⟨hown, ?_⟩
    have hp := hk.2
    cases p with
    | load => trivial
    | set old => trivial
    | cas old => exact (congrArg TaggedPtr.ptr hnext).trans hp
  | idle => trivial
  | addSize x => trivial
  | popHead => trivial
  | subSize ret => trivial

end rely

/-! ## The queue -/

/-- The node is reached from `m_head`. -/
def Memory.InQueue (m : Memory T) (a : Addr) : Prop :=
  ∃ b, m.m_head.ptr = some b ∧ Relation.ReflTransGen (fun b c => (m.next b).ptr = some c) b a

theorem Chain.exists_of_inQueue (h : Chain g m) {a : Addr} (ha : m.InQueue a) :
    ∃ i, m.m_head.tag ≤ i ∧ g.nodes[i]? = some a := by
  obtain ⟨b, hb, hba⟩ := ha
  induction hba with
  | refl =>
    obtain ⟨c, hc, hget⟩ := h.head
    obtain rfl : b = c := Option.some.inj (hb.symm.trans hc)
    exact ⟨_, Nat.le_refl _, hget⟩
  | tail _ hnext ih =>
    obtain ⟨i, hi, hget⟩ := ih
    refine ⟨i + 1, by omega, ?_⟩
    rw [← h.next i _ hi hget]
    exact hnext

theorem Chain.inQueue (h : Chain g m) {i : Nat} {a : Addr} (hi : m.m_head.tag ≤ i)
    (ha : g.nodes[i]? = some a) : m.InQueue a := by
  obtain ⟨b, hb, hget⟩ := h.head
  refine ⟨b, hb, ?_⟩
  induction i, hi using Nat.le_induction generalizing a with
  | base =>
    obtain rfl : b = a := Option.some.inj (hget.symm.trans ha)
    exact .refl
  | succ i hi ih =>
    have hlt := (List.getElem?_eq_some_iff.mp ha).1
    have hc : g.nodes[i]? = some g.nodes[i] := List.getElem?_eq_getElem (by omega)
    refine .tail (ih hc) ?_
    rw [h.next i _ hi hc]
    exact ha

/-- A node of the queue that is linked to none is the last one. -/
theorem Chain.last (h : Chain g m) {i : Nat} {a : Addr} (hi : m.m_head.tag ≤ i)
    (ha : g.nodes[i]? = some a) (hnone : (m.next a).ptr = none) : i = g.items.length := by
  have hlt := (List.getElem?_eq_some_iff.mp ha).1
  have hnext := h.next i a hi ha
  rw [hnone] at hnext
  have hge := List.getElem?_eq_none_iff.mp hnext.symm
  have hlen := h.length
  omega

theorem Chain.at_next (h : Chain g m) {i : Nat} {a b : Addr} (hi : m.m_head.tag ≤ i)
    (ha : g.nodes[i]? = some a) (hb : (m.next a).ptr = some b) : g.At ⟨some b, i + 1⟩ := by
  refine ⟨b, rfl, ?_⟩
  rw [← h.next i a hi ha]
  exact hb

/-! ## Writes -/

/-- What the thread `t` has done keeps the chain and what the other threads know. -/
structure Keeps (t : ι) (g : Ghost ι T) (m : Memory T) (g' : Ghost ι T) (m' : Memory T) :
    Prop where
  chain : Chain g' m'
  rely : ∀ u, u ≠ t → Rely u g m g' m'

theorem Keeps.refl (h : Chain g m) : Keeps t g m g m := ⟨h, fun _ _ => .refl _ g m⟩

theorem Chain.ne_of_own (h : Chain g m) {i : Nat} {a n : Addr} (hn : g.own n ≠ .queue)
    (hi : m.m_head.tag ≤ i) (ha : g.nodes[i]? = some a) : a ≠ n := by
  rintro rfl
  exact hn (h.own_queue i a hi ha)

theorem Chain.notMem_free (h : Chain g m) {n : Addr} (hn : g.own n ≠ .free) : n ∉ g.free :=
  fun hmem => hn (h.own_free n hmem)

theorem Chain.keeps_size (h : Chain g m) (k : Nat) : Keeps t g m g { m with m_size := k } :=
  ⟨⟨h.head, h.tail, h.head_le, h.length, h.next, h.data, h.once, h.linked, h.nodup, h.own_queue,
    h.own_free, h.own_fresh, h.fresh_le⟩, fun _ _ => ⟨List.prefix_refl _, List.prefix_refl _, Nat.le_refl _,
    Nat.le_refl _, .refl _ _, fun _ ha => ⟨ha, rfl, rfl⟩⟩⟩

theorem Chain.keeps_casTail (h : Chain g m) {tail new_tail : TaggedPtr}
    (hf : Follows g m tail new_tail) : Keeps t g m g (m.casTail tail new_tail) := by
  rw [Memory.casTail]
  split
  · next heq =>
    have htag := hf.tag
    have hle := h.head_le
    subst heq
    refine ⟨⟨h.head, hf.next_at rfl, ?_, h.length, h.next, h.data, h.once, h.linked, h.nodup,
      h.own_queue, h.own_free, h.own_fresh, h.fresh_le⟩, fun u _ => ⟨List.prefix_refl _, List.prefix_refl _,
      Nat.le_refl _, ?_, .refl _ _, fun _ ha => ⟨ha, rfl, rfl⟩⟩⟩
    · show m.m_head.tag ≤ new_tail.tag
      omega
    · show m.m_tail.tag ≤ new_tail.tag
      omega
  · exact .refl h

/-- After the attempt `m_tail` has gone on from `tail`. -/
theorem Chain.lt_casTail (h : Chain g m) {tail new_tail : TaggedPtr}
    (hf : Follows g m tail new_tail) : tail.tag < (m.casTail tail new_tail).m_tail.tag := by
  have htag := hf.tag
  have hle := hf.tail_le
  rw [Memory.casTail]
  split
  · show tail.tag < new_tail.tag
    omega
  · next hne =>
    have htags : tail.tag ≠ m.m_tail.tag := fun heq => hne (h.tail.eq hf.tail_at heq.symm)
    omega

/-- A write to the link of a node that the thread has. -/
theorem Chain.keeps_setNext (h : Chain g m) {n : Addr} {p : TaggedPtr}
    (hn : g.own n = .thread t) : Keeps t g m g (m.setNext n p) := by
  have hq : g.own n ≠ .queue := by
    rw [hn]
    exact nofun
  have hfree : n ∉ g.free := h.notMem_free (by
    rw [hn]
    exact nofun)
  refine ⟨⟨h.head, h.tail, h.head_le, h.length, fun i a hi ha => ?_, h.data, h.once,
    h.linked.setNext hfree, h.nodup, h.own_queue, h.own_free, h.own_fresh, h.fresh_le⟩, fun u hu => ⟨
    List.prefix_refl _, List.prefix_refl _, Nat.le_refl _, Nat.le_refl _,
    Freelist.grows_setNext hfree, fun a ha => ⟨ha, ?_, rfl⟩⟩⟩
  · rw [Memory.next_setNext_of_ne (h.ne_of_own hq hi ha)]
    exact h.next i a hi ha
  · have hne : a ≠ n := by
      rintro rfl
      rw [hn] at ha
      exact hu (Owner.thread.inj ha).symm
    exact Memory.next_setNext_of_ne hne

/-- A write to the value of a node that the thread has. -/
theorem Chain.keeps_setData (h : Chain g m) {n : Addr} {x : Option (Item T)}
    (hn : g.own n = .thread t) : Keeps t g m g (m.setData n x) := by
  have hq : g.own n ≠ .queue := by
    rw [hn]
    exact nofun
  refine ⟨⟨h.head, h.tail, h.head_le, h.length, h.next, fun i a hi ha => ?_, h.once, h.linked,
    h.nodup, h.own_queue, h.own_free, h.own_fresh, h.fresh_le⟩, fun u hu => ⟨List.prefix_refl _,
    List.prefix_refl _, Nat.le_refl _, Nat.le_refl _, .refl _ _, fun a ha => ⟨ha, rfl, ?_⟩⟩⟩
  · rw [Memory.data_setData_of_ne (h.ne_of_own hq (Nat.le_succ_of_le hi) ha)]
    exact h.data i a hi ha
  · have hne : a ≠ n := by
      rintro rfl
      rw [hn] at ha
      exact hu (Owner.thread.inj ha).symm
    exact Memory.data_setData_of_ne hne

/-- A node is handed from one owner to another; `f` is what becomes of the free list. -/
def Ghost.give (g : Ghost ι T) (a : Addr) (o : Owner ι) (f : List Addr) : Ghost ι T :=
  { g with free := f, own := Function.update g.own a o }

theorem Ghost.own_give_of_ne {a b : Addr} {o : Owner ι} {f : List Addr} (h : b ≠ a) :
    (g.give a o f).own b = g.own b := by
  simp [give, h]

@[simp] theorem Ghost.own_give_self {a : Addr} {o : Owner ι} {f : List Addr} :
    (g.give a o f).own a = o := by
  simp [give]

/-- Nodes with different owners. -/
theorem addr_ne {a b : Addr} {o o' : Owner ι} (ha : g.own a = o) (hb : g.own b = o')
    (h : o ≠ o') : a ≠ b := by
  rintro rfl
  exact h (ha.symm.trans hb)

/-- The thread gets a new node. -/
theorem Chain.keeps_extend (h : Chain g m) (hlt : m.m_pool.fresh < Freelist.addresses) :
    Keeps t g m (g.give m.m_pool.fresh (.thread t) g.free) (m.setPool m.m_pool.extend) := by
  have hn : g.own m.m_pool.fresh = .nobody := h.own_fresh _ (Nat.le_refl _)
  have hq : g.own m.m_pool.fresh ≠ .queue := by
    rw [hn]
    exact nofun
  have hfree : m.m_pool.fresh ∉ g.free := h.notMem_free (by
    rw [hn]
    exact nofun)
  refine ⟨⟨h.head, h.tail, h.head_le, h.length, fun i a hi ha => ?_, h.data, h.once,
    h.linked.extend hfree, h.nodup, fun i a hi ha => ?_, fun a ha => ?_, fun a ha => ?_, hlt⟩,
    fun u hu => ⟨List.prefix_refl _, List.prefix_refl _, Nat.le_refl _, Nat.le_refl _,
    Freelist.grows_extend hfree, fun a ha => ?_⟩⟩
  · exact (congrArg _ (Memory.next_setNext_of_ne (h.ne_of_own hq hi ha))).trans (h.next i a hi ha)
  · rw [Ghost.own_give_of_ne (h.ne_of_own hq hi ha)]
    exact h.own_queue i a hi ha
  · have hne : a ≠ m.m_pool.fresh := by
      rintro rfl
      exact hfree ha
    rw [Ghost.own_give_of_ne hne]
    exact h.own_free a ha
  · have hlt : m.m_pool.fresh + 1 ≤ a := ha
    have hne : a ≠ m.m_pool.fresh := by omega
    rw [Ghost.own_give_of_ne hne]
    exact h.own_fresh a (by omega)
  · have hne : a ≠ m.m_pool.fresh := addr_ne ha hn nofun
    rw [Ghost.own_give_of_ne hne]
    exact ⟨ha, Memory.next_setNext_of_ne hne, rfl⟩

/-- The thread gets the top node of the free list. -/
theorem Chain.keeps_pop (h : Chain g m) {a : Addr} {rest : List Addr} (hf : g.free = a :: rest) :
    Keeps t g m (g.give a (.thread t) rest)
      (m.setPool (m.m_pool.setPool ⟨rest.head?, m.m_pool.pool.tag + 1⟩)) := by
  have hn : g.own a = .free := h.own_free a (by simp [hf])
  have hq : g.own a ≠ .queue := by
    rw [hn]
    exact nofun
  have hnodup := h.nodup
  rw [hf, List.nodup_cons] at hnodup
  refine ⟨⟨h.head, h.tail, h.head_le, h.length, h.next, h.data, h.once,
    (hf ▸ h.linked).pop, hnodup.2, fun i b hi hb => ?_, fun b hb => ?_, fun b hb => ?_, h.fresh_le⟩,
    fun u hu => ⟨List.prefix_refl _, List.prefix_refl _, Nat.le_refl _, Nat.le_refl _,
    Freelist.grows_pop, fun b hb => ?_⟩⟩
  · rw [Ghost.own_give_of_ne (h.ne_of_own hq hi hb)]
    exact h.own_queue i b hi hb
  · have hne : b ≠ a := by
      rintro rfl
      exact hnodup.1 hb
    rw [Ghost.own_give_of_ne hne]
    exact h.own_free b (by simp [hf, show b ∈ rest from hb])
  · have hb' := h.own_fresh b hb
    have hne : b ≠ a := addr_ne hb' hn nofun
    rw [Ghost.own_give_of_ne hne]
    exact hb'
  · have hne : b ≠ a := addr_ne hb hn nofun
    rw [Ghost.own_give_of_ne hne]
    exact ⟨hb, rfl, rfl⟩

/-- The thread puts its node on the free list. -/
theorem Chain.keeps_push (h : Chain g m) {n : Addr} (hn : g.own n = .thread t)
    (hnext : (m.next n).ptr = g.free.head?) :
    Keeps t g m (g.give n .free (n :: g.free))
      (m.setPool (m.m_pool.setPool ⟨some n, m.m_pool.pool.tag⟩)) := by
  have hq : g.own n ≠ .queue := by
    rw [hn]
    exact nofun
  have hfree : n ∉ g.free := h.notMem_free (by
    rw [hn]
    exact nofun)
  refine ⟨⟨h.head, h.tail, h.head_le, h.length, h.next, h.data, h.once, h.linked.push hnext,
    List.nodup_cons.mpr ⟨hfree, h.nodup⟩, fun i b hi hb => ?_, fun b hb => ?_, fun b hb => ?_, h.fresh_le⟩,
    fun u hu => ⟨List.prefix_refl _, List.prefix_refl _, Nat.le_refl _, Nat.le_refl _,
    Freelist.grows_push, fun b hb => ?_⟩⟩
  · rw [Ghost.own_give_of_ne (h.ne_of_own hq hi hb)]
    exact h.own_queue i b hi hb
  · rcases List.mem_cons.mp hb with rfl | hmem
    · exact Ghost.own_give_self
    · rw [Ghost.own_give_of_ne (addr_ne (h.own_free b hmem) hn nofun)]
      exact h.own_free b hmem
  · have hb' := h.own_fresh b hb
    have hne : b ≠ n := addr_ne hb' hn nofun
    rw [Ghost.own_give_of_ne hne]
    exact hb'
  · have hne : b ≠ n := by
      rintro rfl
      rw [hn] at hb
      exact hu (Owner.thread.inj hb).symm
    rw [Ghost.own_give_of_ne hne]
    exact ⟨hb, rfl, rfl⟩

/-- `m_head` goes on; the thread gets the node that was the dummy. -/
theorem Chain.keeps_take (h : Chain g m) {a : Addr} {new_head : TaggedPtr}
    (ha : m.m_head.ptr = some a) (hb : Before g m m.m_head new_head) :
    Keeps t g m (g.give a (.thread t) g.free) { m with m_head := new_head } := by
  obtain ⟨a', ha', hget⟩ := h.head
  obtain rfl : a = a' := Option.some.inj (ha.symm.trans ha')
  have hn : g.own a = .queue := h.own_queue _ a (Nat.le_refl _) hget
  have htag := hb.tag
  have hlt := hb.lt_tail
  refine ⟨⟨hb.next_at rfl, h.tail, ?_, h.length, fun i b hi hb => ?_, fun i b hi hb => ?_,
    fun i j b hi hj hbi hbj => ?_, h.linked, h.nodup, fun i b hi hb => ?_, fun b hb => ?_,
    fun b hb => ?_, h.fresh_le⟩, fun u hu => ⟨List.prefix_refl _, List.prefix_refl _, ?_,
    Nat.le_refl _, .refl _ _, fun b hb => ?_⟩⟩
  · show new_head.tag ≤ m.m_tail.tag
    omega
  · have hi' : new_head.tag ≤ i := hi
    exact h.next i b (by omega) hb
  · have hi' : new_head.tag ≤ i := hi
    exact h.data i b (by omega) hb
  · have hi' : new_head.tag ≤ i := hi
    have hj' : new_head.tag ≤ j := hj
    exact h.once i j b (by omega) (by omega) hbi hbj
  · have hi' : new_head.tag ≤ i := hi
    have hne : b ≠ a := by
      rintro rfl
      have heq := h.once i _ b (by omega) (Nat.le_refl _) hb hget
      omega
    rw [Ghost.own_give_of_ne hne]
    exact h.own_queue i b (by omega) hb
  · have hb' := h.own_free b hb
    have hne : b ≠ a := addr_ne hb' hn nofun
    rw [Ghost.own_give_of_ne hne]
    exact hb'
  · have hb' := h.own_fresh b hb
    have hne : b ≠ a := addr_ne hb' hn nofun
    rw [Ghost.own_give_of_ne hne]
    exact hb'
  · show m.m_head.tag ≤ new_head.tag
    omega
  · have hne : b ≠ a := addr_ne hb hn nofun
    rw [Ghost.own_give_of_ne hne]
    exact ⟨hb, rfl, rfl⟩

/-- The node `n` comes to the end of the queue. -/
def Ghost.link (g : Ghost ι T) (n : Addr) (x : Item T) : Ghost ι T :=
  { g.give n .queue g.free with nodes := g.nodes ++ [n], items := g.items ++ [x] }

theorem Ghost.own_link_of_ne {x : Item T} {n b : Addr} (h : b ≠ n) :
    (g.link n x).own b = g.own b := by
  simp [link, give, h]

@[simp] theorem Ghost.own_link_self {x : Item T} {n : Addr} : (g.link n x).own n = .queue := by
  simp [link, give]

/-- The last node of the queue is linked to the node of the thread. -/
theorem Chain.keeps_link (h : Chain g m) {x : Item T} {n a : Addr} {i k : Nat}
    (hr : Ready g m t x n) (hi : m.m_head.tag ≤ i) (ha : g.nodes[i]? = some a)
    (hnone : (m.next a).ptr = none) :
    Keeps t g m (g.link n x) (m.setNext a ⟨some n, k⟩) := by
  have hn := hr.own
  have hq : g.own a = .queue := h.own_queue i a hi ha
  have hlen := h.length
  have hlast := h.last hi ha hnone
  have hnodes : g.nodes <+: g.nodes ++ [n] := List.prefix_append _ _
  refine ⟨⟨h.head.grow hnodes, h.tail.grow hnodes, h.head_le, ?_, fun j b hj hb => ?_,
    fun j b hj hb => ?_, fun j l b hj hl hbj hbl => ?_, h.linked.setNext ?_, h.nodup,
    fun j b hj hb => ?_, fun b hb => ?_, fun b hb => ?_, h.fresh_le⟩, fun u hu => ⟨hnodes,
    List.prefix_append _ _, Nat.le_refl _, Nat.le_refl _, Freelist.grows_setNext ?_,
    fun b hb => ?_⟩⟩
  · show (g.nodes ++ [n]).length = (g.items ++ [x]).length + 1
    simp [hlen]
  · show _ = (g.nodes ++ [n])[j + 1]?
    rcases eq_or_of_getElem?_concat hb with hb | ⟨rfl, rfl⟩
    · have hlt := (List.getElem?_eq_some_iff.mp hb).1
      by_cases hba : b = a
      · subst hba
        obtain rfl : j = i := h.once j i b hj hi hb ha
        rw [Memory.next_setNext_self, show j + 1 = g.nodes.length by omega,
          List.getElem?_concat_length]
      · have hji : j ≠ i := by
          rintro rfl
          exact hba (Option.some.inj (hb.symm.trans ha))
        rw [Memory.next_setNext_of_ne hba, h.next j b hj hb,
          List.getElem?_append_left (by omega)]
    · rw [Memory.next_setNext_of_ne (addr_ne hn hq nofun), hr.next, eq_comm]
      exact List.getElem?_eq_none_iff.mpr (by simp)
  · show m.data b = (g.items ++ [x])[j]?
    rcases eq_or_of_getElem?_concat hb with hb | ⟨hj', rfl⟩
    · have hlt := (List.getElem?_eq_some_iff.mp hb).1
      rw [h.data j b hj hb, List.getElem?_append_left (by omega)]
    · rw [hr.data, show j = g.items.length by omega, List.getElem?_concat_length]
  · rcases eq_or_of_getElem?_concat hbj with hj' | ⟨hj', hbn⟩
    · rcases eq_or_of_getElem?_concat hbl with hl' | ⟨-, hbn⟩
      · exact h.once j l b hj hl hj' hl'
      · exact absurd hbn (addr_ne (h.own_queue j b hj hj') hn nofun)
    · rcases eq_or_of_getElem?_concat hbl with hl' | ⟨hl', -⟩
      · exact absurd hbn (addr_ne (h.own_queue l b hl hl') hn nofun)
      · rw [hj', hl']
  · exact h.notMem_free (by rw [hq]; exact nofun)
  · rcases eq_or_of_getElem?_concat hb with hb | ⟨rfl, rfl⟩
    · have hbq := h.own_queue j b hj hb
      exact (Ghost.own_link_of_ne (addr_ne hbq hn nofun)).trans hbq
    · exact Ghost.own_link_self
  · have hbf := h.own_free b hb
    exact (Ghost.own_link_of_ne (addr_ne hbf hn nofun)).trans hbf
  · have hb' := h.own_fresh b hb
    exact (Ghost.own_link_of_ne (addr_ne hb' hn nofun)).trans hb'
  · exact h.notMem_free (by rw [hq]; exact nofun)
  · have hbn : b ≠ n := addr_ne hb hn fun heq => hu (Owner.thread.inj heq)
    exact ⟨(Ghost.own_link_of_ne hbn).trans hb, Memory.next_setNext_of_ne (addr_ne hb hq nofun), rfl⟩

end Wish.Lockfree
