import Wish.Core.LockfreeQueue.Sequential
import Mathlib.Data.List.Nodup
import Mathlib.Data.List.Perm.Subperm

/-!
# The queue with one thread is a FIFO queue

`Chain m d ns items`: the nodes `ns` behind the dummy node `d` hold `items`, and the tag of
`m_tail` is that of `m_head`, advanced once for each of them; so `m_head` and `m_tail` are equal
exactly when there are none, however often the tags have wrapped.

`refines_fifo`: every sequence of calls gives the results of `Fifo`, for both tagged pointers.
-/

namespace Wish.Sequential

open Tagged Prog
open Tagged.TaggedPtr (limit make zero getPtr getTag setPtr getNextTag nextTag)

inductive Call (T : Type) where
  | emplace (item : T)
  | popFront
  deriving Repr

inductive Result (T : Type) where
  | emplaced (r : Bool)
  /-- `emplace` has thrown -/
  | threw
  /-- `pop_front` has returned `true`; `none` for bytes that no `emplace` has written -/
  | popped (ret : Option T)
  /-- `pop_front` has returned `false` -/
  | empty
  deriving DecidableEq, Repr

/-- A plain queue; how many nodes there are for it only tells when `emplace` throws. -/
structure Fifo (T : Type) where
  items : List T
  nodes : Nat

namespace Fifo

variable {T : Type} {limit : Nat}

def emplace (A : Allocator limit) (q : Fifo T) (item : T) : Result T × Fifo T :=
  -- one node is the dummy
  if q.items.length + 1 < q.nodes then (.emplaced true, { q with items := q.items ++ [item] })
  else match A.address q.nodes with
    | none => (.threw, q)
    | some _ => (.emplaced true, ⟨q.items ++ [item], q.nodes + 1⟩)

def popFront (q : Fifo T) : Result T × Fifo T :=
  match q.items with
  | [] => (.empty, q)
  | x :: items => (.popped (some x), { q with items := items })

def call (A : Allocator limit) (q : Fifo T) : Call T → Result T × Fifo T
  | .emplace item => q.emplace A item
  | .popFront => q.popFront

def run (A : Allocator limit) (q : Fifo T) : List (Call T) → List (Result T) × Fifo T
  | [] => ([], q)
  | c :: cs =>
    let r := q.call A c
    let rs := run A r.2 cs
    (r.1 :: rs.1, rs.2)

end Fifo

variable {P T : Type} [TaggedPtr P]

def call (A : Allocator (limit P)) (fuel : Nat) : Call T → Prog Fault (Memory P T) (Result T)
  | .emplace item => do
    let r ← emplace A item fuel
    match r with
    | none => pure .threw
    | some r => pure (.emplaced r)
  | .popFront => do
    let r ← popFront fuel
    match r with
    | none => pure .empty
    | some ret => pure (.popped ret)

def calls (A : Allocator (limit P)) (fuel : Nat) :
    List (Call T) → Prog Fault (Memory P T) (List (Result T))
  | [] => pure []
  | c :: cs => do
    let r ← call A fuel c
    let rs ← calls A fuel cs
    pure (r :: rs)

/-- A queue is constructed and used; `none` if the constructor throws. -/
def program (A : Allocator (limit P)) (poolSize : Nat) (cs : List (Call T)) (fuel : Nat) :
    Prog Fault (Memory P T) (Option (List (Result T))) := do
  let done ← queue A poolSize fuel
  if done then some <$> calls A fuel cs else pure none

/-! ## The list of the nodes -/

structure Chain (m : Memory P T) (d : Ptr) (ns : List Ptr) (items : List T) : Prop where
  links : Links (fun a => getPtr (m.next a)) (d :: ns)
  data : ns.map m.data = items.map some
  head : getPtr m.m_head = d
  tail : (d :: ns).getLast? = some (getPtr m.m_tail)
  tags : getTag m.m_tail = nextTag^[ns.length] (getTag m.m_head)
  size : m.m_size = UInt64.ofNat ns.length

structure Queue (A : Allocator (limit P)) (m : Memory P T) (d : Ptr) (ns free : List Ptr)
    (items : List T) : Prop where
  pool : Pool A m (d :: ns) free
  chain : Chain m d ns items

variable {A : Allocator (limit P)} {m m' : Memory P T} {d t : Ptr} {ns free : List Ptr}
  {items : List T} {x : T} {fuel : Nat}

theorem Links.concat {f g : Ptr → Ptr} {l : List Ptr} {a t : Ptr} (h : Links f (l ++ [a]))
    (hg : ∀ b ∈ l, g b = f b) (ha : g a = t) (ht : g t = 0) : Links g (l ++ [a] ++ [t]) := by
  induction l with
  | nil => exact ⟨ha, ht, trivial⟩
  | cons b l ih =>
    obtain ⟨hb, hl⟩ := h
    refine ⟨?_, ih hl fun c hc => hg c (List.mem_cons_of_mem b hc)⟩
    rw [hg b List.mem_cons_self, hb]
    cases l <;> rfl

theorem Links.last {f : Ptr → Ptr} {l : List Ptr} {a : Ptr} (h : Links f (l ++ [a])) :
    f a = 0 := by
  induction l with
  | nil => exact h.1
  | cons b l ih => exact ih h.2

namespace Chain

theorem frame (h : Chain m d ns items) (hf : Frame (d :: ns) m m') : Chain m' d ns items where
  links := h.links.congr fun a ha => congrArg getPtr (hf.next a ha)
  data := by
    rw [← h.data]
    exact List.map_congr_left fun a ha => hf.data a (List.mem_cons_of_mem d ha)
  head := by rw [hf.head, h.head]
  tail := by rw [hf.tail, h.tail]
  tags := by rw [hf.tail, hf.head, h.tags]
  size := by rw [hf.size, h.size]

theorem length_eq (h : Chain m d ns items) : ns.length = items.length := by
  have hlen := congrArg List.length h.data
  simpa using hlen

/-- The last node, and the ones in front of it. -/
theorem exists_last (h : Chain m d ns items) : ∃ l, d :: ns = l ++ [getPtr m.m_tail] :=
  List.getLast?_eq_some_iff.mp h.tail

theorem head_eq_tail_iff (h : Chain m d ns items) (hn : (d :: ns).Nodup) :
    m.m_head = m.m_tail ↔ ns = [] := by
  constructor
  · intro heq
    cases ns with
    | nil => rfl
    | cons b ns =>
      have hlast : getPtr m.m_tail ∈ b :: ns := by
        have htail := h.tail
        rw [List.getLast?_cons_cons] at htail
        exact List.mem_of_getLast? htail
      rw [← heq, h.head] at hlast
      exact absurd hlast (List.nodup_cons.mp hn).1
  · rintro rfl
    have htail : some d = some (getPtr m.m_tail) := h.tail
    exact TaggedPtr.ext _ _ (h.head.trans (Option.some.inj htail)) h.tags.symm

/-- A node is linked behind the last one, and becomes the last one. -/
theorem push (h : Chain m d ns items) (hn : (t :: d :: ns).Nodup)
    (hmake : ∀ x, getPtr (make t x : P) = t) (ht : getPtr (m.next t) = 0)
    (hx : m.data t = some x) (y : TaggedPtr.Tag P) :
    Chain (((m.setNext (getPtr m.m_tail) (make t y)).setTail
      (make t (getNextTag m.m_tail))).setSize (m.m_size + 1)) d (ns ++ [t]) (items ++ [x]) := by
  obtain ⟨l, hl⟩ := h.exists_last
  have hnodup := hn
  rw [hl, List.nodup_cons, List.nodup_append] at hnodup
  obtain ⟨htnot, -, -, hlast⟩ := hnodup
  have hne : t ≠ getPtr m.m_tail := fun he => htnot (by simp [he])
  refine ⟨?_, ?_, h.head, ?_, ?_, ?_⟩
  · have hlinks := h.links
    rw [← List.cons_append, hl]
    rw [hl] at hlinks
    refine hlinks.concat (fun b hb => ?_) ?_ ?_
    · exact congrArg getPtr (Memory.next_setNext_of_ne (hlast b hb _ (List.mem_singleton_self _)))
    · exact (congrArg getPtr Memory.next_setNext_self).trans (hmake y)
    · exact (congrArg getPtr (Memory.next_setNext_of_ne hne)).trans ht
  · rw [List.map_append, List.map_append, ← h.data]
    exact congrArg (ns.map m.data ++ [·]) hx
  · refine List.getLast?_eq_some_iff.mpr ⟨d :: ns, ?_⟩
    exact congrArg (d :: ns ++ [·]) (hmake _).symm
  · rw [List.length_append, List.length_singleton, Function.iterate_succ_apply']
    exact (TaggedPtr.getTag_make _ _).trans (congrArg nextTag h.tags)
  · rw [List.length_append, List.length_singleton, UInt64.ofNat_add, ← h.size]
    rfl

/-- The first node is the new dummy, and its value leaves. -/
theorem pop {b : Ptr} (h : Chain m d (b :: ns) (x :: items))
    (hmake : ∀ x, getPtr (make b x : P) = b) :
    Chain ((m.setHead (make b (getNextTag m.m_head))).setSize (m.m_size - 1)) b ns items := by
  obtain ⟨-, hdata⟩ := List.cons.inj h.data
  refine ⟨h.links.2, hdata, hmake _, ?_, ?_, ?_⟩
  · have htail := h.tail
    rwa [List.getLast?_cons_cons] at htail
  · have htags := h.tags
    rw [List.length_cons, Function.iterate_succ_apply] at htags
    rw [show getTag ((m.setHead (make b (getNextTag m.m_head))).setSize (m.m_size - 1)).m_head =
      getNextTag m.m_head from TaggedPtr.getTag_make _ _]
    exact htags
  · have hsize := h.size
    rw [List.length_cons, UInt64.ofNat_add] at hsize
    show m.m_size - 1 = _
    rw [hsize]
    exact UInt64.add_sub_cancel _ _

end Chain

/-! ## The calls of the queue -/

/-- A node has the pointer `nullptr` and the value when it has been constructed. -/
theorem returns_construct {used : List Ptr} {item : Option T} (h : Pool A m used free)
    (hfuel : m.spurious.length < fuel) :
    Returns (construct A item fuel) m fun r m' => Frame used m m' ∧
      match r with
      | none => free = [] ∧ A.address m.allocated = none ∧ Pool A m' used []
      | some t => Pool A m' (t :: used) free.tail ∧
          (free = [] → A.address m.allocated = some t) ∧ getPtr (m'.next t) = 0 ∧
          ∀ x, item = some x → m'.data t = some x := by
  simp only [construct]
  refine returns_bind.mpr ((returns_allocateSafe h hfuel).mono fun r s hr => ?_)
  obtain ⟨hframe, hr⟩ := hr
  cases r with
  | none => exact returns_pure.mpr ⟨hframe, hr⟩
  | some t =>
    obtain ⟨hpool, hnew⟩ := hr
    obtain ⟨hused, hfree⟩ := hpool.not_mem
    have hset := hpool.setNext (p := make 0 zero) hfree
    have hframe' := hframe.trans (.setNext (p := make 0 zero) hused)
    have hnull : getPtr ((s.setNext t (make 0 zero)).next t) = 0 := by
      rw [Memory.next_setNext_self, getPtr_make_zero]
    refine .ite (fun hz => absurd hz hpool.allocated_head.ne_null) fun _ => ?_
    simp only [returns_bind, returns_modify]
    cases item with
    | none =>
      refine returns_pure.mpr ⟨hframe', hset, hnew, hnull, ?_⟩
      intro y hy
      cases hy
    | some x =>
      simp only [returns_bind, returns_modify]
      refine returns_pure.mpr ⟨hframe'.trans (.setData hused), hset.setData, hnew, hnull, ?_⟩
      intro y hy
      rw [Memory.data_setData_self, hy]

theorem returns_deref {p : P} (h : getPtr p ≠ 0) :
    Returns (deref p) m fun a m' => a = getPtr p ∧ m' = m := by
  rw [deref, if_neg h]
  exact returns_pure.mpr ⟨rfl, rfl⟩

theorem returns_pushBack (hp : Pool A m (t :: d :: ns) free) (hc : Chain m d ns items)
    (ht : getPtr (m.next t) = 0) (hx : m.data t = some x) (hfuel : m.spurious.length < fuel) :
    Returns (pushBack t fuel) m fun r m' => r = true ∧ m'.allocated = m.allocated ∧
      m'.spurious.length ≤ m.spurious.length ∧ Queue A m' d (ns ++ [t]) free (items ++ [x]) := by
  rw [pushBack]
  refine Returns.loop (I := fun n _ s => n = s.spurious.length ∧ s.allocated = m.allocated ∧
    s.spurious.length ≤ m.spurious.length ∧ Pool A s (t :: d :: ns) free ∧ Chain s d ns items ∧
    getPtr (s.next t) = 0 ∧ s.data t = some x) (fun n _ s hI => ?_) hfuel
    ⟨rfl, rfl, Nat.le_refl _, hp, hc, ht, hx⟩
  obtain ⟨rfl, hsame, hle, hpool, hchain, hnull, hdata⟩ := hI
  obtain ⟨l, hl⟩ := hchain.exists_last
  have hmem : getPtr s.m_tail ∈ d :: ns := by
    rw [hl]
    exact List.mem_append_right l (List.mem_singleton_self _)
  have halloc := hpool.allocated _ (List.mem_append_left free (List.mem_cons_of_mem t hmem))
  have hlast : getPtr (s.next (getPtr s.m_tail)) = 0 := by
    have hlinks := hchain.links
    rw [hl] at hlinks
    exact hlinks.last
  simp only [pushBackBody, returns_bind, returns_get]
  refine (returns_deref halloc.ne_null).mono fun a s' ha => ?_
  obtain ⟨rfl, rfl⟩ := ha
  refine .ite (fun _ => ?_) fun hne => absurd hlast hne
  simp only [returns_bind]
  refine returns_exchangeWeak ?_ fun hlt => ?_
  · have hset := hpool.tick.setNext (p := make t (getNextTag (s'.next (getPtr s'.m_tail))))
      (List.disjoint_of_nodup_append hpool.nodup (List.mem_cons_of_mem t hmem))
    have hperm := hset.perm (List.perm_append_singleton t (d :: ns)).symm
    have hpush := (hchain.frame (.tick _ _)).push (List.nodup_append.mp hpool.nodup).1
      hpool.allocated_head.getPtr_make hnull hdata (getNextTag (s'.next (getPtr s'.m_tail)))
    have hkept : (s'.tick.setNext (getPtr s'.m_tail)
        (make t (getNextTag (s'.next (getPtr s'.m_tail))))).m_tail = s'.m_tail := rfl
    simp only [returns_bind, returns_modify]
    rw [Memory.casTail_of_eq hkept]
    refine returns_pure.mpr ⟨rfl, hsame, ?_, ?_, hpush⟩
    · exact Nat.le_trans (Frame.tick (d :: ns) s').spurious hle
    · exact ⟨hperm.top, hperm.links, hperm.nodup, hperm.allocated, hperm.count⟩
  · exact returns_pure.mpr
      ⟨_, hlt, rfl, hsame, Nat.le_trans (Nat.le_of_lt hlt) hle, hpool.tick, hchain.frame (.tick _ _),
        hnull, hdata⟩

/-- What `pop_front` returns, and the values that are left. -/
theorem returns_popFront (h : Queue A m d ns free items) (hfuel : m.spurious.length < fuel) :
    Returns (popFront fuel) m fun r m' => r = items.head?.map some ∧ m'.allocated = m.allocated ∧
      m'.spurious.length ≤ m.spurious.length ∧
      ∃ d' ns' free', Queue A m' d' ns' free' items.tail := by
  rw [popFront]
  refine Returns.loop (I := fun n _ s => n = s.spurious.length ∧ s.allocated = m.allocated ∧
    s.spurious.length ≤ m.spurious.length ∧ Queue A s d ns free items) (fun n _ s hI => ?_) hfuel
    ⟨rfl, rfl, Nat.le_refl _, h⟩
  obtain ⟨rfl, hsame, hle, hpool, hchain⟩ := hI
  have hhead := hchain.head
  have hd : getPtr s.m_head ≠ 0 := hhead ▸ (hpool.allocated d (by simp)).ne_null
  have hempty := hchain.head_eq_tail_iff (List.nodup_append.mp hpool.nodup).1
  have hlen := hchain.length_eq
  simp only [popFrontBody, returns_bind, returns_get]
  refine (returns_deref hd).mono fun a s' ha => ?_
  obtain ⟨rfl, rfl⟩ := ha
  have hnext : getPtr (s'.next (getPtr s'.m_head)) = ns.headD 0 := hhead ▸ hchain.links.1
  refine .ite (fun heq => ?_) fun hne => ?_
  · obtain rfl := hempty.mp heq
    obtain rfl := List.eq_nil_of_length_eq_zero hlen.symm
    refine .ite (fun _ => ?_) fun hne => absurd hnext hne
    exact returns_pure.mpr ⟨rfl, hsame, hle, d, [], free, hpool, hchain⟩
  · obtain ⟨b, ns, rfl⟩ := List.exists_cons_of_ne_nil fun hnil => hne (hempty.mpr hnil)
    obtain ⟨x, items, rfl⟩ : ∃ x l, items = x :: l :=
      List.exists_cons_of_length_pos (by rw [← hlen]; exact Nat.succ_pos _)
    have hb := hpool.allocated b (by simp)
    refine .ite (fun hz => absurd (hnext.symm.trans hz) hb.ne_null) fun _ => ?_
    have hdata : s'.data b = some x := (List.cons.inj hchain.data).1
    simp only [returns_bind]
    rw [hnext, hhead]
    show Returns (exchangeWeak _ _ _ (make b _)) s' _
    refine returns_exchangeWeak ?_ fun hlt => ?_
    · have hpool' : Pool A (s'.tick.setHead (make b (getNextTag s'.m_head))) (d :: b :: ns) free :=
        ⟨hpool.top, hpool.links, hpool.nodup, hpool.allocated, hpool.count⟩
      have hchain' := (hchain.frame (.tick _ _)).pop hb.getPtr_make
      have hfuel' : s'.tick.spurious.length < fuel :=
        Nat.lt_of_le_of_lt (Frame.tick ns s').spurious (Nat.lt_of_le_of_lt hle hfuel)
      refine returns_bind.mpr ((returns_deallocateSafe hpool' hfuel').mono fun _ m' hm' => ?_)
      obtain ⟨hframe, hfree⟩ := hm'
      simp only [returns_bind, returns_modify]
      rw [hframe.size]
      have hcount := hpool.count
      have hcount' := hfree.count
      simp only [List.length_cons] at hcount hcount'
      refine returns_pure.mpr ⟨congrArg some hdata, ?_, ?_, b, ns, d :: free, ?_, ?_⟩
      · show m'.allocated = m.allocated
        omega
      · exact Nat.le_trans hframe.spurious (Nat.le_trans (Frame.tick ns s').spurious hle)
      · exact ⟨hfree.top, hfree.links, hfree.nodup, hfree.allocated, hfree.count⟩
      · exact hchain'.frame (hframe.setSize _)
    · exact returns_pure.mpr ⟨_, hlt, rfl, hsame, Nat.le_trans (Nat.le_of_lt hlt) hle,
        hpool.tick, hchain.frame (.tick _ _)⟩

/-- The memory of a queue that holds what `q` does. -/
def Holds (A : Allocator (limit P)) (m : Memory P T) (q : Fifo T) : Prop :=
  m.allocated = q.nodes ∧ ∃ d ns free, Queue A m d ns free q.items

theorem returns_emplace {q : Fifo T} (h : Holds A m q) (hfuel : m.spurious.length < fuel) :
    Returns (call A fuel (.emplace x)) m fun r m' => r = (q.emplace A x).1 ∧
      Holds A m' (q.emplace A x).2 ∧ m'.spurious.length ≤ m.spurious.length := by
  obtain ⟨hnodes, d, ns, free, hpool, hchain⟩ := h
  have hlen := hchain.length_eq
  have hcount := hpool.count
  simp only [List.length_cons] at hcount
  simp only [call, emplace, returns_bind]
  refine (returns_construct hpool hfuel).mono fun r s hr => ?_
  obtain ⟨hframe, hr⟩ := hr
  cases r with
  | none =>
    obtain ⟨rfl, hnone, hpool'⟩ := hr
    have hfull : ¬ q.items.length + 1 < q.nodes := by
      simp only [List.length_nil] at hcount
      omega
    rw [hnodes] at hnone
    rw [Fifo.emplace, if_neg hfull, hnone]
    refine returns_pure.mpr (returns_pure.mpr ⟨rfl, ⟨?_, d, ns, [], hpool', ?_⟩, hframe.spurious⟩)
    · rw [← hpool'.count, ← hnodes, ← hpool.count]
    · exact hchain.frame hframe
  | some t =>
    obtain ⟨hpool', hnew, hnull, hdata⟩ := hr
    have hcount' := hpool'.count
    simp only [List.length_cons, List.length_tail] at hcount'
    refine .ite (fun hz => absurd hz hpool'.allocated_head.ne_null) fun _ => ?_
    refine returns_map.mpr ((returns_pushBack hpool' (hchain.frame hframe) hnull (hdata x rfl)
      (Nat.lt_of_le_of_lt hframe.spurious hfuel)).mono fun r' m' hr' => ?_)
    obtain ⟨rfl, hsame, hle, hqueue⟩ := hr'
    refine returns_pure.mpr ?_
    have hspurious := Nat.le_trans hle hframe.spurious
    cases free with
    | nil =>
      have hfull : ¬ q.items.length + 1 < q.nodes := by
        simp only [List.length_nil] at hcount
        omega
      have haddress := hnew rfl
      rw [hnodes] at haddress
      rw [Fifo.emplace, if_neg hfull, haddress]
      refine ⟨rfl, ⟨?_, d, ns ++ [t], _, hqueue⟩, hspurious⟩
      simp only [List.length_nil] at hcount hcount'
      show m'.allocated = q.nodes + 1
      omega
    | cons f free =>
      simp only [List.length_cons] at hcount hcount'
      rw [Fifo.emplace, if_pos (by omega)]
      refine ⟨rfl, ⟨?_, d, ns ++ [t], _, hqueue⟩, hspurious⟩
      show m'.allocated = q.nodes
      omega

theorem returns_call {q : Fifo T} (c : Call T) (h : Holds A m q)
    (hfuel : m.spurious.length < fuel) :
    Returns (call A fuel c) m fun r m' => r = (q.call A c).1 ∧ Holds A m' (q.call A c).2 ∧
      m'.spurious.length ≤ m.spurious.length := by
  cases c with
  | emplace x => exact returns_emplace h hfuel
  | popFront =>
    obtain ⟨hnodes, d, ns, free, hqueue⟩ := h
    simp only [call, returns_bind]
    refine (returns_popFront hqueue hfuel).mono fun r m' hr => ?_
    obtain ⟨rfl, hsame, hle, hqueue'⟩ := hr
    obtain ⟨items, nodes⟩ := q
    cases items with
    | nil => exact returns_pure.mpr ⟨rfl, ⟨hsame.trans hnodes, hqueue'⟩, hle⟩
    | cons x items => exact returns_pure.mpr ⟨rfl, ⟨hsame.trans hnodes, hqueue'⟩, hle⟩

theorem returns_calls (cs : List (Call T)) {q : Fifo T} (h : Holds A m q)
    (hfuel : m.spurious.length < fuel) :
    Returns (calls A fuel cs) m fun rs m' => rs = (q.run A cs).1 ∧ Holds A m' (q.run A cs).2 := by
  induction cs generalizing m q with
  | nil => exact returns_pure.mpr ⟨rfl, h⟩
  | cons c cs ih =>
    simp only [calls, returns_bind]
    refine (returns_call c h hfuel).mono fun r s hr => ?_
    obtain ⟨rfl, hs, hle⟩ := hr
    refine (ih hs (Nat.lt_of_le_of_lt hle hfuel)).mono fun rs m' hrs => ?_
    obtain ⟨rfl, hm'⟩ := hrs
    exact returns_pure.mpr ⟨rfl, hm'⟩

/-! ## The constructor -/

theorem pool_start (spurious : List Bool) :
    Pool A (.start spurious : Memory P T) [] [] where
  top := getPtr_make_zero _
  links := trivial
  nodup := .nil
  allocated := nofun
  count := rfl

theorem returns_freelist (spurious : List Bool) (hfuel : spurious.length < fuel) (i : Nat) :
    Returns (freelist A fuel i) (.start spurious : Memory P T) fun done m' =>
      match done with
      | true => Frame [] (.start spurious) m' ∧ m'.allocated = i ∧ ∃ free, Pool A m' [] free
      | false => ∃ j < i, A.address j = none := by
  induction i with
  | zero => exact returns_pure.mpr ⟨.refl [] _, rfl, [], pool_start spurious⟩
  | succ i ih =>
    simp only [freelist, returns_bind]
    refine ih.mono fun done s hs => ?_
    cases done with
    | false =>
      obtain ⟨j, hj, hnone⟩ := hs
      exact returns_pure.mpr ⟨j, Nat.lt_succ_of_lt hj, hnone⟩
    | true =>
      obtain ⟨hframe, hsame, free, hpool⟩ := hs
      refine returns_bind.mpr ((returns_allocate hpool).mono fun r s' hr => ?_)
      obtain ⟨hframe', haddress, hpool'⟩ := hr
      rw [hsame] at haddress
      cases r with
      | none => exact returns_pure.mpr ⟨i, Nat.lt_succ_self i, haddress.symm⟩
      | some t =>
        have hspurious := Nat.le_trans hframe'.spurious hframe.spurious
        refine returns_bind.mpr ((returns_deallocateSafe hpool'
          (Nat.lt_of_le_of_lt hspurious hfuel)).mono fun _ m' hm' => ?_)
        obtain ⟨hframe'', hpool''⟩ := hm'
        refine returns_pure.mpr ⟨hframe.trans (hframe'.trans hframe''), ?_, _, hpool''⟩
        rw [← hpool''.count, ← hsame, ← hpool.count]
        rfl

/-- An empty queue, with a node for the dummy. -/
theorem returns_queue (spurious : List Bool) (hfuel : spurious.length < fuel) (poolSize : Nat) :
    Returns (queue A poolSize fuel) (.start spurious : Memory P T) fun done m' =>
      match done with
      | true => Holds A m' ⟨[], max poolSize 1⟩ ∧ m'.spurious.length ≤ spurious.length
      | false => ∃ j < max poolSize 1, A.address j = none := by
  simp only [queue, returns_bind]
  refine (returns_freelist spurious hfuel poolSize).mono fun done s hs => ?_
  cases done with
  | false =>
    obtain ⟨j, hj, hnone⟩ := hs
    exact returns_pure.mpr ⟨j, Nat.lt_of_lt_of_le hj (Nat.le_max_left _ _), hnone⟩
  | true =>
    obtain ⟨hframe, hsame, free, hpool⟩ := hs
    refine returns_bind.mpr ((returns_construct hpool
      (Nat.lt_of_le_of_lt hframe.spurious hfuel)).mono fun r s' hr => ?_)
    obtain ⟨hframe', hr⟩ := hr
    have hcount := hpool.count
    simp only [List.length_nil] at hcount
    cases r with
    | none =>
      obtain ⟨rfl, hnone, -⟩ := hr
      simp only [List.length_nil] at hcount
      have hzero : s.allocated = 0 := by omega
      rw [hzero] at hnone
      exact returns_pure.mpr ⟨0, by omega, hnone⟩
    | some t =>
      obtain ⟨hpool', -, hnull, -⟩ := hr
      have hcount' := hpool'.count
      simp only [List.length_cons, List.length_nil, List.length_tail] at hcount'
      have ht := hpool'.allocated_head.getPtr_make (zero : TaggedPtr.Tag P)
      simp only [returns_bind, returns_modify]
      refine returns_pure.mpr ⟨⟨?_, t, [], free.tail, ?_, ?_⟩, ?_⟩
      · show s'.allocated = max poolSize 1
        omega
      · exact ⟨hpool'.top, hpool'.links, hpool'.nodup, hpool'.allocated, hpool'.count⟩
      · exact ⟨⟨hnull, trivial⟩, rfl, ht, congrArg some ht.symm, rfl,
          hframe'.size.trans hframe.size⟩
      · exact Nat.le_trans hframe'.spurious hframe.spurious

/-! ## Every sequence of calls -/

theorem Holds.empty_iff {q : Fifo T} (h : Holds A m q) : m.empty = true ↔ q.items = [] := by
  obtain ⟨-, d, ns, free, hpool, hchain⟩ := h
  rw [Memory.empty, decide_eq_true_iff,
    hchain.head_eq_tail_iff (List.nodup_append.mp hpool.nodup).1, ← List.length_eq_zero_iff,
    hchain.length_eq, List.length_eq_zero_iff]

/-- There are not more nodes than addresses, so the counter does not wrap. -/
theorem Holds.size_eq {q : Fifo T} (h : Holds A m q) : m.size.toNat = q.items.length := by
  obtain ⟨-, d, ns, free, hpool, hchain⟩ := h
  have hnodup : ((d :: ns).map UInt64.toNat).Nodup :=
    (List.nodup_append.mp hpool.nodup).1.map fun _ _ he => UInt64.toNat_inj.mp he
  have hsub : (d :: ns).map UInt64.toNat ⊆ List.range (2 ^ 64) := by
    intro n hn
    obtain ⟨a, -, rfl⟩ := List.mem_map.mp hn
    exact List.mem_range.mpr a.toNat_lt
  have hle := (List.subperm_of_subset hnodup hsub).length_le
  rw [List.length_map, List.length_cons, List.length_range] at hle
  rw [Memory.size, hchain.size, ← hchain.length_eq, UInt64.toNat_ofNat']
  exact Nat.mod_eq_of_lt hle

/-- What a queue that has been constructed and used has returned, and is then. -/
structure Refines (A : Allocator (limit P)) (poolSize : Nat) (cs : List (Call T))
    (rs : List (Result T)) (m : Memory P T) : Prop where
  results : rs = (Fifo.run A ⟨[], max poolSize 1⟩ cs).1
  size : m.size.toNat = (Fifo.run A ⟨[], max poolSize 1⟩ cs).2.items.length
  empty : m.empty = true ↔ (Fifo.run A ⟨[], max poolSize 1⟩ cs).2.items = []

theorem returns_program (A : Allocator (limit P)) (poolSize : Nat) (cs : List (Call T))
    {spurious : List Bool} (hfuel : spurious.length < fuel) :
    Returns (program A poolSize cs fuel) (.start spurious) fun r m =>
      match r with
      | some rs => Refines A poolSize cs rs m
      | none => ∃ j < max poolSize 1, A.address j = none := by
  simp only [program, returns_bind]
  refine (returns_queue spurious hfuel poolSize).mono fun done s hs => ?_
  cases done with
  | false => exact returns_pure.mpr hs
  | true =>
    obtain ⟨hs, hle⟩ := hs
    refine returns_map.mpr ((returns_calls cs hs
      (Nat.lt_of_le_of_lt hle hfuel)).mono fun rs m hrs => ?_)
    obtain ⟨hrs, hm⟩ := hrs
    exact ⟨hrs, hm.size_eq, hm.empty_iff⟩

/-- **One thread sees a FIFO queue**, with either tagged pointer, whatever addresses the allocator
gives and however often `compare_exchange_weak` fails on a value that has not changed. -/
theorem refines_fifo (T : Type) (poolSize : Nat) (cs : List (Call T)) {spurious : List Bool}
    (hfuel : spurious.length < fuel) :
    (∀ A : Allocator (2 ^ 64), Returns (program (P := Dcas) A poolSize cs fuel) (.start spurious)
      fun r m => match r with
        | some rs => Refines A poolSize cs rs m
        | none => ∃ j < max poolSize 1, A.address j = none) ∧
    ∀ A : Allocator (2 ^ 48), Returns (program (P := Compress) A poolSize cs fuel)
      (.start spurious) fun r m => match r with
        | some rs => Refines A poolSize cs rs m
        | none => ∃ j < max poolSize 1, A.address j = none :=
  ⟨fun A => returns_program (P := Dcas) A poolSize cs hfuel,
    fun A => returns_program (P := Compress) A poolSize cs hfuel⟩

/-- The addresses 16 and 32, and no more. -/
def twoNodes : Allocator (2 ^ 48) where
  address
    | 0 => some 16
    | 1 => some 32
    | _ + 2 => none
  address_inj i j a hi hj := by
    match i, j with
    | 0, 0 | 1, 1 => rfl
    | 0, 1 | 1, 0 =>
      cases hi
      exact absurd hj (by decide)
    | _ + 2, _ => cases hi
    | 0, _ + 2 | 1, _ + 2 => cases hj
  ne_null := by
    rintro (_ | _ | i) hi
    all_goals cases hi
  lt_limit := by
    rintro (_ | _ | i) a hi
    all_goals cases hi
    all_goals decide

theorem refines_fifo_twoNodes :
    Returns (program (P := Compress) twoNodes 2 [.emplace 'a', .popFront, .popFront] 2)
      (.start [true]) fun r m =>
        r = some [.emplaced true, .popped (some 'a'), .empty] ∧ m.size.toNat = 0 := by
  have hfuel : [true].length < 2 := by decide
  have hrun : Fifo.run twoNodes ⟨[], max 2 1⟩ [.emplace 'a', .popFront, .popFront] =
      ([.emplaced true, .popped (some 'a'), .empty], ⟨[], 2⟩) := rfl
  refine ((refines_fifo Char 2 [.emplace 'a', .popFront, .popFront] hfuel).2 twoNodes).mono
    fun r m hr => ?_
  cases r with
  | some rs =>
    have hresults := hr.results
    have hsize := hr.size
    rw [hrun] at hresults hsize
    exact ⟨congrArg some hresults, hsize⟩
  | none =>
    obtain ⟨j, hj, hnone⟩ := hr
    match j, hj with
    | 0, _ => cases hnone
    | 1, _ => cases hnone

end Wish.Sequential
