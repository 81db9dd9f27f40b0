import Wish.Core.Freelist
import Wish.Machine

/-!
# Who has the nodes of the free list

Any number of threads in `allocate_safe` and `deallocate_safe`. A thread owns the nodes that
`allocate_safe` has returned to it, until it gives them to `deallocate_safe` or to another
thread; while it owns a node it may write anything into it, over the `next` as well.

`accounted`: after every run each node is owned by one thread, in one call of
`deallocate_safe`, or once on the list that starts at `m_pool`.
-/

namespace Wish.Lockfree.Pool

open Heap (Addr)
open Machine

inductive Pc where
  | idle
  | allocate (p : AllocPc)
  | deallocate (n : Addr) (p : DeallocPc)
  deriving DecidableEq

structure State (ι : Type) where
  mem : Freelist
  pc : ι → Pc
  owned : ι → List Addr

variable {ι : Type}

def init (poolSize : Nat) : State ι := ⟨.fill poolSize, fun _ => .idle, fun _ => []⟩

inductive Act (ι : Type) where
  /-- the thread calls `allocate_safe` -/
  | allocate (t : ι)
  /-- the thread calls `deallocate_safe` -/
  | deallocate (t : ι) (n : Addr)
  /-- the thread writes over the `next` of a node -/
  | write (t : ι) (n : Addr) (p : TaggedPtr)
  /-- the thread `t` passes a node on to the thread `u` -/
  | give (t u : ι) (n : Addr)
  | next (t : ι)
  | fail (t : ι)

variable [DecidableEq ι]

namespace State

variable (s : State ι)

def setMem (m : Freelist) : State ι := { s with mem := m }

def setPc (t : ι) (p : Pc) : State ι := { s with pc := Function.update s.pc t p }

def gain (t : ι) (n : Addr) : State ι :=
  { s with owned := Function.update s.owned t (n :: s.owned t) }

def lose (t : ι) (n : Addr) : State ι :=
  { s with owned := Function.update s.owned t ((s.owned t).erase n) }

end State

/-- One step of the thread `t` in its call. -/
def next (s : State ι) (t : ι) : Option (State ι) :=
  match s.pc t with
  | .idle => none
  | .allocate p => do
    let r ← p.step s.mem
    match r.2 with
    | .inl p => some ((s.setMem r.1).setPc t (.allocate p))
    | .inr n => some (((s.setMem r.1).setPc t .idle).gain t n)
  | .deallocate n p =>
    let r := p.step s.mem n
    match r.2 with
    | some p => some ((s.setMem r.1).setPc t (.deallocate n p))
    | none => some ((s.setMem r.1).setPc t .idle)

/-- A `compare_exchange_weak` fails though it need not. -/
def fail (s : State ι) (t : ι) : Option (State ι) :=
  match s.pc t with
  | .idle => none
  | .allocate p => (p.fail s.mem).map fun p => s.setPc t (.allocate p)
  | .deallocate n p => (p.fail s.mem).map fun p => s.setPc t (.deallocate n p)

def step (s : State ι) : Act ι → Option (State ι)
  | .allocate t => if s.pc t = .idle then some (s.setPc t (.allocate .load)) else none
  | .deallocate t n =>
    if s.pc t = .idle ∧ n ∈ s.owned t then some ((s.lose t n).setPc t (.deallocate n .load))
    else none
  | .write t n p =>
    if s.pc t = .idle ∧ n ∈ s.owned t then some (s.setMem (s.mem.setNext n p)) else none
  | .give t u n =>
    if s.pc t = .idle ∧ n ∈ s.owned t then some ((s.lose t n).gain u n) else none
  | .next t => next s t
  | .fail t => fail s t

/-! ## Where a node is -/

inductive Place (ι : Type) where
  /-- the allocator has not returned it yet -/
  | fresh
  | owned (t : ι)
  /-- in a call of `deallocate_safe` -/
  | transit (t : ι)
  | free

/-- The node that a call of `deallocate_safe` has. -/
def Pc.node : Pc → Option Addr
  | .deallocate n _ => some n
  | _ => none

@[simp] theorem Pc.node_idle : Pc.idle.node = none := rfl

@[simp] theorem Pc.node_allocate (p : AllocPc) : (Pc.allocate p).node = none := rfl

@[simp] theorem Pc.node_deallocate (p : DeallocPc) (n : Addr) :
    (Pc.deallocate n p).node = some n := rfl

/-- The node `n` is at the place `p`, when `free` are the nodes on the list. -/
def Sits (s : State ι) (free : List Addr) (n : Addr) : Place ι → Prop
  | .fresh => s.mem.fresh ≤ n
  | .owned t => n ∈ s.owned t
  | .transit t => (s.pc t).node = some n
  | .free => n ∈ free

def Pc.Ok (m : Freelist) (free : List Addr) : Pc → Prop
  | .idle => True
  | .allocate p => p.Ok m free
  | .deallocate n p => p.Ok m n

structure Inv (s : State ι) (free : List Addr) : Prop where
  linked : s.mem.Linked free
  free_nodup : free.Nodup
  owned_nodup : ∀ t, (s.owned t).Nodup
  place : ∀ n, ∃! p, Sits s free n p
  pc : ∀ t, (s.pc t).Ok s.mem free

variable {s s' : State ι} {free free' : List Addr} {m : Freelist} {t u : ι} {a n : Addr} {p : Pc}

@[simp] theorem mem_gain : a ∈ (s.gain t n).owned u ↔ (u = t ∧ a = n) ∨ a ∈ s.owned u := by
  by_cases h : u = t
  · subst h
    simp [State.gain]
  · simp [State.gain, h]

theorem mem_lose (h : (s.owned t).Nodup) :
    a ∈ (s.lose t n).owned u ↔ a ∈ s.owned u ∧ ¬ (u = t ∧ a = n) := by
  by_cases hu : u = t
  · subst hu
    simp only [State.lose, Function.update_self, h.mem_erase_iff, true_and]
    exact And.comm
  · simp [State.lose, hu]

omit [DecidableEq ι] in
theorem Inv.eq {p q : Place ι} (h : Inv s free) (hp : Sits s free n p) (hq : Sits s free n q) :
    p = q :=
  (h.place n).unique hp hq

omit [DecidableEq ι] in
theorem Inv.sits_iff {q : Place ι} (h : Inv s free) (hq : Sits s free n q) (p : Place ι) :
    Sits s free n p ↔ p = q := by
  constructor
  · intro hp
    exact h.eq hp hq
  · intro hp
    exact hp ▸ hq

omit [DecidableEq ι] in
/-- Only the node `n` changes its place. -/
theorem Inv.place_move {q : Place ι} (h : Inv s free) (hn : ∀ p, Sits s' free' n p ↔ p = q)
    (hother : ∀ a, a ≠ n → ∀ p, Sits s' free' a p ↔ Sits s free a p) (a : Addr) :
    ∃! p, Sits s' free' a p := by
  by_cases ha : a = n
  · subst ha
    exact ⟨q, (hn q).mpr rfl, fun p hp => (hn p).mp hp⟩
  · obtain ⟨p, hp, huniq⟩ := h.place a
    exact ⟨p, (hother a ha p).mpr hp, fun r hr => huniq r ((hother a ha r).mp hr)⟩

theorem Pc.Ok.keeps {m' : Freelist} (h : p.Ok m free) (hg : Freelist.Grows m free m' free')
    (hn : ∀ n, p.node = some n → m'.next n = m.next n) : p.Ok m' free' := by
  cases p with
  | idle => trivial
  | allocate p => exact AllocPc.Ok.grows h hg
  | deallocate n p =>
    cases p with
    | load => trivial
    | set old => trivial
    | cas old =>
      have hnext : m'.next n = m.next n := hn n rfl
      show (m'.next n).ptr = old.ptr
      rw [hnext]
      exact h

/-- The thread `t` takes a step that the list may go through for all the others. -/
theorem Inv.move {owned : ι → List Addr} (h : Inv s free)
    (hg : Freelist.Grows s.mem free m free')
    (hnext : ∀ u, u ≠ t → ∀ n, (s.pc u).node = some n → m.next n = s.mem.next n)
    (hp : p.Ok m free') (hlinked : m.Linked free') (hfree : free'.Nodup)
    (howned : ∀ u, (owned u).Nodup)
    (hplace : ∀ n, ∃! q, Sits ⟨m, Function.update s.pc t p, owned⟩ free' n q) :
    Inv ⟨m, Function.update s.pc t p, owned⟩ free' := by
  refine ⟨hlinked, hfree, howned, hplace, fun u => ?_⟩
  by_cases hu : u = t
  · subst hu
    simpa using hp
  · show (Function.update s.pc t p u).Ok m free'
    rw [Function.update_of_ne hu]
    exact (h.pc u).keeps hg (hnext u hu)

/-! ## What the steps do -/

theorem sits_transit_update (free : List Addr) {mem : Freelist} {owned : ι → List Addr} :
    Sits ⟨mem, Function.update s.pc t p, owned⟩ free' n (.transit u) ↔
      if u = t then p.node = some n else Sits s free n (.transit u) := by
  by_cases hu : u = t
  · simp [Sits, hu]
  · simp [Sits, hu]

/-- Whether `n` is with the thread is nothing to the node `a`. -/
theorem sits_transit_of_ne {mem : Freelist} {owned : ι → List Addr} (ha : a ≠ n)
    (hp : p.node = none ∨ p.node = some n)
    (hold : (s.pc t).node = none ∨ (s.pc t).node = some n) :
    Sits ⟨mem, Function.update s.pc t p, owned⟩ free' a (.transit u) ↔
      Sits s free a (.transit u) := by
  rw [sits_transit_update free]
  split
  · next hu =>
    subst hu
    constructor
    · intro heq
      rcases hp with hp | hp
      · simp [hp] at heq
      · exact absurd (Option.some.inj (heq.symm.trans hp)) ha
    · intro heq
      rcases hold with hold | hold
      · simp [Sits, hold] at heq
      · exact absurd (Option.some.inj (heq.symm.trans hold)) ha
  · rfl

/-- No node changes its place. -/
theorem Inv.stay (h : Inv s free) (hg : Freelist.Grows s.mem free m free)
    (hnext : ∀ u, u ≠ t → ∀ n, (s.pc u).node = some n → m.next n = s.mem.next n)
    (hfresh : m.fresh = s.mem.fresh) (hlinked : m.Linked free)
    (hnode : p.node = (s.pc t).node) (hp : p.Ok m free) :
    Inv ((s.setMem m).setPc t p) free := by
  apply h.move hg hnext hp hlinked h.free_nodup h.owned_nodup
  intro n
  have hsits : ∀ q, Sits ⟨m, Function.update s.pc t p, s.owned⟩ free n q ↔
      Sits s free n q := by
    intro q
    cases q with
    | fresh => simp [Sits, hfresh]
    | owned u => rfl
    | transit u =>
      rw [sits_transit_update free]
      split
      · next hu => simp [Sits, hu, hnode]
      · rfl
    | free => rfl
  obtain ⟨q, hq, huniq⟩ := h.place n
  exact ⟨q, (hsits q).mpr hq, fun r hr => huniq r ((hsits r).mp hr)⟩

/-- The thread reads. -/
theorem Inv.read (h : Inv s free) (hnode : p.node = (s.pc t).node) (hp : p.Ok s.mem free) :
    Inv (s.setPc t p) free :=
  h.stay (Freelist.Grows.refl s.mem free) (fun _ _ _ _ => rfl) rfl h.linked hnode hp

/-- The thread writes the `next` of a node that it has. -/
theorem Inv.write {q : Place ι} {x : TaggedPtr} (h : Inv s free) (hn : Sits s free n q)
    (hq : q = .owned t ∨ q = .transit t) (hnode : p.node = (s.pc t).node)
    (hp : p.Ok (s.mem.setNext n x) free) :
    Inv ((s.setMem (s.mem.setNext n x)).setPc t p) free := by
  have hfree : n ∉ free := by
    intro hmem
    obtain rfl := h.eq hn (q := .free) hmem
    simp at hq
  apply h.stay (Freelist.grows_setNext hfree) _ rfl (h.linked.setNext hfree) hnode hp
  intro u hu a ha
  apply Freelist.next_setNext_of_ne
  intro heq
  subst heq
  obtain rfl := h.eq hn (q := .transit u) ha
  simp [hu] at hq

theorem Inv.owned_nodup_gain (h : Inv s free) (hn : n ∉ s.owned t) (u : ι) :
    ((s.gain t n).owned u).Nodup := by
  by_cases hu : u = t
  · subst hu
    simpa [State.gain] using ⟨hn, h.owned_nodup u⟩
  · simpa [State.gain, hu] using h.owned_nodup u

theorem Inv.owned_nodup_lose (h : Inv s free) (u : ι) : ((s.lose t n).owned u).Nodup := by
  by_cases hu : u = t
  · subst hu
    simpa [State.lose] using (h.owned_nodup u).erase n
  · simpa [State.lose, hu] using h.owned_nodup u

/-- `allocate_safe` returns a node of the allocator. -/
theorem Inv.new (h : Inv s free) (hnode : (s.pc t).node = none) :
    Inv (((s.setMem s.mem.extend).setPc t .idle).gain t s.mem.fresh) free := by
  have hsits := h.sits_iff (n := s.mem.fresh) (q := .fresh) (Nat.le_refl _)
  have hfree : s.mem.fresh ∉ free := fun hmem => by cases (hsits .free).mp hmem
  have hown : ∀ u, s.mem.fresh ∉ s.owned u := fun u hmem => by cases (hsits (.owned u)).mp hmem
  have hpc : ∀ u, (s.pc u).node ≠ some s.mem.fresh := fun u heq => by
    cases (hsits (.transit u)).mp heq
  apply h.move (Freelist.grows_extend hfree) _ (p := .idle) trivial (h.linked.extend hfree)
    h.free_nodup (h.owned_nodup_gain (hown t))
  · apply h.place_move (n := s.mem.fresh) (q := .owned t)
    · intro p
      cases p with
      | fresh => simp [Sits, Freelist.extend]
      | owned u =>
        show s.mem.fresh ∈ (s.gain t s.mem.fresh).owned u ↔ _
        simp [hown u]
      | transit u =>
        rw [sits_transit_update free]
        simp [Sits, hpc u]
      | free => simp [Sits, hfree]
    · intro a ha p
      cases p with
      | fresh =>
        have ha' : s.mem.fresh ≠ a := Ne.symm ha
        exact ⟨fun hle => Nat.le_of_succ_le hle, fun hle => Nat.lt_of_le_of_ne hle ha'⟩
      | owned u =>
        show a ∈ (s.gain t s.mem.fresh).owned u ↔ a ∈ s.owned u
        simp [ha]
      | transit u => exact sits_transit_of_ne ha (Or.inl rfl) (Or.inl hnode)
      | free => rfl
  · intro u _ n hn
    apply Freelist.next_setNext_of_ne
    intro heq
    exact hpc u (heq ▸ hn)

/-- `allocate_safe` returns the top of the list. -/
theorem Inv.take (h : Inv s (n :: free)) (hnode : (s.pc t).node = none) :
    Inv (((s.setMem (s.mem.setPool ⟨free.head?, s.mem.pool.tag + 1⟩)).setPc t .idle).gain t n)
      free := by
  have hsits := h.sits_iff (n := n) (q := .free) List.mem_cons_self
  obtain ⟨hfree, hnodup⟩ := List.nodup_cons.mp h.free_nodup
  have hlt : ¬ s.mem.fresh ≤ n := fun hle => by cases (hsits .fresh).mp hle
  have hown : ∀ u, n ∉ s.owned u := fun u hmem => by cases (hsits (.owned u)).mp hmem
  have hpc : ∀ u, (s.pc u).node ≠ some n := fun u heq => by cases (hsits (.transit u)).mp heq
  apply h.move Freelist.grows_pop (fun _ _ _ _ => rfl) (p := .idle) trivial h.linked.pop hnodup
    (h.owned_nodup_gain (hown t))
  apply h.place_move (n := n) (q := .owned t)
  · intro p
    cases p with
    | fresh => simpa [Sits, Freelist.setPool] using hlt
    | owned u =>
      show n ∈ (s.gain t n).owned u ↔ _
      simp [hown u]
    | transit u =>
      rw [sits_transit_update free]
      simp [Sits, hpc u]
    | free => simp [Sits, hfree]
  · intro a ha p
    cases p with
    | fresh => rfl
    | owned u =>
      show a ∈ (s.gain t n).owned u ↔ a ∈ s.owned u
      simp [ha]
    | transit u => exact sits_transit_of_ne ha (Or.inl rfl) (Or.inl hnode)
    | free => simp [Sits, ha]

/-- The thread calls `deallocate_safe`. -/
theorem Inv.hand (h : Inv s free) (hidle : s.pc t = .idle) (hn : n ∈ s.owned t) :
    Inv ((s.lose t n).setPc t (.deallocate n .load)) free := by
  have hsits := h.sits_iff (n := n) (q := .owned t) hn
  have hlt : ¬ s.mem.fresh ≤ n := fun hle => by cases (hsits .fresh).mp hle
  have hfree : n ∉ free := fun hmem => by cases (hsits .free).mp hmem
  have hpc : ∀ u, (s.pc u).node ≠ some n := fun u heq => by cases (hsits (.transit u)).mp heq
  apply h.move (Freelist.Grows.refl s.mem free) (fun _ _ _ _ => rfl)
    (p := .deallocate n .load) trivial h.linked h.free_nodup h.owned_nodup_lose
  apply h.place_move (n := n) (q := .transit t)
  · intro p
    cases p with
    | fresh => simpa [Sits] using hlt
    | owned u =>
      show n ∈ (s.lose t n).owned u ↔ _
      rw [mem_lose (h.owned_nodup t)]
      simpa [Sits] using (hsits (.owned u)).mp
    | transit u =>
      rw [sits_transit_update free]
      simp [Sits, hpc u]
    | free => simp [Sits, hfree]
  · intro a ha p
    cases p with
    | fresh => rfl
    | owned u =>
      show a ∈ (s.lose t n).owned u ↔ a ∈ s.owned u
      rw [mem_lose (h.owned_nodup t)]
      simp [ha]
    | transit u => exact sits_transit_of_ne ha (Or.inr rfl) (Or.inl (by rw [hidle]; rfl))
    | free => rfl

/-- `deallocate_safe` has put its node on the list. -/
theorem Inv.put (h : Inv s free) (hnode : (s.pc t).node = some n)
    (hnext : (s.mem.next n).ptr = free.head?) :
    Inv ((s.setMem (s.mem.setPool ⟨some n, s.mem.pool.tag⟩)).setPc t .idle) (n :: free) := by
  have hsits := h.sits_iff (n := n) (q := .transit t) hnode
  have hlt : ¬ s.mem.fresh ≤ n := fun hle => by cases (hsits .fresh).mp hle
  have hfree : n ∉ free := fun hmem => by cases (hsits .free).mp hmem
  have hown : ∀ u, n ∉ s.owned u := fun u hmem => by cases (hsits (.owned u)).mp hmem
  apply h.move Freelist.grows_push (fun _ _ _ _ => rfl) (p := .idle) trivial
    (h.linked.push hnext) (List.nodup_cons.mpr ⟨hfree, h.free_nodup⟩) h.owned_nodup
  apply h.place_move (n := n) (q := .free)
  · intro p
    cases p with
    | fresh => simpa [Sits, Freelist.setPool] using hlt
    | owned u => simp [Sits, hown u]
    | transit u =>
      rw [sits_transit_update free, hsits]
      simp
    | free => simp [Sits]
  · intro a ha p
    cases p with
    | fresh => rfl
    | owned u => rfl
    | transit u => exact sits_transit_of_ne ha (Or.inl rfl) (Or.inr hnode)
    | free => simp [Sits, ha]

/-- The thread `t` passes a node on. -/
theorem Inv.give (h : Inv s free) (hn : n ∈ s.owned t) :
    Inv ((s.lose t n).gain u n) free := by
  have hsits := h.sits_iff (n := n) (q := .owned t) hn
  have hlose : ∀ r, n ∉ (s.lose t n).owned r := by
    intro r hmem
    obtain ⟨hr, hne⟩ := (mem_lose (h.owned_nodup t)).mp hmem
    cases (hsits (.owned r)).mp hr
    exact hne ⟨rfl, rfl⟩
  have hnodup : ∀ r, (((s.lose t n).gain u n).owned r).Nodup := by
    intro r
    by_cases hr : r = u
    · subst hr
      simpa [State.gain] using ⟨hlose r, h.owned_nodup_lose r⟩
    · simpa [State.gain, hr] using h.owned_nodup_lose r
  refine ⟨h.linked, h.free_nodup, hnodup, h.place_move (n := n) (q := .owned u) ?_ ?_, h.pc⟩
  · intro p
    cases p with
    | owned r =>
      show n ∈ ((s.lose t n).gain u n).owned r ↔ _
      simp [hlose r]
    | fresh =>
      show Sits s free n .fresh ↔ _
      simp [hsits]
    | transit r =>
      show Sits s free n (.transit r) ↔ _
      simp [hsits]
    | free =>
      show Sits s free n .free ↔ _
      simp [hsits]
  · intro a ha p
    cases p with
    | owned r =>
      show a ∈ ((s.lose t n).gain u n).owned r ↔ a ∈ s.owned r
      simp [mem_lose (h.owned_nodup t), ha]
    | fresh => rfl
    | transit r => rfl
    | free => rfl

theorem Inv.next (h : Inv s free) (hs : next s t = some s') : ∃ free', Inv s' free' := by
  have hok := h.pc t
  unfold Pool.next at hs
  cases hpc : s.pc t with
  | idle =>
    rw [hpc] at hs
    cases hs
  | allocate p =>
    rw [hpc] at hs hok
    obtain ⟨⟨m, r⟩, hr, hs⟩ := Option.bind_eq_some_iff.mp hs
    have hnode : (s.pc t).node = none := by rw [hpc]; rfl
    rcases AllocPc.step_cases h.linked hok hr with
      ⟨p', rfl, rfl, hok'⟩ | ⟨rfl, -, rfl⟩ | ⟨n, rest, rfl, rfl, rfl⟩
    · cases hs
      exact ⟨free, h.read hnode.symm hok'⟩
    · cases hs
      exact ⟨free, h.new hnode⟩
    · cases hs
      exact ⟨rest, h.take hnode⟩
  | deallocate n p =>
    rw [hpc] at hs hok
    have hnode : (s.pc t).node = some n := by rw [hpc]; rfl
    rcases hr : p.step s.mem n with ⟨m, r⟩
    simp only [hr] at hs
    rcases DeallocPc.step_cases h.linked hok hr with
      ⟨p', rfl, rfl, hok'⟩ | ⟨p', x, rfl, rfl, hok'⟩ | ⟨rfl, rfl, hlink⟩
    · cases hs
      exact ⟨free, h.read hnode.symm hok'⟩
    · cases hs
      exact ⟨free, h.write (q := .transit t) hnode (Or.inr rfl) hnode.symm hok'⟩
    · cases hs
      exact ⟨n :: free, h.put hnode hlink⟩

theorem Inv.fail (h : Inv s free) (hs : fail s t = some s') : Inv s' free := by
  unfold Pool.fail at hs
  cases hpc : s.pc t with
  | idle =>
    rw [hpc] at hs
    cases hs
  | allocate p =>
    rw [hpc] at hs
    obtain ⟨p', hp', rfl⟩ := Option.map_eq_some_iff.mp hs
    exact h.read (by rw [hpc]; rfl) (AllocPc.fail_ok h.linked hp')
  | deallocate n p =>
    rw [hpc] at hs
    obtain ⟨p', hp', rfl⟩ := Option.map_eq_some_iff.mp hs
    exact h.read (by rw [hpc]; rfl) (DeallocPc.fail_ok (m := s.mem) hp')

/-- One step of any thread. -/
theorem Inv.step {a : Act ι} (h : Inv s free) (hs : step s a = some s') :
    ∃ free', Inv s' free' := by
  cases a with
  | allocate t =>
    obtain ⟨hidle, hs⟩ := Option.ite_none_right_eq_some.mp hs
    cases hs
    exact ⟨free, h.read (by rw [hidle]; rfl) trivial⟩
  | deallocate t n =>
    obtain ⟨⟨hidle, hn⟩, hs⟩ := Option.ite_none_right_eq_some.mp hs
    cases hs
    exact ⟨free, h.hand hidle hn⟩
  | write t n x =>
    obtain ⟨⟨hidle, hn⟩, hs⟩ := Option.ite_none_right_eq_some.mp hs
    cases hs
    have hwrite := h.write (x := x) (p := .idle) (q := .owned t) hn (Or.inl rfl)
      (by rw [hidle]) trivial
    rw [← hidle] at hwrite
    simp only [State.setPc, State.setMem, Function.update_eq_self] at hwrite
    exact ⟨free, hwrite⟩
  | give t u n =>
    obtain ⟨⟨-, hn⟩, hs⟩ := Option.ite_none_right_eq_some.mp hs
    cases hs
    exact ⟨free, h.give hn⟩
  | next t => exact h.next hs
  | fail t => exact ⟨free, h.fail hs⟩

omit [DecidableEq ι] in
theorem inv_init (poolSize : Nat) : Inv (init poolSize : State ι) (List.range poolSize).reverse := by
  refine ⟨Freelist.linked_fill poolSize, List.nodup_reverse.mpr List.nodup_range,
    fun _ => List.nodup_nil, fun n => ?_, fun _ => trivial⟩
  by_cases hn : n < poolSize
  · refine ⟨.free, by simpa [Sits] using hn, fun p hp => ?_⟩
    cases p with
    | fresh =>
      have hle : (Freelist.fill poolSize).fresh ≤ n := hp
      rw [Freelist.fresh_fill] at hle
      exact absurd hn (Nat.not_lt.mpr hle)
    | owned t => cases hp
    | transit t => cases hp
    | free => rfl
  · refine ⟨.fresh, ?_, fun p hp => ?_⟩
    · show (Freelist.fill poolSize).fresh ≤ n
      rw [Freelist.fresh_fill]
      exact Nat.le_of_not_lt hn
    · cases p with
      | fresh => rfl
      | owned t => cases hp
      | transit t => cases hp
      | free =>
        have hmem : n ∈ (List.range poolSize).reverse := hp
        simp only [List.mem_reverse, List.mem_range] at hmem
        exact absurd hmem hn

/-! ## Every run -/

/-- Where the nodes are, when `free` are those that `m_pool` leads to, in their order. -/
structure Accounted (s : State ι) (free : List Addr) : Prop where
  linked : s.mem.Linked free
  reached_once : free.Nodup
  owned_once : ∀ t, (s.owned t).Nodup
  one_owner : ∀ t u, ∀ n ∈ s.owned t, n ∈ s.owned u → t = u
  owned_off : ∀ t, ∀ n ∈ s.owned t, n ∉ free
  place : ∀ n < s.mem.fresh, ∃! p : Place ι, p ≠ .fresh ∧ Sits s free n p

theorem links_unique {next : Addr → TaggedPtr} {q : Heap.Ptr} {l l' : List Addr}
    (h : Freelist.Links next l) (h' : Freelist.Links next l') (hq : q = l.head?)
    (hq' : q = l'.head?) : l = l' := by
  induction l generalizing l' q with
  | nil =>
    cases l' with
    | nil => rfl
    | cons b l' => simp [hq] at hq'
  | cons a l ih =>
    cases l' with
    | nil => simp [hq] at hq'
    | cons b l' =>
      obtain rfl : a = b := by simpa [hq] using hq'
      rw [ih h.2 h'.2 h.1 h'.1]

theorem linked_unique {l l' : List Addr} (h : m.Linked l) (h' : m.Linked l') : l = l' :=
  links_unique h.links h'.links h.top h'.top

omit [DecidableEq ι] in
theorem Inv.account (h : Inv s free) : Accounted s free := by
  refine ⟨h.linked, h.free_nodup, h.owned_nodup, ?_, ?_, ?_⟩
  · intro t u n ht hu
    cases h.eq (p := .owned t) (q := .owned u) ht hu
    rfl
  · intro t n ht hmem
    cases h.eq (p := .owned t) (q := .free) ht hmem
  · intro n hn
    obtain ⟨p, hp, huniq⟩ := h.place n
    refine ⟨p, ⟨?_, hp⟩, fun q hq => huniq q hq.2⟩
    intro heq
    subst heq
    exact absurd hn (Nat.not_lt.mpr hp)

theorem accounted (poolSize : Nat) {as : List (Act ι)}
    (h : run step (init poolSize) as = some s) :
    ∃ free, Accounted s free ∧ ∀ l, s.mem.Linked l → l = free := by
  obtain ⟨free, hinv⟩ : ∃ free, Inv s free :=
    run_invariant (I := fun s => ∃ free, Inv s free) ⟨_, inv_init poolSize⟩
      (fun s a s' ⟨free, hi⟩ hs => hi.step hs) h
  exact ⟨free, hinv.account, fun l hl => linked_unique hl hinv.linked⟩

/-- Two threads read the same top of the list, and the first one takes it, writes over it and
puts it back before the other one goes on. -/
def staleCas : List (Act Bool) :=
  [.allocate true, .next true, .next true, .allocate false, .next false, .next false,
    .next true, .write true 0 ⟨none, 7⟩, .deallocate true 0, .next true, .next true, .next true,
    .next false]

theorem accounted_staleCas :
    ∃ s free, run step (init 1) staleCas = some s ∧ Accounted s free := by
  obtain ⟨s, hs⟩ : ∃ s, run step (init 1) staleCas = some s :=
    Option.isSome_iff_exists.mp (by decide)
  obtain ⟨free, hacc, -⟩ := accounted 1 hs
  exact ⟨s, free, hs, hacc⟩

end Wish.Lockfree.Pool
