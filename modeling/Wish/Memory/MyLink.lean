import Wish.Heap

/-!
# The linked list of `memory/my_link.c`

A `link_head` has only a `next`, a `link_node` has data as well; both are objects in memory, of
two kinds. What `malloc` returns is a parameter, a free address or `NULL`.

`ListAt s hd ns` says that the head at `hd` leads through the nodes `ns` to `NULL`, so that the
list has no cycle (`ListAt.nodup`). What can be built with the insertions is such a list
(`Built.exists_list`).
-/

namespace Wish.MyLink

open Prog Heap

structure Node (T : Type) where
  data : T
  next : Ptr
  deriving DecidableEq, Repr

/-- The `link_head` objects, with their `next`. -/
abbrev Heads := Addr → Option Ptr

abbrev LinkMem (T : Type) := Mem Heads (Node T)

abbrev LinkProg (T α : Type) := Prog Fault (LinkMem T) α

variable {T : Type}

/-! ## The members -/

/-- `head->next` -/
def headNext (head : Ptr) : LinkProg T Ptr :=
  match head with
  | none => throw .null
  | some a => do
    match (← get).globals a with
    | none => throw .dangling
    | some p => pure p

/-- `head->next = p` -/
def setHeadNext (head p : Ptr) : LinkProg T PUnit :=
  match head with
  | none => throw .null
  | some a => do
    let s ← get
    match s.globals a with
    | none => throw .dangling
    | some _ => set { s with globals := Function.update s.globals a (some p) }

def next (p : Ptr) : LinkProg T Ptr := do return (← deref p).next

def setNext (p q : Ptr) : LinkProg T PUnit := modifyCell p fun n => { n with next := q }

/-! ## The functions -/

def headInit (malloc : Ptr) : LinkProg T Ptr :=
  match malloc with
  | none => pure none
  | some a => do
    let s ← get
    match s.globals a with
    | none =>
      set { s with globals := Function.update s.globals a (some none) }
      pure (some a)
    | some _ => throw .inUse

def nodeCreate (malloc : Ptr) (data : T) : LinkProg T Ptr :=
  match malloc with
  | none => pure none
  | some a => new a ⟨data, none⟩

/-- The body of the loop of `link_isset`. -/
def issetStep (pnode p : Ptr) : LinkProg T (Ptr ⊕ ℤ) := do
  if p ≠ none then
    if p = pnode then
      return .inr 1
    else
      return .inl (← next p)
  else
    return .inr 0

def linkIsset (fuel : Nat) (head pnode : Ptr) : LinkProg T ℤ := do
  if head = none ∨ pnode = none then
    return -1
  else if (← headNext head) = pnode then
    return 1
  else
    loop .stuck (issetStep pnode) fuel (← headNext head)

def linkInsert (fuel : Nat) (head prevnode pnode : Ptr) : LinkProg T ℤ := do
  if head = none ∨ prevnode = none ∨ pnode = none then
    return -1
  else if (← headNext head) = none then
    return -1
  else if (← linkIsset fuel head pnode) ≠ 0 then
    return -1
  else if (← linkIsset fuel head prevnode) = 0 then
    return -1
  else
    setNext pnode (← next prevnode)
    setNext prevnode pnode
    return 0

/-- `for(;p->next !=NULL;p = p->next)` -/
def lastNode (fuel : Nat) : Ptr → LinkProg T Ptr :=
  loop .stuck (fun p => do
    if (← next p) ≠ none then return .inl (← next p) else return .inr p) fuel

def linkInsertTail (fuel : Nat) (head pnode : Ptr) : LinkProg T ℤ := do
  if head = none ∨ pnode = none then
    return -1
  else if (← linkIsset fuel head pnode) ≠ 0 then
    return -1
  else if (← headNext head) = none then
    setHeadNext head pnode
    return 0
  else
    let p ← lastNode fuel (← headNext head)
    setNext p pnode
    return 0

def linkInsertHead (fuel : Nat) (head pnode : Ptr) : LinkProg T ℤ := do
  if head = none ∨ pnode = none then
    return -1
  else if (← linkIsset fuel head pnode) ≠ 0 then
    return -1
  else
    if (← headNext head) ≠ none then
      setNext pnode (← headNext head)
    setHeadNext head pnode
    return 0

/-- The body of the loop of `link_delect`; `pparent` is `none` until it is assigned. -/
def delectStep (pnode : Ptr) : Ptr × Option Ptr → LinkProg T ((Ptr × Option Ptr) ⊕ PUnit)
  | (p, pparent) => do
    if p ≠ none then
      if p = pnode then
        let q ← next p
        match pparent with
        | none => throw .dangling
        | some pparent => setNext pparent q
        delete pnode
      return .inl (← next p, some p)
    else
      return .inr ⟨⟩

def linkDelect (fuel : Nat) (head pnode : Ptr) : LinkProg T ℤ := do
  if head = none ∨ pnode = none then
    return -1
  else
    loop .stuck (delectStep pnode) fuel (← headNext head, none)
    return 0

/-- Its value is not used. -/
def recursionReversal : Nat → Ptr → Ptr → LinkProg T PUnit
  | 0, _, _ => throw .stuck
  | fuel + 1, prev, now =>
    if prev = none ∨ now = none then
      return
    else do
      if (← next now) = none then
        setNext now prev
      else
        recursionReversal fuel now (← next now)
        setNext now prev

def linkReversal (fuel : Nat) (head : Ptr) : LinkProg T ℤ := do
  if head = none then
    return -1
  else if (← headNext head) = none then
    return -1
  else if (← next (← headNext head)) = none then
    return -1
  else
    let p ← lastNode fuel (← headNext head)
    recursionReversal fuel (← headNext head) (← next (← headNext head))
    setNext (← headNext head) none
    setHeadNext head p
    return 0

/-! ## The members, by what they do -/

variable {s s' : LinkMem T} {h : Addr → Option (Node T)} {a b hd x : Addr} {n : Node T}
  {p q r : Ptr} {ns ms : List Addr}

/-- The heap after `a->next = q`. -/
def relink (h : Addr → Option (Node T)) (a : Addr) (q : Ptr) : Addr → Option (Node T) :=
  Function.update h a ((h a).map fun n => { n with next := q })

@[simp] theorem relink_self (hn : h a = some n) (q : Ptr) :
    relink h a q a = some { n with next := q } := by
  rw [relink, Function.update_self, hn]
  rfl

@[simp] theorem relink_of_ne (hba : b ≠ a) (q : Ptr) : relink h a q b = h b :=
  Function.update_of_ne hba _ _

theorem data_relink (h : Addr → Option (Node T)) (a : Addr) (q : Ptr) (b : Addr) :
    (relink h a q b).map Node.data = (h b).map Node.data := by
  by_cases hba : b = a
  · subst hba
    rw [relink, Function.update_self, Option.map_map]
    rfl
  · rw [relink_of_ne hba]

theorem returns_headNext {Q : Ptr → LinkMem T → Prop} (hp : s.globals hd = some p) :
    Returns (headNext (some hd)) s Q ↔ Q p s := by
  simp [headNext, hp]

theorem returns_setHeadNext {Q : PUnit → LinkMem T → Prop} (hp : s.globals hd = some p)
    (hQ : Q ⟨⟩ { s with globals := Function.update s.globals hd (some q) }) :
    Returns (setHeadNext (some hd) q) s Q := by
  simp only [setHeadNext, returns_bind, returns_get, hp]
  exact ⟨⟨⟩, _, rfl, hQ⟩

theorem returns_next {Q : Ptr → LinkMem T → Prop} (hn : s.heap a = some n) :
    Returns (next (some a)) s Q ↔ Q n.next s := by
  simp only [next, returns_bind, returns_deref hn, returns_pure]

theorem returns_setNext {Q : PUnit → LinkMem T → Prop} (hn : s.heap a = some n)
    (hQ : Q ⟨⟩ { s with heap := relink s.heap a q }) : Returns (setNext (some a) q) s Q := by
  simp only [setNext, modifyCell, returns_bind, returns_get, hn]
  refine ⟨⟨⟩, _, rfl, ?_⟩
  rw [relink, hn] at hQ
  exact hQ

/-! ## Lists in memory -/

/-- From `p` the links lead through `ns` to `q`. -/
def Seg (h : Addr → Option (Node T)) (p : Ptr) : List Addr → Ptr → Prop
  | [], q => p = q
  | a :: ns, q => p = some a ∧ ∃ n, h a = some n ∧ Seg h n.next ns q

/-- The head at `hd` leads through `ns` to `NULL`. -/
def ListAt (s : LinkMem T) (hd : Addr) (ns : List Addr) : Prop :=
  ∃ p, s.globals hd = some p ∧ Seg s.heap p ns none

theorem Seg.append (hns : Seg h p ns q) (hms : Seg h q ms r) : Seg h p (ns ++ ms) r := by
  induction ns generalizing p with
  | nil =>
    cases hns
    exact hms
  | cons a ns ih =>
    obtain ⟨hp, n, hn, hns⟩ := hns
    exact ⟨hp, n, hn, ih hns⟩

theorem Seg.split (hns : Seg h p (ns ++ ms) r) : ∃ q, Seg h p ns q ∧ Seg h q ms r := by
  induction ns generalizing p with
  | nil => exact ⟨p, rfl, hns⟩
  | cons a ns ih =>
    obtain ⟨hp, n, hn, hns⟩ := hns
    obtain ⟨q, hq, hms⟩ := ih hns
    exact ⟨q, ⟨hp, n, hn, hq⟩, hms⟩

/-- A write elsewhere leaves the links. -/
theorem Seg.frame {h' : Addr → Option (Node T)} (hns : Seg h p ns q)
    (hsame : ∀ a ∈ ns, h' a = h a) : Seg h' p ns q := by
  induction ns generalizing p with
  | nil => exact hns
  | cons a ns ih =>
    obtain ⟨hp, n, hn, hns⟩ := hns
    refine ⟨hp, n, (hsame a List.mem_cons_self).trans hn, ih hns fun b hb => ?_⟩
    exact hsame b (List.mem_cons_of_mem a hb)

theorem Seg.relink (hns : Seg h p ns q) (ha : a ∉ ns) (q' : Ptr) :
    Seg (relink h a q') p ns q := by
  refine hns.frame fun b hb => relink_of_ne ?_ q'
  rintro rfl
  exact ha hb

theorem Seg.mem (hns : Seg h p ns q) (ha : a ∈ ns) : ∃ n, h a = some n := by
  induction ns generalizing p with
  | nil => cases ha
  | cons b ns ih =>
    obtain ⟨-, n, hn, hns⟩ := hns
    rcases List.mem_cons.mp ha with rfl | ha
    · exact ⟨n, hn⟩
    · exact ih hns ha

/-- What a pointer leads to is determined by the heap. -/
theorem Seg.unique (hns : Seg h p ns none) (hms : Seg h p ms none) : ns = ms := by
  induction ns generalizing p ms with
  | nil =>
    cases hns
    cases ms with
    | nil => rfl
    | cons b ms => cases hms.1
  | cons a ns ih =>
    obtain ⟨rfl, n, hn, hns⟩ := hns
    cases ms with
    | nil => cases hms
    | cons b ms =>
      obtain ⟨hab, m, hm, hms⟩ := hms
      cases hab
      cases hn.symm.trans hm
      rw [ih hns hms]

theorem Seg.nodup (hns : Seg h p ns none) : ns.Nodup := by
  induction ns generalizing p with
  | nil => exact .nil
  | cons a ns ih =>
    obtain ⟨-, n, hn, hrest⟩ := id hns
    refine List.nodup_cons.mpr ⟨fun ha => ?_, ih hrest⟩
    obtain ⟨l, r, rfl⟩ := List.append_of_mem ha
    obtain ⟨q, -, hq⟩ := hrest.split
    -- from `a` the links would lead through two lists of different lengths
    have hlong : Seg h (some a) (a :: (l ++ a :: r)) none := ⟨rfl, n, hn, hrest⟩
    have hshort : Seg h (some a) (a :: r) none := ⟨rfl, hq.2⟩
    have hlen := congrArg List.length (hlong.unique hshort)
    simp at hlen
    omega

theorem Seg.not_mem (hns : Seg h p (ns ++ a :: ms) none) : a ∉ ns ∧ a ∉ ms := by
  have hnd := hns.nodup
  rw [List.nodup_append, List.nodup_cons] at hnd
  exact ⟨fun ha => hnd.2.2 a ha a List.mem_cons_self rfl, hnd.2.1.1⟩

/-- The node `b` goes behind the last one. -/
theorem Seg.concat (hns : Seg h p (ns ++ [a]) none) (hn : h a = some n) {m : Node T}
    (hm : h b = some m) (hnext : m.next = none) (hb : b ∉ ns ++ [a]) :
    Seg (MyLink.relink h a (some b)) p (ns ++ [a] ++ [b]) none := by
  have hba : b ≠ a := fun h => hb (by simp [h])
  obtain ⟨q, hfront, rfl, -⟩ := hns.split
  have hback : Seg (MyLink.relink h a (some b)) (some a) [a, b] none :=
    ⟨rfl, _, relink_self hn _, rfl, m, (relink_of_ne hba _).trans hm, hnext⟩
  have happ := (hfront.relink hns.not_mem.1 (some b)).append hback
  rwa [List.append_cons] at happ

/-- The node `b` goes behind `a`. -/
theorem Seg.insert (hns : Seg h p (ns ++ a :: ms) none) (hn : h a = some n) {m : Node T}
    (hm : h b = some m) (hb : b ∉ ns ++ a :: ms) :
    Seg (MyLink.relink (MyLink.relink h b n.next) a (some b)) p (ns ++ a :: b :: ms) none := by
  simp only [List.mem_append, List.mem_cons, not_or] at hb
  obtain ⟨hbn, hba, hbm⟩ := hb
  obtain ⟨han, ham⟩ := hns.not_mem
  obtain ⟨q, hfront, rfl, n', hn', hback⟩ := hns.split
  cases hn.symm.trans hn'
  have ha' : MyLink.relink h b n.next a = some n := (relink_of_ne (Ne.symm hba) _).trans hn
  have hb' : MyLink.relink (MyLink.relink h b n.next) a (some b) b =
      some { m with next := n.next } :=
    (relink_of_ne hba _).trans (relink_self hm _)
  have hnew : Seg (MyLink.relink (MyLink.relink h b n.next) a (some b)) (some a)
      (a :: b :: ms) none :=
    ⟨rfl, _, relink_self ha' _, rfl, _, hb', (hback.relink hbm _).relink ham _⟩
  exact ((hfront.relink hbn _).relink han _).append hnew

theorem ListAt.nodup (hl : ListAt s hd ns) : ns.Nodup :=
  let ⟨_, _, hseg⟩ := hl
  hseg.nodup

/-! ## Searching -/

variable {fuel : Nat}

theorem isset_returns (hns : Seg s.heap p ns none) (x : Addr) (hfuel : ns.length < fuel) :
    Returns (loop .stuck (issetStep (some x)) fuel p) s fun v s' =>
      v = (if x ∈ ns then 1 else 0) ∧ s' = s := by
  induction ns generalizing p fuel with
  | nil =>
    cases hns
    obtain ⟨fuel, rfl⟩ := Nat.exists_eq_add_one_of_ne_zero (Nat.ne_zero_of_lt hfuel)
    refine returns_bind.mpr ?_
    rw [issetStep, if_neg (not_not_intro rfl)]
    exact returns_pure.mpr (returns_pure.mpr ⟨rfl, rfl⟩)
  | cons a ns ih =>
    obtain ⟨rfl, n, hn, hns⟩ := hns
    obtain ⟨fuel, rfl⟩ := Nat.exists_eq_add_one_of_ne_zero (Nat.ne_zero_of_lt hfuel)
    refine returns_bind.mpr ?_
    rw [issetStep, if_pos (Option.some_ne_none a)]
    by_cases hax : a = x
    · subst hax
      rw [if_pos rfl, if_pos List.mem_cons_self]
      exact returns_pure.mpr (returns_pure.mpr ⟨rfl, rfl⟩)
    · rw [if_neg fun h => hax (Option.some.inj h), returns_bind, returns_next hn, returns_pure]
      refine (ih hns (by simpa using hfuel)).mono fun v s' h => ⟨?_, h.2⟩
      rw [h.1]
      simp [Ne.symm hax]

theorem linkIsset_returns (hl : ListAt s hd ns) (x : Addr) (hfuel : ns.length < fuel) :
    Returns (linkIsset fuel (some hd) (some x)) s fun v s' =>
      v = (if x ∈ ns then 1 else 0) ∧ s' = s := by
  obtain ⟨p, hp, hns⟩ := hl
  rw [linkIsset, if_neg (by simp), returns_bind, returns_headNext hp]
  by_cases hpx : p = some x
  · subst hpx
    have hx : x ∈ ns := by
      cases ns with
      | nil => cases hns
      | cons a ns =>
        cases hns.1
        exact List.mem_cons_self
    rw [if_pos rfl, if_pos hx]
    exact returns_pure.mpr ⟨rfl, rfl⟩
  · rw [if_neg hpx, returns_bind, returns_headNext hp]
    exact isset_returns hns x hfuel

theorem lastNode_returns (hns : Seg s.heap p (ns ++ [a]) none) (hfuel : ns.length < fuel) :
    Returns (lastNode fuel p) s fun q s' => q = some a ∧ s' = s := by
  induction ns generalizing p fuel with
  | nil =>
    obtain ⟨rfl, n, hn, hnext⟩ := hns
    obtain ⟨fuel, rfl⟩ := Nat.exists_eq_add_one_of_ne_zero (Nat.ne_zero_of_lt hfuel)
    refine returns_bind.mpr (returns_bind.mpr ((returns_next hn).mpr ?_))
    have hnil : n.next = none := hnext
    rw [if_neg (not_not_intro hnil)]
    exact returns_pure.mpr (returns_pure.mpr ⟨rfl, rfl⟩)
  | cons b ns ih =>
    obtain ⟨rfl, n, hn, hnext⟩ := hns
    obtain ⟨fuel, rfl⟩ := Nat.exists_eq_add_one_of_ne_zero (Nat.ne_zero_of_lt hfuel)
    have hne : n.next ≠ none := by
      cases ns with
      | nil => exact fun h => Option.some_ne_none a (hnext.1.symm.trans h)
      | cons c ns => exact fun h => Option.some_ne_none c (hnext.1.symm.trans h)
    refine returns_bind.mpr (returns_bind.mpr ((returns_next hn).mpr ?_))
    rw [if_pos hne, returns_bind, returns_next hn, returns_pure]
    exact ih hnext (by simpa using hfuel)

/-! ## Building a list -/

/-- The nodes that are in no list are as `node_create` leaves them. -/
def Clean (s : LinkMem T) (ns : List Addr) : Prop :=
  ∀ a n, s.heap a = some n → a ∉ ns → n.next = none

theorem nodeCreate_list {malloc : Ptr} {data : T} (hl : ListAt s hd ns) (hclean : Clean s ns)
    (run : nodeCreate malloc data s = .ok (p, s')) : ListAt s' hd ns ∧ Clean s' ns := by
  cases malloc with
  | none =>
    cases run
    exact ⟨hl, hclean⟩
  | some a =>
    obtain ⟨q, hq, hns⟩ := hl
    obtain ⟨ha, -, rfl⟩ := ensures_new p s' run
    have hfree : a ∉ ns := fun hmem => by
      obtain ⟨m, hm⟩ := hns.mem hmem
      cases ha.symm.trans hm
    refine ⟨⟨q, hq, hns.frame fun b hb => Function.update_of_ne ?_ _ _⟩, fun b m hb hbns => ?_⟩
    · rintro rfl
      exact hfree hb
    · by_cases hba : b = a
      · subst hba
        cases (Function.update_self ..).symm.trans hb
        rfl
      · exact hclean b m ((Function.update_of_ne hba _ _).symm.trans hb) hbns

theorem linkInsertHead_returns (hl : ListAt s hd ns) (hclean : Clean s ns)
    (hx : s.heap x = some n) (hfuel : ns.length < fuel) :
    Returns (linkInsertHead fuel (some hd) (some x)) s fun v s' =>
      x ∈ ns ∧ v = -1 ∧ s' = s ∨
        x ∉ ns ∧ v = 0 ∧ ListAt s' hd (x :: ns) ∧ Clean s' (x :: ns) := by
  obtain ⟨p, hp, hns⟩ := id hl
  rw [linkInsertHead, if_neg (by simp), returns_bind]
  refine (linkIsset_returns hl x hfuel).mono ?_
  rintro _ s₁ ⟨rfl, hs₁⟩
  rw [hs₁]
  by_cases hmem : x ∈ ns
  · rw [if_pos hmem, if_pos (by decide)]
    exact returns_pure.mpr (.inl ⟨hmem, rfl, rfl⟩)
  · rw [if_neg hmem, if_neg (by decide), returns_bind, returns_headNext hp]
    cases ns with
    | nil =>
      obtain rfl : p = none := hns
      rw [if_neg (not_not_intro rfl), returns_bind]
      refine returns_setHeadNext hp (returns_pure.mpr (.inr ⟨hmem, rfl, ?_, ?_⟩))
      · exact ⟨some x, Function.update_self .., rfl, n, hx, hclean x n hx hmem⟩
      · exact fun a m ha hane => hclean a m ha nofun
    | cons b ns =>
      obtain rfl : p = some b := hns.1
      rw [if_pos (Option.some_ne_none b), returns_bind, returns_headNext hp,
        returns_bind]
      refine returns_setNext hx ?_
      rw [returns_bind]
      refine returns_setHeadNext hp (returns_pure.mpr (.inr ⟨hmem, rfl, ?_, ?_⟩))
      · exact ⟨some x, Function.update_self .., rfl, _, relink_self hx _, hns.relink hmem _⟩
      · intro a m ha hane
        rw [List.mem_cons, not_or] at hane
        exact hclean a m ((relink_of_ne hane.1 _).symm.trans ha) hane.2

theorem linkInsertTail_returns (hl : ListAt s hd ns) (hclean : Clean s ns)
    (hx : s.heap x = some n) (hfuel : ns.length < fuel) :
    Returns (linkInsertTail fuel (some hd) (some x)) s fun v s' =>
      x ∈ ns ∧ v = -1 ∧ s' = s ∨
        x ∉ ns ∧ v = 0 ∧ ListAt s' hd (ns ++ [x]) ∧ Clean s' (ns ++ [x]) := by
  obtain ⟨p, hp, hns⟩ := id hl
  rw [linkInsertTail, if_neg (by simp), returns_bind]
  refine (linkIsset_returns hl x hfuel).mono ?_
  rintro _ s₁ ⟨rfl, hs₁⟩
  rw [hs₁]
  by_cases hmem : x ∈ ns
  · rw [if_pos hmem, if_pos (by decide)]
    exact returns_pure.mpr (.inl ⟨hmem, rfl, rfl⟩)
  · have hnext := hclean x n hx hmem
    rw [if_neg hmem, if_neg (by decide), returns_bind, returns_headNext hp]
    rcases ns.eq_nil_or_concat' with rfl | ⟨ns, b, rfl⟩
    · obtain rfl : p = none := hns
      rw [if_pos rfl, returns_bind]
      refine returns_setHeadNext hp (returns_pure.mpr (.inr ⟨hmem, rfl, ?_, ?_⟩))
      · exact ⟨some x, Function.update_self .., rfl, n, hx, hnext⟩
      · exact fun a m ha hane => hclean a m ha nofun
    · have hne : p ≠ none := by
        rintro rfl
        cases ns with
        | nil => cases hns.1
        | cons c ns => cases hns.1
      have hlen : ns.length < fuel := by
        simp at hfuel
        omega
      rw [if_neg hne, returns_bind, returns_headNext hp, returns_bind]
      refine (lastNode_returns hns hlen).mono ?_
      rintro _ s₂ ⟨rfl, hs₂⟩
      rw [hs₂]
      obtain ⟨m, hm⟩ := hns.mem (List.mem_append_right ns (List.mem_singleton_self b))
      rw [returns_bind]
      refine returns_setNext hm (returns_pure.mpr (.inr ⟨hmem, rfl, ⟨p, hp, ?_⟩, ?_⟩))
      · exact hns.concat hm hx hnext hmem
      · intro a l ha hane
        have hab : a ≠ b := fun h => hane (by simp [h])
        exact hclean a l ((relink_of_ne hab _).symm.trans ha)
          fun h => hane (List.mem_append_left [x] h)

/-- `prevnode` may be any node, or `NULL`. -/
theorem linkInsert_returns (hl : ListAt s hd ns) (hclean : Clean s ns) (prevnode : Ptr)
    (hx : s.heap x = some n) (hfuel : ns.length < fuel) :
    Returns (linkInsert fuel (some hd) prevnode (some x)) s fun v s' =>
      v = -1 ∧ s' = s ∨
        v = 0 ∧ ∃ l b r, prevnode = some b ∧ ns = l ++ b :: r ∧ x ∉ ns ∧
          ListAt s' hd (l ++ b :: x :: r) ∧ Clean s' (l ++ b :: x :: r) := by
  obtain ⟨p, hp, hns⟩ := id hl
  have hfail : Returns (pure (-1) : LinkProg T ℤ) s fun v s' =>
      v = -1 ∧ s' = s ∨ v = 0 ∧ ∃ l b r, prevnode = some b ∧ ns = l ++ b :: r ∧ x ∉ ns ∧
        ListAt s' hd (l ++ b :: x :: r) ∧ Clean s' (l ++ b :: x :: r) :=
    returns_pure.mpr (.inl ⟨rfl, rfl⟩)
  cases prevnode with
  | none =>
    rw [linkInsert, if_pos (by simp)]
    exact hfail
  | some b =>
    rw [linkInsert, if_neg (by simp), returns_bind, returns_headNext hp]
    refine .ite (fun _ => hfail) fun _ => ?_
    rw [returns_bind]
    refine (linkIsset_returns hl x hfuel).mono ?_
    rintro _ s₁ ⟨rfl, hs₁⟩
    rw [hs₁]
    refine .ite (fun _ => hfail) fun hset => ?_
    have hmem : x ∉ ns := fun h => hset (by simp [h])
    rw [returns_bind]
    refine (linkIsset_returns hl b hfuel).mono ?_
    rintro _ s₂ ⟨rfl, hs₂⟩
    rw [hs₂]
    refine .ite (fun _ => hfail) fun hset => ?_
    have hb : b ∈ ns := by
      by_contra hb
      exact hset (by simp [hb])
    obtain ⟨m, hm⟩ := hns.mem hb
    obtain ⟨l, r, rfl⟩ := List.append_of_mem hb
    have hbx : b ≠ x := fun h => hmem (by simp [← h])
    have hm' : relink s.heap x m.next b = some m := (relink_of_ne hbx _).trans hm
    rw [returns_bind, returns_next hm, returns_bind]
    refine returns_setNext hx ?_
    rw [returns_bind]
    refine returns_setNext hm' (returns_pure.mpr (.inr ⟨rfl, l, b, r, rfl, rfl, hmem, ?_, ?_⟩))
    · exact ⟨p, hp, hns.insert hm hx hmem⟩
    · intro a k ha hane
      simp only [List.mem_append, List.mem_cons, not_or] at hane
      refine hclean a k ?_ (by simp [hane])
      exact ((relink_of_ne hane.2.1 _).trans (relink_of_ne hane.2.2.1 _)).symm.trans ha

theorem linkIsset_below (head pnode : Ptr) (k m : Nat) (h : k ≤ m) :
    Below (linkIsset k head pnode : LinkProg T ℤ) (linkIsset m head pnode) :=
  .ite (.refl _) (.next fun _ => .ite (.refl _) (.next fun _ => .loop _ _ h _))

theorem linkInsertHead_below (head pnode : Ptr) (k m : Nat) (h : k ≤ m) :
    Below (linkInsertHead k head pnode : LinkProg T ℤ) (linkInsertHead m head pnode) :=
  .ite (.refl _) ((linkIsset_below head pnode k m h).bind fun _ => .refl _)

theorem linkInsertTail_below (head pnode : Ptr) (k m : Nat) (h : k ≤ m) :
    Below (linkInsertTail k head pnode : LinkProg T ℤ) (linkInsertTail m head pnode) := by
  refine .ite (.refl _) ((linkIsset_below head pnode k m h).bind fun _ => .ite (.refl _) ?_)
  exact .next fun _ => .ite (.refl _) (.next fun _ => (Below.loop _ _ h _).bind fun _ => .refl _)

theorem linkInsert_below (head prevnode pnode : Ptr) (k m : Nat) (h : k ≤ m) :
    Below (linkInsert k head prevnode pnode : LinkProg T ℤ)
      (linkInsert m head prevnode pnode) := by
  refine .ite (.refl _) (.next fun _ => .ite (.refl _) ?_)
  refine (linkIsset_below head pnode k m h).bind fun _ => .ite (.refl _) ?_
  exact (linkIsset_below head prevnode k m h).bind fun _ => .refl _

/-- What `head_init`, `node_create` and the insertions of such nodes make of an empty memory. -/
inductive Built (hd : Addr) : LinkMem T → Prop
  | headInit {s : LinkMem T} {p : Ptr}
    (run : headInit (some hd) ⟨fun _ => none, fun _ => none⟩ = .ok (p, s)) : Built hd s
  | nodeCreate {s s' : LinkMem T} {malloc p : Ptr} {data : T} (before : Built hd s)
    (run : nodeCreate malloc data s = .ok (p, s')) : Built hd s'
  | insertHead {s s' : LinkMem T} {x : Addr} {v : ℤ} (before : Built hd s)
    (node : s.heap x ≠ none)
    (run : Converges (fun fuel => linkInsertHead fuel (some hd) (some x)) s v s') : Built hd s'
  | insertTail {s s' : LinkMem T} {x : Addr} {v : ℤ} (before : Built hd s)
    (node : s.heap x ≠ none)
    (run : Converges (fun fuel => linkInsertTail fuel (some hd) (some x)) s v s') : Built hd s'
  | insert {s s' : LinkMem T} {prevnode : Ptr} {x : Addr} {v : ℤ} (before : Built hd s)
    (node : s.heap x ≠ none)
    (run : Converges (fun fuel => linkInsert fuel (some hd) prevnode (some x)) s v s') :
    Built hd s'

/-- What is built is a list that ends. -/
theorem Built.exists_list (h : Built hd s) : ∃ ns, ListAt s hd ns ∧ Clean s ns := by
  induction h with
  | headInit run =>
    cases run
    exact ⟨[], ⟨none, Function.update_self .., rfl⟩, nofun⟩
  | nodeCreate before run ih =>
    obtain ⟨ns, hl, hclean⟩ := ih
    exact ⟨ns, nodeCreate_list hl hclean run⟩
  | insertHead before node run ih =>
    obtain ⟨ns, hl, hclean⟩ := ih
    obtain ⟨n, hx⟩ := Option.ne_none_iff_exists'.mp node
    rcases run.of_returns (linkInsertHead_below _ _) fun k hk =>
      linkInsertHead_returns hl hclean hx (Nat.lt_of_succ_le hk) with
      ⟨-, -, rfl⟩ | ⟨-, -, hl', hclean'⟩
    · exact ⟨ns, hl, hclean⟩
    · exact ⟨_, hl', hclean'⟩
  | insertTail before node run ih =>
    obtain ⟨ns, hl, hclean⟩ := ih
    obtain ⟨n, hx⟩ := Option.ne_none_iff_exists'.mp node
    rcases run.of_returns (linkInsertTail_below _ _) fun k hk =>
      linkInsertTail_returns hl hclean hx (Nat.lt_of_succ_le hk) with
      ⟨-, -, rfl⟩ | ⟨-, -, hl', hclean'⟩
    · exact ⟨ns, hl, hclean⟩
    · exact ⟨_, hl', hclean'⟩
  | insert before node run ih =>
    obtain ⟨ns, hl, hclean⟩ := ih
    obtain ⟨n, hx⟩ := Option.ne_none_iff_exists'.mp node
    rcases run.of_returns (linkInsert_below _ _ _) fun k hk =>
      linkInsert_returns hl hclean _ hx (Nat.lt_of_succ_le hk) with
      ⟨-, rfl⟩ | ⟨-, l, b, r, -, -, -, hl', hclean'⟩
    · exact ⟨ns, hl, hclean⟩
    · exact ⟨_, hl', hclean'⟩

end Wish.MyLink
