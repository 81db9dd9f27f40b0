import Wish.Machine
import Mathlib.Data.List.FinRange
import Mathlib.Order.CompletePartialOrder
import Mathlib.Order.Interval.Set.Disjoint

/-!
# The allocator of `memory/my_malloc.c`

`pool` has 100 blocks of 100 bytes, and behind them, in the same array, a byte for each block that
says whether it is taken. The address of `pool` is any number, and so is a pointer that is given to
`my_free`.

`Sound` is what the callers rely on: `sound` shows that it holds after every sequence of calls and
of writes into the blocks. The invariant (`Inv`) relates the bytes behind the blocks to the blocks
that have been handed out; one lemma says what `my_malloc` can do (`myMalloc_cases`) and one what
`my_free` can do (`myFree_cases`).
-/

namespace Wish.MyMalloc

open Machine

/-- `char pool[10100]` -/
abbrev Pool := Fin 10100 → UInt8

/-- Where `pm[i]` is, with `pm = &pool[10000]`. -/
def pm (i : Fin 100) : Fin 10100 := ⟨10000 + i, by omega⟩

/-- The rounds of a loop from `i = 0` to `i = 99`. -/
def rounds : List (Fin 100) := List.finRange 100

def poolInit (m : Pool) : Pool := rounds.foldl (fun m i => Function.update m (pm i) 0) m

/-- `pool + i * 100` -/
def slot (pool : Nat) (i : Fin 100) : Nat := pool + i * 100

/-- The loop of `my_malloc`; `none` is `NULL`. -/
def takeFirst (pool : Nat) (m : Pool) : List (Fin 100) → Pool × Option Nat
  | [] => (m, none)
  | i :: is =>
    if m (pm i) = 0 then (Function.update m (pm i) 1, some (slot pool i)) else takeFirst pool m is

def myMalloc (pool : Nat) (m : Pool) (size : UInt32) : Pool × Option Nat :=
  if size > 100 then (m, none) else takeFirst pool m rounds

/-- `NULL` is below `pool`. -/
def myFree (pool : Nat) (m : Pool) : Option Nat → Pool
  | none => m
  | some ps =>
    if h : ps < pool ∨ ps > pool + 9999 then m
    else if (ps - pool) % 100 ≠ 0 then m
    else if m (pm ⟨(ps - pool) / 100, by omega⟩) = 1 then
      Function.update m (pm ⟨(ps - pool) / 100, by omega⟩) 0
    else m

/-! ## Callers -/

/-- What a caller has been given for a `size`. -/
structure Block where
  addr : Nat
  size : UInt32
  deriving DecidableEq, Repr

def Block.extent (b : Block) : Set Nat := Set.Ico b.addr (b.addr + 100)

/-- The pool, and the blocks that have been handed out and not freed. -/
structure State where
  bytes : Pool
  live : List Block

inductive Act where
  | malloc (size : UInt32)
  | free (p : Option Nat)
  /-- a caller writes a byte -/
  | write (a : Nat) (c : UInt8)

/-- After `pool_init`; `m` is what was in the pool before. -/
def init (m : Pool) : State := ⟨poolInit m, []⟩

/-- A write into the pool. -/
def poke (pool : Nat) (m : Pool) (a : Nat) (c : UInt8) : Pool :=
  if h : pool ≤ a ∧ a < pool + 10100 then Function.update m ⟨a - pool, by omega⟩ c else m

/-- Callers write into their blocks; they free what they like. -/
def step (pool : Nat) (s : State) : Act → Option State
  | .malloc size =>
    match myMalloc pool s.bytes size with
    | (m, none) => some { s with bytes := m }
    | (m, some p) => some ⟨m, ⟨p, size⟩ :: s.live⟩
  | .free p => some ⟨myFree pool s.bytes p, s.live.filter fun b => some b.addr ≠ p⟩
  | .write a c =>
    if s.live.any fun b => b.addr ≤ a && a < b.addr + 100 then
      some { s with bytes := poke pool s.bytes a c }
    else none

/-- `my_malloc` may hand out the block at `q`. -/
def Available (pool : Nat) (m : Pool) (q : Nat) : Prop := ∃ i, q = slot pool i ∧ m (pm i) = 0

/-- What the callers rely on. -/
structure Sound (pool : Nat) (s : State) : Prop where
  disjoint : s.live.Pairwise fun b c => Disjoint b.extent c.extent
  inside : ∀ b ∈ s.live, b.extent ⊆ Set.Ico pool (pool + 10000)
  large : ∀ b ∈ s.live, b.size ≤ 100
  malloc_null : ∀ size, (myMalloc pool s.bytes size).2 = none ↔ size > 100 ∨ s.live.length = 100
  malloc_block : ∀ size q, (myMalloc pool s.bytes size).2 = some q → Available pool s.bytes q
  /-- the blocks that are not live are available -/
  available : ∀ q, Available pool s.bytes q ↔
    (∃ i, q = slot pool i) ∧ ∀ b ∈ s.live, b.addr ≠ q
  /-- exactly the block that is freed becomes available, with its bytes as they are -/
  free_live : ∀ b ∈ s.live,
    (∀ q, Available pool (myFree pool s.bytes (some b.addr)) q ↔
      q = b.addr ∨ Available pool s.bytes q) ∧
    ∀ k, k.val < 10000 → myFree pool s.bytes (some b.addr) k = s.bytes k
  free_other : ∀ p, (∀ b ∈ s.live, some b.addr ≠ p) → myFree pool s.bytes p = s.bytes

/-! ## What the functions do -/

section

variable {pool : Nat} {m : Pool} {i j : Fin 100} {is : List (Fin 100)} {size : UInt32}
  {p : Option Nat}

theorem pm_inj : pm i = pm j ↔ i = j := by
  simp only [pm, Fin.ext_iff]
  omega

theorem update_pm {c : UInt8} :
    Function.update m (pm i) c (pm j) = if j = i then c else m (pm j) := by
  by_cases hj : j = i
  · rw [if_pos hj, hj, Function.update_self]
  · rw [if_neg hj, Function.update_of_ne (pm_inj.not.mpr hj)]

theorem slot_inj : slot pool i = slot pool j ↔ i = j := by
  simp only [slot, Fin.ext_iff]
  omega

theorem mem_rounds (i : Fin 100) : i ∈ rounds := List.mem_finRange i

theorem foldl_clear (is : List (Fin 100)) (m : Pool) (k : Fin 10100) :
    is.foldl (fun m i => Function.update m (pm i) 0) m k = if k ∈ is.map pm then 0 else m k := by
  induction is generalizing m with
  | nil => rfl
  | cons i is ih =>
    rw [List.foldl_cons, ih, List.map_cons]
    by_cases hk : k = pm i
    · simp [hk]
    · simp [hk]

/-- Every block is free. -/
theorem poolInit_pm (m : Pool) (i : Fin 100) : poolInit m (pm i) = 0 := by
  rw [poolInit, foldl_clear, if_pos (List.mem_map_of_mem (mem_rounds i))]

theorem takeFirst_cases (pool : Nat) (m : Pool) (is : List (Fin 100)) :
    (∀ i ∈ is, m (pm i) ≠ 0) ∧ takeFirst pool m is = (m, none) ∨
      ∃ i, m (pm i) = 0 ∧
        takeFirst pool m is = (Function.update m (pm i) 1, some (slot pool i)) := by
  induction is with
  | nil => exact Or.inl ⟨nofun, rfl⟩
  | cons i is ih =>
    by_cases hi : m (pm i) = 0
    · exact Or.inr ⟨i, hi, if_pos hi⟩
    · rw [takeFirst, if_neg hi]
      exact ih.imp_left fun ⟨hall, heq⟩ => ⟨List.forall_mem_cons.mpr ⟨hi, hall⟩, heq⟩

/-- What `my_malloc` can do. -/
theorem myMalloc_cases (pool : Nat) (m : Pool) (size : UInt32) :
    (size > 100 ∨ ∀ i, m (pm i) ≠ 0) ∧ myMalloc pool m size = (m, none) ∨
      size ≤ 100 ∧ ∃ i, m (pm i) = 0 ∧
        myMalloc pool m size = (Function.update m (pm i) 1, some (slot pool i)) := by
  unfold myMalloc
  by_cases hsize : size > 100
  · exact Or.inl ⟨Or.inl hsize, if_pos hsize⟩
  · rw [if_neg hsize]
    rcases takeFirst_cases pool m rounds with ⟨hall, heq⟩ | hfree
    · exact Or.inl ⟨Or.inr fun i => hall i (mem_rounds i), heq⟩
    · exact Or.inr ⟨UInt32.not_lt.mp hsize, hfree⟩

/-- What `my_free` can do. -/
theorem myFree_cases (pool : Nat) (m : Pool) (p : Option Nat) :
    (∃ i, p = some (slot pool i) ∧ m (pm i) = 1 ∧
        myFree pool m p = Function.update m (pm i) 0) ∨
      (∀ i, p = some (slot pool i) → m (pm i) ≠ 1) ∧ myFree pool m p = m := by
  cases p with
  | none => exact Or.inr ⟨nofun, rfl⟩
  | some ps =>
    simp only [myFree]
    split
    · next hout =>
      refine Or.inr ⟨fun i hi => ?_, rfl⟩
      obtain rfl : ps = slot pool i := Option.some.inj hi
      unfold slot at hout
      omega
    split
    · next hmod =>
      refine Or.inr ⟨fun i hi => ?_, rfl⟩
      obtain rfl : ps = slot pool i := Option.some.inj hi
      unfold slot at hmod
      omega
    next hin hmod =>
    -- the pointer is the start of a block
    obtain ⟨i, hi⟩ : ∃ i : Fin 100, i = ⟨(ps - pool) / 100, by omega⟩ := ⟨_, rfl⟩
    have hps : ps = slot pool i := by
      rw [hi]
      simp only [slot]
      omega
    rw [← hi]
    split
    · next htaken => exact Or.inl ⟨i, congrArg some hps, htaken, rfl⟩
    · next hfree =>
      refine Or.inr ⟨fun j hj => ?_, rfl⟩
      rw [← slot_inj.mp (hps.symm.trans (Option.some.inj hj))]
      exact hfree

end

/-! ## The invariant -/

/-- The bytes behind the blocks say which of them are live. -/
structure Inv (pool : Nat) (s : State) : Prop where
  flag : ∀ i, s.bytes (pm i) = 0 ∨ s.bytes (pm i) = 1
  taken : ∀ i, s.bytes (pm i) = 1 ↔ slot pool i ∈ s.live.map Block.addr
  slots : ∀ b ∈ s.live, ∃ i, b.addr = slot pool i
  nodup : (s.live.map Block.addr).Nodup
  large : ∀ b ∈ s.live, b.size ≤ 100

variable {pool : Nat} {s s' : State} {m : Pool} {i : Fin 100}

theorem inv_init (pool : Nat) (m : Pool) : Inv pool (init m) where
  flag i := Or.inl (poolInit_pm m i)
  taken i := by
    refine ⟨fun h1 => ?_, nofun⟩
    cases (poolInit_pm m i).symm.trans h1
  slots := nofun
  nodup := .nil
  large := nofun

theorem Inv.free_iff (h : Inv pool s) :
    s.bytes (pm i) = 0 ↔ slot pool i ∉ s.live.map Block.addr := by
  rw [← h.taken]
  constructor
  · intro h0 h1
    cases h0.symm.trans h1
  · exact (h.flag i).resolve_right

theorem Inv.malloc {size : UInt32} (h : Inv pool s) (hsize : size ≤ 100)
    (hi : s.bytes (pm i) = 0) :
    Inv pool ⟨Function.update s.bytes (pm i) 1, ⟨slot pool i, size⟩ :: s.live⟩ where
  flag j := by
    simp only [update_pm]
    split
    · exact Or.inr rfl
    · exact h.flag j
  taken j := by
    simp only [update_pm, List.map_cons, List.mem_cons, slot_inj]
    split
    · next hj => exact ⟨fun _ => Or.inl hj, fun _ => rfl⟩
    · next hj =>
      rw [h.taken]
      exact (or_iff_right hj).symm
  slots := List.forall_mem_cons.mpr ⟨⟨i, rfl⟩, h.slots⟩
  nodup := List.nodup_cons.mpr ⟨h.free_iff.mp hi, h.nodup⟩
  large := List.forall_mem_cons.mpr ⟨hsize, h.large⟩

/-- The block that is freed is taken from the live ones. -/
theorem Inv.free (h : Inv pool s) :
    Inv pool ⟨Function.update s.bytes (pm i) 0,
      s.live.filter fun b => some b.addr ≠ some (slot pool i)⟩ where
  flag j := by
    simp only [update_pm]
    split
    · exact Or.inl rfl
    · exact h.flag j
  taken j := by
    simp only [update_pm, List.mem_map, List.mem_filter, decide_eq_true_eq, ne_eq,
      Option.some.injEq]
    split
    · next hj =>
      rw [hj]
      exact ⟨nofun, fun ⟨_, ⟨_, hne⟩, haddr⟩ => absurd haddr hne⟩
    · next hj =>
      rw [h.taken, List.mem_map]
      constructor
      · intro ⟨b, hb, haddr⟩
        refine ⟨b, ⟨hb, fun he => ?_⟩, haddr⟩
        exact hj (slot_inj.mp (haddr.symm.trans he))
      · rintro ⟨b, ⟨hb, -⟩, haddr⟩
        exact ⟨b, hb, haddr⟩
  slots b hb := h.slots b (List.mem_of_mem_filter hb)
  nodup := h.nodup.sublist (List.filter_sublist.map Block.addr)
  large b hb := h.large b (List.mem_of_mem_filter hb)

/-- Nothing is taken from the live blocks by a pointer that is none of them. -/
theorem filter_live {p : Option Nat} (hp : ∀ b ∈ s.live, some b.addr ≠ p) :
    (s.live.filter fun b => some b.addr ≠ p) = s.live := by
  refine List.filter_eq_self.mpr fun b hb => ?_
  rw [decide_eq_true_eq]
  exact hp b hb

theorem Inv.not_live {p : Option Nat} (h : Inv pool s)
    (hp : ∀ i, p = some (slot pool i) → s.bytes (pm i) ≠ 1) :
    ∀ b ∈ s.live, some b.addr ≠ p := by
  rintro b hb rfl
  obtain ⟨i, hi⟩ := h.slots b hb
  refine hp i (congrArg some hi) ((h.taken i).mpr ?_)
  rw [← hi]
  exact List.mem_map_of_mem hb

/-- A write into a block leaves the bytes behind the blocks. -/
theorem Inv.poke_pm {b : Block} {a : Nat} {c : UInt8} (h : Inv pool s) (hb : b ∈ s.live)
    (ha : b.addr ≤ a ∧ a < b.addr + 100) (i : Fin 100) :
    poke pool s.bytes a c (pm i) = s.bytes (pm i) := by
  obtain ⟨j, hj⟩ := h.slots b hb
  unfold slot at hj
  unfold poke
  split
  · refine Function.update_of_ne (fun he => ?_) _ _
    have hval := congrArg Fin.val he
    simp only [pm] at hval
    omega
  · rfl

theorem Inv.data (h : Inv pool s) (hm : ∀ i, m (pm i) = s.bytes (pm i)) :
    Inv pool { s with bytes := m } where
  flag i := by
    simp only [hm]
    exact h.flag i
  taken i := by
    simp only [hm]
    exact h.taken i
  slots := h.slots
  nodup := h.nodup
  large := h.large

theorem Inv.step {a : Act} (h : Inv pool s) (hs : step pool s a = some s') : Inv pool s' := by
  cases a with
  | malloc size =>
    simp only [MyMalloc.step] at hs
    rcases myMalloc_cases pool s.bytes size with ⟨-, heq⟩ | ⟨hsize, i, hi, heq⟩
    · rw [heq] at hs
      cases hs
      exact h
    · rw [heq] at hs
      cases hs
      exact h.malloc hsize hi
  | free p =>
    simp only [MyMalloc.step, Option.some.injEq] at hs
    subst hs
    rcases myFree_cases pool s.bytes p with ⟨i, rfl, -, heq⟩ | ⟨hp, heq⟩
    · rw [heq]
      exact h.free
    · rw [heq, filter_live (h.not_live hp)]
      exact h
  | write a c =>
    simp only [MyMalloc.step, List.any_eq_true, Bool.and_eq_true, decide_eq_true_eq,
      Option.ite_none_right_eq_some, Option.some.injEq] at hs
    obtain ⟨⟨b, hb, ha⟩, rfl⟩ := hs
    exact h.data (h.poke_pm hb ha)

/-! ## What the callers rely on -/

/-- All blocks are live when there are 100. -/
theorem Inv.length_iff (h : Inv pool s) :
    s.live.length = 100 ↔ ∀ i, s.bytes (pm i) ≠ 0 := by
  have hgrid : (rounds.map (slot pool)).Nodup :=
    (List.nodup_finRange 100).map fun _ _ => slot_inj.mp
  have hlen : (rounds.map (slot pool)).length = 100 := by simp [rounds]
  have hsub : (s.live.map Block.addr).Subperm (rounds.map (slot pool)) := by
    refine List.subperm_of_subset h.nodup fun q hq => ?_
    obtain ⟨b, hb, rfl⟩ := List.mem_map.mp hq
    obtain ⟨i, hi⟩ := h.slots b hb
    rw [hi]
    exact List.mem_map_of_mem (mem_rounds i)
  rw [← List.length_map Block.addr]
  constructor
  · intro h100 i hi
    have hperm := hsub.perm_of_length_le (by omega)
    refine h.free_iff.mp hi (hperm.mem_iff.mpr ?_)
    exact List.mem_map_of_mem (mem_rounds i)
  · intro hall
    have hsup : (rounds.map (slot pool)).Subperm (s.live.map Block.addr) := by
      refine List.subperm_of_subset hgrid fun q hq => ?_
      obtain ⟨i, -, rfl⟩ := List.mem_map.mp hq
      exact (h.taken i).mp ((h.flag i).resolve_left (hall i))
    have hle := hsub.length_le
    have hge := hsup.length_le
    omega

/-- Two blocks are apart. -/
theorem disjoint_extent {b c : Block} {i j : Fin 100} (hb : b.addr = slot pool i)
    (hc : c.addr = slot pool j) (hne : b.addr ≠ c.addr) : Disjoint b.extent c.extent := by
  refine Set.disjoint_left.mpr fun a ha hac => hne ?_
  simp only [Block.extent, Set.mem_Ico, hb, hc, slot] at ha hac ⊢
  omega

theorem Inv.disjoint (h : Inv pool s) :
    s.live.Pairwise fun b c => Disjoint b.extent c.extent := by
  refine (List.pairwise_map.mp h.nodup).imp_of_mem fun hb hc hne => ?_
  obtain ⟨i, hi⟩ := h.slots _ hb
  obtain ⟨j, hj⟩ := h.slots _ hc
  exact disjoint_extent hi hj hne

theorem Inv.inside (h : Inv pool s) :
    ∀ b ∈ s.live, b.extent ⊆ Set.Ico pool (pool + 10000) := by
  intro b hb a ha
  obtain ⟨i, hi⟩ := h.slots b hb
  simp only [Block.extent, Set.mem_Ico, hi, slot] at ha ⊢
  omega

theorem Inv.available (h : Inv pool s) (q : Nat) :
    Available pool s.bytes q ↔ (∃ i, q = slot pool i) ∧ ∀ b ∈ s.live, b.addr ≠ q := by
  constructor
  · rintro ⟨i, rfl, hi⟩
    refine ⟨⟨i, rfl⟩, fun b hb he => h.free_iff.mp hi ?_⟩
    rw [← he]
    exact List.mem_map_of_mem hb
  · rintro ⟨⟨i, rfl⟩, hnot⟩
    refine ⟨i, rfl, h.free_iff.mpr fun hmem => ?_⟩
    obtain ⟨b, hb, haddr⟩ := List.mem_map.mp hmem
    exact hnot b hb haddr

theorem Inv.malloc_null (h : Inv pool s) (size : UInt32) :
    (myMalloc pool s.bytes size).2 = none ↔ size > 100 ∨ s.live.length = 100 := by
  rw [h.length_iff]
  rcases myMalloc_cases pool s.bytes size with ⟨hnull, heq⟩ | ⟨hsize, i, hi, heq⟩
  · rw [heq]
    exact ⟨fun _ => hnull, fun _ => rfl⟩
  · rw [heq]
    refine ⟨nofun, fun hnull => ?_⟩
    rcases hnull with hlarge | hall
    · exact absurd hsize (UInt32.not_le.mpr hlarge)
    · exact absurd hi (hall i)

theorem malloc_block {size : UInt32} {q : Nat} (hq : (myMalloc pool m size).2 = some q) :
    Available pool m q := by
  rcases myMalloc_cases pool m size with ⟨-, heq⟩ | ⟨-, i, hi, heq⟩
  · rw [heq] at hq
    cases hq
  · rw [heq] at hq
    cases hq
    exact ⟨i, rfl, hi⟩

theorem Inv.free_live {b : Block} (h : Inv pool s) (hb : b ∈ s.live) :
    (∀ q, Available pool (myFree pool s.bytes (some b.addr)) q ↔
      q = b.addr ∨ Available pool s.bytes q) ∧
    ∀ k, k.val < 10000 → myFree pool s.bytes (some b.addr) k = s.bytes k := by
  rcases myFree_cases pool s.bytes (some b.addr) with ⟨i, hi, -, heq⟩ | ⟨hp, -⟩
  · rw [heq, Option.some.inj hi]
    refine ⟨fun q => ⟨?_, ?_⟩, fun k hk => Function.update_of_ne ?_ _ _⟩
    · rintro ⟨j, rfl, hj⟩
      rw [update_pm] at hj
      split at hj
      · next hji => exact Or.inl (congrArg _ hji)
      · exact Or.inr ⟨j, rfl, hj⟩
    · rintro (rfl | ⟨j, rfl, hj⟩)
      · exact ⟨i, rfl, Function.update_self ..⟩
      · refine ⟨j, rfl, ?_⟩
        rw [update_pm, hj, ite_self]
    · rintro rfl
      simp only [pm] at hk
      omega
  · exact absurd rfl (h.not_live hp b hb)

theorem Inv.free_other {p : Option Nat} (h : Inv pool s) (hp : ∀ b ∈ s.live, some b.addr ≠ p) :
    myFree pool s.bytes p = s.bytes := by
  rcases myFree_cases pool s.bytes p with ⟨i, rfl, hi, -⟩ | ⟨-, heq⟩
  · obtain ⟨b, hb, haddr⟩ := List.mem_map.mp ((h.taken i).mp hi)
    exact absurd (congrArg some haddr) (hp b hb)
  · exact heq

/-- **The allocator is sound** after every sequence of calls. -/
theorem sound {as : List Act} (h : run (step pool) (init m) as = some s) : Sound pool s := by
  have hinv : Inv pool s :=
    run_invariant (inv_init pool m) (fun _ _ _ hi hs => hi.step hs) h
  exact ⟨hinv.disjoint, hinv.inside, hinv.large, hinv.malloc_null, fun _ _ => malloc_block,
    hinv.available, fun _ => hinv.free_live, fun _ => hinv.free_other⟩

/-- Two blocks, a write, a pointer into a block, and the first block twice. -/
def freedTwice : List Act :=
  [.malloc 50, .malloc 100, .write 4196 1, .free (some 4097), .free (some 4096), .free (some 4096)]

theorem sound_freedTwice : ∃ s, run (step 4096) (init fun _ => 7) freedTwice = some s ∧
    s.live = [⟨4196, 100⟩] ∧ Sound 4096 s := by
  have hrun : run (step 4096) (init fun _ => 7) freedTwice = some _ := rfl
  exact ⟨_, hrun, rfl, sound hrun⟩

end Wish.MyMalloc
