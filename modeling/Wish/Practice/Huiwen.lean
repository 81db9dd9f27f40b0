import Mathlib.Algebra.Order.Ring.Int
import Wish.Prog

/-!
# `ModifyString`

`practice/huiwen.cpp`. A text is rewritten in its own buffer: where `FindSubString` finds a run up
and down again (`BCDCB`), its first character and the number of steps up are written, other
characters are copied. A `char` is its value as an `int`, so that it does not matter whether the
type is signed; the terminating character is 0.

The memory counts the characters that have been read, and a write behind them is a fault.

The written part stays behind the read part, but only `sprintf` writes a terminating 0: after a
copied character the rest of the old text follows.
-/

namespace Wish.Huiwen

open Prog

inductive Fault
  | bounds
  /-- A write over a character that has not been read. -/
  | unread
  | stuck
  deriving DecidableEq, Repr

structure Mem where
  buf : List ℤ
  /-- The largest index that has been read, plus 1. -/
  read : Nat
  deriving DecidableEq, Repr

abbrev M := Prog Fault Mem

/-- `*p` -/
def load (p : Nat) : M ℤ := do
  let mem ← get
  match mem.buf[p]? with
  | some c =>
    set { mem with read := max mem.read (p + 1) }
    pure c
  | none => throw .bounds

/-- `*p = c` -/
def store (p : Nat) (c : ℤ) : M Unit := do
  let mem ← get
  if p < mem.read then
    if p < mem.buf.length then set { mem with buf := mem.buf.set p c } else throw .bounds
  else throw .unread

/-- The body of the two loops of `FindSubString`: up with `d = 1`, down with `d = -1`. -/
def walkStep (d : ℤ) : Nat × ℤ → M (Nat × ℤ ⊕ Nat × ℤ)
  | (p1, count) => do
    if (← load p1) ≠ 0 then
      if (← load p1) = (← load (p1 + 1)) - d then
        return .inl (p1 + 1, count + d)
      else
        return .inr (p1, count)
    else
      return .inr (p1, count)

def walk (d : ℤ) (fuel : Nat) : Nat × ℤ → M (Nat × ℤ) := loop .stuck (walkStep d) fuel

def findSubString (fuel : Nat) (pch : Nat) : M ℤ := do
  let (p1, count) ← walk 1 fuel (pch, 0)
  let (_, count2) ← walk (-1) fuel (p1, count)
  if count2 = 0 then
    return count
  return 0

/-- `%i` of a positive number. -/
def decimal (count : Nat) : List ℤ := (Nat.toDigits 10 count).map fun c => (c.toNat : ℤ)

def storeAll (p : Nat) : List ℤ → M Unit
  | [] => pure ()
  | c :: cs => do
    store p c
    storeAll (p + 1) cs

/-- `sprintf(p2, "%i", count)` -/
def sprintf (p2 count : Nat) : M Unit := storeAll p2 (decimal count ++ [0])

/-- `while (*p2 != '\\0') p2++` -/
def skipText (fuel : Nat) : Nat → M Nat :=
  loop .stuck (fun p2 => do
    if (← load p2) ≠ 0 then return .inl (p2 + 1) else return .inr p2) fuel

/-- The body of the loop of `ModifyString`. -/
def modifyStep (fuel : Nat) : Nat × Nat → M (Nat × Nat ⊕ Unit)
  | (p1, p2) => do
    if (← load p1) ≠ 0 then
      let count ← findSubString fuel p1
      if count > 0 then
        store p2 (← load p1)
        let p2 := p2 + 1
        sprintf p2 count.toNat
        let p2 ← skipText fuel p2
        return .inl (p1 + count.toNat + count.toNat + 1, p2)
      else
        store p2 (← load p1)
        return .inl (p1 + 1, p2 + 1)
    else
      return .inr ()

def modifyString (fuel : Nat) : M Unit := loop .stuck (modifyStep fuel) fuel (0, 0)

/-! ## The reference -/

/-- How far the values go by steps of `d`; 0 follows the text. -/
def runLength (d : ℤ) : List ℤ → Nat
  | [] => 0
  | a :: text => if a = text.headD 0 - d then runLength d text + 1 else 0

/-- `FindSubString` as a function of the remaining text. -/
def found (text : List ℤ) : Nat :=
  let count := runLength 1 text
  if runLength (-1) (text.drop count) = count then count else 0

/-- The text with its runs rewritten, after `skip` characters that are left out. -/
def rewriteFrom : Nat → List ℤ → List ℤ
  | _, [] => []
  | skip + 1, _ :: text => rewriteFrom skip text
  | 0, a :: text =>
    let c := found (a :: text)
    if c > 0 then a :: (decimal c ++ rewriteFrom (2 * c) text) else a :: rewriteFrom 0 text

def rewrite (text : List ℤ) : List ℤ := rewriteFrom 0 text

/-- What is found at the positions of the scan. -/
def countsFrom : Nat → List ℤ → List Nat
  | _, [] => []
  | skip + 1, _ :: text => countsFrom skip text
  | 0, a :: text => found (a :: text) :: countsFrom (2 * found (a :: text)) text

def counts (text : List ℤ) : List Nat := countsFrom 0 text

/-- The string in a buffer. -/
def cString (buf : List ℤ) : List ℤ := buf.takeWhile (· ≠ 0)

/-! ## Reading -/

variable {mem mem' mem'' : Mem} {t u w rest old cs : List ℤ} {p n m fuel : Nat} {c d count : ℤ}

/-- Only reads have been made, and the characters before `n` have been read. -/
structure Later (n : Nat) (mem mem' : Mem) : Prop where
  buf_eq : mem'.buf = mem.buf
  read_le : mem.read ≤ mem'.read
  le_read : n ≤ mem'.read

theorem Later.trans (h : Later n mem mem') (h' : Later m mem' mem'') : Later m mem mem'' :=
  ⟨h'.buf_eq.trans h.buf_eq, h.read_le.trans h'.read_le, h'.le_read⟩

theorem Later.mono (h : Later n mem mem') (hmn : m ≤ n) : Later m mem mem' :=
  ⟨h.buf_eq, h.read_le, hmn.trans h.le_read⟩

theorem returns_load {Q : ℤ → Mem → Prop} (h : mem.buf[p]? = some c)
    (hQ : ∀ mem', Later (p + 1) mem mem' → Q c mem') : Returns (load p) mem Q := by
  refine returns_bind.mpr (returns_get.mpr ?_)
  rw [h]
  refine ⟨c, _, rfl, hQ _ ⟨rfl, ?_, ?_⟩⟩
  · exact Nat.le_max_left _ _
  · exact Nat.le_max_right _ _

theorem getElem?_cons (hbuf : mem.buf = u ++ c :: w) : mem.buf[u.length]? = some c := by
  rw [hbuf]
  simp

/-- The value at the place of a character or of the terminating 0. -/
theorem getElem?_headD (hbuf : mem.buf = u ++ t ++ 0 :: rest) :
    mem.buf[u.length]? = some (t.headD 0) := by
  cases t with
  | nil => exact getElem?_cons (by rw [hbuf, List.append_nil]; rfl)
  | cons a t => exact getElem?_cons (by rw [hbuf, List.append_assoc]; rfl)

theorem walk_returns (d : ℤ) (ht : ∀ c ∈ t, c ≠ 0) (hbuf : mem.buf = u ++ t ++ 0 :: rest)
    (hfuel : t.length < fuel) :
    Returns (walk d fuel (u.length, count)) mem fun r mem' =>
      r = (u.length + runLength d t, count + d * runLength d t) ∧
        Later (u.length + runLength d t + 1) mem mem' := by
  induction t generalizing u fuel count mem with
  | nil =>
    obtain ⟨fuel, rfl⟩ := Nat.exists_eq_add_one_of_ne_zero (Nat.ne_zero_of_lt hfuel)
    refine returns_bind.mpr (returns_bind.mpr (returns_load (getElem?_headD hbuf) ?_))
    intro mem' h
    rw [if_neg (by simp)]
    exact returns_pure.mpr (returns_pure.mpr ⟨by simp [runLength], h⟩)
  | cons a t ih =>
    obtain ⟨fuel, rfl⟩ := Nat.exists_eq_add_one_of_ne_zero (Nat.ne_zero_of_lt hfuel)
    have ha : a ≠ 0 := ht a List.mem_cons_self
    have hbuf' : mem.buf = u ++ [a] ++ t ++ 0 :: rest := by
      rw [hbuf]
      simp
    refine returns_bind.mpr (returns_bind.mpr (returns_load (getElem?_headD hbuf) ?_))
    intro mem₁ h₁
    rw [if_pos (by simpa using ha)]
    refine returns_bind.mpr (returns_load (getElem?_headD (h₁.buf_eq.trans hbuf)) ?_)
    intro mem₂ h₂
    have h₁₂ := h₁.trans h₂
    have hnext := getElem?_headD (h₁₂.buf_eq.trans hbuf')
    rw [List.length_append, List.length_singleton] at hnext
    refine returns_bind.mpr (returns_load hnext ?_)
    intro mem₃ h₃
    have h₁₃ := h₁₂.trans h₃
    rw [List.headD_cons]
    by_cases hstep : a = t.headD 0 - d
    · have hrun : runLength d (a :: t) = runLength d t + 1 := if_pos hstep
      rw [if_pos hstep, hrun]
      refine returns_pure.mpr ?_
      have hlen : (u ++ [a]).length = u.length + 1 := by simp
      have hrec : Returns (walk d fuel ((u ++ [a]).length, count + d)) mem₃ _ :=
        ih (fun c hc => ht c (List.mem_cons_of_mem a hc)) (h₁₃.buf_eq.trans hbuf')
          (by simpa using hfuel)
      rw [hlen] at hrec
      refine hrec.mono fun r mem₄ hr => ⟨?_, (h₁₃.trans hr.2).mono (by omega)⟩
      rw [hr.1, Prod.mk.injEq]
      constructor
      · omega
      · rw [Nat.cast_add, Nat.cast_one, mul_add, mul_one]
        omega
    · have hrun : runLength d (a :: t) = 0 := if_neg hstep
      rw [if_neg hstep, hrun]
      refine returns_pure.mpr (returns_pure.mpr ⟨by simp, h₁₃.mono (by omega)⟩)

theorem runLength_le (d : ℤ) (t : List ℤ) : runLength d t ≤ t.length := by
  induction t with
  | nil => exact Nat.le_refl 0
  | cons a t ih =>
    rw [runLength, List.length_cons]
    split <;> omega

/-- The value that a walk ends at. -/
theorem headD_drop_runLength (d : ℤ) (t : List ℤ) :
    (t.drop (runLength d t)).headD 0 = t.headD 0 + d * runLength d t := by
  induction t with
  | nil => simp [runLength]
  | cons a t ih =>
    by_cases hstep : a = t.headD 0 - d
    · have hrun : runLength d (a :: t) = runLength d t + 1 := if_pos hstep
      rw [hrun, List.drop_succ_cons, ih, List.headD_cons, hstep, Nat.cast_add, Nat.cast_one,
        mul_add, mul_one]
      omega
    · have hrun : runLength d (a :: t) = 0 := if_neg hstep
      rw [hrun]
      simp

/-- What is found lies within the text. -/
theorem found_length (ht : ∀ c ∈ t, c ≠ 0) (hpos : 0 < found t) :
    2 * found t + 1 ≤ t.length := by
  have hdown : runLength (-1) (t.drop (runLength 1 t)) = runLength 1 t := by
    by_contra hne
    rw [found, if_neg hne] at hpos
    exact Nat.lt_irrefl 0 hpos
  have hfound : found t = runLength 1 t := if_pos hdown
  have hend := headD_drop_runLength (-1) (t.drop (runLength 1 t))
  rw [headD_drop_runLength 1 t, hdown, List.drop_drop, ← two_mul] at hend
  have hne : t ≠ [] := by
    rintro rfl
    exact Nat.lt_irrefl 0 hpos
  have hhead : t.headD 0 ≠ 0 := by
    obtain ⟨a, l, rfl⟩ := List.exists_cons_of_ne_nil hne
    exact ht a List.mem_cons_self
  rw [hfound]
  by_contra hlong
  rw [List.drop_eq_nil_of_le (by omega), List.headD_nil] at hend
  omega

theorem findSubString_returns (ht : ∀ c ∈ t, c ≠ 0) (hbuf : mem.buf = u ++ t ++ 0 :: rest)
    (hfuel : t.length < fuel) :
    Returns (findSubString fuel u.length) mem fun c mem' =>
      c = found t ∧ Later (u.length + 2 * found t + 1) mem mem' := by
  have hle := runLength_le 1 t
  refine returns_bind.mpr ((walk_returns 1 ht hbuf hfuel).mono ?_)
  rintro _ mem₁ ⟨rfl, h₁⟩
  have hbuf₁ : mem₁.buf =
      (u ++ t.take (runLength 1 t)) ++ t.drop (runLength 1 t) ++ 0 :: rest := by
    rw [h₁.buf_eq, hbuf, List.append_assoc u (t.take _), List.take_append_drop]
  have hlen : (u ++ t.take (runLength 1 t)).length = u.length + runLength 1 t := by
    rw [List.length_append, List.length_take_of_le hle]
  have hdown : Returns (walk (-1) fuel (_, 0 + 1 * (runLength 1 t : ℤ))) mem₁ _ :=
    walk_returns (-1) (fun c hc => ht c (List.mem_of_mem_drop hc)) hbuf₁
      (by rw [List.length_drop]; omega)
  rw [hlen] at hdown
  refine returns_bind.mpr (hdown.mono ?_)
  rintro _ mem₂ ⟨rfl, h₂⟩
  have h := h₁.trans h₂
  dsimp only
  by_cases hrun : runLength (-1) (t.drop (runLength 1 t)) = runLength 1 t
  · have hfound : found t = runLength 1 t := if_pos hrun
    rw [hrun] at h ⊢
    rw [if_pos (by omega)]
    refine returns_pure.mpr ⟨by rw [hfound]; omega, h.mono (by omega)⟩
  · have hfound : found t = 0 := if_neg hrun
    rw [if_neg (by omega)]
    refine returns_pure.mpr ⟨by rw [hfound]; rfl, h.mono (by omega)⟩

/-! ## Writing -/

theorem returns_store {Q : Unit → Mem → Prop} (hbuf : mem.buf = u ++ c :: w)
    (hread : u.length < mem.read) (a : ℤ)
    (hQ : ∀ mem', mem'.buf = u ++ a :: w → mem'.read = mem.read → Q () mem') :
    Returns (store u.length a) mem Q := by
  refine returns_bind.mpr (returns_get.mpr ?_)
  rw [if_pos hread, if_pos (by rw [hbuf]; simp)]
  refine ⟨(), _, rfl, hQ _ ?_ rfl⟩
  show mem.buf.set u.length a = _
  rw [hbuf]
  simp

theorem storeAll_returns (hbuf : mem.buf = u ++ old ++ w) (hlen : old.length = cs.length)
    (hread : u.length + cs.length ≤ mem.read) :
    Returns (storeAll u.length cs) mem fun _ mem' =>
      mem'.buf = u ++ cs ++ w ∧ mem'.read = mem.read := by
  induction cs generalizing u old mem with
  | nil =>
    rw [List.length_eq_zero_iff.mp hlen] at hbuf
    exact returns_pure.mpr ⟨hbuf, rfl⟩
  | cons a cs ih =>
    obtain ⟨x, old, rfl⟩ := List.exists_cons_of_length_eq_add_one hlen
    rw [List.length_cons] at hread
    have hbuf' : mem.buf = u ++ x :: (old ++ w) := by
      rw [hbuf, List.append_assoc]
      rfl
    refine returns_bind.mpr (returns_store hbuf' (by omega) a fun mem₁ hbuf₁ hread₁ => ?_)
    have hnext : mem₁.buf = u ++ [a] ++ old ++ w := by
      rw [hbuf₁]
      simp
    have hrec := ih hnext (by simpa using hlen) (by simp; omega)
    rw [List.length_append, List.length_singleton] at hrec
    refine hrec.mono fun _ mem₂ h => ⟨?_, h.2.trans hread₁⟩
    rw [h.1]
    simp

theorem sprintf_returns {k : Nat} (hbuf : mem.buf = u ++ old ++ rest)
    (hroom : (decimal k).length + 1 ≤ old.length)
    (hread : u.length + (decimal k).length + 1 ≤ mem.read) :
    Returns (sprintf u.length k) mem fun _ mem' =>
      mem'.buf = u ++ decimal k ++ 0 :: (old.drop ((decimal k).length + 1) ++ rest) := by
  have hold : mem.buf = u ++ old.take ((decimal k).length + 1) ++
      (old.drop ((decimal k).length + 1) ++ rest) := by
    rw [hbuf, List.append_assoc u (old.take _), ← List.append_assoc (old.take _),
      List.take_append_drop, List.append_assoc]
  refine (storeAll_returns hold ?_ ?_).mono fun _ mem' h => ?_
  · rw [List.length_take_of_le hroom]
    simp
  · simp
    omega
  · rw [h.1]
    simp

theorem skipText_returns (hcs : ∀ c ∈ cs, c ≠ 0) (hbuf : mem.buf = u ++ cs ++ 0 :: w)
    (hfuel : cs.length < fuel) :
    Returns (skipText fuel u.length) mem fun p mem' =>
      p = u.length + cs.length ∧ mem'.buf = mem.buf := by
  induction cs generalizing u fuel mem with
  | nil =>
    obtain ⟨fuel, rfl⟩ := Nat.exists_eq_add_one_of_ne_zero (Nat.ne_zero_of_lt hfuel)
    refine returns_bind.mpr (returns_bind.mpr (returns_load (getElem?_headD hbuf) ?_))
    intro mem' h
    rw [if_neg (by simp)]
    exact returns_pure.mpr (returns_pure.mpr ⟨rfl, h.buf_eq⟩)
  | cons a cs ih =>
    obtain ⟨fuel, rfl⟩ := Nat.exists_eq_add_one_of_ne_zero (Nat.ne_zero_of_lt hfuel)
    have ha : a ≠ 0 := hcs a List.mem_cons_self
    have hbuf' : mem.buf = u ++ [a] ++ cs ++ 0 :: w := by
      rw [hbuf]
      simp
    refine returns_bind.mpr (returns_bind.mpr (returns_load (getElem?_headD hbuf) ?_))
    intro mem₁ h₁
    rw [if_pos (by simpa using ha)]
    refine returns_pure.mpr ?_
    have hlen : (u ++ [a]).length = u.length + 1 := by simp
    have hrec : Returns (skipText fuel (u ++ [a]).length) mem₁ _ :=
      ih (fun c hc => hcs c (List.mem_cons_of_mem a hc)) (h₁.buf_eq.trans hbuf')
        (by simpa using hfuel)
    rw [hlen] at hrec
    refine hrec.mono fun p mem₂ h => ⟨?_, h.2.trans h₁.buf_eq⟩
    rw [h.1, List.length_cons]
    omega

theorem decimal_ne_zero (n : Nat) : ∀ c ∈ decimal n, c ≠ 0 := by
  intro c hc
  obtain ⟨ch, hch, rfl⟩ := List.mem_map.mp hc
  have hdigit : ch.isDigit = true := Nat.isDigit_of_mem_toDigits (by decide) (by decide) hch
  intro hzero
  have hnul : ch = Char.ofNat 0 := by
    rw [← Char.ofNat_toNat ch, Int.natCast_eq_zero.mp hzero]
  rw [hnul] at hdigit
  exact absurd hdigit (by decide)

/-- There is room for the digits and the terminating 0. -/
theorem length_decimal (hpos : 0 < n) : (decimal n).length + 1 ≤ 2 * n := by
  rw [decimal, List.length_map]
  have hlt : n < 10 ^ (2 * n - 1) :=
    calc n < 10 ^ n := Nat.lt_pow_self (by decide)
      _ ≤ 10 ^ (2 * n - 1) := Nat.pow_le_pow_right (by decide) (by omega)
  have hlen := (Nat.length_toDigits_le_iff (b := 10) (by decide) (by omega)).mpr hlt
  omega

/-! ## The loop -/

theorem rewriteFrom_drop (skip : Nat) (t : List ℤ) :
    rewriteFrom skip t = rewrite (t.drop skip) := by
  induction skip generalizing t with
  | zero => rfl
  | succ skip ih =>
    cases t with
    | nil => rfl
    | cons a t => exact ih t

theorem countsFrom_drop (skip : Nat) (t : List ℤ) :
    countsFrom skip t = counts (t.drop skip) := by
  induction skip generalizing t with
  | zero => rfl
  | succ skip ih =>
    cases t with
    | nil => rfl
    | cons a t => exact ih t

/-- What is left of the old text between the written part and the read part: nothing as long as
nothing has been rewritten, the terminating 0 of `sprintf` and more after a run, only old
characters after a copied one. -/
inductive Stale : List Nat → List ℤ → Prop
  | plain {cs : List Nat} (h : ∀ c ∈ cs, c = 0) : Stale cs []
  | ended {cs : List Nat} {c : Nat} {s : List ℤ} (hlast : cs.getLast? = some c) (hc : 0 < c)
    (hs : ∀ x ∈ s, x ≠ 0) : Stale cs (0 :: s)
  | copied {cs : List Nat} {c : Nat} {s : List ℤ} (hmem : c ∈ cs) (hc : 0 < c)
    (hlast : cs.getLast? = some 0) (hne : s ≠ []) (hs : ∀ x ∈ s, x ≠ 0) : Stale cs s

/-- The first condition is for a text in which nothing is found. -/
def EndsRight (cs : List Nat) : Prop :=
  (∀ c ∈ cs, c = 0) ∨ ∃ c, cs.getLast? = some c ∧ 0 < c

variable {ns : List Nat} {stale out text : List ℤ} {p1 p2 : Nat}

theorem Stale.tail_ne_zero (h : Stale ns stale) : ∀ x ∈ stale.tail, x ≠ 0 := by
  cases h with
  | plain => nofun
  | ended _ _ hs => exact hs
  | copied _ _ _ _ hs => exact fun x hx => hs x (List.mem_of_mem_tail hx)

theorem Stale.copy (h : Stale ns stale) {a : ℤ} (ha : a ≠ 0) :
    Stale (ns ++ [0]) (stale ++ [a]).tail := by
  have hlast : (ns ++ [0]).getLast? = some 0 := List.getLast?_concat
  have hsnoc : ∀ {s : List ℤ}, (∀ x ∈ s, x ≠ 0) → ∀ x ∈ s ++ [a], x ≠ 0 := by
    intro s hs x hx
    rcases List.mem_append.mp hx with hx | hx
    · exact hs x hx
    · rw [List.mem_singleton.mp hx]
      exact ha
  cases h with
  | plain h =>
    refine .plain fun c hc => ?_
    rcases List.mem_append.mp hc with hc | hc
    · exact h c hc
    · exact List.mem_singleton.mp hc
  | @ended c s hl hc hs =>
    have hmem : c ∈ ns ++ [0] := List.mem_append_left [0] (List.mem_of_getLast? hl)
    exact .copied hmem hc hlast (List.concat_ne_nil a s) (hsnoc hs)
  | @copied c s hmem hc _ hne hs =>
    obtain ⟨x, s, rfl⟩ := List.exists_cons_of_ne_nil hne
    have htail : ∀ y ∈ s, y ≠ 0 := fun y hy => hs y (List.mem_cons_of_mem x hy)
    exact .copied (List.mem_append_left [0] hmem) hc hlast (List.concat_ne_nil a s) (hsnoc htail)

theorem Stale.rewrite (h : Stale ns stale) {k : Nat} (hk : 0 < k) {mid : List ℤ}
    (hmid : ∀ x ∈ mid, x ≠ 0) (j : Nat) :
    Stale (ns ++ [k]) (0 :: (stale ++ mid).drop (j + 1)) := by
  refine .ended List.getLast?_concat hk fun x hx => ?_
  have hx' : x ∈ (stale ++ mid).tail := by
    rw [← List.drop_tail] at hx
    exact List.mem_of_mem_drop hx
  rcases stale with _ | ⟨y, s⟩
  · exact hmid x (List.mem_of_mem_tail hx')
  · exact (List.mem_append.mp hx').elim (h.tail_ne_zero x) (hmid x)

theorem cString_append (hout : ∀ c ∈ out, c ≠ 0) (w : List ℤ) :
    cString (out ++ w) = out ++ cString w :=
  List.takeWhile_append_of_pos fun c hc => decide_eq_true (hout c hc)

/-- The string that the loop leaves. -/
theorem Stale.cString_iff (h : Stale ns stale) (hout : ∀ c ∈ out, c ≠ 0) (rest : List ℤ) :
    cString (out ++ stale ++ 0 :: rest) = out ↔ EndsRight ns := by
  rw [List.append_assoc, cString_append hout, List.append_right_eq_self]
  cases h with
  | plain h => exact ⟨fun _ => .inl h, fun _ => rfl⟩
  | ended hlast hc _ => exact ⟨fun _ => .inr ⟨_, hlast, hc⟩, fun _ => rfl⟩
  | copied hmem hc hlast hne hs =>
    obtain ⟨x, s, rfl⟩ := List.exists_cons_of_ne_nil hne
    have hx : x ≠ 0 := hs x List.mem_cons_self
    constructor
    · intro hnil
      rw [List.cons_append, cString, List.takeWhile_cons,
        if_pos (decide_eq_true hx)] at hnil
      cases hnil
    · rintro (hzero | ⟨c, hlast', hpos⟩)
      · exact absurd (hzero _ hmem) hc.ne'
      · rw [hlast] at hlast'
        cases hlast'
        exact absurd hpos (Nat.lt_irrefl 0)

/-- The state of the loop: `out` has been written, `t` is to be read. -/
structure Progress (text rest out stale t : List ℤ) (ns : List Nat) (p1 p2 : Nat) (mem : Mem) :
    Prop where
  buf_eq : mem.buf = out ++ stale ++ t ++ 0 :: rest
  p2_eq : p2 = out.length
  p1_eq : p1 = (out ++ stale).length
  rewrite_eq : Huiwen.rewrite text = out ++ Huiwen.rewrite t
  counts_eq : counts text = ns ++ counts t
  out_ne : ∀ c ∈ out, c ≠ 0
  t_ne : ∀ c ∈ t, c ≠ 0
  stale : Stale ns stale

theorem rewrite_copy {a : ℤ} (h : found (a :: t) = 0) : rewrite (a :: t) = a :: rewrite t := by
  rw [rewrite, rewriteFrom, h]
  rfl

theorem rewrite_found {a : ℤ} (h : 0 < found (a :: t)) :
    rewrite (a :: t) =
      a :: (decimal (found (a :: t)) ++ rewrite (t.drop (2 * found (a :: t)))) := by
  rw [rewrite, rewriteFrom, ← rewriteFrom_drop]
  exact if_pos h

theorem counts_cons (a : ℤ) (t : List ℤ) :
    counts (a :: t) = found (a :: t) :: counts (t.drop (2 * found (a :: t))) := by
  rw [counts, countsFrom, countsFrom_drop]

/-- A character is copied. -/
theorem Progress.copy {a : ℤ} (h : Progress text rest out stale (a :: t) ns p1 p2 mem)
    (hfound : found (a :: t) = 0)
    (hbuf : mem'.buf = out ++ a :: ((stale ++ [a]).tail ++ t) ++ 0 :: rest) :
    Progress text rest (out ++ [a]) (stale ++ [a]).tail t (ns ++ [0]) (p1 + 1) (p2 + 1) mem' := by
  have ha : a ≠ 0 := h.t_ne a List.mem_cons_self
  refine ⟨?_, ?_, ?_, ?_, ?_, ?_, ?_, h.stale.copy ha⟩
  · rw [hbuf]
    simp
  · rw [h.p2_eq, List.length_append, List.length_singleton]
  · rw [h.p1_eq]
    simp
    omega
  · rw [h.rewrite_eq, rewrite_copy hfound, List.append_cons]
  · rw [h.counts_eq, counts_cons, hfound, List.append_cons]
    rfl
  · intro c hc
    rcases List.mem_append.mp hc with hc | hc
    · exact h.out_ne c hc
    · rw [List.mem_singleton.mp hc]
      exact ha
  · exact fun c hc => h.t_ne c (List.mem_cons_of_mem a hc)

/-- A run is rewritten; `k` steps have been found. -/
theorem Progress.rewrite {a : ℤ} {k : Nat}
    (h : Progress text rest out stale (a :: t) ns p1 p2 mem) (hk : found (a :: t) = k)
    (hpos : 0 < k)
    (hbuf : mem'.buf = out ++ a :: (decimal k ++ 0 ::
      (stale ++ a :: t.take (2 * k)).drop ((decimal k).length + 2)) ++ t.drop (2 * k) ++
        0 :: rest) :
    Progress text rest (out ++ a :: decimal k)
      (0 :: (stale ++ a :: t.take (2 * k)).drop ((decimal k).length + 1 + 1)) (t.drop (2 * k))
      (ns ++ [k]) (p1 + k + k + 1) (p2 + 1 + (decimal k).length) mem' := by
  have ha : a ≠ 0 := h.t_ne a List.mem_cons_self
  have hlen := found_length h.t_ne (hk ▸ hpos)
  have hdec := length_decimal hpos
  rw [hk, List.length_cons] at hlen
  refine ⟨?_, ?_, ?_, ?_, ?_, ?_, ?_, h.stale.rewrite hpos ?_ _⟩
  · rw [hbuf]
    simp
  · rw [h.p2_eq, List.length_append, List.length_cons]
    omega
  · rw [h.p1_eq]
    simp
    omega
  · rw [h.rewrite_eq, rewrite_found (hk ▸ hpos), hk]
    simp
  · rw [h.counts_eq, counts_cons, hk, List.append_cons]
  · intro c hc
    rcases List.mem_append.mp hc with hc | hc
    · exact h.out_ne c hc
    · rcases List.mem_cons.mp hc with rfl | hc
      · exact ha
      · exact decimal_ne_zero k c hc
  · exact fun c hc => h.t_ne c (List.mem_cons_of_mem a (List.mem_of_mem_drop hc))
  · intro c hc
    rcases List.mem_cons.mp hc with rfl | hc
    · exact ha
    · exact h.t_ne c (List.mem_cons_of_mem a (List.mem_of_mem_take hc))

/-- What follows the written part is not empty. -/
theorem exists_next (stale : List ℤ) (a : ℤ) (t : List ℤ) :
    ∃ x, stale ++ a :: t = x :: ((stale ++ [a]).tail ++ t) := by
  obtain ⟨x, s, hs⟩ := List.exists_cons_of_ne_nil (List.concat_ne_nil a stale)
  refine ⟨x, ?_⟩
  rw [List.append_cons, hs]
  rfl

theorem Progress.buf_next {a : ℤ} (h : Progress text rest out stale (a :: t) ns p1 p2 mem) :
    ∃ x, mem.buf = out ++ x :: ((stale ++ [a]).tail ++ t ++ 0 :: rest) := by
  obtain ⟨x, hx⟩ := exists_next stale a t
  refine ⟨x, ?_⟩
  rw [h.buf_eq, List.append_assoc out, hx]
  simp

theorem Progress.step_copy {a : ℤ} (h : Progress text rest out stale (a :: t) ns p1 p2 mem)
    (hfound : found (a :: t) = 0) (hload : mem.buf[p1]? = some a) :
    Returns (do store p2 (← load p1); return Sum.inl (p1 + 1, p2 + 1) : M (Nat × Nat ⊕ Unit)) mem
      fun r mem' => r = .inl (p1 + 1, p2 + 1) ∧
        Progress text rest (out ++ [a]) (stale ++ [a]).tail t (ns ++ [0]) (p1 + 1) (p2 + 1)
          mem' := by
  have hp1 := h.p1_eq
  have hp2 := h.p2_eq
  rw [List.length_append] at hp1
  obtain ⟨x, hx⟩ := h.buf_next
  subst hp2
  refine returns_bind.mpr (returns_load hload fun mem₁ h₁ => ?_)
  have hread := h₁.le_read
  refine returns_bind.mpr (returns_store (h₁.buf_eq.trans hx) (by omega) a fun mem₂ hbuf _ => ?_)
  refine returns_pure.mpr ⟨rfl, h.copy hfound ?_⟩
  rw [hbuf]
  simp

/-- What `sprintf` leaves of the old characters, when the run is in `t`. -/
theorem drop_next (stale : List ℤ) (a : ℤ) (t : List ℤ) {m n : Nat}
    (hle : m + 2 ≤ (stale ++ a :: t.take n).length) :
    ((stale ++ [a]).tail ++ t).drop (m + 1) =
      (stale ++ a :: t.take n).drop (m + 2) ++ t.drop n := by
  obtain ⟨y, hy⟩ := exists_next stale a t
  have hcut : stale ++ a :: t = (stale ++ a :: t.take n) ++ t.drop n := by simp
  rw [← List.drop_append_of_le_length hle, ← hcut, hy]
  rfl

theorem Progress.step_rewrite {a : ℤ} {k : Nat}
    (h : Progress text rest out stale (a :: t) ns p1 p2 mem) (hk : found (a :: t) = k)
    (hpos : 0 < k) (hread : p1 + 2 * k + 1 ≤ mem.read) (hload : mem.buf[p1]? = some a)
    (hfuel : (a :: t).length < fuel) :
    Returns (do
        store p2 (← load p1)
        let p2 := p2 + 1
        sprintf p2 k
        let p2 ← skipText fuel p2
        return Sum.inl (p1 + k + k + 1, p2) : M (Nat × Nat ⊕ Unit)) mem fun r mem' =>
      ∃ p2', r = .inl (p1 + k + k + 1, p2') ∧ ∃ out stale, Progress text rest out stale
        (t.drop (2 * k)) (ns ++ [k]) (p1 + k + k + 1) p2' mem' := by
  have hp1 := h.p1_eq
  have hp2 := h.p2_eq
  have hlen := found_length h.t_ne (hk ▸ hpos)
  have hdec := length_decimal hpos
  rw [hk, List.length_cons] at hlen
  rw [List.length_append] at hp1
  obtain ⟨x, hx⟩ := h.buf_next
  subst hp2
  refine returns_bind.mpr (returns_load hload fun mem₁ h₁ => ?_)
  have hread₁ := h₁.read_le
  refine returns_bind.mpr (returns_store (h₁.buf_eq.trans hx) (by omega) a ?_)
  intro mem₂ hbuf₂ hread₂
  -- what the digits and the 0 are written over
  have hroom : (decimal k).length + 1 ≤ ((stale ++ [a]).tail ++ t).length := by
    simp
    omega
  have hold : mem₂.buf = (out ++ [a]) ++ ((stale ++ [a]).tail ++ t) ++ 0 :: rest := by
    rw [hbuf₂, List.append_cons, List.append_assoc (out ++ [a])]
  have hprint := sprintf_returns hold hroom (by simp; omega)
  rw [List.length_append, List.length_singleton] at hprint
  refine returns_bind.mpr (hprint.mono fun _ mem₃ hbuf₃ => ?_)
  have hskip : Returns (skipText fuel _) mem₃ _ :=
    skipText_returns (decimal_ne_zero k) hbuf₃ (by simp at hfuel; omega)
  rw [List.length_append, List.length_singleton] at hskip
  refine returns_bind.mpr (hskip.mono ?_)
  rintro _ mem₄ ⟨rfl, hbuf₄⟩
  refine returns_pure.mpr ⟨_, rfl, _, _, h.rewrite hk hpos ?_⟩
  have hle : (decimal k).length + 2 ≤ (stale ++ a :: t.take (2 * k)).length := by
    simp
    omega
  rw [hbuf₄, hbuf₃, drop_next stale a t hle]
  simp

theorem Progress.step {a : ℤ} (h : Progress text rest out stale (a :: t) ns p1 p2 mem)
    (hfuel : (a :: t).length < fuel) :
    Returns (modifyStep fuel (p1, p2)) mem fun r mem' =>
      ∃ p1' p2', r = .inl (p1', p2') ∧ ∃ out stale t' ns, t'.length < (a :: t).length ∧
        Progress text rest out stale t' ns p1' p2' mem' := by
  have ha : a ≠ 0 := h.t_ne a List.mem_cons_self
  have hp1 := h.p1_eq
  have hload : ∀ {mem' : Mem}, mem'.buf = mem.buf → mem'.buf[p1]? = some a := by
    intro mem' hbuf
    rw [hp1]
    exact getElem?_headD (hbuf.trans h.buf_eq)
  refine returns_bind.mpr (returns_load (hload rfl) fun mem₁ h₁ => ?_)
  rw [if_pos ha]
  have hfind : Returns (findSubString fuel (out ++ stale).length) mem₁ _ :=
    findSubString_returns h.t_ne (h₁.buf_eq.trans h.buf_eq) hfuel
  rw [← hp1] at hfind
  refine returns_bind.mpr (hfind.mono ?_)
  rintro _ mem₂ ⟨rfl, h₂⟩
  have hbuf := h₂.buf_eq.trans h₁.buf_eq
  have hnext : Progress text rest out stale (a :: t) ns p1 p2 mem₂ :=
    { h with buf_eq := hbuf.trans h.buf_eq }
  rcases Nat.eq_zero_or_pos (found (a :: t)) with hzero | hpos
  · rw [if_neg (by rw [hzero]; simp)]
    refine (hnext.step_copy hzero (hload hbuf)).mono ?_
    rintro _ mem₃ ⟨rfl, hp⟩
    exact ⟨_, _, rfl, _, _, _, _, Nat.lt_succ_self _, hp⟩
  · rw [if_pos (by simpa using hpos)]
    have hstep := hnext.step_rewrite rfl hpos h₂.le_read (hload hbuf) hfuel
    rw [Int.toNat_natCast]
    refine hstep.mono ?_
    rintro _ mem₃ ⟨p2', rfl, out', stale', hp⟩
    refine ⟨_, _, rfl, out', stale', _, _, ?_, hp⟩
    rw [List.length_drop, List.length_cons]
    omega

/-! ## The result -/

/-- What the loop leaves, whatever the text is. -/
theorem modifyString_returns (text rest : List ℤ) (htext : ∀ c ∈ text, c ≠ 0)
    (hfuel : text.length < fuel) :
    Returns (modifyString fuel) ⟨text ++ 0 :: rest, 0⟩ fun _ mem' =>
      cString mem'.buf = rewrite text ↔ EndsRight (counts text) := by
  refine Returns.loop (n := text.length)
    (I := fun n b mem => ∃ out stale t ns, t.length ≤ n ∧ n ≤ text.length ∧
      Progress text rest out stale t ns b.1 b.2 mem) ?_ hfuel
    ⟨[], [], text, [], Nat.le_refl _, Nat.le_refl _, ?_⟩
  · rintro n ⟨p1, p2⟩ mem ⟨out, stale, t, ns, hle, hn, h⟩
    rcases t with _ | ⟨a, t⟩
    · have hp1 : p1 = (out ++ stale).length := h.p1_eq
      have hload : mem.buf[p1]? = some 0 := by
        rw [hp1]
        exact getElem?_headD h.buf_eq
      refine returns_bind.mpr (returns_load hload fun mem₁ h₁ => ?_)
      rw [if_neg (by simp)]
      refine returns_pure.mpr ?_
      have hout : rewrite text = out := by
        rw [h.rewrite_eq]
        exact List.append_nil out
      have hns : counts text = ns := by
        rw [h.counts_eq]
        exact List.append_nil ns
      rw [h₁.buf_eq, h.buf_eq, hout, hns, List.append_nil]
      exact h.stale.cString_iff h.out_ne rest
    · refine (h.step (by omega)).mono ?_
      rintro _ mem' ⟨p1', p2', rfl, out', stale', t', ns', hlt, h'⟩
      exact ⟨t'.length, by omega, out', stale', t', ns', Nat.le_refl _, by omega, h'⟩
  · exact ⟨by simp, rfl, rfl, rfl, rfl, nofun, htext, .plain nofun⟩

theorem findSubString_below (h : n ≤ m) (pch : Nat) :
    Below (findSubString n pch) (findSubString m pch) :=
  (Below.loop _ _ h _).bind fun _ => (Below.loop _ _ h _).bind fun _ => .refl _

theorem modifyString_below (n m : Nat) (h : n ≤ m) : Below (modifyString n) (modifyString m) := by
  refine Below.loop_mono _ (fun ⟨p1, p2⟩ => .next fun _ => .ite ?_ (.refl _)) h _
  refine (findSubString_below h p1).bind fun _ => .ite ?_ (.refl _)
  exact .next fun _ => .next fun _ => .next fun _ => (Below.loop _ _ h _).bind fun _ => .refl _

/-- `ModifyString` returns, without a write over a character that has not been read, and its
buffer holds the rewritten text. -/
def Modifies (text rest : List ℤ) : Prop :=
  ∃ mem, Converges modifyString ⟨text ++ 0 :: rest, 0⟩ () mem ∧ cString mem.buf = rewrite text

theorem Modifies.iff_endsRight (htext : ∀ c ∈ text, c ≠ 0) (rest : List ℤ) :
    Modifies text rest ↔ EndsRight (counts text) := by
  obtain ⟨_, mem, hiff, hconv⟩ := Returns.converges modifyString_below fun _ hfuel =>
    modifyString_returns text rest htext (Nat.lt_of_succ_le hfuel)
  rw [← hiff]
  constructor
  · rintro ⟨mem', hmem', hstr⟩
    obtain ⟨-, rfl⟩ := (hconv () mem').mp hmem'
    exact hstr
  · exact fun hstr => ⟨mem, (hconv () mem).mpr ⟨rfl, rfl⟩, hstr⟩

/-- The text ends at its terminating 0, `rest` is what the buffer holds behind it. -/
theorem modifies_iff (text rest : List ℤ) (htext : ∀ c ∈ text, c ≠ 0) :
    Modifies text rest ↔ EndsRight (counts text) :=
  Modifies.iff_endsRight htext rest

/-- `BCB` becomes `B1`. -/
theorem modifies_iff_run : Modifies [66, 67, 66] [] :=
  (modifies_iff [66, 67, 66] [] (by decide)).mpr (.inr ⟨1, by decide, by decide⟩)

/-- `BCBX` becomes `B1X` in a buffer that holds `B1XX`. -/
theorem not_modifies_copied : ¬ Modifies [66, 67, 66, 88] [] := by
  rw [Modifies.iff_endsRight (by decide)]
  have hcounts : counts [66, 67, 66, 88] = [1, 0] := by decide
  rw [hcounts]
  rintro (hzero | ⟨c, hlast, hpos⟩)
  · exact absurd (hzero 1 List.mem_cons_self) (by decide)
  · cases hlast
    exact absurd hpos (Nat.lt_irrefl 0)

end Wish.Huiwen
