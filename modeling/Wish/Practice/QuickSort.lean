import Mathlib.Algebra.Order.Ring.Int
import Wish.Partition
import Wish.Prog

/-!
# `quick_sort`

`practice/quicksort.cpp`. The array is a list, the indices are of type `int`: reading or writing
outside of the array and leaving the range of `int` are faults. `swap` exchanges by `xor` through
two references, and leaves 0 where both refer to one element.
-/

namespace Wish.QuickSort

open Prog Partition

inductive Fault
  | bounds
  | overflow
  | stuck
  deriving DecidableEq, Repr

abbrev Arr := Prog Fault (List Int32)

def intMin : ℤ := -2147483648

def intMax : ℤ := 2147483647

/-- The value of an expression of type `int`. -/
def toInt (i : ℤ) : Arr ℤ := if intMin ≤ i ∧ i ≤ intMax then pure i else throw .overflow

/-- `arr[i]` -/
def load (i : ℤ) : Arr Int32 := do
  let arr ← get
  match if 0 ≤ i then arr[i.toNat]? else none with
  | some x => pure x
  | none => throw .bounds

/-- `arr[i] = x` -/
def store (i : ℤ) (x : Int32) : Arr Unit := do
  let arr ← get
  if 0 ≤ i ∧ i.toNat < arr.length then set (arr.set i.toNat x) else throw .bounds

/-- `arr[x] ^= arr[y]` -/
def xorAssign (x y : ℤ) : Arr Unit := do
  store x ((← load x) ^^^ (← load y))

/-- `swap(arr[x], arr[y])` -/
def swap (x y : ℤ) : Arr Unit := do
  xorAssign x y
  xorAssign y x
  xorAssign x y

/-- The body of the first inner loop; `stop` is `end`. -/
def stepLeft (middle stop left : ℤ) : Arr (ℤ ⊕ ℤ) := do
  if (← load left) < (← load middle) then
    if left ≥ stop then
      return .inr left
    else
      return .inl (← toInt (left + 1))
  else
    return .inr left

def scanLeft (fuel : Nat) (middle stop : ℤ) : ℤ → Arr ℤ :=
  loop .stuck (stepLeft middle stop) fuel

/-- The body of the second inner loop. -/
def stepRight (middle begin right : ℤ) : Arr (ℤ ⊕ ℤ) := do
  if (← load right) > (← load middle) then
    if right ≤ begin then
      return .inr right
    else
      return .inl (← toInt (right - 1))
  else
    return .inr right

def scanRight (fuel : Nat) (middle begin : ℤ) : ℤ → Arr ℤ :=
  loop .stuck (stepRight middle begin) fuel

/-- The body of `for(;;)`. -/
def stepPartition (fuel : Nat) (middle begin stop : ℤ) : ℤ × ℤ → Arr (ℤ × ℤ ⊕ ℤ)
  | (left, right) => do
    let left ← scanLeft fuel middle stop left
    let right ← scanRight fuel middle begin right
    if left ≥ right then
      return .inr right
    swap left right
    return .inl (left, right)

/-- `for(;;)`, with the value of `right` after it. -/
def partition (fuel : Nat) (middle begin stop : ℤ) : ℤ × ℤ → Arr ℤ :=
  loop .stuck (stepPartition fuel middle begin stop) fuel

/-- `quick_sort` up to its recursive calls, with the value of `right` there. -/
def divide (fuel : Nat) (begin stop : ℤ) : Arr ℤ := do
  let left ← toInt (begin + 1)
  let right := stop
  let middle := begin
  let right ← partition fuel middle begin stop (left, right)
  swap middle right
  return right

def quickSort : Nat → ℤ → ℤ → Arr Unit
  | 0, _, _ => throw .stuck
  | fuel + 1, begin, stop =>
    if begin ≥ stop then
      return
    else do
      let right ← divide fuel begin stop
      quickSort fuel begin (← toInt (right - 1))
      quickSort fuel (← toInt (right + 1)) stop

/-! ## The array -/

variable {arr u v w pre post A xs : List Int32} {p x y : Int32} {i j : ℤ}

/-- `arr[i]` is `x`. -/
def Reads (arr : List Int32) (i : ℤ) (x : Int32) : Prop := 0 ≤ i ∧ arr[i.toNat]? = some x

theorem reads_append (u : List Int32) (x : Int32) (v : List Int32) :
    Reads (u ++ x :: v) u.length x :=
  ⟨Int.natCast_nonneg _, by simp⟩

theorem toInt_of_int (h : intMin ≤ i ∧ i ≤ intMax) : toInt i arr = .ok (i, arr) := by
  rw [toInt, if_pos h]
  rfl

theorem returns_toInt {Q : ℤ → List Int32 → Prop} (h : intMin ≤ i ∧ i ≤ intMax) (hQ : Q i arr) :
    Returns (toInt i) arr Q :=
  ⟨i, arr, toInt_of_int h, hQ⟩

theorem Reads.returns_load {Q : Int32 → List Int32 → Prop} (h : Reads arr i x) (hQ : Q x arr) :
    Returns (load i) arr Q := by
  refine returns_bind.mpr (returns_get.mpr ?_)
  rw [if_pos h.1, h.2]
  exact returns_pure.mpr hQ

theorem returns_store {Q : Unit → List Int32 → Prop} (h : Reads arr i x)
    (hQ : Q () (arr.set i.toNat y)) : Returns (store i y) arr Q := by
  refine returns_bind.mpr (returns_get.mpr ?_)
  obtain ⟨hlt, -⟩ := List.getElem?_eq_some_iff.mp h.2
  rw [if_pos ⟨h.1, hlt⟩]
  exact ⟨(), _, rfl, hQ⟩

theorem returns_xorAssign {Q : Unit → List Int32 → Prop} (hi : Reads arr i x)
    (hj : Reads arr j y) (hQ : Q () (arr.set i.toNat (x ^^^ y))) :
    Returns (xorAssign i j) arr Q :=
  returns_bind.mpr (hi.returns_load (returns_bind.mpr (hj.returns_load (returns_store hi hQ))))

theorem set_append (u : List Int32) (x y : Int32) (v : List Int32) :
    (u ++ x :: v).set (u.length : ℤ).toNat y = u ++ y :: v := by
  simp

theorem reads_second (u : List Int32) (x : Int32) (v : List Int32) (y : Int32)
    (w : List Int32) : Reads (u ++ x :: (v ++ y :: w)) (u.length + v.length + 1) y := by
  have h := reads_append (u ++ x :: v) y w
  simpa [add_assoc] using h

theorem set_second (u : List Int32) (x : Int32) (v : List Int32) (y z : Int32)
    (w : List Int32) : (u ++ x :: (v ++ y :: w)).set (u.length + v.length + 1 : ℤ).toNat z =
      u ++ x :: (v ++ z :: w) := by
  have h := set_append (u ++ x :: v) y z w
  simpa [add_assoc] using h

/-- Two elements that are not the same one are exchanged. -/
theorem swap_spec (u : List Int32) (x : Int32) (v : List Int32) (y : Int32) (w : List Int32) :
    Returns (swap u.length (u.length + v.length + 1)) (u ++ x :: (v ++ y :: w))
      fun _ arr' => arr' = u ++ y :: (v ++ x :: w) := by
  have hx : y ^^^ (x ^^^ y) = x := by
    rw [Int32.xor_comm x, ← Int32.xor_assoc, Int32.xor_self, Int32.zero_xor]
  have hy : x ^^^ y ^^^ x = y := by
    rw [Int32.xor_comm x, Int32.xor_assoc, Int32.xor_self, Int32.xor_zero]
  rw [swap, returns_bind]
  apply returns_xorAssign (reads_append u x _) (reads_second u x v y w)
  rw [set_append, returns_bind]
  apply returns_xorAssign (reads_second u _ v y w) (reads_append u _ _)
  rw [set_second, hx]
  apply returns_xorAssign (reads_append u _ _) (reads_second u _ v x w)
  rw [set_append, hy]

/-- The element that both references refer to becomes 0. -/
theorem swap_self (u : List Int32) (x : Int32) (v : List Int32) :
    Returns (swap u.length u.length) (u ++ x :: v) fun _ arr' => arr' = u ++ 0 :: v := by
  rw [swap, returns_bind]
  apply returns_xorAssign (reads_append u x v) (reads_append u x v)
  rw [set_append, Int32.xor_self, returns_bind]
  apply returns_xorAssign (reads_append u 0 v) (reads_append u 0 v)
  rw [set_append, Int32.xor_self]
  apply returns_xorAssign (reads_append u 0 v) (reads_append u 0 v)
  rw [set_append, Int32.xor_self]

theorem reads_segment {P : Int32 → Prop} (harr : arr = u ++ A ++ w) (hA : ∀ a ∈ A, P a)
    (hlo : (u.length : ℤ) ≤ i) (hhi : i < u.length + A.length) : ∃ a, Reads arr i a ∧ P a := by
  obtain ⟨k, hk⟩ := Int.eq_ofNat_of_zero_le (show 0 ≤ i - u.length by omega)
  have hlt : k < A.length := by omega
  have hi : i.toNat = u.length + k := by omega
  refine ⟨A[k], ⟨by omega, ?_⟩, hA _ (List.getElem_mem hlt)⟩
  rw [harr, hi, List.append_assoc, List.getElem?_append_right (Nat.le_add_right _ _),
    Nat.add_sub_cancel_left, List.getElem?_append_left hlt, List.getElem?_eq_getElem hlt]

/-! ## The scans -/

theorem scanLeft_runs {middle stop left : ℤ} {fuel : Nat} {l : ℤ} (hm : Reads arr middle p)
    (hpass : ∀ k, left ≤ k → k < l → ∃ a, Reads arr k a ∧ a < p)
    (hend : ∃ a, Reads arr l a ∧ (¬ a < p ∨ stop ≤ l)) (hl : left ≤ l) (hstop : l ≤ stop)
    (hmin : intMin ≤ left) (hmax : stop ≤ intMax) :
    Runs .stuck ((l - left).toNat < fuel) (scanLeft fuel middle stop left) arr
      fun k arr' => k = l ∧ arr' = arr := by
  refine (Runs.loop (c := True) (n := (l - left).toNat)
    (I := fun n k arr' => arr' = arr ∧ left ≤ k ∧ k ≤ l ∧ n = (l - k).toNat)
    ?_ ⟨rfl, le_refl left, hl, rfl⟩).mono (fun h => ⟨trivial, h⟩) fun _ _ h => h
  rintro n k _ ⟨rfl, hk, hkl, rfl⟩
  refine Returns.runs (returns_bind.mpr ?_)
  rcases lt_or_eq_of_le hkl with hlt | rfl
  · obtain ⟨a, ha, hap⟩ := hpass k hk hlt
    refine ha.returns_load (returns_bind.mpr (hm.returns_load ?_))
    rw [if_pos hap, if_neg (by omega), returns_bind]
    refine returns_toInt ⟨by omega, by omega⟩ (returns_pure.mpr ?_)
    exact ⟨(l - (k + 1)).toNat, ⟨rfl, by omega, by omega, rfl⟩, fun _ => by omega⟩
  · obtain ⟨a, ha, hor⟩ := hend
    refine ha.returns_load (returns_bind.mpr (hm.returns_load ?_))
    refine .ite (fun hap => ?_) fun _ => returns_pure.mpr ⟨rfl, rfl⟩
    rw [if_pos (hor.resolve_left (not_not_intro hap))]
    exact returns_pure.mpr ⟨rfl, rfl⟩

theorem scanRight_runs {middle begin right : ℤ} {fuel : Nat} {r : ℤ} (hm : Reads arr middle p)
    (hpass : ∀ k, r < k → k ≤ right → ∃ a, Reads arr k a ∧ p < a)
    (hend : ∃ a, Reads arr r a ∧ ¬ p < a) (hr : r ≤ right) (hbegin : begin ≤ r)
    (hmin : intMin ≤ begin) (hmax : right ≤ intMax) :
    Runs .stuck ((right - r).toNat < fuel) (scanRight fuel middle begin right) arr
      fun k arr' => k = r ∧ arr' = arr := by
  refine (Runs.loop (c := True) (n := (right - r).toNat)
    (I := fun n k arr' => arr' = arr ∧ k ≤ right ∧ r ≤ k ∧ n = (k - r).toNat)
    ?_ ⟨rfl, le_refl right, hr, rfl⟩).mono (fun h => ⟨trivial, h⟩) fun _ _ h => h
  rintro n k _ ⟨rfl, hk, hrk, rfl⟩
  refine Returns.runs (returns_bind.mpr ?_)
  rcases lt_or_eq_of_le hrk with hlt | rfl
  · obtain ⟨a, ha, hap⟩ := hpass k hlt hk
    refine ha.returns_load (returns_bind.mpr (hm.returns_load ?_))
    rw [if_pos hap, if_neg (by omega), returns_bind]
    refine returns_toInt ⟨by omega, by omega⟩ (returns_pure.mpr ?_)
    exact ⟨(k - 1 - r).toNat, ⟨rfl, by omega, by omega, rfl⟩, fun _ => by omega⟩
  · obtain ⟨a, ha, hnot⟩ := hend
    refine ha.returns_load (returns_bind.mpr (hm.returns_load ?_))
    rw [if_neg hnot]
    exact returns_pure.mpr ⟨rfl, rfl⟩

/-! ## The partition -/

/-- The array while `p` is the pivot and `xs` what was behind it: `S` and `L` have been passed,
`A` and `D` are passed next, and then the scans are at the ends of `C`. -/
structure Zones (pre post : List Int32) (p : Int32) (xs S A C D L : List Int32)
    (left right : ℤ) (arr : List Int32) : Prop where
  arr_eq : arr = pre ++ p :: (S ++ A ++ C ++ D ++ L) ++ post
  left_eq : left = pre.length + 1 + S.length
  right_eq : right = pre.length + S.length + A.length + C.length + D.length
  length : S.length + A.length + C.length + D.length + L.length = xs.length
  ne : 0 < A.length + C.length + D.length
  small : ∀ a ∈ S ++ A, a < p
  large : ∀ d ∈ D ++ L, p < d
  core : Core p C
  count : C.count p = xs.count p
  parted : ∀ {lo mid hi}, Parted p (A ++ C ++ D) lo mid hi →
    Parted p xs (S ++ lo) mid (hi ++ L)

variable {S C D L : List Int32} {left right : ℤ}

theorem Zones.reads_middle (h : Zones pre post p xs S A C D L left right arr) :
    Reads arr pre.length p := by
  rw [h.arr_eq, List.append_assoc]
  exact reads_append pre p _

/-- Where the first scan stops, unless it comes to the end of the range. -/
theorem Zones.exists_head (h : Zones pre post p xs S A C D L left right arr)
    (hne : C ++ D ++ L ≠ []) :
    ∃ a, Reads arr (pre.length + 1 + S.length + A.length) a ∧ ¬ a < p := by
  obtain ⟨a, R, hR⟩ := List.exists_cons_of_ne_nil hne
  have ha : ¬ a < p := by
    rcases C with _ | ⟨c, C⟩
    · rw [List.nil_append] at hR
      have hmem : a ∈ D ++ L := by simp [hR]
      exact fun hap => Std.lt_irrefl (Std.lt_trans hap (h.large a hmem))
    · have hac : a = c := by simpa using (congrArg List.head? hR).symm
      exact Std.not_lt.mpr (h.core.head a (by simp [hac]))
  refine ⟨a, ?_, ha⟩
  have hread := reads_append (pre ++ p :: (S ++ A)) a (R ++ post)
  have harr : arr = pre ++ p :: (S ++ A) ++ a :: (R ++ post) := by
    have hcut : pre ++ p :: (S ++ A ++ C ++ D ++ L) ++ post =
        pre ++ p :: (S ++ A) ++ (C ++ D ++ L ++ post) := by simp
    rw [h.arr_eq, hcut, hR, List.cons_append]
  rw [harr]
  convert hread using 1
  simp
  omega

/-- Where the second scan stops. -/
theorem Zones.exists_last (h : Zones pre post p xs S A C D L left right arr) :
    ∃ a, Reads arr (pre.length + S.length + A.length + C.length) a ∧ ¬ p < a := by
  obtain ⟨R, a, hR⟩ : ∃ R a, p :: (S ++ A ++ C) = R ++ [a] :=
    ((p :: (S ++ A ++ C)).eq_nil_or_concat').resolve_left (List.cons_ne_nil _ _)
  have ha : ¬ p < a := by
    rcases C.eq_nil_or_concat' with rfl | ⟨C, c, rfl⟩
    · have hmem : a ∈ p :: (S ++ A) := by
        rw [← List.append_nil (S ++ A), hR]
        simp
      rcases List.mem_cons.mp hmem with rfl | hmem
      · exact Std.lt_irrefl
      · exact fun hpa => Std.lt_irrefl (Std.lt_trans hpa (h.small a hmem))
    · have hac : c = a := by
        have hlast := congrArg List.getLast? hR
        rw [List.getLast?_concat, ← List.append_assoc, getLast?_snoc] at hlast
        exact Option.some.inj hlast
      exact Std.not_lt.mpr (h.core.last a (by simp [hac]))
  refine ⟨a, ?_, ha⟩
  have hread := reads_append (pre ++ R) a (D ++ L ++ post)
  have harr : arr = pre ++ R ++ a :: (D ++ L ++ post) := by
    have hcut : pre ++ p :: (S ++ A ++ C ++ D ++ L) ++ post =
        pre ++ (p :: (S ++ A ++ C)) ++ (D ++ L ++ post) := by simp
    rw [h.arr_eq, hcut, hR]
    simp
  have hlen := congrArg List.length hR
  rw [harr]
  convert hread using 1
  simp at hlen ⊢
  omega

variable {fuel : Nat} {stop : ℤ}

theorem Zones.scanLeft (h : Zones pre post p xs S A C D L left right arr)
    (hstop : stop = pre.length + xs.length) (hmax : stop ≤ intMax) :
    Runs .stuck (xs.length < fuel) (scanLeft fuel pre.length stop left) arr fun l arr' =>
      arr' = arr ∧ (C = [] ∧ (pre.length + S.length + A.length : ℤ) ≤ l ∨
        C ≠ [] ∧ l = pre.length + 1 + S.length + A.length) := by
  have hlen := h.length
  have hleft := h.left_eq
  have hne := h.ne
  have hmin : intMin ≤ left := by
    rw [hleft]
    unfold intMin
    omega
  have harr : arr = (pre ++ p :: S) ++ A ++ (C ++ D ++ L ++ post) := by
    rw [h.arr_eq]
    simp
  have hpass : ∀ k, left ≤ k → k < pre.length + 1 + S.length + A.length →
      ∃ a, Reads arr k a ∧ a < p := by
    intro k hk hkl
    refine reads_segment harr (fun a ha => h.small a (List.mem_append_right S ha)) ?_ ?_
    · simp
      omega
    · simp
      omega
  by_cases hrest : C ++ D ++ L = []
  · -- the scan ends at the last element of the range
    have hC : C = [] := by simp_all
    have hD : D = [] := by simp_all
    have hL : L = [] := by simp_all
    subst hC hD hL
    simp only [List.length_nil] at hlen hne
    refine (scanLeft_runs (l := stop) h.reads_middle (fun k hk hkl => hpass k hk (by omega)) ?_
      (by omega) (le_refl _) hmin hmax).mono (by omega) ?_
    · obtain ⟨a, ha, -⟩ := hpass stop (by omega) (by omega)
      exact ⟨a, ha, .inr (le_refl _)⟩
    · rintro l _ ⟨rfl, rfl⟩
      exact ⟨rfl, .inl ⟨rfl, by omega⟩⟩
  · obtain ⟨a, ha, hap⟩ := h.exists_head hrest
    have hpos := List.length_pos_iff.mpr hrest
    simp only [List.length_append] at hpos
    refine (scanLeft_runs h.reads_middle hpass ⟨a, ha, .inl hap⟩ (by omega) (by omega) hmin
      hmax).mono (by omega) ?_
    rintro l _ ⟨rfl, rfl⟩
    refine ⟨rfl, ?_⟩
    by_cases hC : C = []
    · exact .inl ⟨hC, by omega⟩
    · exact .inr ⟨hC, rfl⟩

theorem Zones.scanRight (h : Zones pre post p xs S A C D L left right arr)
    (hmax : (pre.length + xs.length : ℤ) ≤ intMax) :
    Runs .stuck (xs.length < fuel) (scanRight fuel pre.length pre.length right) arr fun r arr' =>
      arr' = arr ∧ r = pre.length + S.length + A.length + C.length := by
  have hlen := h.length
  have hright := h.right_eq
  have harr : arr = (pre ++ p :: (S ++ A ++ C)) ++ D ++ (L ++ post) := by
    rw [h.arr_eq]
    simp
  have hpass : ∀ k : ℤ, pre.length + S.length + A.length + C.length < k → k ≤ right →
      ∃ a, Reads arr k a ∧ p < a := by
    intro k hk hkr
    refine reads_segment harr (fun d hd => h.large d (List.mem_append_left L hd)) ?_ ?_
    · simp
      omega
    · simp
      omega
  have hmin : intMin ≤ pre.length := by
    unfold intMin
    omega
  refine (scanRight_runs h.reads_middle hpass h.exists_last (by omega) (by omega) hmin
    (by omega)).mono (by omega) ?_
  rintro r _ ⟨rfl, rfl⟩
  exact ⟨rfl, rfl⟩

theorem count_core (hA : ∀ a ∈ A, a < p) (hD : ∀ d ∈ D, p < d) :
    (A ++ C ++ D).count p = C.count p := by
  have hA' : A.count p = 0 := List.count_eq_zero.mpr fun h => Std.lt_irrefl (hA p h)
  have hD' : D.count p = 0 := List.count_eq_zero.mpr fun h => Std.lt_irrefl (hD p h)
  rw [List.count_append, List.count_append, hA', hD']
  omega

/-- The start of the loop. -/
theorem exists_zones (pre post : List Int32) (p : Int32) (hne : xs ≠ []) :
    ∃ A C D, Zones pre post p xs [] A C D [] (pre.length + 1) (pre.length + xs.length)
      (pre ++ p :: xs ++ post) := by
  obtain ⟨A, C, D, hxs, hA, hD, hcore⟩ := exists_core p xs
  have hlen := congrArg List.length hxs
  have hpos := List.length_pos_iff.mpr hne
  simp only [List.length_append] at hlen
  refine ⟨A, C, D, ?_, ?_, ?_, ?_, by omega, hA, by simpa using hD, hcore, ?_, ?_⟩
  · simp [hxs]
  · simp
  · simp [hxs]
    omega
  · simp [hxs]
    omega
  · rw [hxs, count_core hA hD]
  · intro lo mid hi h
    rw [List.nil_append, List.append_nil, hxs]
    exact h

/-- The next round, after `x` and `y` have been exchanged. -/
theorem Zones.next {E : List Int32}
    (h : Zones pre post p xs S A (x :: (E ++ [y])) D L left right arr)
    (hx : p ≤ x) (hy : y ≤ p) :
    ∃ A' C' D', Zones pre post p xs (S ++ A) A' C' D' (D ++ L)
      (pre.length + 1 + S.length + A.length)
      (pre.length + S.length + A.length + (x :: (E ++ [y])).length)
      (pre ++ p :: (S ++ A ++ (y :: (E ++ [x])) ++ D ++ L) ++ post) ∧
      (xs.count p ≤ 1 → C'.length < (x :: (E ++ [y])).length) := by
  obtain ⟨A', C', D', hM, hA', hD', hcore⟩ := exists_core p (y :: (E ++ [x]))
  have hlen := h.length
  have hlenM := congrArg List.length hM
  simp only [List.length_append, List.length_cons, List.length_nil] at hlen hlenM
  have hsmall := h.small
  have hlarge := h.large
  refine ⟨A', C', D', ⟨?_, ?_, ?_, ?_, ?_, ?_, ?_, hcore, ?_, ?_⟩, ?_⟩
  · rw [hM]
    simp
  · simp
    omega
  · simp
    omega
  · simp
    omega
  · omega
  · intro a ha
    exact (List.mem_append.mp ha).elim (hsmall a) (hA' a)
  · intro d hd
    exact (List.mem_append.mp hd).elim (hD' d) (hlarge d)
  · rw [← count_core hA' hD', ← hM, ← h.count]
    simp only [List.count_cons, List.count_append, List.count_nil]
    omega
  · intro lo mid hi hp
    rw [← hM] at hp
    have hparted := h.parted (.swap (fun a ha => hsmall a (List.mem_append_right S ha))
      (fun d hd => hlarge d (List.mem_append_left L hd)) hx hy hp)
    rwa [← List.append_assoc, List.append_assoc hi] at hparted
  · intro hcount
    rw [← h.count] at hcount
    have hxy : y < p ∨ p < x := by
      by_contra hnot
      obtain ⟨hyp, hpx⟩ := not_or.mp hnot
      have hyp' : y = p := Std.le_antisymm hy (Std.not_lt.mp hyp)
      have hxp' : x = p := Std.le_antisymm (Std.not_lt.mp hpx) hx
      rw [hyp', hxp'] at hcount
      simp at hcount
    have hlt := hcore.length_lt hM hxy
    simp only [List.length_cons, List.length_append, List.length_nil]
    omega

/-- What the loop leaves. -/
def Done (pre post : List Int32) (p : Int32) (xs : List Int32) (right : ℤ) (arr : List Int32) :
    Prop :=
  ∃ lo mid hi, Parted p xs lo mid hi ∧ arr = pre ++ p :: (lo ++ mid ++ hi) ++ post ∧
    right = pre.length + lo.length + mid.length

theorem Zones.done (h : Zones pre post p xs S A C D L left right arr) (hC : C = [] ∨ C = [p]) :
    Done pre post p xs (pre.length + S.length + A.length + C.length) arr := by
  refine ⟨S ++ A, C, D ++ L, h.parted (.done ?_ hC ?_), ?_, ?_⟩
  · exact fun a ha => h.small a (List.mem_append_right S ha)
  · exact fun d hd => h.large d (List.mem_append_left L hd)
  · rw [h.arr_eq]
    simp
  · simp
    omega

/-- The exchange of the two ends of `C`. -/
theorem Zones.returns_swap {E : List Int32}
    (h : Zones pre post p xs S A (x :: (E ++ [y])) D L left right arr) :
    Returns (swap (pre.length + 1 + S.length + A.length)
        (pre.length + S.length + A.length + (x :: (E ++ [y])).length)) arr fun _ arr' =>
      arr' = pre ++ p :: (S ++ A ++ (y :: (E ++ [x])) ++ D ++ L) ++ post := by
  have hl : ((pre ++ p :: (S ++ A)).length : ℤ) = pre.length + 1 + S.length + A.length := by
    simp
    omega
  have hr : (pre.length + 1 + S.length + A.length : ℤ) + E.length + 1 =
      pre.length + S.length + A.length + (x :: (E ++ [y])).length := by
    simp
    omega
  have hcut : ∀ a b : Int32, pre ++ p :: (S ++ A ++ (a :: (E ++ [b])) ++ D ++ L) ++ post =
      pre ++ p :: (S ++ A) ++ a :: (E ++ b :: (D ++ L ++ post)) := by
    intro a b
    simp
  have hswap := swap_spec (pre ++ p :: (S ++ A)) x E y (D ++ L ++ post)
  rw [hl, hr] at hswap
  rw [h.arr_eq, hcut x y, hcut y x]
  exact hswap

/-- One round: the scans stop at the ends of `C`, which are exchanged if there are two. -/
theorem Zones.step (h : Zones pre post p xs S A C D L left right arr)
    (hstop : stop = pre.length + xs.length) (hmax : stop ≤ intMax) :
    Runs .stuck (xs.count p ≤ 1 ∧ xs.length < fuel)
      (stepPartition fuel pre.length pre.length stop (left, right)) arr fun r arr' =>
      match r with
      | .inl b => ∃ m, (∃ S A C D L, Zones pre post p xs S A C D L b.1 b.2 arr' ∧
          C.length = m) ∧ (xs.count p ≤ 1 ∧ xs.length < fuel → m < C.length)
      | .inr right => Done pre post p xs right arr' := by
  refine Runs.bind ((h.scanLeft hstop hmax).mono And.right fun _ _ hQ => hQ) fun l _ hl => ?_
  obtain ⟨rfl, hl⟩ := hl
  refine Runs.bind ((h.scanRight (hstop ▸ hmax)).mono And.right fun _ _ hQ => hQ) fun r _ hr => ?_
  obtain ⟨rfl, rfl⟩ := hr
  refine Returns.runs ?_
  have hend : C = [] → (pre.length + S.length + A.length : ℤ) ≤ l := fun hC =>
    hl.elim And.right fun h => absurd hC h.1
  have hleft : C ≠ [] → l = pre.length + 1 + S.length + A.length := fun hC =>
    hl.elim (fun h => absurd h.1 hC) And.right
  rcases h.core.cases with hC | hC | ⟨x, E, y, hC, hx, hy⟩
  · subst hC
    rw [if_pos (by simpa using hend rfl)]
    exact returns_pure.mpr (h.done (.inl rfl))
  · subst hC
    have hleq := hleft (List.cons_ne_nil _ _)
    rw [if_pos (by simp; omega)]
    exact returns_pure.mpr (h.done (.inr rfl))
  · subst hC
    obtain rfl := hleft (List.cons_ne_nil _ _)
    obtain ⟨A', C', D', hnext, hlt⟩ := h.next hx hy
    rw [if_neg (by simp; omega), returns_bind]
    refine h.returns_swap.mono fun _ arr' harr' => ?_
    rw [harr']
    exact returns_pure.mpr
      ⟨C'.length, ⟨S ++ A, A', C', D', D ++ L, hnext, rfl⟩, fun hc => hlt hc.1⟩

theorem partition_runs (pre post : List Int32) (p : Int32) (hne : xs ≠ [])
    (hstop : stop = pre.length + xs.length) (hmax : stop ≤ intMax) :
    Runs .stuck (xs.count p ≤ 1 ∧ xs.length < fuel)
      (partition fuel pre.length pre.length stop (pre.length + 1, stop))
      (pre ++ p :: xs ++ post) (Done pre post p xs) := by
  obtain ⟨A, C, D, h⟩ := exists_zones pre post p hne
  have hlen := h.length
  rw [← hstop] at h
  refine (Runs.loop (c := xs.count p ≤ 1 ∧ xs.length < fuel)
    (I := fun n b arr => ∃ S A C D L, Zones pre post p xs S A C D L b.1 b.2 arr ∧ C.length = n)
    ?_ ⟨[], A, C, D, [], h, rfl⟩).mono (fun hc => ⟨hc, by omega⟩) fun _ _ hQ => hQ
  rintro _ ⟨left, right⟩ arr ⟨S, A, C, D, L, h, rfl⟩
  refine (h.step hstop hmax).mono (fun hc => hc) fun r _ hr => ?_
  cases r with
  | inl b => exact hr
  | inr right => exact hr

/-! ## The pivot -/

/-- The range `p :: xs` with the pivot in its place: `left` and `hi` are to be sorted. -/
inductive Cut (p : Int32) (xs : List Int32) : List Int32 → Int32 → List Int32 → Prop
  | dup {lo hi : List Int32} (h : Parted p xs lo [p] hi) : Cut p xs (p :: lo) p hi
  | swap {lo hi : List Int32} {z : Int32} (h : Parted p xs (lo ++ [z]) [] hi) :
    Cut p xs (z :: lo) p hi
  /-- The pivot is exchanged with itself. -/
  | self {hi : List Int32} (h : Parted p xs [] [] hi) : Cut p xs [] 0 hi

theorem Done.exists_cut (h : Done pre post p xs right arr) :
    Returns (swap pre.length right) arr fun _ arr' =>
      ∃ left q hi, Cut p xs left q hi ∧ arr' = pre ++ (left ++ q :: hi) ++ post ∧
        right = pre.length + left.length := by
  obtain ⟨lo, mid, hi, hp, rfl, rfl⟩ := h
  rcases hp.mid_cases with rfl | rfl
  · rcases lo.eq_nil_or_concat' with rfl | ⟨lo, z, rfl⟩
    · have hswap := swap_self pre p (hi ++ post)
      convert hswap.mono fun _ arr' harr' => ?_ using 1
      · simp
      · simp
      · exact ⟨[], 0, hi, .self hp, by simp [harr'], by simp⟩
    · have hswap := swap_spec pre p lo z (hi ++ post)
      convert hswap.mono fun _ arr' harr' => ?_ using 1
      · simp [add_assoc]
      · simp
      · exact ⟨z :: lo, p, hi, .swap hp, by simp [harr'], by simp⟩
  · have hswap := swap_spec pre p lo p (hi ++ post)
    convert hswap.mono fun _ arr' harr' => ?_ using 1
    · simp
    · simp
    · exact ⟨p :: lo, p, hi, .dup hp, by simp [harr'], by simp [add_assoc]⟩

theorem divide_runs (fuel : Nat) (pre post : List Int32) (p : Int32) (hne : xs ≠ [])
    (hstop : stop = pre.length + xs.length) (hmax : stop ≤ intMax) :
    Runs .stuck (xs.count p ≤ 1 ∧ xs.length < fuel) (divide fuel pre.length stop)
      (pre ++ p :: xs ++ post) fun right arr' =>
        ∃ left q hi, Cut p xs left q hi ∧ arr' = pre ++ (left ++ q :: hi) ++ post ∧
          right = pre.length + left.length := by
  have hpos := List.length_pos_iff.mpr hne
  have hint : intMin ≤ (pre.length : ℤ) + 1 ∧ (pre.length : ℤ) + 1 ≤ intMax := by
    unfold intMin
    omega
  refine Runs.bind (R := fun left arr => left = pre.length + 1 ∧ arr = pre ++ p :: xs ++ post)
    (returns_toInt hint ⟨rfl, rfl⟩).runs ?_
  rintro _ _ ⟨rfl, rfl⟩
  refine (partition_runs pre post p hne hstop hmax).bind fun right arr hdone => ?_
  exact (returns_bind.mpr (hdone.exists_cut.mono fun _ _ h => returns_pure.mpr h)).runs

end Wish.QuickSort
