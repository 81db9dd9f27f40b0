import Mathlib.Algebra.Order.Ring.Int
import Mathlib.Data.List.TakeWhile

/-!
# `wish::atoi`

`core/string/string_util.cpp`. An `int` computation that overflows has no result. Where the source
has a string and an index, there are the characters from the index on.

The result is limited one digit too early: the test compares `ret + n` where `10 * ret + n` is what
must not pass the limit. `atoi_eq_iff` says for which strings the result is right.
-/

namespace Wish.StringUtil

/-- A value of type `int`; `none` is an overflow. -/
def int (x : ℤ) : Option ℤ := if -2 ^ 31 ≤ x ∧ x < 2 ^ 31 then some x else none

theorem int_eq {x : ℤ} (h : -2 ^ 31 ≤ x ∧ x < 2 ^ 31) : int x = some x := if_pos h

/-- The loop over the leading spaces: `skip`, and the characters from there on. -/
def skipSpaces : List Char → ℤ → ℤ → Option (ℤ × List Char)
  | [], skip, _ => some (skip, [])
  | c :: cs, skip, idx =>
    if c ≠ ' ' then some (skip, c :: cs)
    else do
      let skip ← int (skip + 1)
      let idx ← int (idx + 1)
      skipSpaces cs skip idx

/-- The loop over the digits. -/
def readDigits (flag : Bool) : List Char → ℤ → ℤ → Option ℤ
  | [], _, ret => some ret
  | c :: cs, i, ret =>
    if c > '9' ∨ c < '0' then some ret
    else do
      let n : ℤ := c.toNat - '0'.toNat
      let limit ← int (0x7fffffff / 10 - n)
      if ret > limit then some (if flag then -0x7fffffff - 1 else 0x7fffffff)
      else do
        let ret ← int (ret * 10)
        let ret ← int (ret + n)
        let i ← int (i + 1)
        readDigits flag cs i ret

def atoi (s : List Char) : Option ℤ :=
  if s.isEmpty then some 0
  else do
    let (skip, rest) ← skipSpaces s 0 0
    match rest with
    | [] => some 0
    | head :: tail =>
      if head ≠ '+' ∧ head ≠ '-' ∧ (head > '9' ∨ head < '0') then some 0
      else do
        let (flag, skip, rest) ←
          if head = '+' then (int (skip + 1)).map fun skip => (false, skip, tail)
          else if head = '-' then (int (skip + 1)).map fun skip => (true, skip, tail)
          else some (false, skip, rest)
        let ret ← readDigits flag rest skip 0
        if flag ∧ ret ≠ -0x7fffffff - 1 then int (-ret) else some ret

/-! ## What a string denotes -/

def isDigit (c : Char) : Bool := '0' ≤ c ∧ c ≤ '9'

/-- The leading digits. -/
def digits (cs : List Char) : List ℕ := (cs.takeWhile isDigit).map fun c => c.toNat - '0'.toNat

/-- The number written by the digits `ds` behind one that is `v`. -/
def value (v : ℕ) (ds : List ℕ) : ℕ := ds.foldl (fun v d => 10 * v + d) v

/-- An optional sign: whether it is `-`, its length, and what is behind it. -/
def sign : List Char → Bool × ℕ × List Char
  | '+' :: cs => (false, 1, cs)
  | '-' :: cs => (true, 1, cs)
  | cs => (false, 0, cs)

def spaces (s : List Char) : ℕ := (s.takeWhile (· = ' ')).length

/-- The sign, and what is behind the spaces and the sign. -/
def body (s : List Char) : Bool × ℕ × List Char := sign (s.dropWhile (· = ' '))

/-- The number without the sign. -/
def magnitude (s : List Char) : ℕ := value 0 (digits (body s).2.2)

/-- The integer denoted by the leading part of the string, clamped. -/
def denoted (s : List Char) : ℤ :=
  max (-2 ^ 31) (min (2 ^ 31 - 1) (if (body s).1 then -(magnitude s : ℤ) else magnitude s))

/-! ## The digits -/

/-- The number of digits up to the one that the test of the loop stops at. -/
def taken : ℕ → List ℕ → ℕ
  | _, [] => 0
  | v, d :: ds => if v + d ≤ 214748364 then taken (10 * v + d) ds + 1 else 0

theorem value_cons (v d : ℕ) (ds : List ℕ) : value v (d :: ds) = value (10 * v + d) ds := rfl

theorem value_large {v : ℕ} {ds : List ℕ} (h : 214748364 < v / 10 + v % 10)
    (hds : ∀ d ∈ ds, d < 10) :
    214748364 < value v ds / 10 + value v ds % 10 := by
  induction ds generalizing v with
  | nil => exact h
  | cons d ds ih =>
    have hd := hds d List.mem_cons_self
    rw [value_cons]
    apply ih
    · omega
    · exact fun e he => hds e (List.mem_cons_of_mem d he)

/-- The test stops at no digit exactly if it would not stop at the last one. -/
theorem taken_eq_length_iff {v : ℕ} {ds : List ℕ} (h : v / 10 + v % 10 ≤ 214748364)
    (hds : ∀ d ∈ ds, d < 10) :
    taken v ds = ds.length ↔ value v ds / 10 + value v ds % 10 ≤ 214748364 := by
  induction ds generalizing v with
  | nil => exact iff_of_true rfl h
  | cons d ds ih =>
    have hd := hds d List.mem_cons_self
    have hds' : ∀ e ∈ ds, e < 10 := fun e he => hds e (List.mem_cons_of_mem d he)
    rw [taken, List.length_cons, value_cons]
    split
    · next hle =>
      rw [Nat.add_right_cancel_iff]
      exact ih (by omega) hds'
    · next hlt =>
      have hlarge := value_large (v := 10 * v + d) (by omega) hds'
      omega

theorem isDigit_iff {c : Char} : isDigit c = true ↔ ¬ (c > '9' ∨ c < '0') := by
  simp [isDigit, and_comm]

theorem toNat_of_isDigit {c : Char} (h : isDigit c = true) : 48 ≤ c.toNat ∧ c.toNat ≤ 57 := by
  simp only [isDigit, Bool.decide_and, Bool.and_eq_true, decide_eq_true_eq] at h
  exact h

theorem digits_lt {cs : List Char} : ∀ d ∈ digits cs, d < 10 := by
  intro d hd
  obtain ⟨c, hc, rfl⟩ := List.mem_map.mp hd
  have hdigit := toNat_of_isDigit (List.mem_takeWhile_imp hc)
  have hzero : '0'.toNat = 48 := rfl
  omega

theorem digits_cons_of_isDigit {c : Char} (h : isDigit c = true) (cs : List Char) :
    digits (c :: cs) = (c.toNat - '0'.toNat) :: digits cs := by
  simp [digits, h]

theorem digits_cons_of_not {c : Char} (h : ¬ isDigit c = true) (cs : List Char) :
    digits (c :: cs) = [] := by
  simp [digits, h]

/-- What the loop over the digits has for a result. -/
def outcome (flag : Bool) (v : ℕ) (ds : List ℕ) : ℤ :=
  if taken v ds = ds.length then value v ds else if flag then -2 ^ 31 else 2 ^ 31 - 1

/-- One round of the loop. -/
theorem readDigits_cons (flag : Bool) {c : Char} (hc : isDigit c = true) (cs : List Char)
    (i v : ℕ) :
    readDigits flag (c :: cs) i v =
      if v + (c.toNat - '0'.toNat) ≤ 214748364 then
        if i + 1 < 2 ^ 31 then
          readDigits flag cs (i + 1 : ℕ) (10 * v + (c.toNat - '0'.toNat) : ℕ)
        else none
      else some (if flag then -2 ^ 31 else 2 ^ 31 - 1) := by
  obtain ⟨hlow, hhigh⟩ := toNat_of_isDigit hc
  have hzero : '0'.toNat = 48 := rfl
  have hn : (c.toNat : ℤ) - ('0'.toNat : ℕ) = (c.toNat - '0'.toNat : ℕ) := by omega
  generalize c.toNat - '0'.toNat = d at hn ⊢
  have hd : d < 10 := by omega
  have hlimit := int_eq (x := 0x7fffffff / 10 - d) (by omega)
  rw [readDigits, if_neg (isDigit_iff.mp hc)]
  simp only [hn, hlimit, Option.bind_eq_bind, Option.bind_some]
  by_cases hle : v + d ≤ 214748364
  · have hnot : ¬ (v : ℤ) > 0x7fffffff / 10 - d := by omega
    have hten := int_eq (x := v * 10) (by omega)
    have hsum := int_eq (x := v * 10 + d) (by omega)
    rw [if_neg hnot, if_pos hle, hten, Option.bind_some, hsum, Option.bind_some]
    have hnext : (v : ℤ) * 10 + d = (10 * v + d : ℕ) := by omega
    by_cases hi : i + 1 < 2 ^ 31
    · have hindex := int_eq (x := i + 1) (by omega)
      rw [if_pos hi, hindex, Option.bind_some, hnext]
      rfl
    · have hindex : int ((i : ℤ) + 1) = none := if_neg (by omega)
      rw [if_neg hi, hindex, Option.bind_none]
  · have hgt : (v : ℤ) > 0x7fffffff / 10 - d := by omega
    rw [if_pos hgt, if_neg hle]
    rfl

theorem readDigits_eq (flag : Bool) (cs : List Char) {i v : ℕ} (hi : i < 2 ^ 31) :
    readDigits flag cs i v =
      if i + taken v (digits cs) < 2 ^ 31 then some (outcome flag v (digits cs)) else none := by
  induction cs generalizing i v with
  | nil =>
    have hin : i + taken v (digits []) < 2 ^ 31 := hi
    rw [if_pos hin]
    rfl
  | cons c cs ih =>
    by_cases hc : isDigit c = true
    · rw [readDigits_cons flag hc, digits_cons_of_isDigit hc, outcome, taken, value_cons,
        List.length_cons]
      generalize c.toNat - '0'.toNat = d
      by_cases hle : v + d ≤ 214748364
      · rw [if_pos hle, if_pos hle]
        by_cases hnext : i + 1 < 2 ^ 31
        · have hindex : i + (taken (10 * v + d) (digits cs) + 1) =
              i + 1 + taken (10 * v + d) (digits cs) := by omega
          rw [if_pos hnext, ih hnext, hindex]
          simp only [outcome, Nat.add_right_cancel_iff]
        · have hindex : ¬ i + (taken (10 * v + d) (digits cs) + 1) < 2 ^ 31 := by omega
          rw [if_neg hnext, if_neg hindex]
      · have hzero : ¬ 0 = (digits cs).length + 1 := by omega
        rw [if_neg hle, if_neg hle, Nat.add_zero, if_pos hi, if_neg hzero]
    · have hstop : c > '9' ∨ c < '0' := by
        by_contra hnot
        exact hc (isDigit_iff.mpr hnot)
      rw [readDigits, if_pos hstop, digits_cons_of_not hc]
      have hin : i + taken v [] < 2 ^ 31 := hi
      rw [if_pos hin]
      rfl

/-- `return (flag && ret != (-0x7fffffff - 1)) ? -ret : ret;` -/
def signed (flag : Bool) (ret : ℤ) : ℤ := if flag ∧ ret ≠ -2 ^ 31 then -ret else ret

theorem outcome_range (flag : Bool) (cs : List Char) :
    (0 ≤ outcome flag 0 (digits cs) ∨ outcome flag 0 (digits cs) = -2 ^ 31) ∧
      outcome flag 0 (digits cs) < 2 ^ 31 := by
  unfold outcome
  split
  · next htaken =>
    have hvalue := (taken_eq_length_iff (by decide) digits_lt).mp htaken
    omega
  · cases flag
    · simp
    · simp

/-- The number behind the sign. -/
theorem readDigits_signed (flag : Bool) (cs : List Char) {i : ℕ} (hi : i < 2 ^ 31) :
    ((readDigits flag cs i 0).bind fun ret =>
        if flag ∧ ret ≠ -0x7fffffff - 1 then int (-ret) else some ret) =
      if i + taken 0 (digits cs) < 2 ^ 31 then some (signed flag (outcome flag 0 (digits cs)))
      else none := by
  have hread : readDigits flag cs i 0 = _ := readDigits_eq flag cs (v := 0) hi
  have hrange := outcome_range flag cs
  rw [hread]
  by_cases hlt : i + taken 0 (digits cs) < 2 ^ 31
  · rw [if_pos hlt, if_pos hlt, Option.bind_some, signed]
    have hmin : (-0x7fffffff - 1 : ℤ) = -2 ^ 31 := rfl
    rw [hmin]
    split
    · exact int_eq (by omega)
    · rfl
  · rw [if_neg hlt, if_neg hlt, Option.bind_none]

/-- The sign is skipped first. -/
theorem readDigits_behind (flag : Bool) (cs : List Char) {n : ℕ} (hn : n < 2 ^ 31) :
    (((int (n + 1)).map fun skip => (flag, skip, cs)).bind fun x =>
        (readDigits x.1 x.2.2 x.2.1 0).bind fun ret =>
          if x.1 ∧ ret ≠ -0x7fffffff - 1 then int (-ret) else some ret) =
      if n + 1 + taken 0 (digits cs) < 2 ^ 31 then
        some (signed flag (outcome flag 0 (digits cs)))
      else none := by
  by_cases hnext : n + 1 < 2 ^ 31
  · have hskip := int_eq (x := n + 1) (by omega)
    rw [hskip]
    exact readDigits_signed flag cs hnext
  · have hskip : int ((n : ℤ) + 1) = none := if_neg (by omega)
    have hnot : ¬ n + 1 + taken 0 (digits cs) < 2 ^ 31 := by omega
    rw [hskip, if_neg hnot]
    rfl

/-! ## The whole string -/

theorem skipSpaces_eq (cs : List Char) {k : ℕ} (hk : k < 2 ^ 31) :
    skipSpaces cs k k =
      if k + spaces cs < 2 ^ 31 then some (((k + spaces cs : ℕ) : ℤ), cs.dropWhile (· = ' '))
      else none := by
  induction cs generalizing k with
  | nil =>
    have hin : k + spaces [] < 2 ^ 31 := hk
    rw [if_pos hin]
    rfl
  | cons c cs ih =>
    by_cases hc : c = ' '
    · have hspaces : spaces (c :: cs) = spaces cs + 1 := by simp [spaces, hc]
      have hdrop : (c :: cs).dropWhile (· = ' ') = cs.dropWhile (· = ' ') := by simp [hc]
      rw [skipSpaces, if_neg (not_not.mpr hc), hspaces, hdrop]
      by_cases hnext : k + 1 < 2 ^ 31
      · have hskip := int_eq (x := k + 1) (by omega)
        have hindex : k + (spaces cs + 1) = k + 1 + spaces cs := by omega
        rw [hskip, hindex]
        exact ih hnext
      · have hskip : int ((k : ℤ) + 1) = none := if_neg (by omega)
        have hnot : ¬ k + (spaces cs + 1) < 2 ^ 31 := by omega
        rw [hskip, if_neg hnot]
        rfl
    · have hspaces : spaces (c :: cs) = 0 := by simp [spaces, hc]
      have hdrop : (c :: cs).dropWhile (· = ' ') = c :: cs := by simp [hc]
      rw [skipSpaces, if_pos hc, hspaces, hdrop, Nat.add_zero, if_pos hk]

theorem sign_of_ne {c : Char} (cs : List Char) (hplus : c ≠ '+') (hminus : c ≠ '-') :
    sign (c :: cs) = (false, 0, c :: cs) := by
  unfold sign
  split
  · next h =>
    cases h
    exact absurd rfl hplus
  · next h =>
    cases h
    exact absurd rfl hminus
  · rfl

/-- The number of characters before the one that the function ends at. -/
def reached (s : List Char) : ℕ := spaces s + (body s).2.1 + taken 0 (digits (body s).2.2)

theorem atoi_eq (s : List Char) :
    atoi s =
      if reached s < 2 ^ 31 then
        some (signed (body s).1 (outcome (body s).1 0 (digits (body s).2.2)))
      else none := by
  cases s with
  | nil => rfl
  | cons c cs =>
    have hskip : skipSpaces (c :: cs) 0 0 = _ := skipSpaces_eq (c :: cs) (k := 0) (by decide)
    rw [Nat.zero_add] at hskip
    rw [atoi, List.isEmpty_cons, if_neg Bool.false_ne_true, hskip, reached, body]
    generalize (c :: cs).dropWhile (· = ' ') = rest
    generalize spaces (c :: cs) = n
    by_cases hn : n < 2 ^ 31
    · rw [if_pos hn]
      simp only [Option.bind_eq_bind, Option.bind_some]
      cases rest with
      | nil =>
        simp [sign, digits, taken, outcome, value, signed]
        omega
      | cons head tail =>
        simp only
        by_cases hplus : head = '+'
        · subst hplus
          rw [if_neg (by decide), if_pos rfl]
          exact readDigits_behind false tail hn
        · by_cases hminus : head = '-'
          · subst hminus
            rw [if_neg (by decide), if_neg (by decide), if_pos rfl]
            exact readDigits_behind true tail hn
          · rw [sign_of_ne tail hplus hminus]
            simp only [hplus, hminus, ne_eq, not_false_eq_true, true_and, if_false, Nat.add_zero]
            by_cases hdigit : head > '9' ∨ head < '0'
            · have hnone := digits_cons_of_not (fun h => isDigit_iff.mp h hdigit) tail
              simp [hdigit, hnone, taken, outcome, value, signed]
              omega
            · rw [if_neg hdigit]
              exact readDigits_signed false (head :: tail) hn
    · have hnot : ¬ n + (sign rest).2.1 + taken 0 (digits (sign rest).2.2) < 2 ^ 31 := by omega
      rw [if_neg hn, if_neg hnot]
      rfl

/-- From here on the number is clamped. -/
def limit (flag : Bool) : ℕ := if flag then 2 ^ 31 else 2 ^ 31 - 1

/-- The characters up to the end of the number are fewer than an `int` counts, and a number below
the limit passes the test of the loop with its last digit. -/
structure Exact (s : List Char) : Prop where
  reached : reached s < 2 ^ 31
  magnitude : magnitude s / 10 + magnitude s % 10 ≤ 214748364 ∨ limit (body s).1 ≤ magnitude s

theorem signed_eq_denoted_iff (s : List Char) :
    signed (body s).1 (outcome (body s).1 0 (digits (body s).2.2)) = denoted s ↔
      magnitude s / 10 + magnitude s % 10 ≤ 214748364 ∨ limit (body s).1 ≤ magnitude s := by
  have hlt : ∀ d ∈ digits (body s).2.2, d < 10 := digits_lt
  have htaken := taken_eq_length_iff (v := 0) (by decide) hlt
  unfold denoted magnitude limit outcome signed
  generalize value 0 (digits (body s).2.2) = n at htaken ⊢
  simp only [htaken]
  by_cases hfits : n / 10 + n % 10 ≤ 214748364
  · refine iff_of_true ?_ (Or.inl hfits)
    simp only [hfits, if_true]
    cases (body s).1
    · simp
      omega
    · simp
      omega
  · simp only [hfits, if_false, false_or]
    cases (body s).1
    · simp
    · simp

/-- **`atoi` is right** on a string exactly if it is `Exact`. -/
theorem atoi_eq_iff (s : List Char) : atoi s = some (denoted s) ↔ Exact s := by
  rw [atoi_eq]
  constructor
  · intro h
    split at h
    · next hreached =>
      exact ⟨hreached, (signed_eq_denoted_iff s).mp (Option.some.inj h)⟩
    · cases h
  · intro h
    rw [if_pos h.reached, (signed_eq_denoted_iff s).mpr h.magnitude]

/-- 2147483641 is an `int`. -/
theorem atoi_ne_denoted :
    atoi "2147483641".toList = some 2147483647 ∧ denoted "2147483641".toList = 2147483641 := by
  decide

end Wish.StringUtil
