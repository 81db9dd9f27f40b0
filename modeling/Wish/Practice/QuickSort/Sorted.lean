import Mathlib.Data.List.Nodup
import Wish.Practice.QuickSort

/-!
# What `quick_sort` does to a range

`Sorts xs ys o` says what the range `xs` becomes, call by call. It has a derivation just if no
value occurs more than twice in `xs`: two elements equal to the pivot behind it are exchanged for
ever.

A pivot that is the least of its range is exchanged with itself and becomes 0. So with distinct
elements the range gets sorted if each range of the recursion begins with 0 or with an element
that is not its least one (`Safe`).
-/

namespace Wish.QuickSort

open Prog Partition

variable {pre post xs ys left hi : List Int32} {p q : Int32} {fuel : Nat} {stop : ℤ} {o : Bool}

/-! ## The two parts -/

theorem Cut.perm (h : Cut p xs left q hi) : (left ++ p :: hi).Perm (p :: xs) := by
  cases h with
  | dup h =>
    refine List.Perm.trans ?_ (h.perm.cons p)
    simp
  | @swap lo hi z h =>
    refine List.Perm.trans ?_ (h.perm.cons p)
    rw [List.perm_iff_count]
    intro a
    simp only [List.count_append, List.count_cons, List.count_nil]
    omega
  | self h => exact h.perm.cons p

theorem Cut.length (h : Cut p xs left q hi) : left.length + hi.length = xs.length := by
  have hlen := h.perm.length_eq
  simp only [List.length_append, List.length_cons] at hlen
  omega

theorem Cut.le_of_mem_left (h : Cut p xs left q hi) : ∀ a ∈ left, a ≤ p := by
  cases h with
  | dup h =>
    intro a ha
    rcases List.mem_cons.mp ha with rfl | ha
    · exact Int32.le_refl a
    · exact Std.le_of_lt (h.lo_lt a ha)
  | @swap lo hi z h =>
    intro a ha
    refine Std.le_of_lt (h.lo_lt a ?_)
    simpa [or_comm] using ha
  | self h => nofun

theorem Cut.lt_of_mem_hi (h : Cut p xs left q hi) : ∀ a ∈ hi, p < a := by
  cases h with
  | dup h => exact h.lt_hi
  | swap h => exact h.lt_hi
  | self h => exact h.lt_hi

theorem Cut.count_pivot_le (h : Cut p xs left q hi) : xs.count p ≤ 1 := by
  cases h with
  | dup h => exact h.count_le
  | swap h => exact h.count_le
  | self h => exact h.count_le

/-! ## The recursion -/

/-- The range `xs` becomes `ys`; `o` says that the last call of the ranges that end where `xs`
does has its pivot at the end. -/
inductive Sorts : List Int32 → List Int32 → Bool → Prop
  | nil : Sorts [] [] false
  | single (x : Int32) : Sorts [x] [x] false
  | node {p q : Int32} {xs left hi ls hs : List Int32} {ol oh : Bool} (hne : xs ≠ [])
    (cut : Cut p xs left q hi) (low : Sorts left ls ol) (high : Sorts hi hs oh) :
    Sorts (p :: xs) (ls ++ q :: hs) (hi.isEmpty || oh)

theorem Sorts.length (h : Sorts xs ys o) : ys.length = xs.length := by
  induction h with
  | nil => rfl
  | single => rfl
  | node _ cut _ _ ihl ihh =>
    have hlen := cut.length
    simp only [List.length_append, List.length_cons, ihl, ihh]
    omega

theorem Sorts.count_le (h : Sorts xs ys o) (v : Int32) : xs.count v ≤ 2 := by
  induction h with
  | nil => exact Nat.zero_le 2
  | single x => exact List.count_le_length.trans (Nat.le_succ 1)
  | @node p q xs left hi ls hs ol oh hne cut low high ihl ihh =>
    by_cases hv : v = p
    · have hle := cut.count_pivot_le
      rw [hv, List.count_cons_self]
      omega
    · have hperm := cut.perm.count_eq v
      rw [List.count_append, List.count_cons_of_ne (Ne.symm hv)] at hperm
      rw [← hperm]
      by_cases hmem : v ∈ hi
      · have hleft : left.count v = 0 := List.count_eq_zero.mpr fun h =>
          Std.not_lt.mpr (cut.le_of_mem_left v h) (cut.lt_of_mem_hi v hmem)
        omega
      · have hhi : hi.count v = 0 := List.count_eq_zero.mpr hmem
        omega

/-- What enough fuel is, for a part of the range. -/
theorem Cut.enough (h : Cut p xs left q hi) {part : List Int32}
    (hpart : part = left ∨ part = hi)
    (hn : (p :: xs).length < fuel + 1 ∧ ∀ v, (p :: xs).count v ≤ 2) :
    part.length < fuel ∧ ∀ v, part.count v ≤ 2 := by
  have hlen := h.length
  have hlt := hn.1
  rw [List.length_cons] at hlt
  constructor
  · rcases hpart with rfl | rfl <;> omega
  · intro v
    have hcount := hn.2 v
    rw [← h.perm.count_eq v, List.count_append, List.count_cons] at hcount
    rcases hpart with rfl | rfl <;> omega

/-- What is known of the call on `xs` between `pre` and `post`, and when it has enough fuel. -/
def Outcome (fuel : Nat) (begin stop : ℤ) (pre xs post : List Int32) : Prop :=
  quickSort fuel begin stop (pre ++ xs ++ post) = .error .stuck ∧
      ¬ (xs.length < fuel ∧ ∀ v, xs.count v ≤ 2) ∨
    ∃ ys o, Sorts xs ys o ∧ quickSort fuel begin stop (pre ++ xs ++ post) =
      if stop = intMax ∧ o = true then .error .overflow else .ok ((), pre ++ ys ++ post)

/-- The second recursive call; its first index need not be an `int`. -/
theorem Outcome.right {k : ℤ} (hk : intMin ≤ k) (hstop : stop = k + hi.length)
    (hmax : stop ≤ intMax) (h : k + 1 ≤ intMax → Outcome fuel (k + 1) stop (pre ++ [q]) hi post) :
    (toInt (k + 1) >>= fun l => quickSort fuel l stop) (pre ++ q :: hi ++ post) = .error .stuck ∧
        ¬ (hi.length < fuel ∧ ∀ v, hi.count v ≤ 2) ∨
      ∃ hs oh, Sorts hi hs oh ∧
        (toInt (k + 1) >>= fun l => quickSort fuel l stop) (pre ++ q :: hi ++ post) =
          if stop = intMax ∧ (hi.isEmpty || oh) = true then .error .overflow
          else .ok ((), pre ++ q :: hs ++ post) := by
  by_cases hint : k + 1 ≤ intMax
  · rw [bind_of_ok (toInt_of_int ⟨by omega, hint⟩), List.append_cons pre q hi]
    rcases h hint with hstuck | ⟨hs, oh, hsort, hrun⟩
    · exact .inl hstuck
    · refine .inr ⟨hs, oh, hsort, ?_⟩
      rw [hrun, List.append_assoc pre, List.singleton_append]
      rcases hi with _ | ⟨a, hi⟩
      · have hne : stop ≠ intMax := by
          simp at hstop
          omega
        rw [if_neg fun h => hne h.1, if_neg fun h => hne h.1]
      · simp
  · have hnil : hi = [] := List.length_eq_zero_iff.mp (by omega)
    subst hnil
    have hover : toInt (k + 1) (pre ++ q :: [] ++ post) = .error .overflow := by
      rw [toInt, if_neg fun h => hint h.2]
      rfl
    refine .inr ⟨[], false, .nil, ?_⟩
    have hlast : stop = intMax := by
      simp at hstop
      omega
    rw [bind_of_error hover, if_pos ⟨hlast, rfl⟩]

theorem quickSort_outcome (fuel : Nat) (pre xs post : List Int32) {begin : ℤ}
    (hbegin : begin = pre.length) (hstop : stop = pre.length + xs.length - 1)
    (hmax : stop ≤ intMax) : Outcome fuel begin stop pre xs post := by
  subst hbegin
  induction fuel generalizing pre xs post stop with
  | zero => exact .inl ⟨rfl, fun h => Nat.not_lt_zero _ h.1⟩
  | succ fuel ih =>
    rcases xs with _ | ⟨p, xs⟩
    · refine .inr ⟨[], false, .nil, ?_⟩
      rw [quickSort, if_pos (by simp at hstop; omega), if_neg (by simp)]
      rfl
    rcases eq_or_ne xs [] with rfl | hne
    · refine .inr ⟨[p], false, .single p, ?_⟩
      rw [quickSort, if_pos (by simp at hstop; omega), if_neg (by simp)]
      rfl
    have hlen : stop = pre.length + xs.length := by
      rw [hstop, List.length_cons]
      omega
    have hpos := List.length_pos_iff.mpr hne
    rw [Outcome, quickSort, if_neg (by omega)]
    rcases divide_runs fuel pre post p hne hlen hmax with
      ⟨right, _, hdiv, left, q, hi, hcut, rfl, rfl⟩ | ⟨hdiv, hc⟩
    · rw [bind_of_ok hdiv]
      have hsum := hcut.length
      -- the left part
      have hint : intMin ≤ (pre.length : ℤ) + left.length - 1 ∧
          (pre.length : ℤ) + left.length - 1 ≤ intMax := by
        unfold intMin
        omega
      rw [bind_of_ok (toInt_of_int hint), ← List.append_assoc pre, List.append_assoc (pre ++ left)]
      rcases ih pre left (q :: hi ++ post) rfl hint.2 with ⟨hleft, hc⟩ | ⟨ls, ol, hls, hleft⟩
      · exact .inl ⟨bind_of_error hleft, fun hn => hc (hcut.enough (.inl rfl) hn)⟩
      · rw [if_neg (by omega)] at hleft
        rw [bind_of_ok hleft, ← List.append_assoc (pre ++ ls) (q :: hi) post]
        have hlslen := hls.length
        have hk : intMin ≤ (pre.length : ℤ) + left.length := by
          unfold intMin
          omega
        have hnext : (pre.length : ℤ) + left.length + 1 ≤ intMax →
            Outcome fuel (pre.length + left.length + 1) stop (pre ++ ls ++ [q]) hi post := by
          intro _
          have hfirst : ((pre ++ ls ++ [q]).length : ℤ) = pre.length + left.length + 1 := by
            simp only [List.length_append, List.length_singleton, hlslen]
            omega
          rw [← hfirst]
          exact ih (pre ++ ls ++ [q]) hi post (by rw [hfirst]; omega) hmax
        rcases Outcome.right hk (by omega) hmax hnext with ⟨hright, hc⟩ | ⟨hs, oh, hhs, hright⟩
        · exact .inl ⟨hright, fun hn => hc (hcut.enough (.inr rfl) hn)⟩
        · refine .inr ⟨ls ++ q :: hs, _, .node hne hcut hls hhs, ?_⟩
          rw [hright]
          simp
    · refine .inl ⟨bind_of_error hdiv, fun hn => hc ?_⟩
      have hcount := hn.2 p
      have hlt := hn.1
      rw [List.count_cons_self] at hcount
      rw [List.length_cons] at hlt
      omega

/-! ## Termination -/

/-- With some amount of fuel the call ends before the fuel does. -/
def Terminates (begin stop : ℤ) (arr : List Int32) : Prop :=
  ∃ fuel, quickSort fuel begin stop arr ≠ .error .stuck

theorem Outcome.terminates_iff_count {begin : ℤ} (h : ∀ fuel, Outcome fuel begin stop pre xs post) :
    Terminates begin stop (pre ++ xs ++ post) ↔ ∀ v, xs.count v ≤ 2 := by
  constructor
  · rintro ⟨fuel, hfuel⟩ v
    rcases h fuel with ⟨hstuck, -⟩ | ⟨ys, o, hsort, -⟩
    · exact absurd hstuck hfuel
    · exact hsort.count_le v
  · intro hcount
    refine ⟨xs.length + 1, fun hstuck => ?_⟩
    rcases h (xs.length + 1) with ⟨-, hc⟩ | ⟨ys, o, -, hrun⟩
    · exact hc ⟨Nat.lt_succ_self _, hcount⟩
    · rw [hrun] at hstuck
      split at hstuck <;> cases hstuck

/-- The range `begin..end` of an array is `xs`; `end` is an `int`. A call that is stopped by the
overflow of `right + 1`, which is the last thing it does, has ended. -/
theorem terminates_iff (pre xs post : List Int32)
    (hend : (pre.length + xs.length - 1 : ℤ) ≤ intMax) :
    Terminates pre.length (pre.length + xs.length - 1) (pre ++ xs ++ post) ↔
      ∀ v, xs.count v ≤ 2 :=
  Outcome.terminates_iff_count fun fuel => quickSort_outcome fuel pre xs post rfl rfl hend

theorem terminates_iff_twice : Terminates 1 2 [9, 5, 5] :=
  (terminates_iff [9] [5, 5] [] (by decide)).mpr fun _ => List.count_le_length

theorem not_terminates_thrice : ¬ Terminates 0 2 [1, 1, 1] := by
  intro h
  have hcount := (Outcome.terminates_iff_count fun fuel =>
    quickSort_outcome fuel [] [1, 1, 1] [] rfl rfl (by decide)).mp h 1
  exact absurd hcount (by decide)

/-! ## Distinct elements -/

/-- The part before the pivot, when its last element has been exchanged with the pivot. -/
def leftPart (p : Int32) (xs : List Int32) : List Int32 :=
  match (lower p xs).getLast? with
  | none => []
  | some z => z :: (lower p xs).dropLast

/-- No range of the recursion begins with its least element, unless that is 0. -/
inductive Safe : List Int32 → Prop
  | nil : Safe []
  | single (x : Int32) : Safe [x]
  | node {p : Int32} {xs : List Int32} (hne : xs ≠ []) (hp : p = 0 ∨ ∃ a ∈ xs, a < p)
    (low : Safe (leftPart p xs)) (high : Safe (upper p xs)) : Safe (p :: xs)

/-- Of the ranges that end where `xs` does, the last one with a pivot has it at the end. -/
inductive PivotLast : List Int32 → Prop
  | here {p : Int32} {xs : List Int32} (hne : xs ≠ []) (h : upper p xs = []) :
    PivotLast (p :: xs)
  | right {p : Int32} {xs : List Int32} (h : PivotLast (upper p xs)) : PivotLast (p :: xs)

theorem Cut.eq_parts (h : Cut p xs left q hi) (hp : p ∉ xs) :
    left = leftPart p xs ∧ hi = upper p xs := by
  cases h with
  | dup h => cases (h.eq_sides hp).1
  | swap h =>
    obtain ⟨-, hlo, hhi⟩ := h.eq_sides hp
    rw [leftPart, ← hlo, List.getLast?_concat, List.dropLast_concat]
    exact ⟨rfl, hhi⟩
  | self h =>
    obtain ⟨-, hlo, hhi⟩ := h.eq_sides hp
    rw [leftPart, ← hlo]
    exact ⟨rfl, hhi⟩

/-- The element left for the pivot. -/
theorem Cut.pivot_cases (h : Cut p xs left q hi) :
    q = p ∧ (xs.count p = 0 → ∃ a ∈ xs, a < p) ∨ q = 0 ∧ ∀ a ∈ xs, p < a := by
  cases h with
  | dup h =>
    refine .inl ⟨rfl, fun hp => ?_⟩
    rw [← h.perm.count_eq p] at hp
    simp at hp
  | @swap lo hi z h =>
    have hz : z ∈ lo ++ [z] := List.mem_append_right lo (List.mem_singleton_self z)
    refine .inl ⟨rfl, fun _ => ⟨z, h.perm.mem_iff.mp ?_, h.lo_lt z hz⟩⟩
    simp
  | self h => exact .inr ⟨rfl, fun a ha => h.lt_hi a (by simpa using h.perm.mem_iff.mpr ha)⟩

theorem Cut.nodup (h : Cut p xs left q hi) (hnd : (p :: xs).Nodup) : left.Nodup ∧ hi.Nodup := by
  have hperm := (h.perm.nodup_iff.mpr hnd)
  obtain ⟨hleft, hright, -⟩ := List.nodup_append.mp hperm
  exact ⟨hleft, (List.nodup_cons.mp hright).2⟩

theorem Sorts.pivotLast_iff (h : Sorts xs ys o) (hnd : xs.Nodup) : o = true ↔ PivotLast xs := by
  induction h with
  | nil => exact ⟨nofun, nofun⟩
  | single x =>
    refine ⟨nofun, fun h => ?_⟩
    cases h with
    | here hne => exact absurd rfl hne
    | right h => cases h
  | @node p q xs left hi ls hs ol oh hne cut low high ihl ihh =>
    obtain ⟨-, hhi⟩ := cut.eq_parts (List.nodup_cons.mp hnd).1
    rw [Bool.or_eq_true, List.isEmpty_iff, ihh (cut.nodup hnd).2, hhi]
    constructor
    · rintro (h | h)
      · exact .here hne h
      · exact .right h
    · intro h
      cases h with
      | here _ h => exact .inl h
      | right h => exact .inr h

/-- Of a safe range nothing gets lost. -/
theorem Sorts.sorted_of_safe (h : Sorts xs ys o) (hnd : xs.Nodup) (hsafe : Safe xs) :
    ys.Perm xs ∧ ys.Pairwise (· ≤ ·) := by
  induction h with
  | nil => exact ⟨.refl [], .nil⟩
  | single x => exact ⟨.refl [x], List.pairwise_singleton _ x⟩
  | @node p q xs left hi ls hs ol oh hne cut low high ihl ihh =>
    obtain ⟨hleft, hhi⟩ := cut.eq_parts (List.nodup_cons.mp hnd).1
    obtain ⟨hndl, hndh⟩ := cut.nodup hnd
    cases hsafe with
    | single => exact absurd rfl hne
    | node _ hp hlow hhigh =>
      have hq : q = p := by
        rcases cut.pivot_cases with ⟨hq, -⟩ | ⟨hq, hlt⟩
        · exact hq
        · rcases hp with hp | ⟨a, ha, hap⟩
          · rw [hq, hp]
          · exact absurd (Std.lt_trans (hlt a ha) hap) Std.lt_irrefl
      subst hq
      obtain ⟨hpl, hsl⟩ := ihl hndl (hleft ▸ hlow)
      obtain ⟨hph, hsh⟩ := ihh hndh (hhi ▸ hhigh)
      have hle : ∀ a ∈ ls, a ≤ q := fun a ha => cut.le_of_mem_left a (hpl.mem_iff.mp ha)
      have hge : ∀ b ∈ hs, q ≤ b := fun b hb =>
        Std.le_of_lt (cut.lt_of_mem_hi b (hph.mem_iff.mp hb))
      refine ⟨(hpl.append (hph.cons q)).trans cut.perm, ?_⟩
      refine List.pairwise_append.mpr ⟨hsl, List.pairwise_cons.mpr ⟨hge, hsh⟩, ?_⟩
      intro a ha b hb
      rcases List.mem_cons.mp hb with rfl | hb
      · exact hle a ha
      · exact Int32.le_trans (hle a ha) (hge b hb)

/-- A pivot that is lost leaves one 0 more. -/
theorem Sorts.count_zero (h : Sorts xs ys o) (hnd : xs.Nodup) :
    xs.count 0 ≤ ys.count 0 ∧ (ys.count 0 = xs.count 0 → Safe xs) := by
  induction h with
  | nil => exact ⟨Nat.le_refl _, fun _ => .nil⟩
  | single x => exact ⟨Nat.le_refl _, fun _ => .single x⟩
  | @node p q xs left hi ls hs ol oh hne cut low high ihl ihh =>
    obtain ⟨hleft, hhi⟩ := cut.eq_parts (List.nodup_cons.mp hnd).1
    obtain ⟨hndl, hndh⟩ := cut.nodup hnd
    obtain ⟨hlel, hsafel⟩ := ihl hndl
    obtain ⟨hleh, hsafeh⟩ := ihh hndh
    have hperm := cut.perm.count_eq 0
    rw [List.count_append, List.count_cons] at hperm
    rw [← hperm, List.count_append, List.count_cons]
    rcases cut.pivot_cases with ⟨hq, hsmall⟩ | ⟨hq, hlt⟩
    · subst hq
      have hnot : xs.count q = 0 := List.count_eq_zero.mpr (List.nodup_cons.mp hnd).1
      refine ⟨by omega, fun heq => .node hne (.inr (hsmall hnot)) ?_ ?_⟩
      · exact hleft ▸ hsafel (by omega)
      · exact hhi ▸ hsafeh (by omega)
    · subst hq
      by_cases hp : p = 0
      · subst hp
        refine ⟨by omega, fun heq => .node hne (.inl rfl) ?_ ?_⟩
        · exact hleft ▸ hsafel (by omega)
        · exact hhi ▸ hsafeh (by omega)
      · have hp' : (p == 0) = false := beq_eq_false_iff_ne.mpr hp
        simp only [hp', BEq.rfl, if_true, Bool.false_eq_true, if_false]
        exact ⟨by omega, fun heq => by omega⟩

/-! ## The order of the result -/

/-- `quick_sort` on the range `xs` of the array leaves it sorted, and the rest as it was. -/
def SortsRange (pre xs post : List Int32) : Prop :=
  ∃ ys, Converges (fun fuel => quickSort fuel pre.length (pre.length + xs.length - 1))
    (pre ++ xs ++ post) () (pre ++ ys ++ post) ∧ ys.Perm xs ∧ ys.Pairwise (· ≤ ·)

theorem SortsRange.safe (hend : (pre.length + xs.length - 1 : ℤ) ≤ intMax)
    (hnd : xs.Nodup) (h : SortsRange pre xs post) :
    Safe xs ∧ ((pre.length + xs.length - 1 : ℤ) = intMax → ¬ PivotLast xs) := by
  obtain ⟨ys, ⟨fuel, hrun⟩, hperm, -⟩ := h
  rcases quickSort_outcome fuel pre xs post rfl rfl hend with ⟨hstuck, -⟩ | ⟨ys', o, hsort, hout⟩
  · cases hrun.symm.trans hstuck
  · have hres := hrun.symm.trans hout
    split at hres
    · cases hres
    · rename_i hcond
      have hys : ys = ys' := by
        simpa using hres
      subst hys
      refine ⟨(hsort.count_zero hnd).2 (hperm.count_eq 0), fun hfull hlast => hcond ?_⟩
      exact ⟨hfull, (hsort.pivotLast_iff hnd).mpr hlast⟩

/-- The range `begin..end` of an array is `xs`; `end` is an `int`. -/
theorem sortsRange_iff_safe (pre xs post : List Int32) (hdistinct : xs.Nodup)
    (hend : (pre.length + xs.length - 1 : ℤ) ≤ intMax) :
    SortsRange pre xs post ↔
      Safe xs ∧ ((pre.length + xs.length - 1 : ℤ) = intMax → ¬ PivotLast xs) := by
  refine ⟨fun h => h.safe hend hdistinct, fun ⟨hsafe, hlast⟩ => ?_⟩
  have hcount : ∀ v, xs.count v ≤ 2 := fun v =>
    (List.nodup_iff_count_le_one.mp hdistinct v).trans (Nat.le_succ 1)
  rcases quickSort_outcome (xs.length + 1) pre xs post rfl rfl hend with
    ⟨-, hc⟩ | ⟨ys, o, hsort, hout⟩
  · exact absurd ⟨Nat.lt_succ_self _, hcount⟩ hc
  · rw [if_neg fun h => hlast h.1 ((hsort.pivotLast_iff hdistinct).mp h.2)] at hout
    exact ⟨ys, ⟨_, hout⟩, hsort.sorted_of_safe hdistinct hsafe⟩

/-- In `{9, 4, 5, 2, 7, 1, 0}`, from 1 to 5. -/
theorem sortsRange_inner : SortsRange [9] [4, 5, 2, 7, 1] [0] := by
  have hlow : Safe (leftPart 4 [5, 2, 7, 1]) := by
    have heq : leftPart 4 [5, 2, 7, 1] = [2, 1] := by decide
    rw [heq]
    exact .node (List.cons_ne_nil 1 []) (.inr ⟨1, by decide, by decide⟩) (.single 1) .nil
  have hhigh : Safe (upper 4 [5, 2, 7, 1]) := by
    have heq : (upper 4 [5, 2, 7, 1] : List Int32) = [7, 5] := by decide
    rw [heq]
    exact .node (List.cons_ne_nil 5 []) (.inr ⟨5, by decide, by decide⟩) (.single 5) .nil
  have hsafe : Safe [4, 5, 2, 7, 1] :=
    .node (List.cons_ne_nil 5 _) (.inr ⟨1, by decide, by decide⟩) hlow hhigh
  exact (sortsRange_iff_safe [9] [4, 5, 2, 7, 1] [0] (by decide) (by decide)).mpr
    ⟨hsafe, fun h => absurd h (by decide)⟩

theorem not_sortsRange_one_two : ¬ SortsRange [] [1, 2] [] := by
  intro h
  obtain ⟨hsafe, -⟩ := h.safe (by decide) (by decide)
  cases hsafe with
  | node _ hp _ _ => exact absurd hp (by decide)

/-- The 1 gets lost. -/
example : quickSort 3 0 1 [1, 2] = .ok ((), [0, 2]) := by decide

end Wish.QuickSort
