import Mathlib.Data.List.DropRight
import Mathlib.Data.List.Perm.Basic

/-!
# Partition by two scans

A list is partitioned around `p` by exchanging the first element that is not below `p` with the
last one that is not above `p`, until the two scans meet. `Parted p M lo mid hi` is what comes of
`M`: `lo` is below `p`, `hi` above, and where the scans meet there may be one `p`, in `mid`.

The exchange of two elements equal to `p` changes nothing, so that no derivation of `Parted` has
two of them (`Parted.count_le`). Where `p` does not occur, `lo` and `hi` are `lower p M` and
`upper p M` (`Parted.eq_sides`): an element on the wrong side gives its place to one from the
other side, the first of them to the last.
-/

namespace Partition

variable {α : Type*} {p x y : α} {M A B C D E lo mid hi : List α}

theorem getLast?_snoc (x y : α) (E : List α) : (x :: (E ++ [y])).getLast? = some y := by
  rw [← List.cons_append, List.getLast?_concat]

/-! ## The sides of a partition -/

/-- The elements of a list, with those of a queue for the ones that fail the test. -/
def fill (t : α → Bool) : List α → List α → List α
  | [], _ => []
  | a :: as, [] => a :: fill t as []
  | a :: as, b :: queue =>
    if t a then a :: fill t as (b :: queue) else b :: fill t as queue

@[simp] theorem fill_nil (t : α → Bool) (queue : List α) : fill t [] queue = [] := by
  cases queue <;> rfl

theorem fill_cons_of_pos {t : α → Bool} {a : α} (h : t a = true) (queue : List α) :
    fill t (a :: A) queue = a :: fill t A queue := by
  cases queue with
  | nil => rfl
  | cons b queue => exact if_pos h

theorem fill_cons_of_neg {t : α → Bool} {a : α} (h : ¬ t a = true) (b : α)
    (queue : List α) : fill t (a :: A) (b :: queue) = b :: fill t A queue :=
  if_neg h

theorem fill_of_forall {t : α → Bool} (h : ∀ a ∈ A, t a = true) (queue : List α) :
    fill t A queue = A := by
  induction A with
  | nil => exact fill_nil t queue
  | cons a A ih =>
    rw [fill_cons_of_pos (h a List.mem_cons_self),
      ih fun b hb => h b (List.mem_cons_of_mem a hb)]

theorem fill_append {t : α → Bool} (B : List α) {queue : List α} (rest : List α)
    (h : queue.length = A.countP fun a => !t a) :
    fill t (A ++ B) (queue ++ rest) = fill t A queue ++ fill t B rest := by
  induction A generalizing queue with
  | nil =>
    rw [List.length_eq_zero_iff.mp h, fill_nil]
    rfl
  | cons a A ih =>
    rw [List.countP_cons] at h
    by_cases ha : t a = true
    · have hlen : queue.length = A.countP fun a => !t a := by simpa [ha] using h
      rw [List.cons_append, fill_cons_of_pos ha, fill_cons_of_pos ha, ih hlen, List.cons_append]
    · obtain ⟨b, queue, rfl⟩ : ∃ b q, queue = b :: q := by
        refine List.exists_cons_of_length_pos ?_
        simp [h, ha]
      have hlen : queue.length = A.countP fun a => !t a := by simpa [ha] using h
      rw [List.cons_append, List.cons_append, fill_cons_of_neg ha, fill_cons_of_neg ha, ih hlen,
        List.cons_append]

theorem fill_append_of_forall {t : α → Bool} (h : ∀ a ∈ A, t a = true) (B rest : List α) :
    fill t (A ++ B) rest = A ++ fill t B rest := by
  have hlen : ([] : List α).length = A.countP fun a => !t a :=
    (List.countP_eq_zero.mpr fun a ha => by simp [h a ha]).symm
  have happ := fill_append B rest hlen
  rwa [List.nil_append, fill_of_forall h] at happ

variable [LT α]

section Sides

variable [DecidableLT α]

/-- The number of elements below `p`, which are to come first. -/
def below (p : α) (M : List α) : Nat := M.countP (· < p)

def lower (p : α) (M : List α) : List α :=
  fill (· < p) (M.take (below p M)) ((M.drop (below p M)).filter (· < p)).reverse

def upper (p : α) (M : List α) : List α :=
  fill (p < ·) (M.drop (below p M)) ((M.take (below p M)).filter (p < ·)).reverse

theorem below_append (p : α) (A B : List α) : below p (A ++ B) = below p A + below p B :=
  List.countP_append

theorem below_of_forall_lt (h : ∀ a ∈ A, a < p) : below p A = A.length :=
  List.countP_eq_length.mpr fun a ha => decide_eq_true (h a ha)

theorem below_of_forall_not_lt (h : ∀ d ∈ D, ¬ d < p) : below p D = 0 :=
  List.countP_eq_zero.mpr fun d hd hlt => h d hd (of_decide_eq_true hlt)

theorem below_le_length (p : α) (M : List α) : below p M ≤ M.length := List.countP_le_length

theorem sides_append {L R : List α} (h : below p (L ++ R) = L.length) :
    lower p (L ++ R) = fill (· < p) L (R.filter (· < p)).reverse ∧
      upper p (L ++ R) = fill (p < ·) R (L.filter (p < ·)).reverse := by
  rw [lower, upper, h, List.take_left, List.drop_left]
  exact ⟨rfl, rfl⟩

end Sides

/-! ## The partition -/

variable [LE α]

inductive Parted (p : α) : List α → List α → List α → List α → Prop
  /-- The scans meet. -/
  | done {A C D : List α} (hA : ∀ a ∈ A, a < p) (hC : C = [] ∨ C = [p]) (hD : ∀ d ∈ D, p < d) :
    Parted p (A ++ C ++ D) A C D
  /-- They stop at `x` and `y`, which are exchanged. -/
  | swap {A D E lo mid hi : List α} {x y : α} (hA : ∀ a ∈ A, a < p) (hD : ∀ d ∈ D, p < d)
    (hx : p ≤ x) (hy : y ≤ p) (next : Parted p (y :: (E ++ [x])) lo mid hi) :
    Parted p (A ++ x :: (E ++ [y]) ++ D) (A ++ lo) mid (hi ++ D)

theorem Parted.perm (h : Parted p M lo mid hi) : (lo ++ mid ++ hi).Perm M := by
  classical
  induction h with
  | done => exact .refl _
  | swap _ _ _ _ _ ih =>
    rw [List.perm_iff_count] at ih ⊢
    intro a
    have h := ih a
    simp only [List.count_append, List.count_cons, List.count_nil] at h ⊢
    omega

theorem Parted.lo_lt (h : Parted p M lo mid hi) : ∀ a ∈ lo, a < p := by
  induction h with
  | done hA => exact hA
  | swap hA _ _ _ _ ih =>
    intro a ha
    exact (List.mem_append.mp ha).elim (hA a) (ih a)

theorem Parted.lt_hi (h : Parted p M lo mid hi) : ∀ a ∈ hi, p < a := by
  induction h with
  | done _ _ hD => exact hD
  | swap _ hD _ _ _ ih =>
    intro a ha
    exact (List.mem_append.mp ha).elim (ih a) (hD a)

theorem Parted.mid_cases (h : Parted p M lo mid hi) : mid = [] ∨ mid = [p] := by
  induction h with
  | done _ hC => exact hC
  | swap _ _ _ _ _ ih => exact ih

theorem Parted.count_le [DecidableEq α] [Std.LawfulOrderLT α]
    (h : Parted p M lo mid hi) : M.count p ≤ 1 := by
  have hlo : lo.count p = 0 := List.count_eq_zero.mpr fun hp => Std.lt_irrefl (h.lo_lt p hp)
  have hhi : hi.count p = 0 := List.count_eq_zero.mpr fun hp => Std.lt_irrefl (h.lt_hi p hp)
  have hmid : mid.count p ≤ 1 := by
    rcases h.mid_cases with rfl | rfl
    · exact Nat.zero_le 1
    · simp
  have hM := h.perm.count_eq p
  rw [List.count_append, List.count_append] at hM
  omega

/-- No scan moves on from the ends of `C`. -/
structure Core (p : α) (C : List α) : Prop where
  head : ∀ x ∈ C.head?, p ≤ x
  last : ∀ y ∈ C.getLast?, y ≤ p

variable [Std.IsLinearOrder α]

omit [LT α] in
theorem Core.cases (h : Core p C) :
    C = [] ∨ C = [p] ∨ ∃ x E y, C = x :: (E ++ [y]) ∧ p ≤ x ∧ y ≤ p := by
  rcases C with _ | ⟨x, C⟩
  · exact .inl rfl
  · have hx : p ≤ x := h.head x rfl
    rcases C.eq_nil_or_concat' with rfl | ⟨E, y, rfl⟩
    · have hle : x ≤ p := h.last x rfl
      have heq : x = p := Std.le_antisymm hle hx
      exact .inr (.inl (by rw [heq]))
    · have hy : y ≤ p := h.last y (getLast?_snoc x y E)
      exact .inr (.inr ⟨x, E, y, rfl, hx, hy⟩)

variable [Std.LawfulOrderLT α]

/-- After an exchange a scan moves on, unless both elements are equal to `p`. -/
theorem Core.length_lt (h : Core p C) (hM : y :: (E ++ [x]) = A ++ C ++ D)
    (hxy : y < p ∨ p < x) : C.length < E.length + 2 := by
  have hlen := congrArg List.length hM
  simp only [List.length_cons, List.length_append, List.length_nil] at hlen
  by_contra hnot
  have hA : A = [] := List.length_eq_zero_iff.mp (by omega)
  have hD : D = [] := List.length_eq_zero_iff.mp (by omega)
  rw [hA, hD, List.nil_append, List.append_nil] at hM
  rw [← hM] at h
  have hpy : p ≤ y := h.head y rfl
  have hxp : x ≤ p := h.last x (getLast?_snoc y x E)
  rcases hxy with hy | hx
  · exact Std.not_lt.mpr hpy hy
  · exact Std.not_lt.mpr hxp hx

variable [DecidableLT α]

theorem exists_core (p : α) (M : List α) :
    ∃ A C D, M = A ++ C ++ D ∧ (∀ a ∈ A, a < p) ∧ (∀ d ∈ D, p < d) ∧ Core p C := by
  let B := M.dropWhile (· < p)
  refine ⟨M.takeWhile (· < p), B.rdropWhile (p < ·), B.rtakeWhile (p < ·), ?_, ?_, ?_, ?_, ?_⟩
  · rw [List.append_assoc, List.rdropWhile_append_rtakeWhile, List.takeWhile_append_dropWhile]
  · intro a ha
    simpa using List.mem_takeWhile_imp ha
  · intro d hd
    simpa using List.mem_rtakeWhile_imp hd
  · intro x hx
    obtain ⟨R, hR⟩ := List.rdropWhile_prefix (fun d => decide (p < d)) (l := B)
    have hB : B.head? = some x := by
      rw [← hR, List.head?_append, hx]
      rfl
    have hne : B ≠ [] := by
      rintro hnil
      rw [hnil] at hB
      cases hB
    have hnot := List.head_dropWhile_not (fun a => decide (a < p)) hne
    rw [List.head?_eq_some_head hne] at hB
    rw [Option.some.inj hB] at hnot
    exact Std.not_lt.mp (of_decide_eq_false hnot)
  · intro y hy
    have hne : B.rdropWhile (fun d => decide (p < d)) ≠ [] := by
      rintro hnil
      rw [hnil] at hy
      cases hy
    have hnot := List.rdropWhile_last_not _ B hne
    rw [List.getLast?_eq_some_getLast hne] at hy
    rw [Option.some.inj hy] at hnot
    exact Std.not_lt.mp (by simpa using hnot)

theorem below_of_forall_gt (h : ∀ d ∈ D, p < d) : below p D = 0 :=
  below_of_forall_not_lt fun d hd => Std.not_lt.mpr (Std.le_of_lt (h d hd))

theorem countP_gt (h : p ∉ M) : (M.countP fun a => decide (p < a)) =
    M.countP fun a => !decide (a < p) := by
  refine List.countP_congr fun a ha => ?_
  have hne : a ≠ p := fun heq => h (heq ▸ ha)
  simp only [decide_eq_true_iff, Bool.not_eq_true', decide_eq_false_iff_not]
  exact ⟨fun hlt hgt => Std.lt_irrefl (Std.lt_trans hlt hgt),
    fun hnot => Std.lt_of_le_of_ne (Std.not_lt.mp hnot) hne.symm⟩

theorem countP_not_gt (h : p ∉ M) : (M.countP fun a => !decide (p < a)) = below p M := by
  have hgt := countP_gt h
  have h1 := M.length_eq_countP_add_countP fun a => decide (p < a)
  have h2 := M.length_eq_countP_add_countP fun a => decide (a < p)
  simp only [decide_eq_true_eq, decide_not] at h1 h2
  have hbelow : below p M = M.countP fun a => decide (a < p) := rfl
  omega

/-- As many elements have to leave the one side as the other. -/
theorem length_filter_left {T U : List α} (hT : p ∉ T) (h : below p (T ++ U) = T.length) :
    (T.filter (p < ·)).length = below p U := by
  have hgt := countP_gt hT
  have hlen := T.length_eq_countP_add_countP fun a => decide (a < p)
  simp only [decide_eq_true_eq, decide_not] at hlen
  have hbelow : below p T = T.countP fun a => decide (a < p) := rfl
  rw [← List.countP_eq_length_filter]
  rw [below_append] at h
  omega

theorem filter_gt_of_forall_lt (hA : ∀ a ∈ A, a < p) : (A.filter (p < ·)) = [] :=
  List.filter_eq_nil_iff.mpr fun a ha h =>
    Std.lt_irrefl (Std.lt_trans (hA a ha) (of_decide_eq_true h))

theorem filter_lt_of_forall_gt (hD : ∀ d ∈ D, p < d) : (D.filter (· < p)) = [] :=
  List.filter_eq_nil_iff.mpr fun d hd h =>
    Std.lt_irrefl (Std.lt_trans (hD d hd) (of_decide_eq_true h))

omit [LE α] [Std.IsLinearOrder α] [Std.LawfulOrderLT α] in
/-- Where the smaller elements are to end. -/
theorem exists_cut (p : α) (E : List α) : ∃ T U, E = T ++ U ∧ below p E = T.length :=
  ⟨E.take (below p E), E.drop (below p E), (List.take_append_drop _ _).symm,
    (List.length_take_of_le (below_le_length p E)).symm⟩

/-- An exchange, in the closed form. -/
theorem sides_swap (hA : ∀ a ∈ A, a < p) (hD : ∀ d ∈ D, p < d) (hx : p < x) (hy : y < p)
    (hE : p ∉ E) :
    lower p (A ++ x :: (E ++ [y]) ++ D) = A ++ lower p (y :: (E ++ [x])) ∧
      upper p (A ++ x :: (E ++ [y]) ++ D) = upper p (y :: (E ++ [x])) ++ D := by
  obtain ⟨T, U, rfl, hTU⟩ := exists_cut p E
  have hT : p ∉ T := fun h => hE (List.mem_append_left U h)
  have hU : p ∉ U := fun h => hE (List.mem_append_right T h)
  have hxp : ¬ x < p := fun h => Std.lt_irrefl (Std.lt_trans hx h)
  have hyp : ¬ p < y := fun h => Std.lt_irrefl (Std.lt_trans hy h)
  have hbx : below p [x] = 0 := below_of_forall_gt (by simpa using hx)
  have hby : below p [y] = 1 := below_of_forall_lt (by simpa using hy)
  have hfA := filter_gt_of_forall_lt hA
  have hfD := filter_lt_of_forall_gt hD
  -- both lists, cut where the smaller elements are to end
  have hM : A ++ x :: (T ++ U ++ [y]) ++ D = (A ++ [x] ++ T) ++ (U ++ ([y] ++ D)) := by simp
  have hM' : y :: (T ++ U ++ [x]) = ([y] ++ T) ++ (U ++ [x]) := by simp
  have hcut := sides_append (p := p) (L := A ++ [x] ++ T) (R := U ++ ([y] ++ D)) (by
    simp only [below_append, List.length_append, List.length_singleton] at hTU ⊢
    rw [below_of_forall_lt hA, below_of_forall_gt hD, hbx, hby]
    omega)
  have hcut' := sides_append (p := p) (L := [y] ++ T) (R := U ++ [x]) (by
    simp only [below_append, List.length_append, List.length_singleton] at hTU ⊢
    rw [hbx, hby]
    omega)
  have hqueue := length_filter_left hT hTU
  rw [hM, hM', hcut.1, hcut.2, hcut'.1, hcut'.2]
  simp only [List.filter_append, List.filter_cons, List.filter_nil, hfA, hfD, hx, hy, hxp, hyp,
    decide_true, decide_false, if_true, Bool.false_eq_true, if_false, List.reverse_append,
    List.nil_append, List.append_nil, List.reverse_cons, List.reverse_nil]
  constructor
  · rw [List.append_assoc, fill_append_of_forall fun a ha => decide_eq_true (hA a ha),
      List.singleton_append, List.singleton_append, List.singleton_append,
      fill_cons_of_neg (by simpa using hxp),
      fill_cons_of_pos (t := fun a => decide (a < p)) (decide_eq_true hy)]
  · have hlen : ((T.filter fun a => decide (p < a)).reverse).length =
        U.countP fun a => !decide (p < a) := by
      rw [List.length_reverse, hqueue, countP_not_gt hU]
    have hpos := fill_append [x] [] hlen
    rw [List.append_nil] at hpos
    rw [fill_append _ _ hlen, hpos, List.singleton_append,
      fill_cons_of_neg (by simpa using hyp),
      fill_of_forall fun d hd => decide_eq_true (hD d hd),
      fill_cons_of_pos (t := fun a => decide (p < a)) (decide_eq_true hx), fill_nil,
      List.append_assoc, List.singleton_append]

/-- The partition around an element that does not occur. -/
theorem Parted.eq_sides (h : Parted p M lo mid hi) (hp : p ∉ M) :
    mid = [] ∧ lo = lower p M ∧ hi = upper p M := by
  induction h with
  | @done A C D hA hC hD =>
    have hC' : C = [] := by
      refine hC.resolve_right fun hC => hp ?_
      rw [hC]
      simp
    subst hC'
    rw [List.append_nil]
    obtain ⟨hlo, hhi⟩ := sides_append (p := p) (L := A) (R := D) (by
      rw [below_append, below_of_forall_lt hA, below_of_forall_gt hD, Nat.add_zero])
    rw [hlo, hhi, fill_of_forall fun a ha => decide_eq_true (hA a ha),
      fill_of_forall fun d hd => decide_eq_true (hD d hd)]
    exact ⟨rfl, rfl, rfl⟩
  | @swap A D E lo mid hi x y hA hD hx hy next ih =>
    have hxp : x ≠ p := fun heq => hp (by simp [heq])
    have hyp : y ≠ p := fun heq => hp (by simp [heq])
    have hE : p ∉ E := fun h => hp (by simp [h])
    obtain ⟨hmid, hlo, hhi⟩ := ih (by simp [hxp.symm, hyp.symm, hE])
    obtain ⟨hlower, hupper⟩ := sides_swap hA hD (Std.lt_of_le_of_ne hx hxp.symm)
      (Std.lt_of_le_of_ne hy hyp) hE
    rw [hlower, hupper, hlo, hhi]
    exact ⟨hmid, rfl, rfl⟩

end Partition
