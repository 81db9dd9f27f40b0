import Wish.Practice.RBTree.Links

/-!
# `erase_fixup` and `erase`

The invariant of the loop of `erase_fixup`, `EraseInv`: the subtree at `node` is one black
node short of what its context takes (`Lacks`); painting a red root black would mend it.
`eraseMeasure` goes down: a red sibling is rotated away, an inner red nephew becomes an outer
one, an outer one ends the loop, and otherwise the loop goes up.

`returns_eraseNode` says that the three shapes of `erase` take exactly the one node out.
-/

namespace Wish.RBTree

open Prog Heap

variable {T : Type} {s : Mem Ptr (Node T)} {R : Cells T} {K : Ctx T} {L : List (Addr × T)}

/-! ## The loop -/

/-- The tree has the black height `n` once its root, if it is red, is painted black, and is
one short of it otherwise. -/
inductive Lacks : Tree T → Nat → Prop where
  | red {t : Tree T} {n : Nat} (hc : t.color = .Red) (h : Balanced (t.setColor .Black) n) :
      Lacks t n
  | black {t : Tree T} {n : Nat} (hc : t.color = .Black) (h : Balanced t n) : Lacks t (n + 1)

theorem Balanced.lacks {t : Tree T} {n : Nat} (h : Balanced t n) : Lacks t (n + 1) := by
  cases hc : t.color with
  | Red => exact .red hc (h.blacken hc)
  | Black => exact .black hc h

/-- Which case a round with the frame `f` comes to: 3 for a red sibling, 1 for an outer red
nephew. -/
def caseMeasure (f : Frame T) : Nat :=
  if f.sib.color = .Red then 3 else if (f.sib.child f.dir.flip).color = .Red then 1 else 2

def eraseMeasure (t : Tree T) : Ctx T → Nat
  | [] => 0
  | f :: K =>
    if t.color = .Red then 0
    else (if f.color = .Red then 0 else 4 * (K.length + 1)) + caseMeasure f

theorem caseMeasure_le (f : Frame T) : caseMeasure f ≤ 3 := by
  unfold caseMeasure
  split
  · exact le_rfl
  · split <;> omega

theorem eraseMeasure_le (t : Tree T) (K : Ctx T) : eraseMeasure t K ≤ 4 * K.length + 3 := by
  cases K with
  | nil => simp [eraseMeasure]
  | cons f K =>
    have hle := caseMeasure_le f
    simp only [eraseMeasure, List.length_cons]
    split
    · omega
    · split <;> omega

theorem eraseMeasure_red {t : Tree T} (h : t.color = .Red) (K : Ctx T) : eraseMeasure t K = 0 := by
  cases K <;> simp [eraseMeasure, h]

theorem eraseMeasure_cons {t : Tree T} (h : t.color = .Black) (f : Frame T) (K : Ctx T) :
    eraseMeasure t (f :: K) =
      (if f.color = .Red then 0 else 4 * (K.length + 1)) + caseMeasure f := by
  simp [eraseMeasure, h]

/-- The invariant of the loop, for a tree with the nodes `L`. -/
def EraseInv (R : Cells T) (L : List (Addr × T)) (k : Nat) (np : Ptr × Ptr)
    (s : Mem Ptr (Node T)) : Prop :=
  ∃ t K n, Rep s (plug t K) R ∧ np = (t.ptr, up K) ∧ Lacks t n ∧ Accepts K n ∧
    (plug t K).toList = L ∧ eraseMeasure t K = k

/-- With `node` painted black the tree is a red-black tree. -/
def Mended (R : Cells T) (L : List (Addr × T)) (node : Ptr) (s : Mem Ptr (Node T)) : Prop :=
  ∃ t K m, Rep s (plug t K) R ∧ node = t.ptr ∧ Balanced (plug (t.setColor .Black) K) m ∧
    (plug (t.setColor .Black) K).color = .Black ∧ (plug t K).toList = L

/-- What a round of the loop comes to. -/
def EraseRound (R : Cells T) (L : List (Addr × T)) (k : Nat) (r : (Ptr × Ptr) ⊕ Ptr)
    (s : Mem Ptr (Node T)) : Prop :=
  match r with
  | .inl np => ∃ j < k, EraseInv R L j np s
  | .inr node => Mended R L node s

/-- Before a round with work to do. -/
structure Short (t S : Tree T) (d : Dir) (pa : Addr) (pc : ColorType) (pv : T) (K : Ctx T)
    (n : Nat) : Prop where
  black : t.color = .Black
  tree : Balanced t n
  fits : Accepts (⟨d, pa, pc, pv, S⟩ :: K) (n + 1)

section cases

variable {d : Dir} {pa sa : Addr} {pc : ColorType} {pv sv : T} {t N F : Tree T} {n : Nat}

/-- Case 1: the sibling is red. -/
theorem returns_eraseCase1 (h : Rep s (plug (.mk d pa pc pv t (.mk d sa .Red sv N F)) K) R)
    (hs : Short t (.mk d sa .Red sv N F) d pa pc pv K n)
    (hL : (plug (.mk d pa pc pv t (.mk d sa .Red sv N F)) K).toList = L) :
    Returns (do
      setBlack (some sa)
      setRed (some pa)
      revolve d (some pa)
      pure (.inl (t.ptr, some pa))) s
      (EraseRound R L (eraseMeasure t (⟨d, pa, pc, pv, .mk d sa .Red sv N F⟩ :: K))) := by
  cases hs.fits with
  | red _ cs _ _ => cases (Tree.color_mk ..).symm.trans cs
  | black hsib hK =>
    obtain ⟨hN, hF, cN, cF⟩ := balanced_mk_red.mp hsib
    simp only [returns_bind, returns_pure]
    rw [plug_far] at h
    refine returns_setColor h fun s₁ h₁ => ?_
    rw [← plug_far] at h₁
    refine returns_setColor (K := K) h₁ fun s₂ h₂ => ?_
    refine returns_revolve h₂ fun s₃ h₃ => ?_
    refine ⟨eraseMeasure t (⟨d, pa, .Red, pv, N⟩ :: ⟨d, sa, .Black, sv, F⟩ :: K), ?_, t,
      ⟨d, pa, .Red, pv, N⟩ :: ⟨d, sa, .Black, sv, F⟩ :: K, n + 1, h₃, rfl,
      .black hs.black hs.tree, .red hN cN rfl (.black hF hK), ?_, rfl⟩
    · rw [eraseMeasure_cons hs.black, eraseMeasure_cons hs.black]
      have hle := caseMeasure_le (⟨d, pa, .Red, pv, N⟩ : Frame T)
      simp only [if_true, reduceCtorEq, if_false]
      omega
    · rw [← hL]
      exact toList_plug_congr (toList_rotate d pa sa _ _ _ _ pv sv t N F) K

/-- Case 2: the sibling and its children are black. -/
theorem returns_eraseCase2 (h : Rep s (plug (.mk d pa pc pv t (.mk d sa .Black sv N F)) K) R)
    (hs : Short t (.mk d sa .Black sv N F) d pa pc pv K n) (cN : N.color = .Black)
    (cF : F.color = .Black)
    (hL : (plug (.mk d pa pc pv t (.mk d sa .Black sv N F)) K).toList = L) :
    Returns (do
      setRed (some sa)
      let par ← parent (some pa)
      pure (.inl (some pa, par))) s
      (EraseRound R L (eraseMeasure t (⟨d, pa, pc, pv, .mk d sa .Black sv N F⟩ :: K))) := by
  obtain ⟨k, hk, hN, hF⟩ := balanced_mk_black.mp hs.fits.sib
  obtain rfl : n = k := by omega
  have hsib : Balanced (.mk d sa .Red sv N F) n := balanced_mk_red.mpr ⟨hN, hF, cN, cF⟩
  simp only [returns_bind, returns_pure]
  rw [plug_far] at h
  refine returns_setColor h fun s₁ h₁ => ?_
  rw [← plug_far] at h₁
  simp only [returns_parent h₁.cell, mkNode_parent]
  have hL₁ : (plug (.mk d pa pc pv t (.mk d sa .Red sv N F)) K).toList = L := by
    rw [← hL]
    exact toList_plug_congr (toList_mk_congr rfl (toList_mk_congr rfl rfl)) K
  have hcase : caseMeasure (⟨d, pa, pc, pv, .mk d sa .Black sv N F⟩ : Frame T) = 2 := by
    simp [caseMeasure, cF]
  refine ⟨eraseMeasure (.mk d pa pc pv t (.mk d sa .Red sv N F)) K, ?_,
    .mk d pa pc pv t (.mk d sa .Red sv N F), K, ?_⟩
  · rw [eraseMeasure_cons hs.black, hcase]
    cases pc with
    | Red =>
      rw [eraseMeasure_red (Tree.color_mk ..)]
      omega
    | Black =>
      have hle := eraseMeasure_le (.mk d pa .Black pv t (.mk d sa .Red sv N F)) K
      simp only [reduceCtorEq, if_false]
      omega
  · cases hs.fits with
    | red _ _ _ hK =>
      refine ⟨n + 1, h₁, by simp, .red (Tree.color_mk ..) ?_, hK, hL₁, rfl⟩
      rw [Tree.setColor_mk]
      exact balanced_mk_black.mpr ⟨n, rfl, hs.tree, hsib⟩
    | black _ hK =>
      exact ⟨n + 2, h₁, by simp, .black (Tree.color_mk ..)
        (balanced_mk_black.mpr ⟨n, rfl, hs.tree, hsib⟩), hK, hL₁, rfl⟩

/-- Case 3: the inner nephew is red. -/
theorem returns_eraseCase3 {na : Addr} {nv : T} {B C : Tree T}
    (h : Rep s (plug (.mk d pa pc pv t (.mk d sa .Black sv (.mk d.flip na .Red nv B C) F)) K) R)
    (hs : Short t (.mk d sa .Black sv (.mk d.flip na .Red nv B C) F) d pa pc pv K n)
    (cF : F.color = .Black)
    (hL : (plug (.mk d pa pc pv t (.mk d sa .Black sv (.mk d.flip na .Red nv B C) F))
      K).toList = L) :
    Returns (do
      setBlack (some na)
      setRed (some sa)
      revolve d.flip (some sa)
      pure (.inl (t.ptr, some pa))) s
      (EraseRound R L (eraseMeasure t
        (⟨d, pa, pc, pv, .mk d sa .Black sv (.mk d.flip na .Red nv B C) F⟩ :: K))) := by
  obtain ⟨k, hk, hN, hF⟩ := balanced_mk_black.mp hs.fits.sib
  obtain rfl : n = k := by omega
  obtain ⟨hB, hC, cB, cC⟩ := balanced_mk_red.mp hN
  simp only [returns_bind, returns_pure]
  rw [plug_far] at h
  refine returns_setColor (K := ⟨d, sa, .Black, sv, F⟩ :: ⟨d.flip, pa, pc, pv, t⟩ :: K) h
    fun s₁ h₁ => ?_
  have h₁' : Rep s₁ (plug (.mk d sa .Black sv (.mk d.flip na .Black nv B C) F)
    (⟨d.flip, pa, pc, pv, t⟩ :: K)) R := h₁
  refine returns_setColor h₁' fun s₂ h₂ => ?_
  rw [← Tree.mk_flip] at h₂
  refine returns_revolve h₂ fun s₃ h₃ => ?_
  rw [Tree.mk_flip, Tree.mk_flip, ← plug_far] at h₃
  have hsib : Balanced (.mk d na .Black nv C (.mk d sa .Red sv B F)) (n + 1) :=
    balanced_mk_black.mpr ⟨n, rfl, hC, balanced_mk_red.mpr ⟨hB, hF, cB, cF⟩⟩
  refine ⟨eraseMeasure t (⟨d, pa, pc, pv, .mk d na .Black nv C (.mk d sa .Red sv B F)⟩ :: K), ?_,
    t, ⟨d, pa, pc, pv, .mk d na .Black nv C (.mk d sa .Red sv B F)⟩ :: K, n + 1, h₃, rfl,
    .black hs.black hs.tree, hs.fits.setSib hsib (Tree.color_mk ..), ?_, rfl⟩
  · rw [eraseMeasure_cons hs.black, eraseMeasure_cons hs.black]
    simp [caseMeasure, cF]
  · rw [← hL]
    refine toList_plug_congr (toList_mk_congr rfl ?_) K
    cases d <;> simp [Tree.mk, Tree.toList]

/-- Case 4: the outer nephew is red. -/
theorem returns_eraseCase4 {fa : Addr} {fv : T} {B C : Tree T}
    (h : Rep s (plug (.mk d pa pc pv t (.mk d sa .Black sv N (.mk d fa .Red fv B C))) K) R)
    (hs : Short t (.mk d sa .Black sv N (.mk d fa .Red fv B C)) d pa pc pv K n)
    (hL : (plug (.mk d pa pc pv t (.mk d sa .Black sv N (.mk d fa .Red fv B C))) K).toList = L) :
    Returns (do
      let c ← color (some pa)
      setColor (some sa) c
      setBlack (some pa)
      let far ← child d.flip (some sa)
      setBlack far
      revolve d (some pa)
      pure (.inr t.ptr)) s
      (EraseRound R L (eraseMeasure t
        (⟨d, pa, pc, pv, .mk d sa .Black sv N (.mk d fa .Red fv B C)⟩ :: K))) := by
  obtain ⟨k, hk, hN, hF⟩ := balanced_mk_black.mp hs.fits.sib
  obtain rfl : n = k := by omega
  obtain ⟨hB, hC, cB, cC⟩ := balanced_mk_red.mp hF
  simp only [returns_bind, returns_color h.cell, mkNode_color]
  rw [plug_far] at h
  refine returns_setColor h fun s₁ h₁ => ?_
  rw [← plug_far] at h₁
  refine returns_setColor (K := K) h₁ fun s₂ h₂ => ?_
  have hs₂ : s₂.heap sa = some (mkNode d (some pa) N.ptr (some fa) pc sv) := by
    rw [plug_far] at h₂
    have hcell := h₂.cell
    rwa [Tree.ptr_mk] at hcell
  simp only [returns_child hs₂, mkNode_child_flip, returns_pure]
  rw [plug_far] at h₂
  have h₂' : Rep s₂ (plug (.mk d sa pc sv N (.mk d fa .Red fv B C))
    (⟨d.flip, pa, .Black, pv, t⟩ :: K)) R := h₂
  rw [plug_far] at h₂'
  refine returns_setColor h₂' fun s₃ h₃ => ?_
  rw [← plug_far, ← plug_far] at h₃
  refine returns_revolve h₃ fun s₄ h₄ => ?_
  have hlow : Balanced (.mk d pa .Black pv t N) (n + 1) :=
    balanced_mk_black.mpr ⟨n, rfl, hs.tree, hN⟩
  have hfar : Balanced (.mk d fa .Black fv B C) (n + 1) :=
    balanced_mk_black.mpr ⟨n, rfl, hB, hC⟩
  have hwhole : (∃ m, Balanced (plug (.mk d sa pc sv (.mk d pa .Black pv t N)
      (.mk d fa .Black fv B C)) K) m) ∧
      (plug (.mk d sa pc sv (.mk d pa .Black pv t N) (.mk d fa .Black fv B C)) K).color =
        .Black := by
    cases hs.fits with
    | red _ _ hf hK =>
      refine ⟨balanced_plug (balanced_mk_red.mpr ⟨hlow, hfar, Tree.color_mk .., Tree.color_mk ..⟩)
        hK (Or.inr hf), color_plug hK (List.cons_ne_nil _ _)⟩
    | black _ hK =>
      refine ⟨balanced_plug (balanced_mk_black.mpr ⟨n + 1, rfl, hlow, hfar⟩) hK
        (Or.inl (Tree.color_mk ..)), ?_⟩
      cases K with
      | nil => exact Tree.color_mk ..
      | cons g K => exact color_plug hK (List.cons_ne_nil _ _)
  obtain ⟨⟨m, hm⟩, hcolor⟩ := hwhole
  refine ⟨t, ⟨d, pa, .Black, pv, N⟩ :: ⟨d, sa, pc, sv, .mk d fa .Black fv B C⟩ :: K, m, h₄, rfl,
    ?_, ?_, ?_⟩
  · rw [Tree.setColor_color hs.black]
    exact hm
  · rw [Tree.setColor_color hs.black]
    exact hcolor
  · rw [← hL]
    have hrot := toList_rotate d pa sa pc .Black .Black pc pv sv t N (.mk d fa .Black fv B C)
    refine (toList_plug_congr hrot K).trans (toList_plug_congr (toList_mk_congr rfl ?_) K)
    exact toList_mk_congr rfl (toList_mk_congr rfl rfl)

end cases

/-- Cases 3 and 4. -/
theorem returns_eraseFixupNephew {d : Dir} {pa sa : Addr} {pc : ColorType} {pv sv : T}
    {t N F : Tree T} {n : Nat}
    (h : Rep s (plug (.mk d pa pc pv t (.mk d sa .Black sv N F)) K) R)
    (hs : Short t (.mk d sa .Black sv N F) d pa pc pv K n)
    (hred : ¬ (N.color ≠ .Red ∧ F.color ≠ .Red))
    (hL : (plug (.mk d pa pc pv t (.mk d sa .Black sv N F)) K).toList = L) :
    Returns (eraseFixupNephew d t.ptr (some pa) (some sa)) s
      (EraseRound R L (eraseMeasure t (⟨d, pa, pc, pv, .mk d sa .Black sv N F⟩ :: K))) := by
  have hfar := h
  rw [plug_far] at hfar
  have hsib := hfar.cell
  have hnear : Rep s (plug N (⟨d, sa, .Black, sv, F⟩ :: ⟨d.flip, pa, pc, pv, t⟩ :: K)) R := hfar
  have houter := hfar
  rw [plug_far] at houter
  simp only [eraseFixupNephew, returns_bind, returns_child hsib, mkNode_child, mkNode_child_flip,
    hnear.redNode, houter.redNode]
  by_cases hF : F.color = .Red
  · obtain ⟨fa, c, fv, B, C, rfl⟩ := Tree.exists_mk (Tree.ne_nil_of_red hF) d
    obtain rfl : c = .Red := (Tree.color_mk ..).symm.trans hF
    have hcase := returns_eraseCase4 h hs hL
    simp only [returns_bind] at hcase
    simp only [Tree.color_mk, decide_true, Bool.not_true, Bool.and_false, Bool.false_eq_true,
      if_false, returns_bind, returns_child hsib, mkNode_child_flip, houter.redNode, if_true]
    exact hcase
  · have hN : N.color = .Red := by
      by_contra hN
      exact hred ⟨hN, hF⟩
    obtain ⟨na, c, nv, B, C, rfl⟩ := Tree.exists_mk (Tree.ne_nil_of_red hN) d.flip
    obtain rfl : c = .Red := (Tree.color_mk ..).symm.trans hN
    have hcase := returns_eraseCase3 h hs (not_red_iff.mp hF) hL
    simp only [returns_bind] at hcase
    simp only [Tree.color_mk, hF, decide_true, decide_false, Bool.not_false, Bool.and_true,
      if_true, returns_bind, returns_child hsib, mkNode_child, Tree.ptr_mk]
    exact hcase

/-- One round with the subtree as the `d` child. -/
theorem returns_eraseFixupSide {d : Dir} {t S : Tree T} {pa : Addr} {pc : ColorType} {pv : T}
    {n : Nat} (h : Rep s (plug t (⟨d, pa, pc, pv, S⟩ :: K)) R) (hs : Short t S d pa pc pv K n)
    (hL : (plug t (⟨d, pa, pc, pv, S⟩ :: K)).toList = L) :
    Returns (eraseFixupSide d t.ptr (some pa)) s
      (EraseRound R L (eraseMeasure t (⟨d, pa, pc, pv, S⟩ :: K))) := by
  obtain ⟨sa, sc, sv, N, F, rfl⟩ := Tree.exists_mk hs.fits.sib.ne_nil d
  have h' : Rep s (plug (.mk d pa pc pv t (.mk d sa sc sv N F)) K) R := h
  have hfar := h'
  rw [plug_far] at hfar
  have hsib := hfar.cell
  have hnear : Rep s (plug N (⟨d, sa, sc, sv, F⟩ :: ⟨d.flip, pa, pc, pv, t⟩ :: K)) R := hfar
  have houter := hfar
  rw [plug_far] at houter
  simp only [eraseFixupSide, returns_bind, returns_child h'.cell, mkNode_child_flip, Tree.ptr_mk,
    returns_isRed hsib, mkNode_color]
  cases sc with
  | Red => exact returns_eraseCase1 h' hs hL
  | Black =>
    have hcase2 : N.color ≠ .Red ∧ F.color ≠ .Red → Returns (do
        setRed (some sa)
        let par ← parent (some pa)
        pure (.inl (some pa, par))) s
        (EraseRound R L (eraseMeasure t (⟨d, pa, pc, pv, .mk d sa .Black sv N F⟩ :: K))) :=
      fun hb => returns_eraseCase2 h' hs (not_red_iff.mp hb.1) (not_red_iff.mp hb.2) hL
    have hnephew := fun hr => returns_eraseFixupNephew h' hs hr hL
    -- the source looks at the left child first, on both sides
    cases d with
    | left =>
      simp only [reduceCtorEq, decide_false, Bool.false_eq_true, if_false, returns_bind,
        returns_left hsib, returns_right hsib, mkNode, hnear.redNode, houter.redNode]
      refine Returns.ite (fun hb => ?_) fun hb => ?_
      · exact hcase2 (by simpa using hb)
      · exact hnephew (by simpa using hb)
    | right =>
      simp only [reduceCtorEq, decide_false, Bool.false_eq_true, if_false, returns_bind,
        returns_left hsib, returns_right hsib, mkNode, hnear.redNode, houter.redNode]
      refine Returns.ite (fun hb => ?_) fun hb => ?_
      · exact hcase2 (by simpa [and_comm] using hb)
      · exact hnephew (by simpa [and_comm, imp_not_comm] using hb)

/-- The loop ends at the root. -/
theorem mended_root {t : Tree T} {n : Nat} (h : Rep s t R) (ht : Lacks t n) :
    Mended R t.toList t.ptr s := by
  have hm : ∃ m, Balanced (t.setColor .Black) m := by
    cases ht with
    | red _ hb => exact ⟨n, hb⟩
    | black _ hb => exact hb.setBlack
  obtain ⟨m, hm⟩ := hm
  exact ⟨t, [], m, h, rfl, hm, color_setBlack t, rfl⟩

/-- The loop ends at a red node. -/
theorem mended_red {t : Tree T} {n : Nat} {f : Frame T} (h : Rep s (plug t (f :: K)) R)
    (hc : t.color = .Red) (ht : Lacks t n) (hK : Accepts (f :: K) n) :
    Mended R (plug t (f :: K)).toList t.ptr s := by
  cases ht with
  | black hb _ => cases hb.symm.trans hc
  | red _ hb =>
    obtain ⟨m, hm⟩ := balanced_plug hb hK (Or.inl (color_setBlack t))
    exact ⟨t, f :: K, m, h, rfl, hm, color_plug hK (List.cons_ne_nil _ _), rfl⟩

theorem returns_eraseFixupBody {k : Nat} {np : Ptr × Ptr} (h : EraseInv R L k np s) :
    Returns (eraseFixupBody np) s (EraseRound R L k) := by
  obtain ⟨t, K, n, h, rfl, ht, hK, rfl, rfl⟩ := h
  cases K with
  | nil =>
    simp only [eraseFixupBody, returns_bind, returns_getRoot, h.redNode, h.root, plug, ne_eq,
      not_true_eq_false, decide_false, Bool.false_and, Bool.false_eq_true, if_false, returns_pure]
    exact mended_root h ht
  | cons f K =>
    have hne : t.ptr ≠ s.globals := h.ne_root
    simp only [eraseFixupBody, returns_bind, returns_getRoot, h.redNode, ne_eq, hne, not_false_eq_true,
      decide_true, Bool.true_and]
    cases ht with
    | red hc hb =>
      simp only [hc, decide_true, Bool.not_true, Bool.false_eq_true, if_false, returns_pure]
      exact mended_red h hc (.red hc hb) hK
    | @black n hc hb =>
      have hnr : t.color ≠ .Red := not_red_iff.mpr hc
      have hf := h.frame
      simp only [hnr, decide_false, Bool.not_false, if_true, returns_bind, up, returns_left hf]
      obtain ⟨d, pa, pc, pv, S⟩ := f
      have hs : Short t S d pa pc pv K n := ⟨hc, hb, hK⟩
      cases d with
      | left =>
        simp only [mkNode, if_true]
        exact returns_eraseFixupSide h hs rfl
      | right =>
        have hsib : t.ptr ≠ S.ptr := by
          intro he
          have hS : S.ptr ≠ none := fun hn => hK.sib.ne_nil (Tree.ptr_eq_none.mp hn)
          have htn : t ≠ .nil := fun hn => hS (by rw [← he, hn]; rfl)
          exact h.sib_ne htn he.symm
        simp only [mkNode, hsib, if_false]
        exact returns_eraseFixupSide h hs rfl

/-- `erase_fixup` makes a red-black tree of it. -/
theorem returns_eraseFixup {t : Tree T} {n fuel : Nat} (h : Rep s (plug t K) R) (ht : Lacks t n)
    (hK : Accepts K n) (hfuel : 4 * K.length + 3 < fuel) :
    Returns (eraseFixup fuel t.ptr (up K)) s fun _ s' => ∃ t' m, Rep s' t' R ∧ Balanced t' m ∧
      t'.color = .Black ∧ t'.toList = (plug t K).toList := by
  have hle := eraseMeasure_le t K
  have hloop : Returns (loop .stuck eraseFixupBody fuel (t.ptr, up K)) s
      (Mended R (plug t K).toList) :=
    Returns.loop (I := EraseInv R (plug t K).toList)
      (fun k np s hi => (returns_eraseFixupBody hi).mono fun r s' hr => by
        cases r <;> exact hr) (show eraseMeasure t K < fuel by omega)
      ⟨t, K, n, h, rfl, ht, hK, rfl, rfl⟩
  simp only [eraseFixup, returns_bind]
  refine hloop.mono fun node s₁ hres => ?_
  obtain ⟨t₁, K₁, m, h₁, hnode, hm, hc, hL⟩ := hres
  subst hnode
  cases t₁ with
  | nil => exact returns_pure.mpr ⟨_, m, h₁, hm, hc, hL⟩
  | node a c v l r =>
    rw [if_pos (by simp [Tree.ptr])]
    refine returns_setColor (show Rep s₁ (plug (.mk .left a c v l r) K₁) R from h₁) fun s₂ h₂ => ?_
    refine ⟨_, m, h₂, hm, hc, ?_⟩
    have hnode : (Tree.mk .left a .Black v l r).toList = (Tree.node a c v l r).toList := rfl
    rw [← hL]
    exact toList_plug_congr hnode K₁

/-! ## Taking a node out -/

/-- A subtree `t` stands where a node of the colour `c` has been taken out. -/
def Removed (c : ColorType) (t : Tree T) (K : Ctx T) : Prop :=
  ∃ n, Balanced t n ∧ match c with
    | .Black => Accepts K (n + 1)
    | .Red => Accepts K n ∧ K ≠ [] ∧ (t.color = .Black ∨ upColor K = .Black)

/-- What `erase` has done in the end, for a tree with the nodes `L`. -/
def Erased (R : Cells T) (L : List (Addr × T)) (s : Mem Ptr (Node T)) : Prop :=
  ∃ t m, Rep s t R ∧ Balanced t m ∧ t.color = .Black ∧ t.toList = L

/-- The end of all three shapes: repair the tree, delete the node. -/
theorem returns_finish {c : ColorType} {t : Tree T} {a : Addr} {n : Node T} {fuel : Nat}
    (h : Rep s (plug t K) ({(a, n)} + R)) (hc : Removed c t K)
    (hfuel : 4 * K.length + 3 < fuel) :
    Returns (do
      (if c = .Black then eraseFixup fuel t.ptr (up K) else pure ⟨⟩)
      delete (some a)) s fun _ s' => Erased R (plug t K).toList s' := by
  have hrepaired : Returns (if c = .Black then eraseFixup fuel t.ptr (up K) else pure ⟨⟩) s
      fun _ s' => Erased ({(a, n)} + R) (plug t K).toList s' := by
    obtain ⟨k, ht, hK⟩ := hc
    cases c with
    | Black => exact returns_eraseFixup h ht.lacks hK hfuel
    | Red =>
      obtain ⟨hK, hne, hcolor⟩ := hK
      obtain ⟨m, hm⟩ := balanced_plug ht hK hcolor
      exact returns_pure.mpr ⟨_, m, h, hm, color_plug hK hne, rfl⟩
  rw [returns_bind]
  refine hrepaired.mono fun _ s₁ ⟨t₁, m, h₁, hm, hc₁, hL⟩ => ?_
  refine returns_delete (n := n) (R := cells none t₁ + R) h₁.holds (by abel) fun h₂ hh₂ => ?_
  exact ⟨t₁, m, ⟨h₁.root, hh₂⟩, hm, hc₁, hL⟩

/-- The child of a node that has one only takes its place. -/
theorem removed_of_child {d : Dir} {a : Addr} {c : ColorType} {v : T} {t u : Tree T} {m : Nat}
    (h : Balanced (plug (.mk d a c v t u) K) m)
    (hc : (plug (.mk d a c v t u) K).color = .Black) : Removed c t K := by
  obtain ⟨n, ht, hK, hred⟩ := accepts_of_plug h hc
  cases c with
  | Red =>
    obtain ⟨ht, -, hct, -⟩ := balanced_mk_red.mp ht
    exact ⟨n, ht, hK, (hred (Tree.color_mk ..)).1, Or.inl hct⟩
  | Black =>
    obtain ⟨k, rfl, ht, -⟩ := balanced_mk_black.mp ht
    exact ⟨k, ht, hK⟩

theorem Removed.rename {d : Dir} {a b : Addr} {c x : ColorType} {v w : T} {t S : Tree T}
    {K K' : Ctx T} (h : Removed c t (K ++ ⟨d, a, x, v, S⟩ :: K')) :
    Removed c t (K ++ ⟨d, b, x, w, S⟩ :: K') := by
  obtain ⟨n, ht, hK⟩ := h
  refine ⟨n, ht, ?_⟩
  cases c with
  | Black => exact Accepts.rename hK
  | Red =>
    obtain ⟨hK, -, hup⟩ := hK
    refine ⟨Accepts.rename hK, by simp, ?_⟩
    cases K <;> exact hup

/-- Without children. -/
theorem returns_eraseLeaf {a : Addr} {c : ColorType} {v : T} {m fuel : Nat}
    (h : Rep s (plug (.node a c v .nil .nil) K) R)
    (hm : Balanced (plug (.node a c v .nil .nil) K) m)
    (hc : (plug (.node a c v .nil .nil) K).color = .Black) (hfuel : 4 * K.length + 3 < fuel) :
    Returns (eraseLeaf fuel (some a)) s fun _ s' => Erased R (before K ++ after K) s' := by
  obtain ⟨hroot, hh⟩ := rep_plug.mp h
  simp only [cells, Tree.ptr_nil, Tree.ptr_node, add_zero] at hroot hh
  have ha := h.node
  cases K with
  | nil =>
    simp only [eraseLeaf, returns_bind, returns_parent ha, up, if_true,
      returns_getRoot, hroot, top]
    refine returns_delete (n := ⟨none, none, none, c, v⟩) (R := R) hh
      (by simp only [ctxCells, up]; abel) fun h₁ hh₁ => ?_
    rw [returns_setRoot]
    exact ⟨.nil, 0, ⟨rfl, by simpa [cells] using hh₁⟩, .nil, rfl, rfl⟩
  | cons f K =>
    simp only [eraseLeaf, returns_bind, returns_parent ha, up, reduceCtorEq,
      if_false]
    refine returns_replaceChild (n := ⟨some f.addr, none, none, c, v⟩) (R := R) hroot
      (cast (congrArg _ (by simp only [up]; abel)) hh) rfl fun h₁ hh₁ => ?_
    have ha₁ : h₁ a = some ⟨some f.addr, none, none, c, v⟩ := hh₁.get (by simp)
    have hrep : Rep ⟨top none (f :: K), h₁⟩ (plug .nil (f :: K))
        ({(a, ⟨some f.addr, none, none, c, v⟩)} + R) :=
      rep_plug.mpr ⟨rfl, by simpa [cells, Tree.ptr] using hh₁⟩
    have hfinish := returns_finish hrep (removed_of_child (d := .left) hm hc) hfuel
    rw [toList_plug, Tree.toList, List.append_nil, returns_bind] at hfinish
    simp only [returns_isBlack (s := ⟨_, h₁⟩) ha₁, decide_eq_true_eq]
    refine Returns.ite (fun hb => ?_) fun hb => ?_
    · rw [if_pos hb] at hfinish
      simp only [returns_bind, returns_parent (s := ⟨_, h₁⟩) ha₁]
      exact hfinish
    · rw [if_neg hb] at hfinish
      exact hfinish

/-- With one child, whichever it is. -/
theorem returns_eraseOneChild {d : Dir} {a : Addr} {c : ColorType} {v : T} {t : Tree T}
    {m fuel : Nat} (h : Rep s (plug (.mk d a c v t .nil) K) R) (ht : t ≠ .nil)
    (hm : Balanced (plug (.mk d a c v t .nil) K) m)
    (hc : (plug (.mk d a c v t .nil) K).color = .Black) (hfuel : 4 * K.length + 3 < fuel) :
    Returns (eraseOneChild fuel (some a)) s fun _ s' =>
      Erased R (before K ++ t.toList ++ after K) s' := by
  obtain ⟨hroot, hh⟩ := rep_plug.mp h
  rw [Tree.ptr_mk] at hroot hh
  rw [cells_mk] at hh
  simp only [cells, add_zero, Tree.ptr_nil] at hh
  have ha := h.cell
  have hptr : t.ptr ≠ none := fun hn => ht (Tree.ptr_eq_none.mp hn)
  have hchild : Returns (left (some a)) s fun l s' =>
      Returns (if l ≠ none then left (some a) else right (some a)) s' fun p s' =>
        p = t.ptr ∧ s' = s := by
    cases d with
    | left =>
      simp only [returns_left ha, mkNode, ne_eq, hptr, not_false_eq_true, if_true, and_self]
    | right =>
      simp only [returns_left ha, returns_right ha, mkNode, Tree.ptr_nil, ne_eq, not_true_eq_false,
        if_false, and_self]
  simp only [eraseOneChild, returns_bind]
  refine hchild.mono fun l s₁ hs₁ => hs₁.mono ?_
  rintro p s₂ ⟨rfl, rfl⟩
  refine returns_replaceNode (n := mkNode d (up K) t.ptr none c v) (R := cells (some a) t + R)
    hroot (cast (congrArg _ (by abel)) hh) (mkNode_parent ..) fun h₁ hh₁ => ?_
  have ha₁ : h₁ a = some (mkNode d (up K) t.ptr none c v) := hh₁.get (by simp)
  simp only [returns_parent (s := ⟨_, h₁⟩) ha₁, mkNode_parent]
  refine returns_setParentTree (p := some a)
    (R := ctxCells t.ptr K + {(a, mkNode d (up K) t.ptr none c v)} + R) ht
    (cast (congrArg _ (by abel)) hh₁) fun h₂ hh₂ => ?_
  have ha₂ : h₂ a = some (mkNode d (up K) t.ptr none c v) := hh₂.get (by simp)
  have hrep : Rep ⟨top t.ptr K, h₂⟩ (plug t K) ({(a, mkNode d (up K) t.ptr none c v)} + R) :=
    rep_plug.mpr ⟨rfl, cast (congrArg _ (by abel)) hh₂⟩
  have hfinish := returns_finish hrep (removed_of_child hm hc) hfuel
  rw [toList_plug, returns_bind] at hfinish
  simp only [returns_isBlack (s := ⟨_, h₂⟩) ha₂, mkNode_color, decide_eq_true_eq]
  refine Returns.ite (fun hb => ?_) fun hb => ?_
  · rw [if_pos hb] at hfinish
    simp only [returns_bind, returns_parent (s := ⟨_, h₂⟩) ha₂, mkNode_parent]
    exact hfinish
  · rw [if_neg hb] at hfinish
    exact hfinish

/-! ## Two children -/

/-- The search for the smallest node on the right ends at a node without a left child. -/
theorem returns_leftmost {t : Tree T} {K : Ctx T} {fuel : Nat} (h : Rep s (plug t K) R)
    (ht : t ≠ .nil) (hfuel : t.height < fuel) :
    Returns (loop .stuck leftmost fuel t.ptr) s fun p s' => s' = s ∧ ∃ b c v r K',
      p = some b ∧ t = plug (.node b c v .nil r) K' ∧ ∀ f ∈ K', f.dir = .left := by
  refine Returns.loop (I := fun k p s' => s' = s ∧ ∃ u K', p = u.ptr ∧ u ≠ .nil ∧ t = plug u K' ∧
    (∀ f ∈ K', f.dir = .left) ∧ u.height = k) (fun k p s' hi => ?_) hfuel
    ⟨rfl, t, [], rfl, ht, rfl, fun f hf => (List.not_mem_nil hf).elim, rfl⟩
  obtain ⟨rfl, u, K', rfl, hu, rfl, hleft, rfl⟩ := hi
  cases u with
  | nil => exact absurd rfl hu
  | node b c v l r =>
    rw [← plug_append] at h
    have hb := h.node
    simp only [leftmost, Tree.ptr_node, returns_bind, returns_left hb]
    refine Returns.ite (fun hl => ?_) fun hl => ?_
    · refine returns_pure.mpr ⟨l.height, by simp only [Tree.height]; omega, rfl, l,
        ⟨.left, b, c, v, r⟩ :: K', rfl, fun hn => hl (by rw [hn]; rfl), rfl, ?_, rfl⟩
      intro f hf
      rcases List.mem_cons.mp hf with rfl | hf
      · rfl
      · exact hleft f hf
    · obtain rfl : l = .nil := Tree.ptr_eq_none.mp (not_not.mp hl)
      exact returns_pure.mpr ⟨rfl, b, c, v, r, K', rfl, rfl, hleft⟩

/-- `replace` takes the place of `node`, once its right subtree is the one it is to have. -/
theorem returns_putIn {a b : Addr} {na nb : Node T} {l r : Tree T}
    {Q : PUnit → Mem Ptr (Node T) → Prop} (hl : l ≠ .nil) (hroot : s.globals = top (some a) K)
    (hh : Holds s.heap (ctxCells (some a) K + ({(a, na)} + ({(b, nb)} + (cells (some a) l +
      (cells (some b) r + R)))))) (hleft : na.left = l.ptr) (hparent : na.parent = up K)
    (hright : nb.right = r.ptr)
    (hQ : ∀ s', Rep s' (plug (.node b na.color nb.value l r) K) ({(a, na)} + R) → Q ⟨⟩ s') :
    Returns (putIn (some a) (some b)) s Q := by
  have ha : s.heap a = some na := hh.get (by simp)
  simp only [putIn, returns_bind, returns_left ha, hleft]
  -- `replace->left = node->left`
  refine returns_setChild (n := nb) (R := ctxCells (some a) K + {(a, na)} + cells (some a) l +
    cells (some b) r + R) hh (by abel) fun h₁ hh₁ => ?_
  have ha₁ : h₁ a = some na := hh₁.get (by simp)
  simp only [returns_left (s := ⟨_, h₁⟩) ha₁, hleft]
  -- `node->left->parent = replace`
  refine returns_setParentTree (p := some a) (R := {(b, nb.setChild .left l.ptr)} +
    ctxCells (some a) K + {(a, na)} + cells (some b) r + R) hl
    (cast (congrArg _ (by abel)) hh₁) fun h₂ hh₂ => ?_
  -- the link from above
  refine returns_replaceNode (n := na) (R := {(b, nb.setChild .left l.ptr)} + cells (some b) l +
    cells (some b) r + R) hroot (cast (congrArg _ (by abel)) hh₂) hparent fun h₃ hh₃ => ?_
  have ha₃ : h₃ a = some na := hh₃.get (by simp)
  simp only [returns_parent (s := ⟨_, h₃⟩) ha₃, hparent]
  -- `replace->parent = node->parent`
  refine returns_setParent (n := nb.setChild .left l.ptr) (R := ctxCells (some b) K + {(a, na)} +
    cells (some b) l + cells (some b) r + R) hh₃ (by abel) fun h₄ hh₄ => ?_
  have ha₄ : h₄ a = some na := hh₄.get (by simp)
  simp only [returns_color (s := ⟨_, h₄⟩) ha₄]
  -- `replace->color = node->color`
  refine returns_modifyCell (R := ctxCells (some b) K + {(a, na)} + cells (some b) l +
    cells (some b) r + R) hh₄ rfl fun h₅ hh₅ => hQ _ (rep_plug.mpr ⟨rfl, ?_⟩)
  simp only [Node.setChild, hright] at hh₅
  rw [cells, Tree.ptr_node]
  exact cast (congrArg _ (by abel)) hh₅

/-- `replace` leaves its place to its right child and takes over the right child of `node`. -/
theorem returns_takeOut {a b ca : Addr} {c cc cb : ColorType} {v cv vb : T}
    {l rb S : Tree T} {K' : Ctx T} {Q : PUnit → Mem Ptr (Node T) → Prop}
    (h : Rep s (plug (.node b cb vb .nil rb)
      (⟨.left, ca, cc, cv, S⟩ :: K' ++ ⟨.right, a, c, v, l⟩ :: K)) R)
    (hQ : ∀ s', s'.globals = top (some a) K →
      Holds s'.heap (ctxCells (some a) K +
        ({(a, ⟨up K, l.ptr, (plug rb (⟨.left, ca, cc, cv, S⟩ :: K')).ptr, c, v⟩)} +
        ({(b, ⟨some ca, none, (plug rb (⟨.left, ca, cc, cv, S⟩ :: K')).ptr, cb, vb⟩)} +
        (cells (some a) l +
        (cells (some b) (plug rb (⟨.left, ca, cc, cv, S⟩ :: K')) + R))))) → Q ⟨⟩ s') :
    Returns (takeOut (some a) (some b)) s Q := by
  have hb := h.node
  obtain ⟨hroot, hh⟩ := rep_plug.mp h
  simp only [List.cons_append, up, cells, Tree.ptr_node, Tree.ptr_nil, add_zero] at hroot hh hb
  simp only [takeOut, returns_bind, returns_right hb, returns_parent hb]
  -- `replace->right->parent = replace->parent`
  refine returns_reparent (p := some b) (R := ctxCells (some b)
      (⟨.left, ca, cc, cv, S⟩ :: (K' ++ ⟨.right, a, c, v, l⟩ :: K)) +
    {(b, ⟨some ca, none, rb.ptr, cb, vb⟩)} + R) (cast (congrArg _ (by abel)) hh)
    fun h₁ hh₁ => ?_
  have hb₁ : h₁ b = some ⟨some ca, none, rb.ptr, cb, vb⟩ := hh₁.get (by simp)
  simp only [returns_right (s := ⟨_, h₁⟩) hb₁, returns_parent (s := ⟨_, h₁⟩) hb₁]
  -- `replace->parent->left = replace->right`
  refine returns_setLink (f := ⟨.left, ca, cc, cv, S⟩) (x := some b)
    (R := cells (some ca) rb + ({(b, ⟨some ca, none, rb.ptr, cb, vb⟩)} + R)) hroot
    (cast (congrArg _ (by abel)) hh₁) fun h₂ hh₂ => ?_
  have hrep : Rep ⟨top rb.ptr (⟨.left, ca, cc, cv, S⟩ :: (K' ++ ⟨.right, a, c, v, l⟩ :: K)), h₂⟩
      (plug rb ((⟨.left, ca, cc, cv, S⟩ :: K') ++ ⟨.right, a, c, v, l⟩ :: K))
      ({(b, ⟨some ca, none, rb.ptr, cb, vb⟩)} + R) :=
    rep_plug.mpr ⟨rfl, cast (congrArg _ (by rw [List.cons_append, up]; abel)) hh₂⟩
  rw [plug_append] at hrep
  have hr : plug rb (⟨.left, ca, cc, cv, S⟩ :: K') ≠ .nil :=
    plug_ne_nil (t := .mk .left ca cc cv rb S) (by simp [Tree.mk]) K'
  generalize plug rb (⟨.left, ca, cc, cv, S⟩ :: K') = r at hrep hr hQ
  have ha₂ := Rep.frame hrep
  obtain ⟨hroot₂, hh₂'⟩ :=
    rep_plug.mp (show Rep _ (plug (.node a c v l r) K) _ from hrep)
  rw [cells, Tree.ptr_node] at hh₂'
  have hb₂ : h₂ b = some ⟨some ca, none, rb.ptr, cb, vb⟩ := hh₂'.get (by simp)
  simp only [returns_right ha₂, mkNode]
  -- `replace->right = node->right`
  refine returns_setChild (n := ⟨some ca, none, rb.ptr, cb, vb⟩) (R := ctxCells (some a) K +
    {(a, ⟨up K, l.ptr, r.ptr, c, v⟩)} + cells (some a) l + cells (some a) r + R) hh₂' (by abel)
    fun h₃ hh₃ => ?_
  have ha₃ : h₃ a = some ⟨up K, l.ptr, r.ptr, c, v⟩ := hh₃.get (by simp)
  simp only [returns_right (s := ⟨_, h₃⟩) ha₃]
  -- `node->right->parent = replace`
  refine returns_setParentTree (p := some a) (R := {(b, ⟨some ca, none, r.ptr, cb, vb⟩)} +
    ctxCells (some a) K + {(a, ⟨up K, l.ptr, r.ptr, c, v⟩)} + cells (some a) l + R) hr
    (cast (congrArg _ (by simp only [Node.setChild]; abel)) hh₃) fun h₄ hh₄ => ?_
  exact hQ _ hroot₂ (cast (congrArg _ (by abel)) hh₄)

/-- With two children. -/
theorem returns_eraseTwoChildren {a : Addr} {c : ColorType} {v : T} {l r : Tree T}
    {m fuel : Nat} (h : Rep s (plug (.node a c v l r) K) R) (hl : l ≠ .nil) (hr : r ≠ .nil)
    (hm : Balanced (plug (.node a c v l r) K) m)
    (hc : (plug (.node a c v l r) K).color = .Black)
    (hfuel : 4 * (K.length + r.height + 1) + 3 < fuel) :
    Returns (eraseTwoChildren fuel (some a)) s fun _ s' =>
      Erased R (before K ++ (l.toList ++ r.toList) ++ after K) s' := by
  have ha := h.node
  have hright : Rep s (plug r (⟨.right, a, c, v, l⟩ :: K)) R := h
  simp only [eraseTwoChildren, returns_bind, returns_right ha]
  refine (returns_leftmost hright hr (by omega)).mono ?_
  rintro p s₁ ⟨rfl, b, cb, vb, rb, K', rfl, rfl, hleft⟩
  rw [← plug_append] at hright
  have hb := hright.node
  simp only [returns_right hb, returns_parent hb, returns_color hb]
  have hremoved : Removed cb rb (K' ++ ⟨.right, b, c, vb, l⟩ :: K) := by
    have hplug : plug (.node a c v l (plug (.node b cb vb .nil rb) K')) K =
        plug (.mk .right b cb vb rb .nil) (K' ++ ⟨.right, a, c, v, l⟩ :: K) :=
      (plug_append (.node b cb vb .nil rb) K' (⟨.right, a, c, v, l⟩ :: K)).symm
    rw [hplug] at hm hc
    exact (removed_of_child hm hc).rename
  have hfuel' : 4 * (K' ++ (⟨.right, b, c, vb, l⟩ : Frame T) :: K).length + 3 < fuel := by
    have hlen := length_add_height_le (.node b cb vb .nil rb) K'
    rw [List.length_append, List.length_cons]
    omega
  have hL : (plug rb (K' ++ ⟨.right, b, c, vb, l⟩ :: K)).toList =
      before K ++ (l.toList ++ (plug (.node b cb vb .nil rb) K').toList) ++ after K := by
    simp [plug_append, plug, Frame.plug, Tree.mk, toList_plug, Tree.toList, before_of_left hleft]
  have hrest : ∀ s₂ na, Rep s₂ (plug (.node b c vb l (plug rb K')) K) ({(a, na)} + R) →
      Returns (if cb = .Black then eraseFixup fuel rb.ptr
          (up (K' ++ (⟨.right, b, c, vb, l⟩ : Frame T) :: K)) else pure ⟨⟩) s₂ fun _ s' =>
        Returns (delete (some a)) s' fun _ s' => Erased R
          (before K ++ (l.toList ++ (plug (.node b cb vb .nil rb) K').toList) ++ after K) s' := by
    intro s₂ na h₂
    have h₂' : Rep s₂ (plug rb (K' ++ ⟨.right, b, c, vb, l⟩ :: K)) ({(a, na)} + R) := by
      rw [plug_append]
      exact h₂
    have hfinish := returns_finish h₂' hremoved hfuel'
    rwa [returns_bind, hL] at hfinish
  cases K' with
  | nil =>
    simp only [List.nil_append, up, if_true, returns_pure]
    obtain ⟨hroot, hh⟩ := rep_plug.mp h
    simp only [plug, cells, Tree.ptr_node, Tree.ptr_nil, add_zero] at hroot hh
    have hh' : Holds s₁.heap (ctxCells (some a) K + ({(a, ⟨up K, l.ptr, some b, c, v⟩)} +
        ({(b, ⟨some a, none, rb.ptr, cb, vb⟩)} + (cells (some a) l + (cells (some b) rb + R))))) :=
      cast (congrArg _ (by abel)) hh
    exact returns_putIn hl hroot hh' rfl rfl rfl fun s₂ h₂ => hrest s₂ _ h₂
  | cons f K' =>
    have hdir := hleft f List.mem_cons_self
    obtain ⟨d, ca, cc, cv, S⟩ := f
    obtain rfl : d = .left := hdir
    have hne : some ca ≠ some a := by
      intro he
      exact hright.frame_ne (g := ⟨.right, a, c, v, l⟩) (by simp) (Option.some.inj he)
    simp only [List.cons_append, up, hne, if_false, returns_bind, returns_pure]
    refine returns_takeOut hright fun s₂ hroot hh => ?_
    exact returns_putIn (K := K) (R := R) hl hroot hh rfl rfl rfl fun s₃ h₃ => hrest s₃ _ h₃

/-- `erase(root, node)` takes the node out. -/
theorem returns_eraseNode {a : Addr} {c : ColorType} {v : T} {l r : Tree T} {m fuel : Nat}
    (h : Rep s (plug (.node a c v l r) K) R) (hm : Balanced (plug (.node a c v l r) K) m)
    (hc : (plug (.node a c v l r) K).color = .Black)
    (hfuel : 4 * (plug (.node a c v l r) K).height + 3 < fuel) :
    Returns (eraseNode fuel (some a)) s fun _ s' =>
      Erased R (before K ++ (l.toList ++ r.toList) ++ after K) s' := by
  have ha := h.node
  have hheight := length_add_height_le (.node a c v l r) K
  simp only [Tree.height] at hheight
  simp only [eraseNode, returns_bind, returns_left ha, returns_right ha]
  by_cases hl : l = .nil
  · subst hl
    by_cases hr : r = .nil
    · subst hr
      have hleaf := returns_eraseLeaf (m := m) h hm hc (show 4 * K.length + 3 < fuel by omega)
      rwa [← List.append_nil (before K)] at hleaf
    · have hrp : r.ptr ≠ none := fun hn => hr (Tree.ptr_eq_none.mp hn)
      simp only [Tree.ptr_nil, hrp, decide_true, decide_false, Bool.true_and, Bool.true_or,
        Bool.false_eq_true, if_false, if_true, returns_bind, returns_left ha, returns_right ha]
      exact returns_eraseOneChild (d := .right) h hr hm hc (by omega)
  · have hlp : l.ptr ≠ none := fun hn => hl (Tree.ptr_eq_none.mp hn)
    by_cases hr : r = .nil
    · subst hr
      simp only [Tree.ptr_nil, hlp, decide_true, decide_false, Bool.false_and, Bool.or_true,
        Bool.false_eq_true, if_false, if_true, returns_bind, returns_left ha, returns_right ha]
      have hone := returns_eraseOneChild (d := .left) h hl hm hc
        (show 4 * K.length + 3 < fuel by omega)
      rwa [← List.append_nil l.toList] at hone
    · have hrp : r.ptr ≠ none := fun hn => hr (Tree.ptr_eq_none.mp hn)
      simp only [hlp, hrp, decide_false, Bool.and_self, Bool.or_self, Bool.false_eq_true,
        if_false, returns_bind, returns_left ha, returns_right ha]
      exact returns_eraseTwoChildren h hl hr hm hc (by omega)

end Wish.RBTree
