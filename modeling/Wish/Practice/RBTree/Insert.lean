import Wish.Practice.RBTree.Links

/-!
# `insert_fixup` and `insert`

The invariant of the loop of `insert_fixup`, `InsertInv`: `node` is the red root of a balanced
subtree that fits into its context, so that the only thing wrong is that its parent may be
red. `insertMeasure` goes down: a round either goes two steps up, or turns an inner child
into an outer one, or rotates the grandparent away.

`returns_insertFixup` and `returns_insert` say what the functions make of the tree.
-/

namespace Wish.RBTree

open Prog Heap

variable {T : Type} {s : Mem Ptr (Node T)} {R : Cells T} {K : Ctx T}

/-! ## The cases -/

/-- Case 1: the uncle is red. -/
theorem returns_recolor {d e d' : Dir} {ga pa ua : Addr} {gv pv uv : T} {t S ul ur : Tree T}
    {α : Type} {x : RBProg T α} {Q : α → Mem Ptr (Node T) → Prop}
    (h : Rep s (plug (.mk d ga .Black gv (.mk e pa .Red pv t S) (.mk d' ua .Red uv ul ur)) K) R)
    (hQ : ∀ s', Rep s' (plug (.mk d ga .Red gv (.mk e pa .Black pv t S)
      (.mk d' ua .Black uv ul ur)) K) R → Returns x s' Q) :
    Returns (do setBlack (some ua); setBlack (some pa); setRed (some ga); x) s Q := by
  simp only [returns_bind]
  rw [plug_far] at h
  refine returns_setColor h fun s₁ h₁ => ?_
  rw [← plug_far] at h₁
  refine returns_setColor (K := ⟨d, ga, .Black, gv, .mk d' ua .Black uv ul ur⟩ :: K) h₁
    fun s₂ h₂ => ?_
  exact returns_setColor (K := K) h₂ hQ

/-- Case 3: the outer grandchild is red. -/
theorem returns_rotateUp {d : Dir} {ga pa : Addr} {gv pv : T} {t S U : Tree T}
    {Q : PUnit → Mem Ptr (Node T) → Prop}
    (h : Rep s (plug (.mk d ga .Black gv (.mk d pa .Red pv t S) U) K) R)
    (hQ : ∀ s', Rep s' (plug (.mk d pa .Black pv t (.mk d.flip ga .Red gv U S)) K) R →
      Q ⟨⟩ s') :
    Returns (do setBlack (some pa); setRed (some ga); revolve d.flip (some ga)) s Q := by
  simp only [returns_bind]
  refine returns_setColor (K := ⟨d, ga, .Black, gv, U⟩ :: K) h fun s₁ h₁ => ?_
  refine returns_setColor (K := K) h₁ fun s₂ h₂ => ?_
  rw [← Tree.mk_flip d ga, ← Tree.mk_flip d pa] at h₂
  refine returns_revolve h₂ fun s₃ h₃ => hQ s₃ ?_
  rwa [Tree.mk_flip d pa] at h₃

theorem toList_rotateUp (d : Dir) (ga pa : Addr) (gv pv : T) (t S U : Tree T) :
    (Tree.mk d pa .Black pv t (.mk d.flip ga .Red gv U S)).toList =
      (Tree.mk d ga .Black gv (.mk d pa .Red pv t S) U).toList := by
  cases d <;> simp [Tree.mk, Tree.toList]

/-! ## The loop -/

/-- An inner child first becomes an outer one. -/
def insertMeasure : Ctx T → Nat
  | f :: g :: K => 2 * (K.length + 2) + if f.dir = g.dir then 0 else 1
  | K => 2 * K.length

theorem insertMeasure_cons (f g : Frame T) (K : Ctx T) :
    insertMeasure (f :: g :: K) = 2 * (K.length + 2) + if f.dir = g.dir then 0 else 1 := rfl

theorem insertMeasure_le (K : Ctx T) : insertMeasure K ≤ 2 * K.length + 1 := by
  unfold insertMeasure
  split
  · simp only [List.length_cons]
    split <;> omega
  · omega

/-- The invariant of the loop, for a tree with the nodes `L`. -/
def InsertInv (R : Cells T) (L : List (Addr × T)) (k : Nat) (node : Ptr)
    (s : Mem Ptr (Node T)) : Prop :=
  ∃ t K n, Rep s (plug t K) R ∧ node = t.ptr ∧ t.color = .Red ∧ Balanced t n ∧
    Accepts K n ∧ (plug t K).toList = L ∧ insertMeasure K = k

/-- The tree is balanced, though its root may be red. -/
def Nearly (R : Cells T) (L : List (Addr × T)) (s : Mem Ptr (Node T)) : Prop :=
  ∃ t m, Rep s t R ∧ Balanced t m ∧ t ≠ .nil ∧ t.toList = L

/-- What a round of the loop comes to. -/
def InsertRound (R : Cells T) (L : List (Addr × T)) (k : Nat) (r : Ptr ⊕ PUnit)
    (s : Mem Ptr (Node T)) : Prop :=
  match r with
  | .inl node => ∃ j < k, InsertInv R L j node s
  | .inr _ => Nearly R L s

/-- The parent, the grandparent and the uncle of a red node with a red parent. -/
structure RedRed (d : Dir) (t S U : Tree T) (K : Ctx T) (n : Nat) : Prop where
  red : t.color = .Red
  tree : Balanced t n
  sib : Balanced S n
  sibColor : S.color = .Black
  uncle : Balanced U n
  fits : Accepts K (n + 1)

theorem insertRound_recolor {d e d' : Dir} {ga pa ua : Addr} {gv pv uv : T}
    {t S ul ur : Tree T} {n : Nat} {L : List (Addr × T)}
    (h : Rep s (plug (.mk d ga .Black gv (.mk e pa .Red pv t S) (.mk d' ua .Red uv ul ur)) K) R)
    (hr : RedRed d t S (.mk d' ua .Red uv ul ur) K n)
    (hL : (plug (.mk d ga .Black gv (.mk e pa .Red pv t S) (.mk d' ua .Red uv ul ur))
      K).toList = L) :
    Returns (do setBlack (some ua); setBlack (some pa); setRed (some ga); pure (.inl (some ga)))
      s (InsertRound R L (2 * (K.length + 2) + if e = d then 0 else 1)) := by
  refine returns_recolor h fun s' h' => returns_pure.mpr ?_
  obtain ⟨hul, hur, cul, cur⟩ := balanced_mk_red.mp hr.uncle
  refine ⟨insertMeasure K, ?_, _, K, n + 1, h', by simp, by simp, ?_, hr.fits, ?_, rfl⟩
  · have hle := insertMeasure_le K
    omega
  · exact balanced_mk_red.mpr ⟨balanced_mk_black.mpr ⟨n, rfl, hr.tree, hr.sib⟩,
      balanced_mk_black.mpr ⟨n, rfl, hul, hur⟩, Tree.color_mk .., Tree.color_mk ..⟩
  · rw [← hL]
    exact toList_plug_congr (toList_mk_congr (toList_mk_congr rfl rfl)
      (toList_mk_congr rfl rfl)) K

/-- The uncle is looked at first: if it is red, the colours are changed, and the round is over. -/
theorem returns_uncle {d e : Dir} {ga pa : Addr} {gv pv : T} {t S U : Tree T} {n : Nat}
    {L : List (Addr × T)} {x : RBProg T (Ptr ⊕ PUnit)}
    (h : Rep s (plug (.mk d ga .Black gv (.mk e pa .Red pv t S) U) K) R)
    (hr : RedRed d t S U K n)
    (hL : (plug (.mk d ga .Black gv (.mk e pa .Red pv t S) U) K).toList = L)
    (hx : U.color = .Black →
      Returns x s (InsertRound R L (2 * (K.length + 2) + if e = d then 0 else 1))) :
    Returns (if decide (U.color = .Red) = true then
        (do setBlack U.ptr; setBlack (some pa); setRed (some ga); pure (.inl (some ga))) else x)
      s (InsertRound R L (2 * (K.length + 2) + if e = d then 0 else 1)) := by
  refine Returns.ite (fun hU => ?_) fun hU => hx (not_red_iff.mp (by simpa using hU))
  have hred : U.color = .Red := of_decide_eq_true hU
  obtain ⟨ua, c, uv, ul, ur, rfl⟩ := Tree.exists_mk (Tree.ne_nil_of_red hred) .left
  obtain rfl : c = .Red := (Tree.color_mk ..).symm.trans hred
  rw [Tree.ptr_mk]
  exact insertRound_recolor h hr hL

/-- After case 3 the parent is black. -/
theorem insertInv_rotateUp {d : Dir} {ga pa : Addr} {gv pv : T} {t S U : Tree T} {n k : Nat}
    {L : List (Addr × T)}
    (h : Rep s (plug (.mk d pa .Black pv t (.mk d.flip ga .Red gv U S)) K) R)
    (hr : RedRed d t S U K n) (hU : U.color = .Black)
    (hL : (plug (.mk d ga .Black gv (.mk d pa .Red pv t S) U) K).toList = L)
    (hk : 2 * (K.length + 2) ≤ k) : ∃ j < k, InsertInv R L j t.ptr s := by
  refine ⟨insertMeasure (⟨d, pa, .Black, pv, .mk d.flip ga .Red gv U S⟩ :: K), ?_, t,
    ⟨d, pa, .Black, pv, .mk d.flip ga .Red gv U S⟩ :: K, n, h, rfl, hr.red, hr.tree, ?_, ?_,
    rfl⟩
  · have hle := insertMeasure_le (⟨d, pa, .Black, pv, .mk d.flip ga .Red gv U S⟩ :: K)
    rw [List.length_cons] at hle
    omega
  · exact .black (balanced_mk_red.mpr ⟨hr.uncle, hr.sib, hU, hr.sibColor⟩) hr.fits
  · rw [← hL]
    exact toList_plug_congr (toList_rotateUp d ga pa gv pv t S U) K

/-- The branch `p == g->left`. -/
theorem returns_insertFixupLeft {e : Dir} {ga pa : Addr} {gv pv : T} {t S U : Tree T} {n : Nat}
    {L : List (Addr × T)}
    (h : Rep s (plug (.mk .left ga .Black gv (.mk e pa .Red pv t S) U) K) R)
    (hr : RedRed .left t S U K n)
    (hL : (plug (.mk .left ga .Black gv (.mk e pa .Red pv t S) U) K).toList = L) :
    Returns (insertFixupLeft t.ptr (some pa) (some ga)) s
      (InsertRound R L (2 * (K.length + 2) + if e = .left then 0 else 1)) := by
  have hg := h.cell
  have hp := Rep.cell (K := ⟨.left, ga, .Black, gv, U⟩ :: K) h
  have hfar := h
  rw [plug_far] at hfar
  simp only [insertFixupLeft, returns_bind, returns_right hg, mkNode, hfar.redNode]
  refine returns_uncle h hr hL fun hUb => ?_
  cases e with
  | left =>
    have hne : S.ptr ≠ t.ptr :=
      Rep.sib_ne (f := ⟨.left, pa, .Red, pv, S⟩) (K := ⟨.left, ga, .Black, gv, U⟩ :: K) h
        (Tree.ne_nil_of_red hr.red)
    simp only [returns_bind, returns_right hp, returns_left hp, mkNode, hne, if_false,
      returns_pure, if_true]
    have hrot := returns_rotateUp (Q := fun _ s => ∃ j < 2 * (K.length + 2),
      InsertInv R L j t.ptr s) h fun s' h' => insertInv_rotateUp h' hr hUb hL le_rfl
    simp only [returns_bind] at hrot
    exact hrot
  | right =>
    obtain ⟨a, c, v, B, C, rfl⟩ := Tree.exists_mk (Tree.ne_nil_of_red hr.red) .left
    obtain rfl : c = .Red := (Tree.color_mk ..).symm.trans hr.red
    obtain ⟨hB, hC, cB, cC⟩ := balanced_mk_red.mp hr.tree
    simp only [returns_bind, returns_right hp, mkNode, Tree.ptr_mk, if_true, leftRevolve,
      returns_pure]
    have h' : Rep s (plug (.mk .left pa .Red pv S (.mk .left a .Red v B C))
      (⟨.left, ga, .Black, gv, U⟩ :: K)) R := h
    refine returns_revolve h' fun s₁ h₁ => ?_
    have hp₁ := Rep.cell (K := ⟨.left, a, .Red, v, C⟩ :: ⟨.left, ga, .Black, gv, U⟩ :: K) h₁
    have hne : S.ptr ≠ some pa :=
      Rep.child_ne (K := ⟨.left, a, .Red, v, C⟩ :: ⟨.left, ga, .Black, gv, U⟩ :: K) h₁
    simp only [returns_left hp₁, mkNode, hne, if_false, returns_pure]
    refine ⟨2 * (K.length + 2), by simp, .mk .left pa .Red pv S B,
      ⟨.left, a, .Red, v, C⟩ :: ⟨.left, ga, .Black, gv, U⟩ :: K, n, h₁, rfl, rfl,
      balanced_mk_red.mpr ⟨hr.sib, hB, hr.sibColor, cB⟩,
      .red hC cC rfl (.black hr.uncle hr.fits), ?_, by simp [insertMeasure]⟩
    rw [← hL]
    simp [toList_plug, Tree.mk, Tree.toList, before, after]

/-- The other branch. -/
theorem returns_insertFixupRight {e : Dir} {ga pa : Addr} {gv pv : T} {t S U : Tree T} {n : Nat}
    {L : List (Addr × T)}
    (h : Rep s (plug (.mk .right ga .Black gv (.mk e pa .Red pv t S) U) K) R)
    (hr : RedRed .right t S U K n)
    (hL : (plug (.mk .right ga .Black gv (.mk e pa .Red pv t S) U) K).toList = L) :
    Returns (insertFixupRight t.ptr (some pa) (some ga)) s
      (InsertRound R L (2 * (K.length + 2) + if e = .right then 0 else 1)) := by
  have hg := h.cell
  have hp := Rep.cell (K := ⟨.right, ga, .Black, gv, U⟩ :: K) h
  have hfar := h
  rw [plug_far] at hfar
  simp only [insertFixupRight, returns_bind, returns_left hg, mkNode, hfar.redNode]
  refine returns_uncle h hr hL fun hUb => ?_
  cases e with
  | right =>
    have hne : S.ptr ≠ t.ptr :=
      Rep.sib_ne (f := ⟨.right, pa, .Red, pv, S⟩) (K := ⟨.right, ga, .Black, gv, U⟩ :: K) h
        (Tree.ne_nil_of_red hr.red)
    simp only [returns_bind, returns_left hp, mkNode, hne, if_false, returns_pure]
    have hrot := returns_rotateUp (Q := fun _ s => ∃ j < 2 * (K.length + 2),
      InsertInv R L j t.ptr s) h fun s' h' => insertInv_rotateUp h' hr hUb hL le_rfl
    simp only [returns_bind] at hrot
    exact hrot
  | left =>
    obtain ⟨a, c, v, B, C, rfl⟩ := Tree.exists_mk (Tree.ne_nil_of_red hr.red) .right
    obtain rfl : c = .Red := (Tree.color_mk ..).symm.trans hr.red
    obtain ⟨hB, hC, cB, cC⟩ := balanced_mk_red.mp hr.tree
    simp only [returns_bind, returns_left hp, mkNode, Tree.ptr_mk, if_true, rightRevolve,
      returns_pure]
    have h' : Rep s (plug (.mk .right pa .Red pv S (.mk .right a .Red v B C))
      (⟨.right, ga, .Black, gv, U⟩ :: K)) R := h
    refine returns_revolve h' fun s₁ h₁ => ?_
    have hr' : RedRed .right (.mk .right pa .Red pv S B) C U K n :=
      ⟨rfl, balanced_mk_red.mpr ⟨hr.sib, hB, hr.sibColor, cB⟩, hC, cC, hr.uncle, hr.fits⟩
    have hL' : (plug (.mk .right ga .Black gv (.mk .right a .Red v (.mk .right pa .Red pv S B)
        C) U) K).toList = L := by
      rw [← hL]
      simp [toList_plug, Tree.mk, Tree.toList]
    have hrot := returns_rotateUp (Q := fun _ s => ∃ j < 2 * (K.length + 2) + 1,
      InsertInv R L j (some pa) s) h₁ fun s' h' =>
        insertInv_rotateUp h' hr' hUb hL' (Nat.le_succ _)
    simp only [returns_bind] at hrot
    exact hrot

/-- The loop ends when the parent is not red. -/
theorem nearly_of_black {t : Tree T} {n : Nat} (h : Rep s (plug t K) R) (hred : t.color = .Red)
    (ht : Balanced t n) (hK : Accepts K n) (hup : upColor K = .Black) :
    Nearly R (plug t K).toList s := by
  obtain ⟨m, hm⟩ := balanced_plug ht hK (Or.inr hup)
  exact ⟨plug t K, m, h, hm, plug_ne_nil (Tree.ne_nil_of_red hred) K, rfl⟩

/-- One round of the loop. -/
theorem returns_insertFixupBody {k : Nat} {node : Ptr} {L : List (Addr × T)}
    (h : InsertInv R L k node s) : Returns (insertFixupBody node) s (InsertRound R L k) := by
  obtain ⟨t, K, n, h, rfl, hred, ht, hK, rfl, rfl⟩ := h
  obtain ⟨a, c, v, l, r, rfl⟩ := Tree.exists_mk (Tree.ne_nil_of_red hred) .left
  have ha := h.cell
  cases hK with
  | nil =>
    simp only [insertFixupBody, Tree.ptr_mk, returns_bind, returns_parent ha, mkNode_parent, up,
      redNode, if_true, returns_pure, Bool.false_eq_true, if_false]
    exact nearly_of_black h hred ht .nil rfl
  | @black d b w S K n hs hctx =>
    have hb := h.frame
    simp only [insertFixupBody, Tree.ptr_mk, returns_bind, returns_parent ha, mkNode_parent, up,
      redNode, reduceCtorEq, if_false, returns_isRed hb, mkNode_color, decide_false,
      Bool.false_eq_true, returns_pure]
    exact nearly_of_black h hred ht (.black hs hctx) rfl
  | @red e pa pv S f K n hs cs hf hctx =>
    have hb := h.frame
    obtain ⟨d, ga, gc, gv, U⟩ := f
    obtain rfl : gc = .Black := hf
    cases hctx with
    | black hU hctx =>
      have hr : RedRed d (.mk .left a c v l r) S U K n := ⟨hred, ht, hs, cs, hU, hctx⟩
      have hg := Rep.frame (f := ⟨d, ga, .Black, gv, U⟩) (K := K)
        (t := .mk e pa .Red pv (.mk .left a c v l r) S) h
      have hsib : U.ptr ≠ some pa := by
        have hne := Rep.sib_ne (f := ⟨d, ga, .Black, gv, U⟩) (K := K)
          (t := .mk e pa .Red pv (.mk .left a c v l r) S) h (by cases e <;> simp [Tree.mk])
        rwa [Tree.ptr_mk] at hne
      simp only [insertFixupBody, Tree.ptr_mk, returns_bind, returns_parent ha, mkNode_parent, up,
        redNode, reduceCtorEq, if_false, returns_isRed hb, mkNode_color, decide_true, if_true,
        returns_parent hb, returns_left hg]
      rw [insertMeasure_cons]
      cases d with
      | left =>
        simp only [mkNode, if_true]
        have hround := returns_insertFixupLeft h hr rfl
        rw [Tree.ptr_mk] at hround
        exact hround
      | right =>
        simp only [mkNode, hsib.symm, if_false]
        have hround := returns_insertFixupRight h hr rfl
        rw [Tree.ptr_mk] at hround
        exact hround

/-- `insert_fixup` makes a red-black tree of it. -/
theorem returns_insertFixup {t : Tree T} {n fuel : Nat} (h : Rep s (plug t K) R)
    (hred : t.color = .Red) (ht : Balanced t n) (hK : Accepts K n)
    (hfuel : 2 * K.length + 1 < fuel) :
    Returns (insertFixup fuel t.ptr) s fun _ s' => ∃ t' m, Rep s' t' R ∧ Balanced t' m ∧
      t'.color = .Black ∧ t'.toList = (plug t K).toList := by
  have hinv : InsertInv R (plug t K).toList (insertMeasure K) t.ptr s :=
    ⟨t, K, n, h, rfl, hred, ht, hK, rfl, rfl⟩
  have hle := insertMeasure_le K
  have hloop : Returns (loop .stuck insertFixupBody fuel t.ptr) s fun _ =>
      Nearly R (plug t K).toList :=
    Returns.loop (I := InsertInv R (plug t K).toList)
      (fun k node s hi => (returns_insertFixupBody hi).mono fun r s' hr => by
        cases r <;> exact hr) (show insertMeasure K < fuel by omega) hinv
  simp only [insertFixup, returns_bind]
  refine hloop.mono fun _ s₁ hres => ?_
  obtain ⟨t₁, m, h₁, hm, hne, hL⟩ := hres
  obtain ⟨a, c, v, l, r, rfl⟩ := Tree.exists_mk hne .left
  simp only [returns_getRoot, h₁.root, Tree.ptr_mk]
  refine returns_setColor (K := []) h₁ fun s₂ h₂ => ?_
  obtain ⟨m', hm'⟩ := hm.setBlack
  exact ⟨_, m', h₂, hm', rfl, hL⟩

/-! ## The descent -/

section insert

variable [LinearOrder T]

/-- The descent for `v` goes down this way. -/
def Path (v : T) (K : Ctx T) : Prop := ∀ f ∈ K, f.dir = .left ↔ v < f.value

/-- One round of the descent goes down one step. -/
theorem returns_descend {t₀ t : Tree T} {b : Addr} {nb : Node T} (h : Rep s t₀ ({(b, nb)} + R))
    (ht : plug t K = t₀) (hpath : Path nb.value K) :
    Returns (descend (some b) (t.ptr, up K)) s fun r s' => s' = s ∧ match r with
      | .inl xy => ∃ t' K', t'.height < t.height ∧ plug t' K' = t₀ ∧ xy = (t'.ptr, up K') ∧
        Path nb.value K'
      | .inr y => y = up K ∧ t = .nil := by
  subst ht
  cases t with
  | nil => simp [descend, Tree.ptr]
  | node a c v l r =>
    have hb : s.heap b = some nb := h.holds.get (by simp)
    have ha := h.node
    simp only [descend, Tree.ptr, reduceCtorEq, if_false, returns_bind, returns_value hb,
      returns_value ha]
    refine Returns.ite (fun hlt => ?_) fun hge => ?_
    · simp only [returns_bind, returns_left ha, returns_pure, true_and]
      refine ⟨l, ⟨.left, a, c, v, r⟩ :: K, by simp only [Tree.height]; omega, rfl, rfl,
        fun f hf => ?_⟩
      rcases List.mem_cons.mp hf with rfl | hf
      · simp [hlt]
      · exact hpath f hf
    · simp only [returns_bind, returns_right ha, returns_pure, true_and]
      refine ⟨r, ⟨.right, a, c, v, l⟩ :: K, by simp only [Tree.height]; omega, rfl, rfl,
        fun f hf => ?_⟩
      rcases List.mem_cons.mp hf with rfl | hf
      · simp [hge]
      · exact hpath f hf

/-- The descent ends at the place where the node is to hang. -/
theorem returns_descent {t : Tree T} {b : Addr} {nb : Node T} {fuel : Nat}
    (h : Rep s t ({(b, nb)} + R)) (hfuel : t.height < fuel) :
    Returns (loop .stuck (descend (some b)) fuel (t.ptr, none)) s fun y s' =>
      s' = s ∧ ∃ K, plug .nil K = t ∧ y = up K ∧ Path nb.value K := by
  refine Returns.loop (I := fun k xy s' => s' = s ∧ ∃ t' K, plug t' K = t ∧ xy = (t'.ptr, up K) ∧
    Path nb.value K ∧ t'.height = k) (fun k xy s' hi => ?_) hfuel
    ⟨rfl, t, [], rfl, rfl, fun f hf => (List.not_mem_nil hf).elim, rfl⟩
  obtain ⟨rfl, t', K, ht, rfl, hpath, rfl⟩ := hi
  refine (returns_descend h ht hpath).mono fun r s' ⟨hs, hr⟩ => ?_
  cases r with
  | inl xy =>
    obtain ⟨t₁, K₁, hlt, ht₁, rfl, hpath₁⟩ := hr
    exact ⟨_, hlt, hs, t₁, K₁, ht₁, rfl, hpath₁, rfl⟩
  | inr y =>
    obtain ⟨rfl, rfl⟩ := hr
    exact ⟨hs, K, ht, rfl, hpath⟩

/-! ## `insert` -/

/-- `root` or a null pointer of the tree becomes the pointer to the node. -/
theorem returns_hang {b : Addr} {nb : Node T} {α : Type} {x : RBProg T α}
    {Q : α → Mem Ptr (Node T) → Prop} (hroot : s.globals = top none K)
    (hh : Holds s.heap (ctxCells none K + ({(b, nb)} + R))) (hpath : Path nb.value K)
    (hQ : ∀ h, Holds h (ctxCells (some b) K + ({(b, nb)} + R)) →
      Returns x ⟨top (some b) K, h⟩ Q) :
    Returns (do
      (if up K ≠ none then (do
        if (← value (some b)) < (← value (up K)) then setLeft (up K) (some b)
        else setRight (up K) (some b))
      else setRoot (some b))
      x) s Q := by
  have hb : s.heap b = some nb := hh.get (by simp)
  rw [returns_bind]
  cases K with
  | nil =>
    simp only [up, ne_eq, not_true_eq_false, if_false, returns_setRoot]
    exact hQ s.heap hh
  | cons f K =>
    have hf : s.heap f.addr = some (mkNode f.dir (up K) none f.sib.ptr f.color f.value) :=
      hh.get (by simp [ctxCells])
    have hset := returns_setLink (Q := fun _ s' => Returns x s' Q) hroot hh hQ
    have hdir := hpath f List.mem_cons_self
    obtain ⟨d, a, c, v, sib⟩ := f
    simp only [up, ne_eq, reduceCtorEq, not_false_eq_true, if_true, returns_bind,
      returns_value hb, returns_value hf, mkNode_value]
    cases d with
    | left =>
      rw [if_pos (hdir.mp rfl)]
      exact hset
    | right =>
      rw [if_neg fun hlt => by cases hdir.mpr hlt]
      exact hset

/-- `insert(root, node)` for a node without children. -/
theorem returns_insertNode {t : Tree T} {m : Nat} {b : Addr} {nb : Node T} {fuel : Nat}
    (h : Rep s t ({(b, nb)} + R)) (ht : Balanced t m) (hc : t.color = .Black)
    (hleft : nb.left = none) (hright : nb.right = none) (hfuel : 2 * t.height + 1 < fuel) :
    Returns (insertNode fuel (some b)) s fun _ s' => ∃ t' m' K, Rep s' t' R ∧ Balanced t' m' ∧
      t'.color = .Black ∧ plug .nil K = t ∧ Path nb.value K ∧
      t'.toList = before K ++ (b, nb.value) :: after K := by
  simp only [insertNode, returns_bind, returns_getRoot, h.root]
  refine (returns_descent h (by omega)).mono ?_
  rintro y s' ⟨rfl, K, rfl, rfl, hpath⟩
  obtain ⟨hroot, hh⟩ := rep_plug.mp h
  rw [Tree.ptr] at hroot hh
  obtain ⟨n, hnil, hK, -⟩ := accepts_of_plug ht hc
  obtain rfl : n = 0 := by cases hnil; rfl
  have hlen := length_add_height_le .nil K
  refine returns_setParent (n := nb) (R := ctxCells none K + R) hh
    (by rw [cells]; abel) fun h₁ hh₁ => ?_
  have hh₁' : Holds h₁ (ctxCells none K + ({(b, { nb with parent := up K })} + R)) :=
    cast (congrArg _ (by abel)) hh₁
  have hhang := returns_hang (s := ⟨s'.globals, h₁⟩)
    (x := do setRed (some b); insertFixup fuel (some b)) hroot hh₁' hpath
    (Q := fun _ s' => ∃ t' m' K', Rep s' t' R ∧ Balanced t' m' ∧ t'.color = .Black ∧
      plug .nil K' = plug .nil K ∧ Path nb.value K' ∧
      t'.toList = before K' ++ (b, nb.value) :: after K')
  simp only [returns_bind] at hhang
  refine hhang fun h₂ hh₂ => ?_
  refine returns_modifyCell (n := { nb with parent := up K }) (R := ctxCells (some b) K + R) hh₂
    (by abel) fun h₃ hh₃ => ?_
  have hrep : Rep ⟨top (some b) K, h₃⟩ (plug (.node b .Red nb.value .nil .nil) K) R := by
    refine rep_plug.mpr ⟨rfl, ?_⟩
    simp only [hleft, hright] at hh₃
    simp only [cells, Tree.ptr]
    exact cast (congrArg _ (by abel)) hh₃
  refine (returns_insertFixup hrep rfl (.red .nil .nil rfl rfl) hK (by omega)).mono ?_
  rintro _ s₄ ⟨t', m', h₄, hm', hc', hL⟩
  refine ⟨t', m', K, h₄, hm', hc', rfl, hpath, ?_⟩
  rw [hL, toList_plug]
  simp [Tree.toList]

variable [Inhabited T]

/-- `insert(root, t)`. -/
theorem returns_insert {t : Tree T} {m : Nat} {a : Addr} {v : T} {fuel : Nat}
    (h : Rep s t R) (ht : Balanced t m) (hc : t.color = .Black) (ha : s.heap a = none)
    (hfuel : 2 * t.height + 1 < fuel) :
    Returns (insert fuel a v) s fun _ s' => ∃ t' m' K, Rep s' t' R ∧ Balanced t' m' ∧
      t'.color = .Black ∧ plug .nil K = t ∧ Path v K ∧
      t'.toList = before K ++ (a, v) :: after K := by
  simp only [insert, returns_bind]
  refine returns_new h.holds ha fun h₁ hh₁ => ?_
  refine returns_setValue hh₁ rfl fun h₂ hh₂ => ?_
  have hrep : Rep ⟨s.globals, h₂⟩ t ({(a, ⟨none, none, none, .Red, v⟩)} + R) :=
    ⟨h.root, cast (congrArg _ (by abel)) hh₂⟩
  exact returns_insertNode hrep ht hc rfl rfl hfuel

end insert

end Wish.RBTree
