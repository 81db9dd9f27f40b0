import Mathlib.Data.List.Induction
import Wish.Core.TaggedPtr

/-!
# The compressed tagged pointer simulates the two-word one

A program on tagged pointers has variables for tagged pointers, for addresses and for tags, and
runs against either variant. `TagMap` is what the tags of two variants must share for the runs
to agree; the 16-bit tag is the two-word tag modulo `2 ^ 16`.
-/

namespace Wish.Tagged

open TaggedPtr (make zero getPtr getTag setPtr nextTag getNextTag limit)

/-! ## Programs -/

/-- One statement; the indices name variables. An address that a statement introduces is below
`lim`. -/
inductive Op (lim : Nat)
  /-- An address of the program, as `new` or `nullptr` gives it. -/
  | address (p : Nat) (a : Ptr) (h : a.toNat < lim)
  /-- A literal, converted to `tag_t`. -/
  | number (t : Nat) (n : UInt64)
  /-- `tagged_ptr()` -/
  | default (i : Nat)
  /-- `tagged_ptr(T *_ptr, tag_t _tag)` -/
  | construct (i p t : Nat)
  /-- The copy constructor and the copy assignment. -/
  | copy (i j : Nat)
  | setPtr (i p : Nat)
  | getPtr (p i : Nat)
  | getTag (t i : Nat)
  | getNextTag (t i : Nat)

structure Store (P : Type) [TaggedPtr P] where
  val : Nat → P
  ptr : Nat → Ptr
  tag : Nat → TaggedPtr.Tag P

section Run

variable {P : Type} [TaggedPtr P] {lim : Nat}

def Store.init : Store P := ⟨fun _ => make 0 zero, fun _ => 0, fun _ => zero⟩

/-- One statement, with `lit` the conversion of a literal to `tag_t`. -/
def Op.step (lit : UInt64 → TaggedPtr.Tag P) (s : Store P) : Op lim → Store P
  | .address p a _ => { s with ptr := Function.update s.ptr p a }
  | .number t n => { s with tag := Function.update s.tag t (lit n) }
  | .default i => { s with val := Function.update s.val i (make 0 zero) }
  | .construct i p t => { s with val := Function.update s.val i (make (s.ptr p) (s.tag t)) }
  | .copy i j => { s with val := Function.update s.val i (s.val j) }
  | .setPtr i p =>
    { s with val := Function.update s.val i (TaggedPtr.setPtr (s.val i) (s.ptr p)) }
  | .getPtr p i => { s with ptr := Function.update s.ptr p (TaggedPtr.getPtr (s.val i)) }
  | .getTag t i => { s with tag := Function.update s.tag t (TaggedPtr.getTag (s.val i)) }
  | .getNextTag t i => { s with tag := Function.update s.tag t (TaggedPtr.getNextTag (s.val i)) }

def run (lit : UInt64 → TaggedPtr.Tag P) (ops : List (Op lim)) : Store P :=
  ops.foldl (Op.step lit) Store.init

end Run

/-! ## Two variants -/

section Simulation

variable {P Q : Type} [TaggedPtr P] [TaggedPtr Q] {lim : Nat}
  {litP : UInt64 → TaggedPtr.Tag P} {litQ : UInt64 → TaggedPtr.Tag Q}
  {f : TaggedPtr.Tag P → TaggedPtr.Tag Q}

/-- `f` takes the tags of `P` to the tags of `Q`. -/
structure TagMap (litP : UInt64 → TaggedPtr.Tag P) (litQ : UInt64 → TaggedPtr.Tag Q)
    (f : TaggedPtr.Tag P → TaggedPtr.Tag Q) : Prop where
  zero : f zero = zero
  lit : ∀ n, f (litP n) = litQ n
  next : ∀ t, f (nextTag t) = nextTag (f t)

/-- A value of `Q` that stands for a value of `P`. -/
structure Agree (lim : Nat) (f : TaggedPtr.Tag P → TaggedPtr.Tag Q) (x : P) (y : Q) : Prop where
  bound : (getPtr x).toNat < lim
  getPtr_eq : getPtr y = getPtr x
  getTag_eq : getTag y = f (getTag x)

theorem Agree.make (hP : lim ≤ limit P) (hQ : lim ≤ limit Q) {a : Ptr} (ha : a.toNat < lim)
    (t : TaggedPtr.Tag P) :
    Agree lim f (make a t : P) (TaggedPtr.make a (f t) : Q) := by
  have hx : getPtr (TaggedPtr.make a t : P) = a := TaggedPtr.getPtr_make a t (ha.trans_le hP)
  have hy : getPtr (TaggedPtr.make a (f t) : Q) = a :=
    TaggedPtr.getPtr_make a (f t) (ha.trans_le hQ)
  refine ⟨?_, ?_, ?_⟩
  · rw [hx]
    exact ha
  · rw [hx, hy]
  · rw [TaggedPtr.getTag_make, TaggedPtr.getTag_make]

theorem Agree.setPtr (hP : lim ≤ limit P) (hQ : lim ≤ limit Q) {x : P} {y : Q}
    (h : Agree lim f x y) {a : Ptr} (ha : a.toNat < lim) :
    Agree lim f (setPtr x a) (TaggedPtr.setPtr y a) := by
  rw [TaggedPtr.setPtr_eq, TaggedPtr.setPtr_eq, h.getTag_eq]
  exact .make hP hQ ha _

theorem Agree.getNextTag_eq (hf : TagMap litP litQ f) {x : P} {y : Q} (h : Agree lim f x y) :
    getNextTag y = f (getNextTag x) := by
  rw [getNextTag, getNextTag, hf.next, h.getTag_eq]

/-- What holds between two stores after the same statements. -/
structure Sim (lim : Nat) (f : TaggedPtr.Tag P → TaggedPtr.Tag Q) (s : Store P) (c : Store Q) :
    Prop where
  val : ∀ i, Agree lim f (s.val i) (c.val i)
  ptr_lt : ∀ p, (s.ptr p).toNat < lim
  ptr : ∀ p, c.ptr p = s.ptr p
  tag : ∀ t, c.tag t = f (s.tag t)

theorem update_rel {α β : Type*} {R : α → β → Prop} {g : Nat → α} {h : Nat → β}
    (hR : ∀ i, R (g i) (h i)) {k : Nat} {a : α} {b : β} (hab : R a b) (i : Nat) :
    R (Function.update g k a i) (Function.update h k b i) := by
  rw [Function.update_apply, Function.update_apply]
  split
  · exact hab
  · exact hR i

theorem Sim.setVal {s : Store P} {c : Store Q} (h : Sim lim f s c) {i : Nat} {x : P} {y : Q}
    (hxy : Agree lim f x y) :
    Sim lim f { s with val := Function.update s.val i x }
      { c with val := Function.update c.val i y } :=
  ⟨update_rel h.val hxy, h.ptr_lt, h.ptr, h.tag⟩

theorem Sim.setAddr {s : Store P} {c : Store Q} (h : Sim lim f s c) {p : Nat} {a b : Ptr}
    (ha : a.toNat < lim) (hab : b = a) :
    Sim lim f { s with ptr := Function.update s.ptr p a }
      { c with ptr := Function.update c.ptr p b } := by
  have hp := update_rel (R := fun a b : Ptr => a.toNat < lim ∧ b = a) (k := p)
    (fun q => ⟨h.ptr_lt q, h.ptr q⟩) ⟨ha, hab⟩
  exact ⟨h.val, fun q => (hp q).1, fun q => (hp q).2, h.tag⟩

theorem Sim.setTag {s : Store P} {c : Store Q} (h : Sim lim f s c) {t : Nat}
    {u : TaggedPtr.Tag P} {v : TaggedPtr.Tag Q} (huv : v = f u) :
    Sim lim f { s with tag := Function.update s.tag t u }
      { c with tag := Function.update c.tag t v } :=
  ⟨h.val, h.ptr_lt, h.ptr, update_rel (R := fun u v => v = f u) h.tag huv⟩

theorem Sim.init (hP : lim ≤ limit P) (hQ : lim ≤ limit Q) (hlim : 0 < lim)
    (hf : TagMap litP litQ f) : Sim lim f (Store.init : Store P) (Store.init : Store Q) := by
  have h0 : (0 : Ptr).toNat < lim := hlim
  refine ⟨fun _ => ?_, fun _ => h0, fun _ => rfl, fun _ => hf.zero.symm⟩
  have h : Agree lim f (TaggedPtr.make 0 TaggedPtr.zero : P)
      (TaggedPtr.make 0 (f TaggedPtr.zero) : Q) := .make hP hQ h0 _
  rwa [hf.zero] at h

theorem Sim.step (hP : lim ≤ limit P) (hQ : lim ≤ limit Q) (hf : TagMap litP litQ f)
    {s : Store P} {c : Store Q} (h : Sim lim f s c) (op : Op lim) :
    Sim lim f (op.step litP s) (op.step litQ c) := by
  cases op with
  | address p a ha => exact h.setAddr ha rfl
  | number t n => exact h.setTag (hf.lit n).symm
  | default i =>
    have h0 : (0 : Ptr).toNat < lim := (Nat.zero_le _).trans_lt (h.ptr_lt 0)
    have hd : Agree lim f (TaggedPtr.make 0 TaggedPtr.zero : P)
        (TaggedPtr.make 0 (f TaggedPtr.zero) : Q) := .make hP hQ h0 _
    rw [hf.zero] at hd
    exact h.setVal hd
  | construct i p t =>
    have hc : Agree lim f (TaggedPtr.make (s.ptr p) (s.tag t) : P)
        (TaggedPtr.make (s.ptr p) (f (s.tag t)) : Q) := .make hP hQ (h.ptr_lt p) _
    rw [Op.step, Op.step, h.ptr p, h.tag t]
    exact h.setVal hc
  | copy i j => exact h.setVal (h.val j)
  | setPtr i p =>
    have hs := (h.val i).setPtr hP hQ (h.ptr_lt p)
    rw [Op.step, Op.step, h.ptr p]
    exact h.setVal hs
  | getPtr p i => exact h.setAddr (h.val i).bound (h.val i).getPtr_eq
  | getTag t i => exact h.setTag (h.val i).getTag_eq
  | getNextTag t i => exact h.setTag ((h.val i).getNextTag_eq hf)

theorem Sim.run (hP : lim ≤ limit P) (hQ : lim ≤ limit Q) (hlim : 0 < lim)
    (hf : TagMap litP litQ f) (ops : List (Op lim)) :
    Sim lim f (Tagged.run litP ops) (Tagged.run litQ ops) := by
  induction ops using List.reverseRecOn with
  | nil => exact .init hP hQ hlim hf
  | append_singleton ops op ih =>
    rw [Tagged.run, Tagged.run, List.foldl_append, List.foldl_append]
    exact ih.step hP hQ hf op

end Simulation

/-! ## The union of the word and its lanes -/

namespace Compress

/-- `ret.tag[i]` for `ret.value = value` on a little-endian machine. -/
def lane (value : UInt64) (i : UInt64) : UInt16 := (value >>> (16 * i)).toUInt16

/-- `ret.value` after `ret.tag[i] = tag`. -/
def setLane (value : UInt64) (i : UInt64) (tag : UInt16) : UInt64 :=
  (value &&& ~~~((0xffff : UInt64) <<< (16 * i))) ||| tag.toUInt64 <<< (16 * i)

def tagIndex : UInt64 := 3

theorem extractTag_eq_lane (value : UInt64) : extractTag value = lane value tagIndex := rfl

theorem packPtr_eq_setLane (ptr : Ptr) (tag : UInt16) :
    packPtr ptr tag = setLane ptr tagIndex tag := by
  have hmask : ~~~((0xffff : UInt64) <<< (16 * tagIndex)) = ptrMask := by decide
  rw [setLane, hmask, packPtr, UInt64.or_comm]
  rfl

end Compress

/-! ## `operator==` and the two variants together -/

def Dcas.eq (x y : Dcas) : Bool := x.mPtr == y.mPtr && x.mTag == y.mTag

def Compress.eq (x y : Compress) : Bool := x.mPtr == y.mPtr

theorem Compress.eq_iff (x y : Compress) :
    x.eq y = true ↔ x.getPtr = y.getPtr ∧ x.getTag = y.getTag := by
  rw [Compress.eq, beq_iff_eq]
  constructor
  · intro h
    rw [Compress.getPtr, Compress.getTag, h]
    exact ⟨rfl, rfl⟩
  · rintro ⟨hptr, htag⟩
    exact Compress.extract_inj hptr htag

theorem Compress.getTag_setPtr (x : Compress) (a : Ptr) : (x.setPtr a).getTag = x.getTag :=
  Compress.extractTag_packPtr a x.getTag

theorem Dcas.getTag_setPtr (x : Dcas) (a : Ptr) : (x.setPtr a).getTag = x.getTag := rfl

/-- The two-word run; `tag_t` is `size_t`. -/
def Dcas.run (ops : List (Op (2 ^ 48))) : Store Dcas := Tagged.run (P := Dcas) id ops

/-- The compressed run; `tag_t` is `uint16_t`. -/
def Compress.run (ops : List (Op (2 ^ 48))) : Store Compress :=
  Tagged.run (P := Compress) UInt64.toUInt16 ops

theorem tagMap : TagMap (P := Dcas) (Q := Compress) id UInt64.toUInt16 UInt64.toUInt16 where
  zero := rfl
  lit _ := rfl
  next t := UInt64.toUInt16_add t 1

/-- What the compressed store keeps of the two-word one. -/
structure Simulates (s : Store Dcas) (c : Store Compress) : Prop where
  getPtr : ∀ i, (c.val i).getPtr = (s.val i).getPtr
  getTag : ∀ i, (c.val i).getTag.toNat = (s.val i).getTag.toNat % 2 ^ 16
  nextTag : ∀ i, (Compress.nextTag (c.val i).getTag).toNat =
    (Dcas.nextTag (s.val i).getTag).toNat % 2 ^ 16
  setPtr : ∀ i a, ((s.val i).setPtr a).getTag = (s.val i).getTag ∧
    ((c.val i).setPtr a).getTag = (c.val i).getTag
  eq : ∀ i j, (c.val i).eq (c.val j) = true ↔ (s.val i).getPtr = (s.val j).getPtr ∧
    (s.val i).getTag.toNat % 2 ^ 16 = (s.val j).getTag.toNat % 2 ^ 16

theorem Sim.simulates {s : Store Dcas} {c : Store Compress}
    (h : Sim (2 ^ 48) UInt64.toUInt16 s c) : Simulates s c := by
  have hptr : ∀ i, (c.val i).getPtr = (s.val i).getPtr := fun i => (h.val i).getPtr_eq
  have htag : ∀ i, (c.val i).getTag = (s.val i).getTag.toUInt16 := fun i => (h.val i).getTag_eq
  have hnext : ∀ i, Compress.nextTag (c.val i).getTag =
      (Dcas.nextTag (s.val i).getTag).toUInt16 := fun i => (h.val i).getNextTag_eq tagMap
  refine ⟨hptr, fun i => ?_, fun i => ?_, fun i a => ?_, fun i j => ?_⟩
  · rw [htag i, UInt64.toNat_toUInt16]
  · rw [hnext i, UInt64.toNat_toUInt16]
  · exact ⟨(s.val i).getTag_setPtr a, (c.val i).getTag_setPtr a⟩
  · rw [Compress.eq_iff, hptr i, hptr j, htag i, htag j, ← UInt16.toNat_inj,
      UInt64.toNat_toUInt16, UInt64.toNat_toUInt16]

theorem compress_simulates_dcas (ops : List (Op (2 ^ 48))) :
    Simulates (Dcas.run ops) (Compress.run ops) :=
  have hP : 2 ^ 48 ≤ limit Dcas := Nat.pow_le_pow_right (by decide) (by decide)
  (Sim.run hP le_rfl (by decide) tagMap ops).simulates

/-- The two-word comparison is finer: tags a multiple of `2 ^ 16` apart differ there only. -/
example : Compress.eq ⟨Compress.packPtr 64 (65536 : UInt64).toUInt16⟩ ⟨Compress.packPtr 64 0⟩ =
    true ∧ Dcas.eq ⟨65536, 64⟩ ⟨0, 64⟩ = false := by
  decide

end Wish.Tagged
