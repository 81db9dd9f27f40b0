import Mathlib.Data.Nat.Bitwise
import Mathlib.Logic.Function.Iterate

/-!
# The tagged pointers of `tagged_ptr.h`

`tagged_ptr_dcas.h` has the pointer and the tag in two words, `tagged_ptr_compress.h` has the tag
in the top 16 bits of one word. `TaggedPtr` is what the free list and the queue use of them, and
its laws hold of both, for the addresses that each can hold.
-/

namespace Wish.Tagged

/-- An address, 0 for `nullptr`. -/
abbrev Ptr := UInt64

/-- The class template `tagged_ptr`, for the addresses below `limit`. -/
class TaggedPtr (P : Type) where
  Tag : Type
  limit : Nat
  make : Ptr → Tag → P
  zero : Tag
  getPtr : P → Ptr
  getTag : P → Tag
  setPtr : P → Ptr → P
  nextTag : Tag → Tag
  decEq : DecidableEq P
  getPtr_make : ∀ p t, p.toNat < limit → getPtr (make p t) = p
  getTag_make : ∀ p t, getTag (make p t) = t
  setPtr_eq : ∀ x p, setPtr x p = make p (getTag x)
  ext : ∀ x y, getPtr x = getPtr y → getTag x = getTag y → x = y
  limit_pos : 0 < limit

instance {P : Type} [TaggedPtr P] : DecidableEq P := TaggedPtr.decEq

/-- `get_next_tag` -/
def TaggedPtr.getNextTag {P : Type} [TaggedPtr P] (x : P) : TaggedPtr.Tag P :=
  TaggedPtr.nextTag (TaggedPtr.getTag x)

/-! ## Two words -/

structure Dcas where
  mTag : UInt64
  mPtr : Ptr
  deriving DecidableEq, Repr

namespace Dcas

def getPtr (x : Dcas) : Ptr := x.mPtr

def setPtr (x : Dcas) (ptr : Ptr) : Dcas := { x with mPtr := ptr }

def getTag (x : Dcas) : UInt64 := x.mTag

/-- `(tag + 1) & std::numeric_limits<tag_t>::max()` -/
def nextTag (tag : UInt64) : UInt64 := tag + 1

instance : TaggedPtr Dcas where
  Tag := UInt64
  limit := 2 ^ 64
  make ptr tag := ⟨tag, ptr⟩
  zero := 0
  getPtr := getPtr
  getTag := getTag
  setPtr := setPtr
  nextTag := nextTag
  decEq := inferInstance
  getPtr_make _ _ _ := rfl
  getTag_make _ _ := rfl
  setPtr_eq _ _ := rfl
  ext := by
    rintro ⟨tag, ptr⟩ ⟨tag', ptr'⟩ hptr htag
    cases hptr
    cases htag
    rfl
  limit_pos := by decide

end Dcas

/-! ## One word -/

structure Compress where
  mPtr : UInt64
  deriving DecidableEq, Repr

namespace Compress

def ptrMask : UInt64 := ((1 : UInt64) <<< 48) - 1

/-- The union of the word with four `tag_t`, of which the last one, the top 16 bits, is assigned. -/
def packPtr (ptr : Ptr) (tag : UInt16) : UInt64 := tag.toUInt64 <<< 48 ||| (ptr &&& ptrMask)

def extractPtr (ptr : UInt64) : Ptr := ptr &&& ptrMask

def extractTag (ptr : UInt64) : UInt16 := (ptr >>> 48).toUInt16

def getPtr (x : Compress) : Ptr := extractPtr x.mPtr

def getTag (x : Compress) : UInt16 := extractTag x.mPtr

def setPtr (x : Compress) (ptr : Ptr) : Compress := ⟨packPtr ptr x.getTag⟩

def nextTag (tag : UInt16) : UInt16 := tag + 1

theorem toNat_extractPtr (x : UInt64) : (extractPtr x).toNat = x.toNat % 2 ^ 48 := by
  have hmask : ptrMask.toNat = 2 ^ 48 - 1 := by decide
  rw [extractPtr, UInt64.toNat_and, hmask, Nat.and_two_pow_sub_one_eq_mod]

theorem toNat_extractTag (x : UInt64) : (extractTag x).toNat = x.toNat / 2 ^ 48 := by
  have hlt : x.toNat < 2 ^ 64 := x.toNat_lt
  have hshift : (x >>> 48).toNat = x.toNat / 2 ^ 48 := by
    rw [UInt64.toNat_shiftRight, Nat.shiftRight_eq_div_pow]
    rfl
  rw [extractTag, UInt64.toNat_toUInt16, hshift]
  omega

theorem toNat_packPtr (ptr : Ptr) (tag : UInt16) :
    (packPtr ptr tag).toNat = tag.toNat * 2 ^ 48 + ptr.toNat % 2 ^ 48 := by
  have htag : tag.toNat < 2 ^ 16 := tag.toNat_lt
  have hmod : ptr.toNat % 2 ^ 48 < 2 ^ 48 := Nat.mod_lt _ (by decide)
  have hshift : (tag.toUInt64 <<< 48).toNat = tag.toNat <<< 48 := by
    have hlt : tag.toNat * 2 ^ 48 < 2 ^ 64 := by omega
    rw [UInt64.toNat_shiftLeft, UInt16.toNat_toUInt64, Nat.shiftLeft_eq, Nat.shiftLeft_eq]
    exact Nat.mod_eq_of_lt hlt
  have hptr : (ptr &&& ptrMask).toNat = ptr.toNat % 2 ^ 48 := toNat_extractPtr ptr
  rw [packPtr, UInt64.toNat_or, hshift, hptr, ← Nat.shiftLeft_add_eq_or_of_lt hmod,
    Nat.shiftLeft_eq]

theorem extractPtr_packPtr {ptr : Ptr} (h : ptr.toNat < 2 ^ 48) (tag : UInt16) :
    extractPtr (packPtr ptr tag) = ptr := by
  apply UInt64.toNat_inj.mp
  rw [toNat_extractPtr, toNat_packPtr]
  omega

theorem extractTag_packPtr (ptr : Ptr) (tag : UInt16) : extractTag (packPtr ptr tag) = tag := by
  apply UInt16.toNat_inj.mp
  rw [toNat_extractTag, toNat_packPtr]
  omega

theorem extract_inj {x y : UInt64} (hptr : extractPtr x = extractPtr y)
    (htag : extractTag x = extractTag y) : x = y := by
  apply UInt64.toNat_inj.mp
  have hp := congrArg UInt64.toNat hptr
  have ht := congrArg UInt16.toNat htag
  rw [toNat_extractPtr, toNat_extractPtr] at hp
  rw [toNat_extractTag, toNat_extractTag] at ht
  omega

instance : TaggedPtr Compress where
  Tag := UInt16
  limit := 2 ^ 48
  make ptr tag := ⟨packPtr ptr tag⟩
  zero := 0
  getPtr := getPtr
  getTag := getTag
  setPtr := setPtr
  nextTag := nextTag
  decEq := inferInstance
  getPtr_make _ tag h := extractPtr_packPtr h tag
  getTag_make ptr tag := extractTag_packPtr ptr tag
  setPtr_eq _ _ := rfl
  ext := by
    rintro ⟨x⟩ ⟨y⟩ hptr htag
    exact congrArg Compress.mk (extract_inj hptr htag)
  limit_pos := by decide

end Compress

end Wish.Tagged
