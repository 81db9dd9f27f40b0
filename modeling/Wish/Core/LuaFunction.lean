import Wish.Lua
import Wish.OrdMap
import Mathlib.Data.List.Lex
import Mathlib.Data.Char

/-!
# `push_json` and `pop_json`

`core/luafunction/luafunction.cpp`, and `operator==` of the vendored `json.hpp`. The strings are
lists of characters; an object is the list of its members in the order of a `std::map`. `Json.fold`
is the recursion over a value.
-/

namespace Wish.LuaFunction

open Lua Prog

/-- `nlohmann::json` -/
inductive Json (D : Type) where
  | null
  | boolean (b : Bool)
  | string (s : Text)
  | numberUnsigned (n : UInt64)
  | numberInteger (n : Int64)
  | numberFloat (d : D)
  | array (items : List (Json D))
  | object (members : List (Text × Json D))
  | binary (bytes : List UInt8)

namespace Json

variable {D : Type} [Double D]

mutual

/-- `operator==` -/
def eq : Json D → Json D → Bool
  | .array l, .array r => eqItems l r
  | .object l, .object r => eqMembers l r
  | .null, .null => true
  | .string l, .string r => l = r
  | .boolean l, .boolean r => l = r
  | .numberInteger l, .numberInteger r => l = r
  | .numberUnsigned l, .numberUnsigned r => l = r
  | .numberFloat l, .numberFloat r => Double.eq l r
  | .binary l, .binary r => l = r
  | .numberInteger l, .numberFloat r => Double.eq (Double.ofInt l.toInt) r
  | .numberFloat l, .numberInteger r => Double.eq l (Double.ofInt r.toInt)
  | .numberUnsigned l, .numberFloat r => Double.eq (Double.ofInt l.toNat) r
  | .numberFloat l, .numberUnsigned r => Double.eq l (Double.ofInt r.toNat)
  | .numberUnsigned l, .numberInteger r => l.toInt64 = r
  | .numberInteger l, .numberUnsigned r => l = r.toInt64
  | _, _ => false

def eqItems : List (Json D) → List (Json D) → Bool
  | [], [] => true
  | l :: ls, r :: rs => l.eq r && eqItems ls rs
  | _, _ => false

def eqMembers : List (Text × Json D) → List (Text × Json D) → Bool
  | [], [] => true
  | (k, l) :: ls, (k', r) :: rs => k = k' && l.eq r && eqMembers ls rs
  | _, _ => false

end

end Json

variable {D : Type}

/-- `c_str()`, as far as a C function reads it -/
def cStr (s : Text) : Text := s.takeWhile (· ≠ Char.ofNat 0)

/-- A `size_t` as an `int`. -/
def toInt (n : Nat) : Int := (n : Int).bmod (2 ^ 32)

section

variable [DecidableEq D]

mutual

def pushJson : Json D → LuaProg D Int
  | .null => do
    push .nil
    pure 1
  | .boolean b => do
    push (.boolean b)
    pure 1
  | .string s => do
    push (.string (cStr s))
    pure 1
  | .numberUnsigned n => do
    push (.integer n.toInt64)
    pure 1
  | .numberInteger n => do
    push (.integer n)
    pure 1
  | .numberFloat d => do
    push (.number d)
    pure 1
  | .array items => do
    if items.length > 0 then createtable else pure ()
    let count ← pushItems items 0 0
    pure (toInt count)
  | .object members => do
    createtable
    let count ← pushMembers members 1
    pure (toInt count)
  | .binary _ => pure 0

/-- The loop of an array, from `idx` on. -/
def pushItems : List (Json D) → Nat → Nat → LuaProg D Nat
  | [], _, count => pure count
  | v :: vs, idx, count => do
    let n ← pushJson v
    if n > 0 then
      rawset (.integer (Int64.ofNat (idx + 1)))
      pushItems vs (idx + 1) (count + 1)
    else pushItems vs (idx + 1) count

def pushMembers : List (Text × Json D) → Nat → LuaProg D Nat
  | [], count => pure count
  | (name, v) :: ms, count => do
    let n ← pushJson v
    if n > 0 then
      rawset (.string (cStr name))
      pushMembers ms (count + 1)
    else pushMembers ms count

end

variable [Double D]

/-- A round of the loop of a table; `popValue` is the call for the value. -/
def popEntry (L : Impl D) (popValue : LuaProg D (LuaType × Json D)) (table_pos : Int)
    (obj : Json D) : LuaProg D (Json D ⊕ Json D) := do
  let more ← next L table_pos
  if more then
    let value ← popValue
    let obj ← match obj with
      | .null => do
        let table_type ← Lua.type (-2)
        match table_type with
        | .number => pure (.array [])
        | .string => pure (.object [])
        | _ => pure .null
      | obj => pure obj
    let obj ← match obj with
      | .array items => pure (.array (items ++ [value.2]))
      | .object members => do
        let key ← checkstring L (-2)
        pure (.object (OrdMap.insertEntry (cStr key) value.2 members))
      | obj => pure obj
    Lua.pop 1
    pure (.inl obj)
  else pure (.inr obj)

/-- The type that is returned, and what `obj` is then. -/
def popJson (L : Impl D) : Nat → Json D → Int → LuaProg D (LuaType × Json D)
  | 0, _, _ => throw .stuck
  | fuel + 1, obj, index => do
    let type ← Lua.type index
    match type with
    | .nil => pure (type, .null)
    | .boolean => do
      let b ← toboolean index
      pure (type, .numberInteger (if b then 1 else 0))
    | .number => do
      let d ← checknumber index
      pure (type, .numberFloat d)
    | .string => do
      let s ← checkstring L index
      pure (type, .string (cStr s))
    | .table => do
      push .nil
      let table_pos := if index ≥ 0 then index else index - 1
      let obj ← loop .stuck (popEntry L (popJson L fuel .null (-1)) table_pos) fuel obj
      pure (type, obj)
    | _ => pure (type, .null)

/-- `pop_json` after `push_json`, into a new `json`. -/
def roundTrip (L : Impl D) (v : Json D) (fuel : Nat) : LuaProg D (Json D) := do
  let _ ← pushJson v
  let r ← popJson L fuel .null (-1)
  pure r.2

end

end Wish.LuaFunction
