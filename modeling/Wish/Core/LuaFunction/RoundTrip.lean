import Wish.Core.LuaFunction
import Mathlib.Order.Lattice
import Mathlib.Data.List.TakeWhile
import Mathlib.Algebra.Order.BigOperators.Group.List
import Mathlib.Algebra.Order.Group.Nat

/-!
# `pop_json` after `push_json`

`returns_pushJson` and `returns_popJson` say when the two calls return, and what: `Json.lua` is
left on the stack, and `Json.image` comes back from it. Each level of nesting takes one slot of
the stack to push and two to pop.
-/

namespace Wish.LuaFunction

open Lua Prog

variable {D : Type}

/-! ## Recursion over a value -/

/-- What to do with the values of each kind. -/
structure Fold (D α : Type) where
  null : α
  boolean : Bool → α
  string : Text → α
  numberUnsigned : UInt64 → α
  numberInteger : Int64 → α
  numberFloat : D → α
  array : List α → α
  object : List (Text × α) → α
  binary : List UInt8 → α

namespace Json

variable {α : Type}

mutual

def fold (f : Fold D α) : Json D → α
  | .null => f.null
  | .boolean b => f.boolean b
  | .string s => f.string s
  | .numberUnsigned n => f.numberUnsigned n
  | .numberInteger n => f.numberInteger n
  | .numberFloat d => f.numberFloat d
  | .array items => f.array (foldItems f items)
  | .object members => f.object (foldMembers f members)
  | .binary bytes => f.binary bytes

def foldItems (f : Fold D α) : List (Json D) → List α
  | [] => []
  | v :: vs => fold f v :: foldItems f vs

def foldMembers (f : Fold D α) : List (Text × Json D) → List (Text × α)
  | [] => []
  | (name, v) :: ms => (name, fold f v) :: foldMembers f ms

end

theorem fold_array (f : Fold D α) (items : List (Json D)) :
    fold f (.array items) = f.array (items.map (fold f)) := by
  have hitems : foldItems f items = items.map (fold f) := by
    induction items with
    | nil => rfl
    | cons v vs ih => rw [foldItems, ih, List.map_cons]
  rw [fold, hitems]

theorem fold_object (f : Fold D α) (members : List (Text × Json D)) :
    fold f (.object members) = f.object (members.map fun m => (m.1, fold f m.2)) := by
  have hmembers : foldMembers f members = members.map fun m => (m.1, fold f m.2) := by
    induction members with
    | nil => rfl
    | cons m ms ih =>
      obtain ⟨name, v⟩ := m
      rw [foldMembers, ih, List.map_cons]
  rw [fold, hmembers]

/-- How deep the value is, and how many values there are in it. -/
def height : Json D → Nat :=
  fold
    { null := 1
      boolean := fun _ => 1
      string := fun _ => 1
      numberUnsigned := fun _ => 1
      numberInteger := fun _ => 1
      numberFloat := fun _ => 1
      array := fun hs => hs.foldr max 0 + 1
      object := fun ms => (ms.map Prod.snd).foldr max 0 + 1
      binary := fun _ => 1 }

def size : Json D → Nat :=
  fold
    { null := 1
      boolean := fun _ => 1
      string := fun _ => 1
      numberUnsigned := fun _ => 1
      numberInteger := fun _ => 1
      numberFloat := fun _ => 1
      array := fun ks => ks.sum + 1
      object := fun ms => (ms.map Prod.snd).sum + 1
      binary := fun _ => 1 }

/-- What `push_json` leaves on the stack. -/
def lua : Json D → Value D :=
  fold
    { null := .nil
      boolean := .boolean
      string := fun s => .string (cStr s)
      numberUnsigned := fun n => .integer n.toInt64
      numberInteger := .integer
      numberFloat := .number
      array := fun vs => .table (numbered 0 vs)
      object := fun ms => .table (ms.map fun m => (.string m.1, m.2))
      binary := fun _ => .nil }

/-- What `pop_json` gets from it: a boolean is a number then. -/
def image [Double D] : Json D → Json D :=
  fold
    { null := .null
      boolean := fun b => .numberInteger (if b then 1 else 0)
      string := .string
      numberUnsigned := fun n => .numberFloat (Double.ofInt n.toNat)
      numberInteger := fun n => .numberFloat (Double.ofInt n.toInt)
      numberFloat := .numberFloat
      array := .array
      object := .object
      binary := .binary }

/-- What `push_json` returns. -/
def count : Json D → Int
  | .array items => toInt items.length
  | .object members => toInt (members.length + 1)
  | .binary _ => 0
  | _ => 1

def children : Json D → List (Json D)
  | .array items => items
  | .object members => members.map Prod.snd
  | _ => []

/-- The value and all the values in it. -/
inductive All (p : Json D → Prop) : Json D → Prop
  | mk {v : Json D} (here : p v) (below : ∀ u ∈ v.children, All p u) : All p v

def NoBoolean : Json D → Prop := All fun v => ∀ b, v ≠ .boolean b

/-- No array and no object in it is so long that its count is not positive as an `int`. -/
def Counted : Json D → Prop := All fun v => ∀ u ∈ v.children, 0 < u.count

/-- No nulls, no empty arrays and no empty objects, integers of 63 bits and strings without NUL.
A vector has fewer than 2^63 elements, and a map has its keys in order. -/
inductive Fit [Double D] : Json D → Prop
  | boolean (b : Bool) : Fit (.boolean b)
  | string {s : Text} (nul : Char.ofNat 0 ∉ s) : Fit (.string s)
  | numberUnsigned {n : UInt64} (lt : n.toNat < 2 ^ 63) : Fit (.numberUnsigned n)
  | numberInteger (n : Int64) : Fit (.numberInteger n)
  | numberFloat {d : D} (finite : Double.IsFinite d) : Fit (.numberFloat d)
  | array {items : List (Json D)} (ne_nil : items ≠ []) (lt : items.length < 2 ^ 63)
      (fit : ∀ v ∈ items, Fit v) : Fit (.array items)
  | object {members : List (Text × Json D)} (ne_nil : members ≠ [])
      (sorted : members.Pairwise fun a b => a.1 < b.1) (nul : ∀ m ∈ members, Char.ofNat 0 ∉ m.1)
      (fit : ∀ m ∈ members, Fit m.2) : Fit (.object members)

variable {items : List (Json D)} {members : List (Text × Json D)} {v : Json D}

theorem All.here {p : Json D → Prop} (h : All p v) : p v := by
  cases h
  assumption

theorem All.child {p : Json D → Prop} (h : All p v) : ∀ u ∈ v.children, All p u := by
  cases h
  assumption

theorem height_eq (v : Json D) : v.height = (v.children.map height).foldr max 0 + 1 := by
  cases v with
  | array items => exact fold_array _ items
  | object members =>
    simp only [children, height, fold_object, List.map_map]
    rfl
  | _ => rfl

theorem size_eq (v : Json D) : v.size = (v.children.map size).sum + 1 := by
  cases v with
  | array items => exact fold_array _ items
  | object members =>
    simp only [children, size, fold_object, List.map_map]
    rfl
  | _ => rfl

theorem height_pos (v : Json D) : 0 < v.height := height_eq v ▸ Nat.succ_pos _

theorem foldr_max_le_iff {l : List Nat} {n : Nat} : l.foldr max 0 ≤ n ↔ ∀ k ∈ l, k ≤ n := by
  induction l with
  | nil => simp
  | cons k l ih => simp [ih]

theorem height_le_iff {n : Nat} :
    v.height ≤ n ↔ 0 < n ∧ ∀ u ∈ v.children, u.height ≤ n - 1 := by
  rw [height_eq]
  cases n with
  | zero => simp
  | succ n => simp [foldr_max_le_iff]

/-- Two slots for each level. -/
theorem two_mul_height_le_iff {n : Nat} :
    2 * v.height ≤ n + 2 ↔ ∀ u ∈ v.children, 2 * u.height ≤ n := by
  have hhalf : 2 * v.height ≤ n + 2 ↔ v.height ≤ n / 2 + 1 := by omega
  rw [hhalf, height_le_iff]
  refine ⟨fun h u hu => ?_, fun h => ⟨Nat.succ_pos _, fun u hu => ?_⟩⟩
  · have hle := h.2 u hu
    omega
  · have hle := h u hu
    omega

theorem size_pos (v : Json D) : 0 < v.size := size_eq v ▸ Nat.succ_pos _

theorem length_children_lt (v : Json D) : v.children.length < v.size := by
  rw [size_eq, Nat.lt_succ_iff, ← List.length_map (f := size)]
  refine List.length_le_sum_of_one_le _ ?_
  rw [List.forall_mem_map]
  exact fun u _ => u.size_pos

theorem size_lt_of_mem {u : Json D} (h : u ∈ v.children) : u.size < v.size := by
  rw [size_eq v, Nat.lt_succ_iff]
  exact List.single_le_sum (fun _ _ => Nat.zero_le _) _ (List.mem_map_of_mem h)

theorem lua_array : lua (.array items) = .table (numbered 0 (items.map lua)) :=
  fold_array _ items

theorem lua_object :
    lua (.object members) = .table (members.map fun m => (.string m.1, lua m.2)) := by
  simp only [lua, fold_object, List.map_map]
  rfl

theorem Fit.lua_ne_nil [Double D] (h : Fit v) : v.lua ≠ .nil := by
  cases h with
  | array =>
    rw [lua_array]
    nofun
  | object =>
    rw [lua_object]
    nofun
  | _ => nofun

theorem image_array [Double D] : image (.array items) = .array (items.map image) :=
  fold_array _ items

theorem image_object [Double D] :
    image (.object members) = .object (members.map fun m => (m.1, image m.2)) :=
  fold_object _ members

end Json

open Json

/-! ## `push_json` -/

section

variable [DecidableEq D] {items : List (Json D)} {members : List (Text × Json D)} {v : Json D}
  {es : Entries D} {stack : List (Value D)} {idx count n : Nat}

/-- The loops of arrays and objects. -/
def pushRows : List (Key D × Json D) → Nat → LuaProg D Nat
  | [], count => pure count
  | (k, v) :: rows, count => do
    let n ← pushJson v
    if n > 0 then
      rawset k
      pushRows rows (count + 1)
    else pushRows rows count

theorem pushItems_eq {items : List (Json D)} {idx count : Nat} :
    pushItems items idx count = pushRows (numbered idx items) count := by
  induction items generalizing idx count with
  | nil => rw [pushItems, numbered, pushRows]
  | cons v vs ih => simp only [pushItems, numbered, pushRows, ih]

theorem pushMembers_eq {members : List (Text × Json D)} {count : Nat} :
    pushMembers members count =
      pushRows (members.map fun m => (.string (cStr m.1), m.2)) count := by
  induction members generalizing count with
  | nil => rw [pushMembers, List.map_nil, pushRows]
  | cons m ms ih => simp only [pushMembers, List.map_cons, pushRows, ih]

/-- An array with items, or an object. -/
def pushTable (rows : List (Key D × Json D)) (start : Nat) : LuaProg D Int := do
  createtable
  let count ← pushRows rows start
  pure (toInt count)

theorem pushJson_array (hne : items ≠ []) :
    pushJson (.array items) = pushTable (numbered 0 items) 0 := by
  rw [pushJson, if_pos (List.length_pos_iff.mpr hne), pushItems_eq]
  rfl

theorem pushJson_object :
    pushJson (.object members) = pushTable (members.map fun m => (.string (cStr m.1), m.2)) 1 := by
  rw [pushJson, pushMembers_eq]
  rfl

/-- `push_json` of `v` takes `v.height` slots, and leaves one value. -/
def Pushes (v : Json D) : Prop :=
  ∀ (s : State D) (Q : Int → State D → Prop),
    Returns (pushJson v) s Q ↔ v.height ≤ s.free ∧ Q v.count (s.push v.lua)

/-- The loop takes what its values take above the table, and puts them into it. -/
theorem returns_pushRows {rows : List (Key D × Json D)}
    (hpushes : ∀ u ∈ rows.map Prod.snd, Pushes u) (hcount : ∀ u ∈ rows.map Prod.snd, 0 < u.count)
    (hnil : ∀ u ∈ rows.map Prod.snd, u.lua ≠ .nil)
    (hnodup : (es.map Prod.fst ++ rows.map Prod.fst).Nodup) {Q : Nat → State D → Prop} :
    Returns (pushRows rows count) ⟨.table es :: stack, n⟩ Q ↔
      (∀ u ∈ rows.map Prod.snd, u.height ≤ n - (stack.length + 1)) ∧
        Q (count + rows.length) ⟨.table (es ++ rows.map fun r => (r.1, r.2.lua)) :: stack, n⟩ := by
  induction rows generalizing count es with
  | nil => simp [pushRows]
  | cons r rows ih =>
    obtain ⟨k, v⟩ := r
    obtain ⟨hv, hvs⟩ := List.forall_mem_cons.mp hpushes
    obtain ⟨hcv, hcvs⟩ := List.forall_mem_cons.mp hcount
    obtain ⟨hnv, hnvs⟩ := List.forall_mem_cons.mp hnil
    have hfresh : k ∉ es.map Prod.fst := by
      intro hmem
      exact (List.nodup_append.mp hnodup).2.2 _ hmem _ List.mem_cons_self rfl
    have hnodup' : ((es ++ [(k, v.lua)]).map Prod.fst ++ rows.map Prod.fst).Nodup := by
      rw [List.map_append, List.append_assoc]
      exact hnodup
    rw [pushRows, returns_bind, hv]
    simp only [if_pos hcv, returns_bind, State.push, returns_rawset,
      setEntry_of_not_mem hnv hfresh]
    rw [ih hvs hcvs hnvs hnodup']
    simp only [List.forall_mem_cons, List.length_cons, List.map_cons, List.append_assoc,
      List.singleton_append, State.free]
    rw [and_assoc, Nat.add_assoc count, Nat.add_comm 1]

/-- The rows of an array or an object. -/
theorem Pushes.of_rows (rows : List (Key D × Json D)) (start : Nat)
    (hpush : pushJson v = pushTable rows start) (hchildren : rows.map Prod.snd = v.children)
    (hlua : v.lua = .table (rows.map fun r => (r.1, r.2.lua)))
    (hcount : v.count = toInt (start + rows.length)) (hnodup : (rows.map Prod.fst).Nodup)
    (hpushes : ∀ u ∈ v.children, Pushes u) (hpos : ∀ u ∈ v.children, 0 < u.count)
    (hnil : ∀ u ∈ v.children, u.lua ≠ .nil) : Pushes v := by
  intro s Q
  rw [← hchildren] at hpushes hpos hnil
  have hfresh : (([] : Entries D).map Prod.fst ++ rows.map Prod.fst).Nodup := hnodup
  rw [hpush, pushTable, returns_bind, createtable, returns_push, returns_bind, State.push,
    returns_pushRows hpushes hpos hnil hfresh, returns_pure, hcount, hlua, hchildren, height_le_iff,
    and_assoc]
  rfl

theorem cStr_eq_self {s : Text} (h : Char.ofNat 0 ∉ s) : cStr s = s := by
  rw [cStr, List.takeWhile_eq_self_iff]
  intro c hc
  simpa using ne_of_mem_of_not_mem hc h

omit [DecidableEq D] in
/-- A value without children: one push. -/
theorem returns_pushOne {x : Value D} {s : State D} {Q : Int → State D → Prop} :
    Returns (push x >>= fun _ => pure 1) s Q ↔ 0 < s.free ∧ Q 1 (s.push x) := by
  rw [returns_bind, returns_push, returns_pure]

theorem returns_pushJson [Double D] (h : Fit v) (hc : Counted v) : Pushes v := by
  induction h with
  | boolean | numberUnsigned | numberInteger | numberFloat =>
    intro s Q
    rw [pushJson]
    exact returns_pushOne
  | @string t nul =>
    intro s Q
    rw [pushJson]
    exact returns_pushOne
  | @array items hne hlt hfit ih =>
    have hlua : lua (.array items) =
        .table ((numbered 0 items).map fun r => (r.1, r.2.lua)) := by
      rw [lua_array, numbered_map]
    have hlength : (numbered (D := D) 0 items).length = items.length := by
      rw [← List.length_map Prod.snd, map_snd_numbered]
    refine .of_rows (numbered 0 items) 0 (pushJson_array hne) map_snd_numbered hlua ?_
      (nodup_keys_numbered hlt) (fun u hu => ih u hu (hc.child u hu)) hc.here
      fun u hu => (hfit u hu).lua_ne_nil
    rw [hlength, Nat.zero_add]
    rfl
  | @object members hne hsorted hnul hfit ih =>
    have hnames : (members.map fun m => ((.string (cStr m.1), m.2) : Key D × Json D)) =
        members.map fun m => (.string m.1, m.2) :=
      List.map_congr_left fun m hm => by rw [cStr_eq_self (hnul m hm)]
    have hfits : ∀ u ∈ (object members).children, u.lua ≠ .nil :=
      List.forall_mem_map.mpr fun m hm => (hfit m hm).lua_ne_nil
    have hpushes : ∀ u ∈ (object members).children, Pushes u :=
      List.forall_mem_map.mpr fun m hm => ih m hm (hc.child m.2 (List.mem_map_of_mem hm))
    refine .of_rows (members.map fun m => (.string m.1, m.2)) 1 (hnames ▸ pushJson_object) ?_ ?_ ?_
      ?_ hpushes hc.here hfits
    · rw [List.map_map]
      rfl
    · rw [lua_object, List.map_map]
      rfl
    · rw [List.length_map, Nat.add_comm]
      rfl
    · rw [List.map_map]
      exact List.pairwise_map.mpr (hsorted.imp fun hlt he => hlt.ne (Key.string.inj he))

end

/-! ## `pop_json` -/

/-- What a round of the loop makes of `obj`. -/
def extend (obj : Json D) (k : Key D) (value : Json D) : Json D :=
  match obj, k with
  | .null, .string s => .object [(cStr s, value)]
  | .null, _ => .array [value]
  | .array items, _ => .array (items ++ [value])
  | .object members, .string s => .object (OrdMap.insertEntry (cStr s) value members)
  | obj, _ => obj

/-- What `obj` can be in the loop over a table whose keys have the type. -/
inductive Suits : LuaType → Json D → Prop
  | number_null : Suits .number .null
  | number_array (items : List (Json D)) : Suits .number (.array items)
  | string_null : Suits .string .null
  | string_object (members : List (Text × Json D)) : Suits .string (.object members)

theorem Suits.extend {k : Key D} {obj value : Json D} (h : Suits k.value.type obj) :
    Suits k.value.type (extend obj k value) := by
  cases k with
  | boolean => cases h
  | reference t => cases t <;> cases h
  | integer | number =>
    cases h with
    | number_null => exact .number_array _
    | number_array => exact .number_array _
  | string =>
    cases h with
    | string_null => exact .string_object _
    | string_object => exact .string_object _

section

variable [DecidableEq D] {items : List (Json D)} {members : List (Text × Json D)} {v : Json D}
  {es : Entries D} {stack : List (Value D)} {n : Nat} {L : Impl D}

theorem returns_popEntry {key : Value D} {e : Key D × Value D} {obj value : Json D} {t : LuaType}
    {c : Prop} {popValue : LuaProg D (LuaType × Json D)}
    (hnext : following (L.order es) key = some (some e)) (hobj : Suits e.1.value.type obj)
    (hvalue : ∀ Q, Returns popValue ⟨e.2 :: e.1.value :: .table es :: stack, n⟩ Q ↔
      c ∧ Q (t, value) ⟨e.2 :: e.1.value :: .table es :: stack, n⟩)
    {Q : Json D ⊕ Json D → State D → Prop} :
    Returns (popEntry L popValue (-2) obj) ⟨key :: .table es :: stack, n⟩ Q ↔
      (stack.length + 3 ≤ n ∧ c) ∧
        Q (.inl (extend obj e.1 value)) ⟨e.1.value :: .table es :: stack, n⟩ := by
  rw [popEntry, returns_bind, returns_next hnext, if_pos rfl, returns_bind, hvalue, ← and_assoc]
  refine and_congr_right' ?_
  obtain ⟨k, v⟩ := e
  cases k with
  | boolean => cases hobj
  | reference t => cases t <;> cases hobj
  | integer | number =>
    cases hobj with
    | number_null => simp [Lua.type, Key.value, Value.type, extend, Lua.pop, State.drop]
    | number_array => simp [extend, Lua.pop, State.drop]
  | string =>
    cases hobj with
    | string_null =>
      simp [Lua.type, Key.value, Value.type, checkstring, extend, Lua.pop, State.drop,
        OrdMap.insertEntry]
    | string_object => simp [Key.value, checkstring, extend, Lua.pop, State.drop]

variable [Double D]

/-- `pop_json` of what is left for `v` takes two slots for each level below it, and gives back
its image. -/
def Pops (L : Impl D) (fuel : Nat) (v : Json D) : Prop :=
  ∀ (stack : List (Value D)) (n : Nat) (Q : LuaType × Json D → State D → Prop),
    Returns (popJson L fuel .null (-1)) ⟨v.lua :: stack, n⟩ Q ↔
      2 * v.height ≤ n - (stack.length + 1) + 2 ∧ Q (v.lua.type, v.image) ⟨v.lua :: stack, n⟩

/-- The entries of a table that is left for these values. -/
def lower (rows : List (Key D × Json D)) : Entries D := rows.map fun r => (r.1, r.2.lua)

def extendAll (obj : Json D) (rows : List (Key D × Json D)) : Json D :=
  rows.foldl (fun obj r => extend obj r.1 r.2.image) obj

/-- The loop, where `done` is behind it and `todo` before it. -/
theorem returns_popRows {done todo : List (Key D × Json D)} {t : LuaType} {obj : Json D}
    {key : Value D} {fuel fuel' : Nat} (hsplit : L.order es = lower (done ++ todo))
    (hnodup : ((done ++ todo).map Prod.fst).Nodup) (hkeys : ∀ r ∈ todo, r.1.value.type = t)
    (hpops : ∀ r ∈ todo, Pops L fuel r.2) (hobj : Suits t obj)
    (hkey : following (L.order es) key = some (lower todo).head?) (hfuel : todo.length < fuel')
    {Q : Json D → State D → Prop} :
    Returns (loop .stuck (popEntry L (popJson L fuel .null (-1)) (-2)) fuel' obj)
        ⟨key :: .table es :: stack, n⟩ Q ↔
      (∀ r ∈ todo, 2 * r.2.height ≤ n - (stack.length + 1)) ∧
        Q (extendAll obj todo) ⟨.table es :: stack, n⟩ := by
  induction todo generalizing done obj key fuel' with
  | nil =>
    obtain ⟨fuel', rfl⟩ : ∃ k, fuel' = k + 1 := ⟨fuel' - 1, by omega⟩
    rw [loop, returns_bind, popEntry, returns_bind, returns_next_end hkey]
    simp [extendAll]
  | cons r todo ih =>
    obtain ⟨fuel', rfl⟩ : ∃ k, fuel' = k + 1 := ⟨fuel' - 1, by omega⟩
    rw [List.length_cons] at hfuel
    obtain ⟨hr, htodo⟩ := List.forall_mem_cons.mp hkeys
    obtain ⟨hpop, hpops⟩ := List.forall_mem_cons.mp hpops
    have hrows : L.order es = lower done ++ (r.1, r.2.lua) :: lower todo := by
      rw [hsplit, lower, List.map_append, List.map_cons]
      rfl
    have hkeys : ((L.order es).map Prod.fst).Nodup := by
      rw [hsplit, lower, List.map_map]
      exact hnodup
    have hkey' : following (L.order es) r.1.value = some (lower todo).head? :=
      following_of_split hkeys hrows
    rw [loop, returns_bind, returns_popEntry hkey (hr ▸ hobj) (hpop _ _)]
    have hsplit' : L.order es = lower (done ++ [r] ++ todo) := by simpa using hsplit
    have hnodup' : ((done ++ [r] ++ todo).map Prod.fst).Nodup := by simpa using hnodup
    rw [ih hsplit' hnodup' htodo hpops (hr ▸ (hr ▸ hobj).extend) hkey' (by omega)]
    have hroom : stack.length + 3 ≤ n ∧
        2 * r.2.height ≤ n - ((r.1.value :: .table es :: stack).length + 1) + 2 ↔
          2 * r.2.height ≤ n - (stack.length + 1) := by
      have hpos := r.2.height_pos
      simp only [List.length_cons]
      omega
    rw [hroom, List.forall_mem_cons, and_assoc]
    rfl

/-- The loop over a whole table, whose keys are all of one type. -/
theorem Pops.table {rows : List (Key D × Json D)} {t : LuaType} {fuel : Nat}
    (hv : v.lua = .table es) (hne : v.children ≠ []) (horder : L.order es = lower rows)
    (hrows : (rows.map Prod.snd).Perm v.children) (hnodup : (rows.map Prod.fst).Nodup)
    (hkeys : ∀ r ∈ rows, r.1.value.type = t) (ht : Suits t (.null : Json D))
    (himage : extendAll .null rows = v.image) (hfuel : v.size ≤ fuel)
    (hpops : ∀ u ∈ v.children, Pops L fuel u) : Pops L (fuel + 1) v := by
  intro stack n Q
  have hstart : following (L.order es) (.nil : Value D) = some (lower rows).head? := by
    rw [horder]
    rfl
  have hmem : ∀ r ∈ rows, r.2 ∈ v.children := fun r hr =>
    hrows.mem_iff.mp (List.mem_map_of_mem hr)
  have hlength : rows.length < fuel := by
    have hlt := v.length_children_lt
    rw [← hrows.length_eq, List.length_map] at hlt
    omega
  have hsplit : L.order es = lower ([] ++ rows) := horder
  have hloop : ∀ Q : Json D → State D → Prop,
      Returns (loop .stuck (popEntry L (popJson L fuel .null (-1)) (-2)) fuel .null)
          ⟨.nil :: .table es :: stack, n⟩ Q ↔
        (∀ r ∈ rows, 2 * r.2.height ≤ n - (stack.length + 1)) ∧
          Q (extendAll .null rows) ⟨.table es :: stack, n⟩ := fun Q =>
    returns_popRows hsplit hnodup hkeys (fun r hr => hpops r.2 (hmem r hr)) ht hstart hlength
  have hpush : (∀ u ∈ v.children, 2 * u.height ≤ n - (stack.length + 1)) →
      0 < n - (stack.length + 1) := by
    intro h
    obtain ⟨u, hu⟩ := List.exists_mem_of_ne_nil v.children hne
    have hpos := u.height_pos
    have hle := h u hu
    omega
  have hheight : (∀ r ∈ rows, 2 * r.2.height ≤ n - (stack.length + 1)) ↔
      ∀ u ∈ v.children, 2 * u.height ≤ n - (stack.length + 1) := by
    refine ⟨fun h u hu => ?_, fun h r hr => h r.2 (hmem r hr)⟩
    obtain ⟨r, hr, rfl⟩ := List.mem_map.mp (hrows.mem_iff.mpr hu)
    exact h r hr
  rw [himage, hheight] at hloop
  rw [hv, two_mul_height_le_iff]
  simp only [popJson, Lua.type, returns_bind, returns_get, value?_top, Value.type, returns_pure,
    returns_push, State.push, State.free, List.length_cons]
  exact (and_congr_right' (hloop _)).trans ⟨fun h => h.2, fun h => ⟨hpush h.1, h⟩⟩

omit [DecidableEq D] in
theorem extendAll_array {acc : List (Json D)} {rows : List (Key D × Json D)} :
    extendAll (.array acc) rows = .array (acc ++ (rows.map Prod.snd).map image) := by
  induction rows generalizing acc with
  | nil => simp [extendAll]
  | cons r rows ih =>
    rw [extendAll, List.foldl_cons, ← extendAll, extend, ih, List.append_assoc]
    rfl

omit [DecidableEq D] in
theorem extendAll_object {acc : List (Text × Json D)} (hnul : ∀ m ∈ members, cStr m.1 = m.1) :
    extendAll (.object acc) (members.map fun m => (.string m.1, m.2)) =
      .object ((members.map fun m => (m.1, m.2.image)).foldl
        (fun acc e => OrdMap.insertEntry e.1 e.2 acc) acc) := by
  induction members generalizing acc with
  | nil => rfl
  | cons m ms ih =>
    obtain ⟨hm, hms⟩ := List.forall_mem_cons.mp hnul
    rw [List.map_cons, extendAll, List.foldl_cons, extend, hm]
    exact ih hms

theorem toInt_toInt64 {k : UInt64} (h : k.toNat < 2 ^ 63) : k.toInt64.toInt = k.toNat :=
  BitVec.toInt_eq_toNat_of_lt (by
    have hk : k.toInt64.toBitVec.toNat = k.toNat := rfl
    omega)

theorem exists_map_of_perm {β γ : Type} {f : β → γ} {l : List γ} {l' : List β}
    (h : l.Perm (l'.map f)) : ∃ l'' : List β, l''.Perm l' ∧ l = l''.map f := by
  have hall : List.Forall₂ (fun c b => c = f b) (l'.map f) l' :=
    List.forall₂_map_left_iff.mpr (List.forall₂_same.mpr fun _ _ => rfl)
  obtain ⟨l'', hl, hperm⟩ := List.perm_comp_forall₂ h hall
  rw [← List.forall₂_map_right_iff, List.forall₂_eq_eq_eq] at hl
  exact ⟨l'', hperm, hl⟩

/-- There is fuel for the values in the value. -/
theorem Pops.child {u : Json D} {fuel : Nat} (hu : u ∈ v.children) (hfuel : v.size ≤ fuel)
    (h : ∀ {k : Nat}, u.size ≤ k → Pops L (k + 1) u) : Pops L fuel u := by
  have hsize := size_lt_of_mem hu
  obtain ⟨k, rfl⟩ : ∃ k, fuel = k + 1 := ⟨fuel - 1, by omega⟩
  exact h (by omega)

theorem returns_popJson {fuel : Nat} (h : Fit v) (hfuel : v.size ≤ fuel) :
    Pops L (fuel + 1) v := by
  induction h generalizing fuel with
  | boolean b =>
    intro stack n Q
    cases b with
    | false => simp [popJson, Lua.type, toboolean, lua, image, fold, height, Value.type]
    | true => simp [popJson, Lua.type, toboolean, lua, image, fold, height, Value.type]
  | @string t nul =>
    intro stack n Q
    simp [popJson, Lua.type, checkstring, lua, image, fold, height, Value.type, cStr_eq_self nul]
  | @numberUnsigned k lt =>
    intro stack n Q
    simp [popJson, Lua.type, checknumber, lua, image, fold, height, Value.type, toInt_toInt64 lt]
  | numberInteger | numberFloat =>
    intro stack n Q
    simp [popJson, Lua.type, checknumber, lua, image, fold, height, Value.type]
  | @array items hne hlt hfit ih =>
    have horder : L.order (numbered 0 (items.map lua)) = lower (numbered 0 items) := by
      rw [L.order_numbered (by rwa [List.length_map]), numbered_map, lower]
    refine .table lua_array hne horder (.of_eq map_snd_numbered) (nodup_keys_numbered hlt)
      ?_ .number_null ?_ hfuel fun u hu => .child hu hfuel (ih u hu)
    · intro r hr
      obtain ⟨i, hi, -⟩ := (mem_keys_numbered hlt).mp (List.mem_map_of_mem hr)
      rw [hi]
      rfl
    · obtain ⟨v, vs, rfl⟩ := List.exists_cons_of_ne_nil hne
      show extendAll (.array [v.image]) (numbered 1 vs) = _
      rw [extendAll_array, map_snd_numbered, image_array]
      rfl
  | @object members hne hsorted hnul hfit ih =>
    obtain ⟨ms, hperm, hms⟩ := exists_map_of_perm
      (L.order_perm (members.map fun m => (.string m.1, m.2.lua)))
    have horder : L.order (members.map fun m => (.string m.1, m.2.lua)) =
        lower (ms.map fun m => (.string m.1, m.2)) := by
      rw [hms, lower, List.map_map]
      rfl
    refine .table lua_object (by simpa [children] using hne) horder ?_ ?_ ?_ .string_null ?_
      hfuel fun u hu => ?_
    · rw [List.map_map]
      exact hperm.map _
    · rw [List.map_map]
      refine (hperm.map _).nodup_iff.mpr ?_
      exact List.pairwise_map.mpr (hsorted.imp fun hlt he => hlt.ne (Key.string.inj he))
    · rw [List.forall_mem_map]
      exact fun m _ => rfl
    · have hsorted' : (members.map fun m => (m.1, m.2.image)).Pairwise fun a b => a.1 < b.1 :=
        List.pairwise_map.mpr hsorted
      have hnul' : ∀ m ∈ ms, cStr m.1 = m.1 := fun m hm =>
        cStr_eq_self (hnul m (hperm.mem_iff.mp hm))
      rw [image_object, ← OrdMap.foldl_insertEntry (hperm.map _) hsorted', ← extendAll_object hnul']
      obtain ⟨m, ms, rfl⟩ := List.exists_cons_of_ne_nil (List.ne_nil_of_length_pos
        (hperm.length_eq ▸ List.length_pos_iff.mpr hne))
      rfl
    · obtain ⟨m, hm, rfl⟩ := List.mem_map.mp hu
      exact .child hu hfuel (ih m hm)

/-! ## The round trip -/

theorem below_popJson (L : Impl D) {n m : Nat} (h : n ≤ m) (obj : Json D) (index : Int) :
    Below (popJson L n obj index) (popJson L m obj index) := by
  induction n generalizing m obj index with
  | zero => exact .throw _ _
  | succ n ih =>
    obtain ⟨m, rfl⟩ : ∃ k, m = k + 1 := ⟨m - 1, by omega⟩
    refine .next fun type => ?_
    cases type with
    | table =>
      refine .next fun _ => .bind (.loop_mono _ (fun obj => ?_) (by omega) _) fun _ => .refl _
      exact .next fun more => .ite (.bind (ih (by omega) _ _) fun _ => .refl _) (.refl _)
    | _ => exact .refl _

end

theorem eqItems_image [Double D] {items : List (Json D)} :
    eqItems items (items.map image) = true ↔ ∀ v ∈ items, v.eq v.image = true := by
  induction items with
  | nil => simp [eqItems]
  | cons v vs ih => simp [eqItems, ih]

theorem eqMembers_image [Double D] {members : List (Text × Json D)} :
    eqMembers members (members.map fun m => (m.1, m.2.image)) = true ↔
      ∀ m ∈ members, m.2.eq m.2.image = true := by
  induction members with
  | nil => simp [eqMembers]
  | cons m ms ih => simp [eqMembers, ih]

theorem noBoolean_iff {v : Json D} :
    NoBoolean v ↔ (∀ b, v ≠ .boolean b) ∧ ∀ u ∈ v.children, NoBoolean u :=
  ⟨fun h => ⟨h.here, h.child⟩, fun h => .mk h.1 h.2⟩

/-- `operator==` tells a boolean from the number that comes back for it, and an integer not from
the float. -/
theorem eq_image_iff [Double D] {v : Json D} (h : Fit v) : v.eq v.image = true ↔ NoBoolean v := by
  induction h with
  | boolean b => exact ⟨nofun, fun h => absurd rfl (h.here b)⟩
  | string => exact ⟨fun _ => .mk nofun nofun, fun _ => by simp [image, fold, Json.eq]⟩
  | @numberUnsigned n lt =>
    have hn := Double.eq_self _ (Double.isFinite_ofInt (D := D) n.toNat (by omega))
    exact ⟨fun _ => .mk nofun nofun, fun _ => by simpa [image, fold, Json.eq] using hn⟩
  | numberInteger n =>
    have hlt := Int64.toInt_lt n
    have hle := Int64.le_toInt n
    have hn := Double.eq_self _ (Double.isFinite_ofInt (D := D) n.toInt (by omega))
    exact ⟨fun _ => .mk nofun nofun, fun _ => by simpa [image, fold, Json.eq] using hn⟩
  | numberFloat finite =>
    have hn := Double.eq_self _ finite
    exact ⟨fun _ => .mk nofun nofun, fun _ => by simpa [image, fold, Json.eq] using hn⟩
  | array hne hlt hfit ih =>
    rw [image_array, Json.eq, eqItems_image, noBoolean_iff]
    exact ⟨fun h => ⟨nofun, fun u hu => (ih u hu).mp (h u hu)⟩,
      fun h u hu => (ih u hu).mpr (h.2 u hu)⟩
  | object hne hsorted hnul hfit ih =>
    rw [image_object, Json.eq, eqMembers_image, noBoolean_iff, children, List.forall_mem_map]
    exact ⟨fun h => ⟨nofun, fun m hm => (ih m hm).mp (h m hm)⟩,
      fun h m hm => (ih m hm).mpr (h.2 m hm)⟩

section

variable [DecidableEq D] [Double D] {v : Json D} {L : Impl D} {s : State D}

/-- What comes back is equal to what was pushed. -/
def RoundTrips (L : Impl D) (s : State D) (v : Json D) : Prop :=
  ∃ fuel, Returns (roundTrip L v fuel) s fun r _ => v.eq r = true

theorem returns_roundTrip {fuel : Nat} (h : Fit v) (hc : Counted v) (hfuel : v.size < fuel) :
    Returns (roundTrip L v fuel) s (fun r _ => v.eq r = true) ↔
      2 * v.height ≤ s.free + 1 ∧ NoBoolean v := by
  obtain ⟨fuel, rfl⟩ : ∃ k, fuel = k + 1 := ⟨fuel - 1, by omega⟩
  have hpos := v.height_pos
  rw [roundTrip, returns_bind, returns_pushJson h hc, State.push, returns_bind,
    returns_popJson h (by omega)]
  simp only [returns_pure, eq_image_iff h, State.free, ← and_assoc]
  refine and_congr_left' ?_
  omega

theorem roundTrips_iff_of_counted (h : Fit v) (hc : Counted v) :
    RoundTrips L s v ↔ 2 * v.height ≤ s.free + 1 ∧ NoBoolean v := by
  constructor
  · rintro ⟨fuel, hfuel⟩
    have hbelow : Below (roundTrip L v fuel) (roundTrip L v (max fuel (v.size + 1))) :=
      .next fun _ => .bind (below_popJson L (Nat.le_max_left _ _) _ _) fun _ => .refl _
    exact (returns_roundTrip h hc (Nat.le_max_right _ _)).mp (hbelow.returns hfuel)
  · exact fun hv => ⟨v.size + 1, (returns_roundTrip h hc (Nat.lt_succ_self _)).mpr hv⟩

end

end Wish.LuaFunction
