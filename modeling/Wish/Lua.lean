import Wish.Prog
import Mathlib.Algebra.GroupWithZero.Nat
import Mathlib.Data.List.Perm.Basic

/-!
# The stack of a Lua state

The C API of Lua as programs over a stack of values, with the faults that the manual leaves
undefined. A table is a value here: this is for tables of which each is reached in one way only,
and for tables that are only read.

* `State`: the stack, the top first, and how many values it has room for.
* `Impl`: what differs between implementations, above all the order of `lua_next`.
* `returns_push`, `returns_rawset`, `returns_next`: what a call needs and what it does.
* `Impl.order_numbered`: a sequence is gone through in the order of its keys.
-/

namespace Lua

open Prog

/-- A string; a C function reads it up to the first NUL. -/
abbrev Text := List Char

/-- `lua_Number`, a floating-point type. -/
class Double (D : Type) where
  /-- the conversion of an integer -/
  ofInt : Int → D
  /-- `==` -/
  eq : D → D → Bool
  IsFinite : D → Prop
  eq_self : ∀ d, IsFinite d → eq d d = true
  isFinite_ofInt : ∀ i : Int, i.natAbs ≤ 2 ^ 64 → IsFinite (ofInt i)

inductive LuaType where
  | none
  | nil
  | boolean
  | lightuserdata
  | number
  | string
  | table
  | function
  | userdata
  | thread
  deriving DecidableEq, Repr

/-- The values that are only passed on. A table is one of them where it is a key. -/
inductive RefType where
  | lightuserdata
  | table
  | function
  | userdata
  | thread
  deriving DecidableEq, Repr

def RefType.type : RefType → LuaType
  | .lightuserdata => .lightuserdata
  | .table => .table
  | .function => .function
  | .userdata => .userdata
  | .thread => .thread

inductive Key (D : Type) where
  | boolean (b : Bool)
  | integer (n : Int64)
  | number (d : D)
  | string (s : Text)
  | reference (t : RefType) (address : Nat)
  deriving DecidableEq

/-- A table has its entries in the order in which they were made. -/
inductive Value (D : Type) where
  | nil
  | boolean (b : Bool)
  | integer (n : Int64)
  | number (d : D)
  | string (s : Text)
  | table (entries : List (Key D × Value D))
  | reference (t : RefType) (address : Nat)

variable {D : Type}

def Key.value : Key D → Value D
  | .boolean b => .boolean b
  | .integer n => .integer n
  | .number d => .number d
  | .string s => .string s
  | .reference t address => .reference t address

namespace Value

def type : Value D → LuaType
  | .nil => .nil
  | .boolean _ => .boolean
  | .integer _ | .number _ => .number
  | .string _ => .string
  | .table _ => .table
  | .reference t _ => t.type

def key? : Value D → Option (Key D)
  | .boolean b => some (.boolean b)
  | .integer n => some (.integer n)
  | .number d => some (.number d)
  | .string s => some (.string s)
  | .reference t address => some (.reference t address)
  | .nil | .table _ => none

@[simp] theorem key?_value (k : Key D) : k.value.key? = some k := by cases k <;> rfl

end Value

abbrev Entries (D : Type) := List (Key D × Value D)

/-- The integers from 1 on, up to the first one that is not a key. -/
def InSequence (es : Entries D) (n : Int64) : Prop :=
  0 < n.toInt ∧ ∀ i : Int64, 0 < i.toInt → i.toInt ≤ n.toInt → .integer i ∈ es.map Prod.fst

/-- The entries with the keys from `idx + 1` on. -/
def numbered {β : Type} : Nat → List β → List (Key D × β)
  | _, [] => []
  | idx, v :: vs => (.integer (Int64.ofNat (idx + 1)), v) :: numbered (idx + 1) vs

/-- What the manual leaves to the implementation. -/
structure Impl (D : Type) where
  /-- the order in which `lua_next` goes through a table -/
  order : Entries D → Entries D
  order_perm : ∀ es, (order es).Perm es
  order_sequence : ∀ es, (es.map Prod.fst).Nodup → (order es).Pairwise fun a b => ∀ n i,
    a.1 = .integer n → b.1 = .integer i → InSequence es n → InSequence es i → n.toInt < i.toInt
  integerText : Int64 → Text
  numberText : D → Text

/-- The integer keys first, in their order. -/
def Key.le : Key D → Key D → Bool
  | .integer n, .integer i => n.toInt ≤ i.toInt
  | _, .integer _ => false
  | _, _ => true

theorem Key.le_total (a b : Key D) : (a.le b || b.le a) = true := by
  cases a with
  | integer n =>
    cases b with
    | integer i => simpa [Key.le] using Int.le_total n.toInt i.toInt
    | _ => rfl
  | _ => cases b <;> rfl

theorem Key.le_trans {a b c : Key D} (hab : a.le b = true) (hbc : b.le c = true) :
    a.le c = true := by
  cases c with
  | integer i =>
    cases b with
    | integer m =>
      cases a with
      | integer n =>
        simp only [Key.le, decide_eq_true_eq] at hab hbc ⊢
        exact Int.le_trans hab hbc
      | _ => cases hab
    | _ => cases hbc
  | _ => cases a <;> rfl

/-- The implementation that sorts a table. -/
def Impl.ascending (numberText : D → Text) : Impl D where
  order es := es.mergeSort fun a b => a.1.le b.1
  order_perm es := List.mergeSort_perm es _
  order_sequence es hnodup := by
    have hsorted : (es.mergeSort fun a b => a.1.le b.1).Pairwise fun a b => a.1.le b.1 :=
      List.pairwise_mergeSort (fun a b c => Key.le_trans (a := a.1) (b := b.1) (c := c.1))
        (fun a b => Key.le_total a.1 b.1) es
    have hkeys := ((List.mergeSort_perm es fun a b => a.1.le b.1).map Prod.fst).nodup_iff.mpr hnodup
    refine (hsorted.and (List.pairwise_map.mp hkeys)).imp ?_
    rintro a b ⟨hle, hne⟩ n i hn hi - -
    rw [hn, hi] at hle hne
    have hni : n.toInt ≠ i.toInt := fun h => hne (congrArg Key.integer (Int64.toInt_inj.mp h))
    exact Int.lt_iff_le_and_ne.mpr ⟨of_decide_eq_true hle, hni⟩
  integerText n := (toString n.toInt).toList
  numberText := numberText

structure State (D : Type) where
  stack : List (Value D)
  /-- how many values the stack has room for -/
  slots : Nat

inductive Fault where
  /-- out of fuel -/
  | stuck
  /-- there is no room on the stack -/
  | overflow
  /-- the value is not a table -/
  | notTable
  /-- `lua_next` with a key that is not in the table -/
  | badKey
  /-- a `luaL_check` function -/
  | argument
  deriving DecidableEq, Repr

abbrev LuaProg (D α : Type) := Prog Fault (State D) α

namespace State

/-- An acceptable index: from the bottom if it is positive, and from the top if it is negative. -/
def value? (s : State D) (i : Int) : Option (Value D) :=
  if 0 < i then s.stack.reverse[(i - 1).toNat]? else if i < 0 then s.stack[(-i - 1).toNat]? else none

def setAt (s : State D) (i : Int) (v : Value D) : State D :=
  { s with
    stack := if 0 < i then (s.stack.reverse.set (i - 1).toNat v).reverse
      else s.stack.set (-i - 1).toNat v }

def push (s : State D) (v : Value D) : State D := { s with stack := v :: s.stack }

def drop (s : State D) (n : Nat) : State D := { s with stack := s.stack.drop n }

/-- The free slots. -/
def free (s : State D) : Nat := s.slots - s.stack.length

end State

def push (v : Value D) : LuaProg D Unit := do
  let s ← MonadState.get
  if 0 < s.free then modify fun s => s.push v else throw .overflow

@[simp] theorem value?_top {v : Value D} {stack : List (Value D)} {n : Nat} :
    (State.mk (v :: stack) n).value? (-1) = some v := rfl

@[simp] theorem value?_below {v v' : Value D} {stack : List (Value D)} {n : Nat} :
    (State.mk (v' :: v :: stack) n).value? (-2) = some v := rfl

/-- What is pushed is above a valid index. -/
theorem value?_push {s : State D} {v w : Value D} {i : Int} (h : s.value? i = some v) :
    (s.push w).value? (if i ≥ 0 then i else i - 1) = some v := by
  unfold State.value? at h
  split at h
  · next hpos =>
    have hge : i ≥ 0 := by omega
    rw [if_pos hge, State.value?, if_pos hpos, State.push, List.reverse_cons]
    exact (List.getElem?_append_left (List.getElem?_eq_some_iff.mp h).1).trans h
  · split at h
    · next hneg =>
      have hlt : ¬ i ≥ 0 := by omega
      have hidx : (-(i - 1) - 1).toNat = (-i - 1).toNat + 1 := by omega
      rw [if_neg hlt, State.value?, if_neg (by omega), if_pos (by omega), State.push, hidx,
        List.getElem?_cons_succ]
      exact h
    · cases h

theorem returns_push {v : Value D} {s : State D} {Q : Unit → State D → Prop} :
    Returns (push v) s Q ↔ 0 < s.free ∧ Q () (s.push v) := by
  simp only [push, returns_bind, returns_get]
  by_cases hfree : 0 < s.free
  · simp [hfree]
  · simp [hfree]

/-- `lua_createtable`; its arguments are hints. -/
def createtable : LuaProg D Unit := push (.table [])

def pop (n : Nat) : LuaProg D Unit := modify fun s => s.drop n

/-- `lua_type` -/
def type (i : Int) : LuaProg D LuaType := do
  let s ← MonadState.get
  match s.value? i with
  | none => pure .none
  | some v => pure v.type

/-- `lua_toboolean` -/
def toboolean (i : Int) : LuaProg D Bool := do
  let s ← MonadState.get
  match s.value? i with
  | none | some .nil | some (.boolean false) => pure false
  | _ => pure true

/-- `luaL_checknumber`, of a number -/
def checknumber [Double D] (i : Int) : LuaProg D D := do
  let s ← MonadState.get
  match s.value? i with
  | some (.integer n) => pure (Double.ofInt n.toInt)
  | some (.number d) => pure d
  | _ => throw .argument

/-- `luaL_checkstring`; a number is made a string where it is. -/
def checkstring (L : Impl D) (i : Int) : LuaProg D Text := do
  let s ← MonadState.get
  match s.value? i with
  | some (.string t) => pure t
  | some (.integer n) =>
    modify fun s => s.setAt i (.string (L.integerText n))
    pure (L.integerText n)
  | some (.number d) =>
    modify fun s => s.setAt i (.string (L.numberText d))
    pure (L.numberText d)
  | _ => throw .argument

/-! ## Sequences -/

section

variable {β : Type} {l : List β} {idx : Nat}

theorem map_fst_numbered : (numbered (D := D) idx l).map Prod.fst =
    (List.range' (idx + 1) l.length).map fun i => .integer (Int64.ofNat i) := by
  induction l generalizing idx with
  | nil => rfl
  | cons v vs ih =>
    rw [numbered, List.map_cons, ih, List.length_cons, List.range'_succ, List.map_cons]

theorem map_snd_numbered : (numbered (D := D) idx l).map Prod.snd = l := by
  induction l generalizing idx with
  | nil => rfl
  | cons v vs ih => rw [numbered, List.map_cons, ih]

theorem numbered_map {γ : Type} {f : β → γ} :
    numbered (D := D) idx (l.map f) = (numbered idx l).map fun r => (r.1, f r.2) := by
  induction l generalizing idx with
  | nil => rfl
  | cons v vs ih => rw [List.map_cons, numbered, ih, numbered, List.map_cons]

theorem mem_keys_numbered (hlt : l.length < 2 ^ 63) {k : Key D} :
    k ∈ (numbered 0 l).map Prod.fst ↔
      ∃ i : Int64, k = .integer i ∧ 0 < i.toInt ∧ i.toInt ≤ l.length := by
  rw [map_fst_numbered, List.mem_map]
  constructor
  · rintro ⟨i, hi, rfl⟩
    rw [List.mem_range'_1] at hi
    refine ⟨_, rfl, ?_⟩
    rw [Int64.toInt_ofNat_of_lt (by omega)]
    omega
  · rintro ⟨i, rfl, hpos, hle⟩
    refine ⟨i.toInt.toNat, List.mem_range'_1.mpr (by omega), ?_⟩
    rw [Key.integer.injEq, ← Int64.toInt_inj, Int64.toInt_ofNat_of_lt (by omega)]
    omega

theorem pairwise_keys_numbered (hlt : l.length < 2 ^ 63) :
    ((numbered (D := D) 0 l).map Prod.fst).Pairwise fun a b => ∀ n i, a = .integer n →
      b = .integer i → n.toInt < i.toInt := by
  rw [map_fst_numbered, List.pairwise_map]
  refine (List.pairwise_lt_range' 1 Nat.one_pos).imp_of_mem ?_
  intro a b ha hb hab n i hn hi
  rw [List.mem_range'_1] at ha hb
  rw [← Key.integer.inj hn, ← Key.integer.inj hi, Int64.toInt_ofNat_of_lt (by omega),
    Int64.toInt_ofNat_of_lt (by omega)]
  omega

theorem nodup_keys_numbered (hlt : l.length < 2 ^ 63) :
    ((numbered (D := D) 0 l).map Prod.fst).Nodup := by
  refine (pairwise_keys_numbered hlt).imp_of_mem fun {a b} ha hb hab heq => ?_
  obtain ⟨i, hi, -⟩ := (mem_keys_numbered hlt).mp ha
  exact Int.lt_irrefl _ (hab i i hi (heq ▸ hi))

end

/-- `lua_next` goes through a sequence in the order of its keys. -/
theorem Impl.order_numbered (L : Impl D) {l : List (Value D)} (hlt : l.length < 2 ^ 63) :
    L.order (numbered 0 l) = numbered 0 l := by
  have hperm := L.order_perm (numbered 0 l)
  have hmem : ∀ e ∈ L.order (numbered 0 l), ∃ i : Int64,
      e.1 = .integer i ∧ 0 < i.toInt ∧ i.toInt ≤ l.length := fun e he =>
    (mem_keys_numbered hlt).mp (List.mem_map_of_mem (hperm.mem_iff.mp he))
  have hseq : ∀ e ∈ L.order (numbered 0 l), ∀ i, e.1 = .integer i →
      InSequence (numbered 0 l) i := by
    intro e he i hi
    obtain ⟨j, hj, hpos, hle⟩ := hmem e he
    cases Key.integer.inj (hi.symm.trans hj)
    exact ⟨hpos, fun m hm hmi => (mem_keys_numbered hlt).mpr ⟨m, rfl, hm, Int.le_trans hmi hle⟩⟩
  refine hperm.eq_of_pairwise (fun a b ha hb hab hba => ?_)
    ((L.order_sequence _ (nodup_keys_numbered hlt)).imp_of_mem fun {a b} ha hb h n i hn hi =>
      h n i hn hi (hseq a ha n hn) (hseq b hb i hi))
    (List.pairwise_map.mp (pairwise_keys_numbered hlt))
  obtain ⟨i, hi, -⟩ := hmem a ha
  obtain ⟨j, hj, -⟩ := hmem b (hperm.mem_iff.mpr hb)
  exact absurd (hab i j hi hj) (Int.lt_asymm (hba j i hj hi))

variable [DecidableEq D]

/-- Assign to a key; there is no entry with the value nil. -/
def setEntry (es : Entries D) (k : Key D) : Value D → Entries D
  | .nil => es.filter fun e => e.1 ≠ k
  | v => if k ∈ es.map Prod.fst then es.map fun e => if e.1 = k then (k, v) else e else es ++ [(k, v)]

/-- `lua_rawseti` and `lua_setfield` with the index -2: the value at the top goes into the table
below it, which has no metatable. -/
def rawset (k : Key D) : LuaProg D Unit := do
  let s ← MonadState.get
  match s.stack with
  | v :: .table es :: rest => modify fun s => { s with stack := .table (setEntry es k v) :: rest }
  | _ => throw .notTable

/-- The entry after that of the key. -/
def after (k : Key D) : Entries D → Option (Option (Key D × Value D))
  | [] => none
  | e :: es => if e.1 = k then some es.head? else after k es

/-- The entry after that of the key at the top of the stack, the first one after nil. -/
def following (es : Entries D) (k : Value D) : Option (Option (Key D × Value D)) :=
  match k with
  | .nil => some es.head?
  | _ => k.key?.bind fun k => after k es

/-- `lua_next`: a key is popped, and the next one is pushed with its value. -/
def next (L : Impl D) (i : Int) : LuaProg D Bool := do
  let s ← MonadState.get
  match s.stack, s.value? i with
  | k :: _, some (.table es) =>
    match following (L.order es) k with
    | none => throw .badKey
    | some none =>
      pop 1
      pure false
    | some (some e) =>
      pop 1
      push e.1.value
      push e.2
      pure true
  | _, _ => throw .notTable

/-! ## Tables -/

variable {L : Impl D} {v : Value D} {es : Entries D} {k : Key D} {stack : List (Value D)}

theorem returns_rawset {n : Nat} {Q : Unit → State D → Prop} :
    Returns (rawset k) ⟨v :: .table es :: stack, n⟩ Q ↔
      Q () ⟨.table (setEntry es k v) :: stack, n⟩ := by
  simp [rawset]

theorem after_append {done todo : Entries D} (hk : k ∉ done.map Prod.fst) :
    after k (done ++ (k, v) :: todo) = some todo.head? := by
  induction done with
  | nil => exact if_pos rfl
  | cons e done ih =>
    obtain ⟨hne, hdone⟩ := not_or.mp (List.mem_cons.not.mp hk)
    exact (if_neg (Ne.symm hne)).trans (ih hdone)

theorem following_value (es : Entries D) (k : Key D) : following es k.value = after k es := by
  cases k <;> rfl

/-- From an entry, `lua_next` comes to the next one. -/
theorem following_of_split {done todo : Entries D} {e : Key D × Value D}
    (hnodup : (es.map Prod.fst).Nodup) (hsplit : es = done ++ e :: todo) :
    following es e.1.value = some todo.head? := by
  rw [hsplit, List.map_append, List.map_cons] at hnodup
  rw [following_value, hsplit]
  exact after_append fun hmem => (List.nodup_append.mp hnodup).2.2 _ hmem _ List.mem_cons_self rfl

theorem mem_of_after {e : Key D × Value D} (h : after k es = some (some e)) : e ∈ es := by
  induction es with
  | nil => cases h
  | cons e' es ih =>
    unfold after at h
    split at h
    · exact List.mem_cons_of_mem _ (List.mem_of_mem_head? (Option.some.inj h))
    · exact List.mem_cons_of_mem _ (ih h)

theorem mem_of_following {key : Value D} {e : Key D × Value D}
    (h : following es key = some (some e)) : e ∈ es := by
  unfold following at h
  split at h
  · exact List.mem_of_mem_head? (Option.some.inj h)
  · obtain ⟨k, -, hk⟩ := Option.bind_eq_some_iff.mp h
    exact mem_of_after hk

/-- There is room for the key and the value. -/
theorem returns_next_at {key : Value D} {e : Key D × Value D} {n : Nat} {i : Int}
    {Q : Bool → State D → Prop} (hi : (State.mk (key :: stack) n).value? i = some (.table es))
    (h : following (L.order es) key = some (some e)) :
    Returns (next L i) ⟨key :: stack, n⟩ Q ↔
      stack.length + 2 ≤ n ∧ Q true ⟨e.2 :: e.1.value :: stack, n⟩ := by
  simp only [next, returns_bind, returns_get, hi, h, pop, returns_modify, returns_push,
    returns_pure, State.push, State.drop, State.free, List.drop_succ_cons, List.drop_zero,
    List.length_cons, ← and_assoc]
  refine and_congr_left' ?_
  omega

theorem returns_next_end_at {key : Value D} {n : Nat} {i : Int} {Q : Bool → State D → Prop}
    (hi : (State.mk (key :: stack) n).value? i = some (.table es))
    (h : following (L.order es) key = some none) :
    Returns (next L i) ⟨key :: stack, n⟩ Q ↔ Q false ⟨stack, n⟩ := by
  simp only [next, returns_bind, returns_get, hi, h, pop, returns_modify, returns_pure,
    State.drop, List.drop_succ_cons, List.drop_zero]

theorem returns_next {key : Value D} {e : Key D × Value D} {n : Nat} {Q : Bool → State D → Prop}
    (h : following (L.order es) key = some (some e)) :
    Returns (next L (-2)) ⟨key :: .table es :: stack, n⟩ Q ↔
      stack.length + 3 ≤ n ∧ Q true ⟨e.2 :: e.1.value :: .table es :: stack, n⟩ :=
  returns_next_at value?_below h

theorem returns_next_end {key : Value D} {n : Nat} {Q : Bool → State D → Prop}
    (h : following (L.order es) key = some none) :
    Returns (next L (-2)) ⟨key :: .table es :: stack, n⟩ Q ↔ Q false ⟨.table es :: stack, n⟩ :=
  returns_next_end_at value?_below h

omit [DecidableEq D] in
theorem ensures_push {s : State D} {Q : Unit → State D → Prop} (h : Q () (s.push v)) :
    Ensures (push v) s Q := by
  refine ensures_bind.mpr (ensures_get.mpr ?_)
  split
  · exact ensures_modify.mpr h
  · exact ensures_throw

theorem ensures_rawset {n : Nat} {Q : Unit → State D → Prop}
    (h : Q () ⟨.table (setEntry es k v) :: stack, n⟩) :
    Ensures (rawset k) ⟨v :: .table es :: stack, n⟩ Q :=
  ensures_bind.mpr (ensures_get.mpr (ensures_modify.mpr h))

theorem ensures_next_at {key : Value D} {n : Nat} {i : Int} {Q : Bool → State D → Prop}
    (hi : (State.mk (key :: stack) n).value? i = some (.table es))
    (hend : following (L.order es) key = some none → Q false ⟨stack, n⟩)
    (hsome : ∀ e, following (L.order es) key = some (some e) →
      Q true ⟨e.2 :: e.1.value :: stack, n⟩) :
    Ensures (next L i) ⟨key :: stack, n⟩ Q := by
  refine ensures_bind.mpr (ensures_get.mpr ?_)
  simp only [hi]
  split
  · exact ensures_throw
  · next h => exact ensures_bind.mpr (ensures_modify.mpr (ensures_pure.mpr (hend h)))
  · next e he =>
    refine ensures_bind.mpr (ensures_modify.mpr (ensures_bind.mpr (ensures_push ?_)))
    exact ensures_bind.mpr (ensures_push (ensures_pure.mpr (hsome e he)))

theorem ensures_next {key : Value D} {n : Nat} {Q : Bool → State D → Prop}
    (hend : Q false ⟨.table es :: stack, n⟩)
    (hsome : ∀ e, following (L.order es) key = some (some e) →
      Q true ⟨e.2 :: e.1.value :: .table es :: stack, n⟩) :
    Ensures (next L (-2)) ⟨key :: .table es :: stack, n⟩ Q :=
  ensures_next_at value?_below (fun _ => hend) hsome

theorem setEntry_of_not_mem (hv : v ≠ .nil) (hk : k ∉ es.map Prod.fst) :
    setEntry es k v = es ++ [(k, v)] := by
  cases v with
  | nil => exact absurd rfl hv
  | boolean | integer | number | string | table | reference => exact if_neg hk

theorem setEntry_of_mem (hv : v ≠ .nil) (hk : k ∈ es.map Prod.fst) :
    setEntry es k v = es.map fun e => if e.1 = k then (k, v) else e := by
  cases v with
  | nil => exact absurd rfl hv
  | boolean | integer | number | string | table | reference => exact if_pos hk

theorem map_fst_setEntry (hv : v ≠ .nil) : (setEntry es k v).map Prod.fst =
    if k ∈ es.map Prod.fst then es.map Prod.fst else es.map Prod.fst ++ [k] := by
  split
  · next hk =>
    rw [setEntry_of_mem hv hk, List.map_map]
    refine List.map_congr_left fun e _ => ?_
    show (if e.1 = k then (k, v) else e).1 = e.1
    split
    · next he => exact he.symm
    · rfl
  · next hk => rw [setEntry_of_not_mem hv hk, List.map_append, List.map_cons, List.map_nil]

theorem mem_setEntry {e : Key D × Value D} (hv : v ≠ .nil) (h : e ∈ setEntry es k v) :
    e ∈ es ∨ e = (k, v) := by
  by_cases hk : k ∈ es.map Prod.fst
  · rw [setEntry_of_mem hv hk] at h
    obtain ⟨e', he', rfl⟩ := List.mem_map.mp h
    split
    · exact Or.inr rfl
    · exact Or.inl he'
  · rwa [setEntry_of_not_mem hv hk, List.mem_append, List.mem_singleton] at h

/-! ## What is in a value -/

namespace Value

mutual

/-- How many values there are in it. -/
def size : Value D → Nat
  | .table es => sizes es + 1
  | _ => 1

def sizes : List (Key D × Value D) → Nat
  | [] => 0
  | (_, v) :: es => v.size + sizes es

end

/-- A table has each key once, and its keys are like this. -/
inductive Tidy (p : Key D → Prop) : Value D → Prop
  | other {v : Value D} (type : v.type ≠ .table) : Tidy p v
  | table {es : Entries D} (nodup : (es.map Prod.fst).Nodup) (keys : ∀ e ∈ es, p e.1)
      (values : ∀ e ∈ es, Tidy p e.2) : Tidy p (.table es)

end Value

omit [DecidableEq D] in
theorem Value.size_pos (v : Value D) : 0 < v.size := by
  cases v with
  | table es => exact Nat.succ_pos _
  | nil | boolean | integer | number | string | reference => exact Nat.one_pos

omit [DecidableEq D] in
theorem Value.sizes_eq : Value.sizes es = (es.map fun e => e.2.size).sum := by
  induction es with
  | nil => rfl
  | cons e es ih => rw [Value.sizes, ih, List.map_cons, List.sum_cons]

omit [DecidableEq D] in
theorem Value.sizes_append {es' : Entries D} :
    Value.sizes (es ++ es') = Value.sizes es + Value.sizes es' := by
  rw [Value.sizes_eq, Value.sizes_eq, Value.sizes_eq, List.map_append, List.sum_append]

omit [DecidableEq D] in
theorem Value.sizes_perm {es' : Entries D} (h : es.Perm es') : Value.sizes es = Value.sizes es' := by
  induction h with
  | nil => rfl
  | cons e _ ih => rw [Value.sizes, Value.sizes, ih]
  | swap e e' es =>
    simp only [Value.sizes]
    omega
  | trans _ _ ih ih' => exact ih.trans ih'

/-- Only one entry can be replaced. -/
theorem Value.sizes_setEntry_le (hv : v ≠ .nil) (hnodup : (es.map Prod.fst).Nodup) :
    Value.sizes (setEntry es k v) ≤ Value.sizes es + v.size := by
  by_cases hk : k ∈ es.map Prod.fst
  · rw [setEntry_of_mem hv hk]
    clear hk
    induction es with
    | nil => exact Nat.zero_le _
    | cons e es ih =>
      obtain ⟨hfresh, hnodup⟩ := List.nodup_cons.mp hnodup
      rw [List.map_cons]
      by_cases he : e.1 = k
      · have hne : ∀ e' ∈ es, e'.1 ≠ k := fun e' he' hek =>
          hfresh (he.trans hek.symm ▸ List.mem_map_of_mem he')
        have hrest : (es.map fun e => if e.1 = k then (k, v) else e) = es :=
          (List.map_congr_left fun e' he' => if_neg (hne e' he')).trans (List.map_id es)
        rw [if_pos he, hrest, Value.sizes, Value.sizes]
        omega
      · have hle := ih hnodup
        rw [if_neg he, Value.sizes, Value.sizes]
        omega
  · rw [setEntry_of_not_mem hv hk, Value.sizes_append]
    exact Nat.le_refl _

omit [DecidableEq D] in
theorem Value.Tidy.entries {p : Key D → Prop} (h : Value.Tidy p (.table es)) :
    (es.map Prod.fst).Nodup ∧ (∀ e ∈ es, p e.1) ∧ ∀ e ∈ es, Value.Tidy p e.2 := by
  cases h with
  | other type => exact absurd rfl type
  | table nodup keys values => exact ⟨nodup, keys, values⟩

theorem Value.Tidy.setEntry {p : Key D → Prop} (h : Value.Tidy p (.table es)) (hk : p k)
    (hv : v ≠ .nil) (hvalue : Value.Tidy p v) : Value.Tidy p (.table (setEntry es k v)) := by
  obtain ⟨nodup, keys, values⟩ := h.entries
  refine .table ?_ (fun e he => ?_) fun e he => ?_
  · rw [map_fst_setEntry hv]
    split
    · exact nodup
    · next hk =>
      refine List.nodup_append.mpr ⟨nodup, List.pairwise_singleton _ _, ?_⟩
      rintro a ha b hb rfl
      exact hk (List.mem_singleton.mp hb ▸ ha)
  · rcases mem_setEntry hv he with he | rfl
    · exact keys e he
    · exact hk
  · rcases mem_setEntry hv he with he | rfl
    · exact values e he
    · exact hvalue

end Lua
