import Wish.Core.LuaFunction.Leftover
import Mathlib.Data.List.Nodup

/-!
# The tables that `pop_json` goes through

A key that is read as a string is made one where it is, and then `lua_next` goes on from the
string. `visitJson` is `pop_json` with the entries that it visits (`popJson_eq`), and `Reads` says
that it returns, with the stack as before and each entry of each table visited once.

That is so (`reads_iff`) for the tables in which, in the order of `lua_next`, only strings come
after the key that makes an object.
-/

namespace Lua

variable {D : Type}

/-- An entry of a table in a value, by the keys that lead to it. -/
abbrev Path (D : Type) := List (Key D)

/-- An entry and those below it. -/
def visit (r : Key D × List (Path D)) : List (Path D) := [r.1] :: r.2.map (r.1 :: ·)

namespace Value

mutual

/-- The entries of all the tables in a value. -/
def paths : Value D → List (Path D)
  | .table es => pathsOf es
  | _ => []

def pathsOf : List (Key D × Value D) → List (Path D)
  | [] => []
  | (k, v) :: es => visit (k, v.paths) ++ pathsOf es

end

mutual

/-- The slots that it takes to go through it: a key and a value for each level, nil for an empty
table. -/
def room : Value D → Nat
  | .table es => max 1 (roomOf es)
  | _ => 0

def roomOf : List (Key D × Value D) → Nat
  | [] => 0
  | (_, v) :: es => max (v.room + 2) (roomOf es)

end

theorem paths_table (es : Entries D) :
    paths (.table es) = (es.map fun e => (e.1, e.2.paths)).flatMap visit := by
  rw [paths]
  induction es with
  | nil => rfl
  | cons e es ih => rw [pathsOf, ih, List.map_cons, List.flatMap_cons]

theorem room_table_le_iff {es : Entries D} {n : Nat} :
    room (.table es) ≤ n ↔ 0 < n ∧ ∀ e ∈ es, e.2.room + 2 ≤ n := by
  rw [room, max_le_iff]
  refine and_congr_right' ?_
  induction es with
  | nil => simp [roomOf]
  | cons e es ih => rw [roomOf, max_le_iff, ih, List.forall_mem_cons]

end Value

theorem nil_notMem_visits (rows : List (Key D × List (Path D))) : [] ∉ rows.flatMap visit := by
  rw [List.mem_flatMap]
  rintro ⟨r, -, hr⟩
  rcases List.mem_cons.mp hr with hr | hr
  · cases hr
  · obtain ⟨p, -, hp⟩ := List.mem_map.mp hr
    cases hp

theorem Value.nil_notMem_paths (v : Value D) : [] ∉ v.paths := by
  cases v with
  | table es =>
    rw [paths_table]
    exact nil_notMem_visits _
  | _ => exact List.not_mem_nil

/-! The entries of a table itself, and those below one of them. -/

section

variable {rows rows' : List (Key D × List (Path D))}

def Path.top : Path D → Option (Key D)
  | [k] => some k
  | _ => none

theorem filterMap_top (hrows : ∀ r ∈ rows, [] ∉ r.2) :
    (rows.flatMap visit).filterMap Path.top = rows.map Prod.fst := by
  induction rows with
  | nil => rfl
  | cons r rows ih =>
    obtain ⟨hr, hrows⟩ := List.forall_mem_cons.mp hrows
    have hbelow : (r.2.map (r.1 :: ·)).filterMap Path.top = [] := by
      rw [List.filterMap_eq_nil_iff, List.forall_mem_map]
      intro p hp
      cases p with
      | nil => exact absurd hp hr
      | cons k p => rfl
    rw [List.flatMap_cons, List.filterMap_append, ih hrows, visit, List.map_cons]
    show r.1 :: (r.2.map (r.1 :: ·)).filterMap Path.top ++ rows.map Prod.fst = _
    rw [hbelow, List.cons_append, List.nil_append]

variable [DecidableEq D]

def Path.under (k : Key D) : Path D → Option (Path D)
  | [] => none
  | [_] => none
  | k' :: p => if k' = k then some p else none

theorem filterMap_under_visit {r : Key D × List (Path D)} (hr : [] ∉ r.2) (k : Key D) :
    (visit r).filterMap (Path.under k) = if r.1 = k then r.2 else [] := by
  have hbelow : ∀ p ∈ r.2, Path.under k (r.1 :: p) = if r.1 = k then some p else none := by
    intro p hp
    cases p with
    | nil => exact absurd hp hr
    | cons k' p => rfl
  have hvisit : (visit r).filterMap (Path.under k) =
      r.2.filterMap fun p => Path.under k (r.1 :: p) := List.filterMap_map
  rw [hvisit, List.filterMap_congr hbelow]
  split
  · exact List.filterMap_some
  · exact List.filterMap_eq_nil_iff.mpr fun _ _ => rfl

theorem filterMap_under (hrows : ∀ r ∈ rows, [] ∉ r.2) (hnodup : (rows.map Prod.fst).Nodup)
    {r : Key D × List (Path D)} (hr : r ∈ rows) :
    (rows.flatMap visit).filterMap (Path.under r.1) = r.2 := by
  induction rows with
  | nil => cases hr
  | cons r' rows ih =>
    obtain ⟨hr', hrest⟩ := List.forall_mem_cons.mp hrows
    obtain ⟨hfresh, hnodup⟩ := List.nodup_cons.mp hnodup
    rw [List.flatMap_cons, List.filterMap_append, filterMap_under_visit hr']
    rcases List.mem_cons.mp hr with rfl | hr
    · have hnone : (rows.flatMap visit).filterMap (Path.under r.1) = [] := by
        rw [List.filterMap_flatMap, List.flatMap_eq_nil_iff]
        intro r' hmem
        have hne : ¬ r'.1 = r.1 := fun he => hfresh (he ▸ List.mem_map_of_mem hmem)
        rw [filterMap_under_visit (hrest r' hmem), if_neg hne]
      rw [if_pos rfl, hnone, List.append_nil]
    · have hne : ¬ r'.1 = r.1 := fun he => hfresh (he ▸ List.mem_map_of_mem hr)
      rw [if_neg hne, List.nil_append, ih hrest hnodup hr]

/-- Two tables with the same entries, below as well. -/
theorem perm_of_visits (h : (rows.flatMap visit).Perm (rows'.flatMap visit))
    (hrows : ∀ r ∈ rows, [] ∉ r.2) (hrows' : ∀ r ∈ rows', [] ∉ r.2)
    (hnodup : (rows'.map Prod.fst).Nodup) :
    (rows.map Prod.fst).Perm (rows'.map Prod.fst) ∧
      ∀ r ∈ rows, ∀ r' ∈ rows', r.1 = r'.1 → r.2.Perm r'.2 := by
  have hkeys : (rows.map Prod.fst).Perm (rows'.map Prod.fst) := by
    rw [← filterMap_top hrows, ← filterMap_top hrows']
    exact h.filterMap _
  refine ⟨hkeys, fun r hr r' hr' he => ?_⟩
  have hperm := h.filterMap (Path.under r.1)
  rwa [filterMap_under hrows (hkeys.nodup_iff.mpr hnodup) hr, he,
    filterMap_under hrows' hnodup hr'] at hperm

end

end Lua

namespace Wish.LuaFunction

open Lua Prog

variable {D : Type}

/-! ## The entries that are visited -/

/-- What a round of the loop does with a value. -/
def store (L : Impl D) (value obj : Json D) : LuaProg D (Json D) := do
  let obj ← match obj with
    | .null => do
      let table_type ← Lua.type (-2)
      match table_type with
      | .number => pure (.array [])
      | .string => pure (.object [])
      | _ => pure .null
    | obj => pure obj
  match obj with
    | .array items => pure (.array (items ++ [value]))
    | .object members => do
      let key ← checkstring L (-2)
      pure (.object (OrdMap.insertEntry (cStr key) value members))
    | obj => pure obj

section

variable [DecidableEq D]

theorem popEntry_eq (L : Impl D) (popValue : LuaProg D (LuaType × Json D)) (table_pos : Int)
    (obj : Json D) : popEntry L popValue table_pos obj = (do
      let more ← next L table_pos
      if more then
        let value ← popValue
        let obj ← store L value.2 obj
        Lua.pop 1
        pure (.inl obj)
      else pure (.inr obj)) := by
  refine congrArg (next L table_pos >>= ·) (funext fun more => ?_)
  cases more with
  | false => rfl
  | true =>
    refine congrArg (popValue >>= ·) (funext fun value => ?_)
    cases obj with
    | null =>
      rw [store, bind_assoc]
      refine congrArg (Lua.type (-2) >>= ·) (funext fun table_type => ?_)
      cases table_type with
      | string => simp only [pure_bind, bind_assoc]
      | _ => rfl
    | object =>
      unfold store
      simp only [pure_bind, bind_assoc]
    | _ => rfl

/-- `popEntry`, with the entries that have been visited. -/
def visitEntry (L : Impl D) (visitValue : LuaProg D ((LuaType × Json D) × List (Path D)))
    (table_pos : Int) (acc : Json D × List (Path D)) :
    LuaProg D ((Json D × List (Path D)) ⊕ (Json D × List (Path D))) := do
  let more ← next L table_pos
  if more then
    let s ← MonadState.get
    let key := (s.value? (-2)).bind Value.key?
    let value ← visitValue
    let obj ← store L value.1.2 acc.1
    Lua.pop 1
    pure (.inl (obj, acc.2 ++ key.elim [] fun k => visit (k, value.2)))
  else pure (.inr acc)

variable [Double D]

/-- `popJson`, with the entries that it visits. -/
def visitJson (L : Impl D) : Nat → Json D → Int → LuaProg D ((LuaType × Json D) × List (Path D))
  | 0, _, _ => throw .stuck
  | fuel + 1, obj, index => do
    let type ← Lua.type index
    match type with
    | .table => do
      push .nil
      let table_pos := if index ≥ 0 then index else index - 1
      let acc ← loop .stuck (visitEntry L (visitJson L fuel .null (-1)) table_pos) fuel (obj, [])
      pure ((type, acc.1), acc.2)
    | _ => do
      let r ← popJson L (fuel + 1) obj index
      pure (r, [])

omit [Double D] in
theorem popEntry_map {L : Impl D} {visitValue : LuaProg D ((LuaType × Json D) × List (Path D))}
    {table_pos : Int} (acc : Json D × List (Path D)) :
    popEntry L (Prod.fst <$> visitValue) table_pos acc.1 =
      Sum.map Prod.fst Prod.fst <$> visitEntry L visitValue table_pos acc := by
  have hget : ∀ x : LuaProg D (Json D ⊕ Json D), (MonadState.get >>= fun _ => x) = x := fun _ => rfl
  rw [popEntry_eq, visitEntry, map_bind]
  refine congrArg (next L table_pos >>= ·) (funext fun more => ?_)
  cases more with
  | false => exact (map_pure _ _).symm
  | true =>
    simp only [if_true, map_bind, map_pure, bind_map_left, Sum.map_inl, hget]

omit [DecidableEq D] [Double D] in
/-- `lua_type` only looks. -/
theorem type_bind {α : Type} {i : Int} {s : State D} (f : LuaType → LuaProg D α) :
    (Lua.type i >>= f) s = f ((s.value? i).elim .none Value.type) s := by
  cases h : s.value? i with
  | none => exact bind_eq_of_returns (by simp [Lua.type, h])
  | some v => exact bind_eq_of_returns (by simp [Lua.type, h])

/-- **The visits** are of the runs of `pop_json`. -/
theorem popJson_eq (L : Impl D) (fuel : Nat) (obj : Json D) (index : Int) :
    popJson L fuel obj index = Prod.fst <$> visitJson L fuel obj index := by
  induction fuel generalizing obj index with
  | zero => rfl
  | succ fuel ih =>
    funext s
    rw [visitJson, map_bind, type_bind]
    split
    · next htype =>
      rw [popJson, type_bind, htype]
      simp only [map_bind, map_pure]
      refine congrFun (congrArg (push .nil >>= ·) (funext fun _ => ?_)) s
      rw [ih, loop_map (f := Prod.fst) (g := Prod.fst) popEntry_map fuel (obj, []), bind_map_left]
    · simp only [map_bind, map_pure, bind_pure]

theorem below_visitJson (L : Impl D) {n m : Nat} (h : n ≤ m) (obj : Json D) (index : Int) :
    Below (visitJson L n obj index) (visitJson L m obj index) := by
  induction n generalizing m obj index with
  | zero => exact .throw _ _
  | succ n ih =>
    obtain ⟨m, rfl⟩ : ∃ k, m = k + 1 := ⟨m - 1, by omega⟩
    refine .next fun type => ?_
    have hpop := below_popJson L h obj index
    cases type with
    | table =>
      refine .next fun _ => .bind (.loop_mono _ (fun acc => ?_) (by omega) _) fun _ => .refl _
      exact .next fun more => .ite (.next fun s => .bind (ih (by omega) _ _) fun _ => .refl _)
        (.refl _)
    | _ => exact hpop.bind fun _ => .refl _

end

/-! ## What becomes of the keys -/

/-- What `obj` is, as far as the loop goes by it. -/
inductive Mode where
  | null
  | array
  | object
  | other
  deriving DecidableEq

def Json.mode : Json D → Mode
  | .null => .null
  | .array _ => .array
  | .object _ => .object
  | _ => .other

namespace Mode

/-- The `switch` over the type of the key. -/
def next : Mode → Key D → Mode
  | .null, k =>
    match k.value.type with
    | .number => .array
    | .string => .object
    | _ => .null
  | m, _ => m

/-- The key as a round leaves it, unless it cannot be read as a string. -/
def leave (L : Impl D) : Mode → Key D → Option (Key D)
  | .object, .string t => some (.string t)
  | .object, .integer n => some (.string (L.integerText n))
  | .object, .number d => some (.string (L.numberText d))
  | .object, _ => none
  | _, k => some k

/-- Wherever `obj` is an object, the key is a string. -/
def Steady : Mode → List (Key D) → Prop
  | _, [] => True
  | m, k :: ks => (m.next k = .object → k.value.type = .string) ∧ Steady (m.next k) ks

theorem leave_string (L : Impl D) (m : Mode) (t : Text) :
    m.leave L (.string t) = some (.string t) := by cases m <;> rfl

theorem leave_eq_self {L : Impl D} {m : Mode} {k : Key D}
    (h : m = .object → k.value.type = .string) : m.leave L k = some k := by
  cases m with
  | object =>
    cases k with
    | string t => rfl
    | reference t => cases t <;> cases h rfl
    | boolean | integer | number => cases h rfl
  | null | array | other => rfl

theorem exists_string_of_leave {L : Impl D} {k k' : Key D}
    (h : Mode.object.leave L k = some k') : ∃ t, k' = .string t := by
  cases k with
  | string | integer | number => exact ⟨_, (Option.some.inj h).symm⟩
  | boolean | reference => cases h

end Mode

/-- `obj` after the `switch`. -/
def begin (k : Key D) : Json D → Json D
  | .null =>
    match k.value.type with
    | .number => .array []
    | .string => .object []
    | _ => .null
  | obj => obj

theorem mode_begin (k : Key D) (obj : Json D) : (begin k obj).mode = obj.mode.next k := by
  cases obj with
  | null =>
    cases k with
    | reference t => cases t <;> rfl
    | _ => rfl
  | _ => rfl

theorem returns_store_begin (obj : Json D) {L : Impl D} {value : Json D} {k : Key D} {v : Value D}
    {stack : List (Value D)} {n : Nat} {Q : Json D → State D → Prop} :
    Returns (store L value obj) ⟨v :: k.value :: stack, n⟩ Q ↔
      Returns (store L value (begin k obj)) ⟨v :: k.value :: stack, n⟩ Q := by
  cases obj with
  | null =>
    cases k with
    | reference t => cases t <;> simp [store, begin, Key.value, Value.type, RefType.type, Lua.type]
    | _ => simp [store, begin, Key.value, Value.type, Lua.type]
  | _ => rfl

/-- A boolean or a reference makes nothing of null. -/
theorem returns_store_null {L : Impl D} {value obj : Json D} {k : Key D} (h : begin k obj = .null)
    {v : Value D} {stack : List (Value D)} {n : Nat} {Q : Json D → State D → Prop} :
    Returns (store L value .null) ⟨v :: k.value :: stack, n⟩ Q ↔
      Q .null ⟨v :: k.value :: stack, n⟩ := by
  cases obj with
  | null =>
    cases k with
    | boolean => simp [store, Key.value, Value.type, Lua.type]
    | reference t => cases t <;> simp [store, Key.value, Value.type, RefType.type, Lua.type]
    | integer | number | string => cases h
  | _ => cases h

/-- **A round** leaves the key as its mode says. -/
theorem exists_store (L : Impl D) (value obj : Json D) (k : Key D) :
    ∃ obj' : Json D, obj'.mode = obj.mode.next k ∧
      ∀ (v : Value D) (stack : List (Value D)) (n : Nat) (Q : Json D → State D → Prop),
        Returns (store L value obj) ⟨v :: k.value :: stack, n⟩ Q ↔
          ∃ k', (obj.mode.next k).leave L k = some k' ∧ Q obj' ⟨v :: k'.value :: stack, n⟩ := by
  simp only [returns_store_begin obj, ← mode_begin]
  cases hobj : begin k obj with
  | object members =>
    refine ⟨.object (OrdMap.insertEntry (keyText L k) value members), rfl, fun v stack n Q => ?_⟩
    cases k <;> simp [store, Json.mode, Mode.leave, Key.value, checkstring, keyText, State.setAt]
  | array items =>
    refine ⟨.array (items ++ [value]), rfl, fun v stack n Q => ?_⟩
    simp [store, Json.mode, Mode.leave]
  | null =>
    refine ⟨.null, rfl, fun v stack n Q => ?_⟩
    rw [returns_store_null hobj]
    simp [Json.mode, Mode.leave]
  | boolean | string | numberUnsigned | numberInteger | numberFloat | binary =>
    exact ⟨_, rfl, fun v stack n Q => by simp [store, Json.mode, Mode.leave]⟩

/-! ## The way through a table -/

section

variable [DecidableEq D] {L : Impl D} {es : Entries D} {key : Value D} {m : Mode} {k : Key D}
  {ks : List (Key D)}

/-- The keys that a loop visits, from the key at the top on. -/
inductive Trail (L : Impl D) (es : Entries D) : Value D → Mode → List (Key D) → Prop
  | stop {key : Value D} {m : Mode} (last : following (L.order es) key = some none) :
      Trail L es key m []
  | step {key : Value D} {m : Mode} {e : Key D × Value D} {k : Key D} {ks : List (Key D)}
      (follows : following (L.order es) key = some (some e))
      (leaves : (m.next e.1).leave L e.1 = some k) (rest : Trail L es k.value (m.next e.1) ks) :
      Trail L es key m (e.1 :: ks)

theorem Trail.follows (h : Trail L es key m ks) :
    ∃ o, following (L.order es) key = some o ∧ o.map Prod.fst = ks.head? := by
  cases h with
  | stop last => exact ⟨none, last, rfl⟩
  | step follows => exact ⟨_, follows, rfl⟩

/-- What comes after a string is what `lua_next` finds after it. -/
theorem Trail.follows_string (h : Trail L es key m ks) {t : Text} {pre post : List (Key D)}
    (hks : ks = pre ++ .string t :: post) :
    ∃ o, after (.string t) (L.order es) = some o ∧ o.map Prod.fst = post.head? := by
  induction h generalizing pre with
  | stop => exact absurd hks.symm (List.append_ne_nil_of_right_ne_nil _ (List.cons_ne_nil _ _))
  | @step key m e k ks _ leaves rest ih =>
    cases pre with
    | nil =>
      obtain ⟨hk, rfl⟩ := List.cons.inj hks
      rw [hk, Mode.leave_string, Option.some.injEq] at leaves
      subst leaves
      exact rest.follows
    | cons k' pre => exact ih (List.cons.inj hks).2

theorem mem_of_after_eq_some {o : Option (Key D × Value D)} (h : after k es = some o) :
    k ∈ es.map Prod.fst := by
  induction es with
  | nil => cases h
  | cons e es ih =>
    rw [after] at h
    split at h
    · next he => exact he ▸ List.mem_cons_self
    · exact List.mem_cons_of_mem _ (ih h)

/-- In a list without duplicates, what comes after an element tells which it is. -/
theorem eq_of_head?_eq {α : Type} {l pre pre' post post' : List α} {a a' : α} (hl : l.Nodup)
    (h : l = pre ++ a :: post) (h' : l = pre' ++ a' :: post') (hhead : post.head? = post'.head?) :
    a = a' := by
  have hends : pre ++ [a] = pre' ++ [a'] := by
    cases post with
    | nil =>
      cases post' with
      | nil => exact h.symm.trans h'
      | cons x post' => cases hhead
    | cons x post =>
      cases post' with
      | nil => cases hhead
      | cons x' post' =>
        cases hhead
        rw [List.append_cons] at h h'
        have hx := (List.nodup_cons.mp (List.perm_middle.nodup_iff.mp (h' ▸ hl))).1
        rw [List.mem_append, not_or] at hx
        exact ((List.append_cons_inj_of_notMem hx.1 hx.2).mp (h'.symm.trans h)).1.symm
  exact List.head_eq_of_cons_eq (List.append_inj' hends rfl).2

/-- A number that has been made a string is followed by what follows the string. -/
theorem Trail.steady {all pre : List (Key D)} {key' : Value D} {m' : Mode}
    (hall : Trail L es key' m' all) (hnodup : all.Nodup)
    (hmem : ∀ k ∈ (L.order es).map Prod.fst, k ∈ all) (hks : all = pre ++ ks)
    (h : Trail L es key m ks) : m.Steady ks := by
  induction h generalizing pre with
  | stop => trivial
  | @step key m e k ks _ leaves rest ih =>
    refine ⟨fun hobject => ?_, ih (hks.trans (List.append_cons _ _ _))⟩
    obtain ⟨t, rfl⟩ := Mode.exists_string_of_leave (hobject ▸ leaves)
    obtain ⟨o, ho, hhead⟩ := rest.follows
    obtain ⟨pre', post', hstring⟩ := List.mem_iff_append.mp (hmem _ (mem_of_after_eq_some ho))
    obtain ⟨o', ho', hhead'⟩ := hall.follows_string hstring
    have heq : o = o' := Option.some.inj (ho.symm.trans ho')
    have hk := eq_of_head?_eq hnodup hks hstring (hhead.symm.trans (heq ▸ hhead'))
    rw [hk]
    rfl

/-- A steady way is the order of `lua_next`. -/
theorem Trail.eq_keys (h : Trail L es key m ks) (hsteady : m.Steady ks)
    (hnodup : ((L.order es).map Prod.fst).Nodup) {done todo : Entries D}
    (hsplit : L.order es = done ++ todo)
    (hkey : following (L.order es) key = some todo.head?) : ks = todo.map Prod.fst := by
  induction h generalizing done todo with
  | stop last =>
    cases todo with
    | nil => rfl
    | cons => cases last.symm.trans hkey
  | @step key m e k ks follows leaves rest ih =>
    cases todo with
    | nil => cases follows.symm.trans hkey
    | cons e' todo =>
      cases follows.symm.trans hkey
      obtain ⟨hstring, hrest⟩ := hsteady
      rw [Mode.leave_eq_self hstring, Option.some.injEq] at leaves
      subst leaves
      have hnext := following_of_split hnodup hsplit
      exact congrArg (e.1 :: ·) (ih hrest (hsplit.trans (List.append_cons _ _ _)) hnext)

end

/-! ## The runs -/

/-- In each table only strings come after the key that makes an object. -/
inductive Regular (L : Impl D) : Mode → Value D → Prop
  | other {m : Mode} {v : Value D} (type : v.type ≠ .table) : Regular L m v
  | table {m : Mode} {es : Entries D} (keys : m.Steady ((L.order es).map Prod.fst))
      (values : ∀ e ∈ es, Regular L .null e.2) : Regular L m (.table es)

section

variable [DecidableEq D] {L : Impl D} {es : Entries D} {key v : Value D}
  {visitValue : LuaProg D ((LuaType × Json D) × List (Path D))} {stack : List (Value D)} {n : Nat}
  {pos : Int} {acc : Json D × List (Path D)} {P : Key D × Value D → List (Path D) → Prop}

/-- A value that has been looked at, and the entries that have been visited in it. -/
def Looks (P : Key D × Value D → List (Path D) → Prop) (es : Entries D) (stack : List (Value D))
    (n : Nat) (visitValue : LuaProg D ((LuaType × Json D) × List (Path D))) : Prop :=
  ∀ e ∈ es, Ensures visitValue ⟨e.2 :: e.1.value :: stack, n⟩ fun r s' =>
    s' = ⟨e.2 :: e.1.value :: stack, n⟩ ∧ P e r.2

theorem ensures_visitEntry (hat : (State.mk (key :: stack) n).value? pos = some (.table es))
    (hvalue : Looks P es stack n visitValue) :
    Ensures (visitEntry L visitValue pos acc) ⟨key :: stack, n⟩ fun r s' =>
      match r with
      | .inl acc' => ∃ e ∈ es, ∃ k visits, following (L.order es) key = some (some e) ∧
          (acc.1.mode.next e.1).leave L e.1 = some k ∧ P e visits ∧
          acc'.1.mode = acc.1.mode.next e.1 ∧ acc'.2 = acc.2 ++ visit (e.1, visits) ∧
          s' = ⟨k.value :: stack, n⟩
      | .inr acc' => following (L.order es) key = some none ∧ acc' = acc ∧ s' = ⟨stack, n⟩ := by
  rw [visitEntry]
  refine ensures_bind.mpr (ensures_next_at hat (fun hend => ?_) fun e he => ?_)
  · exact ensures_pure.mpr ⟨hend, rfl, rfl⟩
  · have hmem : e ∈ es := (L.order_perm es).mem_iff.mp (mem_of_following he)
    refine ensures_bind.mpr (ensures_get.mpr (ensures_bind.mpr ((hvalue e hmem).mono ?_)))
    rintro ⟨⟨t, value⟩, visits⟩ s' ⟨rfl, hvisits⟩
    obtain ⟨obj, hmode, hstore⟩ := exists_store L value acc.1 e.1
    refine ensures_bind.mpr (ensures_of_returns fun hret => ?_)
    obtain ⟨k, hk, -⟩ := (hstore _ _ _ _).mp hret
    refine (hstore _ _ _ _).mpr ⟨k, hk, ?_⟩
    refine ensures_bind.mpr (ensures_modify.mpr (ensures_pure.mpr ?_))
    refine ⟨e, hmem, k, visits, he, hk, hvisits, hmode, ?_, rfl⟩
    rw [value?_below, Option.bind_some, Value.key?_value]
    rfl

/-- **The loop** goes its way and comes back to the table. -/
theorem ensures_visitLoop (hat : ∀ key, (State.mk (key :: stack) n).value? pos = some (.table es))
    (hvalue : Looks P es stack n visitValue) {fuel : Nat} :
    Ensures (loop .stuck (visitEntry L visitValue pos) fuel acc) ⟨key :: stack, n⟩ fun r s' =>
      s' = ⟨stack, n⟩ ∧ ∃ rows : List (Key D × List (Path D)),
        r.2 = acc.2 ++ rows.flatMap visit ∧ Trail L es key acc.1.mode (rows.map Prod.fst) ∧
        ∀ r ∈ rows, ∃ e ∈ es, e.1 = r.1 ∧ P e r.2 := by
  induction fuel generalizing key acc with
  | zero => exact ensures_throw
  | succ fuel ih =>
    refine ensures_bind.mpr ((ensures_visitEntry (hat key) hvalue).mono fun r s' hr => ?_)
    cases r with
    | inr acc' =>
      obtain ⟨hend, rfl, rfl⟩ := hr
      exact ensures_pure.mpr ⟨rfl, [], (List.append_nil _).symm, .stop hend, nofun⟩
    | inl acc' =>
      obtain ⟨e, hmem, k, visits, he, hk, hvisits, hmode, hacc, rfl⟩ := hr
      refine ih.mono ?_
      rintro r s' ⟨rfl, rows, hr, htrail, hrows⟩
      refine ⟨rfl, (e.1, visits) :: rows, ?_, ?_, ?_⟩
      · rw [hr, hacc, List.flatMap_cons, List.append_assoc]
      · exact .step he hk (hmode ▸ htrail)
      · exact List.forall_mem_cons.mpr ⟨⟨e, hmem, rfl, hvisits⟩, hrows⟩

/-- What the visits in the value of an entry say of it. -/
def Seen (L : Impl D) (e : Key D × Value D) (visits : List (Path D)) : Prop :=
  [] ∉ visits ∧ (visits.Perm e.2.paths → Regular L .null e.2)

/-- If the entries that are visited are all entries, each of them once, the table is regular. -/
theorem regular_of_trail {rows : List (Key D × List (Path D))} {m : Mode}
    (hnodup : (es.map Prod.fst).Nodup) (htrail : Trail L es .nil m (rows.map Prod.fst))
    (hrows : ∀ r ∈ rows, ∃ e ∈ es, e.1 = r.1 ∧ Seen L e r.2)
    (hperm : (rows.flatMap visit).Perm (Value.table es).paths) : Regular L m (.table es) := by
  have hkeys : (es.map fun e => (e.1, e.2.paths)).map Prod.fst = es.map Prod.fst := List.map_map
  rw [Value.paths_table] at hperm
  have hpaths : ∀ r ∈ rows, [] ∉ r.2 := by
    intro r hr
    obtain ⟨e, -, -, hseen⟩ := hrows r hr
    exact hseen.1
  obtain ⟨hfst, hbelow⟩ := perm_of_visits hperm hpaths
    (List.forall_mem_map.mpr fun e _ => e.2.nil_notMem_paths) (hkeys ▸ hnodup)
  rw [hkeys] at hfst
  have horder := (L.order_perm es).map Prod.fst
  have hsteady : m.Steady (rows.map Prod.fst) :=
    htrail.steady (hfst.nodup_iff.mpr hnodup)
      (fun k hk => hfst.mem_iff.mpr (horder.mem_iff.mp hk)) (List.nil_append _).symm htrail
  have heq := htrail.eq_keys hsteady (horder.nodup_iff.mpr hnodup) (List.nil_append _).symm rfl
  refine .table (heq ▸ hsteady) fun e he => ?_
  obtain ⟨r, hr, hre⟩ := List.mem_map.mp (hfst.mem_iff.mpr (List.mem_map_of_mem he))
  obtain ⟨e', he', her, -, hregular⟩ := hrows r hr
  have hsame : e' = e := List.inj_on_of_nodup_map hnodup he' he (her.trans hre)
  rw [hsame] at hregular
  exact hregular (hbelow r hr _ (List.mem_map_of_mem he) hre)

variable [Double D]

/-- A value that is no table is only looked at. -/
theorem exists_popJson (htype : v.type ≠ .table) (L : Impl D) (obj : Json D) :
    ∃ r : LuaType × Json D, ∀ (fuel : Nat) (index : Int) (s : State D), s.value? index = some v →
      popJson L (fuel + 1) obj index s = .ok (r, s) := by
  have hreturns : ∃ r : LuaType × Json D, ∀ (fuel : Nat) (index : Int) (s : State D),
      s.value? index = some v →
        Returns (popJson L (fuel + 1) obj index) s fun r' s' => r' = r ∧ s' = s := by
    cases v with
    | table => exact absurd rfl htype
    | boolean b =>
      refine ⟨(.boolean, .numberInteger (if b then 1 else 0)), fun fuel index s h => ?_⟩
      cases b <;> simp [popJson, Lua.type, h, Value.type, toboolean]
    | reference t =>
      refine ⟨(t.type, .null), fun fuel index s h => ?_⟩
      cases t with
      | table => exact absurd rfl htype
      | _ => simp [popJson, Lua.type, h, Value.type, RefType.type]
    | nil =>
      exact ⟨(.nil, .null), fun fuel index s h => by simp [popJson, Lua.type, h, Value.type]⟩
    | integer i =>
      exact ⟨(.number, .numberFloat (Double.ofInt i.toInt)), fun fuel index s h => by
        simp [popJson, Lua.type, h, Value.type, checknumber]⟩
    | number d =>
      exact ⟨(.number, .numberFloat d), fun fuel index s h => by
        simp [popJson, Lua.type, h, Value.type, checknumber]⟩
    | string t =>
      exact ⟨(.string, .string (cStr t)), fun fuel index s h => by
        simp [popJson, Lua.type, h, Value.type, checkstring]⟩
  obtain ⟨r, hr⟩ := hreturns
  refine ⟨r, fun fuel index s h => ?_⟩
  obtain ⟨_, _, hrun, rfl, rfl⟩ := hr fuel index s h
  exact hrun

theorem exists_visitJson (htype : v.type ≠ .table) (L : Impl D) (obj : Json D) :
    ∃ r : LuaType × Json D, ∀ (fuel : Nat) (index : Int) (s : State D), s.value? index = some v →
      visitJson L (fuel + 1) obj index s = .ok ((r, []), s) := by
  obtain ⟨r, hr⟩ := exists_popJson htype L obj
  refine ⟨r, fun fuel index s h => ?_⟩
  rw [visitJson, type_bind, h, Option.elim_some]
  generalize v.type = t at htype ⊢
  cases t with
  | table => exact absurd rfl htype
  | _ => exact bind_eq_of_returns ⟨r, s, hr fuel index s h, rfl, rfl⟩

/-- The place of the table, with one value above it. -/
def tablePos (index : Int) : Int := if index ≥ 0 then index else index - 1

theorem visitJson_table {s : State D} {index : Int} (h : s.value? index = some (.table es))
    (L : Impl D) (fuel : Nat) (obj : Json D) :
    visitJson L (fuel + 1) obj index s = (push .nil >>= fun _ =>
      loop .stuck (visitEntry L (visitJson L fuel .null (-1)) (tablePos index)) fuel (obj, []) >>=
        fun acc => pure ((.table, acc.1), acc.2)) s := by
  rw [visitJson, type_bind, h]
  rfl

theorem ensures_visitJson {fuel : Nat} {s : State D} {obj : Json D} {index : Int}
    (htidy : v.Tidy fun _ => True) (hat : s.value? index = some v) :
    Ensures (visitJson L fuel obj index) s fun r s' =>
      s' = s ∧ [] ∉ r.2 ∧ (r.2.Perm v.paths → Regular L obj.mode v) := by
  induction fuel generalizing v s obj index with
  | zero => exact ensures_throw
  | succ fuel ih =>
    cases htidy with
    | other htype =>
      obtain ⟨r, hr⟩ := exists_visitJson htype L obj
      intro a s' hx
      cases (hr fuel index s hat).symm.trans hx
      exact ⟨rfl, List.not_mem_nil, fun _ => .other htype⟩
    | @table es nodup keys values =>
      refine (ensures_congr (visitJson_table hat L fuel obj)).mpr ?_
      refine ensures_bind.mpr (ensures_push (ensures_bind.mpr ?_))
      have hlooks : Looks (Seen L) es s.stack s.slots (visitJson L fuel .null (-1)) := fun e he =>
        ih (values e he) value?_top
      refine (ensures_visitLoop (fun key => value?_push (w := key) hat) hlooks).mono ?_
      rintro ⟨obj', visits⟩ s' ⟨rfl, rows, rfl, htrail, hrows⟩
      rw [List.nil_append]
      exact ensures_pure.mpr ⟨rfl, nil_notMem_visits _, regular_of_trail nodup htrail hrows⟩

/-- It takes the room for `w`, visits what is in it and leaves it. -/
def Shows (visitValue : LuaProg D ((LuaType × Json D) × List (Path D))) (w : Value D) : Prop :=
  ∃ r : (LuaType × Json D) × List (Path D), r.2.Perm w.paths ∧
    ∀ (stack : List (Value D)) (n : Nat) (Q : (LuaType × Json D) × List (Path D) → State D → Prop),
      Returns visitValue ⟨w :: stack, n⟩ Q ↔
        w.room ≤ n - (stack.length + 1) ∧ Q r ⟨w :: stack, n⟩

omit [Double D] in
theorem exists_visitEntry {e : Key D × Value D}
    (hnext : following (L.order es) key = some (some e))
    (hstring : acc.1.mode.next e.1 = .object → e.1.value.type = .string)
    (hvalue : Shows visitValue e.2) :
    ∃ obj visits, obj.mode = acc.1.mode.next e.1 ∧ visits.Perm e.2.paths ∧
      ∀ (stack : List (Value D)) (n : Nat) (pos : Int),
        (State.mk (key :: stack) n).value? pos = some (.table es) → ∀ Q,
        (Returns (visitEntry L visitValue pos acc) ⟨key :: stack, n⟩ Q ↔
          e.2.room + 2 ≤ n - stack.length ∧
            Q (.inl (obj, acc.2 ++ visit (e.1, visits))) ⟨e.1.value :: stack, n⟩) := by
  obtain ⟨⟨⟨t, value⟩, visits⟩, hperm, hreturns⟩ := hvalue
  obtain ⟨obj, hmode, hstore⟩ := exists_store L value acc.1 e.1
  refine ⟨obj, visits, hmode, hperm, fun stack n pos hat Q => ?_⟩
  have hround : ∀ Q : Json D → State D → Prop,
      Returns (store L value acc.1) ⟨e.2 :: e.1.value :: stack, n⟩ Q ↔
        Q obj ⟨e.2 :: e.1.value :: stack, n⟩ := by
    intro Q
    rw [hstore, Mode.leave_eq_self hstring]
    simp
  rw [visitEntry, returns_bind, returns_next_at hat hnext, if_pos rfl]
  simp only [returns_bind, returns_get, hreturns, hround, value?_below, Option.bind_some,
    Value.key?_value, Option.elim_some, Lua.pop, returns_modify, returns_pure, State.drop,
    List.drop_succ_cons, List.drop_zero, ← and_assoc]
  refine and_congr_left' ?_
  rw [List.length_cons]
  omega

omit [Double D] in
/-- **The loop** over the rest of a table. -/
theorem exists_visitLoop (acc : Json D × List (Path D)) {done todo : Entries D} {fuel : Nat}
    (hsplit : L.order es = done ++ todo) (hnodup : ((L.order es).map Prod.fst).Nodup)
    (hsteady : acc.1.mode.Steady (todo.map Prod.fst))
    (hvalue : ∀ e ∈ todo, Shows visitValue e.2)
    (hkey : following (L.order es) key = some todo.head?) (hfuel : todo.length < fuel) :
    ∃ obj visits, visits.Perm ((todo.map fun e => (e.1, e.2.paths)).flatMap visit) ∧
      ∀ (stack : List (Value D)) (n : Nat) (pos : Int),
        (∀ key, (State.mk (key :: stack) n).value? pos = some (.table es)) → ∀ Q,
        (Returns (loop .stuck (visitEntry L visitValue pos) fuel acc) ⟨key :: stack, n⟩ Q ↔
          (∀ e ∈ todo, e.2.room + 2 ≤ n - stack.length) ∧
            Q (obj, acc.2 ++ visits) ⟨stack, n⟩) := by
  obtain ⟨fuel, rfl⟩ : ∃ k, fuel = k + 1 := ⟨fuel - 1, by omega⟩
  induction todo generalizing done key acc fuel with
  | nil =>
    refine ⟨acc.1, [], .nil, fun stack n pos hat Q => ?_⟩
    rw [loop, returns_bind, visitEntry, returns_bind, returns_next_end_at (hat key) hkey]
    simp
  | cons e todo ih =>
    rw [List.length_cons] at hfuel
    obtain ⟨fuel, rfl⟩ : ∃ k, fuel = k + 1 := ⟨fuel - 1, by omega⟩
    obtain ⟨hstring, hsteady⟩ := hsteady
    obtain ⟨hshows, hvalue⟩ := List.forall_mem_cons.mp hvalue
    obtain ⟨obj, visits, hmode, hperm, hround⟩ := exists_visitEntry hkey hstring hshows
    have hnext := following_of_split hnodup hsplit
    obtain ⟨obj', visits', hperm', hloop⟩ := ih (obj, acc.2 ++ visit (e.1, visits))
      (hsplit.trans (List.append_cons _ _ _)) (hmode ▸ hsteady) hvalue hnext fuel (by omega)
    refine ⟨obj', visit (e.1, visits) ++ visits', ?_, fun stack n pos hat Q => ?_⟩
    · rw [List.map_cons, List.flatMap_cons]
      exact (((hperm.map _).cons _).append hperm')
    · rw [loop, returns_bind, hround stack n pos (hat key), hloop stack n pos hat,
        List.forall_mem_cons, and_assoc, List.append_assoc]

/-- **`pop_json`** of a regular value needs the room for it, and no more. -/
theorem exists_visitJson_of_regular {fuel : Nat} {obj : Json D} (htidy : v.Tidy fun _ => True)
    (h : Regular L obj.mode v) (hfuel : v.size ≤ fuel) :
    ∃ r : (LuaType × Json D) × List (Path D), r.2.Perm v.paths ∧
      ∀ (s : State D) (index : Int), s.value? index = some v → ∀ Q,
        (Returns (visitJson L (fuel + 1) obj index) s Q ↔ v.room ≤ s.free ∧ Q r s) := by
  induction htidy generalizing fuel obj with
  | @other v htype =>
    obtain ⟨r, hr⟩ := exists_visitJson htype L obj
    have hv : v.paths = [] ∧ v.room = 0 := by
      cases v with
      | table => exact absurd rfl htype
      | _ => exact ⟨rfl, rfl⟩
    refine ⟨(r, []), hv.1 ▸ .nil, fun s index hat Q => ?_⟩
    rw [hv.2, and_iff_right (Nat.zero_le _)]
    refine ⟨?_, fun hq => ⟨_, _, hr fuel index s hat, hq⟩⟩
    rintro ⟨_, _, hrun, hq⟩
    cases (hr fuel index s hat).symm.trans hrun
    exact hq
  | @table es nodup keys values ih =>
    obtain ⟨hsteady, hregular⟩ : obj.mode.Steady ((L.order es).map Prod.fst) ∧
        ∀ e ∈ es, Regular L .null e.2 := by
      cases h with
      | other type => exact absurd rfl type
      | table hkeys hvalues => exact ⟨hkeys, hvalues⟩
    have hperm := L.order_perm es
    have hsize : ∀ e ∈ es, e.2.size ≤ Value.sizes es := fun e he =>
      Value.sizes_eq ▸ List.single_le_sum (fun _ _ => Nat.zero_le _) _ (List.mem_map_of_mem he)
    rw [Value.size] at hfuel
    have hshows : ∀ e ∈ L.order es, Shows (visitJson L fuel .null (-1)) e.2 := by
      intro e he
      have hmem := hperm.mem_iff.mp he
      have hle := hsize e hmem
      obtain ⟨k, rfl⟩ : ∃ k, fuel = k + 1 := ⟨fuel - 1, by omega⟩
      have hnull : Regular L (Json.null : Json D).mode e.2 := hregular e hmem
      have hfuel : e.2.size ≤ k := by omega
      obtain ⟨r, hr, hreturns⟩ := ih e hmem hnull hfuel
      exact ⟨r, hr, fun stack n Q => hreturns _ _ value?_top Q⟩
    have hlength : (L.order es).length < fuel := by
      have hle := List.length_le_sum_of_one_le (es.map fun e => e.2.size)
        (List.forall_mem_map.mpr fun e _ => e.2.size_pos)
      rw [List.length_map, ← Value.sizes_eq] at hle
      rw [hperm.length_eq]
      omega
    have hstart : following (L.order es) .nil = some (L.order es).head? := rfl
    obtain ⟨obj', visits, hvisits, hloop⟩ := exists_visitLoop (obj, []) (List.nil_append _).symm
      ((hperm.map _).nodup_iff.mpr nodup) hsteady hshows hstart hlength
    refine ⟨((.table, obj'), visits), ?_, fun s index hat Q => ?_⟩
    · rw [Value.paths_table]
      exact hvisits.trans ((hperm.map _).flatMap_right _)
    · have hall : (∀ e ∈ L.order es, e.2.room + 2 ≤ s.free) ↔ ∀ e ∈ es, e.2.room + 2 ≤ s.free :=
        forall_congr' fun e => imp_congr_left hperm.mem_iff
      rw [returns_congr (visitJson_table hat L fuel obj), returns_bind, returns_push, returns_bind]
      rw [Value.room_table_le_iff, and_assoc, ← hall]
      refine and_congr_right' ((hloop _ _ _ (fun key => value?_push (w := key) hat) _).trans ?_)
      simp only [returns_pure, List.nil_append]
      rfl

/-- `pop_json` returns, the stack is as before, and each entry of each table in `v` has been visited
once. -/
def Reads (L : Impl D) (obj : Json D) (index : Int) (s : State D) (v : Value D) : Prop :=
  ∃ fuel, Returns (visitJson L fuel obj index) s fun r s' => s' = s ∧ r.2.Perm v.paths

variable {s : State D} {obj : Json D} {index : Int}

theorem Reads.regular (htidy : v.Tidy fun _ => True) (hat : s.value? index = some v)
    (h : Reads L obj index s v) : Regular L obj.mode v := by
  obtain ⟨fuel, hreturns⟩ := h
  obtain ⟨r, s', ⟨-, hperm⟩, -, -, hregular⟩ := hreturns.ensures (ensures_visitJson htidy hat)
  exact hregular hperm

theorem Reads.returns (h : Reads L obj index s v) :
    ∃ fuel, Returns (popJson L fuel obj index) s fun _ s' => s' = s := by
  obtain ⟨fuel, hreturns⟩ := h
  refine ⟨fuel, ?_⟩
  rw [popJson_eq, returns_map]
  exact hreturns.mono fun _ _ hr => hr.1

/-- **`pop_json` goes through a value** and visits each entry once exactly if in each table no key
but a string comes after the one that makes an object, and there is room on the stack. -/
theorem reads_iff (htidy : v.Tidy fun _ => True) (hat : s.value? index = some v) :
    Reads L obj index s v ↔ Regular L obj.mode v ∧ v.room ≤ s.free := by
  constructor
  · intro h
    have hregular := h.regular htidy hat
    obtain ⟨fuel, hreturns⟩ := h
    have hsize : v.size ≤ max fuel v.size := Nat.le_max_right _ _
    obtain ⟨r, -, hrun⟩ := exists_visitJson_of_regular htidy hregular hsize
    have hfuel : fuel ≤ max fuel v.size + 1 := Nat.le_succ_of_le (Nat.le_max_left _ _)
    exact ⟨hregular, ((hrun s index hat _).mp
      ((below_visitJson L hfuel obj index).returns hreturns)).1⟩
  · rintro ⟨hregular, hroom⟩
    obtain ⟨r, hperm, hrun⟩ := exists_visitJson_of_regular htidy hregular (Nat.le_refl _)
    exact ⟨v.size + 1, (hrun s index hat _).mpr ⟨hroom, rfl, hperm⟩⟩

end

/-! With exact numbers. -/

theorem order_exactImpl {es : Entries ℚ} (h : es.Pairwise fun a b => a.1.le b.1 = true) :
    exactImpl.order es = es := List.mergeSort_of_pairwise h

/-- After a number, the keys may be of any type. -/
def mixed : Value ℚ :=
  .table [(.integer 1, .string ['x']), (.boolean true, .table []),
    (.string ['a'], .table [(.string ['b'], .boolean true)])]

theorem reads_mixed : Reads exactImpl .null (-1) ⟨[mixed], 20⟩ mixed := by
  have hinner : (Value.table [(.string ['b'], .boolean true)] : Value ℚ).Tidy fun _ => True :=
    .table (by decide) (fun _ _ => trivial) (List.forall_mem_singleton.mpr (.other nofun))
  have htidy : mixed.Tidy fun _ => True := .table (by decide) (fun _ _ => trivial)
    (List.forall_mem_cons.mpr ⟨.other nofun, List.forall_mem_cons.mpr
      ⟨.table .nil nofun nofun, List.forall_mem_singleton.mpr hinner⟩⟩)
  refine (reads_iff htidy rfl).mpr ⟨.table ?_ (List.forall_mem_cons.mpr ⟨.other nofun,
    List.forall_mem_cons.mpr ⟨.table ?_ nofun, List.forall_mem_singleton.mpr (.table ?_
      (List.forall_mem_singleton.mpr (.other nofun)))⟩⟩), by decide⟩
  · rw [order_exactImpl (by decide)]
    exact ⟨nofun, nofun, nofun, trivial⟩
  · rw [order_exactImpl .nil]
    trivial
  · rw [order_exactImpl (by decide)]
    exact ⟨fun _ => rfl, trivial⟩

/-- The second key is a number, and the first one a string. -/
def unsteady : Value ℚ := .table [(.string ['a'], .integer 1), (.number (3 / 2), .integer 2)]

theorem not_reads : unsteady.Tidy (fun _ => True) ∧ unsteady.room ≤ 19 ∧
    ¬ Reads exactImpl .null (-1) ⟨[unsteady], 20⟩ unsteady := by
  have htidy : unsteady.Tidy fun _ => True := .table (by decide) (fun _ _ => trivial)
    (List.forall_mem_cons.mpr ⟨.other nofun, List.forall_mem_singleton.mpr (.other nofun)⟩)
  refine ⟨htidy, by decide, fun h => ?_⟩
  cases h.regular htidy rfl with
  | other type => exact absurd rfl type
  | table keys =>
    rw [order_exactImpl (by decide)] at keys
    exact absurd (keys.2.1 rfl) nofun

end Wish.LuaFunction
