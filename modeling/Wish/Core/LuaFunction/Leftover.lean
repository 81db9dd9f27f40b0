import Wish.Core.LuaFunction.RoundTrip
import Mathlib.Algebra.Order.Ring.Rat

/-!
# What `push_json` leaves under its value

Where the count of a value in a table is not positive as an `int`, `push_json` does not put it into
the table, and what follows goes into the value. `Leaves` is what is on the stack in the end: more
than one value, so that the first of them is too small to come back as what was pushed
(`RoundTrips.counted`).
-/

namespace Wish.LuaFunction

open Lua Prog Json

variable {D : Type}

/-- The keys that `push_json` makes. -/
def Made : Key D → Prop
  | .integer _ | .string _ => True
  | .boolean _ | .number _ | .reference _ _ => False

def Tables (A : List (Value D)) : Prop := ∀ x ∈ A, x.type = .table ∧ x.Tidy Made

def total (A : List (Value D)) : Nat := (A.map Value.size).sum

/-- `x` and `W` are what `v` leaves on the stack. -/
structure Leaves (v : Json D) (x : Value D) (W : List (Value D)) : Prop where
  tidy : x.Tidy Made
  ne_nil : x ≠ .nil
  table : v.children ≠ [] → x.type = .table
  rest : Tables W
  size : x.size + total W ≤ v.size
  long : ¬ Counted v → W ≠ []

/-- The values `vs` have been pushed onto the tables `A`, and `A'` are the tables then. -/
structure Grown (vs : List (Json D)) (A A' : List (Value D)) : Prop where
  tables : Tables A'
  size : total A' ≤ total A + (vs.map Json.size).sum
  length : A.length ≤ A'.length
  long : (∃ v ∈ vs, v.count ≤ 0 ∨ ¬ Counted v) → A.length < A'.length

variable {v : Json D} {vs : List (Json D)} {A A' B : List (Value D)} {x : Value D}

theorem counted_iff : Counted v ↔ (∀ u ∈ v.children, 0 < u.count) ∧ ∀ u ∈ v.children, Counted u :=
  ⟨fun h => ⟨h.here, h.child⟩, fun h => .mk h.1 h.2⟩

theorem total_cons : total (x :: A) = x.size + total A := by
  rw [total, List.map_cons, List.sum_cons, total]

theorem total_append : total (A ++ B) = total A + total B := by
  rw [total, List.map_append, List.sum_append, total, total]

theorem Tables.append (hA : Tables A) (hB : Tables B) : Tables (A ++ B) := by
  intro x hx
  rcases List.mem_append.mp hx with hx | hx
  · exact hA x hx
  · exact hB x hx

theorem Tables.cons (hx : x.type = .table) (htidy : x.Tidy Made) (hA : Tables A) :
    Tables (x :: A) :=
  Tables.append (List.forall_mem_singleton.mpr ⟨hx, htidy⟩) hA

theorem Grown.refl (hA : Tables A) : Grown [] A A where
  tables := hA
  size := Nat.le_refl _
  length := Nat.le_refl _
  long := by simp

theorem Grown.trans {C : List (Value D)} (h : Grown [v] A B) (h' : Grown vs B C) :
    Grown (v :: vs) A C where
  tables := h'.tables
  size := by
    have hle := h.size
    have hle' := h'.size
    rw [List.map_cons, List.map_nil, List.sum_cons, List.sum_nil] at hle
    rw [List.map_cons, List.sum_cons]
    omega
  length := h.length.trans h'.length
  long := by
    rintro ⟨u, hu, hlong⟩
    rcases List.mem_cons.mp hu with rfl | hu
    · exact (h.long ⟨u, List.mem_singleton_self u, hlong⟩).trans_le h'.length
    · exact h.length.trans_lt (h'.long ⟨u, hu, hlong⟩)

theorem Grown.ne_nil (h : Grown vs A B) (hne : A ≠ []) : B ≠ [] :=
  List.ne_nil_of_length_pos ((List.length_pos_iff.mpr hne).trans_le h.length)

/-- The table of an array or an object, when all that is in it has been pushed. -/
theorem Leaves.of_grown (h : Grown v.children [.table []] A) :
    ∃ x W, A = x :: W ∧ Leaves v x W := by
  obtain ⟨x, W, rfl⟩ := List.exists_cons_of_length_pos h.length
  obtain ⟨hx, hW⟩ := List.forall_mem_cons.mp h.tables
  refine ⟨x, W, rfl, hx.2, fun hnil => ?_, fun _ => hx.1, hW, ?_, fun hv => ?_⟩
  · rw [hnil] at hx
    cases hx.1
  · have hle := h.size
    have hone : total [(.table [] : Value D)] = 1 := rfl
    rw [total_cons, hone] at hle
    rw [size_eq]
    omega
  · have hlong : ∃ u ∈ v.children, u.count ≤ 0 ∨ ¬ Counted u := by
      by_contra hno
      simp only [not_exists, not_and, not_or, not_le, not_not] at hno
      exact hv (counted_iff.mpr ⟨fun u hu => (hno u hu).1, fun u hu => (hno u hu).2⟩)
    exact List.ne_nil_of_length_pos (Nat.lt_of_succ_lt_succ (h.long hlong))

/-- Of a value without children, one is counted. -/
theorem Json.Fit.count_eq_one [Double D] (h : Fit v) (hv : v.children = []) : v.count = 1 := by
  cases h with
  | array ne_nil => exact absurd hv ne_nil
  | object ne_nil => exact absurd (List.map_eq_nil_iff.mp hv) ne_nil
  | _ => rfl

theorem Leaves.grown_under (h : Leaves v x B) (hA : Tables A) (hv : v.children ≠ []) :
    Grown [v] A (x :: B ++ A) where
  tables := .append (.cons (h.table hv) h.tidy h.rest) hA
  size := by
    have hsize := h.size
    rw [total_append, total_cons, List.map_cons, List.map_nil, List.sum_cons, List.sum_nil]
    omega
  length := by
    rw [List.length_append]
    omega
  long _ := by
    rw [List.length_append, List.length_cons]
    omega

theorem Leaves.grown_set [DecidableEq D] {k : Key D} (h : Leaves v x B) (hk : Made k) (hA : Tables A)
    (hne : A ≠ []) (hv : Counted v → 0 < v.count) :
    ∃ es C, B ++ A = .table es :: C ∧ Grown [v] A (.table (setEntry es k x) :: C) := by
  obtain ⟨y, C, hC⟩ := List.exists_cons_of_ne_nil (List.append_ne_nil_of_right_ne_nil B hne)
  have hall := h.rest.append hA
  have hlength := congrArg List.length hC
  have htotal := congrArg total hC
  rw [List.length_append, List.length_cons] at hlength
  rw [total_append, total_cons] at htotal
  rw [hC] at hall
  obtain ⟨⟨hy, htidy⟩, hrest⟩ := List.forall_mem_cons.mp hall
  cases y with
  | table es =>
    have hsize := h.size
    have hset : (Value.table (setEntry es k x)).size ≤ (Value.table es).size + x.size := by
      have hle := Value.sizes_setEntry_le (k := k) h.ne_nil htidy.entries.1
      rw [Value.size, Value.size]
      omega
    refine ⟨es, C, hC, .cons rfl (htidy.setEntry hk h.ne_nil h.tidy) hrest, ?_, ?_, ?_⟩
    · rw [total_cons, List.map_cons, List.map_nil, List.sum_cons, List.sum_nil]
      omega
    · rw [List.length_cons]
      omega
    · rintro ⟨u, hu, hlong⟩
      cases List.mem_singleton.mp hu
      have hv' : ¬ Counted v := hlong.elim (fun hle hc => absurd (hv hc) hle.not_gt) id
      have hpos := List.length_pos_iff.mpr (h.long hv')
      rw [List.length_cons]
      omega
  | reference =>
    cases htidy with
    | other htype => exact absurd hy htype
  | nil | boolean | integer | number | string => cases hy

theorem tables_empty : Tables [(.table [] : Value D)] :=
  List.forall_mem_singleton.mpr ⟨rfl, .table .nil nofun nofun⟩

/-- A value without children is alone. -/
theorem Leaves.one (hv : v.children = []) (hlua : x ≠ .nil) (htype : x.type ≠ .table) :
    Leaves v x [] where
  tidy := .other htype
  ne_nil := hlua
  table hne := absurd hv hne
  rest := nofun
  size := by
    have hsize : x.size = 1 := by
      cases x with
      | table => exact absurd rfl htype
      | nil | boolean | integer | number | string | reference => rfl
    rw [hsize, size_eq]
    exact Nat.le_add_left 1 _
  long hc := absurd (counted_iff.mpr (by simp [hv])) hc

/-! ## `push_json` -/

section

variable [DecidableEq D] [Double D] {base : List (Value D)} {n : Nat}

/-- What `push_json` of `v` leaves, and returns. -/
def PushLeaves (v : Json D) : Prop :=
  ∀ s : State D, Ensures (pushJson v) s fun c s' =>
    (∃ x W, s' = ⟨x :: W ++ s.stack, s.slots⟩ ∧ Leaves v x W) ∧ (Counted v → c = v.count)

/-- A round of the loop over an array or an object. -/
theorem ensures_round {k : Key D} {g g' : LuaProg D Nat} {R : Nat → State D → Prop} (hfit : Fit v)
    (hpush : PushLeaves v) (hk : Made k) (hA : Tables A) (hne : A ≠ [])
    (hg : ∀ A', Grown [v] A A' → Ensures g ⟨A' ++ base, n⟩ R ∧ Ensures g' ⟨A' ++ base, n⟩ R) :
    Ensures (pushJson v >>= fun c => if c > 0 then rawset k >>= fun _ => g else g')
      ⟨A ++ base, n⟩ R := by
  refine ensures_bind.mpr ((hpush _).mono ?_)
  rintro c s' ⟨⟨x, W, rfl, hleaves⟩, hc⟩
  by_cases hpos : c > 0
  · rw [if_pos hpos]
    obtain ⟨es, C, hC, hgrown⟩ := hleaves.grown_set hk hA hne fun hv => hc hv ▸ hpos
    have hstack : x :: W ++ (A ++ base) = x :: .table es :: (C ++ base) := by
      rw [List.cons_append, ← List.append_assoc, hC, List.cons_append]
    rw [hstack]
    exact ensures_bind.mpr (ensures_rawset (hg _ hgrown).1)
  · rw [if_neg hpos]
    have hchildren : v.children ≠ [] := by
      intro hnil
      have hcounted : Counted v := counted_iff.mpr (by simp [hnil])
      rw [hc hcounted, hfit.count_eq_one hnil] at hpos
      exact hpos Int.one_pos
    have happend : x :: W ++ (A ++ base) = x :: W ++ A ++ base := (List.append_assoc _ _ _).symm
    rw [happend]
    exact (hg _ (hleaves.grown_under hA hchildren)).2

theorem ensures_pushRows {rows : List (Key D × Json D)} {count : Nat}
    (hfit : ∀ u ∈ rows.map Prod.snd, Fit u) (hpush : ∀ u ∈ rows.map Prod.snd, PushLeaves u)
    (hmade : ∀ r ∈ rows, Made r.1) (hA : Tables A) (hne : A ≠ []) :
    Ensures (pushRows rows count) ⟨A ++ base, n⟩ fun _ s' =>
      ∃ A', s' = ⟨A' ++ base, n⟩ ∧ Grown (rows.map Prod.snd) A A' := by
  induction rows generalizing count A with
  | nil => exact ensures_pure.mpr ⟨A, rfl, .refl hA⟩
  | cons r rows ih =>
    obtain ⟨k, v⟩ := r
    obtain ⟨hfit, hfits⟩ := List.forall_mem_cons.mp hfit
    obtain ⟨hpush, hpushes⟩ := List.forall_mem_cons.mp hpush
    obtain ⟨hk, hmade⟩ := List.forall_mem_cons.mp hmade
    have hrest : ∀ A' count, Grown [v] A A' →
        Ensures (pushRows rows count) ⟨A' ++ base, n⟩ fun _ s' =>
          ∃ A', s' = ⟨A' ++ base, n⟩ ∧ Grown (v :: rows.map Prod.snd) A A' := by
      intro A' count hgrown
      refine (ih hfits hpushes hmade hgrown.tables (hgrown.ne_nil hne)).mono ?_
      rintro _ s' ⟨B, rfl, hB⟩
      exact ⟨B, rfl, hgrown.trans hB⟩
    rw [pushRows]
    exact ensures_round hfit hpush hk hA hne fun A' hgrown =>
      ⟨hrest A' _ hgrown, hrest A' _ hgrown⟩

theorem PushLeaves.of_leaves (h : Fit v)
    (hleaves : ∀ s : State D, Ensures (pushJson v) s fun _ s' =>
      ∃ x W, s' = ⟨x :: W ++ s.stack, s.slots⟩ ∧ Leaves v x W) : PushLeaves v := by
  refine fun s => (hleaves s).and (ensures_of_returns fun hret => ?_)
  by_cases hc : Counted v
  · have hroom := ((returns_pushJson h hc s _).mp hret).1
    exact (returns_pushJson h hc s _).mpr ⟨hroom, fun _ => rfl⟩
  · exact hret.mono fun _ _ _ hc' => absurd hc' hc

/-- The rows of an array or an object. -/
theorem PushLeaves.of_rows {rows : List (Key D × Json D)} {start : Nat} (h : Fit v)
    (hpush : pushJson v = pushTable rows start) (hchildren : rows.map Prod.snd = v.children)
    (hmade : ∀ r ∈ rows, Made r.1) (hfit : ∀ u ∈ v.children, Fit u)
    (hpushes : ∀ u ∈ v.children, PushLeaves u) : PushLeaves v := by
  refine .of_leaves h fun s => ?_
  rw [← hchildren] at hfit hpushes
  have hrows : Ensures (pushRows rows start) ⟨[.table []] ++ s.stack, s.slots⟩ fun _ s' =>
      ∃ A', s' = ⟨A' ++ s.stack, s.slots⟩ ∧ Grown (rows.map Prod.snd) [.table []] A' :=
    ensures_pushRows hfit hpushes hmade tables_empty (List.cons_ne_nil _ _)
  rw [hpush]
  refine ensures_bind.mpr (ensures_push (ensures_bind.mpr (hrows.mono ?_)))
  rintro c s' ⟨A, rfl, hA⟩
  rw [hchildren] at hA
  obtain ⟨x, W, rfl, hleaves⟩ := Leaves.of_grown hA
  exact ensures_pure.mpr ⟨x, W, rfl, hleaves⟩

theorem pushLeaves (h : Fit v) : PushLeaves v := by
  induction h with
  | boolean | string nul | numberUnsigned lt | numberInteger | numberFloat finite =>
    refine .of_leaves (by constructor <;> assumption) fun s => ?_
    rw [pushJson]
    refine ensures_bind.mpr (ensures_push (ensures_pure.mpr ⟨_, [], rfl, .one rfl ?_ ?_⟩))
    all_goals
      intro heq
      cases heq
  | @array items hne hlt hfit ih =>
    refine .of_rows (.array hne hlt hfit) (pushJson_array hne) map_snd_numbered (fun r hr => ?_)
      hfit ih
    obtain ⟨i, hi, -⟩ := (mem_keys_numbered hlt).mp (List.mem_map_of_mem hr)
    rw [hi]
    trivial
  | @object members hne hsorted hnul hfit ih =>
    refine .of_rows (.object hne hsorted hnul hfit) pushJson_object ?_
      (List.forall_mem_map.mpr fun _ _ => trivial) (List.forall_mem_map.mpr hfit)
      (List.forall_mem_map.mpr ih)
    rw [List.map_map]
    rfl

end

/-! ## `pop_json` -/

section

variable [DecidableEq D] {L : Impl D} {es : Entries D} {stack : List (Value D)}

/-- A key as `luaL_checkstring` gives it. -/
def keyText (L : Impl D) : Key D → Text
  | .boolean _ => []
  | .integer n => cStr (L.integerText n)
  | .number d => cStr (L.numberText d)
  | .string s => cStr s
  | .reference _ _ => []

/-- What `obj` can be with this key at the top, in the loop over a table. A key that is made a
string may be found again, but it gives the same member. -/
inductive Popped (L : Impl D) (es : Entries D) : Value D → Json D → Prop
  | start : Popped L es .nil .null
  | array {key : Value D} {items : List (Json D)} {done todo : Entries D}
      (split : L.order es = done ++ todo)
      (next : following (L.order es) key = some todo.head?)
      (size : (items.map Json.size).sum ≤ Value.sizes done) : Popped L es key (.array items)
  | object {key : Value D} {members : List (Text × Json D)}
      (sorted : members.Pairwise fun a b => a.1 < b.1)
      (entry : ∀ m ∈ members, ∃ e ∈ es, keyText L e.1 = m.1 ∧ m.2.size ≤ e.2.size) :
      Popped L es key (.object members)

omit [DecidableEq D] in
/-- Members with different names come from different entries. -/
theorem sum_size_le {members : List (Text × Json D)} (hnodup : (members.map Prod.fst).Nodup)
    (hentry : ∀ m ∈ members, ∃ e ∈ es, keyText L e.1 = m.1 ∧ m.2.size ≤ e.2.size) :
    (members.map fun m => m.2.size).sum ≤ Value.sizes es := by
  induction members generalizing es with
  | nil => exact Nat.zero_le _
  | cons m ms ih =>
    obtain ⟨hfresh, hnodup⟩ := List.nodup_cons.mp hnodup
    obtain ⟨⟨e, he, htext, hsize⟩, hentries⟩ := List.forall_mem_cons.mp hentry
    obtain ⟨es₁, es₂, rfl⟩ := List.mem_iff_append.mp he
    have hrest : (ms.map fun m => m.2.size).sum ≤ Value.sizes (es₁ ++ es₂) := by
      refine ih hnodup fun m' hm' => ?_
      obtain ⟨e', he', htext', hsize'⟩ := hentries m' hm'
      have hne : e' ≠ e := by
        rintro rfl
        exact hfresh (htext.symm.trans htext' ▸ List.mem_map_of_mem hm')
      exact ⟨e', by simpa [hne] using he', htext', hsize'⟩
    rw [Value.sizes_append] at hrest ⊢
    rw [List.map_cons, List.sum_cons, Value.sizes]
    omega

theorem Popped.size_le {key : Value D} {obj : Json D} (h : Popped L es key obj) :
    obj.size ≤ Value.sizes es + 1 := by
  cases h with
  | start => exact Nat.le_add_left 1 _
  | array split next size =>
    have hsizes := Value.sizes_perm (L.order_perm es)
    rw [split, Value.sizes_append] at hsizes
    rw [size_eq, children]
    omega
  | object sorted entry =>
    rw [size_eq, children, List.map_map]
    exact Nat.succ_le_succ (sum_size_le (List.pairwise_map.mpr (sorted.imp fun hlt => hlt.ne)) entry)

theorem Popped.insert {key : Value D} {members : List (Text × Json D)} {e : Key D × Value D}
    {value : Json D} (h : Popped L es key (.object members)) (he : e ∈ es)
    (hvalue : value.size ≤ e.2.size) (key' : Value D) :
    Popped L es key' (.object (OrdMap.insertEntry (keyText L e.1) value members)) := by
  cases h with
  | object sorted entry =>
    refine .object (OrdMap.insertEntry_sorted sorted) fun m hm => ?_
    rcases OrdMap.mem_insertEntry hm with rfl | hm
    · exact ⟨e, he, rfl, hvalue⟩
    · exact entry m hm

theorem Popped.push {key : Value D} {items : List (Json D)} {e : Key D × Value D} {value : Json D}
    (h : Popped L es key (.array items)) (hnodup : (es.map Prod.fst).Nodup)
    (he : following (L.order es) key = some (some e)) (hvalue : value.size ≤ e.2.size) :
    Popped L es e.1.value (.array (items ++ [value])) := by
  cases h with
  | @array _ _ done todo split next size =>
    obtain ⟨e', todo, rfl⟩ : ∃ e' es', todo = e' :: es' := by
      cases todo with
      | nil => cases next.symm.trans he
      | cons e' es' => exact ⟨e', es', rfl⟩
    cases next.symm.trans he
    have hkeys := ((L.order_perm es).map Prod.fst).nodup_iff.mpr hnodup
    have hsplit : L.order es = (done ++ [e]) ++ todo := by
      rw [split, List.append_assoc, List.singleton_append]
    refine .array hsplit (following_of_split hkeys split) ?_
    · rw [List.map_append, List.sum_append, Value.sizes_append]
      exact Nat.add_le_add size (by simpa [Value.sizes] using hvalue)

/-- A round of the loop. -/
theorem ensures_popEntry {key : Value D} {obj : Json D} {n : Nat}
    {popValue : LuaProg D (LuaType × Json D)} (htidy : (Value.table es).Tidy Made)
    (hobj : Popped L es key obj)
    (hvalue : ∀ e ∈ es, Ensures popValue ⟨e.2 :: e.1.value :: .table es :: stack, n⟩ fun r s' =>
      s' = ⟨e.2 :: e.1.value :: .table es :: stack, n⟩ ∧ r.2.size ≤ e.2.size) :
    Ensures (popEntry L popValue (-2) obj) ⟨key :: .table es :: stack, n⟩ fun r s' =>
      match r with
      | .inl obj' => ∃ key', s' = ⟨key' :: .table es :: stack, n⟩ ∧ Popped L es key' obj'
      | .inr obj' => s' = ⟨.table es :: stack, n⟩ ∧ obj'.size ≤ Value.sizes es + 1 := by
  rw [popEntry]
  refine ensures_bind.mpr (ensures_next ?_ fun e he => ?_)
  · exact ensures_pure.mpr ⟨rfl, hobj.size_le⟩
  · have hmem : e ∈ es := (L.order_perm es).mem_iff.mp (mem_of_following he)
    refine ensures_bind.mpr ((hvalue e hmem).mono ?_)
    rintro ⟨t, value⟩ s' ⟨rfl, hsize⟩
    obtain ⟨hnodup, hkeys, -⟩ := htidy.entries
    have hmade := hkeys e hmem
    have hinsert := fun members (h : Popped L es key (.object members)) => h.insert hmem hsize
    have hpush := fun items (h : Popped L es key (.array items)) => h.push hnodup he hsize
    obtain ⟨k, v⟩ := e
    cases k with
    | boolean | number | reference => cases hmade
    | integer i =>
      cases hobj with
      | start =>
        have hempty : Popped L es .nil (.array []) := .array (List.nil_append _).symm rfl (Nat.le_refl _)
        simpa [Lua.type, Key.value, Value.type, Lua.pop, State.drop] using hpush [] hempty
      | array split next size =>
        simpa [Lua.pop, State.drop] using hpush _ (.array split next size)
      | object sorted entry =>
        simpa [Key.value, checkstring, State.setAt, Lua.pop, State.drop, keyText] using
          hinsert _ (.object sorted entry) (.string (L.integerText i))
    | string t =>
      cases hobj with
      | start =>
        have hempty : Popped L es .nil (.object []) :=
          .object .nil fun m hm => absurd hm List.not_mem_nil
        simpa [Lua.type, Key.value, Value.type, checkstring, Lua.pop, State.drop, keyText,
          OrdMap.insertEntry] using hinsert [] hempty (.string t)
      | array split next size =>
        simpa [Lua.pop, State.drop] using hpush _ (.array split next size)
      | object sorted entry =>
        simpa [Key.value, checkstring, Lua.pop, State.drop, keyText] using
          hinsert _ (.object sorted entry) (.string t)

variable [Double D]

/-- What comes back is no larger than what it comes from. -/
theorem ensures_popJson {fuel n : Nat} {x : Value D} (hx : x.Tidy Made) :
    Ensures (popJson L fuel .null (-1)) ⟨x :: stack, n⟩ fun r s' =>
      s' = ⟨x :: stack, n⟩ ∧ r.2.size ≤ x.size := by
  induction fuel generalizing x stack with
  | zero => exact ensures_throw
  | succ fuel ih =>
    cases x with
    | nil | integer | number | string =>
      simp [popJson, Lua.type, Value.type, checknumber, checkstring, Value.size, Json.size, fold]
    | boolean b =>
      cases b <;> simp [popJson, Lua.type, Value.type, toboolean, Value.size, Json.size, fold]
    | reference t =>
      cases t with
      | table =>
        cases hx with
        | other htype => exact absurd rfl htype
      | lightuserdata | function | userdata | thread =>
        simp [popJson, Lua.type, Value.type, RefType.type, Value.size, Json.size, fold]
    | table es =>
      have hloop : Ensures (loop .stuck (popEntry L (popJson L fuel .null (-1)) (-2)) fuel .null)
          ⟨.nil :: .table es :: stack, n⟩ fun obj s' =>
            s' = ⟨.table es :: stack, n⟩ ∧ obj.size ≤ Value.sizes es + 1 := by
        refine Ensures.loop (I := fun obj s =>
          ∃ key, s = ⟨key :: .table es :: stack, n⟩ ∧ Popped L es key obj) ?_ ⟨_, rfl, .start⟩
        rintro obj s ⟨key, rfl, hobj⟩
        refine (ensures_popEntry hx hobj fun e he => ih (hx.entries.2.2 e he)).mono fun r s' hr => ?_
        cases r <;> exact hr
      simp only [popJson, Lua.type, Value.type, ensures_bind, ensures_get, value?_top, ensures_pure]
      exact ensures_push hloop

end

theorem sum_size_of_eqItems [Double D] {items items' : List (Json D)}
    (h : ∀ v ∈ items, ∀ {r : Json D}, v.eq r = true → v.size = r.size)
    (heq : eqItems items items' = true) : (items.map size).sum = (items'.map size).sum := by
  induction items generalizing items' with
  | nil =>
    cases items' with
    | nil => rfl
    | cons r rs => cases heq
  | cons v vs ih =>
    cases items' with
    | nil => cases heq
    | cons r rs =>
      obtain ⟨hv, hvs⟩ := List.forall_mem_cons.mp h
      rw [eqItems, Bool.and_eq_true] at heq
      rw [List.map_cons, List.sum_cons, List.map_cons, List.sum_cons, hv heq.1, ih hvs heq.2]

theorem sum_size_of_eqMembers [Double D] {members members' : List (Text × Json D)}
    (h : ∀ m ∈ members, ∀ {r : Json D}, m.2.eq r = true → m.2.size = r.size)
    (heq : eqMembers members members' = true) :
    ((members.map Prod.snd).map size).sum = ((members'.map Prod.snd).map size).sum := by
  induction members generalizing members' with
  | nil =>
    cases members' with
    | nil => rfl
    | cons r rs => cases heq
  | cons m ms ih =>
    cases members' with
    | nil => cases heq
    | cons r rs =>
      obtain ⟨hm, hms⟩ := List.forall_mem_cons.mp h
      rw [eqMembers, Bool.and_eq_true, Bool.and_eq_true] at heq
      simp only [List.map_cons, List.sum_cons]
      rw [hm heq.1.2, ih hms heq.2]

/-- Equal values are of one size. -/
theorem size_eq_of_eq [Double D] {r : Json D} (h : Fit v) (heq : v.eq r = true) :
    v.size = r.size := by
  induction h generalizing r with
  | boolean | string nul | numberUnsigned lt | numberInteger | numberFloat finite =>
    cases r <;> first | rfl | (simp [Json.eq] at heq)
  | @array items hne hlt hfit ih =>
    cases r with
    | array items' =>
      rw [size_eq, size_eq (.array items')]
      exact congrArg (· + 1) (sum_size_of_eqItems ih heq)
    | null | boolean | string | numberUnsigned | numberInteger | numberFloat | object | binary =>
      cases heq
  | @object members hne hsorted hnul hfit ih =>
    cases r with
    | object members' =>
      rw [size_eq, size_eq (.object members')]
      exact congrArg (· + 1) (sum_size_of_eqMembers ih heq)
    | null | boolean | string | numberUnsigned | numberInteger | numberFloat | array | binary =>
      cases heq

section

variable [DecidableEq D] [Double D] {L : Impl D} {s : State D}

/-- What is left over is missing from what comes back. -/
theorem RoundTrips.counted (h : Fit v) (hround : RoundTrips L s v) : Counted v := by
  by_contra hc
  obtain ⟨fuel, hround⟩ := hround
  have hpush := pushLeaves h s
  have hensures : Ensures (roundTrip L v fuel) s fun r _ => r.size < v.size := by
    refine ensures_bind.mpr (hpush.mono ?_)
    rintro c s' ⟨⟨x, W, rfl, hleaves⟩, -⟩
    refine ensures_bind.mpr ((ensures_popJson hleaves.tidy).mono ?_)
    rintro ⟨t, r⟩ s' ⟨-, hle⟩
    refine ensures_pure.mpr ?_
    obtain ⟨y, W, rfl⟩ := List.exists_cons_of_ne_nil (hleaves.long hc)
    have hsize := hleaves.size
    have hpos := y.size_pos
    rw [total_cons] at hsize
    show r.size < v.size
    have hle' : r.size ≤ x.size := hle
    omega
  obtain ⟨r, -, heq, hlt⟩ := hround.ensures hensures
  exact absurd (size_eq_of_eq h heq) hlt.ne'

/-- **The round trip** gives back an equal value exactly when no boolean is in it, there is room on
the stack for two slots for each level, and the counts of arrays and objects in it are positive. -/
theorem roundTrips_iff (h : Fit v) :
    RoundTrips L s v ↔ NoBoolean v ∧ 2 * v.height ≤ s.free + 1 ∧ Counted v := by
  constructor
  · intro hround
    have hc := hround.counted h
    obtain ⟨hroom, hbool⟩ := (roundTrips_iff_of_counted h hc).mp hround
    exact ⟨hbool, hroom, hc⟩
  · rintro ⟨hbool, hroom, hc⟩
    exact (roundTrips_iff_of_counted h hc).mpr ⟨hroom, hbool⟩

end

/-! With exact numbers. -/

instance : Double ℚ where
  ofInt i := i
  eq a b := a = b
  IsFinite _ := True
  eq_self _ _ := decide_eq_true rfl
  isFinite_ofInt _ _ := trivial

def exactImpl : Impl ℚ := .ascending fun d => (toString d).toList

def nested : Json ℚ := .object [(['a'], .array [.numberInteger 1, .string ['x']])]

theorem roundTrips_nested : RoundTrips exactImpl ⟨[], 20⟩ nested := by
  have hitems : ∀ v ∈ [Json.numberInteger 1, Json.string ['x']], Fit (D := ℚ) v := by
    refine List.forall_mem_cons.mpr ⟨.numberInteger 1, List.forall_mem_singleton.mpr (.string ?_)⟩
    decide
  have hfit : Fit nested := .object (List.cons_ne_nil _ _) (List.pairwise_singleton _ _)
    (List.forall_mem_singleton.mpr (by decide))
    (List.forall_mem_singleton.mpr (.array (List.cons_ne_nil _ _) (by decide) hitems))
  refine (roundTrips_iff hfit).mpr ⟨?_, by decide, ?_⟩
  · exact .mk nofun (List.forall_mem_singleton.mpr (.mk nofun
      (List.forall_mem_cons.mpr ⟨.mk nofun nofun, List.forall_mem_singleton.mpr (.mk nofun nofun)⟩)))
  · exact .mk (List.forall_mem_singleton.mpr (by decide)) (List.forall_mem_singleton.mpr (.mk
      (List.forall_mem_cons.mpr ⟨by decide, List.forall_mem_singleton.mpr (by decide)⟩)
      (List.forall_mem_cons.mpr ⟨.mk nofun nofun, List.forall_mem_singleton.mpr (.mk nofun nofun)⟩)))

/-- It comes back as 1. -/
theorem not_roundTrips_true :
    Fit (.boolean true : Json ℚ) ∧ ¬ RoundTrips exactImpl ⟨[], 20⟩ (.boolean true) := by
  refine ⟨.boolean true, fun h => ?_⟩
  have hc : Counted (.boolean true : Json ℚ) := .mk nofun nofun
  exact ((roundTrips_iff_of_counted (.boolean true) hc).mp h).2.here true rfl

end Wish.LuaFunction
